import Bitfold.Lib.Runs
import Bitfold.ChannelTheorems
/-!
# The sequenced channel

The messages of a stream arrive in any order, some lost and some repeated. As
long as each is less than half the circle of labels away from the newest one
that has passed, a message passes if it is newer. A repeat of the newest one
passes too, since the comparison lets a difference of 0 through, and so does
any old message whose label is 0.
-/

namespace Bitfold

open Lib

namespace ChannelState

section Sequenced

variable (m : Nat → SharedBytes)

/-- Message `k` arrives: it is added to those that have passed if the channel
returns it. -/
def arrive (r : List Nat × ChannelState) (k : Nat) : List Nat × ChannelState :=
  match r.2.process_sequenced (label k) (m k) with
  | (some _, s) => (r.1 ++ [k], s)
  | (none, s) => (r.1, s)

/-- The messages that pass as `ks` arrive at a new channel, and its state then. -/
def sequenced (ks : List Nat) : List Nat × ChannelState := ks.foldl (arrive m) ([], new)

/-- The newest of the messages that have passed as `ks` arrived. -/
def newest (ks : List Nat) : Option Nat := (sequenced m ks).1.max?

/-- Each arriving message is less than 32768 away from the newest one that has
passed. -/
def Near (ks : List Nat) : Prop :=
  AtEach (fun earlier k => ∀ n ∈ newest m earlier, n < k + 32768 ∧ k < n + 32768) ks

/-- What passes is strictly increasing: a message that is older than the newest
one, or the newest one again, is dropped. -/
structure NeverBackwards (ks : List Nat) : Prop where
  increasing : (sequenced m ks).1.Pairwise (· < ·)
  dropped : AtEach (fun earlier k => ∀ n ∈ newest m earlier, k ≤ n →
    ((sequenced m earlier).2.process_sequenced (label k) (m k)).1 = none) ks

/-- The arrivals from the first one on whose label is in the lower half, which
is the first to pass. -/
def heard (ks : List Nat) : List Nat := ks.dropWhile fun k => 32768 ≤ k % 65536

/-- Of the messages heard the newest one does not come again, and none whose
label is 0 comes after a newer one. -/
def Fresh (ks : List Nat) : Prop :=
  AtEach (fun earlier k => ∀ n ∈ (heard earlier).max?, k ≠ n ∧ (k < n → k % 65536 ≠ 0)) ks

variable {m}

theorem sequenced_snoc (ks : List Nat) (k : Nat) : sequenced m (ks ++ [k]) = arrive m (sequenced m ks) k := by
  rw [sequenced, List.foldl_append]
  rfl

/-- Message `k` passes: its label is ahead of the latest one, or 0. -/
def Passes (s : ChannelState) (k : Nat) : Prop :=
  (label k - s.latest_sequence).toNat < 32768 ∨ k % 65536 = 0

instance (s : ChannelState) (k : Nat) : Decidable (s.Passes k) := inferInstanceAs (Decidable (_ ∨ _))

theorem process_sequenced_eq (s : ChannelState) (k : Nat) (d : SharedBytes) :
    s.process_sequenced (label k) d =
      if s.Passes k then (some d, { s with latest_sequence := label k }) else (none, s) := by
  have hzero : label k = 0 ↔ k % 65536 = 0 := by
    rw [show (0 : UInt16) = label 0 from rfl, label_eq_iff]
    omega
  have hpasses : (decide (label k - s.latest_sequence < 32768) || label k == 0) = true ↔ s.Passes k := by
    rw [Bool.or_eq_true, decide_eq_true_eq, beq_iff_eq, hzero]
    rfl
  unfold process_sequenced
  exact if_congr hpasses rfl rfl

theorem arrive_of_passes {r : List Nat × ChannelState} {k : Nat} (h : r.2.Passes k) :
    arrive m r k = (r.1 ++ [k], { r.2 with latest_sequence := label k }) := by
  rw [arrive, process_sequenced_eq, if_pos h]

theorem arrive_of_dropped {r : List Nat × ChannelState} {k : Nat} (h : ¬ r.2.Passes k) : arrive m r k = r := by
  rw [arrive, process_sequenced_eq, if_neg h]

/-- Within half the circle, the comparison of the labels is that of the
messages. -/
theorem label_sub_lt_iff {k n : Nat} (h : n < k + 32768) (h' : k < n + 32768) :
    (label k - label n).toNat < 32768 ↔ n ≤ k := by
  have hdist := label_toNat (k - n)
  rw [label_sub]
  omega

/-- Before any message has passed, one passes if its label is in the lower half. -/
theorem label_sub_zero_lt_iff {k : Nat} :
    (label k - 0).toNat < 32768 ∨ k % 65536 = 0 ↔ k % 65536 < 32768 := by
  have hk := label_toNat k
  rw [UInt16.sub_zero]
  omega

theorem heard_snoc (ks : List Nat) (k : Nat) :
    heard (ks ++ [k]) = if heard ks = [] then heard [k] else heard ks ++ [k] := by
  unfold heard
  rw [List.dropWhile_append]
  simp only [List.isEmpty_iff]

theorem heard_singleton (k : Nat) : heard [k] = if k % 65536 < 32768 then [k] else [] := by
  unfold heard
  by_cases hk : k % 65536 < 32768
  · rw [if_pos hk, List.dropWhile_cons_of_neg (by simpa using hk)]
  · rw [if_neg hk, List.dropWhile_cons_of_pos (by simpa using hk)]
    rfl

theorem max?_snoc {l : List Nat} {n : Nat} (h : l.max? = some n) (k : Nat) : (l ++ [k]).max? = some (max n k) := by
  rw [List.max?_eq_some_iff] at h ⊢
  obtain ⟨hmem, hle⟩ := h
  constructor
  · rcases max_choice n k with hm | hm <;> simp [hm, hmem]
  · intro b hb
    rcases List.mem_append.1 hb with hb | hb
    · exact le_max_of_le_left (hle b hb)
    · exact le_max_of_le_right (List.mem_singleton.1 hb).le

/-- The channel keeps the label of the newest message heard, which is the newest
that has passed. -/
structure Keeps (m : Nat → SharedBytes) (ks : List Nat) : Prop where
  increasing : (sequenced m ks).1.Pairwise (· < ·)
  top : newest m ks = (heard ks).max?
  latest : (sequenced m ks).2.latest_sequence = ((heard ks).max?.map fun k : Nat => label k).getD 0

theorem keeps_nil : Keeps m [] := ⟨List.Pairwise.nil, rfl, rfl⟩

/-- The message after those heard, seen from the newest one. -/
theorem Keeps.passes_iff {ks : List Nat} {n k : Nat} (h : Keeps m ks) (hn : (heard ks).max? = some n)
    (hnear : n < k + 32768 ∧ k < n + 32768) :
    (sequenced m ks).2.Passes k ↔ n ≤ k ∨ k % 65536 = 0 := by
  rw [Passes, h.latest, hn, Option.map_some, Option.getD_some, label_sub_lt_iff hnear.1 hnear.2]

/-- A message that passes is the newest one from then on. -/
theorem Keeps.passed {ks : List Nat} {k : Nat} (h : Keeps m ks) (hpasses : (sequenced m ks).2.Passes k)
    (hnewer : ∀ n ∈ (sequenced m ks).1, n < k) (hmax : (heard (ks ++ [k])).max? = some k) : Keeps m (ks ++ [k]) := by
  have hsequenced := (sequenced_snoc (m := m) ks k).trans (arrive_of_passes hpasses)
  refine ⟨?_, ?_, ?_⟩
  · rw [hsequenced]
    refine List.pairwise_append.2 ⟨h.increasing, List.pairwise_singleton _ _, fun a ha b hb => ?_⟩
    rw [List.mem_singleton.1 hb]
    exact hnewer a ha
  · rw [newest, hsequenced, hmax, List.max?_eq_some_iff]
    refine ⟨List.mem_append_right _ (List.mem_singleton_self k), fun b hb => ?_⟩
    rcases List.mem_append.1 hb with hb | hb
    · exact (hnewer b hb).le
    · exact (List.mem_singleton.1 hb).le
  · rw [hsequenced, hmax]
    rfl

/-- A message that is dropped changes nothing. -/
theorem Keeps.dropped {ks : List Nat} {k : Nat} (h : Keeps m ks) (hdrops : ¬ (sequenced m ks).2.Passes k)
    (hmax : (heard (ks ++ [k])).max? = (heard ks).max?) : Keeps m (ks ++ [k]) := by
  have hsequenced := (sequenced_snoc (m := m) ks k).trans (arrive_of_dropped hdrops)
  refine ⟨?_, ?_, ?_⟩
  · rw [hsequenced]
    exact h.increasing
  · rw [newest, hsequenced, hmax]
    exact h.top
  · rw [hsequenced, hmax]
    exact h.latest

/-- Before any message has passed, the lower half of the labels is ahead of 0. -/
theorem Keeps.first {ks : List Nat} (h : Keeps m ks) (hmax : (heard ks).max? = none) (k : Nat) :
    Keeps m (ks ++ [k]) := by
  have hheard : heard ks = [] := List.max?_eq_none_iff.1 hmax
  have hout : (sequenced m ks).1 = [] := List.max?_eq_none_iff.1 (h.top.trans hmax)
  have hpasses : (sequenced m ks).2.Passes k ↔ k % 65536 < 32768 := by
    rw [Passes, h.latest, hmax]
    exact label_sub_zero_lt_iff
  have hsnoc : heard (ks ++ [k]) = if k % 65536 < 32768 then [k] else [] := by
    rw [heard_snoc, if_pos hheard, heard_singleton]
  by_cases hk : k % 65536 < 32768
  · apply h.passed (hpasses.2 hk) (by simp [hout])
    rw [hsnoc, if_pos hk]
    rfl
  · apply h.dropped (mt hpasses.1 hk)
    rw [hsnoc, if_neg hk, hheard]

/-- One arrival keeps it, as long as it is fresh. -/
theorem Keeps.snoc {ks : List Nat} {k : Nat} (h : Keeps m ks)
    (hnear : ∀ n ∈ newest m ks, n < k + 32768 ∧ k < n + 32768)
    (hfresh : ∀ n ∈ (heard ks).max?, k ≠ n ∧ (k < n → k % 65536 ≠ 0)) : Keeps m (ks ++ [k]) := by
  cases hmax : (heard ks).max? with
  | none => exact h.first hmax k
  | some n =>
    have hout : (sequenced m ks).1.max? = some n := h.top.trans hmax
    have hpasses := h.passes_iff hmax (hnear n hout)
    obtain ⟨hne, hzero⟩ := hfresh n hmax
    have hheard : heard ks ≠ [] := by
      intro he
      rw [he] at hmax
      cases hmax
    have hsnoc : (heard (ks ++ [k])).max? = some (max n k) := by
      rw [heard_snoc, if_neg hheard, max?_snoc hmax]
    by_cases hk : n < k
    · refine h.passed (hpasses.2 (.inl hk.le)) (fun a ha => ?_) ?_
      · exact ((List.max?_eq_some_iff.1 hout).2 a ha).trans_lt hk
      · rw [hsnoc, max_eq_right hk.le]
    · have hlt : k < n := by omega
      have hold := hzero hlt
      apply h.dropped (mt hpasses.1 (by omega))
      rw [hsnoc, max_eq_left hlt.le, hmax]

theorem keeps {ks : List Nat} (hnear : Near m ks) (hfresh : Fresh ks) : Keeps m ks := by
  induction ks using List.reverseRecOn with
  | nil => exact keeps_nil
  | append_singleton ks k ih =>
    obtain ⟨hnear, hk⟩ := atEach_snoc.1 hnear
    obtain ⟨hfresh, hk'⟩ := atEach_snoc.1 hfresh
    exact (ih hnear hfresh).snoc hk hk'

/-- A message older than the newest one is dropped, as long as arrivals are fresh. -/
theorem Keeps.drops {ks : List Nat} {k n : Nat} (h : Keeps m ks) (hn : n ∈ newest m ks)
    (hnear : n < k + 32768 ∧ k < n + 32768) (hfresh : k ≠ n ∧ (k < n → k % 65536 ≠ 0)) (hle : k ≤ n) :
    ((sequenced m ks).2.process_sequenced (label k) (m k)).1 = none := by
  have hpasses := h.passes_iff (h.top.symm.trans hn) hnear
  have hlt : k < n := by omega
  rw [process_sequenced_eq, if_neg (mt hpasses.1 (by have := hfresh.2 hlt; omega))]

/-- Nothing goes backwards exactly as long as the arrivals are fresh. -/
theorem never_backwards_iff (m : Nat → SharedBytes) (ks : List Nat) (hnear : Near m ks) :
    NeverBackwards m ks ↔ Fresh ks := by
  constructor
  · intro h
    have hdropped := h.dropped
    clear h
    induction ks using List.reverseRecOn with
    | nil => exact atEach_nil _
    | append_singleton ks k ih =>
      obtain ⟨hnear, hk⟩ := atEach_snoc.1 hnear
      obtain ⟨hdropped, hnone⟩ := atEach_snoc.1 hdropped
      have hfresh := ih hnear hdropped
      have hkeeps := keeps hnear hfresh
      refine atEach_snoc.2 ⟨hfresh, fun n hn => ?_⟩
      have hmem : n ∈ newest m ks := hkeeps.top.trans hn
      have hpasses := hkeeps.passes_iff hn (hk n hmem)
      by_contra hbad
      have hle : k ≤ n := by omega
      have hdrop := hnone n hmem hle
      rw [process_sequenced_eq, if_pos (hpasses.2 (by omega))] at hdrop
      cases hdrop
  · intro hfresh
    refine ⟨(keeps hnear hfresh).increasing, fun earlier k later hks n hn hle => ?_⟩
    have hprefix : Near m (earlier ++ k :: later) ∧ Fresh (earlier ++ k :: later) := hks ▸ ⟨hnear, hfresh⟩
    have hkeeps := keeps hprefix.1.left hprefix.2.left
    exact hkeeps.drops hn (hnear earlier k later hks n hn) (hfresh earlier k later hks n (hkeeps.top ▸ hn)) hle

/-- Message 1 is overtaken by message 2 and dropped. -/
theorem never_backwards_overtaken : Near (fun _ => .from_vec []) [0, 2, 1, 3] ∧
    NeverBackwards (fun _ => .from_vec []) [0, 2, 1, 3] := by
  have hnear : Near (fun _ => .from_vec []) ([] ++ [0] ++ [2] ++ [1] ++ [3]) := by
    simp only [Near, atEach_snoc]
    exact ⟨⟨⟨⟨atEach_nil _, by decide +kernel⟩, by decide +kernel⟩, by decide +kernel⟩, by decide +kernel⟩
  have hfresh : Fresh ([] ++ [0] ++ [2] ++ [1] ++ [3]) := by
    simp only [Fresh, atEach_snoc]
    exact ⟨⟨⟨⟨atEach_nil _, by decide +kernel⟩, by decide +kernel⟩, by decide +kernel⟩, by decide +kernel⟩
  exact ⟨hnear, (never_backwards_iff _ _ hnear).2 hfresh⟩

/-- Message 1 passes twice, and message 0 after it. -/
theorem repeat_and_zero_pass : Near (fun _ => .from_vec []) [1, 1, 0] ∧
    (sequenced (fun _ => .from_vec []) [1, 1, 0]).1 = [1, 1, 0] ∧
    ¬ NeverBackwards (fun _ => .from_vec []) [1, 1, 0] := by
  have hpassed : (sequenced (fun _ => .from_vec []) [1, 1, 0]).1 = [1, 1, 0] := by decide +kernel
  refine ⟨?_, hpassed, fun h => ?_⟩
  · have hnear : Near (fun _ => .from_vec []) ([] ++ [1] ++ [1] ++ [0]) := by
      simp only [Near, atEach_snoc]
      exact ⟨⟨⟨atEach_nil _, by decide +kernel⟩, by decide +kernel⟩, by decide +kernel⟩
    exact hnear
  · have hincreasing := h.increasing
    rw [hpassed] at hincreasing
    revert hincreasing
    decide

end Sequenced

end ChannelState

end Bitfold
