import Bitfold.Channel
import Bitfold.Lib.Labels
/-!
# Theorems of the ordered channel

A sender labels message `k` of a stream with `k % 65536`. `Buffered` says
which messages the buffer of a channel holds after a list of arrivals: those
ahead of the next one to deliver, and those that came again after they were
delivered. The latter are stale: nothing removes them until their sequence
comes round 65536 messages later.
-/

namespace Bitfold

open Lib

namespace ChannelState

section Stream

variable (m : Nat → SharedBytes)

/-- What a channel delivers as the messages `ks` arrive, each with its label as
its sequence. -/
def deliveries (s : ChannelState) : List Nat → List SharedBytes
  | [] => []
  | k :: ks => (s.process_ordered (label k) (m k)).1 ++ deliveries (s.process_ordered (label k) (m k)).2 ks

/-- Each arriving index is less than 32768 away from the number of messages
delivered so far, which is `n` at the start. -/
def Windowed (s : ChannelState) (n : Nat) : List Nat → Prop
  | [] => True
  | k :: ks => (n < k + 32768 ∧ k < n + 32768) ∧
      Windowed (s.process_ordered (label k) (m k)).2 (n + (s.process_ordered (label k) (m k)).1.length) ks

instance decidableWindowed (s : ChannelState) (n : Nat) : (ks : List Nat) → Decidable (Windowed m s n ks)
  | [] => inferInstanceAs (Decidable True)
  | k :: ks =>
    have := decidableWindowed (s.process_ordered (label k) (m k)).2
      (n + (s.process_ordered (label k) (m k)).1.length) ks
    inferInstanceAs (Decidable (_ ∧ _))

/-- The stream is delivered from its start, once and in order. -/
def InOrder (out : List SharedBytes) : Prop := ∃ n, out = (List.range n).map m

/-- Message `k` arrived again after messages `0` to `k` had all arrived. -/
def Late (k : Nat) (p : List Nat) : Prop := ∃ p₁ p₂, p = p₁ ++ k :: p₂ ∧ ∀ i ≤ k, i ∈ p₁

/-- When message `k + 65536` is the next one missing, `k` has not been late. -/
def NoStale (p : List Nat) : Prop :=
  ∀ k, (∀ i < k + 65536, i ∈ p) → k + 65536 ∉ p → ¬ Late k p

/-! ## What the buffer holds -/

/-- After arrivals `p`, with the first `n` messages delivered: the buffer
holds the messages of `p` from `n` on and the stale ones, and nothing else. -/
structure Buffered (p : List Nat) (n : Nat) (s : ChannelState) : Prop where
  expected : s.expected_sequence = label n
  complete : ∀ i < n, i ∈ p
  near : ∀ k ∈ p, k < n + 32768
  late_lt : ∀ k, Late k p → k < n
  ahead : ∀ k ∈ p, n ≤ k → s.buffered_packets[label k]? = some (m k)
  stale : ∀ k, Late k p → n ≤ k + 65536 → k + 65536 ∉ p → s.buffered_packets[label k]? = some (m k)
  sound : ∀ q d, s.buffered_packets[q]? = some d → ∃ k : Nat, q = label k ∧ d = m k ∧
    (k ∈ p ∧ n ≤ k ∨ Late k p ∧ n ≤ k + 65536 ∧ k + 65536 ∉ p)

variable {m}

theorem buffered_new : Buffered m [] 0 new where
  expected := rfl
  complete := by simp
  near := by simp
  late_lt := by rintro k ⟨p₁, p₂, h, -⟩; simp at h
  ahead := by simp
  stale := by rintro k ⟨p₁, p₂, h, -⟩; simp at h
  sound := by intro q d h; simp [new] at h

theorem late_append_iff {j k : Nat} {p : List Nat} :
    Late j (p ++ [k]) ↔ Late j p ∨ j = k ∧ ∀ i ≤ k, i ∈ p := by
  constructor
  · rintro ⟨p₁, p₂, h, hall⟩
    rcases List.eq_nil_or_concat p₂ with rfl | ⟨p₂, x, rfl⟩
    · obtain ⟨rfl, hk⟩ := List.append_inj' h rfl
      cases hk
      exact .inr ⟨rfl, hall⟩
    · rw [List.concat_eq_append, ← List.cons_append, ← List.append_assoc] at h
      obtain ⟨rfl, -⟩ := List.append_inj' h rfl
      exact .inl ⟨p₁, p₂, rfl, hall⟩
  · rintro (⟨p₁, p₂, rfl, hall⟩ | ⟨rfl, hall⟩)
    · exact ⟨p₁, p₂ ++ [k], by simp, hall⟩
    · exact ⟨p, [], rfl, hall⟩

/-- An arrival in the window is buffered, ahead or stale. -/
theorem Buffered.insert {p : List Nat} {n k : Nat} {s : ChannelState} (h : Buffered m p n s) (hn : n ∉ p)
    (hk : n < k + 32768 ∧ k < n + 32768) :
    Buffered m (p ++ [k]) n { s with buffered_packets := s.buffered_packets.insert (label k) (m k) } where
  expected := h.expected
  complete i hi := List.mem_append_left _ (h.complete i hi)
  near j hj := by
    rcases List.mem_append.1 hj with hj | hj
    · exact h.near j hj
    · rw [List.mem_singleton.1 hj]; exact hk.2
  late_lt j hj := by
    rcases late_append_iff.1 hj with hj | ⟨rfl, hall⟩
    · exact h.late_lt j hj
    · by_contra hc
      exact hn (hall n (by omega))
  ahead j hj hnj := by
    simp only [Std.ExtTreeMap.getElem?_insert, Std.compare_eq_iff_eq]
    rcases List.mem_append.1 hj with hj | hj
    · -- within the window equal labels are equal numbers
      have := h.near j hj
      by_cases he : label k = label j
      · have : k = j := by rw [label_eq_iff] at he; omega
        rw [if_pos he, this]
      · rw [if_neg he]
        exact h.ahead j hj hnj
    · rw [List.mem_singleton.1 hj, if_pos rfl]
  stale j hj hnj hnot := by
    simp only [Std.ExtTreeMap.getElem?_insert, Std.compare_eq_iff_eq]
    rw [List.mem_append, not_or, List.mem_singleton] at hnot
    rcases late_append_iff.1 hj with hj | ⟨rfl, hall⟩
    · have := h.late_lt j hj
      by_cases he : label k = label j
      · have : k = j := by rw [label_eq_iff] at he; omega
        rw [if_pos he, this]
      · rw [if_neg he]
        exact h.stale j hj hnj hnot.1
    · rw [if_pos rfl]
  sound q d hq := by
    simp only [Std.ExtTreeMap.getElem?_insert, Std.compare_eq_iff_eq] at hq
    split at hq
    · rename_i he
      cases hq
      refine ⟨k, he.symm, rfl, ?_⟩
      by_cases hnk : n ≤ k
      · exact .inl ⟨by simp, hnk⟩
      -- an arrival that was delivered before stays behind
      · refine .inr ⟨late_append_iff.2 (.inr ⟨rfl, fun i hi => h.complete i (by omega)⟩), by omega, ?_⟩
        rw [List.mem_append, not_or, List.mem_singleton]
        exact ⟨fun hc => by have := h.near _ hc; omega, by omega⟩
    · rename_i he
      obtain ⟨j, rfl, rfl, hj | ⟨hj, hnj, hnot⟩⟩ := h.sound q d hq
      · exact ⟨j, rfl, rfl, .inl ⟨List.mem_append_left _ hj.1, hj.2⟩⟩
      · refine ⟨j, rfl, rfl, .inr ⟨late_append_iff.2 (.inl hj), hnj, ?_⟩⟩
        rw [List.mem_append, not_or, List.mem_singleton]
        refine ⟨hnot, fun hc => he ?_⟩
        rw [label_eq_iff]
        omega

/-- Message `n` is there: it is delivered next. -/
theorem Buffered.deliver {p : List Nat} {n : Nat} {s : ChannelState} (h : Buffered m p n s) (hn : n ∈ p) :
    ∃ s', s.deliver_next = (some (m n), s') ∧ Buffered m p (n + 1) s' := by
  refine ⟨_, by rw [deliver_next, h.expected, h.ahead n hn le_rfl], ?_⟩
  -- the entry taken out is the only one under its label
  have hkey : ∀ j, j ∈ p ∧ n + 1 ≤ j ∨ Late j p ∧ n + 1 ≤ j + 65536 → ¬ label n = label j := by
    intro j hj
    rw [label_eq_iff]
    rcases hj with ⟨hj, hle⟩ | ⟨hj, hle⟩
    · have := h.near j hj
      omega
    · have := h.late_lt j hj
      omega
  refine ⟨label_add_one n, ?_, ?_, ?_, ?_, ?_, ?_⟩
  · intro i hi
    rcases Nat.lt_succ_iff_lt_or_eq.1 hi with hi | rfl
    · exact h.complete i hi
    · exact hn
  · intro k hk
    have := h.near k hk
    omega
  · intro k hk
    have := h.late_lt k hk
    omega
  · intro k hk hle
    simp only [Std.ExtTreeMap.getElem?_erase, Std.compare_eq_iff_eq]
    rw [if_neg (hkey k (.inl ⟨hk, hle⟩))]
    exact h.ahead k hk (by omega)
  · intro k hk hle hnot
    simp only [Std.ExtTreeMap.getElem?_erase, Std.compare_eq_iff_eq]
    rw [if_neg (hkey k (.inr ⟨hk, hle⟩))]
    exact h.stale k hk (by omega) hnot
  · intro q d hq
    simp only [Std.ExtTreeMap.getElem?_erase, Std.compare_eq_iff_eq] at hq
    split at hq
    · cases hq
    · rename_i hne
      obtain ⟨k, rfl, rfl, ⟨hk, hle⟩ | ⟨hk, hle, hnot⟩⟩ := h.sound q d hq
      · rw [label_eq_iff] at hne
        exact ⟨k, rfl, rfl, .inl ⟨hk, by omega⟩⟩
      · rw [label_eq_iff] at hne
        exact ⟨k, rfl, rfl, .inr ⟨hk, by omega, hnot⟩⟩

/-- Message `n` is not there: the loop stops, unless the message 65536 before
`n` is stale, which is then delivered in its place. -/
theorem Buffered.missing {p : List Nat} {n : Nat} {s : ChannelState} (h : Buffered m p n s) (hn : n ∉ p) :
    (NoStale p → s.deliver_next = (none, s)) ∧
      (¬ NoStale p → ∃ k s', n = k + 65536 ∧ s.deliver_next = (some (m k), s')) := by
  constructor
  · intro hns
    cases hd : s.buffered_packets[s.expected_sequence]? with
    | none => rw [deliver_next, hd]
    | some d =>
      rw [h.expected] at hd
      obtain ⟨k, hk, rfl, ⟨hp, hle⟩ | ⟨hl, hle, hnot⟩⟩ := h.sound _ _ hd
      · have := h.near k hp
        rw [label_eq_iff] at hk
        exact absurd hp (by rwa [show k = n by omega])
      · have := h.late_lt k hl
        rw [label_eq_iff] at hk
        exact absurd hl (hns k (fun i hi => h.complete i (by omega)) hnot)
  · intro hns
    simp only [NoStale, not_forall, not_not] at hns
    obtain ⟨k, hall, hnot, hl⟩ := hns
    -- everything below `n` is there and `n` is not, so `n` is what `k` is stale for
    have hlt : n ≤ k + 65536 := by
      by_contra hc
      exact hnot (h.complete _ (by omega))
    have hge : k + 65536 ≤ n := by
      by_contra hc
      exact hn (hall n (by omega))
    have hkey : label n = label k := label_eq_iff.2 (by omega)
    exact ⟨k, _, by omega, by rw [deliver_next, h.expected, hkey, h.stale k hl hlt hnot]⟩

/-- What the delivery loop yields: the messages from `n` up to the next one
missing, and after them a stale one if there is one for it. -/
theorem Buffered.drains {p : List Nat} {n : Nat} {s t : ChannelState} {out : List SharedBytes}
    (h : Buffered m p n s) (hd : Drains deliver_next s out t) :
    ∃ l, n + l ∉ p ∧
      (NoStale p → out = (List.range' n l).map m ∧ Buffered m p (n + l) t) ∧
      (¬ NoStale p → ∃ k rest, n + l = k + 65536 ∧ out = (List.range' n l).map m ++ m k :: rest) := by
  induction hd generalizing n with
  | @stop s t hs =>
    -- the loop stops at a message that is missing
    have hn : n ∉ p := by
      intro hn
      obtain ⟨s', hs', -⟩ := h.deliver hn
      rw [hs] at hs'
      cases hs'
    refine ⟨0, hn, fun hns => ?_, fun hns => ?_⟩
    · rw [(h.missing hn).1 hns] at hs
      cases hs
      exact ⟨rfl, h⟩
    · obtain ⟨k, s', -, hs'⟩ := (h.missing hn).2 hns
      rw [hs] at hs'
      cases hs'
  | @next s s' t b bs hs hd ih =>
    by_cases hn : n ∈ p
    · obtain ⟨s'', hs'', hb⟩ := h.deliver hn
      rw [hs] at hs''
      cases hs''
      obtain ⟨l, hl, hok, hbad⟩ := ih hb
      refine ⟨l + 1, by rwa [show n + (l + 1) = n + 1 + l by omega], fun hns => ?_, fun hns => ?_⟩
      · obtain ⟨rfl, hbt⟩ := hok hns
        exact ⟨by rw [List.range'_succ, List.map_cons], by rwa [show n + (l + 1) = n + 1 + l by omega]⟩
      · obtain ⟨k, rest, he, rfl⟩ := hbad hns
        exact ⟨k, rest, by omega, by rw [List.range'_succ, List.map_cons, List.cons_append]⟩
    · refine ⟨0, hn, fun hns => ?_, fun hns => ?_⟩
      · rw [(h.missing hn).1 hns] at hs
        cases hs
      · obtain ⟨k, s'', he, hs''⟩ := (h.missing hn).2 hns
        rw [hs] at hs''
        cases hs''
        exact ⟨k, bs, he, rfl⟩

/-- One arrival. -/
theorem Buffered.process {p : List Nat} {n k : Nat} {s : ChannelState} (h : Buffered m p n s) (hn : n ∉ p)
    (hk : n < k + 32768 ∧ k < n + 32768) :
    ∃ l, n + l ∉ p ++ [k] ∧
      (NoStale (p ++ [k]) → (s.process_ordered (label k) (m k)).1 = (List.range' n l).map m ∧
        Buffered m (p ++ [k]) (n + l) (s.process_ordered (label k) (m k)).2) ∧
      (¬ NoStale (p ++ [k]) → ∃ j rest, n + l = j + 65536 ∧
        (s.process_ordered (label k) (m k)).1 = (List.range' n l).map m ++ m j :: rest) :=
  (h.insert hn hk).drains (process_ordered_drains s (label k) (m k))

/-! ## Runs -/

/-- While nothing stale comes up, a run delivers the stream from `n` on. -/
theorem Buffered.in_order {p : List Nat} {n : Nat} {s : ChannelState} (h : Buffered m p n s) (hn : n ∉ p)
    (ks : List Nat) (hw : Windowed m s n ks) (hns : ∀ r, r <+: ks → NoStale (p ++ r)) :
    ∃ l, deliveries m s ks = (List.range' n l).map m := by
  induction ks generalizing p n s with
  | nil => exact ⟨0, rfl⟩
  | cons k ks ih =>
    obtain ⟨l, hl, hok, -⟩ := h.process hn hw.1
    obtain ⟨hout, hb⟩ := hok (hns [k] ⟨ks, rfl⟩)
    have hw' := hw.2
    rw [hout, List.length_map, List.length_range'] at hw'
    obtain ⟨l', hrest⟩ := ih hb hl hw' (fun r hr => by
      have := hns (k :: r) (List.cons_prefix_cons.2 ⟨rfl, hr⟩)
      rwa [List.append_assoc])
    refine ⟨l + l', ?_⟩
    rw [deliveries, hout, hrest, ← List.map_append, List.range'_append_1]

/-- A run that delivers the stream never brought up anything stale, if a
message differs from the one 65536 later. -/
theorem Buffered.noStale {p : List Nat} {n : Nat} {s : ChannelState} (hm : ∀ k, m k ≠ m (k + 65536))
    (h : Buffered m p n s) (hn : n ∉ p) (hp : NoStale p) (ks : List Nat) (hw : Windowed m s n ks) {l : Nat}
    (hout : deliveries m s ks = (List.range' n l).map m) : ∀ r, r <+: ks → NoStale (p ++ r) := by
  induction ks generalizing p n s l with
  | nil =>
    intro r hr
    rwa [List.prefix_nil.1 hr, List.append_nil]
  | cons k ks ih =>
    obtain ⟨l₁, hl, hok, hbad⟩ := h.process hn hw.1
    rw [deliveries] at hout
    by_cases hns : NoStale (p ++ [k])
    · obtain ⟨hout₁, hb⟩ := hok hns
      have hw' := hw.2
      rw [hout₁, List.length_map, List.length_range'] at hw'
      have hle : l₁ ≤ l := by
        have := congrArg List.length hout
        rw [hout₁] at this
        simp at this
        omega
      rw [hout₁, show l = l₁ + (l - l₁) by omega, ← List.range'_append_1, List.map_append] at hout
      intro r hr
      cases r with
      | nil => rwa [List.append_nil]
      | cons a r =>
        obtain ⟨rfl, hr'⟩ := List.cons_prefix_cons.1 hr
        have := ih hb hl hns hw' (List.append_cancel_left hout) r hr'
        rwa [List.append_assoc] at this
    · -- the stale message stands where message `n + l₁` should
      obtain ⟨j, rest, hj, hout₁⟩ := hbad hns
      rw [hout₁, List.append_assoc, List.cons_append] at hout
      have hget := congrArg (fun o => o[l₁]?) hout
      simp only [List.getElem?_append_right, List.length_map, List.length_range', le_refl, Nat.sub_self,
        List.getElem?_cons_zero, List.getElem?_map] at hget
      cases hr : (List.range' n l)[l₁]? with
      | none => rw [hr] at hget; cases hget
      | some x =>
        rw [hr] at hget
        obtain ⟨hlt, hx⟩ := List.getElem?_eq_some_iff.1 hr
        rw [List.getElem_range'_1] at hx
        simp only [Option.map_some, Option.some.injEq] at hget
        exact absurd hget (by rw [← hx, hj]; exact hm j)

theorem noStale_nil : NoStale [] := by
  intro k hall
  exact absurd (hall 0 (by omega)) (by simp)

/-- An ordered channel delivers the stream exactly once and in order iff no
stale message comes up: whenever messages `0` to `k + 65535` have arrived and
`k + 65536` has not, `k` did not arrive again after `0` to `k` had arrived.
The condition is needed where messages 65536 apart differ. -/
theorem ordered_exactly_once_iff (m : Nat → SharedBytes) (ks : List Nat) (hw : Windowed m new 0 ks) :
    ((∀ p, p <+: ks → NoStale p) → InOrder m (deliveries m new ks)) ∧
      ((∀ k, m k ≠ m (k + 65536)) → InOrder m (deliveries m new ks) → ∀ p, p <+: ks → NoStale p) := by
  constructor
  · intro hns
    obtain ⟨l, hl⟩ := buffered_new.in_order (by simp) ks hw hns
    exact ⟨l, by rw [hl, List.range_eq_range']⟩
  · rintro hm ⟨l, hl⟩
    rw [List.range_eq_range'] at hl
    exact buffered_new.noStale hm (by simp) noStale_nil ks hw hl

/-- One arrival, when the next message missing is known. -/
theorem Buffered.process_to {p : List Nat} {n : Nat} {s : ChannelState} (h : Buffered m p n s) (k n' : Nat) (hn : n ∉ p)
    (hk : n < k + 32768 ∧ k < n + 32768) (hns : NoStale (p ++ [k])) (hall : ∀ i < n', i ∈ p ++ [k])
    (hnot : n' ∉ p ++ [k]) :
    n + (s.process_ordered (label k) (m k)).1.length = n' ∧
      Buffered m (p ++ [k]) n' (s.process_ordered (label k) (m k)).2 := by
  obtain ⟨l, hl, hok, -⟩ := h.process hn hk
  obtain ⟨hout, hb⟩ := hok hns
  have he : n + l = n' := by
    have h1 : ¬ n + l < n' := fun hc => hl (hall _ hc)
    have h2 : ¬ n' < n + l := fun hc => hnot (hb.complete _ hc)
    omega
  rw [hout, List.length_map, List.length_range']
  exact ⟨he, he ▸ hb⟩

theorem noStale_of_lt {p : List Nat} (h : ∀ k ∈ p, k < 65535) : NoStale p :=
  fun k hall _ => absurd (h _ (hall (k + 65535) (by omega))) (by omega)

/-- Messages that arrive one after the other keep within the window. -/
theorem Buffered.windowed {p : List Nat} {n : Nat} {s : ChannelState} (h : Buffered m p n s)
    (hp : ∀ k ∈ p, k < n) (j : Nat) (hj : n + j ≤ 65536) : Windowed m s n (List.range' n j) := by
  induction j generalizing p n s with
  | zero => trivial
  | succ j ih =>
    have hn : n ∉ p := fun hc => lt_irrefl n (hp n hc)
    have hp' : ∀ k ∈ p ++ [n], k < n + 1 := by
      intro k hk
      rcases List.mem_append.1 hk with hk | hk
      · have := hp k hk; omega
      · rw [List.mem_singleton.1 hk]; omega
    rw [List.range'_succ]
    refine ⟨by omega, ?_⟩
    cases j with
    | zero => trivial
    | succ j =>
      obtain ⟨hlen, hb⟩ := h.process_to n (n + 1) hn (by omega)
        (noStale_of_lt fun k hk => by have := hp' k hk; omega)
        (fun i hi => by
          rcases Nat.lt_succ_iff_lt_or_eq.1 hi with hi | rfl
          · exact List.mem_append_left _ (h.complete i hi)
          · simp)
        (fun hc => by have := hp' _ hc; omega)
      rw [hlen]
      exact ih hb hp' (by omega)

end Stream

/-- Messages one byte long that differ from the one 65536 later. -/
def rounds (k : Nat) : SharedBytes := .from_vec [.ofNat (k / 65536)]

theorem rounds_ne (k : Nat) : rounds k ≠ rounds (k + 65536) := by
  intro h
  have h' := congrArg SharedBytes.data h
  simp only [rounds, SharedBytes.from_vec, SharedBytes.from_arc, List.cons.injEq, and_true, ← UInt8.toNat_inj,
    UInt8.toNat_ofNat'] at h'
  omega

/-- Messages 1 and 2 swapped. -/
theorem ordered_exactly_once_swapped :
    ((∀ p, p <+: [0, 2, 1] → NoStale p) → InOrder rounds (deliveries rounds new [0, 2, 1])) ∧
      ((∀ k, rounds k ≠ rounds (k + 65536)) → InOrder rounds (deliveries rounds new [0, 2, 1]) →
        ∀ p, p <+: [0, 2, 1] → NoStale p) :=
  ordered_exactly_once_iff rounds [0, 2, 1] (by decide +kernel)

/-- Message 0 comes twice before messages 1 to 65535. -/
def repeated_first : List Nat := 0 :: 0 :: List.range' 1 65535

/-- A message repeated once is delivered again in the place of the one 65536
later. -/
theorem ordered_delivers_repeated_again :
    Windowed rounds new 0 repeated_first ∧ ¬ InOrder rounds (deliveries rounds new repeated_first) := by
  -- the first message, its repetition, and the rest in order
  have hw : Windowed rounds new 0 repeated_first := by
    obtain ⟨hlen₁, h₁⟩ := (buffered_new (m := rounds)).process_to 0 1 (by simp) (by omega)
      (noStale_of_lt (by simp)) (by simp) (by simp)
    obtain ⟨hlen₂, h₂⟩ := h₁.process_to 0 1 (by simp) (by omega)
      (noStale_of_lt (by simp)) (by simp) (by simp)
    refine ⟨by omega, ?_⟩
    rw [hlen₁]
    refine ⟨by omega, ?_⟩
    rw [hlen₂]
    exact h₂.windowed (by simp) 65535 (by omega)
  refine ⟨hw, ?_⟩
  rintro ⟨l, hl⟩
  rw [List.range_eq_range'] at hl
  have hns := buffered_new.noStale rounds_ne (by simp) noStale_nil _ hw hl _ List.prefix_rfl
  refine hns 0 (fun i hi => ?_) ?_ ⟨[0], List.range' 1 65535, rfl, by simp⟩
  · simp only [List.nil_append, repeated_first, List.mem_cons, List.mem_range'_1]
    omega
  · simp only [List.nil_append, repeated_first, List.mem_cons, List.mem_range'_1]
    omega

end ChannelState

end Bitfold
