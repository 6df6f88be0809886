import Bitfold.Lib.Bitmap
import Bitfold.Unsequenced
/-!
# Theorems of the unsequenced window

Each operation first in terms of single bits (`is_duplicate_iff`,
`mark_received_spec`), then whole runs. The window base is followed as an
unbounded number: it moves forward only, by less than 65536 at a time.
-/

namespace Bitfold

open Lib

namespace UnsequencedState

/-! ## One operation, bit by bit -/

/-- No bit of the window is set. -/
def Empty (s : UnsequencedState) : Prop := ∀ j, bit s.unsequenced_window j = false

/-- The offset of a group from the window base. -/
def offset (s : UnsequencedState) (group : UInt16) : Nat := (group - s.incoming_unsequenced_group).toNat

theorem toNat_mod32 (x : UInt16) : (x % 32).toUInt32.toNat = x.toNat % 32 := by
  simp

theorem toNat_div32 (x : UInt16) : (x / 32).toNat = x.toNat / 32 := by
  simp

theorem lt_1024_iff (x : UInt16) : x < 1024 ↔ x.toNat < 1024 := by
  rw [UInt16.lt_iff_toNat_lt]
  rfl

theorem is_duplicate_iff (s : UnsequencedState) (g : UInt16) :
    s.is_duplicate g = true ↔ ¬ s.Empty ∧
      (s.offset g < 1024 ∧ bit s.unsequenced_window (s.offset g) = true ∨ 32768 < s.offset g) := by
  unfold is_duplicate
  simp only [lt_1024_iff, toNat_div32]
  change _ ↔ _ ∧ ((g - s.incoming_unsequenced_group).toNat < 1024 ∧
    bit _ (g - s.incoming_unsequenced_group).toNat = true ∨ 32768 < (g - s.incoming_unsequenced_group).toNat)
  generalize g - s.incoming_unsequenced_group = x
  split
  · rename_i h
    exact ⟨fun hf => absurd hf (by simp), fun hn => absurd (all_zero_iff.1 h) hn.1⟩
  · rename_i h
    have hne : ¬ s.Empty := fun he => h (all_zero_iff.2 he)
    rw [and_iff_right hne]
    split
    · rename_i hlt
      rw [dif_pos (by omega), and_one_shiftLeft_ne_zero (by rw [toNat_mod32]; omega), toNat_mod32]
      have : ¬ 32768 < x.toNat := by omega
      rw [or_iff_left this, and_iff_right hlt, bit, word_of_lt (by omega)]
    · rename_i hlt
      rw [or_iff_right (fun hc => hlt hc.1), decide_eq_true_iff, gt_iff_lt, UInt16.lt_iff_toNat_lt]
      rfl

/-- Moving by whole words moves every bit. -/
theorem bit_shift_words (k : Nat) (w : Vector UInt32 32) (j : Nat) :
    bit (shift_words k w) j = bit w (j + 32 * k) := by
  unfold shift_words
  have hdiv : (j + 32 * k) / 32 = j / 32 + k := by omega
  have hmod : (j + 32 * k) % 32 = j % 32 := by omega
  split
  · split
    · rw [bit_replicate, bit_of_le (by omega)]
    · rename_i hk hk32
      by_cases hj : j / 32 < 32
      · rw [bit, word_of_lt hj, getElem_set_range (by intros; rfl) hj]
        split
        · rename_i h
          rw [bit_of_le (by omega)]
          simp
        · rename_i h
          rw [getElem_set_range (by intro i h h' v v' hv; exact hv _ _ (by omega)) hj, dif_pos (by omega), bit, hdiv,
            hmod, word_of_lt (by omega)]
      · rw [bit_of_le (by omega), bit_of_le (by omega)]
  · rename_i hk
    rw [show k = 0 by omega]
    simp

/-- Moving by bits moves every bit. -/
theorem bit_shift_bits {b : UInt16} (hb : b.toNat < 32) {k : Nat} (hk : k < 32) (w : Vector UInt32 32) (j : Nat) :
    bit (shift_bits b k w) j = bit w (j + b.toNat) := by
  have hb' : b.toUInt32.toNat = b.toNat := by simp
  have h0 : b > 0 ↔ 0 < b.toNat := by
    rw [gt_iff_lt, UInt16.lt_iff_toNat_lt]
    rfl
  unfold shift_bits
  split
  · rename_i hpos
    have hpos := h0.1 hpos.1
    have hloc : ∀ i (h : 0 ≤ i) (h' : i < 31) (v v' : Vector UInt32 32), (∀ j (_ : j < 32), i ≤ j → v[j] = v'[j]) →
        (v[i] >>> b.toUInt32) ||| (v[i + 1] <<< (32 - b.toUInt32)) =
          (v'[i] >>> b.toUInt32) ||| (v'[i + 1] <<< (32 - b.toUInt32)) := by
      intro i _ _ v v' hv
      rw [hv i (by omega) le_rfl, hv (i + 1) (by omega) (by omega)]
    by_cases hj : j / 32 < 32
    · rw [bit, word_of_lt hj, Vector.getElem_set]
      split
      · -- the last word takes in zeros
        rename_i h31
        rw [getElem_set_range hloc (by omega), dif_neg (by omega), UInt32.toNat_shiftRight, hb',
          Nat.mod_eq_of_lt hb, Nat.testBit_shiftRight, bit]
        by_cases hw : j % 32 + b.toNat < 32
        · rw [show (j + b.toNat) / 32 = 31 by omega, show (j + b.toNat) % 32 = b.toNat + j % 32 by omega,
            word_of_lt (by omega)]
        · rw [testBit_toNat_of_le (by omega), word_of_le (by omega)]
          simp
      · -- the others take in bits of the next word
        rename_i h31
        rw [getElem_set_range hloc hj, dif_pos (by omega),
          testBit_funnel_shift (by rw [hb']; exact hpos) (by rw [hb']; exact hb) (by omega), hb', bit]
        split
        · rw [show (j + b.toNat) / 32 = j / 32 by omega, show (j + b.toNat) % 32 = j % 32 + b.toNat by omega,
            word_of_lt hj]
        · rw [show (j + b.toNat) / 32 = j / 32 + 1 by omega,
            show (j + b.toNat) % 32 = j % 32 + b.toNat - 32 by omega, word_of_lt (by omega)]
    · rw [bit_of_le (by omega), bit_of_le (by omega)]
  · rename_i h
    have : b.toNat = 0 := by
      by_contra hne
      exact h ⟨h0.2 (by omega), hk⟩
    rw [this, Nat.add_zero]

/-- How far the base moves for a group at this offset. -/
def advance (offset : Nat) : Nat := if 1024 ≤ offset ∧ offset ≤ 32768 then offset - 512 else 0

theorem bit_shift {a : UInt16} (w : Vector UInt32 32) (j : Nat) :
    bit (w |> shift_words (a / 32).toNat |> shift_bits (a % 32) (a / 32).toNat) j = bit w (j + a.toNat) := by
  have hm : (a % 32).toNat = a.toNat % 32 := by simp
  by_cases hk : (a / 32).toNat < 32
  · rw [bit_shift_bits (by omega) hk, bit_shift_words, hm, toNat_div32]
    congr 1
    omega
  · -- the whole window has moved out
    rw [shift_bits, if_neg (fun h => hk h.2), bit_shift_words]
    rw [toNat_div32] at hk ⊢
    rw [bit_of_le (by omega), bit_of_le (by omega)]

theorem advance_window_spec (s : UnsequencedState) (x : UInt16) :
    (s.advance_window x).incoming_unsequenced_group =
        s.incoming_unsequenced_group + .ofNat (advance x.toNat) ∧
      ∀ j, bit (s.advance_window x).unsequenced_window j = bit s.unsequenced_window (j + advance x.toNat) := by
  have hiff : (1024 ≤ x ∧ x ≤ 32768) ↔ (1024 ≤ x.toNat ∧ x.toNat ≤ 32768) := by
    rw [UInt16.le_iff_toNat_le, UInt16.le_iff_toNat_le]
    rfl
  unfold advance_window advance
  simp only [hiff]
  split
  · rename_i h
    have ha : (saturating_sub16 x 512).toNat = x.toNat - 512 := by
      have : ¬ x < 512 := by
        rw [UInt16.lt_iff_toNat_lt, not_lt]
        exact le_trans (by decide) h.1
      rw [saturating_sub16, if_neg this, UInt16.toNat_sub]
      simp
      omega
    refine ⟨?_, fun j => ?_⟩
    · rw [← ha, UInt16.ofNat_toNat]
    · rw [← ha]
      exact bit_shift _ j
  · exact ⟨by simp, fun j => rfl⟩

/-- The whole effect of `mark_received`. A group behind the base changes
nothing; any other moves the window by its `advance` and has its bit set. -/
theorem mark_received_spec (s : UnsequencedState) (g : UInt16) :
    (s.mark_received g).incoming_unsequenced_group =
        s.incoming_unsequenced_group + .ofNat (advance (s.offset g)) ∧
      ∀ j, bit (s.mark_received g).unsequenced_window j =
        (bit s.unsequenced_window (j + advance (s.offset g)) ||
          decide (s.offset g ≤ 32768 ∧ j + advance (s.offset g) = s.offset g)) := by
  obtain ⟨hb, hw⟩ := advance_window_spec s (g - s.incoming_unsequenced_group)
  have ho : s.offset g = (g - s.incoming_unsequenced_group).toNat := rfl
  have hlt := (g - s.incoming_unsequenced_group).toNat_lt
  rw [← ho] at hb hw hlt
  -- the offset from the new base
  have hf : (g - (s.advance_window (g - s.incoming_unsequenced_group)).incoming_unsequenced_group).toNat =
      s.offset g - advance (s.offset g) := by
    have hsub : g - (s.incoming_unsequenced_group + .ofNat (advance (s.offset g))) =
        g - s.incoming_unsequenced_group - .ofNat (advance (s.offset g)) := by grind
    rw [hb, hsub, UInt16.toNat_sub, ← ho, UInt16.toNat_ofNat']
    unfold advance
    split <;> omega
  have hcase : s.offset g - advance (s.offset g) < 1024 ↔ s.offset g ≤ 32768 := by
    unfold advance
    split <;> omega
  unfold mark_received
  simp only [lt_1024_iff, toNat_div32, hf, hcase]
  split
  · rename_i h
    have hsub : s.offset g - advance (s.offset g) < 1024 := hcase.2 h
    have hle : advance (s.offset g) ≤ s.offset g := by unfold advance; split <;> omega
    rw [dif_pos (by omega)]
    refine ⟨hb, fun j => ?_⟩
    rw [bit_set_or _ (by rw [toNat_mod32]; omega), hw, toNat_mod32, hf]
    congr 1
    rw [decide_eq_decide]
    omega
  · rename_i h
    refine ⟨hb, fun j => ?_⟩
    rw [hw, decide_eq_false (fun hc => h hc.1), Bool.or_false]

theorem mark_received_not_empty {s : UnsequencedState} {g : UInt16} (h : s.offset g ≤ 32768) :
    ¬ (s.mark_received g).Empty := by
  intro he
  have := he (s.offset g - advance (s.offset g))
  rw [(mark_received_spec s g).2, Bool.or_eq_false_iff, decide_eq_false_iff_not] at this
  refine this.2 ⟨h, ?_⟩
  unfold advance
  split <;> omega

/-! ## Runs -/

/-- One arrival, as the command processor handles it: a duplicate is dropped,
anything else is marked and delivered. -/
def receive (s : UnsequencedState) (group : UInt16) : UnsequencedState × Bool :=
  if s.is_duplicate group then (s, false) else (s.mark_received group, true)

/-- The unbounded number of a group that arrives when the base is at `base`:
up to 32768 ahead of the base, otherwise behind it. -/
def number (s : UnsequencedState) (base : Nat) (group : UInt16) : Int :=
  if s.offset group ≤ 32768 then base + s.offset group else base + s.offset group - 65536

/-- An arrival: its group, the base it met, its number there, and whether it
was delivered. -/
structure Arrival where
  group : UInt16
  base : Nat
  number : Int
  delivered : Bool
deriving DecidableEq, Repr

/-- The arrivals of a run. The base is counted without wrap-around. -/
def arrivals (s : UnsequencedState) (base : Nat) : List UInt16 → List Arrival
  | [] => []
  | group :: groups =>
    let (s', delivered) := s.receive group
    ⟨group, base, s.number base group, delivered⟩ ::
      arrivals s' (base + (s'.incoming_group - s.incoming_group).toNat) groups

/-- A delivered group is not delivered again while the base is at most 32767
past it. -/
def AtMostOnce (run : List Arrival) : Prop :=
  run.Pairwise fun a b =>
    a.delivered = true → b.group = a.group → (b.base : Int) ≤ a.number + 32767 → b.delivered = false

/-- The base and its unbounded number agree. -/
def Counts (s : UnsequencedState) (base : Nat) : Prop := s.incoming_unsequenced_group.toNat = base % 65536

/-- Group number `n` will be dropped while the base is at most 32767 past it:
its bit is set, or it is behind the base. -/
def Recorded (s : UnsequencedState) (base : Nat) (n : Int) : Prop :=
  ∀ j : Nat, n = base + j → j < 1024 ∧ bit s.unsequenced_window j = true

theorem number_mod (s : UnsequencedState) {base : Nat} (h : s.Counts base) (g : UInt16) :
    s.number base g % 65536 = g.toNat := by
  have hg := g.toNat_lt
  have ho : s.offset g = (2 ^ 16 - s.incoming_unsequenced_group.toNat + g.toNat) % 2 ^ 16 := UInt16.toNat_sub ..
  have hi := s.incoming_unsequenced_group.toNat_lt
  unfold Counts at h
  unfold number
  split <;> omega

/-- A recorded group is a duplicate. -/
theorem is_duplicate_of_recorded {s : UnsequencedState} {base : Nat} (hne : ¬ s.Empty) (hc : s.Counts base)
    {n : Int} (hr : s.Recorded base n) {g : UInt16} (hg : n % 65536 = g.toNat) (hn : base ≤ n + 32767) :
    s.is_duplicate g = true := by
  have ho : s.offset g = (2 ^ 16 - s.incoming_unsequenced_group.toNat + g.toNat) % 2 ^ 16 := UInt16.toNat_sub ..
  have hi := s.incoming_unsequenced_group.toNat_lt
  unfold Counts at hc
  rw [is_duplicate_iff]
  refine ⟨hne, ?_⟩
  by_cases h : (base : Int) ≤ n
  · obtain ⟨j, hj⟩ := Int.eq_ofNat_of_zero_le (Int.sub_nonneg.2 h)
    obtain ⟨hlt, hbit⟩ := hr j (by omega)
    have hoj : s.offset g = j := by omega
    exact .inl ⟨hoj ▸ hlt, hoj ▸ hbit⟩
  · exact .inr (by omega)

/-- How marking a group moves the base. -/
theorem mark_received_base (s : UnsequencedState) (g : UInt16) :
    ((s.mark_received g).incoming_group - s.incoming_group).toNat = advance (s.offset g) := by
  have hadv : advance (s.offset g) < 65536 := by unfold advance; split <;> omega
  unfold incoming_group
  rw [(mark_received_spec s g).1, show ∀ a b : UInt16, a + b - a = b from fun a b => by grind,
    UInt16.toNat_ofNat', Nat.mod_eq_of_lt hadv]

/-- How one arrival moves the unbounded base. -/
theorem receive_base (s : UnsequencedState) (g : UInt16) :
    ((s.receive g).1.incoming_group - s.incoming_group).toNat =
      if s.is_duplicate g then 0 else advance (s.offset g) := by
  unfold receive
  split
  · simp
  · exact mark_received_base s g

/-- The number follows the base wherever it moves. -/
theorem Counts.moved {s : UnsequencedState} {base : Nat} (h : s.Counts base) (s' : UnsequencedState) :
    s'.Counts (base + (s'.incoming_group - s.incoming_group).toNat) := by
  have := s.incoming_unsequenced_group.toNat_lt
  have := s'.incoming_unsequenced_group.toNat_lt
  unfold Counts incoming_group at *
  rw [UInt16.toNat_sub]
  omega

theorem receive_counts {s : UnsequencedState} {base : Nat} (h : s.Counts base) (g : UInt16) :
    (s.receive g).1.Counts (base + ((s.receive g).1.incoming_group - s.incoming_group).toNat) :=
  h.moved _

/-- Once a bit is set the window is never empty again. -/
theorem receive_not_empty {s : UnsequencedState} (h : ¬ s.Empty) (g : UInt16) : ¬ (s.receive g).1.Empty := by
  unfold receive
  split
  · exact h
  · rename_i hd
    rw [is_duplicate_iff] at hd
    exact mark_received_not_empty (by by_contra hc; exact hd ⟨h, .inr (by omega)⟩)

/-- What is recorded stays recorded. -/
theorem receive_recorded {s : UnsequencedState} {base : Nat} {n : Int} (h : s.Recorded base n) (g : UInt16) :
    (s.receive g).1.Recorded (base + ((s.receive g).1.incoming_group - s.incoming_group).toNat) n := by
  rw [receive_base]
  unfold receive
  split
  · simpa using h
  · intro j hj
    obtain ⟨hlt, hbit⟩ := h (j + advance (s.offset g)) (by push_cast at hj ⊢; omega)
    refine ⟨by omega, ?_⟩
    simp [(mark_received_spec s g).2, hbit]

/-- A group that is marked is recorded under its number. -/
theorem mark_received_recorded (s : UnsequencedState) (base : Nat) (g : UInt16) :
    (s.mark_received g).Recorded (base + advance (s.offset g)) (s.number base g) := by
  intro j hj
  have hlt : s.offset g < 65536 := (g - s.incoming_unsequenced_group).toNat_lt
  unfold number at hj
  rw [(mark_received_spec s g).2]
  split at hj
  · rename_i hle
    have : j + advance (s.offset g) = s.offset g := by push_cast at hj; omega
    refine ⟨?_, by simp [hle, this]⟩
    unfold advance at this
    split at this <;> omega
  · omega

/-- Later arrivals of a recorded group are dropped. -/
theorem arrivals_of_recorded {s : UnsequencedState} {base : Nat} (hne : ¬ s.Empty) (hc : s.Counts base) {n : Int}
    (hr : s.Recorded base n) (groups : List UInt16) :
    ∀ b ∈ s.arrivals base groups, n % 65536 = b.group.toNat → (b.base : Int) ≤ n + 32767 → b.delivered = false := by
  induction groups generalizing s base with
  | nil => simp [arrivals]
  | cons g groups ih =>
    intro b hb hg hn
    simp only [arrivals, List.mem_cons] at hb
    rcases hb with rfl | hb
    · simp [receive, is_duplicate_of_recorded hne hc hr hg hn]
    · exact ih (receive_not_empty hne g) (receive_counts hc g) (receive_recorded hr g) b hb hg hn

theorem receive_recorded_of_delivered {s : UnsequencedState} {base : Nat} {g : UInt16}
    (h : (s.receive g).2 = true) :
    (s.receive g).1.Recorded (base + ((s.receive g).1.incoming_group - s.incoming_group).toNat)
      (s.number base g) := by
  rw [receive_base]
  unfold receive at h ⊢
  split at h
  · cases h
  · rename_i hd
    simp only [hd, Bool.false_eq_true, if_false]
    exact mark_received_recorded s base g

/-- With a bit set, nothing is delivered twice. -/
theorem atMostOnce_of_not_empty {s : UnsequencedState} {base : Nat} (hne : ¬ s.Empty) (hc : s.Counts base)
    (groups : List UInt16) : AtMostOnce (s.arrivals base groups) := by
  induction groups generalizing s base with
  | nil => exact .nil
  | cons g groups ih =>
    refine List.Pairwise.cons ?_ (ih (receive_not_empty hne g) (receive_counts hc g))
    intro b hb hd hbg hn
    refine arrivals_of_recorded (receive_not_empty hne g) (receive_counts hc g)
      (receive_recorded_of_delivered hd) groups b hb ?_ hn
    rw [hbg]
    exact number_mod s hc g

/-! ## Before the first group is recorded

With no bit set every group is new, and one behind the base leaves no trace.
-/

/-- As at the start: no bit set, base at zero. -/
def Fresh (s : UnsequencedState) : Prop := s.Empty ∧ s.incoming_unsequenced_group = 0

theorem new_fresh : new.Fresh := ⟨bit_replicate, rfl⟩

/-- The groups that arrive before one that can be recorded. -/
def unrecorded (groups : List UInt16) : List UInt16 := groups.takeWhile (32768 < ·)

theorem offset_of_fresh {s : UnsequencedState} (h : s.Fresh) (g : UInt16) : s.offset g = g.toNat := by
  rw [offset, h.2, UInt16.sub_zero]

theorem receive_of_fresh {s : UnsequencedState} (h : s.Fresh) (g : UInt16) :
    s.receive g = (s.mark_received g, true) := by
  have : ¬ s.is_duplicate g = true := fun hd => ((is_duplicate_iff s g).1 hd).1 h.1
  rw [receive, if_neg this]

theorem mark_received_fresh {s : UnsequencedState} (h : s.Fresh) {g : UInt16} (hg : 32768 < g.toNat) :
    (s.mark_received g).Fresh := by
  obtain ⟨hb, hw⟩ := mark_received_spec s g
  rw [offset_of_fresh h] at hb hw
  have hadv : advance g.toNat = 0 := if_neg (by omega)
  refine ⟨fun j => ?_, by rw [hb, hadv, h.2]; rfl⟩
  rw [hw, h.1 (j + advance g.toNat), decide_eq_false (by omega)]
  rfl

/-- An unrecorded group is delivered again iff it comes again before anything
is recorded. -/
theorem unrecorded_again {s : UnsequencedState} (h : s.Fresh) {g : UInt16} (hg : 32768 < g.toNat)
    (groups : List UInt16) :
    (∀ b ∈ s.arrivals 0 groups, b.group = g → (b.base : Int) ≤ (g.toNat - 65536 : Int) + 32767 →
      b.delivered = false) ↔ g ∉ unrecorded groups := by
  induction groups generalizing s with
  | nil => simp [arrivals, unrecorded]
  | cons a groups ih =>
    have hrec := receive_of_fresh h a
    by_cases ha : 32768 < a.toNat
    · have hf := mark_received_fresh h ha
      have ha' : (32768 < a) := UInt16.lt_iff_toNat_lt.2 ha
      have hbase : ((s.mark_received a).incoming_group - s.incoming_group).toNat = 0 := by
        rw [incoming_group, incoming_group, hf.2, h.2]; rfl
      have ihf := ih hf
      simp only [unrecorded] at ihf
      simp only [arrivals, hrec, hbase, Nat.add_zero, unrecorded, List.takeWhile_cons, ha', decide_true, if_true,
        List.mem_cons, not_or, forall_eq_or_imp, ihf]
      refine and_congr_left fun _ => ⟨fun hh hga => ?_, fun hne hag => absurd hag.symm hne⟩
      have := hh hga.symm (by push_cast; omega)
      cases this
    · have ha' : ¬ (32768 < a) := fun hc => ha (UInt16.lt_iff_toNat_lt.1 hc)
      have hoff : s.offset a ≤ 32768 := by rw [offset_of_fresh h]; omega
      have hc : s.Counts 0 := by rw [Counts, h.2]; rfl
      refine iff_of_true (fun b hb hbg hn => ?_) (by simp [unrecorded, ha'])
      simp only [arrivals, List.mem_cons] at hb
      rcases hb with rfl | hb
      · exact absurd hg (by rw [← hbg]; exact ha)
      · have hne : ¬ (s.receive a).1.Empty := by rw [hrec]; exact mark_received_not_empty hoff
        have hlt := g.toNat_lt
        -- the number is behind the base already
        exact arrivals_of_recorded hne (receive_counts hc a) (n := (g.toNat - 65536 : Int))
          (fun j hj => by omega) groups b hb (by rw [hbg]; omega) hn

/-- Unsequenced delivery is at most once iff no group repeats before the
first one that can be recorded, that is, one up to 32768: until then the
window is empty, and an empty window takes every group for new. -/
theorem unsequenced_at_most_once_iff (groups : List UInt16) :
    AtMostOnce (new.arrivals 0 groups) ↔ (unrecorded groups).Nodup := by
  suffices H : ∀ s : UnsequencedState, s.Fresh → (AtMostOnce (s.arrivals 0 groups) ↔ (unrecorded groups).Nodup) from
    H new new_fresh
  induction groups with
  | nil => simp [arrivals, unrecorded, AtMostOnce]
  | cons a groups ih =>
    intro s h
    have hrec := receive_of_fresh h a
    have hc : s.Counts 0 := by rw [Counts, h.2]; rfl
    by_cases ha : 32768 < a.toNat
    · have hf := mark_received_fresh h ha
      have ha' : (32768 < a) := UInt16.lt_iff_toNat_lt.2 ha
      have hbase : ((s.mark_received a).incoming_group - s.incoming_group).toNat = 0 := by
        rw [incoming_group, incoming_group, hf.2, h.2]; rfl
      have hnum : s.number 0 a = (a.toNat - 65536 : Int) := by
        rw [number, offset_of_fresh h, if_neg (by omega)]; push_cast; ring
      have hu : unrecorded (a :: groups) = a :: unrecorded groups := by
        simp [unrecorded, ha']
      rw [hu, List.nodup_cons, ← ih _ hf, ← unrecorded_again hf ha]
      simp only [AtMostOnce, arrivals, hrec, hbase, Nat.add_zero, List.pairwise_cons, hnum, forall_const]
    · have ha' : ¬ (32768 < a) := fun hc => ha (UInt16.lt_iff_toNat_lt.1 hc)
      have hoff : s.offset a ≤ 32768 := by rw [offset_of_fresh h]; omega
      have hne : ¬ (s.receive a).1.Empty := by rw [hrec]; exact mark_received_not_empty hoff
      refine iff_of_true ?_ (by simp [unrecorded, ha'])
      refine List.Pairwise.cons (fun b hb hd hbg hn => ?_) (atMostOnce_of_not_empty hne (receive_counts hc a) groups)
      exact arrivals_of_recorded hne (receive_counts hc a) (receive_recorded_of_delivered hd) groups b hb
        (by rw [hbg]; exact number_mod s hc a) hn

/-- The first group of a connection is delivered twice when it is 65000. -/
theorem unsequenced_delivers_65000_twice : ¬ AtMostOnce (new.arrivals 0 [65000, 65000]) := by
  rw [AtMostOnce, show new.arrivals 0 [65000, 65000] =
    [⟨65000, 0, -536, true⟩, ⟨65000, 0, -536, true⟩] by decide +kernel]
  simp

end UnsequencedState

end Bitfold
