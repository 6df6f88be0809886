import Bitfold.Lib.Labels
import Bitfold.Receiving
/-!
# The window of received packets across the wrap

Packets are numbered by an unbounded counter and carry its low 16 bits. The
window of the acknowledgment handler is a ring of 33 slots, and a packet's slot
is its label modulo 33. 65536 is 31 modulo 33, so the slots do not go on across
the wrap of the label: of two numbers 31 apart on its two sides, the later
arrival takes the slot of the earlier one.
-/

namespace Bitfold

open Lib

/-! ## Labels -/

/-- A label is ahead of another one if it is less than half the circle ahead;
at exactly half the circle the greater label is. -/
theorem label_greater_iff (a b : Int) :
    sequence_greater_than (label a) (label b) = true ↔
      0 < (a - b) % 65536 ∧ ((a - b) % 65536 < 32768 ∨ ((a - b) % 65536 = 32768 ∧ b % 65536 < 32768)) := by
  have ha := label_toNat a
  have hb := label_toNat b
  unfold sequence_greater_than
  simp only [Bool.or_eq_true, Bool.and_eq_true, decide_eq_true_eq, gt_iff_lt, UInt16.lt_iff_toNat_lt,
    UInt16.le_iff_toNat_le, UInt16.toNat_sub, UInt16.toNat_ofNat]
  omega

/-! ## Arrivals -/

/-- A received packet: its number, the acknowledgment it carries and the clock
when it is processed. -/
structure Arrival where
  number : Nat
  remote_ack_seq : UInt16
  remote_ack_field : UInt32
  now : Instant

/-- The greatest number received, -1 before the first one. The newest arrival
comes first. -/
def greatest : List Arrival → Int
  | [] => -1
  | a :: past => max a.number (greatest past)

/-- Has the packet with this number been received? -/
def Arrived (past : List Arrival) (n : Int) : Prop := ∃ a ∈ past, (a.number : Int) = n

/-- Each number is less than 32768 above the greatest one before it and at
most 32 below. -/
def Numbered : List Arrival → Prop
  | [] => True
  | a :: past => Numbered past ∧ (a.number : Int) < greatest past + 32768 ∧ greatest past ≤ a.number + 32

/-- The handler after these arrivals. -/
def arrive (congestion : CongestionControl) : List Arrival → AcknowledgmentHandler
  | [] => .with_congestion congestion
  | a :: past =>
    (arrive congestion past).process_incoming (label a.number) a.remote_ack_seq a.remote_ack_field a.now

/-- The handler knows the greatest number and which of the 32 numbers below it
were received. -/
structure Exact (h : AcknowledgmentHandler) (past : List Arrival) : Prop where
  newest : h.remote_sequence_num = label (greatest past)
  bits : ∀ i, 1 ≤ i → i ≤ 32 → (h.ack_bitfield.toNat.testBit (i - 1) = true ↔ Arrived past (greatest past - i))

/-! ## When the window is exact -/

/-- Two numbers 31 apart on two sides of the wrap. -/
def Collide (m n : Int) : Prop := (n = m + 31 ∨ m = n + 31) ∧ m / 65536 ≠ n / 65536

/-- Since `m` last arrived, a number that collides with it did. -/
def Displaced (m : Int) : List Arrival → Prop
  | [] => False
  | a :: past => (a.number : Int) ≠ m ∧ (Collide m a.number ∨ Displaced m past)

/-- The number is not so far ahead that its label looks older than the window:
less than 32736 above the greatest one, or exactly that if the window's lower
end has a label below 32768. -/
def InReach (past : List Arrival) (a : Arrival) : Prop :=
  (a.number : Int) < greatest past + 32736 ∨
    ((a.number : Int) = greatest past + 32736 ∧ (greatest past - 32) % 65536 < 32768)

/-- The newest arrival is in reach, and none of the last 32 numbers that were
received has been displaced. -/
def Clear : List Arrival → Prop
  | [] => True
  | a :: past => InReach past a ∧
    ∀ m, Arrived (a :: past) m → greatest (a :: past) - 32 ≤ m → m < greatest (a :: past) → ¬ Displaced m (a :: past)

theorem arrived_cons {past : List Arrival} {a : Arrival} {m : Int} :
    Arrived (a :: past) m ↔ (a.number : Int) = m ∨ Arrived past m := by
  simp [Arrived]

theorem le_greatest {past : List Arrival} {m : Int} (h : Arrived past m) : m ≤ greatest past := by
  induction past with
  | nil =>
    obtain ⟨a, ha, -⟩ := h
    cases ha
  | cons a past ih =>
    rcases arrived_cons.1 h with rfl | h
    · exact le_max_left _ _
    · exact (ih h).trans (le_max_right _ _)

/-- Within a window of 33 numbers only the wrap makes two of them share a
slot. -/
theorem slot_eq_iff {m n : Int} (hmn : m ≤ n + 32) (hnm : n ≤ m + 32) :
    (label n).toNat % 33 = (label m).toNat % 33 ↔ n = m ∨ Collide m n := by
  have hm := label_toNat m
  have hn := label_toNat n
  unfold Collide
  obtain hq | hq | hq : n / 65536 = m / 65536 ∨ n / 65536 = m / 65536 + 1 ∨ n / 65536 = m / 65536 - 1 := by omega
  · omega
  · omega
  · omega

/-! ## What the ring holds -/

/-- The ring holds the last 33 numbers that arrived and were not displaced,
and nothing a whole round of labels old. -/
structure Ring (past : List Arrival) (w : SequenceBuffer ReceivedPacket 33) : Prop where
  next : w.sequence_num = label (greatest past + 1)
  sound : ∀ x, w.exists_at x = true → ∃ m, Arrived past m ∧ label m = x ∧ greatest past < m + 65536 ∧
    (greatest past ≤ m + 32 → ¬ Displaced m past)
  complete : ∀ m, Arrived past m → greatest past ≤ m + 32 → ¬ Displaced m past → w.exists_at (label m) = true

namespace Ring

variable {past : List Arrival} {a : Arrival} {w : SequenceBuffer ReceivedPacket 33}

theorem start : Ring [] (.with_capacity 33 (by decide)) := by
  refine ⟨rfl, fun x hx => ?_, ?_⟩
  · rw [SequenceBuffer.exists_at_iff] at hx
    simp [SequenceBuffer.with_capacity, Vector.get] at hx
  · rintro m ⟨a, ha, -⟩
    cases ha

theorem too_old_iff (hr : Ring past w) (hn : Numbered (a :: past)) :
    w.too_old (label a.number) = true ↔ ¬ InReach past a := by
  have hlow : w.sequence_num - .ofNat 33 = label (greatest past - 32) := by
    rw [hr.next, show UInt16.ofNat 33 = label 33 from rfl, label_sub]
    congr 1
    omega
  have h1 := hn.2.1
  have h2 := hn.2.2
  unfold SequenceBuffer.too_old sequence_less_than InReach
  rw [hlow, label_greater_iff]
  omega

theorem ahead_iff (hr : Ring past w) (hn : Numbered (a :: past)) :
    sequence_greater_than (label a.number + 1) w.sequence_num = true ↔ greatest past < a.number := by
  have h1 := hn.2.1
  have h2 := hn.2.2
  rw [hr.next, label_add_one, label_greater_iff]
  omega

/-- Which numbers are still held once the ring has moved on to a new one. -/
theorem advance_iff (hr : Ring past w) (hn : Numbered (a :: past)) {m : Int} (hm : m ≤ greatest past)
    (hm' : greatest past < m + 65536) :
    (w.advance_sequence (label a.number)).exists_at (label m) = true ↔ w.exists_at (label m) = true ∧
      ((a.number : Int) ≤ greatest past ∨ ((a.number : Int) ≤ greatest past + 33 ∧ (a.number : Int) < m + 65536)) := by
  have h1 := hn.2.1
  by_cases ha : greatest past < a.number
  · -- the labels from the next one up to the new one are cleared
    have hd : ((label a.number - w.sequence_num).toNat : Int) = a.number - greatest past - 1 := by
      rw [hr.next, label_sub, label_toNat]
      omega
    have hx : ((label m - w.sequence_num).toNat : Int) = m - greatest past - 1 + 65536 := by
      rw [hr.next, label_sub, label_toNat]
      omega
    rw [SequenceBuffer.exists_at_advance w ((hr.ahead_iff hn).2 ha)]
    apply and_congr_right
    intro _
    omega
  · unfold SequenceBuffer.advance_sequence
    rw [if_neg (mt (hr.ahead_iff hn).1 ha)]
    simp [not_lt.1 ha]

theorem index_eq_iff (w : SequenceBuffer ReceivedPacket 33) (x y : UInt16) :
    w.index x = w.index y ↔ x.toNat % 33 = y.toNat % 33 := by
  rw [SequenceBuffer.index, SequenceBuffer.index, Fin.mk.injEq]

/-- A number in reach arrives. -/
theorem insert (hr : Ring past w) (hn : Numbered (a :: past)) (ha : InReach past a) :
    Ring (a :: past) (w.insert (label a.number) {}) := by
  have hold : w.too_old (label a.number) = false := by
    rw [Bool.eq_false_iff, ne_eq, hr.too_old_iff hn]
    exact not_not.2 ha
  have h2 := hn.2.2
  have hg : greatest (a :: past) = max (a.number : Int) (greatest past) := rfl
  refine ⟨?_, fun x hx => ?_, fun m hm hw hd => ?_⟩
  · rw [SequenceBuffer.insert_sequence_num, SequenceBuffer.next_after, hold, hg]
    by_cases hgt : greatest past < a.number
    · rw [(hr.ahead_iff hn).2 hgt, if_pos (by decide), max_eq_left hgt.le, label_add_one]
    · rw [Bool.eq_false_iff.2 (mt (hr.ahead_iff hn).1 hgt), if_neg (by decide), max_eq_right (not_lt.1 hgt), hr.next]
  · rw [SequenceBuffer.exists_at_insert hold] at hx
    split at hx
    · refine ⟨a.number, arrived_cons.2 (.inl rfl), hx.symm, by omega, fun _ hd => hd.1 rfl⟩
    · -- held before, and neither passed by the window nor overwritten
      rename_i hi
      obtain ⟨m, hm, rfl, hround, hkept⟩ := hr.sound x (SequenceBuffer.exists_at_of_advance hx)
      have hle := le_greatest hm
      have hpast := ((hr.advance_iff hn hle hround).1 hx).2
      refine ⟨m, arrived_cons.2 (.inr hm), rfl, by omega, fun hwin hd => ?_⟩
      rcases hd.2 with hc | hd
      · rw [index_eq_iff, slot_eq_iff (by omega) (by omega)] at hi
        exact hi (.inr hc)
      · exact hkept (by omega) hd
  · rw [SequenceBuffer.exists_at_insert hold]
    rcases arrived_cons.1 hm with rfl | hm
    · rw [if_pos rfl]
    · have hle := le_greatest hm
      by_cases hne : (a.number : Int) = m
      · rw [hne, if_pos rfl]
      · have hkept : ¬ (Collide m a.number ∨ Displaced m past) := fun h => hd ⟨hne, h⟩
        have hslot : w.index (label a.number) ≠ w.index (label m) := by
          rw [ne_eq, index_eq_iff, slot_eq_iff (by omega) (by omega)]
          rintro (h | h)
          · exact hne h
          · exact hkept (.inl h)
        rw [if_neg hslot, hr.advance_iff hn hle (by omega)]
        exact ⟨hr.complete m hm (by omega) fun h => hkept (.inr h), by omega⟩

/-- What the ring says of the last 33 numbers. -/
theorem exists_at_label_iff (hr : Ring past w) {m : Int} (hm : greatest past ≤ m + 32) (hm' : m ≤ greatest past) :
    w.exists_at (label m) = true ↔ Arrived past m ∧ ¬ Displaced m past := by
  constructor
  · intro h
    obtain ⟨m', ha, he, hround, hkept⟩ := hr.sound _ h
    have hle := le_greatest ha
    rw [label_eq_iff] at he
    obtain rfl : m' = m := by omega
    exact ⟨ha, hkept hm⟩
  · rintro ⟨ha, hd⟩
    exact hr.complete m ha hm hd

end Ring

/-! ## The acknowledgment bitfield -/

section

variable {past : List Arrival} {a : Arrival}

/-- With the ring as it should be, the handler is exact as long as none of the
last 32 numbers has been displaced. -/
theorem exact_iff_kept {h : AcknowledgmentHandler} (hr : Ring past h.received_packets) :
    Exact h past ↔ ∀ m, Arrived past m → greatest past - 32 ≤ m → m < greatest past → ¬ Displaced m past := by
  have hnew : h.remote_sequence_num = label (greatest past) := by
    rw [AcknowledgmentHandler.remote_sequence_num, hr.next, show (1 : UInt16) = label 1 from rfl, label_sub,
      Int.add_sub_cancel]
  have hbit : ∀ i : Nat, 1 ≤ i → i ≤ 32 → (h.ack_bitfield.toNat.testBit (i - 1) = true ↔
      Arrived past (greatest past - i) ∧ ¬ Displaced (greatest past - i) past) := by
    intro i hi hi'
    have hlabel : UInt16.ofNat i = label i := by
      rw [label]
      congr 1
      omega
    rw [AcknowledgmentHandler.ack_bitfield_testBit, Nat.sub_add_cancel hi, hnew, hlabel, label_sub]
    rw [← hr.exists_at_label_iff (by omega) (by omega)]
    simp [show i - 1 < 32 by omega]
  constructor
  · intro he m hm hlow hhigh
    obtain ⟨i, hi⟩ : ∃ i : Nat, (i : Int) = greatest past - m := ⟨(greatest past - m).toNat, by omega⟩
    obtain rfl : m = greatest past - i := by omega
    exact ((hbit i (by omega) (by omega)).1 ((he.bits i (by omega) (by omega)).2 hm)).2
  · intro hk
    refine ⟨hnew, fun i hi hi' => ?_⟩
    rw [hbit i hi hi']
    exact ⟨fun h => h.1, fun hm => ⟨hm, hk _ hm (by omega) (by omega)⟩⟩

variable {congestion : CongestionControl}

theorem arrive_received (congestion : CongestionControl) (a : Arrival) (past : List Arrival) :
    (arrive congestion (a :: past)).received_packets =
      (arrive congestion past).received_packets.insert (label a.number) {} :=
  AcknowledgmentHandler.process_incoming_received ..

/-- The next arrival leaves the handler exact if and only if it is clear. -/
theorem exact_iff_clear (hr : Ring past (arrive congestion past).received_packets) (hn : Numbered (a :: past)) :
    Exact (arrive congestion (a :: past)) (a :: past) ↔ Clear (a :: past) := by
  by_cases hreach : InReach past a
  · have hr' := hr.insert hn hreach
    rw [← arrive_received] at hr'
    rw [exact_iff_kept hr']
    exact ⟨fun h => ⟨hreach, h⟩, fun h => h.2⟩
  · -- a number out of reach is taken for an old one, and the window stays
    refine ⟨fun he => ?_, fun h => absurd h.1 hreach⟩
    have hold := (hr.too_old_iff hn).2 hreach
    have hnew := he.newest
    rw [AcknowledgmentHandler.remote_sequence_num, arrive_received, SequenceBuffer.insert, if_pos hold, hr.next,
      show (1 : UInt16) = label 1 from rfl, label_sub, label_eq_iff] at hnew
    have hlt := hn.2.1
    have hg : greatest (a :: past) = max (a.number : Int) (greatest past) := rfl
    unfold InReach at hreach
    omega

theorem ring_next (hr : Ring past (arrive congestion past).received_packets) (hn : Numbered (a :: past))
    (hc : Clear (a :: past)) : Ring (a :: past) (arrive congestion (a :: past)).received_packets := by
  rw [arrive_received]
  exact hr.insert hn hc.1

/-- In a run of clear arrivals the ring is as it should be. -/
theorem ring_of_clear {arrivals : List Arrival} (hn : Numbered arrivals)
    (hc : ∀ past, past <:+ arrivals → Clear past) : Ring arrivals (arrive congestion arrivals).received_packets := by
  induction arrivals with
  | nil => exact .start
  | cons a past ih =>
    exact ring_next (ih hn.1 fun p hp => hc p (hp.trans (List.suffix_cons a past))) hn (hc _ List.suffix_rfl)

/-- At every moment of a run the handler knows which of the last 32 packets it
received if and only if every arrival is clear. -/
theorem ack_bitfield_exact_iff (congestion : CongestionControl) {arrivals : List Arrival} (hn : Numbered arrivals) :
    (∀ past, past <:+ arrivals → Exact (arrive congestion past) past) ↔ ∀ past, past <:+ arrivals → Clear past := by
  induction arrivals with
  | nil =>
    simp only [List.suffix_nil, forall_eq]
    refine ⟨fun _ => trivial, fun _ => (exact_iff_kept .start).2 ?_⟩
    rintro m ⟨a, ha, -⟩
    cases ha
  | cons a past ih =>
    -- the arrivals before are clear in both directions, so the ring is as it should be
    simp only [List.suffix_cons_iff, forall_eq_or_imp, ih hn.1]
    constructor
    · rintro ⟨he, hc⟩
      exact ⟨(exact_iff_clear (ring_of_clear hn.1 hc) hn).1 he, hc⟩
    · rintro ⟨ha, hc⟩
      exact ⟨(exact_iff_clear (ring_of_clear hn.1 hc) hn).2 ha, hc⟩

end

/-- Packets with these numbers that acknowledge nothing, the newest first. -/
def packets_of (numbers : List Nat) : List Arrival := numbers.map fun n => ⟨n, 0, 0, 0⟩

/-- Two packets on the two sides of the wrap. -/
theorem ack_bitfield_exact_across_wrap : Numbered (packets_of [65536, 65535, 64000, 32000]) ∧
    ∀ past, past <:+ packets_of [65536, 65535, 64000, 32000] → Exact (arrive (.default 0) past) past := by
  have hn : Numbered (packets_of [65536, 65535, 64000, 32000]) := by
    simp [packets_of, Numbered, greatest]
  refine ⟨hn, (ack_bitfield_exact_iff (.default 0) hn).2 ?_⟩
  simp [packets_of, List.suffix_cons_iff, Clear, InReach, Arrived, greatest, Displaced, Collide]
  refine ⟨?_, ?_, ?_⟩ <;> intro m <;> omega

/-- 65505 and 65536 share a slot: once the later one has arrived, the handler
does not acknowledge the earlier one. -/
theorem wrap_displaces_received_packet : Numbered (packets_of [65536, 65505, 64000, 32000]) ∧
    Arrived (packets_of [65536, 65505, 64000, 32000]) (greatest (packets_of [65536, 65505, 64000, 32000]) - 31) ∧
    (arrive (.default 0) (packets_of [65536, 65505, 64000, 32000])).ack_bitfield.toNat.testBit 30 = false := by
  refine ⟨by simp [packets_of, Numbered, greatest], by simp [packets_of, Arrived, greatest], ?_⟩
  rw [AcknowledgmentHandler.ack_bitfield_testBit, AcknowledgmentHandler.remote_sequence_num]
  simp only [packets_of, List.map, arrive_received]
  decide +kernel

end Bitfold
