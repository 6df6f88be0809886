import Bitfold.AckWindow
import Bitfold.Lib.Runs
/-!
# Sent packets are conserved

The handler keeps the packets it has sent in a map from 16-bit sequences.
Beside it stands the list of all packets ever given to it, so that packet `n`
is the `n`-th of them. A packet leaves the map by an acknowledgment that names
it or by a loss report, and by one of them only.
-/

namespace Bitfold

open Lib

/-! ## What the calls do to the map -/

namespace AcknowledgmentHandler

variable (h : AcknowledgmentHandler)

theorem acknowledge_sent_sequence (s : UInt16) (now : Instant) :
    (h.acknowledge_sent s now).sequence_number = h.sequence_number := by
  unfold acknowledge_sent
  split <;> rfl

theorem acknowledge_sent_remote_ack (s : UInt16) (now : Instant) :
    (h.acknowledge_sent s now).remote_ack_sequence_num = h.remote_ack_sequence_num := by
  unfold acknowledge_sent
  split <;> rfl

theorem acknowledge_sent_get (s x : UInt16) (now : Instant) :
    (h.acknowledge_sent s now).sent_packets[x]? = if x == s then none else h.sent_packets[x]? := by
  unfold acknowledge_sent
  split
  · rw [Std.ExtTreeMap.getElem?_erase]
    by_cases hx : s = x
    · simp [hx]
    · simp [hx, Ne.symm hx]
  · rename_i hs
    by_cases hx : x = s
    · simp [hx, hs]
    · simp [hx]

/-- The walk over the mask: after `k` rounds the mask has lost its low `k`
bits. -/
theorem acknowledge_mask_get (ack x : UInt16) (field : UInt32) (now : Instant) (m k : Nat) (g : UInt32)
    (hg : g.toNat = field.toNat >>> k) :
    ((List.range' (k + 1) m).foldl
      (fun (acc : AcknowledgmentHandler × UInt32) i =>
        ((if acc.2 &&& 1 == 1 then acc.1.acknowledge_sent (ack - .ofNat i) now else acc.1), acc.2 >>> 1))
      (h, g)).1.sent_packets[x]? =
      if (List.range' (k + 1) m).any (fun i => field.toNat.testBit (i - 1) && x == ack - .ofNat i) then none
      else h.sent_packets[x]? := by
  induction m generalizing h k g with
  | zero => simp
  | succ m ih =>
    have hbit : (g &&& 1 == 1) = field.toNat.testBit k := by
      rw [Bool.eq_iff_iff, beq_iff_eq, ← UInt32.toNat_inj, UInt32.toNat_and, hg, UInt32.toNat_one,
        Nat.and_one_is_mod, Nat.testBit_eq_decide_div_mod_eq, Nat.shiftRight_eq_div_pow]
      simp
    have hshift : (g >>> 1).toNat = field.toNat >>> (k + 1) := by
      rw [UInt32.toNat_shiftRight, hg, Nat.shiftRight_add]
      rfl
    rw [List.range'_succ, List.foldl_cons, List.any_cons, ih _ (k + 1) _ hshift]
    simp only [hbit, Nat.add_sub_cancel]
    generalize (List.range' (k + 1 + 1) m).any _ = rest
    cases hb : field.toNat.testBit k
    · rfl
    · rw [if_pos rfl, acknowledge_sent_get, Bool.true_and]
      cases x == ack - .ofNat (k + 1) <;> cases rest <;> rfl

/-- `process_incoming` forgets the packets the acknowledgment names. -/
theorem process_incoming_get (seq ack : UInt16) (field : UInt32) (now : Instant) (x : UInt16) :
    (h.process_incoming seq ack field now).sent_packets[x]? =
      if names ack field x then none else h.sent_packets[x]? := by
  have hs : ∀ h' : AcknowledgmentHandler, h'.sent_packets = h.sent_packets →
      (((List.range' 1 redundant_packet_acks_size).foldl
        (fun (acc : AcknowledgmentHandler × UInt32) i =>
          ((if acc.2 &&& 1 == 1 then acc.1.acknowledge_sent (ack - .ofNat i) now else acc.1), acc.2 >>> 1))
        (h'.acknowledge_sent ack now, field)).1.sent_packets[x]? =
        if names ack field x then none else h.sent_packets[x]?) := by
    intro h' he
    rw [acknowledge_mask_get _ ack x field now _ 0 field rfl, acknowledge_sent_get, he, names]
    generalize (List.range' 1 redundant_packet_acks_size).any _ = rest
    cases x == ack <;> cases rest <;> rfl
  apply hs _
  dsimp only
  split <;> rfl

theorem process_incoming_sequence (seq ack : UInt16) (field : UInt32) (now : Instant) :
    (h.process_incoming seq ack field now).sequence_number = h.sequence_number :=
  process_incoming_invariant (I := fun h' => h'.sequence_number = h.sequence_number)
    (fun h' s hi => (acknowledge_sent_sequence h' s now).trans hi) h seq ack field fun _ => rfl

theorem process_outgoing_get (packet_type : PacketType) (payload : Bytes) (ordering_guarantee : OrderingGuarantee)
    (item_identifier : Option UInt16) (now : Instant) (x : UInt16) :
    (h.process_outgoing packet_type payload ordering_guarantee item_identifier now).sent_packets[x]? =
      if x = h.sequence_number then some ⟨packet_type, payload, ordering_guarantee, item_identifier, now⟩
      else h.sent_packets[x]? := by
  unfold process_outgoing
  rw [Std.ExtTreeMap.getElem?_insert]
  by_cases hx : h.sequence_number = x
  · simp [hx]
  · simp [hx, Ne.symm hx]

theorem erase_all_get (gone : List UInt16) (sent : Std.ExtTreeMap UInt16 SentPacket) (x : UInt16) :
    (gone.foldl (fun sent s => sent.erase s) sent)[x]? = if x ∈ gone then none else sent[x]? := by
  induction gone generalizing sent with
  | nil => simp
  | cons s gone ih =>
    rw [List.foldl_cons, ih, Std.ExtTreeMap.getElem?_erase]
    by_cases hx : x = s
    · simp [hx]
    · simp [hx, Ne.symm hx]

/-- `dropped_packets` forgets the packets that are too far behind. -/
theorem dropped_packets_get (x : UInt16) :
    h.dropped_packets.2.sent_packets[x]? = if h.is_dropped x then none else h.sent_packets[x]? := by
  unfold dropped_packets
  rw [erase_all_get]
  by_cases hm : x ∈ h.sent_packets
  · simp [hm]
  · simp [hm]

end AcknowledgmentHandler

/-! ## The packets of a run -/

/-- A call that concerns the sent packets. -/
inductive AckCall where
  | process_outgoing (packet_type : PacketType) (payload : Bytes) (ordering_guarantee : OrderingGuarantee)
      (item_identifier : Option UInt16) (now : Instant)
  | process_incoming (remote_seq_num remote_ack_seq : UInt16) (remote_ack_field : UInt32) (now : Instant)
  | dropped_packets

/-- A handler, and all the packets given to it so far. -/
structure Shipment where
  handler : AcknowledgmentHandler
  sent : List SentPacket

namespace Shipment

def start (congestion : CongestionControl) : Shipment := ⟨.with_congestion congestion, []⟩

/-- The shipment after a call. -/
def call (s : Shipment) : AckCall → Shipment
  | .process_outgoing packet_type payload ordering_guarantee item_identifier now =>
    ⟨s.handler.process_outgoing packet_type payload ordering_guarantee item_identifier now,
      s.sent ++ [⟨packet_type, payload, ordering_guarantee, item_identifier, now⟩]⟩
  | .process_incoming remote_seq_num remote_ack_seq remote_ack_field now =>
    { s with handler := s.handler.process_incoming remote_seq_num remote_ack_seq remote_ack_field now }
  | .dropped_packets => { s with handler := s.handler.dropped_packets.2 }

/-- Packet `n` is in the map: it has been sent, no packet after it has taken
its sequence, and its sequence leads to it. -/
def InFlight (s : Shipment) (n : Nat) : Prop :=
  n < s.sent.length ∧ s.sent.length ≤ n + 65536 ∧ s.handler.sent_packets[label n]? = s.sent[n]?

instance (s : Shipment) : DecidablePred s.InFlight := fun n =>
  inferInstanceAs (Decidable (n < s.sent.length ∧ s.sent.length ≤ n + 65536 ∧
    s.handler.sent_packets[label n]? = s.sent[n]?))

/-- The number of packets in flight. -/
def in_flight (s : Shipment) : Nat := ((Finset.range s.sent.length).filter s.InFlight).card

/-- No packet is still in flight when its sequence comes round again. -/
def Allows (s : Shipment) : AckCall → Prop
  | .process_outgoing .. => ∀ n, s.InFlight n → label n ≠ s.handler.sequence_number
  | _ => True

/-- One step of a run. -/
def step (s : Shipment) (c : AckCall) (t : Shipment) : Prop := s.Allows c ∧ t = s.call c

/-- Packet `n` is removed at step `i`: an acknowledgment names it. -/
def Removed (steps : List (Shipment × AckCall)) (n i : Nat) : Prop :=
  ∃ s seq ack field now, steps[i]? = some (s, .process_incoming seq ack field now) ∧
    AcknowledgmentHandler.names ack field (label n) = true ∧
    s.InFlight n ∧ ¬ (s.call (.process_incoming seq ack field now)).InFlight n

/-- Packet `n` is returned at step `i`: it is reported as dropped. -/
def Returned (steps : List (Shipment × AckCall)) (n i : Nat) : Prop :=
  ∃ s, steps[i]? = some (s, .dropped_packets) ∧ s.InFlight n ∧ ¬ (s.call .dropped_packets).InFlight n

/-- Packet `n` is in exactly one of three places: in flight, removed once, or
returned once. -/
def Conserved (steps : List (Shipment × AckCall)) (t : Shipment) (n : Nat) : Prop :=
  (t.InFlight n ∧ (∀ i, ¬ Removed steps n i) ∧ ∀ i, ¬ Returned steps n i) ∨
  (¬ t.InFlight n ∧ (∃! i, Removed steps n i) ∧ ∀ i, ¬ Returned steps n i) ∨
  (¬ t.InFlight n ∧ (∀ i, ¬ Removed steps n i) ∧ ∃! i, Returned steps n i)

/-! ## What the map holds -/

/-- Every entry of the map is the newest packet with its sequence. -/
structure Tracks (s : Shipment) : Prop where
  next : s.handler.sequence_number = label s.sent.length
  held : ∀ x p, s.handler.sent_packets[x]? = some p →
    ∃ n : Nat, n < s.sent.length ∧ s.sent.length ≤ n + 65536 ∧ label n = x ∧ s.sent[n]? = some p

section

variable {s t : Shipment} {n m : Nat}

/-- Among the last 65536 packets the label is unique. -/
theorem label_inj (hn : n < s.sent.length) (hn' : s.sent.length ≤ n + 65536) (hm : m < s.sent.length)
    (hm' : s.sent.length ≤ m + 65536) (he : label n = label m) : n = m := by
  rw [label_eq_iff] at he
  omega

theorem InFlight.inj (hn : s.InFlight n) (hm : s.InFlight m) (he : label n = label m) : n = m :=
  label_inj hn.1 hn.2.1 hm.1 hm.2.1 he

/-- A key of the map belongs to a packet in flight. -/
theorem Tracks.inFlight_of_mem (hs : s.Tracks) {x : UInt16} (hx : x ∈ s.handler.sent_packets) :
    ∃ n, s.InFlight n ∧ label n = x := by
  obtain ⟨p, hp⟩ := Option.isSome_iff_exists.1 (Std.ExtTreeMap.mem_iff_isSome_getElem?.1 hx)
  obtain ⟨n, hn, hn', rfl, hget⟩ := hs.held x p hp
  exact ⟨n, ⟨hn, hn', hp.trans hget.symm⟩, rfl⟩

theorem InFlight.mem (hn : s.InFlight n) : label n ∈ s.handler.sent_packets := by
  rw [Std.ExtTreeMap.mem_iff_isSome_getElem?, hn.2.2, List.getElem?_eq_getElem hn.1]
  rfl

theorem tracks_start (congestion : CongestionControl) : (start congestion).Tracks := by
  refine ⟨rfl, fun x p hx => ?_⟩
  simp [start, AcknowledgmentHandler.with_congestion] at hx

/-! ## One call -/

/-- `process_incoming` removes exactly the packets in flight that the
acknowledgment names. -/
theorem inFlight_process_incoming (s : Shipment) (seq ack : UInt16) (field : UInt32) (now : Instant) (n : Nat) :
    (s.call (.process_incoming seq ack field now)).InFlight n ↔
      s.InFlight n ∧ ¬ AcknowledgmentHandler.names ack field (label n) = true := by
  unfold InFlight call
  rw [AcknowledgmentHandler.process_incoming_get]
  constructor
  · rintro ⟨hn, hn', hget⟩
    rw [List.getElem?_eq_getElem hn] at hget ⊢
    split at hget
    · cases hget
    · exact ⟨⟨hn, hn', hget⟩, by assumption⟩
  · rintro ⟨⟨hn, hn', hget⟩, hnames⟩
    rw [if_neg hnames]
    exact ⟨hn, hn', hget⟩

/-- `dropped_packets` removes the packets in flight that are too far behind. -/
theorem inFlight_dropped_packets (s : Shipment) (n : Nat) :
    (s.call .dropped_packets).InFlight n ↔ s.InFlight n ∧ ¬ s.handler.is_dropped (label n) = true := by
  unfold InFlight call
  rw [AcknowledgmentHandler.dropped_packets_get]
  constructor
  · rintro ⟨hn, hn', hget⟩
    rw [List.getElem?_eq_getElem hn] at hget ⊢
    split at hget
    · cases hget
    · exact ⟨⟨hn, hn', hget⟩, by assumption⟩
  · rintro ⟨⟨hn, hn', hget⟩, hdropped⟩
    rw [if_neg hdropped]
    exact ⟨hn, hn', hget⟩

/-- `process_outgoing` adds the new packet and keeps those in flight that have
another sequence. -/
theorem Tracks.inFlight_process_outgoing (hs : s.Tracks) (packet_type : PacketType) (payload : Bytes)
    (ordering_guarantee : OrderingGuarantee) (item_identifier : Option UInt16) (now : Instant) (n : Nat) :
    (s.call (.process_outgoing packet_type payload ordering_guarantee item_identifier now)).InFlight n ↔
      n = s.sent.length ∨ (s.InFlight n ∧ label n ≠ s.handler.sequence_number) := by
  unfold InFlight call
  rw [AcknowledgmentHandler.process_outgoing_get, hs.next]
  simp only [List.length_append, List.length_singleton]
  rcases lt_trichotomy n s.sent.length with hlt | rfl | hgt
  · rw [List.getElem?_append_left hlt]
    constructor
    · rintro ⟨-, hn', hget⟩
      have hne : label n ≠ label s.sent.length := by
        rw [ne_eq, label_eq_iff]
        omega
      rw [if_neg hne] at hget
      exact .inr ⟨⟨hlt, by omega, hget⟩, hne⟩
    · rintro (rfl | ⟨hn, hne⟩)
      · omega
      · refine ⟨by omega, ?_, ?_⟩
        · rw [ne_eq, label_eq_iff] at hne
          have := hn.2.1
          omega
        · rw [if_neg hne]
          exact hn.2.2
  · simp
  · constructor
    · omega
    · omega

/-- The invariant holds after every call. -/
theorem Tracks.call (hs : s.Tracks) (c : AckCall) : (s.call c).Tracks := by
  cases c with
  | process_outgoing packet_type payload ordering_guarantee item_identifier now =>
    refine ⟨?_, fun x p hx => ?_⟩
    · change s.handler.sequence_number + 1 = label ((s.sent ++ [_]).length : Nat)
      rw [hs.next, label_add_one, List.length_append, List.length_singleton]
      rfl
    · have hflight := hs.inFlight_process_outgoing packet_type payload ordering_guarantee item_identifier now
      have hx' := hx
      unfold Shipment.call at hx
      rw [AcknowledgmentHandler.process_outgoing_get] at hx
      split at hx
      · rename_i hseq
        have hn := (hflight s.sent.length).2 (.inl rfl)
        exact ⟨s.sent.length, hn.1, hn.2.1, by rw [hseq, hs.next], by rw [← hn.2.2, ← hs.next, ← hseq, hx']⟩
      · rename_i hne
        obtain ⟨n, hn, rfl⟩ := hs.inFlight_of_mem (Std.ExtTreeMap.mem_iff_isSome_getElem?.2 (by rw [hx]; rfl))
        have hn' := (hflight n).2 (.inr ⟨hn, hne⟩)
        exact ⟨n, hn'.1, hn'.2.1, rfl, by rw [← hn'.2.2, hx']⟩
  | process_incoming seq ack field now =>
    refine ⟨(AcknowledgmentHandler.process_incoming_sequence ..).trans hs.next, fun x p hx => ?_⟩
    unfold Shipment.call at hx
    rw [AcknowledgmentHandler.process_incoming_get] at hx
    split at hx
    · cases hx
    · exact hs.held x p hx
  | dropped_packets =>
    refine ⟨hs.next, fun x p hx => ?_⟩
    unfold Shipment.call at hx
    rw [AcknowledgmentHandler.dropped_packets_get] at hx
    split at hx
    · cases hx
    · exact hs.held x p hx

theorem Tracks.step {c : AckCall} (hs : s.Tracks) (h : s.step c t) : t.Tracks := by
  obtain ⟨-, rfl⟩ := h
  exact hs.call c

/-- A loss report returns the packets that leave the map, each once. -/
theorem Tracks.dropped_packets_numbers (hs : s.Tracks) :
    ∃ numbers : List Nat, numbers.Nodup ∧
      (∀ n, n ∈ numbers ↔ s.InFlight n ∧ ¬ (s.call .dropped_packets).InFlight n) ∧
      s.handler.dropped_packets.1.map some = numbers.map (s.sent[·]?) := by
  choose! number hflight hlabel using fun x (hx : x ∈ s.handler.sent_packets) => hs.inFlight_of_mem hx
  have hmem : ∀ x ∈ s.handler.sent_packets.keys.filter s.handler.is_dropped, x ∈ s.handler.sent_packets := by
    intro x hx
    exact Std.ExtTreeMap.mem_keys.1 (List.mem_filter.1 hx).1
  refine ⟨(s.handler.sent_packets.keys.filter s.handler.is_dropped).map number, ?_, fun n => ?_, ?_⟩
  · refine List.Nodup.map_on (fun x hx y hy he => ?_) (Std.ExtTreeMap.nodup_keys.filter _)
    rw [← hlabel x (hmem x hx), ← hlabel y (hmem y hy), he]
  · rw [inFlight_dropped_packets, List.mem_map]
    constructor
    · rintro ⟨x, hx, rfl⟩
      have hf := hflight x (hmem x hx)
      refine ⟨hf, fun hkept => hkept.2 ?_⟩
      rw [hlabel x (hmem x hx)]
      exact (List.mem_filter.1 hx).2
    · rintro ⟨hn, hgone⟩
      have hd : s.handler.is_dropped (label n) = true := by
        by_contra hd
        exact hgone ⟨hn, hd⟩
      refine ⟨label n, List.mem_filter.2 ⟨Std.ExtTreeMap.mem_keys.2 hn.mem, hd⟩, ?_⟩
      exact InFlight.inj (hflight _ hn.mem) hn (hlabel _ hn.mem)
  · change ((s.handler.sent_packets.keys.filter s.handler.is_dropped).filterMap
      (s.handler.sent_packets[·]?)).map some = _
    generalize s.handler.sent_packets.keys.filter s.handler.is_dropped = gone at hmem
    induction gone with
    | nil => rfl
    | cons x gone ih =>
      have hx := hmem x (by simp)
      have hget : s.handler.sent_packets[x]? = s.sent[number x]? := by
        rw [← (hflight x hx).2.2, hlabel x hx]
      rw [List.map_cons, List.map_cons, ← ih fun y hy => hmem y (by simp [hy])]
      rw [List.filterMap_cons, hget, List.getElem?_eq_getElem (hflight x hx).1]
      rfl

/-- The map has one entry for each packet in flight. -/
theorem Tracks.size_eq (hs : s.Tracks) : s.handler.sent_packets.size = s.in_flight := by
  have himage : s.handler.sent_packets.keys.toFinset =
      ((Finset.range s.sent.length).filter s.InFlight).image fun n : Nat => label n := by
    ext x
    rw [List.mem_toFinset, Std.ExtTreeMap.mem_keys, Finset.mem_image]
    constructor
    · intro hx
      obtain ⟨n, hn, rfl⟩ := hs.inFlight_of_mem hx
      exact ⟨n, Finset.mem_filter.2 ⟨Finset.mem_range.2 hn.1, hn⟩, rfl⟩
    · rintro ⟨n, hn, rfl⟩
      exact (Finset.mem_filter.1 hn).2.mem
  rw [← Std.ExtTreeMap.length_keys, ← List.toFinset_card_of_nodup Std.ExtTreeMap.nodup_keys, himage, in_flight]
  apply Finset.card_image_of_injOn
  intro n hn m hm he
  exact InFlight.inj (Finset.mem_filter.1 hn).2 (Finset.mem_filter.1 hm).2 he

/-! ## Conservation -/

/-- The steps that take packet `n` out of the map. -/
def Takes (n : Nat) (x : Shipment × AckCall) : Prop := x.1.InFlight n ∧ ¬ (x.1.call x.2).InFlight n

/-- A packet that is not in flight any more does not come back. -/
theorem Tracks.stays_out {c : AckCall} (hs : s.Tracks) (h : s.step c t) :
    t.sent.length ≤ n ∨ t.InFlight n ↔ (s.sent.length ≤ n ∨ s.InFlight n) ∧ ¬ Takes n (s, c) := by
  obtain ⟨ha, rfl⟩ := h
  unfold Takes
  cases c with
  | process_outgoing packet_type payload ordering_guarantee item_identifier now =>
    have hlen : (s.call (.process_outgoing packet_type payload ordering_guarantee item_identifier now)).sent.length =
        s.sent.length + 1 := by
      simp [Shipment.call]
    -- nothing in flight has the sequence of the new packet
    rw [hs.inFlight_process_outgoing, hlen]
    constructor
    · rintro (hn | hn | hn)
      · exact ⟨.inl (by omega), fun h => h.2 (.inr ⟨h.1, ha n h.1⟩)⟩
      · exact ⟨.inl hn.ge, fun h => h.2 (.inr ⟨h.1, ha n h.1⟩)⟩
      · exact ⟨.inr hn.1, fun h => h.2 (.inr hn)⟩
    · rintro ⟨hn | hn, -⟩
      · rcases hn.eq_or_lt with rfl | hn
        · exact .inr (.inl rfl)
        · exact .inl hn
      · exact .inr (.inr ⟨hn, ha n hn⟩)
  | process_incoming seq ack field now =>
    have hsub : (s.call (.process_incoming seq ack field now)).InFlight n → s.InFlight n := fun h =>
      ((inFlight_process_incoming s seq ack field now n).1 h).1
    have hbound : s.InFlight n → ¬ s.sent.length ≤ n := fun h => not_le.2 h.1
    change s.sent.length ≤ n ∨ _ ↔ _
    tauto
  | dropped_packets =>
    have hsub : (s.call .dropped_packets).InFlight n → s.InFlight n := fun h =>
      ((inFlight_dropped_packets s n).1 h).1
    have hbound : s.InFlight n → ¬ s.sent.length ≤ n := fun h => not_le.2 h.1
    change s.sent.length ≤ n ∨ _ ↔ _
    tauto

variable {steps : List (Shipment × AckCall)} {congestion : CongestionControl}

theorem tracks_of_run (h : Run step (start congestion) steps t) : t.Tracks :=
  h.invariant (tracks_start congestion) fun _ _ _ hs hstep => hs.step hstep

theorem tracks_of_mem (h : Run step (start congestion) steps t) {c : AckCall} (hm : (s, c) ∈ steps) : s.Tracks :=
  h.invariant_mem (tracks_start congestion) (fun _ _ _ hs hstep => hs.step hstep) hm

/-- A step that takes a packet is an acknowledgment that names it or a loss
report. -/
theorem taken_cases (h : Run step (start congestion) steps t) {i : Nat} {x : Shipment × AckCall}
    (hx : steps[i]? = some x) (ht : Takes n x) : Removed steps n i ∨ Returned steps n i := by
  obtain ⟨s, c⟩ := x
  cases c with
  | process_outgoing packet_type payload ordering_guarantee item_identifier now =>
    -- sending takes nothing out, and it is allowed at this step
    obtain ⟨_, hallow, -⟩ := h.step_of_mem (List.mem_of_getElem? hx)
    have hs := tracks_of_mem h (List.mem_of_getElem? hx)
    exact absurd ((hs.inFlight_process_outgoing ..).2 (.inr ⟨ht.1, hallow n ht.1⟩)) ht.2
  | process_incoming seq ack field now =>
    refine .inl ⟨s, seq, ack, field, now, hx, ?_, ht⟩
    by_contra hnames
    exact ht.2 ((inFlight_process_incoming s seq ack field now n).2 ⟨ht.1, hnames⟩)
  | dropped_packets => exact .inr ⟨s, hx, ht⟩

theorem Removed.takes {i : Nat} (h : Removed steps n i) : ∃ x, steps[i]? = some x ∧ Takes n x := by
  obtain ⟨s, seq, ack, field, now, hx, -, ht⟩ := h
  exact ⟨_, hx, ht⟩

theorem Returned.takes {i : Nat} (h : Returned steps n i) : ∃ x, steps[i]? = some x ∧ Takes n x := by
  obtain ⟨s, hx, ht⟩ := h
  exact ⟨_, hx, ht⟩

/-- One step is not both. -/
theorem Removed.not_returned {i : Nat} (h : Removed steps n i) : ¬ Returned steps n i := by
  rintro ⟨s', hx', -⟩
  obtain ⟨s, seq, ack, field, now, hx, -⟩ := h
  rw [hx] at hx'
  cases hx'

theorem conserved_of_run (h : Run step (start congestion) steps t) (hn : n < t.sent.length) :
    Conserved steps t n := by
  -- a packet is not sent yet or in flight until one step takes it
  have honce := Run.leaves_once (P := fun s => s.sent.length ≤ n ∨ s.InFlight n) (L := Takes n)
    (tracks_start congestion) (fun _ _ _ hs hstep => hs.step hstep) (.inl (Nat.zero_le n))
    (fun _ _ _ hs hstep => hs.stays_out hstep) (fun _ hx => .inr hx.1) h
  rcases honce with ⟨hin, hnone⟩ | ⟨hout, i, ⟨x, hx, ht⟩, huniq⟩
  · refine .inl ⟨hin.resolve_left (not_le.2 hn), fun i hr => ?_, fun i hr => ?_⟩
    · obtain ⟨x, hx, ht⟩ := hr.takes
      exact hnone x (List.mem_of_getElem? hx) ht
    · obtain ⟨x, hx, ht⟩ := hr.takes
      exact hnone x (List.mem_of_getElem? hx) ht
  · have hgone : ¬ t.InFlight n := fun hf => hout (.inr hf)
    rcases taken_cases h hx ht with hr | hr
    · refine .inr (.inl ⟨hgone, ⟨i, hr, fun j hj => huniq j hj.takes⟩, fun j hj => ?_⟩)
      rw [huniq j hj.takes] at hj
      exact hr.not_returned hj
    · refine .inr (.inr ⟨hgone, fun j hj => ?_, ⟨i, hr, fun j hj => huniq j hj.takes⟩⟩)
      rw [huniq j hj.takes] at hj
      exact hj.not_returned hr

/-- Every packet sent is in flight, or was removed by one acknowledgment that
names it, or was returned by one loss report. An acknowledgment removes the
packets in flight that it names, a loss report returns those it removes, and
the count is right as long as it fits. -/
theorem sent_packets_conserved (h : Run step (start congestion) steps t) :
    (∀ n < t.sent.length, Conserved steps t n) ∧
      (∀ s seq ack field now, (s, .process_incoming seq ack field now) ∈ steps →
        ∀ n, (s.call (.process_incoming seq ack field now)).InFlight n ↔
          s.InFlight n ∧ ¬ AcknowledgmentHandler.names ack field (label n) = true) ∧
      (∀ s, (s, .dropped_packets) ∈ steps → ∃ numbers : List Nat, numbers.Nodup ∧
        (∀ n, n ∈ numbers ↔ s.InFlight n ∧ ¬ (s.call .dropped_packets).InFlight n) ∧
        s.handler.dropped_packets.1.map some = numbers.map (s.sent[·]?)) ∧
      (t.in_flight < 65536 → t.handler.packets_in_flight.toNat = t.in_flight) := by
  refine ⟨fun n hn => conserved_of_run h hn, fun s seq ack field now _ => inFlight_process_incoming s seq ack field now,
    fun s hs => (tracks_of_mem h hs).dropped_packets_numbers, fun hfit => ?_⟩
  rw [AcknowledgmentHandler.packets_in_flight, (tracks_of_run h).size_eq, UInt16.toNat_ofNat']
  exact Nat.mod_eq_of_lt hfit

/-- Some packets have been sent. -/
def sent_upto : Nat → Shipment
  | 0 => start (.default 0)
  | n + 1 => (sent_upto n).call (.process_outgoing .Packet [.ofNat n] .None none 0)

theorem step_sent_upto {k : Nat} (hk : k < 3) :
    step (sent_upto k) (.process_outgoing .Packet [.ofNat k] .None none 0) (sent_upto (k + 1)) := by
  refine ⟨fun n hn => ?_, rfl⟩
  have hlt := hn.1
  interval_cases k
  · exact absurd hlt (Nat.not_lt_zero n)
  · obtain rfl : n = 0 := Nat.lt_one_iff.1 hlt
    decide +kernel
  · have hlt' : n < 2 := hlt
    interval_cases n <;> decide +kernel

/-- Of three packets an acknowledgment names the first and the last. -/
theorem sent_packets_conserved_three :
    ∃ steps t, Run step (start (.default 0)) steps t ∧ (∀ n < 3, Conserved steps t n) ∧
      ¬ t.InFlight 0 ∧ t.InFlight 1 ∧ ¬ t.InFlight 2 ∧ t.handler.packets_in_flight.toNat = 1 := by
  have hrun := Run.next (.next (.next (.next .start (step_sent_upto (by decide))) (step_sent_upto (by decide)))
    (step_sent_upto (by decide))) (show step (sent_upto 3) (.process_incoming 0 2 2 1) _ from ⟨trivial, rfl⟩)
  have hcount : ((sent_upto 3).call (.process_incoming 0 2 2 1)).in_flight = 1 := by decide +kernel
  obtain ⟨hconserved, -, -, hsize⟩ := sent_packets_conserved hrun
  refine ⟨_, _, hrun, hconserved, by decide +kernel, by decide +kernel, by decide +kernel, ?_⟩
  rw [hsize (by rw [hcount]; decide), hcount]

end

end Shipment

end Bitfold
