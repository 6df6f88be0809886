import Bitfold.Queue
/-!
# Receiving

What an incoming command does to the acknowledgment handler of a peer, and
when it makes the peer acknowledge. Three kinds of command feed the handler's
window of received sequences: reliable data, every single fragment of it, and
incoming acknowledgments.
-/

namespace Bitfold

/-! ## The window of received sequences -/

namespace SequenceBuffer

variable {T : Type} {capacity : Nat}

theorem get_set {α : Type} {n : Nat} (v : Vector α n) (i j : Fin n) (a : α) :
    (v.set i a).get j = if i = j then a else v.get j := by
  simp only [Fin.ext_iff]
  exact Vector.getElem_set i.2 j.2

theorem exists_at_iff (w : SequenceBuffer T capacity) (x : UInt16) :
    w.exists_at x = true ↔ w.entry_sequences.get (w.index x) = some x := by
  unfold exists_at
  split
  · rename_i s hs
    rw [hs, beq_iff_eq, Option.some_inj]
  · rename_i hs
    simp [hs]

variable [Inhabited T]

theorem exists_at_remove (w : SequenceBuffer T capacity) (s x : UInt16) :
    (w.remove s).2.exists_at x = true ↔ w.exists_at x = true ∧ x ≠ s := by
  unfold remove
  split
  · rename_i hs
    rw [exists_at_iff] at hs
    rw [exists_at_iff, exists_at_iff]
    change (w.entry_sequences.set (w.index s) none).get (w.index x) = some x ↔ _
    rw [get_set]
    split
    · -- the slot of `s` holds nothing but `s`
      rename_i hi
      rw [← hi, hs, Option.some_inj]
      constructor
      · intro h
        cases h
      · rintro ⟨rfl, hne⟩
        exact absurd rfl hne
    · rename_i hi
      constructor
      · intro h
        refine ⟨h, ?_⟩
        rintro rfl
        exact hi rfl
      · exact fun h => h.1
  · rename_i hs
    constructor
    · intro h
      refine ⟨h, ?_⟩
      rintro rfl
      exact hs h
    · exact fun h => h.1

theorem exists_at_removes (w : SequenceBuffer T capacity) (l : List Nat) (x : UInt16) :
    (l.foldl (fun w s => (w.remove (.ofNat s)).2) w).exists_at x = true ↔
      w.exists_at x = true ∧ ∀ s ∈ l, x ≠ .ofNat s := by
  induction l generalizing w with
  | nil => simp
  | cons s l ih =>
    rw [List.foldl_cons, ih, exists_at_remove, List.forall_mem_cons, and_assoc]

/-- The sequences from one on, up to `k` later. -/
theorem forall_range_ne_iff (start x : UInt16) {k : Nat} (hk : k < 65536) :
    (∀ s ∈ List.range' start.toNat (k + 1), x ≠ .ofNat s) ↔ k < (x - start).toNat := by
  have hx := x.toNat_lt
  have hstart := start.toNat_lt
  simp only [ne_eq, ← UInt16.toNat_inj, UInt16.toNat_ofNat', UInt16.toNat_sub, List.mem_range'_1]
  constructor
  · intro h
    by_contra hle
    refine h (start.toNat + (2 ^ 16 - start.toNat + x.toNat) % 2 ^ 16) ⟨?_, ?_⟩ ?_ <;> omega
  · rintro h s ⟨hs, hs'⟩ he
    omega

theorem exists_at_remove_entries (w : SequenceBuffer T capacity) (s x : UInt16) :
    (w.remove_entries s.toNat).exists_at x = true ↔
      w.exists_at x = true ∧ (s - w.sequence_num).toNat < capacity ∧
        (s - w.sequence_num).toNat < (x - w.sequence_num).toNat := by
  have hs := s.toNat_lt
  have hw := w.sequence_num.toNat_lt
  have hdist : (if s.toNat < w.sequence_num.toNat then s.toNat + 65536 else s.toNat) =
      w.sequence_num.toNat + (s - w.sequence_num).toNat := by
    rw [UInt16.toNat_sub]
    split <;> omega
  unfold remove_entries
  dsimp only
  rw [hdist, Nat.add_sub_cancel_left]
  split
  · rename_i hlt
    rw [exists_at_removes, Nat.add_assoc, Nat.add_sub_cancel_left, forall_range_ne_iff _ _ (UInt16.toNat_lt _)]
    simp [hlt]
  · rename_i hge
    simp only [hge, false_and, and_false, iff_false]
    rw [exists_at_iff]
    change ¬ (Vector.replicate capacity none).get (w.index x) = some x
    simp [Vector.get]

/-- What the buffer holds once it has moved on to `s`. -/
theorem exists_at_advance (w : SequenceBuffer T capacity) {s : UInt16}
    (hs : sequence_greater_than (s + 1) w.sequence_num = true) (x : UInt16) :
    (w.advance_sequence s).exists_at x = true ↔
      w.exists_at x = true ∧ (s - w.sequence_num).toNat < capacity ∧
        (s - w.sequence_num).toNat < (x - w.sequence_num).toNat := by
  unfold advance_sequence
  rw [if_pos hs]
  exact exists_at_remove_entries w s x

theorem exists_at_insert {w : SequenceBuffer T capacity} {s : UInt16} (hs : w.too_old s = false) (e : T) (x : UInt16) :
    (w.insert s e).exists_at x = true ↔
      if w.index s = w.index x then x = s else (w.advance_sequence s).exists_at x = true := by
  unfold insert
  rw [if_neg (by simp [hs])]
  rw [exists_at_iff]
  change ((w.advance_sequence s).entry_sequences.set ((w.advance_sequence s).index s) (some s)).get
      ((w.advance_sequence s).index x) = some x ↔ _
  rw [get_set]
  change (if w.index s = w.index x then some s else _) = some x ↔ _
  split
  · rw [Option.some_inj, eq_comm]
  · rw [exists_at_iff]

theorem exists_at_of_advance {w : SequenceBuffer T capacity} {s x : UInt16}
    (h : (w.advance_sequence s).exists_at x = true) : w.exists_at x = true := by
  by_cases hs : sequence_greater_than (s + 1) w.sequence_num = true
  · exact ((exists_at_advance w hs x).1 h).1
  · unfold advance_sequence at h
    rwa [if_neg hs] at h

/-- After an insertion the buffer holds what it held and the new sequence. -/
theorem exists_at_of_insert {w : SequenceBuffer T capacity} {s x : UInt16} {e : T}
    (h : (w.insert s e).exists_at x = true) : w.exists_at x = true ∨ x = s := by
  by_cases hs : w.too_old s = true
  · unfold insert at h
    rw [if_pos hs] at h
    exact .inl h
  · rw [exists_at_insert (by simpa using hs)] at h
    split at h
    · exact .inr h
    · exact .inl (exists_at_of_advance h)

/-- The buffer's next sequence once `s` has arrived. -/
def next_after (w : SequenceBuffer T capacity) (s : UInt16) : UInt16 :=
  if !w.too_old s && sequence_greater_than (s + 1) w.sequence_num then s + 1 else w.sequence_num

theorem insert_sequence_num (w : SequenceBuffer T capacity) (s : UInt16) (e : T) :
    (w.insert s e).sequence_num = w.next_after s := by
  unfold insert next_after
  split
  · rename_i h
    simp [h]
  · rename_i h
    unfold advance_sequence
    dsimp only
    by_cases hg : sequence_greater_than (s + 1) w.sequence_num = true <;> simp [h, hg]

end SequenceBuffer

/-! ## The acknowledgment handler -/

namespace AcknowledgmentHandler

/-- What forgetting acknowledged packets preserves, `process_incoming` does. -/
theorem process_incoming_invariant {I : AcknowledgmentHandler → Prop} {now : Instant}
    (hI : ∀ h s, I h → I (h.acknowledge_sent s now)) (h : AcknowledgmentHandler) (seq ack : UInt16) (field : UInt32)
    (h0 : ∀ r, I { h with remote_ack_sequence_num := r, received_packets := h.received_packets.insert seq {} }) :
    I (h.process_incoming seq ack field now) := by
  have key : ∀ (l : List Nat) (acc : AcknowledgmentHandler × UInt32), I acc.1 →
      I (l.foldl (fun (acc : AcknowledgmentHandler × UInt32) i =>
        ((if acc.2 &&& 1 == 1 then acc.1.acknowledge_sent (ack - .ofNat i) now else acc.1), acc.2 >>> 1)) acc).1 := by
    intro l
    induction l with
    | nil => exact fun _ h => h
    | cons i l ih =>
      intro acc hacc
      apply ih _
      dsimp only
      split
      · exact hI _ _ hacc
      · exact hacc
  refine key _ (_, field) (hI _ _ ?_)
  split
  · exact h0 _
  · exact h0 h.remote_ack_sequence_num

theorem acknowledge_sent_received (h : AcknowledgmentHandler) (s : UInt16) (now : Instant) :
    (h.acknowledge_sent s now).received_packets = h.received_packets := by
  unfold acknowledge_sent
  split <;> rfl

theorem process_incoming_received (h : AcknowledgmentHandler) (seq ack : UInt16) (field : UInt32) (now : Instant) :
    (h.process_incoming seq ack field now).received_packets = h.received_packets.insert seq {} :=
  process_incoming_invariant (I := fun h' => h'.received_packets = h.received_packets.insert seq {})
    (fun h' s hi => (acknowledge_sent_received h' s now).trans hi) h seq ack field fun _ => rfl

/-- With nothing in flight there is nothing to forget. -/
theorem process_incoming_sent_empty {h : AcknowledgmentHandler} (he : h.sent_packets = ∅) (seq ack : UInt16)
    (field : UInt32) (now : Instant) : (h.process_incoming seq ack field now).sent_packets = ∅ := by
  refine process_incoming_invariant (I := fun h' => h'.sent_packets = ∅) (fun h' s hi => ?_) h seq ack field
    fun _ => he
  unfold acknowledge_sent
  split
  · rename_i hs
    simp [hi] at hs
  · exact hi

/-- The sequence an incoming command feeds to the window. -/
def feeds : ProtocolCommand → Option UInt16
  | .Acknowledge s _ _ | .SendReliable _ s _ _ | .SendFragment _ s _ _ _ _ => some s
  | _ => none

/-- What an incoming command does to the handler. -/
def hear (self : AcknowledgmentHandler) (command : ProtocolCommand) (time : Instant) : AcknowledgmentHandler :=
  match command with
  | .Acknowledge s field _ => self.process_incoming s s field time
  | .SendReliable _ s _ _ => self.process_incoming s s 0 time
  | .SendFragment _ s _ _ _ _ => self.process_incoming s s 0 time
  | .ThrottleConfigure interval acceleration deceleration =>
    { self with congestion := self.congestion.configure_throttle interval acceleration deceleration }
  | _ => self

theorem hear_received (h : AcknowledgmentHandler) (c : ProtocolCommand) (t : Instant) :
    (h.hear c t).received_packets =
      match feeds c with
      | some s => h.received_packets.insert s {}
      | none => h.received_packets := by
  cases c <;> first | rfl | exact process_incoming_received ..

theorem hear_sent_empty {h : AcknowledgmentHandler} (he : h.sent_packets = ∅) (c : ProtocolCommand) (t : Instant) :
    (h.hear c t).sent_packets = ∅ := by
  cases c <;> first | exact he | exact process_incoming_sent_empty he ..

/-- Bit `j` of the acknowledgment bitfield speaks of the sequence `j + 1`
before the newest one. -/
theorem ack_bitfield_testBit (h : AcknowledgmentHandler) (j : Nat) :
    h.ack_bitfield.toNat.testBit j =
      (decide (j < 32) && h.received_packets.exists_at (h.remote_sequence_num - .ofNat (j + 1))) := by
  -- after k rounds the low k bits are right and the mask is at bit k
  have key : ∀ k, k ≤ 32 → ∃ bits : UInt32, ((List.range' 1 k).foldl
      (fun (acc : UInt32 × UInt32) i =>
        ((if h.received_packets.exists_at (h.remote_sequence_num - .ofNat i) then acc.1 ||| acc.2 else acc.1),
          acc.2 <<< 1)) (0, 1)) = (bits, .ofNat (2 ^ k)) ∧
      ∀ j, bits.toNat.testBit j =
        (decide (j < k) && h.received_packets.exists_at (h.remote_sequence_num - .ofNat (j + 1))) := by
    intro k
    induction k with
    | zero => exact fun _ => ⟨0, rfl, by simp⟩
    | succ k ih =>
      intro hk
      obtain ⟨bits, hf, hb⟩ := ih (by omega)
      have hshift : (UInt32.ofNat (2 ^ k)) <<< 1 = .ofNat (2 ^ (k + 1)) := by
        apply UInt32.toNat_inj.1
        simp [Nat.shiftLeft_eq, Nat.pow_succ, Nat.mod_mul_mod]
      have hmask : (UInt32.ofNat (2 ^ k)).toNat = 2 ^ k := by
        rw [UInt32.toNat_ofNat']
        exact Nat.mod_eq_of_lt (Nat.pow_lt_pow_right (by decide) (by omega))
      rw [List.range'_concat, List.foldl_append, hf]
      refine ⟨_, by rw [List.foldl_cons, List.foldl_nil, hshift], fun j => ?_⟩
      rw [Nat.one_mul, Nat.add_comm 1 k]
      dsimp only
      rcases Nat.lt_trichotomy j k with hj | rfl | hj
      · have hne : k ≠ j := by omega
        split <;> simp [hb, hmask, Nat.testBit_two_pow_of_ne hne, hj, Nat.lt_succ_of_lt hj]
      · split
        · rename_i he
          rw [he]
          simp [hmask]
        · rename_i he
          rw [Bool.not_eq_true] at he
          rw [hb, he, Bool.and_false, Bool.and_false]
      · have hne : k ≠ j := by omega
        split <;> simp [hb, hmask, Nat.testBit_two_pow_of_ne hne, Nat.not_lt.2 hj.le, Nat.not_lt.2 hj]
  obtain ⟨bits, hf, hb⟩ := key 32 le_rfl
  have he : h.ack_bitfield = bits := congrArg Prod.fst hf
  rw [he, hb]

end AcknowledgmentHandler

/-! ## Commands come in -/

namespace Peer

variable {p p' : Peer} {c : ProtocolCommand} {t : Instant} {draw : UInt16} {r : Processed}

@[simp] theorem enqueue_command_handler (p : Peer) (c : ProtocolCommand) :
    (p.enqueue_command c).2.acknowledge_handler = p.acknowledge_handler := by
  obtain ⟨n, q, he⟩ := enqueue_command_writes p c
  rw [he]

@[simp] theorem enqueue_command_last_heard (p : Peer) (c : ProtocolCommand) :
    (p.enqueue_command c).2.last_heard = p.last_heard := by
  obtain ⟨n, q, he⟩ := enqueue_command_writes p c
  rw [he]

theorem process_send_reliable_writes (p : Peer) (ch : UInt8) (s : UInt16) (o : Bool) (d : SharedBytes) (t : Instant) :
    ∃ cs, (p.process_send_reliable ch s o d t).1 =
      { (p.process_acknowledge s 0 t).enqueue_ack_command none with channel_states := cs } := by
  unfold process_send_reliable
  cases o with
  | true => exact ⟨_, rfl⟩
  | false => exact ⟨_, rfl⟩

/-- A fragment is buffered, or completes its group and is acknowledged. -/
theorem process_send_fragment_cases (p : Peer) (ch : UInt8) (s : UInt16) (o : Bool) (i n : UInt8) (d : SharedBytes)
    (t : Instant) :
    ((p.fragment_buffer ch s o i n d t).reassemble = none ∧
      ∃ fs, (p.process_send_fragment ch s o i n d t).1 =
        { p.process_acknowledge s 0 t with command_fragments := fs }) ∨
    ((∃ data, (p.fragment_buffer ch s o i n d t).reassemble = some data) ∧
      ∃ fs cs, (p.process_send_fragment ch s o i n d t).1 =
        { ({ p.process_acknowledge s 0 t with command_fragments := fs }.enqueue_ack_command none) with
          channel_states := cs }) := by
  unfold process_send_fragment add_fragment
  dsimp only
  rw [show (p.process_acknowledge s 0 t).fragment_buffer ch s o i n d t = p.fragment_buffer ch s o i n d t from rfl]
  cases hr : (p.fragment_buffer ch s o i n d t).reassemble with
  | none =>
    -- a complete buffer that does not reassemble is dropped without an acknowledgment
    refine .inl ⟨rfl, ?_⟩
    by_cases hc : (p.fragment_buffer ch s o i n d t).is_complete = true
    · rw [if_pos hc]
      dsimp only
      rw [hr]
      exact ⟨_, rfl⟩
    · rw [if_neg hc]
      exact ⟨_, rfl⟩
  | some data =>
    refine .inr ⟨⟨data, rfl⟩, ?_⟩
    have hc : (p.fragment_buffer ch s o i n d t).is_complete = true := by
      by_contra hc
      simp [CommandFragmentBuffer.reassemble, hc] at hr
    rw [if_pos hc]
    dsimp only
    rw [hr]
    dsimp only
    split <;> exact ⟨_, _, rfl⟩

theorem process_send_unreliable_sequenced_writes (p : Peer) (ch : UInt8) (s : UInt16) (d : SharedBytes) :
    ∃ cs, (p.process_send_unreliable_sequenced ch s d).1 = { p with channel_states := cs } := by
  simp only [process_send_unreliable_sequenced]
  split <;> exact ⟨_, rfl⟩

theorem process_send_unsequenced_writes (p : Peer) (ch : UInt8) (g : UInt16) (d : SharedBytes) :
    ∃ u, (p.process_send_unsequenced ch g d).1 = { p with unsequenced_state := u } := by
  unfold process_send_unsequenced
  split <;> exact ⟨_, rfl⟩

theorem process_send_unreliable_fragment_writes (p : Peer) (ch : UInt8) (s : UInt16) (i n : UInt8) (d : SharedBytes)
    (t : Instant) : ∃ fs, (p.process_send_unreliable_fragment ch s i n d t).1 = { p with command_fragments := fs } := by
  unfold process_send_unreliable_fragment add_fragment
  dsimp only
  split
  · rename_i he
    split at he
    · cases he
    · cases he
      exact ⟨_, rfl⟩
  · rename_i he
    split at he
    · cases he
      split <;> exact ⟨_, rfl⟩
    · cases he

theorem process_connect_writes (p : Peer) (chs : UInt8) (sid : UInt16) (cid : UInt32) (draw : UInt16) :
    p.process_connect chs sid cid draw = p ∨
      ∃ i n st v, p.process_connect chs sid cid draw =
        { p with incoming_session_id := sid, peer_id := i, connect_id := n, state := st }.push_command v ∧
        ∀ s m st, v ≠ .Acknowledge s m st := by
  unfold process_connect
  split
  · exact .inr ⟨_, _, _, _, rfl, fun _ _ _ h => by cases h⟩
  · exact .inl rfl

/-- Does the command make the peer acknowledge? Reliable data does, and the
fragment that completes its group. -/
def Acknowledges (p : Peer) (t : Instant) : ProtocolCommand → Prop
  | .SendReliable .. => True
  | .SendFragment ch s o i n d => ∃ data, (p.fragment_buffer ch s o i n d t).reassemble = some data
  | _ => False

theorem mem_enqueue_command {x : ProtocolCommand} (h : x ∈ (p.enqueue_command c).2.commands) :
    x ∈ p.commands ∨ x = c := by
  rcases enqueue_command_queues p c with hq | he
  · rw [hq.commands, List.mem_append, List.mem_singleton] at h
    exact h
  · rw [he] at h
    exact .inl h

/-- From `p` to `p'` the handler became `h`, and a new acknowledgment in the
queue is what `h` says and needs `A`. -/
structure Hears (p p' : Peer) (h : AcknowledgmentHandler) (A : Prop) : Prop where
  handler : p'.acknowledge_handler = h
  acks : ∀ s m st, .Acknowledge s m st ∈ p'.commands →
    .Acknowledge s m st ∈ p.commands ∨ (A ∧ s = h.remote_sequence_num ∧ m = h.ack_bitfield)

theorem hears_of_eq {A : Prop} (hq : p'.commands = p.commands) : Hears p p' p'.acknowledge_handler A :=
  ⟨rfl, fun _ _ _ hm => .inl (hq ▸ hm)⟩

/-- Queueing a command that is no acknowledgment. -/
theorem hears_enqueue_command {A : Prop} (hc : ∀ s m st, c ≠ .Acknowledge s m st) :
    Hears p (p.enqueue_command c).2 p.acknowledge_handler A :=
  ⟨enqueue_command_handler p c, fun _ _ _ hm => (mem_enqueue_command hm).imp_right fun he => absurd he.symm (hc _ _ _)⟩

theorem hears_enqueue_ack_command {A : Prop} (hA : A) :
    Hears p (p.enqueue_ack_command none) p.acknowledge_handler A := by
  refine ⟨enqueue_command_handler p _, fun s m st hm => (mem_enqueue_command hm).imp_right fun he => ?_⟩
  cases he
  exact ⟨hA, rfl, rfl⟩

/-- All a command does to the handler, and to the acknowledgments in the
queue. -/
theorem process_command_hears (h : p.process_command c t draw = .ok (p', r)) :
    Hears p p' (p.acknowledge_handler.hear c t) (p.Acknowledges t c) := by
  unfold process_command at h
  cases c with
  | VerifyConnect pid chs m isid osid w =>
    obtain ⟨i, s, f, st, rfl⟩ := process_verify_connect_writes h
    exact hears_of_eq rfl
  | SendReliable ch s o d =>
    simp only [Except.ok.injEq, Prod.mk.injEq] at h
    obtain ⟨rfl, -⟩ := h
    obtain ⟨cs, he⟩ := process_send_reliable_writes (p.heard t) ch s o d t
    rw [he]
    obtain ⟨hh, ha⟩ := hears_enqueue_ack_command (p := (p.heard t).process_acknowledge s 0 t) trivial
    exact ⟨hh, ha⟩
  | SendFragment ch s o i n d =>
    simp only [Except.ok.injEq, Prod.mk.injEq] at h
    obtain ⟨rfl, -⟩ := h
    rcases process_send_fragment_cases (p.heard t) ch s o i n d t with ⟨-, fs, he⟩ | ⟨hr, fs, cs, he⟩
    · rw [he]
      exact hears_of_eq rfl
    · rw [he]
      obtain ⟨hh, ha⟩ := hears_enqueue_ack_command
        (p := { (p.heard t).process_acknowledge s 0 t with command_fragments := fs }) hr
      exact ⟨hh, ha⟩
  | SendUnreliableSequenced ch s d =>
    simp only [Except.ok.injEq, Prod.mk.injEq] at h
    obtain ⟨rfl, -⟩ := h
    obtain ⟨cs, he⟩ := process_send_unreliable_sequenced_writes (p.heard t) ch s d
    rw [he]
    exact hears_of_eq rfl
  | SendUnsequenced ch g d =>
    simp only [Except.ok.injEq, Prod.mk.injEq] at h
    obtain ⟨rfl, -⟩ := h
    obtain ⟨u, he⟩ := process_send_unsequenced_writes (p.heard t) ch g d
    rw [he]
    exact hears_of_eq rfl
  | SendUnreliableFragment ch s i n d =>
    simp only [Except.ok.injEq, Prod.mk.injEq] at h
    obtain ⟨rfl, -⟩ := h
    obtain ⟨fs, he⟩ := process_send_unreliable_fragment_writes (p.heard t) ch s i n d t
    rw [he]
    exact hears_of_eq rfl
  | Connect chs m v sid cid =>
    simp only [Except.ok.injEq, Prod.mk.injEq] at h
    obtain ⟨rfl, -⟩ := h
    rcases process_connect_writes (p.heard t) chs sid cid draw with he | ⟨i, n, st, v, he, hv⟩
    · rw [he]
      exact hears_of_eq rfl
    · rw [he]
      refine ⟨rfl, fun s m st hm => .inl ?_⟩
      rcases List.mem_append.1 hm with hm | hm
      · exact hm
      · exact absurd (List.mem_singleton.1 hm).symm (hv _ _ _)
  | Ping ts =>
    simp only [Except.ok.injEq, Prod.mk.injEq] at h
    obtain ⟨rfl, -⟩ := h
    obtain ⟨hh, ha⟩ := hears_enqueue_command (p := p.heard t) (c := .Pong ts)
      (A := p.Acknowledges t (.Ping ts)) (fun _ _ _ he => by cases he)
    exact ⟨hh, ha⟩
  | PMTUProbe size token d =>
    simp only [Except.ok.injEq, Prod.mk.injEq] at h
    obtain ⟨rfl, -⟩ := h
    obtain ⟨hh, ha⟩ := hears_enqueue_command (p := p.heard t) (c := .PMTUReply size token)
      (A := p.Acknowledges t (.PMTUProbe size token d)) (fun _ _ _ he => by cases he)
    exact ⟨hh, ha⟩
  | _ =>
    simp only [Except.ok.injEq, Prod.mk.injEq] at h
    obtain ⟨rfl, -⟩ := h
    exact hears_of_eq rfl

/-! ## Traffic -/

/-- Does the command carry data, or is it or does it want an answer? The other
commands are about the connection, its limits or its path. -/
def is_traffic : ProtocolCommand → Bool
  | .SendReliable .. | .SendUnreliable .. | .SendUnreliableSequenced .. | .SendUnsequenced .. | .SendFragment ..
  | .SendUnreliableFragment .. | .Acknowledge .. | .Ping .. | .Pong .. | .PMTUProbe .. => true
  | _ => false

/-- The commands that answer another one at once. -/
def is_answer : ProtocolCommand → Bool
  | .Acknowledge _ _ none | .Pong .. | .PMTUReply .. => true
  | _ => false

theorem process_command_reliable (p : Peer) (ch : UInt8) (s : UInt16) (o : Bool) (d : SharedBytes) (t : Instant)
    (draw : UInt16) : p.process_command (.SendReliable ch s o d) t draw =
      .ok (((p.heard t).process_send_reliable ch s o d t).1, .ok ((p.heard t).process_send_reliable ch s o d t).2) :=
  rfl

theorem process_command_fragment (p : Peer) (ch : UInt8) (s : UInt16) (o : Bool) (i n : UInt8) (d : SharedBytes)
    (t : Instant) (draw : UInt16) : p.process_command (.SendFragment ch s o i n d) t draw =
      .ok (((p.heard t).process_send_fragment ch s o i n d t).1,
        .ok ((p.heard t).process_send_fragment ch s o i n d t).2) :=
  rfl

theorem process_command_unreliable_fragment (p : Peer) (ch : UInt8) (s : UInt16) (i n : UInt8) (d : SharedBytes)
    (t : Instant) (draw : UInt16) : p.process_command (.SendUnreliableFragment ch s i n d) t draw =
      .ok (((p.heard t).process_send_unreliable_fragment ch s i n d t).1,
        .ok ((p.heard t).process_send_unreliable_fragment ch s i n d t).2) :=
  rfl

theorem process_command_unsequenced (p : Peer) (ch : UInt8) (g : UInt16) (d : SharedBytes) (t : Instant)
    (draw : UInt16) : p.process_command (.SendUnsequenced ch g d) t draw =
      .ok (((p.heard t).process_send_unsequenced ch g d).1, .ok ((p.heard t).process_send_unsequenced ch g d).2) :=
  rfl

theorem process_command_unreliable_sequenced (p : Peer) (ch : UInt8) (s : UInt16) (d : SharedBytes) (t : Instant)
    (draw : UInt16) : p.process_command (.SendUnreliableSequenced ch s d) t draw =
      .ok (((p.heard t).process_send_unreliable_sequenced ch s d).1,
        .ok ((p.heard t).process_send_unreliable_sequenced ch s d).2) :=
  rfl

theorem process_command_connect (p : Peer) (chs : UInt8) (m v sid : UInt16) (cid : UInt32) (t : Instant)
    (draw : UInt16) : p.process_command (.Connect chs m v sid cid) t draw =
      .ok ((p.heard t).process_connect chs sid cid draw, .ok .zero) :=
  rfl

/-- All that traffic writes, and what it may queue. -/
structure Handles (p q : Peer) : Prop where
  writes : ∃ t u h n cq fs cs, q = { p with
    last_heard := t, unsequenced_state := u, acknowledge_handler := h, total_waiting_data := n, command_queue := cq,
    command_fragments := fs, channel_states := cs }
  queued : ∀ x ∈ q.commands, x ∈ p.commands ∨ is_answer x = true

theorem Handles.answer {q : Peer} (h : Handles p q) {c : ProtocolCommand} (hc : is_answer c = true) :
    Handles p (q.enqueue_command c).2 := by
  obtain ⟨n, cq, he⟩ := enqueue_command_writes q c
  obtain ⟨t, u, hd, _, _, fs, cs, hq⟩ := h.writes
  refine ⟨⟨t, u, hd, n, cq, fs, cs, by rw [he, hq]⟩, fun x hx => ?_⟩
  rcases mem_enqueue_command hx with hx | rfl
  · exact h.queued x hx
  · exact .inr hc

/-- Traffic never fails, is heard, and leaves the rest of the peer alone. -/
theorem process_command_traffic (hc : is_traffic c = true) (p : Peer) (t : Instant) (draw : UInt16) :
    ∃ q packets, p.process_command c t draw = .ok (q, .ok packets) ∧ Handles p q ∧ q.last_heard = t := by
  have hheard : Handles p (p.heard t) := ⟨⟨_, _, _, _, _, _, _, rfl⟩, fun _ hx => .inl hx⟩
  have hputs : ∀ {q : Peer} (h : Handles p q) (cs : Std.ExtTreeMap UInt8 ChannelState),
      Handles p { q with channel_states := cs } := by
    intro q h cs
    obtain ⟨t, u, hd, n, cq, fs, _, hq⟩ := h.writes
    exact ⟨⟨t, u, hd, n, cq, fs, cs, by rw [hq]⟩, h.queued⟩
  cases c with
  | SendReliable ch s o d =>
    refine ⟨_, _, process_command_reliable .., ?_⟩
    obtain ⟨cs, he⟩ := process_send_reliable_writes (p.heard t) ch s o d t
    have hacked : Handles p ((p.heard t).process_acknowledge s 0 t) :=
      ⟨⟨_, _, _, _, _, _, _, rfl⟩, fun _ hx => .inl hx⟩
    rw [he]
    exact ⟨hputs (hacked.answer rfl) cs, enqueue_command_last_heard ..⟩
  | SendFragment ch s o i n d =>
    refine ⟨_, _, process_command_fragment .., ?_⟩
    have hacked : ∀ fs, Handles p { (p.heard t).process_acknowledge s 0 t with command_fragments := fs } :=
      fun fs => ⟨⟨_, _, _, _, _, _, _, rfl⟩, fun _ hx => .inl hx⟩
    rcases process_send_fragment_cases (p.heard t) ch s o i n d t with ⟨-, fs, he⟩ | ⟨-, fs, cs, he⟩
    · rw [he]
      exact ⟨hacked fs, rfl⟩
    · rw [he]
      exact ⟨hputs ((hacked fs).answer rfl) cs, enqueue_command_last_heard ..⟩
  | SendUnreliableSequenced ch s d =>
    refine ⟨_, _, process_command_unreliable_sequenced .., ?_⟩
    obtain ⟨cs, he⟩ := process_send_unreliable_sequenced_writes (p.heard t) ch s d
    rw [he]
    exact ⟨hputs hheard cs, rfl⟩
  | SendUnsequenced ch g d =>
    refine ⟨_, _, process_command_unsequenced .., ?_⟩
    obtain ⟨u, he⟩ := process_send_unsequenced_writes (p.heard t) ch g d
    rw [he]
    exact ⟨⟨⟨_, _, _, _, _, _, _, rfl⟩, fun _ hx => .inl hx⟩, rfl⟩
  | SendUnreliableFragment ch s i n d =>
    refine ⟨_, _, process_command_unreliable_fragment .., ?_⟩
    obtain ⟨fs, he⟩ := process_send_unreliable_fragment_writes (p.heard t) ch s i n d t
    rw [he]
    exact ⟨⟨⟨_, _, _, _, _, _, _, rfl⟩, fun _ hx => .inl hx⟩, rfl⟩
  | Ping ts => exact ⟨_, _, rfl, hheard.answer rfl, enqueue_command_last_heard ..⟩
  | PMTUProbe size token d => exact ⟨_, _, rfl, hheard.answer rfl, enqueue_command_last_heard ..⟩
  | Acknowledge s m st => exact ⟨_, _, rfl, ⟨⟨_, _, _, _, _, _, _, rfl⟩, fun _ hx => .inl hx⟩, rfl⟩
  | SendUnreliable ch d => exact ⟨_, _, rfl, hheard, rfl⟩
  | Pong ts => exact ⟨_, _, rfl, hheard, rfl⟩
  | _ => cases hc

theorem handles_of_traffic (hc : is_traffic c = true) (h : p.process_command c t draw = .ok (p', r)) :
    Handles p p' ∧ p'.last_heard = t := by
  obtain ⟨q, packets, hq, hh⟩ := process_command_traffic hc p t draw
  rw [h] at hq
  obtain rfl : p' = q := (Prod.mk.inj (Except.ok.inj hq)).1
  exact hh

end Peer

end Bitfold
