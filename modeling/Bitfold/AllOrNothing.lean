import Bitfold.Messages
/-!
# All or nothing

Every fragment of a message passes the admission check by itself, and a refusal
is not noticed. With little room left the first fragments of a message are
queued and the others are not, or only the last one is, which is the smallest;
the receiver can make nothing of them. The message is queued as a whole exactly
if all of it fits, or not even that last fragment. A message of more fragments
than are allowed is cut down to one fragment, which is a group of its own.
-/

namespace Bitfold

open Lib

namespace Peer

variable {p q : Peer} {mode : Mode} {ch : UInt8} {data : Bytes} {c : ProtocolCommand} {cmds : List ProtocolCommand}

/-! ## Admission one by one -/

/-- Nothing is queued exactly if each command is refused. -/
theorem requeue_commands_eq_iff :
    (p.requeue cmds).commands = p.commands ↔ ∀ c ∈ cmds, ¬ p.Admits (command_data_size c) := by
  constructor
  · intro h
    induction cmds with
    | nil => simp
    | cons c cmds ih =>
      by_cases ha : p.Admits (command_data_size c)
      · -- what is admitted stays in the queue
        exfalso
        rw [requeue, List.foldl_cons, enqueue_command_of_admits ha] at h
        obtain ⟨kept, -, hq⟩ := requeue_queues (p.queued [c]) cmds
        have hlen := congrArg List.length (hq.commands.symm.trans h)
        rw [List.length_append, show (p.queued [c]).commands = p.commands ++ [c] from rfl, List.length_append,
          List.length_singleton] at hlen
        omega
      · rw [requeue, List.foldl_cons, enqueue_command_of_refused ha] at h
        intro c' hc'
        rcases List.mem_cons.1 hc' with rfl | hc'
        · exact ha
        · exact ih h c' hc'
  · intro h
    rw [requeue_of_refused h]

/-- All is queued exactly if there is room for all, or nothing to be queued that
counts. -/
theorem requeue_commands_append_iff (hpos : 0 < waiting cmds) :
    (p.requeue cmds).commands = p.commands ++ cmds ↔ p.Admits (waiting cmds) := by
  constructor
  · intro h
    obtain ⟨kept, -, hq⟩ := requeue_queues p cmds
    have hkept : kept = cmds := List.append_cancel_left (hq.commands.symm.trans h)
    subst hkept
    have hadmitted := hq.admitted
    rw [hq.total] at hadmitted
    unfold Admits
    omega
  · intro h
    rw [requeue_of_admits h]
    rfl

/-- At most one command is queued or refused. -/
theorem requeue_singleton (p : Peer) (c : ProtocolCommand) :
    (p.requeue [c]).commands = p.commands ++ [c] ∨ p.requeue [c] = p := by
  change (p.enqueue_command c).2.commands = _ ∨ (p.enqueue_command c).2 = p
  by_cases ha : p.Admits (command_data_size c)
  · rw [enqueue_command_of_admits ha]
    exact .inl rfl
  · exact .inr (enqueue_command_of_refused ha)

/-! ## Messages -/

/-- The data of the last fragment, which may be smaller than the others. -/
def last_fragment_len (p : Peer) (mode : Mode) (data : Bytes) : Nat :=
  data.length - (p.total_fragments mode data - 1) * p.fragment_payload mode

/-- All commands of the message are put behind the queue in their order, or the
queue and its counter stay as they are. -/
def AllOrNothing (p : Peer) (mode : Mode) (ch : UInt8) (data : Bytes) : Prop :=
  ∃ q, mode.enqueue p ch data = .ok (mode.sequence p, q) ∧
    (q.commands = p.commands ++ p.message_commands mode ch data ∨
      q.commands = p.commands ∧ q.total_waiting_data = p.total_waiting_data)

/-- A message that splits has room as a whole, or no room for its last fragment. -/
def Undivided (p : Peer) (mode : Mode) (data : Bytes) : Prop :=
  p.Splits mode data → p.Admits data.length ∨ ¬ p.Admits (p.last_fragment_len mode data)

theorem Splits.length_pos (h : p.Splits mode data) : 0 < data.length := Nat.lt_of_le_of_lt (Nat.zero_le _) h.long

/-- The sizes of the fragments: all are full but the last. -/
theorem Splits.fragment_sizes (h : p.Splits mode data) (ch : UInt8) :
    (p.message_commands mode ch data).map command_data_size = (List.range (p.total_fragments mode data)).map fun i =>
      min (p.fragment_payload mode) (data.length - i * p.fragment_payload mode) := by
  rw [h.message_commands ch, List.map_map]
  apply List.map_congr_left
  intro i hi
  rw [Function.comp_apply, command_data_size_fragment, SharedBytes.as_slice_length,
    fragment_data_len h.payload h.length_pos (List.mem_range.1 hi)]

/-- The last fragment is the smallest. -/
theorem Splits.last_fragment (h : p.Splits mode data) (ch : UInt8) :
    (∃ c ∈ p.message_commands mode ch data, command_data_size c = p.last_fragment_len mode data) ∧
      ∀ c ∈ p.message_commands mode ch data, p.last_fragment_len mode data ≤ command_data_size c := by
  obtain ⟨hlast, hfull, hpos⟩ : (p.total_fragments mode data - 1) * p.fragment_payload mode < data.length ∧
      data.length ≤ p.total_fragments mode data * p.fragment_payload mode ∧ 0 < p.total_fragments mode data :=
    div_ceil_bounds h.payload h.length_pos
  have hle : p.last_fragment_len mode data ≤ p.fragment_payload mode := by
    have hsucc := Nat.succ_mul (p.total_fragments mode data - 1) (p.fragment_payload mode)
    rw [Nat.succ_eq_add_one, Nat.sub_add_cancel hpos] at hsucc
    unfold last_fragment_len
    omega
  have hmem : ∀ n, n ∈ (p.message_commands mode ch data).map command_data_size ↔ ∃ i < p.total_fragments mode data,
      min (p.fragment_payload mode) (data.length - i * p.fragment_payload mode) = n := by
    intro n
    rw [h.fragment_sizes ch]
    simp
  constructor
  · refine List.mem_map.1 ((hmem _).2 ⟨p.total_fragments mode data - 1, by omega, ?_⟩)
    exact Nat.min_eq_right hle
  · intro c hc
    obtain ⟨i, hi, hsize⟩ := (hmem _).1 (List.mem_map_of_mem hc)
    have hstart : i * p.fragment_payload mode ≤ (p.total_fragments mode data - 1) * p.fragment_payload mode :=
      Nat.mul_le_mul_right _ (by omega)
    rw [← hsize]
    exact Nat.le_min.2 ⟨hle, Nat.sub_le_sub_left hstart _⟩

@[simp] theorem numbered_commands (p : Peer) (mode : Mode) : (p.numbered mode).commands = p.commands := by
  cases mode <;> rfl

@[simp] theorem numbered_total (p : Peer) (mode : Mode) :
    (p.numbered mode).total_waiting_data = p.total_waiting_data := by
  cases mode <;> rfl

theorem numbered_admits (p : Peer) (mode : Mode) (n : Nat) : (p.numbered mode).Admits n ↔ p.Admits n := by
  cases mode <;> exact Iff.rfl

/-- What is not split is one command at most. -/
theorem message_commands_of_not_splits (h : ¬ p.Splits mode data) (ch : UInt8) :
    p.message_commands mode ch data = [] ∨ ∃ c, p.message_commands mode ch data = [c] := by
  rcases message_commands_cases p mode ch data with hnone | ⟨-, hwhole⟩ | ⟨-, hfirst⟩ | ⟨hsplits, -⟩
  · exact .inl hnone
  · exact .inr ⟨_, hwhole⟩
  · exact .inr ⟨_, hfirst⟩
  · exact absurd hsplits h

/-- Of a message that splits, all is queued or nothing. -/
theorem Splits.whole_or_none_iff (h : p.Splits mode data) (ch : UInt8) :
    p.AllOrNothing mode ch data ↔ p.Admits data.length ∨ ¬ p.Admits (p.last_fragment_len mode data) := by
  have hpos : 0 < Peer.waiting (p.message_commands mode ch data) := by
    rw [h.waiting ch]
    exact h.length_pos
  have hall : ((p.numbered mode).requeue (p.message_commands mode ch data)).commands =
      p.commands ++ p.message_commands mode ch data ↔ p.Admits data.length := by
    rw [← numbered_commands p mode, requeue_commands_append_iff hpos, h.waiting ch, numbered_admits]
  have hnothing : ((p.numbered mode).requeue (p.message_commands mode ch data)).commands = p.commands ↔
      ¬ p.Admits (p.last_fragment_len mode data) := by
    obtain ⟨⟨last, hlast, hsize⟩, hleast⟩ := h.last_fragment ch
    rw [← numbered_commands p mode, requeue_commands_eq_iff, ← hsize]
    constructor
    · intro hrefused
      rw [← numbered_admits]
      exact hrefused last hlast
    · intro hrefused c hc
      rw [numbered_admits]
      have hle := hleast c hc
      unfold Admits at hrefused ⊢
      omega
  unfold AllOrNothing
  rw [enqueue_eq]
  constructor
  · rintro ⟨q, hq, hcommands | ⟨hcommands, -⟩⟩
    · cases hq
      exact .inl (hall.1 hcommands)
    · cases hq
      exact .inr (hnothing.1 hcommands)
  · rintro (hadmits | hrefused)
    · exact ⟨_, rfl, .inl (hall.2 hadmits)⟩
    · have hsame := hnothing.2 hrefused
      refine ⟨_, rfl, .inr ⟨hsame, ?_⟩⟩
      rw [← numbered_commands p mode, requeue_commands_eq_iff] at hsame
      rw [requeue_of_refused hsame, numbered_total]

/-- A message is queued all or nothing exactly if it is not divided by the limit
on waiting data. -/
theorem all_or_nothing_iff (p : Peer) (mode : Mode) (ch : UInt8) (data : Bytes) :
    p.AllOrNothing mode ch data ↔ p.Undivided mode data := by
  by_cases h : p.Splits mode data
  · rw [h.whole_or_none_iff ch]
    exact ⟨fun hcases _ => hcases, fun hundivided => hundivided h⟩
  · refine ⟨fun _ hsplits => absurd hsplits h, fun _ => ⟨_, enqueue_eq p mode ch data, ?_⟩⟩
    rcases message_commands_of_not_splits h ch with hnone | ⟨c, hone⟩
    · rw [hnone]
      exact .inr ⟨numbered_commands p mode, numbered_total p mode⟩
    · rw [hone]
      rcases requeue_singleton (p.numbered mode) c with hqueued | hrefused
      · rw [hqueued, numbered_commands]
        exact .inl rfl
      · rw [hrefused]
        exact .inr ⟨numbered_commands p mode, numbered_total p mode⟩

/-- Twelve bytes may wait, and a message of twenty comes in two fragments of
eleven and nine. -/
def twelve_bytes : Peer := .new ⟨.V4 0, 0⟩ { narrow with max_waiting_data := 12 } 0 ⟨0, 0, 0⟩

/-- The first fragment is queued and the second dropped. -/
theorem first_fragment_alone : ¬ twelve_bytes.AllOrNothing (.Reliable true) 0 (List.replicate 20 7) := by
  rintro ⟨q, hq, h⟩
  have hlen : q.commands.length = 1 := by
    rw [enqueue_eq] at hq
    cases hq
    decide
  rcases h with h | ⟨h, -⟩
  · rw [h] at hlen
    exact absurd hlen (by decide)
  · rw [h] at hlen
    exact absurd hlen (by decide)

end Peer

end Bitfold
