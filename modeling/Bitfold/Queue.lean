import Bitfold.Fragmenting
import Bitfold.Handshake
import Bitfold.PathMtu
import Bitfold.Session
/-!
# The command queue under every operation

`Queues p p' new`: the operation that led from `p` to `p'` put `new` behind
the queue of `p`, through the admission check, and took nothing out. Each
operation of a peer that does not encode its queue is one of these, and so
keeps whatever a sequence of admissions keeps.
-/

namespace Bitfold

open Lib CommandEncoder

namespace Peer

/-- The queued commands. -/
abbrev commands (p : Peer) : List ProtocolCommand := p.command_queue.commands

/-- The payload bytes of a list of commands. -/
def waiting (cmds : List ProtocolCommand) : Nat := (cmds.map command_data_size).sum

@[simp] theorem waiting_nil : waiting [] = 0 := rfl

@[simp] theorem waiting_cons (c : ProtocolCommand) (cs : List ProtocolCommand) :
    waiting (c :: cs) = command_data_size c + waiting cs := by simp [waiting]

@[simp] theorem waiting_append (xs ys : List ProtocolCommand) :
    waiting (xs ++ ys) = waiting xs + waiting ys := by simp [waiting]

/-- The admission check of `enqueue_command`: is there room for `n` bytes? -/
def Admits (p : Peer) (n : Nat) : Prop :=
  p.config.max_waiting_data = 0 ∨ p.total_waiting_data + n ≤ p.config.max_waiting_data

/-- `p` with `cmds` behind its queue and counted. -/
def queued (p : Peer) (cmds : List ProtocolCommand) : Peer :=
  { p with
    total_waiting_data := p.total_waiting_data + waiting cmds
    command_queue := { p.command_queue with commands := p.commands ++ cmds } }

theorem queued_nil (p : Peer) : p.queued [] = p := by simp [queued]

theorem queued_queued (p : Peer) (xs ys : List ProtocolCommand) : (p.queued xs).queued ys = p.queued (xs ++ ys) := by
  simp [queued, commands, Nat.add_assoc]

/-- A command is queued iff it is admitted. -/
theorem enqueue_command_of_admits {p : Peer} {c : ProtocolCommand} (h : p.Admits (command_data_size c)) :
    (p.enqueue_command c).2 = p.queued [c] := by
  unfold Admits at h
  rw [enqueue_command, if_neg (by omega)]
  simp [queued, CommandQueue.enqueue]

theorem enqueue_command_of_refused {p : Peer} {c : ProtocolCommand} (h : ¬ p.Admits (command_data_size c)) :
    (p.enqueue_command c).2 = p := by
  unfold Admits at h
  rw [enqueue_command, if_pos (by omega)]

/-- Queueing changes the queue and its counter only. -/
theorem enqueue_command_writes (p : Peer) (c : ProtocolCommand) :
    ∃ n q, (p.enqueue_command c).2 = { p with total_waiting_data := n, command_queue := q } := by
  by_cases h : p.Admits (command_data_size c)
  · rw [enqueue_command_of_admits h]
    exact ⟨_, _, rfl⟩
  · rw [enqueue_command_of_refused h]
    exact ⟨_, _, rfl⟩

/-- Going from `p` to `p'`, `new` was queued and nothing taken out. -/
structure Queues (p p' : Peer) (new : List ProtocolCommand) : Prop where
  commands : p'.commands = p.commands ++ new
  total : p'.total_waiting_data = p.total_waiting_data + waiting new
  limit : p'.config.max_waiting_data = p.config.max_waiting_data
  admitted : p.config.max_waiting_data = 0 ∨ waiting new = 0 ∨
    p'.total_waiting_data ≤ p.config.max_waiting_data

theorem Queues.refl (p : Peer) : Queues p p [] := ⟨by simp, by simp, rfl, by simp⟩

theorem Queues.trans {p q r : Peer} {xs ys : List ProtocolCommand} (h : Queues p q xs) (h' : Queues q r ys) :
    Queues p r (xs ++ ys) where
  commands := by rw [h'.commands, h.commands, List.append_assoc]
  total := by rw [h'.total, h.total, waiting_append, Nat.add_assoc]
  limit := h'.limit.trans h.limit
  admitted := by
    have h₁ := h.admitted
    have h₂ := h'.admitted
    have ht := h'.total
    rw [h.limit] at h₂
    rw [waiting_append]
    omega

theorem queues_queued {p : Peer} {cmds : List ProtocolCommand} (h : p.Admits (waiting cmds)) :
    Queues p (p.queued cmds) cmds :=
  ⟨rfl, rfl, rfl, h.imp_right fun h => .inr h⟩

theorem enqueue_command_queues (p : Peer) (c : ProtocolCommand) :
    Queues p (p.enqueue_command c).2 [c] ∨ (p.enqueue_command c).2 = p := by
  by_cases h : p.Admits (command_data_size c)
  · rw [enqueue_command_of_admits h]
    exact .inl (queues_queued (by simpa using h))
  · exact .inr (enqueue_command_of_refused h)

/-- A command that carries no data can be queued past the check. -/
theorem push_command_queues (p : Peer) {c : ProtocolCommand} (h : command_data_size c = 0) :
    Queues p (p.push_command c) [c] :=
  ⟨by simp [push_command, CommandQueue.enqueue], by simp [push_command, h], rfl, by simp [h]⟩

/-- Going from `p` to `p'`, commands of the given kind were queued. -/
def QueuesAll (K : ProtocolCommand → Prop) (p p' : Peer) : Prop := ∃ new, Queues p p' new ∧ ∀ c ∈ new, K c

theorem QueuesAll.refl (K : ProtocolCommand → Prop) (p : Peer) : QueuesAll K p p := ⟨[], .refl p, by simp⟩

theorem QueuesAll.subset {K : ProtocolCommand → Prop} {p q : Peer} (h : QueuesAll K p q) :
    p.commands ⊆ q.commands := by
  obtain ⟨new, hq, -⟩ := h
  rw [hq.commands]
  exact List.subset_append_left _ _

theorem QueuesAll.trans {K : ProtocolCommand → Prop} {p q r : Peer} (h : QueuesAll K p q) (h' : QueuesAll K q r) :
    QueuesAll K p r := by
  obtain ⟨xs, hq, hx⟩ := h
  obtain ⟨ys, hq', hy⟩ := h'
  refine ⟨xs ++ ys, hq.trans hq', fun c hc => ?_⟩
  rcases List.mem_append.1 hc with hc | hc
  · exact hx c hc
  · exact hy c hc

theorem enqueue_command_queuesAll {K : ProtocolCommand → Prop} (p : Peer) {c : ProtocolCommand} (h : K c) :
    QueuesAll K p (p.enqueue_command c).2 := by
  rcases enqueue_command_queues p c with hq | he
  · exact ⟨[c], hq, by simpa using h⟩
  · rw [he]
    exact .refl K p

/-- A change outside the queue and its limit queues nothing. -/
theorem queuesAll_of_eq {K : ProtocolCommand → Prop} {p p' : Peer} (hq : p'.commands = p.commands)
    (ht : p'.total_waiting_data = p.total_waiting_data)
    (hl : p'.config.max_waiting_data = p.config.max_waiting_data) : QueuesAll K p p' :=
  ⟨[], ⟨by simp [hq], by simp [ht], hl, by simp⟩, by simp⟩

/-! ## Queueing many commands -/

/-- All of it is kept if there is room for all of it. -/
theorem requeue_of_admits {p : Peer} {cmds : List ProtocolCommand} (h : p.Admits (waiting cmds)) :
    p.requeue cmds = p.queued cmds := by
  induction cmds generalizing p with
  | nil => exact p.queued_nil.symm
  | cons c cmds ih =>
    unfold Admits at h
    rw [waiting_cons] at h
    have hc : p.Admits (command_data_size c) := by unfold Admits; omega
    have hrest : (p.queued [c]).Admits (waiting cmds) := by
      simp only [Admits, queued, waiting_cons, waiting_nil]
      omega
    rw [requeue, List.foldl_cons, enqueue_command_of_admits hc]
    exact (ih hrest).trans (queued_queued p [c] cmds)

/-- None of it is kept if there is no room for any of it. -/
theorem requeue_of_refused {p : Peer} {cmds : List ProtocolCommand}
    (h : ∀ c ∈ cmds, ¬ p.Admits (command_data_size c)) : p.requeue cmds = p := by
  induction cmds with
  | nil => rfl
  | cons c cmds ih =>
    rw [requeue, List.foldl_cons, enqueue_command_of_refused (h c (by simp))]
    exact ih fun c' hc => h c' (by simp [hc])

theorem requeue_writes (p : Peer) (cmds : List ProtocolCommand) :
    ∃ n q, p.requeue cmds = { p with total_waiting_data := n, command_queue := q } := by
  induction cmds generalizing p with
  | nil => exact ⟨_, _, rfl⟩
  | cons c cmds ih =>
    obtain ⟨n, q, he⟩ := enqueue_command_writes p c
    obtain ⟨n', q', he'⟩ := ih (p.enqueue_command c).2
    refine ⟨n', q', ?_⟩
    rw [requeue, List.foldl_cons]
    exact he'.trans (by rw [he])

theorem requeue_queues (p : Peer) (cmds : List ProtocolCommand) :
    ∃ kept, kept.Sublist cmds ∧ Queues p (p.requeue cmds) kept := by
  induction cmds generalizing p with
  | nil => exact ⟨[], .slnil, .refl p⟩
  | cons c cmds ih =>
    obtain ⟨kept, hk, hq⟩ := ih (p.enqueue_command c).2
    rcases enqueue_command_queues p c with hc | hc
    · exact ⟨c :: kept, hk.cons_cons c, hc.trans hq⟩
    · rw [hc] at hq
      refine ⟨kept, hk.cons c, ?_⟩
      rw [requeue, List.foldl_cons, hc]
      exact hq

theorem requeue_queuesAll {K : ProtocolCommand → Prop} (p : Peer) {cmds : List ProtocolCommand}
    (h : ∀ c ∈ cmds, K c) : QueuesAll K p (p.requeue cmds) := by
  obtain ⟨kept, hk, hq⟩ := requeue_queues p cmds
  exact ⟨kept, hq, fun c hc => h c (hk.subset hc)⟩

/-! ## Commands come in -/

/-- The commands a peer queues in answer to incoming ones. -/
def IsResponse : ProtocolCommand → Prop
  | .Acknowledge .. | .Pong _ | .VerifyConnect .. | .PMTUReply .. => True
  | _ => False

theorem IsResponse.size {c : ProtocolCommand} (h : IsResponse c) : command_data_size c = 0 := by
  cases c <;> simp_all [IsResponse, command_data_size]

/-- An operation that queues responses only. -/
abbrev Answers : Peer → Peer → Prop := QueuesAll IsResponse

theorem enqueue_ack_command_answers (p : Peer) (st : Option UInt32) : Answers p (p.enqueue_ack_command st) :=
  enqueue_command_queuesAll p (c := .Acknowledge _ _ st) trivial

theorem deliver_ordered_answers (p : Peer) (ch : UInt8) (s : UInt16) (d : SharedBytes) :
    Answers p (p.deliver_ordered ch s d).2 := queuesAll_of_eq rfl rfl rfl

theorem process_acknowledge_answers (p : Peer) (s : UInt16) (m : UInt32) (t : Instant) :
    Answers p (p.process_acknowledge s m t) := queuesAll_of_eq rfl rfl rfl

theorem process_send_reliable_answers (p : Peer) (ch : UInt8) (s : UInt16) (o : Bool) (d : SharedBytes)
    (t : Instant) : Answers p (p.process_send_reliable ch s o d t).1 := by
  unfold process_send_reliable
  have hack := (process_acknowledge_answers p s 0 t).trans (enqueue_ack_command_answers _ none)
  cases o with
  | true => exact hack.trans (deliver_ordered_answers ..)
  | false => exact hack

theorem process_send_unreliable_sequenced_answers (p : Peer) (ch : UInt8) (s : UInt16) (d : SharedBytes) :
    Answers p (p.process_send_unreliable_sequenced ch s d).1 := by
  simp only [process_send_unreliable_sequenced]
  split <;> exact queuesAll_of_eq rfl rfl rfl

theorem process_send_unsequenced_answers (p : Peer) (ch : UInt8) (g : UInt16) (d : SharedBytes) :
    Answers p (p.process_send_unsequenced ch g d).1 := by
  unfold process_send_unsequenced
  split
  · exact .refl _ p
  · exact queuesAll_of_eq rfl rfl rfl

theorem add_fragment_answers (p : Peer) (ch : UInt8) (s : UInt16) (o : Bool) (i n : UInt8) (d : SharedBytes)
    (t : Instant) : Answers p (p.add_fragment ch s o i n d t).2 := by
  unfold add_fragment
  dsimp only
  split <;> exact queuesAll_of_eq rfl rfl rfl

theorem process_send_fragment_answers (p : Peer) (ch : UInt8) (s : UInt16) (o : Bool) (i n : UInt8)
    (d : SharedBytes) (t : Instant) : Answers p (p.process_send_fragment ch s o i n d t).1 := by
  unfold process_send_fragment
  dsimp only
  have hadd := (process_acknowledge_answers p s 0 t).trans (add_fragment_answers _ ch s o i n d t)
  split
  · rename_i he
    rwa [he] at hadd
  · rename_i he
    rw [he] at hadd
    split
    · exact hadd
    · have hack := hadd.trans (enqueue_ack_command_answers _ none)
      split
      · exact hack.trans (deliver_ordered_answers ..)
      · exact hack

theorem process_send_unreliable_fragment_answers (p : Peer) (ch : UInt8) (s : UInt16) (i n : UInt8)
    (d : SharedBytes) (t : Instant) : Answers p (p.process_send_unreliable_fragment ch s i n d t).1 := by
  unfold process_send_unreliable_fragment
  have hadd := add_fragment_answers p ch s false i n d t
  split
  · rename_i he
    rwa [he] at hadd
  · rename_i he
    rw [he] at hadd
    split <;> exact hadd

theorem process_connect_answers (p : Peer) (chs : UInt8) (sid : UInt16) (cid : UInt32) (draw : UInt16) :
    Answers p (p.process_connect chs sid cid draw) := by
  unfold process_connect
  split
  · refine (queuesAll_of_eq rfl rfl rfl : Answers p { p with
      incoming_session_id := sid, peer_id := draw, connect_id := cid, state := .AcknowledgingConnect }).trans ?_
    exact ⟨_, push_command_queues _ rfl, by simp [IsResponse]⟩
  · exact .refl _ p

theorem process_verify_connect_answers {p p' : Peer} {i₁ i₂ i₃ : UInt16} {w : UInt32} {r : Processed}
    (h : p.process_verify_connect i₁ i₂ i₃ w = .ok (p', r)) : Answers p p' := by
  obtain ⟨i, s, f, st, rfl⟩ := process_verify_connect_writes h
  exact queuesAll_of_eq rfl rfl rfl

/-- Processing a command queues responses, and takes nothing out. -/
theorem process_command_answers {p p' : Peer} {c : ProtocolCommand} {t : Instant} {draw : UInt16} {r : Processed}
    (h : p.process_command c t draw = .ok (p', r)) : Answers p p' := by
  have heard : Answers p (p.heard t) := queuesAll_of_eq rfl rfl rfl
  apply heard.trans
  unfold process_command at h
  cases c with
  | VerifyConnect pid chs m isid osid w => exact process_verify_connect_answers h
  | _ =>
    simp only [Except.ok.injEq, Prod.mk.injEq] at h
    obtain ⟨rfl, -⟩ := h
    first
      | exact .refl _ _
      | exact queuesAll_of_eq rfl rfl rfl
      | exact enqueue_command_queuesAll _ trivial
      | exact process_send_reliable_answers ..
      | exact process_send_unreliable_sequenced_answers ..
      | exact process_send_unsequenced_answers ..
      | exact process_send_fragment_answers ..
      | exact process_send_unreliable_fragment_answers ..
      | exact process_connect_answers ..

theorem process_commands_answers {t : Instant} {draw : UInt16} {cmds : List ProtocolCommand} {p p' : Peer}
    {packets : IncomingPackets} {r : Processed} (h : process_commands t draw cmds p packets = .ok (p', r)) :
    Answers p p' := by
  induction cmds generalizing p packets with
  | nil =>
    cases h
    exact .refl _ _
  | cons c cmds ih =>
    rw [process_commands] at h
    split at h
    · cases h
    · rename_i he
      cases h
      exact process_command_answers he
    · rename_i he
      exact (process_command_answers he).trans (ih h)

theorem process_command_packet_answers {codecs : Codecs} {p p' : Peer} {data : Bytes} {t : Instant}
    {draw : UInt16} {r : Processed} (h : p.process_command_packet codecs data t draw = .ok (p', r)) :
    Answers p p' := by
  unfold process_command_packet at h
  dsimp only at h
  split at h
  · cases h
  · cases h
    exact queuesAll_of_eq rfl rfl rfl
  · refine (queuesAll_of_eq rfl rfl rfl : Answers p
      (p.record_data_received data.length).record_packet_received).trans ?_
    exact process_commands_answers h

theorem record_recv_answers (p : Peer) : Answers p p.record_recv.2 := by
  unfold record_recv
  dsimp only
  split
  · split <;> exact queuesAll_of_eq rfl rfl rfl
  · split <;> exact queuesAll_of_eq rfl rfl rfl
  · exact queuesAll_of_eq rfl rfl rfl
  · exact .refl _ p

theorem process_packet_answers {codecs : Codecs} {p p' : Peer} {payload : Bytes} {t : Instant} {draw : UInt16}
    {actions : List Action} (h : p.process_packet codecs payload t draw = .ok (actions, p')) : Answers p p' := by
  unfold process_packet at h
  have hb : Answers p (p.update_bandwidth_window t) := queuesAll_of_eq rfl rfl rfl
  split at h
  · cases h
    exact .refl _ p
  · dsimp only at h
    split at h
    · cases h
      exact hb
    · have hr : Answers p ((p.update_bandwidth_window t).record_bytes_received (.ofNat payload.length)) :=
        queuesAll_of_eq rfl rfl rfl
      split at h
      · cases h
      · rename_i he
        cases h
        exact (hr.trans (process_command_packet_answers he)).trans (record_recv_answers _)
      · rename_i he
        cases h
        exact hr.trans (process_command_packet_answers he)

/-! ## User data goes in -/

theorem mem_data_commands {p : Peer} {data : Bytes} {header fragment_header : Nat}
    {whole : SharedBytes → ProtocolCommand} {fragment : UInt8 → UInt8 → SharedBytes → ProtocolCommand}
    {c : ProtocolCommand} (h : c ∈ p.data_commands data header fragment_header whole fragment) :
    (∃ d, c = whole d) ∨ ∃ i n d, c = fragment i n d := by
  unfold data_commands at h
  split at h
  · cases h
  · split at h
    · exact .inl ⟨_, List.mem_singleton.1 h⟩
    · dsimp only at h
      split at h
      · cases h
      · split at h
        · cases h
        · split at h
          · exact .inr ⟨_, _, _, List.mem_singleton.1 h⟩
          · obtain ⟨i, -, rfl⟩ := List.mem_map.1 h
            exact .inr ⟨_, _, _, rfl⟩

theorem enqueue_data_queuesAll {K : ProtocolCommand → Prop} {p p' : Peer} {data : Bytes} {header fragment_header : Nat}
    {whole : SharedBytes → ProtocolCommand} {fragment : UInt8 → UInt8 → SharedBytes → ProtocolCommand}
    (hw : ∀ d, K (whole d)) (hf : ∀ i n d, K (fragment i n d))
    (h : p.enqueue_data data header fragment_header whole fragment = .ok p') : QueuesAll K p p' := by
  rw [enqueue_data_eq] at h
  cases h
  apply requeue_queuesAll p
  intro c hc
  rcases mem_data_commands hc with ⟨d, rfl⟩ | ⟨i, n, d, rfl⟩
  · exact hw d
  · exact hf i n d

/-- Queueing data changes the queue and its counter only. -/
theorem enqueue_data_writes {p p' : Peer} {data : Bytes} {header fragment_header : Nat}
    {whole : SharedBytes → ProtocolCommand} {fragment : UInt8 → UInt8 → SharedBytes → ProtocolCommand}
    (h : p.enqueue_data data header fragment_header whole fragment = .ok p') :
    ∃ n q, p' = { p with total_waiting_data := n, command_queue := q } := by
  rw [enqueue_data_eq] at h
  cases h
  exact requeue_writes ..

/-- The commands that carry reliable data. -/
def IsReliable : ProtocolCommand → Prop
  | .SendReliable .. | .SendFragment .. => True
  | _ => False

theorem isReliable_reliable_commands {p : Peer} {ch : UInt8} {data : Bytes} {o : Bool} {c : ProtocolCommand}
    (h : c ∈ p.reliable_commands ch data o) : IsReliable c := by
  rcases mem_data_commands h with ⟨d, rfl⟩ | ⟨i, n, d, rfl⟩
  · trivial
  · trivial

theorem enqueue_reliable_data_queuesAll {p p' : Peer} {ch : UInt8} {data : Bytes} {o : Bool} {s : UInt16}
    (h : p.enqueue_reliable_data ch data o = .ok (s, p')) : QueuesAll IsReliable p p' := by
  rw [enqueue_reliable_data_eq] at h
  cases h
  exact requeue_queuesAll p fun c hc => isReliable_reliable_commands hc

theorem enqueue_unreliable_data_queuesAll {p p' : Peer} {ch : UInt8} {data : Bytes} {s : UInt16}
    (h : p.enqueue_unreliable_data ch data = .ok (s, p')) : QueuesAll (fun c => ¬ IsReliable c) p p' := by
  unfold enqueue_unreliable_data at h
  simp only [bind, Except.bind] at h
  split at h
  · cases h
  · rename_i he
    cases h
    refine (queuesAll_of_eq rfl rfl rfl : QueuesAll _ p { p with
      next_unreliable_sequence := p.next_unreliable_sequence + 1 }).trans ?_
    refine enqueue_data_queuesAll (fun d => ?_) (fun i n d => ?_) he
    · exact id
    · exact id

/-- Every chunk has at most `size` bytes. -/
theorem enqueue_chunks_queuesAll {P : ProtocolCommand → Prop} {ch : UInt8} {base : SharedBytes} {size fuel offset : Nat}
    {p p' : Peer} (hP : ∀ group d, d.len ≤ size → P (.SendUnsequenced ch group d))
    (h : enqueue_chunks ch base size fuel offset p = .ok p') : QueuesAll P p p' := by
  induction fuel generalizing offset p with
  | zero =>
    cases h
    exact .refl _ _
  | succ fuel ih =>
    unfold enqueue_chunks at h
    split at h
    · obtain ⟨chunk, hchunk, hlen, -⟩ := base.slice_spec
        (show offset + min size (base.len - offset) ≤ base.len by omega)
      dsimp only at h
      rw [hchunk] at h
      apply (queuesAll_of_eq rfl rfl rfl : QueuesAll _ p p.next_unsequenced_group.2).trans
      exact (enqueue_command_queuesAll _ (hP _ _ (by omega))).trans (ih h)
    · cases h
      exact .refl _ _

/-- The commands of a reliable user packet. -/
def packet_reliable_commands (p : Peer) (event : Packet) : List ProtocolCommand :=
  p.reliable_commands event.channel_id event.payload (event.ordering != .None)

theorem enqueue_packet_reliable {p : Peer} {event : Packet} (h : event.delivery = .Reliable) :
    p.enqueue_packet event = .ok (p.requeue (p.packet_reliable_commands event)) := by
  unfold enqueue_packet
  rw [h]
  dsimp only
  rw [enqueue_reliable_data_eq]
  rfl

/-- A user packet queues commands of its own delivery guarantee. -/
theorem enqueue_packet_queuesAll {p p' : Peer} {event : Packet} (h : p.enqueue_packet event = .ok p') :
    QueuesAll (fun c => IsReliable c ↔ event.delivery = .Reliable) p p' := by
  have weaken : ∀ {K K' : ProtocolCommand → Prop}, (∀ c, K c → K' c) → QueuesAll K p p' → QueuesAll K' p p' :=
    fun hk ⟨new, hq, hn⟩ => ⟨new, hq, fun c hc => hk c (hn c hc)⟩
  by_cases hd : event.delivery = .Reliable
  · rw [enqueue_packet_reliable hd] at h
    cases h
    exact requeue_queuesAll p fun c hc => iff_of_true (isReliable_reliable_commands hc) hd
  unfold enqueue_packet at h
  split at h
  · exact absurd ‹_› hd
  · rename_i hd
    have hn : ∀ c, ¬ IsReliable c → (IsReliable c ↔ event.delivery = .Reliable) := fun c hc =>
      iff_of_false hc (by rw [hd]; decide)
    split at h
    · exact weaken hn (enqueue_chunks_queuesAll (fun _ _ _ => id) h)
    · simp only [bind, Except.bind] at h
      split at h
      · cases h
      · rename_i he
        cases h
        exact weaken hn (enqueue_unreliable_data_queuesAll he)

theorem enqueue_chunks_writes {ch : UInt8} {base : SharedBytes} {size fuel offset : Nat} {p p' : Peer}
    (h : enqueue_chunks ch base size fuel offset p = .ok p') :
    ∃ n q u, p' = { p with total_waiting_data := n, command_queue := q, unsequenced_state := u } := by
  induction fuel generalizing offset p with
  | zero =>
    cases h
    exact ⟨_, _, _, rfl⟩
  | succ fuel ih =>
    unfold enqueue_chunks at h
    split at h
    · simp only [bind, Except.bind] at h
      split at h
      · cases h
      · obtain ⟨n, q, u, rfl⟩ := ih h
        obtain ⟨n', q', he⟩ := enqueue_command_writes p.next_unsequenced_group.2
          (.SendUnsequenced ch p.next_unsequenced_group.1 _)
        rw [he]
        exact ⟨n, q, u, rfl⟩
    · cases h
      exact ⟨_, _, _, rfl⟩

/-- A user packet changes the queue and two counters of unreliable data. -/
theorem enqueue_packet_writes {p p' : Peer} {event : Packet} (h : p.enqueue_packet event = .ok p') :
    ∃ n q u s, p' = { p with
      total_waiting_data := n, command_queue := q, unsequenced_state := u, next_unreliable_sequence := s } := by
  by_cases hd : event.delivery = .Reliable
  · rw [enqueue_packet_reliable hd] at h
    cases h
    obtain ⟨n, q, he⟩ := requeue_writes p (p.packet_reliable_commands event)
    exact ⟨n, q, _, _, he⟩
  unfold enqueue_packet at h
  split at h
  · exact absurd ‹_› hd
  · split at h
    · obtain ⟨n, q, u, rfl⟩ := enqueue_chunks_writes h
      exact ⟨n, q, u, _, rfl⟩
    · simp only [bind, Except.bind, enqueue_unreliable_data] at h
      split at h
      · cases h
      · rename_i he
        split at he
        · cases he
        · rename_i hd
          cases he
          cases h
          obtain ⟨n, q, rfl⟩ := enqueue_data_writes hd
          exact ⟨n, q, _, _, rfl⟩

/-! ## Control commands -/

/-- The commands a peer queues on its own account. -/
def IsControl : ProtocolCommand → Prop
  | .Connect .. | .Ping _ | .PMTUProbe .. | .Disconnect _ => True
  | _ => False

theorem initiate_connect_queuesAll (p : Peer) : QueuesAll IsControl p p.initiate_connect := by
  unfold initiate_connect
  split
  · refine (queuesAll_of_eq rfl rfl rfl : QueuesAll _ p { p with state := .Connecting }).trans ?_
    exact ⟨_, push_command_queues _ rfl, by simp [IsControl]⟩
  · exact .refl _ p

theorem record_send_queuesAll (p : Peer) : QueuesAll IsControl p p.record_send.2 := by
  unfold record_send
  dsimp only
  split
  · split
    · exact initiate_connect_queuesAll p
    · exact queuesAll_of_eq rfl rfl rfl
  · exact queuesAll_of_eq rfl rfl rfl
  · exact .refl _ p

theorem record_send_writes (p : Peer) :
    ∃ st q, p.record_send.2 = { p with state := st, command_queue := q } := by
  unfold record_send initiate_connect
  dsimp only
  split
  · split
    · exact ⟨_, _, rfl⟩
    · exact ⟨_, _, rfl⟩
  · exact ⟨_, _, rfl⟩
  · exact ⟨_, _, rfl⟩

theorem record_recv_writes (p : Peer) : ∃ st, p.record_recv.2 = { p with state := st } := by
  unfold record_recv
  dsimp only
  split
  · split <;> exact ⟨_, rfl⟩
  · split <;> exact ⟨_, rfl⟩
  · exact ⟨_, rfl⟩
  · exact ⟨_, rfl⟩

theorem disconnect_queuesAll (p : Peer) : QueuesAll IsControl p p.disconnect := by
  unfold disconnect
  split
  · refine (queuesAll_of_eq rfl rfl rfl : QueuesAll _ p { p with state := .Disconnecting }).trans ?_
    exact ⟨_, push_command_queues _ rfl, by simp [IsControl]⟩
  · exact .refl _ p

/-- A probe is all `handle_pmtu` ever sends. -/
theorem pmtu_handle_probe {pm pm' : PmtuDiscovery} {t : Instant} {rto : Duration} {draw : ProbeDraw}
    {c : ProtocolCommand} (h : pm.handle_pmtu t rto draw = (some c, pm')) : IsControl c := by
  have hturns := pm.turns t rto draw
  rw [h] at hturns
  cases hturns with
  | probes => trivial

theorem handle_pmtu_writes (p : Peer) (t : Instant) (draw : ProbeDraw) :
    ∃ n q pm, p.handle_pmtu t draw = { p with total_waiting_data := n, command_queue := q, pmtu := pm } := by
  unfold handle_pmtu
  match p.pmtu.handle_pmtu t p.rto draw with
  | (none, pmtu) => exact ⟨_, _, _, rfl⟩
  | (some c, pmtu) =>
    obtain ⟨n, q, he⟩ := enqueue_command_writes { p with pmtu } c
    exact ⟨n, q, pmtu, he⟩

theorem handle_pmtu_pmtu (p : Peer) (t : Instant) (draw : ProbeDraw) :
    (p.handle_pmtu t draw).pmtu = (p.pmtu.handle_pmtu t p.rto draw).2 := by
  unfold handle_pmtu
  rcases p.pmtu.handle_pmtu t p.rto draw with ⟨_ | c, pmtu⟩
  · rfl
  · obtain ⟨n, q, he⟩ := enqueue_command_writes { p with pmtu } c
    dsimp only
    rw [he]

theorem handle_pmtu_queuesAll (p : Peer) (t : Instant) (draw : ProbeDraw) :
    QueuesAll IsControl p (p.handle_pmtu t draw) := by
  unfold handle_pmtu
  match he : p.pmtu.handle_pmtu t p.rto draw with
  | (none, pmtu) => exact queuesAll_of_eq rfl rfl rfl
  | (some c, pmtu) =>
    refine (queuesAll_of_eq rfl rfl rfl : QueuesAll _ p { p with pmtu := pmtu }).trans ?_
    exact enqueue_command_queuesAll _ (pmtu_handle_probe he)

end Peer

end Bitfold
