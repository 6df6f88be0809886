import Bitfold.Datagrams
/-!
# Flushing

The counter of waiting data is exact and within its limit in every reachable
peer (`Balanced`), so what a datagram leaves behind is always let back into
the queue: flushing takes prefixes off the queue and loses nothing else.
-/

namespace Bitfold

open Lib

namespace Peer

variable {codecs : Codecs} {p p' : Peer}

/-- The counter of waiting data is the data in the queue, within the limit. -/
structure Balanced (p : Peer) : Prop where
  total : p.total_waiting_data = waiting p.commands
  bounded : p.config.max_waiting_data = 0 ∨ p.total_waiting_data ≤ p.config.max_waiting_data

theorem balanced_new (addr : SocketAddr) (config : Config) (time : Instant) (draw : PeerDraw) :
    Balanced (.new addr config time draw) :=
  ⟨rfl, .inr (Nat.zero_le _)⟩

theorem Balanced.of_queues {new : List ProtocolCommand} (h : Balanced p) (hq : Queues p p' new) : Balanced p' where
  total := by rw [hq.total, hq.commands, waiting_append, h.total]
  bounded := by
    have hb := h.bounded
    have ha := hq.admitted
    have ht := hq.total
    rw [hq.limit]
    omega

theorem Balanced.of_queuesAll {K : ProtocolCommand → Prop} (h : Balanced p) (hq : QueuesAll K p p') : Balanced p' := by
  obtain ⟨new, hq, -⟩ := hq
  exact h.of_queues hq

/-- A change outside the queue and its limit keeps the balance. -/
theorem Balanced.of_eq (h : Balanced p) (hq : p'.commands = p.commands)
    (ht : p'.total_waiting_data = p.total_waiting_data)
    (hl : p'.config.max_waiting_data = p.config.max_waiting_data) : Balanced p' :=
  h.of_queuesAll (K := fun _ => True) (queuesAll_of_eq hq ht hl)

theorem balanced_drained (p : Peer) : Balanced p.drained :=
  ⟨rfl, .inr (Nat.zero_le _)⟩

/-! ## One datagram -/

/-- What was in the queue before is let in again. -/
theorem Balanced.rest_admitted (h : Balanced p) (max_size : Nat) : p.drained.Admits (waiting (p.left max_size)) := by
  have hb := h.bounded
  rw [h.total, ← p.taken_append_left max_size, waiting_append] at hb
  unfold Admits
  rw [drained_config, drained_total]
  omega

/-- The peer after a bounded encode, whatever it returned. -/
def after_encode (codecs : Codecs) (p : Peer) (max_size : Nat) : Peer :=
  (p.encode_queued_commands_bounded codecs max_size).1

theorem after_encode_of_selected (codecs : Codecs) (h : Balanced p) {max_size : Nat} (hk : p.selected_count max_size ≠ 0) :
    ∃ st, p.after_encode codecs max_size = { p.drained.queued (p.left max_size) with statistics := st } := by
  rcases encode_bounded_cases codecs p max_size with ⟨h0, -⟩ | ⟨-, he⟩
  · exact absurd h0 hk
  · obtain ⟨st, hst⟩ := finish_packet_writes codecs (p.after_taking max_size) ⟨p.taken max_size⟩
    refine ⟨st, ?_⟩
    rw [after_encode, he, hst, after_taking, requeue_of_admits (h.rest_admitted max_size)]

/-- A bounded encode takes a prefix off the queue; one that yields a datagram
takes at least one command. -/
theorem Balanced.after_encode (h : Balanced p) (codecs : Codecs) (max_size : Nat) :
    Balanced (p.after_encode codecs max_size) ∧
      ∃ removed, p.commands = removed ++ (p.after_encode codecs max_size).commands ∧
        ∀ bytes, (p.encode_queued_commands_bounded codecs max_size).2 = .ok (some bytes) → removed ≠ [] := by
  rcases encode_bounded_cases codecs p max_size with ⟨-, he⟩ | ⟨hk, -⟩
  · rw [Peer.after_encode, he]
    exact ⟨h, [], rfl, by simp⟩
  · obtain ⟨st, hst⟩ := after_encode_of_selected codecs h hk
    rw [hst]
    have hq := (balanced_drained p).of_queues (queues_queued (h.rest_admitted max_size))
    refine ⟨hq.of_eq rfl rfl rfl, p.taken max_size, ?_, fun _ _ => taken_ne_nil hk⟩
    exact (p.taken_append_left max_size).symm

/-! ## The flush loop -/

/-- Does the loop of `process_event` and `update` go round once more? -/
def flushes (p : Peer) : Bool := p.has_queued_commands && p.can_send_within_bandwidth

/-- A datagram that was pushed to the actions is charged to the bandwidth. -/
def sent (codecs : Codecs) (p : Peer) (bytes : Bytes) : Peer :=
  (p.after_encode codecs p.datagram_cap).record_bytes_sent (.ofNat bytes.length)

/-- The loop run from `p` goes round once for each peer of `calls`, the peers
that `encode_queued_commands_bounded` is called on, and ends at `p'`. -/
inductive FlushLoop (codecs : Codecs) : Peer → List Peer → List Action → Peer → Prop where
  | done {p : Peer} : p.flushes = false → FlushLoop codecs p [] [] p
  | next {p p' : Peer} {calls : List Peer} {sends : List Action} {bytes : Bytes} :
      p.flushes = true →
      (p.encode_queued_commands_bounded codecs p.datagram_cap).2 = .ok (some bytes) →
      FlushLoop codecs (p.sent codecs bytes) calls sends p' →
      FlushLoop codecs p (p :: calls) (.Send bytes :: sends) p'
  | nothing_fits {p : Peer} : p.flushes = true →
      (p.encode_queued_commands_bounded codecs p.datagram_cap).2 = .ok none →
      FlushLoop codecs p [p] [] (p.after_encode codecs p.datagram_cap)
  | failed {p : Peer} {e : IoError} : p.flushes = true →
      (p.encode_queued_commands_bounded codecs p.datagram_cap).2 = .error e →
      FlushLoop codecs p [p] [] (p.after_encode codecs p.datagram_cap)

/-- The commands a call of the loop took out of the queue. -/
def removed (codecs : Codecs) (p : Peer) : List ProtocolCommand :=
  p.commands.take (p.commands.length - (p.after_encode codecs p.datagram_cap).commands.length)

theorem removed_eq {s : List ProtocolCommand} (h : p.commands = s ++ (p.after_encode codecs p.datagram_cap).commands) :
    p.removed codecs = s := by
  unfold removed
  rw [congrArg List.length h, List.length_append, Nat.add_sub_cancel, h, List.take_left]

theorem flush_next_eq (codecs : Codecs) (p : Peer) :
    p.flush_next codecs =
      if p.flushes then
        match (p.encode_queued_commands_bounded codecs p.datagram_cap).2 with
        | .ok (some bytes) => (some (.Send bytes), p.sent codecs bytes)
        | _ => (none, p.after_encode codecs p.datagram_cap)
      else (none, p) := by
  unfold flush_next flushes sent after_encode
  split
  · match p.encode_queued_commands_bounded codecs p.datagram_cap with
    | (q, .ok (some bytes)) => rfl
    | (q, .ok none) => rfl
    | (q, .error e) => rfl
  · rfl

/-- A datagram leaves fewer commands, even where the admission check drops
some of the rest. -/
theorem sent_length_lt {bytes : Bytes}
    (h : (p.encode_queued_commands_bounded codecs p.datagram_cap).2 = .ok (some bytes)) :
    (p.sent codecs bytes).commands.length < p.commands.length := by
  have hk : p.selected_count p.datagram_cap ≠ 0 := (encode_bounded_some (Prod.ext rfl h)).1
  obtain ⟨kept, hkept, hq⟩ := encode_bounded_kept codecs hk
  have hc : (p.sent codecs bytes).commands = kept := hq.commands
  have hlen : 0 < (p.taken p.datagram_cap).length := List.length_pos_iff.2 (taken_ne_nil hk)
  have hsplit := congrArg List.length (p.taken_append_left p.datagram_cap)
  rw [List.length_append] at hsplit
  have := hkept.length_le
  rw [hc]
  omega

theorem flush_next_decreases (p : Peer) (a : Action) (p' : Peer) (h : p.flush_next codecs = (some a, p')) :
    p'.commands.length < p.commands.length := by
  rw [flush_next_eq] at h
  split at h
  · split at h
    · rename_i he
      cases h
      exact sent_length_lt he
    · cases h
  · cases h

/-- `flush` runs the loop to its end: the queue's length is fuel enough. -/
theorem drains_flush (codecs : Codecs) (p : Peer) :
    Drains (flush_next codecs) p (p.flush codecs).1 (p.flush codecs).2 :=
  drains_drain (μ := fun p => p.commands.length) flush_next_decreases _ p le_rfl

/-- Flushing changes the queue and its counter, the statistics and the
bandwidth spent. -/
theorem flush_next_writes (codecs : Codecs) (p : Peer) :
    ∃ n q st b, (p.flush_next codecs).2 =
      { p with total_waiting_data := n, command_queue := q, statistics := st, bandwidth_throttle := b } := by
  obtain ⟨n, q, st, he⟩ := encode_bounded_writes codecs p p.datagram_cap
  rw [flush_next_eq]
  unfold sent after_encode
  rw [he]
  split
  · split <;> exact ⟨_, _, _, _, rfl⟩
  · exact ⟨_, _, _, _, rfl⟩

theorem flush_writes (codecs : Codecs) (p : Peer) :
    ∃ n q st b, (p.flush codecs).2 =
      { p with total_waiting_data := n, command_queue := q, statistics := st, bandwidth_throttle := b } := by
  refine (drains_flush codecs p).invariant (I := fun p' => ∃ n q st b, p' =
      { p with total_waiting_data := n, command_queue := q, statistics := st, bandwidth_throttle := b })
    ?_ ⟨_, _, _, _, rfl⟩
  rintro s ⟨n, q, st, b, rfl⟩
  exact flush_next_writes codecs _

/-- Flushing puts nothing in the queue. -/
theorem flush_next_subset (codecs : Codecs) (p : Peer) : (p.flush_next codecs).2.commands ⊆ p.commands := by
  have hsub : (p.after_encode codecs p.datagram_cap).commands ⊆ p.commands := by
    by_cases hk : p.selected_count p.datagram_cap = 0
    · rcases encode_bounded_cases codecs p p.datagram_cap with ⟨-, he⟩ | ⟨hne, -⟩
      · rw [after_encode, he]
        exact List.Subset.refl _
      · exact absurd hk hne
    · obtain ⟨kept, hkept, hq⟩ := encode_bounded_kept codecs hk
      rw [after_encode, hq.commands]
      exact fun c hc => List.drop_subset _ _ (hkept.subset hc)
  rw [flush_next_eq]
  split
  · split <;> exact hsub
  · exact List.Subset.refl _

theorem flush_subset (codecs : Codecs) (p : Peer) : (p.flush codecs).2.commands ⊆ p.commands :=
  (drains_flush codecs p).invariant (I := fun p' => p'.commands ⊆ p.commands)
    (fun s hs => List.Subset.trans (flush_next_subset codecs s) hs) (List.Subset.refl _)

theorem flushLoop_of_drains {sends : List Action} (h : Drains (flush_next codecs) p sends p') :
    ∃ calls, FlushLoop codecs p calls sends p' := by
  induction h with
  | @stop p p' hs =>
    rw [flush_next_eq] at hs
    by_cases hf : p.flushes = true
    · -- the last call: nothing fits the datagram, or the encoder failed
      rw [if_pos hf] at hs
      match hr : (p.encode_queued_commands_bounded codecs p.datagram_cap).2 with
      | .ok (some bytes) =>
        rw [hr] at hs
        cases hs
      | .ok none =>
        rw [hr] at hs
        cases hs
        exact ⟨_, .nothing_fits hf hr⟩
      | .error e =>
        rw [hr] at hs
        cases hs
        exact ⟨_, .failed hf hr⟩
    · rw [if_neg hf] at hs
      cases hs
      exact ⟨[], .done (by simpa using hf)⟩
  | next hs _ ih =>
    obtain ⟨calls, ih⟩ := ih
    rw [flush_next_eq] at hs
    split at hs
    · rename_i hf
      split at hs
      · rename_i he
        cases hs
        exact ⟨_, .next hf he ih⟩
      · cases hs
    · cases hs

/-- One round takes out what the call removed, and no more rounds are made
than there were commands. -/
theorem FlushLoop.conserves {calls : List Peer} {sends : List Action} (h : FlushLoop codecs p calls sends p')
    (hb : Balanced p) :
    Balanced p' ∧ calls.length ≤ p.commands.length ∧
      p.commands = (calls.map (removed codecs)).flatten ++ p'.commands := by
  induction h with
  | done _ => exact ⟨hb, by simp, by simp⟩
  | @next p p' calls sends bytes _ he _ ih =>
    obtain ⟨hb', s, hs, -⟩ := hb.after_encode codecs p.datagram_cap
    obtain ⟨hbal, hlen, hc⟩ := ih (hb'.of_eq rfl rfl rfl)
    refine ⟨hbal, ?_, ?_⟩
    · -- a datagram takes at least one command out
      have := sent_length_lt he
      rw [List.length_cons]
      omega
    · rw [List.map_cons, List.flatten_cons, removed_eq hs, List.append_assoc, ← hc]
      exact hs
  | @nothing_fits p hf _ =>
    obtain ⟨hb', s, hs, -⟩ := hb.after_encode codecs p.datagram_cap
    refine ⟨hb', ?_, by simpa [removed_eq hs] using hs⟩
    simp only [flushes, has_queued_commands, Bool.and_eq_true] at hf
    simpa [Nat.one_le_iff_ne_zero] using hf.1
  | @failed p e hf _ =>
    obtain ⟨hb', s, hs, -⟩ := hb.after_encode codecs p.datagram_cap
    refine ⟨hb', ?_, by simpa [removed_eq hs] using hs⟩
    simp only [flushes, has_queued_commands, Bool.and_eq_true] at hf
    simpa [Nat.one_le_iff_ne_zero] using hf.1

/-- The loop from `p` is over after at most as many rounds as commands were
queued, and what its rounds removed is all that is gone from the queue. -/
def LoopConserves (codecs : Codecs) (p : Peer) (sends : List Action) (p' : Peer) : Prop :=
  ∃ calls, FlushLoop codecs p calls sends p' ∧ calls.length ≤ p.commands.length ∧
    p.commands = (calls.map (removed codecs)).flatten ++ p'.commands

theorem Balanced.flush (h : Balanced p) :
    Balanced (p.flush codecs).2 ∧ LoopConserves codecs p (p.flush codecs).1 (p.flush codecs).2 := by
  obtain ⟨calls, hl⟩ := flushLoop_of_drains (drains_flush codecs p)
  obtain ⟨hb, hlen, hc⟩ := hl.conserves h
  exact ⟨hb, calls, hl, hlen, hc⟩

/-! ## The two flush loops of a session -/

/-- The user's packet is queued, then the queue is flushed. -/
theorem process_event_ok {event : Packet} {actions : List Action}
    (h : p.process_event codecs event = .ok (actions, p')) :
    ∃ q, p.record_send.2.enqueue_packet event = .ok q ∧
      actions = (if p.record_send.1 then [.Emit (.Connect p.remote_address)] else []) ++ (q.flush codecs).1 ∧
      p' = (q.flush codecs).2 := by
  unfold process_event at h
  simp only [bind, Except.bind] at h
  split at h
  · cases h
  · rename_i q he
    cases h
    exact ⟨q, he, rfl, rfl⟩

/-- The peer `update` flushes: a keepalive may have been queued. -/
def before_update_flush (p : Peer) (time : Instant) (elapsed : Duration) : Peer :=
  let p := p.update_bandwidth_window time
  if p.heartbeat_due time then p.enqueue_ping_command (.ofNat (as_millis elapsed)) else p

theorem update_eq (codecs : Codecs) (p : Peer) (time : Instant) (elapsed : Duration) (draw : ProbeDraw) :
    p.update codecs time elapsed draw =
      (((p.before_update_flush time elapsed).flush codecs).1,
        ((p.before_update_flush time elapsed).flush codecs).2.handle_pmtu time draw) := rfl

theorem before_update_flush_queuesAll (p : Peer) (time : Instant) (elapsed : Duration) :
    QueuesAll IsControl p (p.before_update_flush time elapsed) := by
  have hb : QueuesAll IsControl p (p.update_bandwidth_window time) := queuesAll_of_eq rfl rfl rfl
  unfold before_update_flush
  dsimp only
  split
  · exact hb.trans (enqueue_command_queuesAll _ trivial)
  · exact hb

/-- The peer flushed is balanced if the peer called was. -/
theorem Balanced.before_event_flush {q : Peer} {event : Packet} (h : Balanced p)
    (hq : p.record_send.2.enqueue_packet event = .ok q) : Balanced q :=
  (h.of_queuesAll (record_send_queuesAll p)).of_queuesAll (enqueue_packet_queuesAll hq)

theorem Balanced.before_update_flush (h : Balanced p) (time : Instant) (elapsed : Duration) :
    Balanced (p.before_update_flush time elapsed) :=
  h.of_queuesAll (before_update_flush_queuesAll p time elapsed)

/-! ## Reachable peers -/

theorem gather_dropped_packets_writes (p : Peer) :
    ∃ st, p.gather_dropped_packets.2 =
      { p with acknowledge_handler := p.acknowledge_handler.dropped_packets.2, statistics := st } := by
  have key : ∀ (dropped : List SentPacket) (p : Peer),
      ∃ st, dropped.foldl (fun p _ => p.record_packet_lost) p = { p with statistics := st } := by
    intro dropped
    induction dropped with
    | nil => exact fun p => ⟨_, rfl⟩
    | cons d dropped ih =>
      intro p
      obtain ⟨st, hst⟩ := ih p.record_packet_lost
      exact ⟨st, hst⟩
  obtain ⟨st, hst⟩ := key p.acknowledge_handler.dropped_packets.1
    { p with acknowledge_handler := p.acknowledge_handler.dropped_packets.2 }
  exact ⟨st, hst⟩

/-- One call of a public operation of a peer, or of the session it is. -/
inductive Call (codecs : Codecs) : Peer → Peer → Prop where
  | record_send (p : Peer) : Call codecs p p.record_send.2
  | record_recv (p : Peer) : Call codecs p p.record_recv.2
  | disconnect (p : Peer) : Call codecs p p.disconnect
  | initiate_connect (p : Peer) : Call codecs p p.initiate_connect
  | update_throttle (p : Peer) (t : Instant) : Call codecs p (p.update_throttle t).2
  | gather_dropped_packets (p : Peer) : Call codecs p p.gather_dropped_packets.2
  | handle_pmtu (p : Peer) (t : Instant) (draw : ProbeDraw) : Call codecs p (p.handle_pmtu t draw)
  | set_window_size {p p' : Peer} {w : UInt32} : p.set_window_size w = .ok p' → Call codecs p p'
  | record_reliable_data_sent (p : Peer) (n : UInt32) : Call codecs p (p.record_reliable_data_sent n)
  | record_reliable_data_acked (p : Peer) (n : UInt32) : Call codecs p (p.record_reliable_data_acked n)
  | adjust_window_size (p : Peer) : Call codecs p p.adjust_window_size
  | update_bandwidth_window (p : Peer) (t : Instant) : Call codecs p (p.update_bandwidth_window t)
  | record_bytes_sent (p : Peer) (n : UInt32) : Call codecs p (p.record_bytes_sent n)
  | record_bytes_received (p : Peer) (n : UInt32) : Call codecs p (p.record_bytes_received n)
  | next_unsequenced_group (p : Peer) : Call codecs p p.next_unsequenced_group.2
  | mark_unsequenced_received (p : Peer) (g : UInt16) : Call codecs p (p.mark_unsequenced_received g)
  | cleanup_stale_fragments (p : Peer) (t : Instant) : Call codecs p (p.cleanup_stale_fragments t)
  | enqueue_command (p : Peer) (c : ProtocolCommand) : Call codecs p (p.enqueue_command c).2
  | enqueue_ack_command (p : Peer) (t : Option UInt32) : Call codecs p (p.enqueue_ack_command t)
  | drain_commands (p : Peer) : Call codecs p p.drain_commands.2
  | enqueue_reliable_data {p p' : Peer} {ch : UInt8} {data : Bytes} {o : Bool} {s : UInt16} :
      p.enqueue_reliable_data ch data o = .ok (s, p') → Call codecs p p'
  | enqueue_unreliable_data {p p' : Peer} {ch : UInt8} {data : Bytes} {s : UInt16} :
      p.enqueue_unreliable_data ch data = .ok (s, p') → Call codecs p p'
  | encode_queued_commands (p : Peer) : Call codecs p (p.encode_queued_commands codecs).1
  | encode_queued_commands_bounded (p : Peer) (max_size : Nat) :
      Call codecs p (p.encode_queued_commands_bounded codecs max_size).1
  | process_command {p p' : Peer} {c : ProtocolCommand} {t : Instant} {draw : UInt16} {r : Processed} :
      p.process_command c t draw = .ok (p', r) → Call codecs p p'
  | process_command_packet {p p' : Peer} {data : Bytes} {t : Instant} {draw : UInt16} {r : Processed} :
      p.process_command_packet codecs data t draw = .ok (p', r) → Call codecs p p'
  | process_packet {p p' : Peer} {data : Bytes} {t : Instant} {draw : UInt16} {actions : List Action} :
      p.process_packet codecs data t draw = .ok (actions, p') → Call codecs p p'
  | process_event {p p' : Peer} {event : Packet} {actions : List Action} :
      p.process_event codecs event = .ok (actions, p') → Call codecs p p'
  | update (p : Peer) (t : Instant) (elapsed : Duration) (draw : ProbeDraw) :
      Call codecs p (p.update codecs t elapsed draw).2
  -- the public fields, and what `statistics_mut` lends
  | assign (p : Peer) (heard sent : Instant) (addr : SocketAddr) (st : PeerStatistics) :
      Call codecs p { p with last_heard := heard, last_sent := sent, remote_address := addr, statistics := st }

theorem Call.balanced (h : Call codecs p p') (hb : Balanced p) : Balanced p' := by
  cases h with
  | record_send => exact hb.of_queuesAll (record_send_queuesAll p)
  | record_recv => exact hb.of_queuesAll (record_recv_answers p)
  | disconnect => exact hb.of_queuesAll (disconnect_queuesAll p)
  | initiate_connect => exact hb.of_queuesAll (initiate_connect_queuesAll p)
  | handle_pmtu => exact hb.of_queuesAll (handle_pmtu_queuesAll ..)
  | gather_dropped_packets =>
    obtain ⟨st, he⟩ := gather_dropped_packets_writes p
    rw [he]
    exact hb.of_eq rfl rfl rfl
  | set_window_size h =>
    simp only [Peer.set_window_size, bind, Except.bind] at h
    split at h
    · cases h
    · cases h
      exact hb.of_eq rfl rfl rfl
  | enqueue_command => exact hb.of_queuesAll (K := fun _ => True) (enqueue_command_queuesAll _ trivial)
  | enqueue_ack_command => exact hb.of_queuesAll (enqueue_ack_command_answers ..)
  | drain_commands => exact balanced_drained p
  | enqueue_reliable_data h => exact hb.of_queuesAll (enqueue_reliable_data_queuesAll h)
  | enqueue_unreliable_data h => exact hb.of_queuesAll (enqueue_unreliable_data_queuesAll h)
  | encode_queued_commands =>
    obtain ⟨st, hst⟩ := finish_packet_writes codecs p.drained ⟨p.commands⟩
    rw [encode_queued_commands_eq, hst]
    exact (balanced_drained p).of_eq rfl rfl rfl
  | encode_queued_commands_bounded max_size => exact (hb.after_encode _ max_size).1
  | process_command h => exact hb.of_queuesAll (process_command_answers h)
  | process_command_packet h => exact hb.of_queuesAll (process_command_packet_answers h)
  | process_packet h => exact hb.of_queuesAll (process_packet_answers h)
  | process_event h =>
    obtain ⟨q, hq, -, rfl⟩ := process_event_ok h
    exact (hb.before_event_flush hq).flush.1
  | update t elapsed draw =>
    rw [update_eq]
    exact ((hb.before_update_flush t elapsed).flush.1).of_queuesAll (handle_pmtu_queuesAll ..)
  | _ => exact hb.of_eq rfl rfl rfl

/-- The peers that calls lead to from a new one. -/
inductive Reachable (codecs : Codecs) : Peer → Prop where
  | new (addr : SocketAddr) (config : Config) (time : Instant) (draw : PeerDraw) :
      Reachable codecs (.new addr config time draw)
  | call {p p' : Peer} : Reachable codecs p → Call codecs p p' → Reachable codecs p'

theorem Reachable.balanced (h : Reachable codecs p) : Balanced p := by
  induction h with
  | new addr config time draw => exact balanced_new addr config time draw
  | call _ hc ih => exact hc.balanced ih

/-- The counter is the data in the queue and within its limit after every run
of calls, and there is always room for a command without data. -/
theorem waiting_data_exact (h : Reachable codecs p) :
    p.total_waiting_data = (p.commands.map command_data_size).sum ∧
    (0 < p.config.max_waiting_data → p.total_waiting_data ≤ p.config.max_waiting_data) ∧
    ∀ c, command_data_size c = 0 → (p.enqueue_command c).2.commands = p.commands ++ [c] := by
  have hb := h.balanced
  refine ⟨hb.total, fun hlimit => ?_, fun c hc => ?_⟩
  · have := hb.bounded
    omega
  · have hadmits : p.Admits (command_data_size c) := by
      rw [hc]
      exact hb.bounded
    rw [enqueue_command_of_admits hadmits]
    rfl

/-- A peer that may hold four bytes and holds three of them. -/
def nearly_full : Peer :=
  ((Peer.new ⟨.V4 0, 0⟩ { Config.default with max_waiting_data := 4 } 0 ⟨0, 0, 0⟩).enqueue_command
    (.SendReliable 0 0 true (.from_vec [1, 2, 3]))).2

theorem nearly_full_reachable : Reachable .checked nearly_full :=
  .call (.new ⟨.V4 0, 0⟩ { Config.default with max_waiting_data := 4 } 0 ⟨0, 0, 0⟩)
    (.enqueue_command _ (.SendReliable 0 0 true (.from_vec [1, 2, 3])))

theorem waiting_data_exact_nearly_full :
    nearly_full.total_waiting_data = 3 ∧ nearly_full.total_waiting_data ≤ 4 ∧
      (nearly_full.enqueue_command (.Ping 7)).2.commands = nearly_full.commands ++ [.Ping 7] := by
  obtain ⟨htotal, hlimit, hcontrol⟩ := waiting_data_exact nearly_full_reachable
  exact ⟨htotal, hlimit (by decide), hcontrol (.Ping 7) rfl⟩

/-- Flushing takes prefixes off the queue of a reachable peer, and stops. -/
theorem flush_conserves_queue (h : Reachable codecs p) :
    (∀ max_size p' bytes, p.encode_queued_commands_bounded codecs max_size = (p', .ok (some bytes)) →
      ∃ s, s ≠ [] ∧ p.commands = s ++ p'.commands) ∧
    (∀ event actions p', p.process_event codecs event = .ok (actions, p') →
      ∃ q sends, p.record_send.2.enqueue_packet event = .ok q ∧
        actions = (if p.record_send.1 then [.Emit (.Connect p.remote_address)] else []) ++ sends ∧
        LoopConserves codecs q sends p') ∧
    ∀ time elapsed draw, ∃ p', (p.update codecs time elapsed draw).2 = p'.handle_pmtu time draw ∧
      LoopConserves codecs (p.before_update_flush time elapsed) (p.update codecs time elapsed draw).1 p' := by
  have hb := h.balanced
  refine ⟨fun max_size p' bytes he => ?_, fun event actions p' he => ?_, fun time elapsed draw => ?_⟩
  · obtain ⟨-, s, hs, hne⟩ := hb.after_encode codecs max_size
    rw [after_encode, he] at hs
    exact ⟨s, hne bytes (by rw [he]), hs⟩
  · obtain ⟨q, hq, ha, rfl⟩ := process_event_ok he
    exact ⟨q, _, hq, ha, (hb.before_event_flush hq).flush.2⟩
  · rw [update_eq]
    exact ⟨_, rfl, (hb.before_update_flush time elapsed).flush.2⟩

/-- A fresh peer with two messages queued, each as large as a datagram of 30
bytes takes. -/
def two_queued : Peer :=
  (((Peer.new ⟨.V4 0, 0⟩ Config.default 0 ⟨0, 0, 0⟩).enqueue_command
      (.SendUnreliable 0 (.from_vec (List.replicate 10 1)))).2
    |>.enqueue_command (.SendUnreliable 0 (.from_vec (List.replicate 10 2)))).2

theorem two_queued_reachable : Reachable .checked two_queued :=
  .call (.call (.new ⟨.V4 0, 0⟩ Config.default 0 ⟨0, 0, 0⟩) (.enqueue_command _ _)) (.enqueue_command _ _)

/-- They go out in two datagrams, in their order. -/
theorem flush_conserves_queue_two :
    ∃ p₁ bytes₁ s₁ p₂ bytes₂ s₂, two_queued.encode_queued_commands_bounded .checked 30 = (p₁, .ok (some bytes₁)) ∧
      p₁.encode_queued_commands_bounded .checked 30 = (p₂, .ok (some bytes₂)) ∧ p₂.commands = [] ∧
      s₁ ≠ [] ∧ s₂ ≠ [] ∧ two_queued.commands = s₁ ++ s₂ := by
  obtain ⟨p₁, bytes₁, he₁⟩ : ∃ p₁ bytes₁,
      two_queued.encode_queued_commands_bounded .checked 30 = (p₁, .ok (some bytes₁)) :=
    encode_bounded_total Codecs.checked_total (by decide +kernel) (fun _ => by decide)
  have hp₁ : p₁ = (two_queued.encode_queued_commands_bounded .checked 30).1 := (congrArg Prod.fst he₁).symm
  obtain ⟨p₂, bytes₂, he₂⟩ : ∃ p₂ bytes₂, p₁.encode_queued_commands_bounded .checked 30 = (p₂, .ok (some bytes₂)) :=
    encode_bounded_total Codecs.checked_total (by rw [hp₁]; decide +kernel) (fun _ => by rw [hp₁]; decide +kernel)
  have hp₂ : p₂ = (p₁.encode_queued_commands_bounded .checked 30).1 := (congrArg Prod.fst he₂).symm
  have hempty : p₂.commands = [] := by
    rw [hp₂, hp₁]
    decide +kernel
  have hreachable : Reachable .checked p₁ := by
    rw [hp₁]
    exact .call two_queued_reachable (.encode_queued_commands_bounded _ _)
  obtain ⟨s₁, hs₁, hcmds₁⟩ := (flush_conserves_queue two_queued_reachable).1 30 p₁ bytes₁ he₁
  obtain ⟨s₂, hs₂, hcmds₂⟩ := (flush_conserves_queue hreachable).1 30 p₂ bytes₂ he₂
  rw [hempty, List.append_nil] at hcmds₂
  exact ⟨p₁, bytes₁, s₁, p₂, bytes₂, s₂, he₁, he₂, hempty, hs₁, hs₂, hcmds₂ ▸ hcmds₁⟩

end Peer

end Bitfold
