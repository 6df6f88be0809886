import Bitfold.Flush
import Bitfold.Receiving
/-!
# Accounting for reliable messages

The packets in flight ought to be the reliable messages that were sent and
not acknowledged yet. What goes out and what is acknowledged is logged beside
the peer (`Ledger`) and tallied; the peer itself never enters a message into
`sent_packets`, so its count agrees with the tally only while every reliable
message that went out has been acknowledged.
-/

namespace Bitfold

open Lib

/-! ## What is observed of a session -/

/-- What bears on the messages in flight. -/
inductive Observed where
  | Sent (command : ProtocolCommand)
  | Acknowledged (sequence : UInt16) (received_mask : UInt32)
  | Reported (sequence : UInt16)

/-- The sequences of the messages in flight, and how many fragments of the
group that is going out have gone out. -/
structure Tally where
  progress : Nat
  outstanding : List UInt16

/-- A message counts from its last fragment on, if all those before it went
out, until an acknowledgment names it or it is reported dropped. -/
def Tally.observe (tally : Tally) : Observed → Tally
  | .Sent (.SendReliable _ sequence _ _) => { tally with outstanding := tally.outstanding ++ [sequence] }
  | .Sent (.SendFragment _ sequence _ fragment_id fragment_count _) =>
    let progress :=
      if fragment_id = 0 then 1 else if fragment_id.toNat = tally.progress then tally.progress + 1 else 0
    if progress = fragment_count.toNat then ⟨0, tally.outstanding ++ [sequence]⟩
    else { tally with progress }
  | .Sent _ => tally
  | .Acknowledged sequence received_mask =>
    { tally with
      outstanding := tally.outstanding.filter fun s => !AcknowledgmentHandler.names sequence received_mask s }
  | .Reported sequence => { tally with outstanding := tally.outstanding.filter (· != sequence) }

/-- The sequences in flight after what was observed. -/
def outstanding (log : List Observed) : List UInt16 := (log.foldl Tally.observe ⟨0, []⟩).outstanding

namespace Peer

variable {codecs : Codecs} {p p' : Peer}

/-- One round of the flush loop, yielding the commands of its datagram. -/
def flush_next_commands (codecs : Codecs) (p : Peer) : Option (List ProtocolCommand) × Peer :=
  match p.flush_next codecs with
  | (some _, p') => (some (p.taken p.datagram_cap), p')
  | (none, p') => (none, p')

/-- The commands of the datagrams a flush sends. -/
def flushed (codecs : Codecs) (p : Peer) : List ProtocolCommand :=
  (drain (flush_next_commands codecs) p.commands.length p).1.flatten

/-- The commands of a datagram that are processed: all up to an error. -/
def handled (time : Instant) (draw : UInt16) : List ProtocolCommand → Peer → List ProtocolCommand
  | [], _ => []
  | command :: commands, p =>
    command ::
      match p.process_command command time draw with
      | .ok (p', .ok _) => handled time draw commands p'
      | _ => []

/-- The commands `process_packet` processes. -/
def packet_commands (codecs : Codecs) (p : Peer) (payload : Bytes) (time : Instant) (draw : UInt16) :
    List ProtocolCommand :=
  let p := p.update_bandwidth_window time
  if payload.isEmpty || !p.can_receive_within_bandwidth then []
  else
    let p := (p.record_bytes_received (.ofNat payload.length)).record_data_received payload.length
    match open_datagram codecs p.config payload with
    | .ok packet => handled time draw packet.commands p.record_packet_received
    | .error _ => []

/-- The sequences `gather_dropped_packets` reports. -/
def reported (p : Peer) : List UInt16 :=
  p.acknowledge_handler.sent_packets.keys.filter p.acknowledge_handler.is_dropped

end Peer

/-- A call that drives a session. -/
inductive SessionCall where
  | process_event (event : Packet)
  | process_packet (payload : Bytes) (time : Instant) (draw : UInt16)
  | update (time : Instant) (elapsed : Duration) (draw : ProbeDraw)
  | gather_dropped_packets

/-- A peer, and what was observed of it. -/
structure Ledger where
  peer : Peer
  log : List Observed

/-- The acknowledgments among processed commands. -/
def acknowledged (commands : List ProtocolCommand) : List Observed :=
  commands.filterMap fun
    | .Acknowledge sequence received_mask _ => some (.Acknowledged sequence received_mask)
    | _ => none

namespace Ledger

def step (codecs : Codecs) (l : Ledger) : SessionCall → Outcome Ledger
  | .process_event event => do
    let queued ← l.peer.record_send.2.enqueue_packet event
    let (_, peer) ← l.peer.process_event codecs event
    return ⟨peer, l.log ++ (queued.flushed codecs).map .Sent⟩
  | .process_packet payload time draw => do
    let (_, peer) ← l.peer.process_packet codecs payload time draw
    return ⟨peer, l.log ++ acknowledged (l.peer.packet_commands codecs payload time draw)⟩
  | .update time elapsed draw =>
    .ok ⟨(l.peer.update codecs time elapsed draw).2,
      l.log ++ ((l.peer.before_update_flush time elapsed).flushed codecs).map .Sent⟩
  | .gather_dropped_packets =>
    .ok ⟨l.peer.gather_dropped_packets.2, l.log ++ l.peer.reported.map .Reported⟩

/-- The count of packets in flight is the number of messages in flight. -/
def Exact (l : Ledger) : Prop := l.peer.packets_in_flight.toNat = (outstanding l.log).length

end Ledger

/-! ## Nothing is tracked -/

namespace Peer

variable {codecs : Codecs} {p p' : Peer}

/-- Nothing was ever entered as sent. -/
def Untracked (p : Peer) : Prop := p.acknowledge_handler.sent_packets = ∅

theorem untracked_new (addr : SocketAddr) (config : Config) (time : Instant) (draw : PeerDraw) :
    Untracked (.new addr config time draw) := by
  unfold Untracked Peer.new new_handler
  dsimp only
  split <;> rfl

theorem Untracked.process_commands {t : Instant} {draw : UInt16} {cmds : List ProtocolCommand}
    {packets : IncomingPackets} {r : Processed} (h : Untracked p)
    (he : process_commands t draw cmds p packets = .ok (p', r)) : Untracked p' := by
  induction cmds generalizing p packets with
  | nil =>
    cases he
    exact h
  | cons c cmds ih =>
    have hstep : ∀ {q : Peer} {r : Processed}, p.process_command c t draw = .ok (q, r) → Untracked q := by
      intro q r hq
      unfold Untracked
      rw [(process_command_hears hq).handler]
      exact AcknowledgmentHandler.hear_sent_empty h c t
    rw [Peer.process_commands] at he
    split at he
    · cases he
    · rename_i hc
      cases he
      exact hstep hc
    · rename_i hc
      exact ih (hstep hc) he

theorem Untracked.process_packet {payload : Bytes} {t : Instant} {draw : UInt16} {actions : List Action}
    (h : Untracked p) (he : p.process_packet codecs payload t draw = .ok (actions, p')) : Untracked p' := by
  unfold Peer.process_packet at he
  split at he
  · cases he
    exact h
  · dsimp only at he
    split at he
    · cases he
      exact h
    · -- the commands are processed after the bytes are counted
      have hpacket : ∀ {q : Peer} {r : Processed},
          ((p.update_bandwidth_window t).record_bytes_received (.ofNat payload.length)).process_command_packet
            codecs payload t draw = .ok (q, r) → Untracked q := by
        intro q r hq
        unfold process_command_packet at hq
        dsimp only at hq
        split at hq
        · cases hq
        · cases hq
          exact h
        · refine Untracked.process_commands ?_ hq
          change p.acknowledge_handler.sent_packets = ∅
          exact h
      split at he
      · cases he
      · rename_i q packets hq
        cases he
        obtain ⟨st, hst⟩ := record_recv_writes q
        have hu : Untracked q := hpacket hq
        rw [hst]
        exact hu
      · rename_i hq
        cases he
        exact hpacket hq

theorem Untracked.process_event {event : Packet} {actions : List Action} (h : Untracked p)
    (he : p.process_event codecs event = .ok (actions, p')) : Untracked p' := by
  obtain ⟨q, hq, -, rfl⟩ := process_event_ok he
  obtain ⟨n, cq, st, b, hflush⟩ := flush_writes codecs q
  obtain ⟨n', cq', u, sq, hqueue⟩ := enqueue_packet_writes hq
  obtain ⟨st', cq'', hsend⟩ := record_send_writes p
  rw [hflush, hqueue, hsend]
  exact h

theorem Untracked.update (h : Untracked p) (t : Instant) (elapsed : Duration) (draw : ProbeDraw) :
    Untracked (p.update codecs t elapsed draw).2 := by
  have hbefore : (p.before_update_flush t elapsed).Untracked := by
    unfold before_update_flush Untracked
    dsimp only
    split
    · rw [enqueue_ping_command, enqueue_command_handler]
      exact h
    · exact h
  obtain ⟨n, cq, pm, hprobe⟩ := handle_pmtu_writes ((p.before_update_flush t elapsed).flush codecs).2 t draw
  obtain ⟨n', cq', st, b, hflush⟩ := flush_writes codecs (p.before_update_flush t elapsed)
  rw [update_eq, hprobe, hflush]
  exact hbefore

theorem Untracked.gather_dropped_packets (h : Untracked p) : Untracked p.gather_dropped_packets.2 := by
  obtain ⟨st, he⟩ := gather_dropped_packets_writes p
  have hkeys : (∅ : Std.ExtTreeMap UInt16 SentPacket).keys = [] := Std.ExtTreeMap.keys_eq_nil_iff.2 rfl
  have hsent : p.acknowledge_handler.sent_packets = ∅ := h
  rw [he]
  simp [Untracked, AcknowledgmentHandler.dropped_packets, hsent, hkeys]

theorem Untracked.packets_in_flight (h : Untracked p) : p.packets_in_flight = 0 := by
  rw [Peer.packets_in_flight, AcknowledgmentHandler.packets_in_flight,
    show p.acknowledge_handler.sent_packets = ∅ from h]
  rfl

end Peer

namespace Ledger

variable {codecs : Codecs} {l l' : Ledger}

/-- No call enters a message as sent. -/
theorem step_untracked {call : SessionCall} (h : l.peer.Untracked) (he : l.step codecs call = .ok l') :
    l'.peer.Untracked := by
  cases call with
  | process_event event =>
    obtain ⟨queued, -, he⟩ := bind_eq_ok he
    obtain ⟨⟨actions, q⟩, hq, he⟩ := bind_eq_ok he
    cases he
    exact h.process_event hq
  | process_packet payload t draw =>
    obtain ⟨⟨actions, q⟩, hq, he⟩ := bind_eq_ok he
    cases he
    exact h.process_packet hq
  | update t elapsed draw =>
    cases he
    exact h.update t elapsed draw
  | gather_dropped_packets =>
    cases he
    exact h.gather_dropped_packets

/-- Everything that may be called on a session, in any order. -/
abbrev LedgerRun (codecs : Codecs) := Run fun (l : Ledger) call l' => l.step codecs call = .ok l'

/-- Whatever was called, the count of packets in flight is exact iff no reliable
message that went out still waits for its acknowledgment. -/
theorem packets_in_flight_exact_iff {addr : SocketAddr} {config : Config} {time : Instant} {draw : PeerDraw}
    {steps : List (Ledger × SessionCall)} (h : LedgerRun codecs ⟨.new addr config time draw, []⟩ steps l) :
    Exact l ↔ outstanding l.log = [] := by
  have huntracked : l.peer.Untracked :=
    h.invariant (I := fun l => l.peer.Untracked) (Peer.untracked_new addr config time draw)
      fun _ _ _ hu hs => step_untracked hu hs
  unfold Exact
  rw [huntracked.packets_in_flight, ← List.length_eq_zero_iff]
  exact eq_comm

/-- A fresh peer and an empty log. -/
def fresh : Ledger := ⟨.new ⟨.V4 0, 0⟩ Config.default 0 ⟨0, 0, 0⟩, []⟩

/-- A packet of two bytes on channel 0. -/
def two_bytes (delivery : DeliveryGuarantee) : Packet := ⟨⟨.V4 0, 0⟩, [1, 2], delivery, .None, 0⟩

/-- An acknowledgment of the first message. -/
def first_acknowledged : Bytes :=
  Codecs.append_checksum_in_place .checked (0 :: CommandEncoder.encode_packet ⟨[.Acknowledge 0 0 none]⟩)

/-- A reliable packet is sent, and then acknowledged: the count is wrong, and
right again. -/
theorem packets_in_flight_exact_acknowledged :
    ∃ l l', fresh.step .checked (.process_event (two_bytes .Reliable)) = .ok l ∧ ¬ Exact l ∧
      l.step .checked (.process_packet first_acknowledged 0 0) = .ok l' ∧ Exact l' := by
  have hboth : (do
      let l ← fresh.step .checked (.process_event (two_bytes .Reliable))
      let l' ← l.step .checked (.process_packet first_acknowledged 0 0)
      return (outstanding l.log, outstanding l'.log) : Outcome (List UInt16 × List UInt16)) = .ok ([0], []) := by
    decide +kernel
  obtain ⟨l, hl, hrest⟩ := bind_eq_ok hboth
  obtain ⟨l', hl', hlogs⟩ := bind_eq_ok hrest
  simp only [pure, Except.pure, Except.ok.injEq, Prod.mk.injEq] at hlogs
  have hrun : LedgerRun .checked fresh [(fresh, .process_event (two_bytes .Reliable))] l := .next .start hl
  refine ⟨l, l', hl, fun hexact => ?_, hl', (packets_in_flight_exact_iff (hrun.next hl')).2 hlogs.2⟩
  rw [packets_in_flight_exact_iff hrun, hlogs.1] at hexact
  cases hexact

/-- One reliable packet is sent: it is outstanding, but not in flight. -/
theorem packets_in_flight_misses_one :
    ∃ l, fresh.step .checked (.process_event (two_bytes .Reliable)) = .ok l ∧ outstanding l.log = [0] ∧
      l.peer.packets_in_flight = 0 ∧ ¬ Exact l := by
  have h : (fresh.step .checked (.process_event (two_bytes .Reliable))).map
      (fun l => (outstanding l.log, l.peer.packets_in_flight)) = .ok ([0], 0) := by decide +kernel
  cases hs : fresh.step .checked (.process_event (two_bytes .Reliable)) with
  | error e =>
    rw [hs] at h
    cases h
  | ok l =>
    rw [hs] at h
    simp only [Except.map, Except.ok.injEq, Prod.mk.injEq] at h
    refine ⟨l, rfl, h.1, h.2, ?_⟩
    rw [Exact, h.1, h.2]
    decide

end Ledger

end Bitfold
