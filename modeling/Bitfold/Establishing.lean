import Bitfold.Atomicity
import Bitfold.Delivery
import Bitfold.Flush
/-!
# How a session becomes established

The connection state as a function of the commands that come in, and what the
operations of a session make of it. The server's side of the handshake should
take three datagrams; it takes one, since `record_recv` counts the datagram
with the `Connect` as the one that answers the `VerifyConnect`.
-/

namespace Bitfold

open Lib

/-! ## The state after some commands -/

namespace PeerState

/-- The state a command leads to, if it is accepted. -/
def after_command (s : PeerState) : ProtocolCommand → PeerState
  | .Disconnect _ => Zombie
  | .Connect .. => if s = Idle then AcknowledgingConnect else s
  | .VerifyConnect .. => if s = Connecting then ConnectionSucceeded else s
  | _ => s

def after_commands (s : PeerState) (cmds : List ProtocolCommand) : PeerState := cmds.foldl after_command s

/-- The state after `record_recv`. -/
def after_recv (handshake : Bool) : PeerState → PeerState
  | Idle => if !handshake then Connected else Idle
  | Connecting => if !handshake then Connected else Connecting
  | AcknowledgingConnect => Connected
  | s => s

/-- Does `record_recv` find the connection newly established? -/
def announces (handshake : Bool) (s : PeerState) : Bool := !s.is_established && (s.after_recv handshake).is_established

/-- The state after `record_send`. -/
def after_send : PeerState → PeerState
  | Idle => Connecting
  | ConnectionSucceeded => Connected
  | s => s

end PeerState

/-- Is it a `Disconnect`? -/
def is_disconnect : ProtocolCommand → Bool
  | .Disconnect _ => true
  | _ => false

/-- Is it a `Connect`? -/
def is_connect : ProtocolCommand → Bool
  | .Connect .. => true
  | _ => false

namespace PeerState

theorem after_commands_zombie (cmds : List ProtocolCommand) : after_commands Zombie cmds = Zombie := by
  induction cmds with
  | nil => rfl
  | cons c cmds ih => cases c <;> exact ih

/-- A `Disconnect` ends it, wherever it stands. -/
theorem after_commands_disconnect {cmds : List ProtocolCommand} (h : cmds.any is_disconnect = true) (s : PeerState) :
    after_commands s cmds = Zombie := by
  induction cmds generalizing s with
  | nil => cases h
  | cons c cmds ih =>
    rw [List.any_cons, Bool.or_eq_true] at h
    rcases h with h | h
    · cases c with
      | Disconnect n => exact after_commands_zombie cmds
      | _ => cases h
    · exact ih h _

/-- Past the first steps only a `Disconnect` counts. -/
theorem after_commands_settled {s : PeerState} (hi : s ≠ Idle) (hc : s ≠ Connecting) {cmds : List ProtocolCommand}
    (h : cmds.any is_disconnect = false) : after_commands s cmds = s := by
  induction cmds with
  | nil => rfl
  | cons c cmds ih =>
    rw [List.any_cons, Bool.or_eq_false_iff] at h
    have hstay : after_command s c = s := by
      cases c with
      | Disconnect n => cases h.1
      | Connect chs m v sid cid => exact if_neg hi
      | VerifyConnect pid chs m isid osid w => exact if_neg hc
      | _ => rfl
    rw [after_commands, List.foldl_cons, hstay]
    exact ih h.2

/-- An idle peer waits for a `Connect`. -/
theorem after_commands_idle {cmds : List ProtocolCommand} (h : cmds.any is_disconnect = false) :
    after_commands Idle cmds = if cmds.any is_connect then AcknowledgingConnect else Idle := by
  induction cmds with
  | nil => rfl
  | cons c cmds ih =>
    rw [List.any_cons, Bool.or_eq_false_iff] at h
    cases c with
    | Disconnect n => cases h.1
    | Connect chs m v sid cid => exact after_commands_settled (s := AcknowledgingConnect) (by decide) (by decide) h.2
    | _ => exact ih h.2

/-- Sending establishes nothing. -/
theorem after_send_established (s : PeerState) : s.after_send.is_established = s.is_established := by
  cases s <;> rfl

end PeerState

namespace Peer

variable {p q r : Peer} {codecs : Codecs} {t : Instant} {draw : UInt16}

/-- The session of `p` moved on to the state `s`. -/
structure Moves (p q : Peer) (s : PeerState) : Prop where
  state : q.state = s
  handshake : q.config.use_connection_handshake = p.config.use_connection_handshake
  address : q.remote_address = p.remote_address

theorem SameSession.moves (h : SameSession p q) : Moves p q p.state := ⟨h.state, h.handshake, h.address⟩

theorem Moves.trans {s s' : PeerState} (h : Moves p q s) (h' : Moves q r s') : Moves p r s' :=
  ⟨h'.state, h'.handshake.trans h.handshake, h'.address.trans h.address⟩

theorem process_command_moves {c : ProtocolCommand} {packets : IncomingPackets}
    (h : p.process_command c t draw = .ok (q, .ok packets)) : Moves p q (p.state.after_command c) := by
  by_cases hc : p.Steers c
  · cases c with
    | Disconnect n =>
      cases h
      exact ⟨rfl, rfl, rfl⟩
    | Connect chs m v sid cid =>
      have hs : (p.heard t).state = .Idle := hc
      have hidle : p.state = .Idle := hc
      rw [process_command, process_connect, if_pos hs] at h
      cases h
      exact ⟨(if_pos hidle).symm, rfl, rfl⟩
    | VerifyConnect pid chs m isid osid w =>
      have hs : (p.heard t).state = .Connecting := hc
      have hconnecting : p.state = .Connecting := hc
      rw [process_command, process_verify_connect_eq hs] at h
      obtain ⟨f, -, h⟩ := map_eq_ok h
      split at h
      · cases h
        exact ⟨(if_pos hconnecting).symm, rfl, rfl⟩
      · cases h
    | _ => exact absurd hc id
  · obtain ⟨q', packets', he, hsame⟩ := process_command_other hc t draw
    rw [he] at h
    cases h
    have hstay : p.state.after_command c = p.state := by
      cases c with
      | Disconnect n => exact absurd trivial hc
      | Connect chs m v sid cid => exact if_neg hc
      | VerifyConnect pid chs m isid osid w => exact if_neg hc
      | _ => rfl
    rw [hstay]
    exact hsame.moves

theorem process_commands_moves {cmds : List ProtocolCommand} {acc packets : IncomingPackets}
    (h : process_commands t draw cmds p acc = .ok (q, .ok packets)) : Moves p q (p.state.after_commands cmds) := by
  induction cmds generalizing p acc with
  | nil =>
    cases h
    exact (sameSession_refl q).moves
  | cons c cmds ih =>
    obtain ⟨r, packets', hc, h⟩ := process_commands_cons h
    have hr := process_command_moves hc
    have hq := ih h
    rw [hr.state] at hq
    exact hr.trans hq

theorem process_commands_error_moves {cmds : List ProtocolCommand} {acc : IncomingPackets} {e : ErrorKind}
    (h : process_commands t draw cmds p acc = .ok (q, .error e)) : Moves p q p.state := by
  obtain ⟨hs, before, pid, isid, w, hm⟩ := process_commands_error h
  obtain ⟨r, packets, hsame, -, hall⟩ := process_commands_mismatch hs hm t draw
  rw [hall] at h
  obtain ⟨f, -, he⟩ := map_eq_ok h
  cases he
  exact ⟨hsame.state, hsame.handshake, hsame.address⟩

/-! ## The operations of a session -/

theorem record_recv_moves (p : Peer) :
    p.record_recv.1 = p.state.announces p.config.use_connection_handshake ∧
      Moves p p.record_recv.2 (p.state.after_recv p.config.use_connection_handshake) := by
  unfold record_recv PeerState.announces is_established
  cases hs : p.state with
  | Idle | Connecting =>
    dsimp only [PeerState.after_recv]
    split
    · exact ⟨rfl, rfl, rfl, rfl⟩
    · exact ⟨by simp [hs], hs, rfl, rfl⟩
  | AcknowledgingConnect => exact ⟨rfl, rfl, rfl, rfl⟩
  | _ => exact ⟨by simp [hs, PeerState.after_recv], hs, rfl, rfl⟩

/-- A session never becomes established by sending. -/
theorem record_send_moves (p : Peer) : p.record_send.1 = false ∧ Moves p p.record_send.2 p.state.after_send := by
  unfold record_send is_established
  cases hs : p.state with
  | Idle =>
    dsimp only
    split
    · unfold initiate_connect
      rw [if_pos hs]
      exact ⟨rfl, rfl, rfl, rfl⟩
    · exact ⟨rfl, rfl, rfl, rfl⟩
  | ConnectionSucceeded => exact ⟨rfl, rfl, rfl, rfl⟩
  | _ => exact ⟨by simp [hs], hs, rfl, rfl⟩

/-- Only datagrams. -/
def OnlySends (actions : List Action) : Prop := ∀ a ∈ actions, ∃ bytes, a = .Send bytes

theorem flush_sends (codecs : Codecs) (p : Peer) : OnlySends (p.flush codecs).1 := by
  refine (drains_flush codecs p).emits (I := fun _ => True) (fun _ _ => trivial) (fun s a s' _ h => ?_) trivial
  rw [flush_next_eq] at h
  split at h
  · split at h
    · cases h
      exact ⟨_, rfl⟩
    · cases h
  · cases h

theorem flush_moves (codecs : Codecs) (p : Peer) : Moves p (p.flush codecs).2 p.state := by
  obtain ⟨n, q, st, b, he⟩ := flush_writes codecs p
  rw [he]
  exact ⟨rfl, rfl, rfl⟩

theorem process_event_moves {event : Packet} {actions : List Action}
    (h : p.process_event codecs event = .ok (actions, q)) : OnlySends actions ∧ Moves p q p.state.after_send := by
  obtain ⟨hno, hsend⟩ := record_send_moves p
  obtain ⟨r, hr, rfl, rfl⟩ := process_event_ok h
  obtain ⟨n, cq, u, sq, rfl⟩ := enqueue_packet_writes hr
  rw [hno]
  have hflush := flush_moves codecs { p.record_send.2 with
    total_waiting_data := n, command_queue := cq, unsequenced_state := u, next_unreliable_sequence := sq }
  exact ⟨flush_sends codecs _, hflush.state.trans hsend.state, hflush.handshake.trans hsend.handshake,
    hflush.address.trans hsend.address⟩

theorem process_event_established {event : Packet} {actions : List Action}
    (h : p.process_event codecs event = .ok (actions, q)) :
    q.is_established = p.is_established := by
  obtain ⟨-, hm⟩ := process_event_moves h
  rw [is_established, hm.state]
  exact PeerState.after_send_established p.state

theorem update_moves (codecs : Codecs) (p : Peer) (time : Instant) (elapsed : Duration) (probe : ProbeDraw) :
    OnlySends (p.update codecs time elapsed probe).1 ∧ Moves p (p.update codecs time elapsed probe).2 p.state := by
  have hbefore : Moves p (p.before_update_flush time elapsed) p.state := by
    unfold before_update_flush
    dsimp only
    split
    · have hq := sameSession_enqueue_command (p.update_bandwidth_window time) (.Ping (.ofNat (as_millis elapsed)))
      exact ⟨hq.state, hq.handshake, hq.address⟩
    · exact ⟨rfl, rfl, rfl⟩
  have hflush := flush_moves codecs (p.before_update_flush time elapsed)
  obtain ⟨n, cq, pm, hp⟩ := handle_pmtu_writes ((p.before_update_flush time elapsed).flush codecs).2 time probe
  rw [update_eq, hp]
  exact ⟨flush_sends codecs _, hflush.state.trans hbefore.state, hflush.handshake.trans hbefore.handshake,
    hflush.address.trans hbefore.address⟩

/-- The session takes the datagram, and it opens to `packet`. -/
structure Taken (codecs : Codecs) (p : Peer) (payload : Bytes) (t : Instant) (packet : CommandPacket) : Prop where
  nonempty : payload ≠ []
  bandwidth : (p.update_bandwidth_window t).can_receive_within_bandwidth = true
  opened : open_datagram codecs p.config payload = .ok packet

/-- The peer that processes the commands of a datagram. -/
def taking (p : Peer) (t : Instant) (len : Nat) : Peer := (p.counted t len).received len

theorem moves_taking (p : Peer) (t : Instant) (len : Nat) : Moves p (p.taking t len) p.state := by
  unfold taking counted received update_bandwidth_window record_bytes_received record_data_received
    record_packet_received
  exact ⟨rfl, rfl, rfl⟩

@[simp] theorem counted_config (p : Peer) (t : Instant) (len : Nat) : (p.counted t len).config = p.config := by
  unfold counted update_bandwidth_window record_bytes_received
  rfl

/-- The event that announces a session. -/
def connect_event (announced : Bool) (addr : SocketAddr) : List Action :=
  if announced then [.Emit (.Connect addr)] else []

/-- The events of delivered packets. -/
def packet_events (packets : IncomingPackets) : List Action := packets.map fun incoming => .Emit (.Packet incoming.1)

theorem process_command_packet_succeeds {data : Bytes} {packets : IncomingPackets}
    (h : p.process_command_packet codecs data t draw = .ok (q, .ok packets)) :
    ∃ packet, open_datagram codecs p.config data = .ok packet ∧
      process_commands t draw packet.commands (p.received data.length) [] = .ok (q, .ok packets) := by
  match ho : open_datagram codecs p.config data with
  | .error (.panic e) =>
    rw [process_command_packet_panics ho] at h
    cases h
  | .error (.error e) =>
    rw [process_command_packet_unopened ho] at h
    cases h
  | .ok packet =>
    rw [process_command_packet_opened ho] at h
    exact ⟨packet, rfl, h⟩

theorem process_command_packet_fails {data : Bytes} {e : ErrorKind}
    (h : p.process_command_packet codecs data t draw = .ok (q, .error e)) :
    Moves p q p.state ∧ ∀ packet, open_datagram codecs p.config data = .ok packet → p.state = .Connecting := by
  match ho : open_datagram codecs p.config data with
  | .error (.panic e) =>
    rw [process_command_packet_panics ho] at h
    cases h
  | .error (.error e) =>
    rw [process_command_packet_unopened ho] at h
    cases h
    exact ⟨⟨rfl, rfl, rfl⟩, fun _ hp => by cases hp⟩
  | .ok packet =>
    rw [process_command_packet_opened ho] at h
    obtain ⟨hs, -⟩ := process_commands_error h
    have hm := process_commands_error_moves h
    exact ⟨⟨hm.state, hm.handshake, hm.address⟩, fun _ _ => hs⟩

/-- A datagram that is not empty and within the bandwidth is counted and
processed. An error is logged and dropped; otherwise it is noticed that the
remote peer was heard. -/
theorem process_packet_processes {payload : Bytes} {actions : List Action} (hne : payload ≠ [])
    (hb : (p.update_bandwidth_window t).can_receive_within_bandwidth = true)
    (h : p.process_packet codecs payload t draw = .ok (actions, q)) :
    (∃ e, (p.counted t payload.length).process_command_packet codecs payload t draw = .ok (q, .error e) ∧
      actions = []) ∨
    ∃ r packets, (p.counted t payload.length).process_command_packet codecs payload t draw = .ok (r, .ok packets) ∧
      actions = connect_event r.record_recv.1 q.remote_address ++ packet_events packets ∧ q = r.record_recv.2 := by
  unfold process_packet at h
  rw [if_neg (by simpa using hne)] at h
  dsimp only at h
  rw [if_neg (by rw [hb]; decide)] at h
  rw [show (p.update_bandwidth_window t).record_bytes_received (.ofNat payload.length) =
    p.counted t payload.length from rfl] at h
  cases hc : (p.counted t payload.length).process_command_packet codecs payload t draw with
  | error e =>
    rw [hc] at h
    cases h
  | ok x =>
    obtain ⟨r, result⟩ := x
    rw [hc] at h
    cases result with
    | error e =>
      cases h
      exact .inl ⟨e, rfl, rfl⟩
    | ok packets =>
      cases h
      exact .inr ⟨r, packets, rfl, rfl, rfl⟩

/-- A datagram is dropped or fails, and nothing comes of it; or its commands
are processed, and then it is noticed that the remote peer was heard. -/
theorem process_packet_cases {payload : Bytes} {actions : List Action}
    (h : p.process_packet codecs payload t draw = .ok (actions, q)) :
    (actions = [] ∧ Moves p q p.state ∧ ∀ packet, Taken codecs p payload t packet → p.state = .Connecting) ∨
    ∃ packet r packets, Taken codecs p payload t packet ∧
      process_commands t draw packet.commands (p.taking t payload.length) [] = .ok (r, .ok packets) ∧
      actions = connect_event ((p.state.after_commands packet.commands).announces p.config.use_connection_handshake)
        p.remote_address ++ packet_events packets ∧
      Moves p q ((p.state.after_commands packet.commands).after_recv p.config.use_connection_handshake) := by
  by_cases hne : payload = []
  · subst hne
    cases h
    exact .inl ⟨rfl, (sameSession_refl p).moves, fun _ ht => absurd rfl ht.nonempty⟩
  by_cases hb : (p.update_bandwidth_window t).can_receive_within_bandwidth = true
  · rcases process_packet_processes hne hb h with ⟨e, hc, rfl⟩ | ⟨r, packets, hc, rfl, rfl⟩
    · obtain ⟨hm, ht⟩ := process_command_packet_fails hc
      exact .inl ⟨rfl, ⟨hm.state, hm.handshake, hm.address⟩, fun packet hp => ht packet hp.opened⟩
    · obtain ⟨packet, ho, hr⟩ := process_command_packet_succeeds hc
      rw [counted_config] at ho
      rw [show (p.counted t payload.length).received payload.length = p.taking t payload.length from rfl] at hr
      have htaking := moves_taking p t payload.length
      have hm := process_commands_moves hr
      rw [htaking.state] at hm
      replace hm := htaking.trans hm
      -- `record_recv` sees the state the commands left
      obtain ⟨hannounce, hrecv⟩ := record_recv_moves r
      refine .inr ⟨packet, r, packets, ⟨hne, hb, ho⟩, hr, ?_, ?_⟩
      · rw [hannounce, hrecv.address, hm.state, hm.handshake, hm.address]
      · rw [hm.state, hm.handshake] at hrecv
        exact hm.trans hrecv
  · unfold process_packet at h
    rw [if_neg (by simpa using hne)] at h
    dsimp only at h
    rw [if_pos (by simpa using hb)] at h
    cases h
    exact .inl ⟨rfl, ⟨rfl, rfl, rfl⟩, fun _ ht => absurd ht.bandwidth hb⟩

end Peer

/-! ## The server's side of the handshake -/

/-- An operation of a session. -/
inductive SessionOp where
  | process_packet (payload : Bytes) (time : Instant) (draw : UInt16)
  | process_event (event : Packet)
  | update (time : Instant) (elapsed : Duration) (draw : ProbeDraw)
  | should_drop (time : Instant)

/-- An operation, its actions and the peer after it. -/
structure Performed where
  op : SessionOp
  actions : List Action
  after : Peer

/-- Is it a `VerifyConnect`? -/
def is_verify_connect : ProtocolCommand → Bool
  | .VerifyConnect .. => true
  | _ => false

namespace Peer

variable {p q : Peer} {codecs : Codecs} {op : SessionOp} {actions : List Action} {steps : List (Peer × Performed)}

def perform (codecs : Codecs) (self : Peer) : SessionOp → Outcome (List Action × Peer)
  | .process_packet payload time draw => self.process_packet codecs payload time draw
  | .process_event event => self.process_event codecs event
  | .update time elapsed draw => .ok (self.update codecs time elapsed draw)
  | .should_drop time => .ok ((self.should_drop time).2, self)

/-- A run of operations of a session. -/
abbrev SessionRun (codecs : Codecs) : Peer → List (Peer × Performed) → Peer → Prop :=
  Run fun p e q => p.perform codecs e.op = .ok (e.actions, e.after) ∧ q = e.after

/-- Nothing is sent before the client has spoken: that would make the peer a
client itself. -/
def ServerSide (steps : List (Peer × Performed)) : Prop :=
  ∀ q e event, (q, e) ∈ steps → e.op = .process_event event → q.state ≠ .Idle

/-- A `Connect` reaches an idle peer, and no `Disconnect` comes with it. -/
def Opens (codecs : Codecs) (p : Peer) : SessionOp → Prop
  | .process_packet payload time _ => p.state = .Idle ∧ ∃ packet, Taken codecs p payload time packet ∧
      packet.commands.any is_connect = true ∧ packet.commands.any is_disconnect = false
  | _ => False

/-- The datagram has commands of a kind. -/
def Has (codecs : Codecs) (config : Config) (kind : ProtocolCommand → Bool) (bytes : Bytes) : Prop :=
  ∃ packet, open_datagram codecs config bytes = .ok packet ∧ packet.commands.any kind = true

/-- The peer becomes established only by a datagram that comes after one with
its `VerifyConnect` went out, and is not the one with the `Connect` that made
it leave `Idle`. -/
def ThreeWay (codecs : Codecs) (steps : List (Peer × Performed)) : Prop :=
  ∀ before q e after, steps = before ++ (q, e) :: after → q.is_established = false → e.after.is_established = true →
    ∃ payload time draw, e.op = .process_packet payload time draw ∧
      (∃ q' e' bytes, (q', e') ∈ before ∧ .Send bytes ∈ e'.actions ∧ Has codecs q'.config is_verify_connect bytes) ∧
      ¬ (q.state = .Idle ∧ Has codecs q.config is_connect payload)

/-- The states a server rests in. -/
structure ServerState (p : Peer) : Prop where
  connecting : p.state ≠ .Connecting
  acknowledging : p.state ≠ .AcknowledgingConnect
  handshake : p.config.use_connection_handshake = true

theorem Moves.server_state {s : PeerState} (h : Moves p q s) (hp : ServerState p) (hc : s ≠ .Connecting)
    (ha : s ≠ .AcknowledgingConnect) : ServerState q :=
  ⟨by rwa [h.state], by rwa [h.state], h.handshake.trans hp.handshake⟩

theorem Moves.stays (h : Moves p q p.state) : ¬ (p.is_established = false ∧ q.is_established = true) := by
  rintro ⟨h₁, h₂⟩
  rw [is_established, h.state] at h₂
  rw [is_established, h₂] at h₁
  cases h₁

/-- What a datagram does to a server: nothing, or it ends the connection, or
it opens it. -/
theorem process_packet_server {payload : Bytes} {time : Instant} {draw : UInt16} (hp : ServerState p)
    (h : p.process_packet codecs payload time draw = .ok (actions, q)) :
    (Opens codecs p (.process_packet payload time draw) ∧ Moves p q .Connected) ∨
      (¬ Opens codecs p (.process_packet payload time draw) ∧ (Moves p q p.state ∨ Moves p q .Zombie)) := by
  rcases process_packet_cases h with ⟨-, hm, hnot⟩ | ⟨packet, r, packets, ht, -, -, hm⟩
  · refine .inr ⟨?_, .inl hm⟩
    rintro ⟨-, packet, ht, -, -⟩
    exact hp.connecting (hnot packet ht)
  · rw [hp.handshake] at hm
    cases hd : packet.commands.any is_disconnect with
    | true =>
      rw [PeerState.after_commands_disconnect hd] at hm
      refine .inr ⟨?_, .inr hm⟩
      rintro ⟨-, packet', ht', -, hd'⟩
      have he := ht'.opened.symm.trans ht.opened
      cases he
      rw [hd] at hd'
      cases hd'
    | false =>
      by_cases hidle : p.state = .Idle
      · rw [hidle, PeerState.after_commands_idle hd] at hm
        cases hc : packet.commands.any is_connect with
        | true =>
          -- AcknowledgingConnect does not outlast the call
          rw [hc] at hm
          exact .inl ⟨⟨hidle, packet, ht, hc, hd⟩, hm⟩
        | false =>
          rw [hc] at hm
          refine .inr ⟨?_, .inl (by rw [hidle]; exact hm)⟩
          rintro ⟨-, packet', ht', hc', -⟩
          have he := ht'.opened.symm.trans ht.opened
          cases he
          rw [hc] at hc'
          cases hc'
      · rw [PeerState.after_commands_settled hidle hp.connecting hd] at hm
        refine .inr ⟨fun ho => hidle ho.1, .inl ?_⟩
        have hstay : p.state.after_recv true = p.state := by
          cases hs : p.state with
          | AcknowledgingConnect => exact absurd hs hp.acknowledging
          | _ => rfl
        rwa [hstay] at hm

/-- A server becomes established exactly by a datagram that opens the
connection. -/
theorem perform_server (hp : ServerState p) (hop : ∀ event, op = .process_event event → p.state ≠ .Idle)
    (h : p.perform codecs op = .ok (actions, q)) :
    ServerState q ∧ ((p.is_established = false ∧ q.is_established = true) ↔ Opens codecs p op) := by
  cases op with
  | process_packet payload time draw =>
    rcases process_packet_server hp h with ⟨ho, hm⟩ | ⟨ho, hm | hm⟩
    · refine ⟨hm.server_state hp (by decide) (by decide), fun _ => ho, fun _ => ?_⟩
      exact ⟨by rw [is_established, ho.1]; rfl, by rw [is_established, hm.state]; rfl⟩
    · exact ⟨hm.server_state hp hp.connecting hp.acknowledging, fun he => absurd he hm.stays, fun h' => absurd h' ho⟩
    · refine ⟨hm.server_state hp (by decide) (by decide), fun ⟨_, h₂⟩ => ?_, fun h' => absurd h' ho⟩
      rw [is_established, hm.state] at h₂
      cases h₂
  | process_event event =>
    have hidle := hop event rfl
    obtain ⟨-, hm⟩ := process_event_moves h
    cases hs : p.state with
    | Idle => exact absurd hs hidle
    | Connecting => exact absurd hs hp.connecting
    | AcknowledgingConnect => exact absurd hs hp.acknowledging
    | _ =>
      rw [hs] at hm
      refine ⟨hm.server_state hp (by decide) (by decide), fun ⟨h₁, h₂⟩ => ?_, fun h' => h'.elim⟩
      rw [is_established, hs] at h₁
      rw [is_established, hm.state] at h₂
      simp [PeerState.is_established, PeerState.after_send] at h₁ h₂
  | update time elapsed draw =>
    have hm := (update_moves codecs p time elapsed draw).2
    cases h
    exact ⟨hm.server_state hp hp.connecting hp.acknowledging, fun he => absurd he hm.stays, fun h' => h'.elim⟩
  | should_drop time =>
    cases h
    have hm := (sameSession_refl p).moves
    exact ⟨hp, fun he => absurd he hm.stays, fun h' => h'.elim⟩

theorem run_server (hp : ServerState p) (hs : ServerSide steps) (h : SessionRun codecs p steps q) :
    ServerState q ∧ ∀ r e, (r, e) ∈ steps →
      ((r.is_established = false ∧ e.after.is_established = true) ↔ Opens codecs r e.op) := by
  induction h with
  | start => exact ⟨hp, by simp⟩
  | @next steps r e q hrun hstep ih =>
    obtain ⟨hr, hall⟩ := ih fun q' e' event hm => hs q' e' event (List.mem_append_left _ hm)
    obtain ⟨hperform, rfl⟩ := hstep
    obtain ⟨hq, hiff⟩ := perform_server hr (fun event => hs r e event (by simp)) hperform
    refine ⟨hq, fun r' e' hm => ?_⟩
    rcases List.mem_append.1 hm with hm | hm
    · exact hall r' e' hm
    · cases List.mem_singleton.1 hm
      exact hiff

/-- The server's handshake is three-way exactly in the runs in which no
datagram opens the connection: where one does, it establishes it at once. -/
theorem handshake_three_way_iff (hidle : p.state = .Idle) (hh : p.config.use_connection_handshake = true)
    (hs : ServerSide steps) (h : SessionRun codecs p steps q) :
    ThreeWay codecs steps ↔ ∀ r e, (r, e) ∈ steps → ¬ Opens codecs r e.op := by
  have hp : ServerState p := ⟨by rw [hidle]; decide, by rw [hidle]; decide, hh⟩
  obtain ⟨-, hall⟩ := run_server hp hs h
  constructor
  · intro h3 r e hm ho
    obtain ⟨before, after, rfl⟩ := List.append_of_mem hm
    obtain ⟨h₁, h₂⟩ := (hall r e hm).2 ho
    obtain ⟨payload, time, draw, hop, -, hno⟩ := h3 before r e after rfl h₁ h₂
    rw [hop] at ho
    obtain ⟨hr, packet, ht, hc, -⟩ := ho
    exact hno ⟨hr, packet, ht.opened, hc⟩
  · intro hno before r e after hsteps h₁ h₂
    have hm : (r, e) ∈ steps := by simp [hsteps]
    exact absurd ((hall r e hm).1 ⟨h₁, h₂⟩) (hno r e hm)

/-- A new server. -/
def new_server : Peer := .new ⟨.V4 0, 0⟩ .default 0 ⟨2, 0, 0⟩

/-- A datagram of one command. -/
def datagram_of (c : ProtocolCommand) : Bytes :=
  Codecs.append_checksum_in_place .checked (0 :: CommandEncoder.encode_packet ⟨[c]⟩)

/-- A ping does not open anything. -/
theorem handshake_three_way_ping :
    ∃ steps q, SessionRun .checked new_server steps q ∧ ServerSide steps ∧ ThreeWay .checked steps := by
  obtain ⟨⟨actions, q⟩, hq, -⟩ := exists_ok (x := new_server.process_packet .checked (datagram_of (.Ping 5)) 0 0)
    (p := fun _ => true) (by decide +kernel)
  have hrun : SessionRun .checked new_server
      [(new_server, ⟨.process_packet (datagram_of (.Ping 5)) 0 0, actions, q⟩)] q := .next .start ⟨hq, rfl⟩
  have hside : ServerSide [(new_server, ⟨.process_packet (datagram_of (.Ping 5)) 0 0, actions, q⟩)] := by
    intro r e event hm he
    cases List.mem_singleton.1 hm
    cases he
  refine ⟨_, q, hrun, hside, (handshake_three_way_iff rfl rfl hside hrun).2 fun r e hm ho => ?_⟩
  cases List.mem_singleton.1 hm
  obtain ⟨-, packet, ht, hc, -⟩ := ho
  have he : Except.ok ⟨[.Ping 5]⟩ = Except.ok packet := Eq.trans (by decide +kernel) ht.opened
  cases he
  cases hc

/-- A `Connect` establishes the server at once: it has sent nothing. -/
theorem connect_establishes_at_once :
    ∃ steps q, SessionRun .checked new_server steps q ∧ new_server.state = .Idle ∧
      new_server.config.use_connection_handshake = true ∧ ServerSide steps ∧ ¬ ThreeWay .checked steps := by
  obtain ⟨⟨actions, q⟩, hq, hest⟩ := exists_ok
    (x := new_server.process_packet .checked (datagram_of (.Connect 1 1400 1 7 9)) 0 0)
    (p := fun out => out.2.is_established) (by decide +kernel)
  refine ⟨[(new_server, ⟨.process_packet (datagram_of (.Connect 1 1400 1 7 9)) 0 0, actions, q⟩)], q,
    .next .start ⟨hq, rfl⟩, rfl, rfl, fun r e event hm he => ?_, fun h3 => ?_⟩
  · cases List.mem_singleton.1 hm
    cases he
  · obtain ⟨payload, time, draw, -, ⟨q', e', bytes, hm, -⟩, -⟩ := h3 [] _ _ [] rfl rfl hest
    cases hm

end Peer

end Bitfold
