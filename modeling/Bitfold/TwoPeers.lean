import Bitfold.HandshakeSpec
import Bitfold.Wire
/-!
# Two peers

A session on either side of a network that may lose, repeat and reorder
datagrams. The sessions are those of the model, with all they do: packets of
the user, incoming datagrams, updates, and the host's `disconnect`. Their part
in the handshake is that of the protocol (`handshake_refinement`), so what
holds of the protocol holds of them.
-/

namespace Bitfold

open Lib ProtocolCommand

/-- What a host does with a session. -/
inductive LinkOp where
  | session (op : SessionOp)
  | disconnect

/-- A session, the packets its user has sent and those delivered to the user. -/
structure Endpoint where
  peer : Peer
  sent : List Packet
  delivered : List Packet

/-- What a session is made with. -/
structure Origin where
  addr : SocketAddr
  config : Config
  time : Instant
  ids : PeerDraw

def Origin.peer (o : Origin) : Peer := .new o.addr o.config o.time o.ids

namespace LinkOp

/-- The datagram that comes in. -/
def datagram : LinkOp → Option Bytes
  | .session (.process_packet payload _ _) => some payload
  | _ => none

/-- The packet that the user sends. -/
def packets : LinkOp → List Packet
  | .session (.process_event event) => [event]
  | _ => []

end LinkOp

namespace Peer

/-- What the operation makes of the peer, and its actions. -/
def serve (codecs : Codecs) (self : Peer) : LinkOp → Outcome (List Action × Peer)
  | .session op => self.perform codecs op
  | .disconnect => .ok ([], self.disconnect)

end Peer

namespace Endpoint

def new (o : Origin) : Endpoint := ⟨o.peer, [], []⟩

/-- One operation of a session, and the datagrams it sends. -/
def Step (codecs : Codecs) (e : Endpoint) (op : LinkOp) (out : List Bytes) (e' : Endpoint) : Prop :=
  ∃ actions q, e.peer.serve codecs op = .ok (actions, q) ∧ out = sends_of actions ∧
    e' = ⟨q, e.sent ++ op.packets, e.delivered ++ Peer.emitted actions⟩

end Endpoint

/-- A party that is a session. -/
def link (codecs : Codecs) : Party Endpoint LinkOp Bytes where
  reads := LinkOp.datagram
  step := Endpoint.Step codecs

/-- Everything that may happen between two sessions. -/
abbrev LinkRun (codecs : Codecs) := Run (Network.Step (link codecs))

/-- Two new sessions, and nothing sent. -/
def new_link (origins : Side → Origin) : Network Endpoint Bytes := .start fun side => .new (origins side)

/-! ## The handshake of a session -/

/-- The part of a command in the handshake. -/
def handshake_message : ProtocolCommand → Option HandshakeMessage
  | .Connect _ _ _ sid cid => some (.Connect sid cid)
  | .VerifyConnect pid _ _ isid osid _ => some (.VerifyConnect pid isid osid)
  | _ => none

theorem handshake_message_owned (c : ProtocolCommand) : handshake_message c.owned = handshake_message c := by
  cases c <;> rfl

/-- What the command has to do with the handshake was sent. -/
def Logged (sent : List HandshakeMessage) (c : ProtocolCommand) : Prop := ∀ m, handshake_message c = some m → m ∈ sent

theorem Logged.mono {sent : List HandshakeMessage} {c : ProtocolCommand} (h : Logged sent c)
    (more : List HandshakeMessage) : Logged (sent ++ more) c :=
  fun m hm => List.mem_append_left _ (h m hm)

theorem logged_of_none {sent : List HandshakeMessage} {c : ProtocolCommand} (h : handshake_message c = none) :
    Logged sent c := by
  intro m hm
  rw [h] at hm
  cases hm

theorem logged_self {sent : List HandshakeMessage} {c : ProtocolCommand} {m : HandshakeMessage}
    (h : handshake_message c = some m) (hm : m ∈ sent) : Logged sent c := by
  intro m' hm'
  rw [h] at hm'
  cases hm'
  exact hm

theorem handshake_message_of_cuts {p : Peer} {event : Packet} {c : ProtocolCommand} (h : p.Cuts event c) :
    handshake_message c = none := by
  cases h with
  | whole mode d _ _ _ hc =>
    rw [hc]
    cases mode <;> rfl
  | fragment mode g _ _ hc =>
    obtain ⟨j, d, -, -, rfl⟩ := hc
    unfold Group.command
    cases g.mode <;> rfl
  | chunk k group d _ _ hc =>
    rw [hc]
    rfl

namespace Peer

variable {codecs : Codecs} {p q : Peer} {t : Instant} {draw : UInt16} {inbox out : List HandshakeMessage}

/-- The ids of a session. -/
def session_ids (p : Peer) : SessionIds where
  state := p.state
  peer_id := p.peer_id
  incoming_session_id := p.incoming_session_id
  outgoing_session_id := p.outgoing_session_id
  connect_id := p.connect_id

/-- The commands of the handshake are longer than the others that answer. -/
theorem handshake_message_of_small {c : ProtocolCommand} (h : frame_len c ≤ 9) : handshake_message c = none := by
  cases c with
  | Connect chs m v sid cid =>
    rw [frame_len_connect] at h
    omega
  | VerifyConnect pid chs m isid osid w =>
    rw [frame_len_verify] at h
    omega
  | _ => rfl

/-- A command that steers nothing leaves the ids alone. -/
theorem process_command_ids {c : ProtocolCommand} {r : Processed} (hc : ¬ p.Steers c)
    (h : p.process_command c t draw = .ok (q, r)) : q.session_ids = p.session_ids := by
  cases ht : is_traffic c with
  | true =>
    obtain ⟨t', u, hd, n, cq, fs, cs, rfl⟩ := (handles_of_traffic ht h).1.writes
    rfl
  | false =>
    cases c with
    | Disconnect n => exact absurd trivial hc
    | Connect chs m v sid cid =>
      have hidle : (p.heard t).state ≠ .Idle := hc
      rw [process_command_connect, process_connect, if_neg hidle] at h
      cases h
      rfl
    | VerifyConnect pid chs m isid osid w =>
      have hconnecting : (p.heard t).state ≠ .Connecting := hc
      rw [process_command, process_verify_connect, if_neg hconnecting] at h
      cases h
      rfl
    | BandwidthLimit i o | ThrottleConfigure i a d | PMTUReply size token =>
      cases h
      rfl
    | _ => cases ht

/-- A command moves the session as the protocol says, and what it queues of
the handshake is what the protocol sends. -/
theorem process_command_handshake {c : ProtocolCommand} {r : Processed} (hc : Logged inbox c)
    (h : p.process_command c t draw = .ok (q, r)) :
    ∃ out, SessionIds.handshake.Steps inbox p.session_ids out q.session_ids ∧
      ∀ x ∈ q.commands, x ∈ p.commands ∨ (Logged out x ∧ Framed x) := by
  have hframed := process_command_framed h
  by_cases hsteers : p.Steers c
  · cases c with
    | Disconnect n =>
      cases h
      refine ⟨[], .one (.close .Zombie) (fun m hm => by cases hm) ⟨rfl, rfl, rfl⟩, fun x hx => .inl hx⟩
    | Connect chs m v sid cid =>
      have hidle : (p.heard t).state = .Idle := hsteers
      have hlogged : HandshakeMessage.Connect sid cid ∈ inbox := hc _ rfl
      rw [process_command_connect, process_connect, if_pos hidle] at h
      cases h
      refine ⟨[.VerifyConnect draw sid p.outgoing_session_id],
        .one (.answer sid cid draw) (fun m hm => ?_) ⟨hidle, rfl, rfl⟩, fun x hx => ?_⟩
      · cases hm
        exact hlogged
      · rcases List.mem_append.1 hx with hx' | hx'
        · exact .inl hx'
        · rcases hframed x hx with hold | hf
          · exact .inl hold
          · refine .inr ⟨?_, hf⟩
            rw [List.mem_singleton.1 hx']
            exact logged_self rfl (List.mem_singleton_self _)
    | VerifyConnect pid chs m isid osid w =>
      have hconnecting : (p.heard t).state = .Connecting := hsteers
      have hlogged : HandshakeMessage.VerifyConnect pid isid osid ∈ inbox := hc _ rfl
      rw [process_command, process_verify_connect_eq hconnecting] at h
      obtain ⟨f, -, h⟩ := map_eq_ok h
      refine ⟨[], .one (.verify pid isid osid) (fun m hm => ?_) ⟨hconnecting, rfl, ?_⟩, fun x hx => .inl ?_⟩
      · cases hm
        exact hlogged
      · by_cases ho : osid = (p.heard t).outgoing_session_id
        · rw [if_pos ho] at h
          cases h
          rw [if_pos (show osid = p.session_ids.outgoing_session_id from ho)]
          rfl
        · rw [if_neg ho] at h
          cases h
          rw [if_neg (show osid ≠ p.session_ids.outgoing_session_id from ho)]
          exact congrArg (fun s => SessionIds.mk s _ _ _ _) hconnecting
      · split at h <;> cases h <;> exact hx
    | _ => exact absurd hsteers id
  · refine ⟨[], ?_, fun x hx => ?_⟩
    · rw [process_command_ids hsteers h]
      exact .stay
    · cases hconnect : is_connect c with
      | false =>
        rcases process_command_small hconnect h x hx with hx' | hx'
        · exact .inl hx'
        · exact .inr ⟨logged_of_none (handshake_message_of_small hx'), framed_of_frame_len (by omega)⟩
      | true =>
        cases c with
        | Connect chs m v sid cid =>
          have hidle : (p.heard t).state ≠ .Idle := hsteers
          rw [process_command_connect, process_connect, if_neg hidle] at h
          cases h
          exact .inl hx
        | _ => cases hconnect

/-- So do the commands of a datagram. -/
theorem process_commands_handshake {cmds : List ProtocolCommand} {acc : IncomingPackets} {r : Processed}
    (hcmds : ∀ c ∈ cmds, Logged inbox c) (h : process_commands t draw cmds p acc = .ok (q, r)) :
    ∃ out, SessionIds.handshake.Steps inbox p.session_ids out q.session_ids ∧
      ∀ x ∈ q.commands, x ∈ p.commands ∨ (Logged out x ∧ Framed x) := by
  induction cmds generalizing p acc with
  | nil =>
    cases h
    exact ⟨[], .stay, fun x hx => .inl hx⟩
  | cons c cmds ih =>
    rw [List.forall_mem_cons] at hcmds
    cases hp : p.process_command c t draw with
    | error e =>
      rw [process_commands_panics hp] at h
      cases h
    | ok x =>
      obtain ⟨p₁, result⟩ := x
      obtain ⟨out, hsteps, hqueue⟩ := process_command_handshake hcmds.1 hp
      cases result with
      | error e =>
        rw [process_commands_refuses hp] at h
        cases h
        exact ⟨out, hsteps, hqueue⟩
      | ok packets =>
        rw [process_commands_ok hp] at h
        obtain ⟨out', hsteps', hqueue'⟩ := ih hcmds.2 h
        refine ⟨out ++ out', hsteps.trans hsteps', fun x hx => ?_⟩
        rcases hqueue' x hx with hx | ⟨hl, hf⟩
        · exact (hqueue x hx).imp_right fun h => ⟨h.1.mono out', h.2⟩
        · exact .inr ⟨fun m hm => List.mem_append_right _ (hl m hm), hf⟩

/-- No command changes how a session checks datagrams and connects. -/
theorem process_command_setup {c : ProtocolCommand} {r : Processed} (h : p.process_command c t draw = .ok (q, r)) :
    q.config.use_checksums = p.config.use_checksums ∧
      q.config.use_connection_handshake = p.config.use_connection_handshake := by
  cases hset : sets_limits c with
  | true =>
    cases c with
    | BandwidthLimit i o =>
      cases h
      exact ⟨rfl, rfl⟩
    | _ => cases hset
  | false =>
    cases hpath : sets_path c with
    | true =>
      cases c with
      | PMTUReply size token =>
        cases h
        exact ⟨rfl, rfl⟩
      | _ => cases hpath
    | false =>
      rw [(process_command_limits h hset hpath).config]
      exact ⟨rfl, rfl⟩

/-- The settings that both sides of a link share. -/
structure Shares (checks : Bool) (p : Peer) : Prop where
  checks : p.config.use_checksums = checks
  handshake : p.config.use_connection_handshake = true

theorem Shares.process_command {checks : Bool} {c : ProtocolCommand} {r : Processed} (hs : Shares checks p)
    (h : p.process_command c t draw = .ok (q, r)) : Shares checks q := by
  obtain ⟨hchecks, hhandshake⟩ := process_command_setup h
  exact ⟨hchecks.trans hs.checks, hhandshake.trans hs.handshake⟩

theorem Shares.of_config {checks : Bool} (hs : Shares checks p) (h : q.config = p.config) : Shares checks q :=
  ⟨by rw [h]; exact hs.checks, by rw [h]; exact hs.handshake⟩

/-- Being heard settles an answered connection, and nothing else. -/
theorem record_recv_handshake (inbox : List HandshakeMessage) (hh : p.config.use_connection_handshake = true) :
    SessionIds.handshake.Steps inbox p.session_ids [] p.record_recv.2.session_ids ∧
      p.record_recv.2.commands = p.commands := by
  unfold record_recv
  cases hs : p.state with
  | Idle | Connecting =>
    dsimp only
    rw [if_neg (by simp [hh])]
    exact ⟨.stay, rfl⟩
  | AcknowledgingConnect => exact ⟨.one .settle (fun m hm => by cases hm) ⟨.inl hs, rfl, rfl⟩, rfl⟩
  | _ => exact ⟨.stay, rfl⟩

/-- Sending begins the handshake, or settles a connection that succeeded. -/
theorem record_send_handshake (inbox : List HandshakeMessage) (hh : p.config.use_connection_handshake = true) :
    ∃ out, SessionIds.handshake.Steps inbox p.session_ids out p.record_send.2.session_ids ∧
      ∀ c ∈ p.opening, Logged out c := by
  by_cases hidle : p.state = .Idle
  · refine ⟨[.Connect p.outgoing_session_id p.connect_id],
      .one .initiate (fun m hm => by cases hm) ⟨hidle, rfl, ?_⟩, fun c hc => ?_⟩
    · unfold record_send initiate_connect
      simp only [hidle, if_true, if_pos hh]
      rfl
    · rw [opening, if_pos ⟨hidle, hh⟩] at hc
      rw [List.mem_singleton.1 hc]
      exact logged_self rfl (List.mem_singleton_self _)
  · refine ⟨[], ?_, by rw [opening_of_not_idle hidle]; simp⟩
    unfold record_send
    cases hs : p.state with
    | Idle => exact absurd hs hidle
    | ConnectionSucceeded => exact .one .settle (fun m hm => by cases hm) ⟨.inr hs, rfl, rfl⟩
    | _ => exact .stay

/-! ## The operations -/

theorem process_command_packet_handshake {data : Bytes} {r : Processed}
    (hread : Conveys codecs p.config.use_checksums (Logged inbox) data)
    (h : p.process_command_packet codecs data t draw = .ok (q, r)) :
    ∃ out, SessionIds.handshake.Steps inbox p.session_ids out q.session_ids ∧
      ∀ x ∈ q.commands, x ∈ p.commands ∨ (Logged out x ∧ Framed x) := by
  match ho : open_datagram codecs p.config data with
  | .error (.panic e) =>
    rw [process_command_packet_panics ho] at h
    cases h
  | .error (.error e) =>
    rw [process_command_packet_unopened ho] at h
    cases h
    exact ⟨[], .stay, fun x hx => .inl hx⟩
  | .ok packet =>
    rw [process_command_packet_opened ho] at h
    refine process_commands_handshake (p := p.received data.length) (fun c hc => ?_) h
    obtain ⟨c', hc', rfl⟩ := hread _ _ rfl ho c hc
    unfold Logged
    rw [handshake_message_owned]
    exact hc'

/-- A datagram moves the session as its commands do, and then as being heard
does. -/
theorem process_packet_handshake {payload : Bytes} {actions : List Action}
    (hh : p.config.use_connection_handshake = true)
    (hread : Conveys codecs p.config.use_checksums (Logged inbox) payload)
    (h : p.process_packet codecs payload t draw = .ok (actions, q)) :
    ∃ out, SessionIds.handshake.Steps inbox p.session_ids out q.session_ids ∧
      ∀ x ∈ q.commands, x ∈ p.commands ∨ (Logged out x ∧ Framed x) := by
  cases ht : p.takes payload t with
  | false =>
    obtain ⟨-, rfl⟩ := process_packet_not_taken ht h
    refine ⟨[], ?_, fun x hx => .inl ?_⟩
    · split <;> exact .stay
    · split at hx <;> exact hx
  | true =>
    rw [takes, Bool.and_eq_true] at ht
    rcases process_packet_processes (by simpa using ht.1) ht.2 h with ⟨e, hp, -⟩ | ⟨r, packets, hp, -, rfl⟩
    · exact process_command_packet_handshake (p := p.counted t payload.length) hread hp
    · obtain ⟨out, hsteps, hqueue⟩ := process_command_packet_handshake (p := p.counted t payload.length) hread hp
      have hr : Shares p.config.use_checksums r :=
        process_command_packet_invariant (K := fun _ _ => True) (fun hp _ hq => hp.process_command hq)
          (fun _ hp => hp.of_config rfl) (fun _ _ => trivial) hp ⟨rfl, hh⟩
      obtain ⟨hsettled, hsame⟩ := record_recv_handshake inbox hr.handshake
      refine ⟨out, ?_, fun x hx => hqueue x (hsame ▸ hx)⟩
      rw [← List.append_nil out]
      exact hsteps.trans hsettled

theorem process_event_handshake {event : Packet} {actions : List Action} {sent : List HandshakeMessage}
    (hc : codecs.Lossless) (hh : p.config.use_connection_handshake = true)
    (hqueue : ∀ c ∈ p.commands, Logged sent c ∧ Framed c) (h : p.process_event codecs event = .ok (actions, q)) :
    ∃ out, SessionIds.handshake.Steps inbox p.session_ids out q.session_ids ∧ q.config = p.config ∧
      Conveying codecs (Logged (sent ++ out)) p actions q := by
  obtain ⟨out, hsteps, hopening⟩ := record_send_handshake inbox hh
  have hsame : q.session_ids = p.record_send.2.session_ids ∧ q.config = p.config := by
    obtain ⟨r, hr, -, rfl⟩ := process_event_ok h
    obtain ⟨n, cq, u, sq, rfl⟩ := enqueue_packet_writes hr
    obtain ⟨n', cq', st, b, he⟩ := flush_writes codecs { p.record_send.2 with
      total_waiting_data := n, command_queue := cq, unsequenced_state := u, next_unreliable_sequence := sq }
    obtain ⟨st', cq'', hsend⟩ := record_send_writes p
    rw [he]
    exact ⟨rfl, by rw [hsend]⟩
  refine ⟨out, hsame.1 ▸ hsteps, hsame.2, ?_⟩
  apply process_event_conveying hc (fun c hm => ⟨(hqueue c hm).1.mono out, (hqueue c hm).2⟩) ?_ ?_ h
  · exact fun c hm m hcm => List.mem_append_right _ (hopening c hm m hcm)
  · exact fun r hr => (enqueue_packet_cuts hr).mono fun c hp => ⟨logged_of_none (handshake_message_of_cuts hp.1), hp.2⟩

theorem update_handshake {sent : List HandshakeMessage} (hc : codecs.Lossless)
    (hqueue : ∀ c ∈ p.commands, Logged sent c ∧ Framed c) (time : Instant) (elapsed : Duration) (probe : ProbeDraw) :
    (p.update codecs time elapsed probe).2.session_ids = p.session_ids ∧
      (p.update codecs time elapsed probe).2.config = p.config ∧
      Conveying codecs (Logged sent) p (p.update codecs time elapsed probe).1 (p.update codecs time elapsed probe).2 := by
  have hsame : (p.update codecs time elapsed probe).2.session_ids = p.session_ids ∧
      (p.update codecs time elapsed probe).2.config = p.config := by
    obtain ⟨n, cq, stats, b, pm, he⟩ := update_writes codecs p time elapsed probe
    rw [he]
    exact ⟨rfl, rfl⟩
  exact ⟨hsame.1, hsame.2, update_conveying hc hqueue (fun _ => logged_of_none rfl) (fun _ _ _ => logged_of_none rfl)
    time elapsed probe⟩

theorem disconnect_handshake (inbox : List HandshakeMessage) (p : Peer) :
    SessionIds.handshake.Steps inbox p.session_ids [] p.disconnect.session_ids ∧ p.disconnect.config = p.config ∧
      ∀ c ∈ p.disconnect.commands, c ∈ p.commands ∨ c = .Disconnect 0 := by
  unfold disconnect
  split
  · refine ⟨.one (.close .Disconnecting) (fun m hm => by cases hm) ⟨rfl, rfl, rfl⟩, rfl, fun c hc => ?_⟩
    rcases List.mem_append.1 hc with hc | hc
    · exact .inl hc
    · exact .inr (List.mem_singleton.1 hc)
  · exact ⟨.stay, rfl, fun c hc => .inl hc⟩

/-- Whatever a host does with a session, it moves as the protocol says, and
sends no more of the handshake than the protocol. -/
theorem serve_handshake {op : LinkOp} {actions : List Action} {checks : Bool} {sent : List HandshakeMessage}
    (hc : codecs.Lossless) (hs : Shares checks p) (hqueue : ∀ c ∈ p.commands, Logged sent c ∧ Framed c)
    (hread : ∀ bytes, op.datagram = some bytes → Conveys codecs checks (Logged inbox) bytes)
    (h : p.serve codecs op = .ok (actions, q)) :
    ∃ out, SessionIds.handshake.Steps inbox p.session_ids out q.session_ids ∧ Shares checks q ∧
      Conveying codecs (Logged (sent ++ out)) p actions q := by
  have hkept : ∀ out, ∀ c ∈ p.commands, Logged (sent ++ out) c ∧ Framed c := fun out c hm =>
    ⟨(hqueue c hm).1.mono out, (hqueue c hm).2⟩
  cases op with
  | disconnect =>
    cases h
    obtain ⟨hsteps, hconfig, hcommands⟩ := p.disconnect_handshake inbox
    refine ⟨[], hsteps, hs.of_config hconfig, fun bytes hm => (by cases hm), fun c hm => ?_⟩
    rcases hcommands c hm with hm | rfl
    · exact hkept [] c hm
    · exact ⟨logged_of_none rfl, framed_of_frame_len (by decide)⟩
  | session op =>
    cases op with
    | process_packet payload t draw =>
      have hconveys := hread payload rfl
      rw [← hs.checks] at hconveys
      obtain ⟨out, hsteps, hcommands⟩ := process_packet_handshake hs.handshake hconveys h
      have hshares : Shares checks q := process_packet_keeps (K := fun _ _ => True)
        (fun hp _ hq => hp.process_command hq) (fun hp hconfig _ _ => hp.of_config hconfig) (fun _ _ _ => trivial) h hs
      refine ⟨out, hsteps, hshares, fun bytes hm => ?_, fun c hm => ?_⟩
      · rw [process_packet_sends h] at hm
        cases hm
      · rcases hcommands c hm with hm | ⟨hl, hf⟩
        · exact hkept out c hm
        · exact ⟨fun m hm => List.mem_append_right _ (hl m hm), hf⟩
    | process_event event =>
      obtain ⟨out, hsteps, hconfig, hconveying⟩ := process_event_handshake hc hs.handshake hqueue h
      exact ⟨out, hsteps, hs.of_config hconfig, hconveying⟩
    | update time elapsed probe =>
      obtain ⟨hids, hconfig, hconveying⟩ := update_handshake hc (hkept []) time elapsed probe
      cases h
      exact ⟨[], hids ▸ .stay, hs.of_config hconfig, hconveying⟩
    | should_drop time =>
      cases h
      refine ⟨[], .stay, hs, fun bytes hm => ?_, hkept []⟩
      rw [should_drop_sends] at hm
      cases hm

end Peer

/-! ## The sessions and the protocol -/

/-- The session has the ids of a party of the protocol, and whatever is in its
queue that party has sent. -/
structure Represents (checks : Bool) (e : Endpoint) (s : SessionIds) (sent : List HandshakeMessage) : Prop where
  ids : e.peer.session_ids = s
  shares : Peer.Shares checks e.peer
  queue : ∀ c ∈ e.peer.commands, Logged sent c ∧ Framed c

/-- A session is a party of the protocol. -/
def handshake_refinement {codecs : Codecs} (hc : codecs.Lossless) (checks : Bool) :
    Refinement (link codecs) SessionIds.handshake where
  R := Represents checks
  M bytes sent := Conveys codecs checks (Logged sent) bytes
  mono h := h.mono fun c hl => hl.mono _
  step := by
    rintro e _ e' op out sent inbox ⟨rfl, hs, hqueue⟩ hread ⟨actions, q, hserve, rfl, rfl⟩
    obtain ⟨out', hsteps, hshares, hconveying⟩ := Peer.serve_handshake hc hs hqueue hread hserve
    refine ⟨out', q.session_ids, hsteps, ⟨rfl, hshares, hconveying.queue⟩, fun bytes hm => ?_⟩
    have hsends := hconveying.sends bytes hm
    rwa [hs.checks] at hsends

namespace Endpoint

variable {codecs : Codecs} {origins : Side → Origin} {n n' : Network Endpoint Bytes}
  {steps steps' : List (Network Endpoint Bytes × (Side × LinkOp))} {checks : Bool} {side : Side} {op : LinkOp}

/-- Both sides use the handshake, and the same checksums. -/
structure Shaking (checks : Bool) (origins : Side → Origin) : Prop where
  handshake : ∀ side, (origins side).config.use_connection_handshake = true
  checks : ∀ side, (origins side).config.use_checksums = checks

/-- The protocol at its start. -/
def new_handshake (origins : Side → Origin) : Network SessionIds HandshakeMessage :=
  .start fun side => (origins side).peer.session_ids

/-- A run of two sessions is a run of the protocol. -/
theorem run_handshake (hc : codecs.Lossless) (hshaking : Shaking checks origins)
    (h : LinkRun codecs (new_link origins) steps n) :
    ∃ steps' m, SessionIds.HandshakeRun (new_handshake origins) steps' m ∧ (handshake_refinement hc checks).Rel n m := by
  apply (handshake_refinement hc checks).run ?_ h
  intro side
  refine ⟨⟨rfl, ⟨hshaking.checks side, hshaking.handshake side⟩, fun c hm => ?_⟩, fun x hx => ?_⟩
  · cases hm
  · cases hx

/-- The link after an operation, if that does not panic. -/
def act (codecs : Codecs) (n : Network Endpoint Bytes) (side : Side) (op : LinkOp) : Network Endpoint Bytes :=
  match (n.state side).peer.serve codecs op with
  | .ok (actions, q) =>
    ⟨Function.update n.state side ⟨q, (n.state side).sent ++ op.packets, (n.state side).delivered ++ Peer.emitted actions⟩,
      Function.update n.sent side (n.sent side ++ sends_of actions)⟩
  | .error _ => n

/-- The operation does not panic, and the datagram that it reads was sent. -/
def can_act (codecs : Codecs) (n : Network Endpoint Bytes) (side : Side) (op : LinkOp) : Bool :=
  ((n.state side).peer.serve codecs op).isOk && op.datagram.all fun bytes => (n.sent side.other).contains bytes

theorem act_step (h : can_act codecs n side op = true) :
    Network.Step (link codecs) n (side, op) (act codecs n side op) := by
  rw [can_act, Bool.and_eq_true] at h
  cases hserve : (n.state side).peer.serve codecs op with
  | error e =>
    rw [hserve] at h
    cases h.1
  | ok x =>
    obtain ⟨actions, q⟩ := x
    refine ⟨_, _, ⟨actions, q, hserve, rfl, rfl⟩, fun bytes hm => ?_, ?_⟩
    · have hall := h.2
      rw [show op.datagram = some bytes from hm] at hall
      simpa using hall
    · rw [act, hserve]

/-- Operations one after the other, each chosen when it is its turn. -/
def play (codecs : Codecs) : Network Endpoint Bytes → List (Side × (Network Endpoint Bytes → LinkOp)) →
    Network Endpoint Bytes
  | n, [] => n
  | n, (side, op) :: moves => play codecs (act codecs n side (op n)) moves

def can_play (codecs : Codecs) : Network Endpoint Bytes → List (Side × (Network Endpoint Bytes → LinkOp)) → Bool
  | _, [] => true
  | n, (side, op) :: moves => can_act codecs n side (op n) && can_play codecs (act codecs n side (op n)) moves

def play_steps (codecs : Codecs) : Network Endpoint Bytes → List (Side × (Network Endpoint Bytes → LinkOp)) →
    List (Network Endpoint Bytes × (Side × LinkOp))
  | _, [] => []
  | n, (side, op) :: moves => (n, (side, op n)) :: play_steps codecs (act codecs n side (op n)) moves

theorem play_run (codecs : Codecs) (n : Network Endpoint Bytes) (moves : List (Side × (Network Endpoint Bytes → LinkOp)))
    (h : can_play codecs n moves = true) : LinkRun codecs n (play_steps codecs n moves) (play codecs n moves) := by
  induction moves generalizing n with
  | nil => exact .start
  | cons x moves ih =>
    obtain ⟨side, op⟩ := x
    rw [can_play, Bool.and_eq_true] at h
    exact (ih _ h.2).cons (act_step h.1)

/-- The user of a side sends a packet. -/
def sends (side : Side) (event : Packet) : Side × (Network Endpoint Bytes → LinkOp) :=
  (side, fun _ => .session (.process_event event))

/-- A side gets the last datagram of the other one. -/
def hears (side : Side) : Side × (Network Endpoint Bytes → LinkOp) :=
  (side, fun n => .session (.process_packet ((n.sent side.other).getLastD []) 0 5))

/-- A side gets one of the datagrams of the other one. -/
def gets (side : Side) (k : Nat) : Side × (Network Endpoint Bytes → LinkOp) :=
  (side, fun n => .session (.process_packet ((n.sent side.other).getD k []) 0 5))

/-- A side is updated. -/
def updates (side : Side) : Side × (Network Endpoint Bytes → LinkOp) :=
  (side, fun _ => .session (.update 0 0 ⟨0, fun _ => 0⟩))

/-- Two sides with the same session id. -/
def same_ids : Side → Origin
  | .left => ⟨⟨.V4 1, 0⟩, .default, 0, ⟨7, 8, 0⟩⟩
  | .right => ⟨⟨.V4 0, 0⟩, .default, 0, ⟨7, 9, 0⟩⟩

theorem shaking_same_ids : Shaking true same_ids := by
  constructor <;> intro side <;> cases side <;> rfl

/-- A packet of one byte. -/
def one_byte : Packet := ⟨⟨.V4 0, 0⟩, [7], .Unreliable, .None, 0⟩

/-- If both sides begin, neither session is ever established again: each waits
for an answer that the other does not give. -/
theorem simultaneous_open_never_connects (hc : codecs.Lossless) (hshaking : Shaking checks origins)
    (h : LinkRun codecs (new_link origins) steps n) (hboth : ∀ side, (n.state side).peer.state = .Connecting)
    (h' : LinkRun codecs n steps' n') (side : Side) : (n'.state side).peer.is_established = false := by
  obtain ⟨steps₁, m, hrun, hrel⟩ := run_handshake hc hshaking h
  obtain ⟨steps₂, m', hrun', hrel'⟩ := (handshake_refinement hc checks).run hrel h'
  have hconnecting : ∀ side, (m.state side).state = .Connecting := by
    intro side
    rw [← (hrel side).1.ids]
    exact hboth side
  have hanswered := SessionIds.run_crossed (fun _ => rfl) hrun hconnecting hrun' side
  rw [← (hrel' side).1.ids] at hanswered
  rw [← Bool.not_eq_true]
  intro he
  have he' := PeerState.answered_of_established he
  rw [show (n'.state side).peer.session_ids.state = (n'.state side).peer.state from rfl, he'] at hanswered
  cases hanswered

/-- Each side sends a packet, and then hears the other. -/
theorem simultaneous_open_never_connects_heard : ∃ steps n steps' n', LinkRun .checked (new_link same_ids) steps n ∧
    (∀ side, (n.state side).peer.state = .Connecting) ∧ LinkRun .checked n steps' n' ∧
    ∀ side, (n'.state side).peer.is_established = false := by
  have hrun := play_run .checked (new_link same_ids)
    [sends .left one_byte, sends .right one_byte] (by decide +kernel)
  have hboth : ∀ side, ((play .checked (new_link same_ids) [sends .left one_byte, sends .right one_byte]).state
      side).peer.state = .Connecting := by
    intro side
    cases side <;> decide +kernel
  have hrun' := play_run .checked
    (play .checked (new_link same_ids) [sends .left one_byte, sends .right one_byte])
    [hears .left, hears .right, updates .left, updates .right] (by decide +kernel)
  exact ⟨_, _, _, _, hrun, hboth, hrun',
    simultaneous_open_never_connects Codecs.checked_lossless shaking_same_ids hrun hboth hrun'⟩

end Endpoint

end Bitfold
