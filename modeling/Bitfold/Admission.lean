import Bitfold.Establishing
import Bitfold.Polling
/-!
# Addresses that are not admitted

A datagram from an address without a session goes to a new session, and what
that session asks for is queued before it is decided whether it is let in. So
an address that is refused stays silent only if its datagram says nothing.
-/

namespace Bitfold

open Lib

namespace Peer

/-- Do the commands establish a new session? -/
def establishes (handshake : Bool) (cmds : List ProtocolCommand) : Bool :=
  !cmds.any is_disconnect && (!handshake || cmds.any is_connect)

theorem announces_idle (handshake : Bool) (cmds : List ProtocolCommand) :
    (PeerState.Idle.after_commands cmds).announces handshake = establishes handshake cmds := by
  unfold establishes
  cases hd : cmds.any is_disconnect with
  | true =>
    rw [PeerState.after_commands_disconnect hd]
    rfl
  | false =>
    rw [PeerState.after_commands_idle hd]
    cases cmds.any is_connect <;> cases handshake <;> rfl

theorem open_datagram_no_panic (codecs : Codecs) (config : Config) (data : Bytes) (e : Panic) :
    open_datagram codecs config data ≠ .error (.panic e) := by
  intro h
  unfold open_datagram at h
  have hrest : ∀ payload, (do
      let decompressed ← (codecs.decompress payload).mapError DecodeFault.error
      CommandDecoder.decode_packet decompressed) ≠ .error (.panic e) := by
    intro payload h
    cases hd : codecs.decompress payload with
    | error e' =>
      rw [hd] at h
      cases h
    | ok decompressed =>
      rw [hd] at h
      exact decode_packet_no_panic decompressed e h
  split at h
  · cases hv : codecs.validate_and_strip_checksum data with
    | error e' =>
      rw [hv] at h
      cases h
    | ok payload =>
      rw [hv] at h
      exact hrest payload h
  · exact hrest data h

variable {p : Peer}

/-- A session that is not connecting takes every datagram. -/
theorem process_packet_total (codecs : Codecs) (hs : p.state ≠ .Connecting) (payload : Bytes) (time : Instant)
    (draw : UInt16) : ∃ actions q, p.process_packet codecs payload time draw = .ok (actions, q) := by
  unfold process_packet
  split
  · exact ⟨_, _, rfl⟩
  dsimp only
  split
  · exact ⟨_, _, rfl⟩
  rw [show (p.update_bandwidth_window time).record_bytes_received (.ofNat payload.length) =
    p.counted time payload.length from rfl]
  match ho : open_datagram codecs (p.counted time payload.length).config payload with
  | .error (.panic e) => exact absurd ho (open_datagram_no_panic _ _ _ e)
  | .error (.error e) =>
    rw [process_command_packet_unopened ho]
    exact ⟨_, _, rfl⟩
  | .ok packet =>
    have hstate : ((p.counted time payload.length).received payload.length).state ≠ .Connecting := by
      have htaking := moves_taking p time payload.length
      rw [show (p.counted time payload.length).received payload.length = p.taking time payload.length from rfl,
        htaking.state]
      exact hs
    obtain ⟨q, packets, hq⟩ := process_commands_of_not_connecting hstate (t := time) []
    rw [process_command_packet_opened ho, hq]
    exact ⟨_, _, rfl⟩

/-- A new session is within its bandwidth. -/
theorem new_can_receive (addr : SocketAddr) (config : Config) (time : Instant) (ids : PeerDraw) :
    ((Peer.new addr config time ids).update_bandwidth_window time).can_receive_within_bandwidth = true := by
  have hwindow : ((Peer.new addr config time ids).update_bandwidth_window time).bandwidth_throttle =
      .new config.outgoing_bandwidth_limit config.incoming_bandwidth_limit time := by
    simp [update_bandwidth_window, Peer.new, BandwidthThrottle.update_bandwidth_window, BandwidthThrottle.new,
      bandwidth_window, from_secs]
  rw [can_receive_within_bandwidth, hwindow, BandwidthThrottle.can_receive_within_bandwidth]
  simp only [BandwidthThrottle.new, Bool.or_eq_true, beq_iff_eq]
  by_cases hl : config.incoming_bandwidth_limit = 0
  · exact .inl hl
  · exact .inr (decide_eq_true (UInt32.pos_iff_ne_zero.2 hl))

end Peer

namespace SessionManager

variable {I : Type} {intercept : Interceptor I} {codecs : Codecs} {m : SessionManager Peer I} {n : Nat}
  {d : IncomingDatagram} {payload : Bytes} {time : Instant}

/-- The datagram is let through, its address has no session and gets none. -/
structure Refused (intercept : Interceptor I) (n : Nat) (m : SessionManager Peer I) (d : IncomingDatagram)
    (payload : Bytes) : Prop where
  passes : m.passes intercept d = some payload
  unknown : m.sessions.lookup d.address = none
  refused : m.admits n d.address = false

/-- The round adds nothing to the events and datagrams that are pending. -/
def Silent (codecs : Codecs) (intercept : Interceptor I) (time : Instant) (n : Nat) (m : SessionManager Peer I)
    (d : IncomingDatagram) : Prop :=
  ∃ n' m', receive (Peer.session codecs) intercept time (n, m) d = .ok (n', m') ∧
    m'.pending_events = m.pending_events ∧ m'.pending_sends = m.pending_sends

/-- The session that is made for a datagram. -/
def newcomer (config : Config) (time : Instant) (d : IncomingDatagram) : Peer := .new d.address config time d.ids

/-- The datagram says nothing to a new session: it is empty, does not open, or
its commands neither establish the session nor deliver a packet to it. -/
def Mute (codecs : Codecs) (config : Config) (time : Instant) (d : IncomingDatagram) (payload : Bytes) : Prop :=
  ∀ packet, payload ≠ [] → Peer.open_datagram codecs config payload = .ok packet →
    Peer.establishes config.use_connection_handshake packet.commands = false ∧
      ∀ q packets, Peer.process_commands time d.draw packet.commands
        ((newcomer config time d).taking time payload.length) [] = .ok (q, .ok packets) → packets = []

/-- What a new session makes of a datagram. -/
theorem newcomer_actions_iff {config : Config} {actions : List Action} {s : Peer}
    (h : (newcomer config time d).process_packet codecs payload time d.draw = .ok (actions, s)) :
    actions = [] ↔ Mute codecs config time d payload := by
  rcases Peer.process_packet_cases h with ⟨ha, -, hnot⟩ | ⟨packet, r, packets, ht, hr, ha, -⟩
  · -- a new session takes every datagram that opens
    refine ⟨fun _ packet hne ho => ?_, fun _ => ha⟩
    have htaken : Peer.Taken codecs (newcomer config time d) payload time packet :=
      ⟨hne, Peer.new_can_receive d.address config time d.ids, ho⟩
    exact absurd (hnot packet htaken) (by simp [newcomer, Peer.new])
  · rw [show (newcomer config time d).state = .Idle from rfl, Peer.announces_idle] at ha
    have hopened : Peer.open_datagram codecs config payload = .ok packet := ht.opened
    have hnone : actions = [] ↔
        Peer.establishes config.use_connection_handshake packet.commands = false ∧ packets = [] := by
      rw [ha, List.append_eq_nil_iff]
      refine and_congr ?_ (by simp [Peer.packet_events])
      change Peer.connect_event (Peer.establishes config.use_connection_handshake packet.commands) d.address = [] ↔ _
      cases Peer.establishes config.use_connection_handshake packet.commands <;> simp [Peer.connect_event]
    rw [hnone]
    refine ⟨fun ⟨hest, hpackets⟩ packet' _ ho => ?_, fun hmute => ?_⟩
    · rw [hopened] at ho
      cases ho
      refine ⟨hest, fun q packets' hq => ?_⟩
      rw [hr] at hq
      cases hq
      exact hpackets
    · obtain ⟨hest, hpackets⟩ := hmute packet ht.nonempty hopened
      exact ⟨hest, hpackets r packets hr⟩

/-- What a new session asked for stays when it is refused. -/
theorem receive_refused (hr : Refused intercept n m d payload) {actions : List Action} {s : Peer}
    (h : (newcomer m.config time d).process_packet codecs payload time d.draw = .ok (actions, s)) :
    ∃ m', receive (Peer.session codecs) intercept time (n, m) d = .ok (n, m') ∧
      Turn m m' d.address none none actions := by
  obtain ⟨hp, hu, ha⟩ := hr
  unfold passes at hp
  match hi : intercept.on_receive m.interceptor d.address d.payload with
  | ((false, payload'), i) =>
    rw [hi] at hp
    cases hp
  | ((true, payload'), i) =>
    rw [hi] at hp
    cases hp
    have hprocess : (Peer.session codecs).process_packet ((Peer.session codecs).create_session m.config d.address time
      d.ids) payload time d.draw = .ok (actions, s) := h
    refine ⟨handle_actions { m with interceptor := i } d.address actions, ?_, ?_⟩
    · simp only [receive, hi, Bool.not_true, Bool.false_eq_true, if_false, dispatch, hu, hprocess, bind, Except.bind,
        handle_actions_admits]
      rw [if_neg (by
        rw [show admits { m with interceptor := i } n d.address = m.admits n d.address from rfl, ha]
        decide)]
      rfl
    · have ht := turn_refuse hu actions
      rw [handle_actions_eq] at ht ⊢
      exact ht.of_eq i m.duplicate_peer_count

theorem silent_iff_mute (hr : Refused intercept n m d payload) :
    Silent codecs intercept time n m d ↔ Mute codecs m.config time d payload := by
  have hidle : (newcomer m.config time d).state ≠ .Connecting := by simp [newcomer, Peer.new]
  obtain ⟨actions, s, hs⟩ := Peer.process_packet_total codecs hidle payload time d.draw
  obtain ⟨m', hm', ht⟩ := receive_refused hr hs
  rw [← newcomer_actions_iff hs, actions_eq_nil_iff]
  unfold Silent
  constructor
  · rintro ⟨n'', m'', h, hevents, hsends⟩
    rw [hm'] at h
    cases h
    have he := ht.events
    have hb := ht.sends
    rw [hevents] at he
    rw [hsends] at hb
    exact ⟨by simpa using he, by simpa using hb⟩
  · rintro ⟨he, hb⟩
    exact ⟨n, m', hm', by rw [ht.events, he, List.append_nil], by rw [ht.sends, hb, List.map_nil, List.append_nil]⟩

/-! ## Runs -/

theorem poll_rounds_config {q : SessionManager Peer I} {poll : Poll}
    (h : ((n, m), d) ∈ q.poll_rounds (Peer.session codecs) intercept poll) : m.config = q.config :=
  loop_rounds_invariant (I := fun state => state.2.config = q.config)
    (fun _ _ _ hs ht => (receive_config ht).trans hs) rfl _ h

/-- In the run, a poll at `time` gets the datagram when the manager is `m` and
counts `n` unestablished sessions. -/
def Round (codecs : Codecs) (intercept : Interceptor I) (steps : List (SessionManager Peer I × HostStep))
    (time : Instant) (n : Nat) (m : SessionManager Peer I) (d : IncomingDatagram) : Prop :=
  ∃ q e poll, (q, e) ∈ steps ∧ e.op = .Poll poll ∧ time = poll.time ∧
    ((n, m), d) ∈ q.poll_rounds (Peer.session codecs) intercept poll

/-- A datagram from an address that is not admitted leaves no trace exactly if
it says nothing to a new session. -/
theorem refused_silent_iff (config : Config) (i : I) {steps : List (SessionManager Peer I × HostStep)}
    {m' : SessionManager Peer I} (h : HostRun codecs intercept (.new config i) steps m')
    (hround : Round codecs intercept steps time n m d) (hr : Refused intercept n m d payload) :
    Silent codecs intercept time n m d ↔ Mute codecs config time d payload := by
  obtain ⟨q, e, poll, hmem, -, rfl, hin⟩ := hround
  have hq : q.config = config :=
    h.invariant_mem (I := fun m => m.config = config) rfl (fun m e m' hm hs => (act_config hs).trans hm) hmem
  rw [silent_iff_mute hr, (poll_rounds_config hin).trans hq]

/-- No session is admitted. -/
def closed_config : Config := { Config.default with max_unestablished_connections := 0 }

def closed_manager : SessionManager Peer Unit := .new closed_config ()

/-- A datagram of one command from some address. -/
def letter (c : ProtocolCommand) : IncomingDatagram := ⟨⟨.V4 1, 5⟩, Peer.datagram_of c, ⟨2, 0, 0⟩, 0⟩

/-- A poll that gets one datagram. -/
def poll_of (d : IncomingDatagram) : Poll where
  time := 0
  datagrams := [d]
  user_events := []
  update_order := ⟨id, fun _ => .refl _⟩
  update_draw _ := (0, ⟨0, fun _ => 0⟩)
  drop_order := ⟨id, fun _ => .refl _⟩

/-- A poll that gets two datagrams, the first of which leads to `state`. -/
theorem poll_rounds_two {q : SessionManager Peer I} {poll : Poll} {d₁ d₂ : IncomingDatagram}
    {state : Nat × SessionManager Peer I} (hd : poll.datagrams = [d₁, d₂])
    (hs : receive (Peer.session codecs) intercept poll.time (q.unestablished_session_count (Peer.session codecs), q) d₁ =
      .ok state) :
    q.poll_rounds (Peer.session codecs) intercept poll =
      [((q.unestablished_session_count (Peer.session codecs), q), d₁), (state, d₂)] := by
  rw [poll_rounds, hd, loop_rounds, hs]
  dsimp only
  rw [loop_rounds]
  split <;> rfl

/-- The run of one poll that gets one datagram. -/
theorem closed_run (c : ProtocolCommand) {flushed : Flushed} {m' : SessionManager Peer Unit}
    (h : closed_manager.act .checked .no_op (.Poll (poll_of (letter c))) = .ok (flushed, m')) :
    HostRun .checked .no_op closed_manager [(closed_manager, ⟨.Poll (poll_of (letter c)), flushed⟩)] m' ∧
      Round .checked .no_op [(closed_manager, ⟨.Poll (poll_of (letter c)), flushed⟩)] 0 0 closed_manager (letter c) ∧
      Refused .no_op 0 closed_manager (letter c) (Peer.datagram_of c) := by
  refine ⟨.next .start h, ⟨_, _, _, List.mem_singleton_self _, rfl, rfl, ?_⟩, ⟨rfl, rfl, rfl⟩⟩
  exact List.mem_cons_self

/-- A ping from an address that is refused. -/
theorem refused_silent_ping :
    ∃ steps m', HostRun .checked .no_op closed_manager steps m' ∧
      Round .checked .no_op steps 0 0 closed_manager (letter (.Ping 5)) ∧
      Refused .no_op 0 closed_manager (letter (.Ping 5)) (Peer.datagram_of (.Ping 5)) ∧
      Silent .checked .no_op 0 0 closed_manager (letter (.Ping 5)) := by
  obtain ⟨⟨flushed, m'⟩, h, -⟩ := exists_ok (x := closed_manager.act .checked .no_op (.Poll (poll_of (letter (.Ping 5)))))
    (p := fun _ => true) (by decide +kernel)
  obtain ⟨hrun, hround, hrefused⟩ := closed_run (.Ping 5) h
  refine ⟨_, m', hrun, hround, hrefused, (refused_silent_iff closed_config () hrun hround hrefused).2 ?_⟩
  intro packet _ ho
  have he : Except.ok ⟨[.Ping 5]⟩ = Except.ok packet := Eq.trans (by decide +kernel) ho
  cases he
  refine ⟨rfl, fun q packets hq => ?_⟩
  cases hq
  rfl

/-- A `Connect` from an address that is refused: the poll reports a connection
and keeps no session. -/
theorem refused_address_connects :
    ∃ steps flushed m', HostRun .checked .no_op closed_manager steps m' ∧
      Round .checked .no_op steps 0 0 closed_manager (letter (.Connect 1 1400 1 7 9)) ∧
      Refused .no_op 0 closed_manager (letter (.Connect 1 1400 1 7 9))
        (Peer.datagram_of (.Connect 1 1400 1 7 9)) ∧
      ¬ Silent .checked .no_op 0 0 closed_manager (letter (.Connect 1 1400 1 7 9)) ∧
      closed_manager.manual_poll (Peer.session .checked) .no_op (poll_of (letter (.Connect 1 1400 1 7 9))) =
        .ok (flushed, m') ∧
      flushed.events = [.Connect ⟨.V4 1, 5⟩] ∧ m'.sessions = ∅ := by
  obtain ⟨⟨flushed, m'⟩, h, hout⟩ := exists_ok
    (x := closed_manager.manual_poll (Peer.session .checked) .no_op (poll_of (letter (.Connect 1 1400 1 7 9))))
    (p := fun out => out.1.events == [.Connect ⟨.V4 1, 5⟩] && out.2.sessions.entries.isEmpty) (by decide +kernel)
  rw [Bool.and_eq_true, beq_iff_eq, List.isEmpty_iff] at hout
  obtain ⟨⟨n, m''⟩, hreceive, hevent⟩ := exists_ok
    (x := receive (Peer.session .checked) .no_op 0 (0, closed_manager) (letter (.Connect 1 1400 1 7 9)))
    (p := fun out => !out.2.pending_events.isEmpty) (by decide +kernel)
  obtain ⟨hrun, hround, hrefused⟩ := closed_run (.Connect 1 1400 1 7 9) h
  refine ⟨_, flushed, m', hrun, hround, hrefused, ?_, h, hout.1, AList.ext hout.2⟩
  rintro ⟨n', m₂, hreceive', hevents, -⟩
  obtain ⟨-, rfl⟩ := Prod.mk.inj (Except.ok.inj (hreceive.symm.trans hreceive'))
  rw [hevents] at hevent
  cases hevent

end SessionManager

end Bitfold
