import Bitfold.Accounting
import Bitfold.CutToSize
import Bitfold.PeersApart
import Bitfold.ProbeTimer
/-!
# No panics

A host reads what anybody sends it, and must not panic on it. There is one
place where it could: the window that comes with a `VerifyConnect` is clamped
to the configured bounds, and to clamp to bounds that are out of order panics.
So a host never panics exactly if its bounds are in order, or no session lives
long enough to get an answer.
-/

namespace Bitfold

open Lib

namespace PeerState

variable {s : PeerState} {c : ProtocolCommand}

/-- No command and no datagram makes a session wait for an answer. -/
theorem connecting_of_after_command (h : s.after_command c = Connecting) : s = Connecting := by
  cases c with
  | VerifyConnect pid chs m isid osid w => cases s <;> first | rfl | cases h
  | Connect chs m v sid cid => cases s <;> first | rfl | cases h
  | Disconnect n => cases h
  | _ => exact h

theorem connecting_of_after_commands {cmds : List ProtocolCommand} (h : s.after_commands cmds = Connecting) :
    s = Connecting := by
  induction cmds generalizing s with
  | nil => exact h
  | cons c cmds ih => exact connecting_of_after_command (ih h)

theorem connecting_of_after_recv {handshake : Bool} (h : s.after_recv handshake = Connecting) : s = Connecting := by
  cases s <;> cases handshake <;> first | rfl | cases h

end PeerState

namespace Peer

variable {codecs : Codecs} {config : Config} {p q : Peer} {c : ProtocolCommand} {t : Instant} {draw : UInt16}
  {payload : Bytes} {actions : List Action}

/-- No datagram makes the session panic. -/
structure Unpanicked (config : Config) (p : Peer) : Prop where
  settled : Settled config p
  bounds : p.state = .Connecting → WindowBounds config

theorem Settled.windowBounds (h : Settled config p) : WindowBounds p.config ↔ WindowBounds config := by
  obtain ⟨a, b, hc⟩ := h
  rw [hc]
  exact Iff.rfl

theorem settled_new (addr : SocketAddr) (config : Config) (time : Instant) (ids : PeerDraw) :
    Settled config (.new addr config time ids) := ⟨_, _, rfl⟩

theorem unpanicked_new (addr : SocketAddr) (config : Config) (time : Instant) (ids : PeerDraw) :
    Unpanicked config (.new addr config time ids) :=
  ⟨settled_new addr config time ids, fun h => by cases h⟩

theorem Settled.process_command {r : Processed} (h : Settled config p) (hp : p.process_command c t draw = .ok (q, r)) :
    Settled config q := by
  have hwatched : Watched config p.pmtu.outstanding p := ⟨h, .inl rfl⟩
  exact (hwatched.process_command hp).settled

theorem Settled.process_packet (h : Settled config p) (hp : p.process_packet codecs payload t draw = .ok (actions, q)) :
    Settled config q := by
  have hwatched : Watched config p.pmtu.outstanding p := ⟨h, .inl rfl⟩
  exact (hwatched.process_packet hp).settled

theorem Settled.process_event {event : Packet} (h : Settled config p)
    (hp : p.process_event codecs event = .ok (actions, q)) : Settled config q := by
  obtain ⟨r, hr, -, rfl⟩ := process_event_ok hp
  obtain ⟨n, cq, st, b, he⟩ := flush_writes codecs r
  apply h.of_eq
  rw [he]
  exact (before_event_flush_same hr).1

/-! ## Datagrams -/

/-- Only a window that cannot be negotiated stops a command. -/
theorem Unpanicked.process_command_total (h : Unpanicked config p) (c : ProtocolCommand) (t : Instant) (draw : UInt16) :
    ∃ q r, p.process_command c t draw = .ok (q, r) := by
  by_cases hc : p.Steers c
  · cases c with
    | Disconnect n => exact ⟨_, _, rfl⟩
    | Connect chs m v sid cid => exact ⟨_, _, rfl⟩
    | VerifyConnect pid chs m isid osid w =>
      have hs : (p.heard t).state = .Connecting := hc
      have hb : WindowBounds (p.heard t).config := h.settled.windowBounds.2 (h.bounds hc)
      obtain ⟨f, hf⟩ := (negotiated_ok_iff (p.heard t) w).2 hb
      rw [process_command, process_verify_connect_eq hs, hf]
      exact ⟨_, _, rfl⟩
    | _ => exact absurd hc id
  · obtain ⟨q, packets, hq, -⟩ := process_command_other hc t draw
    exact ⟨q, .ok packets, hq⟩

theorem Unpanicked.process_command {packets : IncomingPackets} (h : Unpanicked config p)
    (hp : p.process_command c t draw = .ok (q, .ok packets)) : Unpanicked config q := by
  refine ⟨h.settled.process_command hp, fun hs => h.bounds ?_⟩
  rw [(process_command_moves hp).state] at hs
  exact PeerState.connecting_of_after_command hs

theorem Unpanicked.process_commands_total {cmds : List ProtocolCommand} (h : Unpanicked config p)
    (acc : IncomingPackets) : ∃ q r, process_commands t draw cmds p acc = .ok (q, r) := by
  induction cmds generalizing p acc with
  | nil => exact ⟨p, _, rfl⟩
  | cons c cmds ih =>
    obtain ⟨q, r, hq⟩ := h.process_command_total c t draw
    cases r with
    | error e => exact ⟨q, _, process_commands_refuses hq cmds acc⟩
    | ok packets =>
      rw [process_commands_ok hq]
      exact ih (h.process_command hq) _

theorem taking_config (p : Peer) (t : Instant) (len : Nat) : (p.taking t len).config = p.config := by
  unfold taking counted received update_bandwidth_window record_bytes_received record_data_received
    record_packet_received
  rfl

theorem Unpanicked.taking (h : Unpanicked config p) (t : Instant) (len : Nat) : Unpanicked config (p.taking t len) := by
  refine ⟨h.settled.of_eq (taking_config p t len), fun hs => h.bounds ?_⟩
  rw [← (moves_taking p t len).state, hs]

theorem Unpanicked.process_packet_total (h : Unpanicked config p) (codecs : Codecs) (payload : Bytes) (t : Instant)
    (draw : UInt16) : ∃ actions q, p.process_packet codecs payload t draw = .ok (actions, q) := by
  unfold Peer.process_packet
  split
  · exact ⟨_, _, rfl⟩
  dsimp only
  split
  · exact ⟨_, _, rfl⟩
  rw [show (p.update_bandwidth_window t).record_bytes_received (.ofNat payload.length) =
    p.counted t payload.length from rfl]
  match ho : open_datagram codecs (p.counted t payload.length).config payload with
  | .error (.panic e) => exact absurd ho (open_datagram_no_panic _ _ _ e)
  | .error (.error e) =>
    rw [process_command_packet_unopened ho]
    exact ⟨_, _, rfl⟩
  | .ok packet =>
    have htaking : Unpanicked config ((p.counted t payload.length).received payload.length) :=
      h.taking t payload.length
    obtain ⟨q, r, hq⟩ : ∃ q r, process_commands t draw packet.commands
        ((p.counted t payload.length).received payload.length) [] = .ok (q, r) := htaking.process_commands_total []
    rw [process_command_packet_opened ho, hq]
    cases r with
    | error e => exact ⟨_, _, rfl⟩
    | ok packets => exact ⟨_, _, rfl⟩

theorem Unpanicked.process_packet (h : Unpanicked config p)
    (hp : p.process_packet codecs payload t draw = .ok (actions, q)) : Unpanicked config q := by
  refine ⟨h.settled.process_packet hp, fun hs => h.bounds ?_⟩
  rcases process_packet_cases hp with ⟨-, hm, -⟩ | ⟨packet, r, packets, -, -, -, hm⟩
  · rw [← hm.state, hs]
  · rw [hm.state] at hs
    exact PeerState.connecting_of_after_commands (PeerState.connecting_of_after_recv hs)

/-- Nothing opens to no datagram. -/
theorem open_datagram_nil {packet : CommandPacket} : open_datagram codecs config [] ≠ .ok packet := by
  intro h
  unfold open_datagram at h
  split at h <;> cases h

/-- Once its bandwidth window is over, a session takes a datagram. -/
theorem can_receive_after_window (p : Peer) :
    (p.update_bandwidth_window
      (p.bandwidth_throttle.bandwidth_window_start + bandwidth_window)).can_receive_within_bandwidth = true := by
  unfold Peer.update_bandwidth_window BandwidthThrottle.update_bandwidth_window Peer.can_receive_within_bandwidth
    BandwidthThrottle.can_receive_within_bandwidth
  rw [if_pos (Nat.le_of_eq (Nat.add_sub_cancel_left ..).symm)]
  by_cases hl : p.bandwidth_throttle.incoming_bandwidth_limit = 0
  · simp [hl]
  · simp [UInt32.pos_iff_ne_zero.2 hl]

/-- An answer that does not make a waiting session panic finds the bounds in
order. -/
theorem bounds_of_answered {pid isid osid : UInt16} {chs : UInt8} {m : UInt16} {w : UInt32} (hs : p.state = .Connecting)
    (hb : (p.update_bandwidth_window t).can_receive_within_bandwidth = true)
    (ho : open_datagram codecs p.config payload = .ok ⟨[.VerifyConnect pid chs m isid osid w]⟩)
    (h : p.process_packet codecs payload t draw = .ok (actions, q)) : WindowBounds p.config := by
  have hne : payload ≠ [] := by
    rintro rfl
    exact open_datagram_nil ho
  have hprocessed : ∃ r result, (p.counted t payload.length).process_command_packet codecs payload t draw =
      .ok (r, result) := by
    rcases process_packet_processes hne hb h with ⟨e, hr, -⟩ | ⟨r, packets, hr, -, -⟩
    · exact ⟨q, _, hr⟩
    · exact ⟨r, _, hr⟩
  obtain ⟨r, result, hr⟩ := hprocessed
  rw [process_command_packet_opened (counted_config p t payload.length ▸ ho)] at hr
  change process_commands t draw _ (p.taking t payload.length) [] = .ok (r, result) at hr
  have hconnecting : ((p.taking t payload.length).heard t).state = .Connecting :=
    (moves_taking p t payload.length).state.trans hs
  rw [← taking_config p t payload.length]
  -- otherwise `clamp` panics
  cases hn : negotiated ((p.taking t payload.length).heard t).config ((p.taking t payload.length).heard t).flow_control w with
  | ok f => exact (negotiated_ok_iff ((p.taking t payload.length).heard t) w).1 ⟨f, hn⟩
  | error e =>
    have hpanics : (p.taking t payload.length).process_command (.VerifyConnect pid chs m isid osid w) t draw =
        .error e := by
      rw [process_command, process_verify_connect_eq hconnecting, hn]
      rfl
    rw [process_commands_panics hpanics] at hr
    cases hr

/-! ## User packets -/

/-- Whatever the user sends can be queued. -/
theorem process_event_total (codecs : Codecs) (p : Peer) (event : Packet) :
    ∃ actions q, p.process_event codecs event = .ok (actions, q) := by
  have hqueued : ∃ r, p.record_send.2.enqueue_packet event = .ok r := by
    cases hm : packet_mode event with
    | some mode => exact ⟨_, enqueue_packet_mode hm⟩
    | none =>
      have hunsequenced : event.delivery = .Unreliable ∧ event.ordering = .Unsequenced := by
        unfold packet_mode at hm
        split at hm
        · cases hm
        · exact ⟨‹_›, ‹_›⟩
        · cases hm
      have hpos : 0 < p.record_send.2.max_payload_unseq := Nat.lt_of_lt_of_le Nat.one_pos (Nat.le_max_left _ _)
      obtain ⟨r, -, hr, -⟩ := enqueue_chunks_cut event.channel_id (.from_arc event.payload) hpos
        event.payload.length 0 (by simp) p.record_send.2
      refine ⟨r, ?_⟩
      unfold enqueue_packet
      rw [hunsequenced.1, hunsequenced.2]
      exact hr
  obtain ⟨r, hr⟩ := hqueued
  unfold process_event
  simp only [hr, bind, Except.bind, pure, Except.pure]
  exact ⟨_, _, rfl⟩

theorem Settled.disconnect (h : Settled config p) : Settled config p.disconnect := by
  apply h.of_eq
  unfold Peer.disconnect
  split <;> rfl

/-- Without an idle timeout every poll drops the session. -/
theorem Settled.should_drop (h : Settled config p) (h0 : config.idle_connection_timeout = 0) (t : Instant) :
    (p.should_drop t).1 = true := by
  obtain ⟨a, b, hc⟩ := h
  unfold Peer.should_drop
  split
  · rfl
  · simp [hc, h0]

/-- With an idle timeout, a session that waits is not dropped at once. -/
theorem kept_at_start (hs : p.state = .Connecting) (hu : p.Untracked) (h : Settled config p)
    (h0 : 0 < config.idle_connection_timeout) : (p.should_drop 0).1 = false := by
  obtain ⟨a, b, hc⟩ := h
  unfold Peer.should_drop
  rw [if_neg (by rw [hs]; decide), hu.packets_in_flight, hc]
  simp [Nat.pos_iff_ne_zero.1 h0]

end Peer

/-- A session that is there after a poll was there before, was updated and was
not dropped. -/
theorem Account.settle_some {self : Account} {codecs : Codecs} {time : Instant} {draw : Duration × ProbeDraw} {s : Peer}
    (h : (self.settle codecs time draw).session = some s) :
    ∃ s₀, self.session = some s₀ ∧ s = (s₀.update codecs time draw.1 draw.2).2 ∧ (s.should_drop time).1 = false := by
  cases hs : self.session with
  | none =>
    rw [settle_none hs, hs] at h
    cases h
  | some s₀ =>
    refine ⟨s₀, rfl, ?_⟩
    have hupdated : (self.update codecs time draw).session = some (s₀.update codecs time draw.1 draw.2).2 := by
      rw [update, act_some hs]
    unfold settle at h
    dsimp only at h
    split at h
    · cases h
    · rename_i hd
      rw [check, act_some hupdated] at h
      cases h
      refine ⟨rfl, ?_⟩
      unfold drops at hd
      rw [hupdated] at hd
      exact eq_false_of_ne_true hd

theorem Account.settle_kept {self : Account} {codecs : Codecs} {time : Instant} {draw : Duration × ProbeDraw} {s : Peer}
    (hs : self.session = some s) (hkept : ((s.update codecs time draw.1 draw.2).2.should_drop time).1 = false) :
    (self.settle codecs time draw).session = some (s.update codecs time draw.1 draw.2).2 := by
  have hupdated : (self.update codecs time draw).session = some (s.update codecs time draw.1 draw.2).2 := by
    rw [update, act_some hs]
  unfold settle drops
  dsimp only
  rw [hupdated, Option.any_some, hkept, check, act_some hupdated]
  rfl

namespace SessionManager

variable {I : Type} {codecs : Codecs} {intercept : Interceptor I} {m m' : SessionManager Peer I} {config : Config}
  {limit : UInt16} {poll : Poll} {time : Instant} {addr : SocketAddr} {next : Option Peer} {actions : List Action}
  {P Q : Peer → Prop}

/-- Every session of the host is of this kind. -/
def Each (P : Peer → Prop) (m : SessionManager Peer I) : Prop := ∀ addr s, m.sessions.lookup addr = some s → P s

theorem each_new (P : Peer → Prop) (config : Config) (i : I) : Each P (.new config i : SessionManager Peer I) :=
  fun addr s hs => by cases hs

theorem Each.mono (h : Each P m) (hi : ∀ s, P s → Q s) : Each Q m := fun addr s hs => hi s (h addr s hs)

/-- It stays so if the session that acts is of the kind. -/
theorem Each.acts (h : Each P m) (ha : Acts m m' addr next actions) (hn : ∀ s, next = some s → P s) : Each P m' := by
  intro a s hs
  by_cases he : a = addr
  · subst he
    exact hn s (ha.after.symm.trans hs)
  · rw [ha.others a he] at hs
    exact h a s hs

/-! ## The loops of a poll -/

/-- The session that acts is one the host has, or is new. -/
def HasOrMakes (m : SessionManager Peer I) (addr : SocketAddr) (time : Instant) (ids : PeerDraw) (s : Peer) : Prop :=
  m.sessions.lookup addr = some s ∨ s = .new addr m.config time ids

theorem Each.of_acting {ids : PeerDraw} {s : Peer} (h : Each P m) (hs : m.HasOrMakes addr time ids s)
    (hnew : P (.new addr m.config time ids)) : P s := by
  rcases hs with hl | rfl
  · exact h addr s hl
  · exact hnew

/-- All that the receive loop does with a datagram. -/
theorem receive_does {n n' : Nat} {d : IncomingDatagram} (hm : Addressed m)
    (h : receive (Peer.session codecs) intercept time (n, m) d = .ok (n', m')) :
    m' = m.intercepted intercept d ∨
      ∃ s payload s' actions next, m.HasOrMakes d.address time d.ids s ∧
        s.process_packet codecs payload time d.draw = .ok (actions, s') ∧ (∀ t, next = some t → t = s') ∧
        Acts (m.intercepted intercept d) m' d.address next actions := by
  have haddressed : Addressed (m.intercepted intercept d) := hm
  rw [receive_eq] at h
  cases hp : m.passes intercept d with
  | none =>
    rw [hp] at h
    cases h
    exact .inl rfl
  | some payload =>
    rw [hp] at h
    change (m.intercepted intercept d).dispatch (Peer.session codecs) time n d payload = .ok (n', m') at h
    rcases dispatch_acts haddressed h with ⟨s, s', actions, hl, hs', -, ha⟩ |
      ⟨s', actions, -, hs', ⟨-, -, ha⟩ | ⟨-, -, ha⟩⟩
    · exact .inr ⟨s, payload, s', actions, _, .inl hl, hs', fun t ht => (Option.some.inj ht).symm, ha⟩
    · exact .inr ⟨_, payload, s', actions, _, .inr rfl, hs', fun t ht => (Option.some.inj ht).symm, ha⟩
    · exact .inr ⟨_, payload, s', actions, _, .inr rfl, hs', fun t ht => (by cases ht), ha⟩

/-- All that the loop over user events does with one. -/
theorem send_user_event_does {n n' : Nat} {e : UserEvent} (hm : Addressed m)
    (h : send_user_event (Peer.session codecs) time (n, m) e = .ok (n', m')) :
    m' = m ∨
      ∃ s s' actions, m.HasOrMakes e.event.addr time e.ids s ∧ s.process_event codecs e.event = .ok (actions, s') ∧
        Acts m m' e.event.addr (some s') actions := by
  rcases send_user_event_acts hm h with ⟨s, s', actions, hl, hs', ha⟩ | ⟨-, -, he⟩ | ⟨s', actions, -, -, hs', ha⟩
  · exact .inr ⟨s, s', actions, .inl hl, hs', ha⟩
  · exact .inl he
  · exact .inr ⟨_, s', actions, .inr rfl, hs', ha⟩

/-- What the receive loop keeps. -/
structure Ready (config : Config) (limit : UInt16) (state : Nat × SessionManager Peer I) : Prop where
  sorted : Sorted limit state.2
  counted : state.2.pending_count ≤ state.1
  configured : state.2.config = config
  sessions : Each (Peer.Unpanicked config) state.2

/-- No round of the receive loop panics. -/
theorem Ready.receive_total {state : Nat × SessionManager Peer I} (h : Ready config limit state) (codecs : Codecs)
    (intercept : Interceptor I) (time : Instant) (d : IncomingDatagram) :
    ∃ state', receive (Peer.session codecs) intercept time state d = .ok state' := by
  obtain ⟨n, m⟩ := state
  rw [receive_eq]
  cases hp : m.passes intercept d with
  | none => exact ⟨_, rfl⟩
  | some payload =>
    change ∃ state', (m.intercepted intercept d).dispatch (Peer.session codecs) time n d payload = .ok state'
    cases hl : m.sessions.lookup d.address with
    | some s =>
      obtain ⟨actions, s', hs'⟩ := (h.sessions d.address s hl).process_packet_total codecs payload time d.draw
      obtain ⟨-, hn⟩ := recount_follows (r := m.intercepted intercept d) hl hs' h.counted
      obtain ⟨m', hm', -⟩ := dispatch_known (r := m.intercepted intercept d) h.sorted.addressed hl hs' hn
      exact ⟨_, hm'⟩
    | none =>
      obtain ⟨actions, s', hs'⟩ := (Peer.unpanicked_new d.address m.config time d.ids).process_packet_total codecs
        payload time d.draw
      obtain ⟨hyes, hno⟩ := dispatch_new (r := m.intercepted intercept d) (k := n) hl hs'
      cases ha : (m.intercepted intercept d).admits n d.address with
      | true =>
        obtain ⟨m', hm', -⟩ := hyes ha
        exact ⟨_, hm'⟩
      | false =>
        obtain ⟨m', hm', -⟩ := hno ha
        exact ⟨_, hm'⟩

theorem Ready.receive {state state' : Nat × SessionManager Peer I} {d : IncomingDatagram}
    (h : Ready config limit state)
    (hr : SessionManager.receive (Peer.session codecs) intercept time state d = .ok state') :
    Ready config limit state' := by
  obtain ⟨n, m⟩ := state
  obtain ⟨n', m'⟩ := state'
  suffices hrest : m'.config = config ∧ Each (Peer.Unpanicked config) m' from
    ⟨h.sorted.receive hr, receive_pending (n, m) d (n', m') h.counted hr, hrest.1, hrest.2⟩
  have hconfig : m.config = config := h.configured
  have hsessions : Each (Peer.Unpanicked config) (m.intercepted intercept d) := h.sessions
  rcases receive_does h.sorted.addressed hr with rfl | ⟨s, payload, s', actions, next, hs, hs', hnext, ha⟩
  · exact ⟨hconfig, hsessions⟩
  · have hunpanicked : s.Unpanicked config := h.sessions.of_acting hs (hconfig ▸ Peer.unpanicked_new _ _ _ _)
    refine ⟨ha.config.trans hconfig, hsessions.acts ha fun t ht => ?_⟩
    rw [hnext t ht]
    exact hunpanicked.process_packet hs'

/-- No user event panics. -/
theorem send_user_event_total (codecs : Codecs) (time : Instant) (state : Nat × SessionManager Peer I) (e : UserEvent) :
    ∃ state', send_user_event (Peer.session codecs) time state e = .ok state' := by
  obtain ⟨n, m⟩ := state
  cases hl : m.sessions.lookup e.event.addr with
  | some s =>
    obtain ⟨actions, s', hs'⟩ := Peer.process_event_total codecs s e.event
    have hn : recount (Peer.session codecs) n s.is_established s' = .ok n := by
      have hsame : (!s.is_established && s'.is_established) = false := by
        rw [Peer.process_event_established hs', Bool.not_and_self]
      rw [recount_of_le (by rw [hsame]; exact Nat.zero_le n), hsame]
      rfl
    change (Peer.session codecs).process_event s e.event time = .ok (actions, s') at hs'
    change recount (Peer.session codecs) n ((Peer.session codecs).is_established s) s' = .ok n at hn
    simp only [send_user_event, hl, hs', hn, bind, Except.bind, pure, Except.pure]
    exact ⟨_, rfl⟩
  | none =>
    cases ha : m.can_accept_duplicate e.event.addr with
    | false =>
      simp only [send_user_event, hl, ha]
      exact ⟨_, rfl⟩
    | true =>
      obtain ⟨actions, s', hs'⟩ := Peer.process_event_total codecs (Peer.new e.event.addr m.config time e.ids) e.event
      change (Peer.session codecs).process_event ((Peer.session codecs).create_session m.config e.event.addr time e.ids)
        e.event time = .ok (actions, s') at hs'
      simp only [send_user_event, hl, ha, hs', bind, Except.bind, pure, Except.pure]
      exact ⟨_, rfl⟩

/-- What the loop over user events keeps. -/
structure Sending (config : Config) (limit : UInt16) (state : Nat × SessionManager Peer I) : Prop where
  sorted : Sorted limit state.2
  configured : state.2.config = config
  sessions : Each (Peer.Settled config) state.2

theorem Sending.send_user_event {state state' : Nat × SessionManager Peer I} {e : UserEvent}
    (h : Sending config limit state)
    (hr : SessionManager.send_user_event (Peer.session codecs) time state e = .ok state') :
    Sending config limit state' := by
  obtain ⟨n, m⟩ := state
  obtain ⟨n', m'⟩ := state'
  have hsorted := h.sorted.send_user_event hr
  have hconfig : m.config = config := h.configured
  rcases send_user_event_does h.sorted.addressed hr with rfl | ⟨s, s', actions, hs, hs', ha⟩
  · exact ⟨hsorted, hconfig, h.sessions⟩
  · have hsettled : s.Settled config := h.sessions.of_acting hs (hconfig ▸ Peer.settled_new _ _ _ _)
    refine ⟨hsorted, ha.config.trans hconfig, h.sessions.acts ha fun t ht => ?_⟩
    cases ht
    exact hsettled.process_event hs'

/-! ## Polls -/

/-- What a host keeps between polls. A session that is still there may wait for
an answer, and then the bounds are in order. -/
structure Quiet (config : Config) (limit : UInt16) (m : SessionManager Peer I) : Prop where
  sorted : Sorted limit m
  configured : m.config = config
  sessions : Each (fun s => s.Settled config ∧ Peer.WindowBounds config) m

theorem quiet_new (config : Config) (i : I) :
    Quiet config config.max_duplicate_peers (.new config i : SessionManager Peer I) :=
  ⟨sorted_new config i, rfl, each_new _ config i⟩

theorem Quiet.ready (h : Quiet config limit m) (codecs : Codecs) :
    Ready config limit (m.unestablished_session_count (Peer.session codecs), m) :=
  ⟨h.sorted, pending_count_le codecs m, h.configured, h.sessions.mono fun _ hs => ⟨hs.1, fun _ => hs.2⟩⟩

/-- A quiet host polls without a panic. -/
theorem Quiet.before_updates (h : Quiet config limit m) (codecs : Codecs) (intercept : Interceptor I) (poll : Poll) :
    ∃ state, m.before_updates (Peer.session codecs) intercept poll = .ok state ∧ Sending config limit state := by
  obtain ⟨received, hreceived⟩ := foldlM_ok_iff.2 fun x hx =>
    (loop_rounds_invariant (f := receive (Peer.session codecs) intercept poll.time) (I := Ready config limit)
      (fun _ _ _ hs hr => hs.receive hr) (h.ready codecs) x hx).receive_total codecs intercept poll.time x.2
  have hready : Ready config limit received :=
    foldlM_invariant (I := Ready config limit) (fun _ _ _ hs hr => hs.receive hr) hreceived (h.ready codecs)
  obtain ⟨state, hstate⟩ := foldlM_ok_iff.2 fun (x : (Nat × SessionManager Peer I) × UserEvent)
    (_ : x ∈ loop_rounds (send_user_event (Peer.session codecs) poll.time) received poll.user_events) =>
      send_user_event_total codecs poll.time x.1 x.2
  have hsending : Sending config limit state :=
    foldlM_invariant (I := Sending config limit) (fun _ _ _ hs hr => hs.send_user_event hr) hstate
      ⟨hready.sorted, hready.configured, hready.sessions.mono fun _ hs => hs.settled⟩
  refine ⟨state, ?_, hsending⟩
  unfold SessionManager.before_updates after_datagrams
  rw [hreceived]
  exact hstate

theorem Quiet.manual_poll (h : Quiet config limit m) (codecs : Codecs) (intercept : Interceptor I) (poll : Poll)
    (hb : 0 < config.idle_connection_timeout → Peer.WindowBounds config) :
    ∃ flushed m', m.manual_poll (Peer.session codecs) intercept poll = .ok (flushed, m') ∧ Quiet config limit m' := by
  obtain ⟨⟨n, sent⟩, hsent, hsending⟩ := h.before_updates codecs intercept poll
  obtain ⟨r, hr, hsettled⟩ := settles intercept hsent hsending.sorted.addressed hsending.sorted.accounted
  refine ⟨_, _, hr, ⟨hsettled.addressed, hsettled.accounted.congr (fun _ => rfl) rfl rfl⟩,
    hsettled.frame.config.trans hsending.configured, fun addr s hs => ?_⟩
  have hsession : (r.account addr).session = some s := hs
  rw [hsettled.account] at hsession
  obtain ⟨s₀, hs₀, rfl, hkept⟩ := Account.settle_some hsession
  have hconfig : (s₀.update codecs poll.time (poll.update_draw addr).1 (poll.update_draw addr).2).2.Settled config :=
    (hsending.sessions addr s₀ hs₀).update
  refine ⟨hconfig, hb (Nat.pos_of_ne_zero fun h0 => ?_)⟩
  rw [hconfig.should_drop h0] at hkept
  cases hkept

theorem Quiet.disconnect (h : Quiet config limit m) (addr : SocketAddr) : Quiet config limit (m.disconnect addr) := by
  have hsorted := h.sorted.disconnect addr
  rcases disconnect_acts h.sorted.addressed addr with ⟨-, he⟩ | ⟨s, hl, ha⟩
  · rw [he]
    exact h
  · refine ⟨hsorted, ha.config.trans h.configured, h.sessions.acts ha fun t ht => ?_⟩
    cases ht
    exact ⟨(h.sessions addr s hl).1.disconnect, (h.sessions addr s hl).2⟩

theorem run_quiet (hb : 0 < config.idle_connection_timeout → Peer.WindowBounds config) (i : I)
    {steps : List (SessionManager Peer I × HostStep)} (h : HostRun codecs intercept (.new config i) steps m) :
    Quiet config config.max_duplicate_peers m := by
  refine h.invariant (quiet_new config i) fun m x m' hm hact => ?_
  obtain ⟨op, flushed⟩ := x
  cases op with
  | Poll poll =>
    obtain ⟨flushed', r, hr, hquiet⟩ := hm.manual_poll codecs intercept poll hb
    rw [show m.act codecs intercept (.Poll poll) = .ok (flushed', r) from hr] at hact
    cases hact
    exact hquiet
  | Disconnect addr =>
    cases hact
    exact hm.disconnect addr

/-! ## Where it panics -/

/-- A packet without data. -/
def knock : Packet := ⟨⟨.V4 0, 0⟩, [], .Unreliable, .None, 0⟩

/-- A poll that only sends it. -/
def knocking : Poll := { poll_of (letter (.Ping 0)) with datagrams := [], user_events := [⟨knock, ⟨0, 0, 0⟩⟩] }

/-- After its first packet, a session waits for an answer. -/
theorem waits_after_knock (h0 : 0 < config.idle_connection_timeout) {flushed : Flushed} {m : SessionManager Peer Unit}
    (h : (new config () : SessionManager Peer Unit).manual_poll (Peer.session codecs) .no_op knocking =
      .ok (flushed, m)) :
    ∃ s, m.sessions.lookup knock.addr = some s ∧ s.state = .Connecting ∧ s.Settled config := by
  have hpoll := h
  rw [manual_poll_eq] at hpoll
  obtain ⟨updated, hupdated, -⟩ := bind_eq_ok hpoll
  obtain ⟨n, sent, hsent, -⟩ := before_checks_eq_ok hupdated
  obtain ⟨state, hstate, hsend⟩ := bind_eq_ok hsent
  cases hstate
  obtain ⟨state', hone, hnil⟩ := bind_eq_ok hsend
  cases hnil
  have hsorted := (sorted_new config ()).send_user_event hone
  rcases send_user_event_acts (addressed_new config ()) hone with ⟨s, s', actions, hl, -, -⟩ | ⟨-, hno, -⟩ |
    ⟨s, actions, -, -, hs, ha⟩
  · cases hl
  · -- the first session of an IP is let in
    unfold can_accept_duplicate at hno
    split at hno
    · cases hno
    · rename_i hmax
      have hpos : 0 < config.max_duplicate_peers.toNat :=
        Nat.pos_of_ne_zero fun h0 => hmax (UInt16.toNat_inj.1 h0)
      exact absurd hpos (of_decide_eq_false hno)
  · have hsent' : (new config () : SessionManager Peer Unit).before_updates (Peer.session codecs) .no_op knocking =
        .ok (n, sent) := hsent
    obtain ⟨r, hr, hsettled⟩ := settles .no_op hsent' hsorted.addressed hsorted.accounted
    rw [h] at hr
    cases hr
    have hconfig := (Peer.settled_new knock.addr config 0 ⟨0, 0, 0⟩).process_event hs
    have huntracked := (Peer.untracked_new knock.addr config 0 ⟨0, 0, 0⟩).process_event hs
    have hwaits : s.state = .Connecting := (Peer.process_event_moves hs).2.state
    have hupdate := (Peer.update_moves codecs s 0 0 ⟨0, fun _ => 0⟩).2.state.trans hwaits
    refine ⟨_, ?_, hupdate, hconfig.update⟩
    have hsession := congrArg Account.session (hsettled.account knock.addr)
    refine hsession.trans (Account.settle_kept ha.after ?_)
    exact Peer.kept_at_start hupdate (huntracked.update 0 0 ⟨0, fun _ => 0⟩) hconfig.update h0

/-- A host never panics, in whatever run, on whatever it gets, iff its window
bounds are in order, unless no session outlives a poll. -/
theorem never_panics_iff (codecs : Codecs) (config : Config) :
    (∀ (I : Type) (intercept : Interceptor I) (i : I) (steps : List (SessionManager Peer I × HostStep))
      (m : SessionManager Peer I), HostRun codecs intercept (.new config i) steps m →
      ∀ poll, ∃ flushed m', m.manual_poll (Peer.session codecs) intercept poll = .ok (flushed, m')) ↔
    (0 < config.idle_connection_timeout → Peer.WindowBounds config) := by
  constructor
  · intro h h0
    obtain ⟨flushed, m, hm⟩ := h Unit .no_op () [] _ .start knocking
    obtain ⟨s, hl, hs, hsettled⟩ := waits_after_knock h0 hm
    obtain ⟨data, ho⟩ := Peer.exists_datagram codecs s.config [.VerifyConnect 0 0 0 0 0 0]
      ⟨by simp, by simp [CommandEncoder.encode_command]⟩
    have hrun : HostRun codecs .no_op (.new config ()) [(.new config (), ⟨.Poll knocking, flushed⟩)] m := .next .start hm
    obtain ⟨flushed', m', hm'⟩ := h Unit .no_op () _ m hrun { poll_of ⟨knock.addr, data, ⟨0, 0, 0⟩, 0⟩ with
      time := s.bandwidth_throttle.bandwidth_window_start + bandwidth_window }
    rw [manual_poll_eq] at hm'
    obtain ⟨updated, hupdated, -⟩ := bind_eq_ok hm'
    obtain ⟨n, sent, hsent, -⟩ := before_checks_eq_ok hupdated
    obtain ⟨state, hreceived, -⟩ := bind_eq_ok hsent
    obtain ⟨⟨k, r⟩, hone, -⟩ := bind_eq_ok hreceived
    rw [receive_eq] at hone
    change (m.intercepted .no_op _).dispatch (Peer.session codecs) _ _ _ data = .ok (k, r) at hone
    rcases dispatch_cases hone with ⟨s', t, actions, hl', hp, -⟩ | ⟨t, actions, hl', -⟩
    · cases hl.symm.trans hl'
      exact hsettled.windowBounds.1 (Peer.bounds_of_answered hs (Peer.can_receive_after_window s) ho hp)
    · cases hl.symm.trans hl'
  · intro hb I intercept i steps m h poll
    obtain ⟨flushed, m', hm', -⟩ := (run_quiet hb i h).manual_poll codecs intercept poll hb
    exact ⟨flushed, m', hm'⟩

end SessionManager

end Bitfold
