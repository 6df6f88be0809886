import Bitfold.Lib.Runs
import Bitfold.Receiving
/-!
# The connection state machine

Which operation of a peer makes which step between the connection states. Of
the incoming commands only three can: `Disconnect`, a `Connect` that finds the
peer idle, and a `VerifyConnect` that finds it connecting.
-/

namespace Bitfold

open Lib

namespace Peer

variable {p q r : Peer} {c : ProtocolCommand} {t : Instant} {draw : UInt16}

/-! ## What the other commands leave alone -/

/-- The connection is in the same state, the session has the same ids and
window, and the configuration of both is the same. -/
structure SameSession (p q : Peer) : Prop where
  state : q.state = p.state
  peer_id : q.peer_id = p.peer_id
  incoming : q.incoming_session_id = p.incoming_session_id
  outgoing : q.outgoing_session_id = p.outgoing_session_id
  flow : q.flow_control = p.flow_control
  config : ∃ a b, q.config = { p.config with incoming_bandwidth_limit := a, outgoing_bandwidth_limit := b }
  address : q.remote_address = p.remote_address

theorem SameSession.trans (h : SameSession p q) (h' : SameSession q r) : SameSession p r := by
  obtain ⟨hst, hid, hin, hout, hf, ⟨a, b, hc⟩, ha⟩ := h
  obtain ⟨hst', hid', hin', hout', hf', ⟨a', b', hc'⟩, ha'⟩ := h'
  exact ⟨hst'.trans hst, hid'.trans hid, hin'.trans hin, hout'.trans hout, hf'.trans hf, ⟨a', b', by rw [hc', hc]⟩,
    ha'.trans ha⟩

theorem SameSession.handshake (h : SameSession p q) :
    q.config.use_connection_handshake = p.config.use_connection_handshake := by
  obtain ⟨a, b, hc⟩ := h.config
  rw [hc]

@[simp] theorem sameSession_refl (p : Peer) : SameSession p p := ⟨rfl, rfl, rfl, rfl, rfl, ⟨_, _, rfl⟩, rfl⟩

theorem sameSession_heard (p : Peer) (t : Instant) : SameSession p (p.heard t) :=
  ⟨rfl, rfl, rfl, rfl, rfl, ⟨_, _, rfl⟩, rfl⟩

theorem sameSession_enqueue_command (p : Peer) (c : ProtocolCommand) : SameSession p (p.enqueue_command c).2 := by
  obtain ⟨n, q, he⟩ := enqueue_command_writes p c
  rw [he]
  exact ⟨rfl, rfl, rfl, rfl, rfl, ⟨_, _, rfl⟩, rfl⟩

/-- Fields outside the session may be written at will. -/
theorem SameSession.writes (h : SameSession p q) (handler : AcknowledgmentHandler)
    (fragments : Std.ExtTreeMap UInt16 CommandFragmentBuffer) (channels : Std.ExtTreeMap UInt8 ChannelState) :
    SameSession p { q with
      acknowledge_handler := handler, command_fragments := fragments, channel_states := channels } :=
  ⟨h.state, h.peer_id, h.incoming, h.outgoing, h.flow, h.config, h.address⟩

/-- Can the command change the state of a connection? -/
def Steers (p : Peer) : ProtocolCommand → Prop
  | .Disconnect _ => True
  | .Connect .. => p.state = .Idle
  | .VerifyConnect .. => p.state = .Connecting
  | _ => False

/-- A command that steers nothing succeeds and leaves the session alone. -/
theorem process_command_other (h : ¬ p.Steers c) (t : Instant) (draw : UInt16) :
    ∃ q packets, p.process_command c t draw = .ok (q, .ok packets) ∧ SameSession p q := by
  have hheard := sameSession_heard p t
  cases ht : is_traffic c with
  | true =>
    obtain ⟨q, packets, hq, hh, -⟩ := process_command_traffic ht p t draw
    obtain ⟨t, u, hd, n, cq, fs, cs, rfl⟩ := hh.writes
    exact ⟨_, packets, hq, rfl, rfl, rfl, rfl, rfl, ⟨_, _, rfl⟩, rfl⟩
  | false =>
    cases c with
    | Disconnect n => exact absurd trivial h
    | Connect chs m v sid cid =>
      have hidle : (p.heard t).state ≠ .Idle := h
      refine ⟨p.heard t, .zero, ?_, hheard⟩
      rw [process_command, process_connect, if_neg hidle]
    | VerifyConnect pid chs m isid osid w =>
      have hconnecting : (p.heard t).state ≠ .Connecting := h
      refine ⟨p.heard t, .zero, ?_, hheard⟩
      rw [process_command, process_verify_connect, if_neg hconnecting]
      rfl
    | BandwidthLimit i o => exact ⟨_, _, rfl, rfl, rfl, rfl, rfl, rfl, ⟨_, _, rfl⟩, rfl⟩
    | ThrottleConfigure i a d => exact ⟨_, _, rfl, rfl, rfl, rfl, rfl, rfl, ⟨_, _, rfl⟩, rfl⟩
    | PMTUReply size token => exact ⟨_, _, rfl, rfl, rfl, rfl, rfl, rfl, ⟨_, _, rfl⟩, rfl⟩
    | _ => cases ht

theorem map_eq_ok {α β : Type} {x : Outcome α} {g : α → β} {b : β} (h : x.map g = .ok b) : ∃ a, x = .ok a ∧ g a = b := by
  cases x with
  | error e => cases h
  | ok a => exact ⟨a, rfl, Except.ok.inj h⟩

/-- The window that comes out of the negotiation. -/
def negotiated (config : Config) (flow : FlowControl) (w : UInt32) : Outcome FlowControl :=
  if config.use_window_flow_control then flow.set_window_size config (min w flow.window_size) else .ok flow

theorem negotiate_window_eq (p : Peer) (w : UInt32) :
    p.negotiate_window w = (negotiated p.config p.flow_control w).map fun f => { p with flow_control := f } := by
  unfold negotiate_window negotiated set_window_size
  split
  · rfl
  · rfl

/-- A connecting client takes over what a `VerifyConnect` says, and then
looks at the id in it. -/
theorem process_verify_connect_eq (hs : p.state = .Connecting) (pid isid osid : UInt16) (w : UInt32) :
    p.process_verify_connect pid isid osid w = (negotiated p.config p.flow_control w).map fun f =>
      if osid = p.outgoing_session_id then
        ({ p with peer_id := pid, incoming_session_id := isid, flow_control := f, state := .ConnectionSucceeded },
          .ok .zero)
      else
        ({ p with peer_id := pid, incoming_session_id := isid, flow_control := f },
          .error (.CouldNotReadHeader "Session ID mismatch")) := by
  unfold process_verify_connect
  rw [if_pos hs]
  dsimp only
  rw [negotiate_window_eq]
  dsimp only
  cases negotiated p.config p.flow_control w with
  | error e => rfl
  | ok f =>
    simp only [Except.map, Bind.bind, Except.bind]
    by_cases ho : osid = p.outgoing_session_id
    · rw [if_neg (not_not.2 ho), if_pos ho]
      rfl
    · rw [if_pos ho, if_neg ho]
      rfl

end Peer

/-! ## The order of the states -/

namespace PeerState

/-- The place of a state in the life of a connection. -/
def rank : PeerState → Nat
  | Idle => 0
  | Connecting | AcknowledgingConnect => 1
  | ConnectionSucceeded => 2
  | Connected => 3
  | Disconnecting => 4
  | Zombie => 5

/-- The same state, or one further on. -/
def Forward (s t : PeerState) : Prop := s = t ∨ s.rank < t.rank

theorem Forward.refl (s : PeerState) : Forward s s := .inl rfl

theorem Forward.trans {s t u : PeerState} (h : Forward s t) (h' : Forward t u) : Forward s u := by
  rcases h with rfl | h
  · exact h'
  · rcases h' with rfl | h'
    · exact .inr h
    · exact .inr (h.trans h')

/-- The established states are next to each other. -/
theorem established_iff_rank (s : PeerState) : s.is_established = true ↔ 2 ≤ s.rank ∧ s.rank ≤ 3 := by
  cases s <;> decide

theorem Forward.left_established {s t u : PeerState} (h : Forward s t) (h' : Forward t u)
    (hs : s.is_established = true) (ht : t.is_established = false) : u.is_established = false := by
  rw [established_iff_rank] at hs
  rw [← Bool.not_eq_true, established_iff_rank] at ht ⊢
  rcases h with rfl | h
  · exact absurd hs ht
  · rcases h' with rfl | h'
    · exact ht
    · omega

/-- The remote peer has taken its part in the handshake. -/
def answered : PeerState → Bool
  | AcknowledgingConnect | ConnectionSucceeded | Connected => true
  | _ => false

theorem answered_of_established {s : PeerState} (h : s.is_established = true) : s.answered = true := by
  cases s <;> first | rfl | cases h

end PeerState

/-! ## Steps -/

/-- An operation that may change the connection state. -/
inductive PeerCall where
  | RecordSend
  | RecordRecv
  | Disconnect
  | InitiateConnect
  | Process (command : ProtocolCommand) (time : Instant) (draw : UInt16)

namespace Peer

/-- The peer after an operation, also when the operation returns an error. -/
def call (self : Peer) : PeerCall → Outcome Peer
  | .RecordSend => .ok self.record_send.2
  | .RecordRecv => .ok self.record_recv.2
  | .Disconnect => .ok self.disconnect
  | .InitiateConnect => .ok self.initiate_connect
  | .Process command time draw => (self.process_command command time draw).map Prod.fst

/-- The remote peer takes its part in the handshake: a `Connect` reaches an
idle peer, or a connecting one gets a `VerifyConnect` with its own id. -/
def TakesPart (p : Peer) : PeerCall → Prop
  | .Process (.Connect ..) _ _ => p.state = .Idle
  | .Process (.VerifyConnect _ _ _ _ outgoing _) _ _ => p.state = .Connecting ∧ outgoing = p.outgoing_session_id
  | _ => False

/-- What one operation does to the connection. With the handshake on, a
state that shows the remote peer's part was in force before or is entered by
it. -/
structure Advances (p : Peer) (a : PeerCall) (q : Peer) : Prop where
  forward : p.state.Forward q.state
  handshake : q.config.use_connection_handshake = p.config.use_connection_handshake
  outgoing : q.outgoing_session_id = p.outgoing_session_id
  answered : p.config.use_connection_handshake = true → q.state.answered = true → p.state.answered = true ∨ p.TakesPart a

variable {p q : Peer} {a : PeerCall}

theorem forward_of (s s' : PeerState) (hp : p.state = s) (hq : q.state = s') (h : s.rank < s'.rank) :
    p.state.Forward q.state := by
  rw [hp, hq]
  exact .inr h

theorem SameSession.advances (h : SameSession p q) : Advances p a q where
  forward := .inl h.state.symm
  handshake := h.handshake
  outgoing := h.outgoing
  answered := fun _ hq => .inl (h.state ▸ hq)

theorem advances_initiate_connect (p : Peer) (a : PeerCall) : Advances p a p.initiate_connect := by
  unfold initiate_connect
  split
  · rename_i hs
    exact ⟨forward_of .Idle .Connecting hs rfl (by decide), rfl, rfl, fun _ hq => by cases hq⟩
  · exact (sameSession_refl p).advances

theorem advances_record_send (p : Peer) (a : PeerCall) : Advances p a p.record_send.2 := by
  unfold record_send
  cases hs : p.state with
  | Idle =>
    dsimp only
    split
    · exact advances_initiate_connect p a
    · exact ⟨forward_of .Idle .Connecting hs rfl (by decide), rfl, rfl, fun _ hq => by cases hq⟩
  | ConnectionSucceeded =>
    refine ⟨forward_of .ConnectionSucceeded .Connected hs rfl (by decide), rfl, rfl, fun _ _ => .inl ?_⟩
    rw [hs]
    rfl
  | _ => exact (sameSession_refl p).advances

theorem advances_record_recv (p : Peer) (a : PeerCall) : Advances p a p.record_recv.2 := by
  unfold record_recv
  cases hs : p.state with
  | Idle | Connecting =>
    dsimp only
    split
    · -- without the handshake any datagram connects
      rename_i hh
      refine ⟨forward_of _ .Connected hs rfl (by decide), rfl, rfl, fun hc _ => ?_⟩
      rw [hc] at hh
      cases hh
    · exact (sameSession_refl p).advances
  | AcknowledgingConnect =>
    refine ⟨forward_of _ .Connected hs rfl (by decide), rfl, rfl, fun _ _ => .inl ?_⟩
    rw [hs]
    rfl
  | _ => exact (sameSession_refl p).advances

theorem advances_disconnect (p : Peer) (a : PeerCall) : Advances p a p.disconnect := by
  unfold disconnect
  split
  · rename_i hs
    refine ⟨?_, rfl, rfl, fun _ hq => by cases hq⟩
    cases hp : p.state with
    | Disconnecting | Zombie =>
      rw [hp] at hs
      cases hs
    | _ => exact .inr (show _ < PeerState.Disconnecting.rank by decide)
  · exact (sameSession_refl p).advances

theorem advances_process_command {c : ProtocolCommand} {t : Instant} {draw : UInt16} {r : Processed}
    (h : p.process_command c t draw = .ok (q, r)) : Advances p (.Process c t draw) q := by
  by_cases hc : p.Steers c
  · cases c with
    | Disconnect n =>
      cases h
      refine ⟨?_, rfl, rfl, fun _ hq => by cases hq⟩
      cases hp : p.state with
      | Zombie => exact .refl _
      | _ => exact .inr (show _ < PeerState.Zombie.rank by decide)
    | Connect chs m v sid cid =>
      have hs : (p.heard t).state = .Idle := hc
      have hidle : p.state = .Idle := hc
      rw [process_command, process_connect, if_pos hs] at h
      cases h
      exact ⟨forward_of .Idle .AcknowledgingConnect hidle rfl (by decide), rfl, rfl, fun _ _ => .inr hidle⟩
    | VerifyConnect pid chs m isid osid w =>
      have hs : (p.heard t).state = .Connecting := hc
      have hconnecting : p.state = .Connecting := hc
      rw [process_command, process_verify_connect_eq hs] at h
      obtain ⟨f, -, h⟩ := map_eq_ok h
      by_cases ho : osid = p.outgoing_session_id
      · -- the answer to our own `Connect`
        rw [if_pos (show osid = (p.heard t).outgoing_session_id from ho)] at h
        cases h
        exact ⟨forward_of .Connecting .ConnectionSucceeded hconnecting rfl (by decide), rfl, rfl,
          fun _ _ => .inr ⟨hconnecting, ho⟩⟩
      · rw [if_neg (show osid ≠ (p.heard t).outgoing_session_id from ho)] at h
        cases h
        exact ⟨.inl rfl, rfl, rfl, fun _ hq => .inl hq⟩
    | _ => exact absurd hc id
  · obtain ⟨q', packets, he, hsame⟩ := process_command_other hc t draw
    rw [he] at h
    cases h
    exact hsame.advances

theorem call_advances (h : p.call a = .ok q) : Advances p a q := by
  cases a with
  | RecordSend =>
    cases h
    exact advances_record_send p _
  | RecordRecv =>
    cases h
    exact advances_record_recv p _
  | Disconnect =>
    cases h
    exact advances_disconnect p _
  | InitiateConnect =>
    cases h
    exact advances_initiate_connect p _
  | Process c t draw =>
    match hp : p.process_command c t draw with
    | .error e =>
      rw [call, hp] at h
      cases h
    | .ok (q', r) =>
      rw [call, hp] at h
      cases h
      exact advances_process_command hp

/-! ## Runs -/

/-- A run of operations. -/
abbrev CallRun : Peer → List (Peer × PeerCall) → Peer → Prop := Run fun p a q => p.call a = .ok q

/-- Nobody has taken part in the handshake, or somebody is on record, with the
peer's session id what it is now. -/
structure Witnessed (config : Config) (draw : PeerDraw) (steps : List (Peer × PeerCall)) (p : Peer) : Prop where
  handshake : p.config.use_connection_handshake = config.use_connection_handshake
  outgoing : p.outgoing_session_id = draw.outgoing_session_id
  answered : config.use_connection_handshake = true → p.state.answered = true →
    ∃ q a, (q, a) ∈ steps ∧ q.TakesPart a ∧ q.outgoing_session_id = p.outgoing_session_id

theorem witnessed_run {addr : SocketAddr} {config : Config} {time : Instant} {draw : PeerDraw}
    {steps : List (Peer × PeerCall)} (h : CallRun (.new addr config time draw) steps p) :
    Witnessed config draw steps p := by
  induction h with
  | start => exact ⟨rfl, rfl, fun _ hp => by cases hp⟩
  | @next steps p a q _ hs ih =>
    obtain ⟨-, hhandshake, houtgoing, hanswered⟩ := call_advances hs
    refine ⟨hhandshake.trans ih.handshake, houtgoing.trans ih.outgoing, fun hc hq => ?_⟩
    rcases hanswered (ih.handshake.trans hc) hq with hp | hp
    · obtain ⟨p', a', hmem, hpart, hout⟩ := ih.answered hc hp
      exact ⟨p', a', List.mem_append_left _ hmem, hpart, hout.trans houtgoing.symm⟩
    · exact ⟨p, a, by simp, hp, houtgoing.symm⟩

/-- The state of a connection only moves forward, a connection that was
established and is no more stays so, and one that was made by handshake was
agreed to by the remote peer. -/
theorem connection_moves_forward (addr : SocketAddr) (config : Config) (time : Instant) (draw : PeerDraw)
    {steps : List (Peer × PeerCall)} (h : CallRun (.new addr config time draw) steps p) :
    (∀ s t, [s, t].Sublist ((states steps p).map state) → s.Forward t) ∧
    (∀ s t u, [s, t, u].Sublist ((states steps p).map state) → s.is_established = true → t.is_established = false →
      u.is_established = false) ∧
    (config.use_connection_handshake = true → p.is_established = true →
      ∃ q a, (q, a) ∈ steps ∧ q.TakesPart a ∧ q.outgoing_session_id = p.outgoing_session_id) := by
  have hforward : ((states steps p).map state).Pairwise PeerState.Forward :=
    List.pairwise_map.2 (h.pairwise .trans fun _ _ _ hs => (call_advances hs).forward)
  have htwo : ∀ s t, [s, t].Sublist ((states steps p).map state) → s.Forward t := fun _ _ hst =>
    List.pairwise_iff_forall_sublist.1 hforward hst
  refine ⟨htwo, fun s t u hstu hs ht => ?_, fun hc hp => ?_⟩
  · have hst : s.Forward t := htwo _ _ (List.Sublist.trans (by simp) hstu)
    have htu : t.Forward u := htwo _ _ (List.Sublist.trans (by simp) hstu)
    exact hst.left_established htu hs ht
  · exact (witnessed_run h).answered hc (PeerState.answered_of_established hp)

/-- A client with session id 7. -/
def client_seven : Peer := .new ⟨.V4 0, 0⟩ .default 0 ⟨7, 0, 0⟩

/-- It sends, and the server's answer has its id. -/
theorem connection_moves_forward_client :
    ∃ steps p, CallRun client_seven steps p ∧ p.is_established = true ∧
      ∃ q a, (q, a) ∈ steps ∧ q.TakesPart a ∧ q.outgoing_session_id = p.outgoing_session_id := by
  obtain ⟨q, hq⟩ : ∃ q, client_seven.record_send.2.call (.Process (.VerifyConnect 1 1 1400 9 7 512) 0 0) = .ok q :=
    ⟨_, rfl⟩
  have hest : q.is_established = true := by
    cases hq
    rfl
  have hrun : CallRun client_seven
      [(client_seven, .RecordSend),
        (client_seven.record_send.2, .Process (.VerifyConnect 1 1 1400 9 7 512) 0 0)] q :=
    .next (.next .start rfl) hq
  exact ⟨_, q, hrun, hest, (connection_moves_forward _ _ _ _ hrun).2.2 rfl hest⟩

end Peer

end Bitfold
