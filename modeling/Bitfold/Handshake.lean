import Bitfold.PeerIo
/-!
# The connection handshake

A client opens with `Connect`, the server answers with `VerifyConnect`. The
server fills in the ids from its own point of view (the client's id is its
incoming one); the client reads them as if they were from its own.
-/

namespace Bitfold

namespace Peer

/-- The commands a new peer has queued. -/
@[simp] theorem new_commands (addr : SocketAddr) (config : Config) (time : Instant) (draw : PeerDraw) :
    (Peer.new addr config time draw).command_queue.commands = [] := rfl

/-- The handshake of `client` and `server` runs through without an error, the
client is connected and the two agree on the session. -/
def Agree (client server : Peer) (time₁ time₂ : Instant) (draw₁ draw₂ : UInt16) : Prop :=
  ∃ connect verify server' client' packets₁ packets₂,
    client.initiate_connect.command_queue.commands = [connect] ∧
    server.process_command connect time₁ draw₁ = .ok (server', .ok packets₁) ∧
    server'.command_queue.commands = [verify] ∧
    client.initiate_connect.process_command verify time₂ draw₂ = .ok (client', .ok packets₂) ∧
    client'.state = .ConnectionSucceeded ∧
    client'.incoming_session_id = server'.outgoing_session_id ∧
    server'.incoming_session_id = client'.outgoing_session_id

/-- The window a client would negotiate passes its own bounds. -/
def WindowBounds (config : Config) : Prop :=
  config.use_window_flow_control = true → config.min_window_size ≤ config.max_window_size

/-- The window is negotiated, or the bounds are out of order and the peer
panics. -/
theorem negotiate_window_cases (p : Peer) (w : UInt32) :
    (WindowBounds p.config ∧ ∃ f, p.negotiate_window w = .ok { p with flow_control := f }) ∨
      (¬ WindowBounds p.config ∧ ∃ e, p.negotiate_window w = .error e) := by
  unfold negotiate_window set_window_size FlowControl.set_window_size FlowControl.clamp WindowBounds
  by_cases hf : p.config.use_window_flow_control = true
  · by_cases h : p.config.min_window_size ≤ p.config.max_window_size
    · exact .inl ⟨fun _ => h, _, by simp only [if_pos hf, if_pos h]; rfl⟩
    · exact .inr ⟨fun hc => h (hc hf), _, by simp only [if_pos hf, if_neg h]; rfl⟩
  · exact .inl ⟨fun hc => absurd hc hf, p.flow_control, by simp only [if_neg hf]; rfl⟩

/-- What a connecting client makes of a `VerifyConnect`: it accepts it iff the
bounds are in order and the outgoing id in it is its own. -/
theorem process_verify_connect_cases {p : Peer} (hs : p.state = .Connecting)
    (peer_id incoming outgoing : UInt16) (window : UInt32) :
    (WindowBounds p.config ∧ outgoing = p.outgoing_session_id ∧ ∃ f,
      p.process_verify_connect peer_id incoming outgoing window =
        .ok ({ p with
          peer_id := peer_id, incoming_session_id := incoming, flow_control := f
          state := .ConnectionSucceeded }, .ok .zero)) ∨
      (¬ (WindowBounds p.config ∧ outgoing = p.outgoing_session_id) ∧
        ∀ p' packets, p.process_verify_connect peer_id incoming outgoing window ≠ .ok (p', .ok packets)) := by
  unfold process_verify_connect
  simp only [hs, if_true]
  obtain ⟨hb, f, he⟩ | ⟨hb, e, he⟩ :=
    negotiate_window_cases { p with peer_id := peer_id, incoming_session_id := incoming, state := p.state } window
  · rw [hs] at he
    rw [he]
    by_cases ho : outgoing = p.outgoing_session_id
    · exact .inl ⟨hb, ho, f, by subst ho; simp [Bind.bind, Except.bind]; rfl⟩
    · refine .inr ⟨fun hc => ho hc.2, fun p' packets hc => ?_⟩
      simp [Bind.bind, Except.bind, ho] at hc
      cases hc
  · rw [hs] at he
    rw [he]
    refine .inr ⟨fun hc => hb hc.1, fun p' packets hc => ?_⟩
    simp [Bind.bind, Except.bind] at hc

/-- All a `VerifyConnect` may change. -/
theorem process_verify_connect_writes {p p' : Peer} {peer_id incoming outgoing : UInt16} {window : UInt32}
    {r : Processed} (h : p.process_verify_connect peer_id incoming outgoing window = .ok (p', r)) :
    ∃ i s f st, p' = { p with peer_id := i, incoming_session_id := s, flow_control := f, state := st } := by
  unfold process_verify_connect at h
  split at h
  · obtain ⟨-, f, he⟩ | ⟨-, e, he⟩ :=
      negotiate_window_cases { p with peer_id := peer_id, incoming_session_id := incoming } window
    · simp only [he, Bind.bind, Except.bind] at h
      split at h
      · cases h
        exact ⟨_, _, _, _, rfl⟩
      · cases h
        exact ⟨_, _, _, _, rfl⟩
    · simp only [he, Bind.bind, Except.bind] at h
      cases h
  · cases h
    exact ⟨_, _, _, _, rfl⟩

section Fresh

variable (addr₁ addr₂ : SocketAddr) (config₁ config₂ : Config) (start₁ start₂ time₁ time₂ : Instant)
  (ids₁ ids₂ : PeerDraw) (draw₁ draw₂ : UInt16)

/-- The `Connect` a fresh client sends. -/
def connect_of (config : Config) (ids : PeerDraw) : ProtocolCommand :=
  .Connect config.channel_count 1400 1 ids.outgoing_session_id ids.connect_id

/-- A fresh server's answer to it. -/
def verify_of (draw : UInt16) : ProtocolCommand :=
  .VerifyConnect draw (min config₁.channel_count config₂.channel_count) 1400 ids₁.outgoing_session_id
    ids₂.outgoing_session_id config₂.initial_window_size

theorem initiate_connect_new :
    (Peer.new addr₁ config₁ start₁ ids₁).initiate_connect.command_queue.commands = [connect_of config₁ ids₁] ∧
      (Peer.new addr₁ config₁ start₁ ids₁).initiate_connect.state = .Connecting := ⟨rfl, rfl⟩

/-- A fresh server takes the client's id for its incoming one. -/
theorem process_connect_new :
    ∃ server', (Peer.new addr₂ config₂ start₂ ids₂).process_command (connect_of config₁ ids₁) time₁ draw₁ =
        .ok (server', .ok .zero) ∧
      server'.command_queue.commands = [verify_of config₁ config₂ ids₁ ids₂ draw₁] ∧
      server'.incoming_session_id = ids₁.outgoing_session_id ∧
      server'.outgoing_session_id = ids₂.outgoing_session_id := ⟨_, rfl, rfl, rfl, rfl⟩

/-- The handshake succeeds iff the two random session ids happen to be equal,
and the client's window bounds are in order if it uses them: the client
compares its own id with the server's. -/
theorem handshake_agrees_iff :
    Agree (Peer.new addr₁ config₁ start₁ ids₁) (Peer.new addr₂ config₂ start₂ ids₂) time₁ time₂ draw₁ draw₂ ↔
      ids₁.outgoing_session_id = ids₂.outgoing_session_id ∧ WindowBounds config₁ := by
  obtain ⟨hq, hs⟩ := initiate_connect_new addr₁ config₁ start₁ ids₁
  obtain ⟨server', hp, hq', hin, hout⟩ :=
    process_connect_new addr₂ config₁ config₂ start₂ time₁ ids₁ ids₂ draw₁
  -- what the client makes of the answer
  have hcases := process_verify_connect_cases
    (p := (Peer.new addr₁ config₁ start₁ ids₁).initiate_connect.heard time₂) hs draw₁
    ids₁.outgoing_session_id ids₂.outgoing_session_id config₂.initial_window_size
  constructor
  · rintro ⟨connect, verify, s, c, packets₁, packets₂, h₁, h₂, h₃, h₄, -, -, -⟩
    rw [hq] at h₁
    cases h₁
    rw [hp] at h₂
    cases h₂
    rw [hq'] at h₃
    cases h₃
    rcases hcases with ⟨hb, hid, -⟩ | ⟨-, hno⟩
    · exact ⟨hid.symm, hb⟩
    · exact absurd h₄ (hno c packets₂)
  · rintro ⟨hid, hb⟩
    rcases hcases with ⟨-, -, f, hc⟩ | ⟨hno, -⟩
    · exact ⟨_, _, server', _, _, _, hq, hp, hq', hc, rfl, by rw [hout]; exact hid, hin⟩
    · exact absurd ⟨hb, hid.symm⟩ hno

end Fresh

/-- A client with session id 1 and a server with session id 2. -/
theorem handshake_fails_one_two :
    ¬ Agree (Peer.new ⟨.V4 0, 0⟩ .default 0 ⟨1, 7, 0⟩) (Peer.new ⟨.V4 1, 0⟩ .default 0 ⟨2, 8, 0⟩) 0 0 5 6 := by
  rintro ⟨connect, verify, s, c, packets₁, packets₂, h₁, h₂, h₃, h₄, -, -, -⟩
  cases h₁
  cases h₂
  cases h₃
  obtain ⟨-, hid, -⟩ | ⟨-, hno⟩ := process_verify_connect_cases
    (p := (Peer.new ⟨.V4 0, 0⟩ .default 0 ⟨1, 7, 0⟩).initiate_connect.heard 0) rfl 5 1 2 512
  · exact absurd hid (by decide)
  · exact hno c packets₂ h₄

end Peer

end Bitfold
