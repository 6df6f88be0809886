import Bitfold.Session
/-!
# The session manager

`session_manager.rs` and `Host::disconnect`: the sessions of a host, by
address, and the poll that drives them. The manager is generic in the session
and in the interceptor. What the socket, the channel of user events, `rand`
and the iteration order of the hash maps contribute to a poll is its input.
-/

namespace Bitfold

/-- `trait Session`, as `Packet`s are sent and `SocketEvent`s come back. -/
structure Session (S : Type) where
  create_session : Config → SocketAddr → Instant → PeerDraw → S
  is_established : S → Bool
  should_drop : S → Instant → (Bool × List Action) × S
  process_packet : S → Bytes → Instant → UInt16 → Outcome (List Action × S)
  process_event : S → Packet → Instant → Outcome (List Action × S)
  update : S → Instant → Duration → ProbeDraw → List Action × S

/-- `impl Session for Peer`. -/
def Peer.session (codecs : Codecs) : Session Peer where
  create_session config address time draw := .new address config time draw
  is_established := is_established
  should_drop self time := (self.should_drop time, self)
  process_packet self payload time draw := self.process_packet codecs payload time draw
  process_event self event _ := self.process_event codecs event
  update self time elapsed draw := self.update codecs time elapsed draw

/-- `trait Interceptor`, with the state it keeps: whether to go on, and the
data as it left it. -/
structure Interceptor (I : Type) where
  on_receive : I → SocketAddr → Bytes → (Bool × Bytes) × I
  on_send : I → SocketAddr → Bytes → (Bool × Bytes) × I

/-- `NoOpInterceptor`. -/
def Interceptor.no_op : Interceptor Unit where
  on_receive i _ data := ((true, data), i)
  on_send i _ data := ((true, data), i)

/-- A datagram from the socket, and what a session draws when it gets it. -/
structure IncomingDatagram where
  address : SocketAddr
  payload : Bytes
  ids : PeerDraw
  draw : UInt16

/-- A packet the user sends, and what a new session for it draws. -/
structure UserEvent where
  event : Packet
  ids : PeerDraw

/-- The order in which a hash map happens to be iterated. -/
structure IterOrder where
  arrange : List SocketAddr → List SocketAddr
  perm : ∀ keys, (arrange keys).Perm keys

/-- What a poll finds. -/
structure Poll where
  time : Instant
  datagrams : List IncomingDatagram
  user_events : List UserEvent
  update_order : IterOrder
  update_draw : SocketAddr → Duration × ProbeDraw
  drop_order : IterOrder

/-- What a poll hands to the socket and to the user. -/
structure Flushed where
  sent : List (SocketAddr × Bytes)
  events : List SocketEvent

/-- `n -= 1` on a `usize`. -/
def checked_decrement (n : Nat) : Outcome Nat :=
  if n = 0 then panic "attempt to subtract with overflow" else .ok (n - 1)

/-- `SessionManager`, with the fields of its `SocketEventSenderAndConfig`. -/
structure SessionManager (S I : Type) where
  sessions : AList fun _ : SocketAddr => S
  config : Config
  pending_sends : List (SocketAddr × Bytes)
  pending_events : List SocketEvent
  interceptor : I
  max_unestablished_sessions : UInt16
  duplicate_peer_count : AList fun _ : IpAddr => Nat
  max_duplicate_peers : UInt16

namespace SessionManager

variable {S I : Type}

def new (config : Config) (interceptor : I) : SessionManager S I where
  sessions := ∅
  config := config
  pending_sends := []
  pending_events := []
  interceptor := interceptor
  max_unestablished_sessions := config.max_unestablished_connections
  duplicate_peer_count := ∅
  max_duplicate_peers := config.max_duplicate_peers

/-! ## The messenger -/

def handle_action (self : SessionManager S I) (address : SocketAddr) : Action → SessionManager S I
  | .Send bytes => { self with pending_sends := self.pending_sends ++ [(address, bytes)] }
  | .Emit ev => { self with pending_events := self.pending_events ++ [ev] }

def handle_actions (self : SessionManager S I) (address : SocketAddr) (actions : List Action) : SessionManager S I :=
  actions.foldl (fun self action => self.handle_action address action) self

/-- Everything pending goes out, as far as the interceptor lets it. -/
def flush (intercept : Interceptor I) (self : SessionManager S I) : Flushed × SessionManager S I :=
  let (sent, interceptor) := self.pending_sends.foldl
    (fun (acc : List (SocketAddr × Bytes) × I) send =>
      match intercept.on_send acc.2 send.1 send.2 with
      | ((false, _), interceptor) => (acc.1, interceptor)
      | ((true, payload), interceptor) => (acc.1 ++ [(send.1, payload)], interceptor))
    ([], self.interceptor)
  (⟨sent, self.pending_events⟩, { self with pending_sends := [], pending_events := [], interceptor })

/-! ## Duplicate peers -/

def increment_duplicate_count (self : SessionManager S I) (addr : SocketAddr) : SessionManager S I :=
  { self with
    duplicate_peer_count :=
      self.duplicate_peer_count.insert addr.ip ((self.duplicate_peer_count.lookup addr.ip).getD 0 + 1) }

def decrement_duplicate_count (self : SessionManager S I) (addr : SocketAddr) : Outcome (SessionManager S I) :=
  match self.duplicate_peer_count.lookup addr.ip with
  | none => .ok self
  | some count => do
    let count ← checked_decrement count
    if count = 0 then return { self with duplicate_peer_count := self.duplicate_peer_count.erase addr.ip }
    else return { self with duplicate_peer_count := self.duplicate_peer_count.insert addr.ip count }

def can_accept_duplicate (self : SessionManager S I) (addr : SocketAddr) : Bool :=
  if self.max_duplicate_peers = 0 then true
  else decide ((self.duplicate_peer_count.lookup addr.ip).getD 0 < self.max_duplicate_peers.toNat)

/-! ## Polling -/

section Poll

variable (session : Session S) (intercept : Interceptor I)

def unestablished_session_count (self : SessionManager S I) : Nat :=
  self.sessions.entries.countP fun s => !session.is_established s.2

/-- The count of unestablished sessions after a session changed. -/
def recount (unestablished_sessions : Nat) (was_est : Bool) (s : S) : Outcome Nat :=
  if !was_est && session.is_established s then checked_decrement unestablished_sessions
  else .ok unestablished_sessions

/-- Is a new session let in? -/
def admits (self : SessionManager S I) (unestablished_sessions : Nat) (address : SocketAddr) : Bool :=
  decide (unestablished_sessions < self.max_unestablished_sessions.toNat) && self.can_accept_duplicate address

/-- A datagram the interceptor let through. -/
def dispatch (time : Instant) (unestablished_sessions : Nat) (self : SessionManager S I) (d : IncomingDatagram)
    (payload : Bytes) : Outcome (Nat × SessionManager S I) :=
  match self.sessions.lookup d.address with
  | some s => do
    let was_est := session.is_established s
    let (actions, s) ← session.process_packet s payload time d.draw
    let self := { self with sessions := self.sessions.insert d.address s }.handle_actions d.address actions
    let unestablished_sessions ← recount session unestablished_sessions was_est s
    return (unestablished_sessions, self)
  | none => do
    let s := session.create_session self.config d.address time d.ids
    let (actions, s) ← session.process_packet s payload time d.draw
    let self := self.handle_actions d.address actions
    if self.admits unestablished_sessions d.address then
      return (unestablished_sessions + 1,
        { self with sessions := self.sessions.insert d.address s }.increment_duplicate_count d.address)
    else return (unestablished_sessions, self)

/-- One round of the receive loop. -/
def receive (time : Instant) (state : Nat × SessionManager S I) (d : IncomingDatagram) :
    Outcome (Nat × SessionManager S I) :=
  let (unestablished_sessions, self) := state
  let ((should_process, payload), interceptor) := intercept.on_receive self.interceptor d.address d.payload
  let self := { self with interceptor }
  if !should_process then .ok (unestablished_sessions, self)
  else self.dispatch session time unestablished_sessions d payload

/-- One round of the loop over user events. -/
def send_user_event (time : Instant) (state : Nat × SessionManager S I) (e : UserEvent) :
    Outcome (Nat × SessionManager S I) :=
  let (unestablished_sessions, self) := state
  let addr := e.event.addr
  match self.sessions.lookup addr with
  | some s => do
    let was_est := session.is_established s
    let (actions, s) ← session.process_event s e.event time
    let self := { self with sessions := self.sessions.insert addr s }.handle_actions addr actions
    let unestablished_sessions ← recount session unestablished_sessions was_est s
    return (unestablished_sessions, self)
  | none =>
    if !self.can_accept_duplicate addr then .ok (unestablished_sessions, self)
    else do
      let s := session.create_session self.config addr time e.ids
      let (actions, s) ← session.process_event s e.event time
      let self := { self with sessions := self.sessions.insert addr s }.handle_actions addr actions
      return (unestablished_sessions, self.increment_duplicate_count addr)

/-- One session's turn in the update loop. -/
def update_session (time : Instant) (draw : SocketAddr → Duration × ProbeDraw) (self : SessionManager S I)
    (addr : SocketAddr) : SessionManager S I :=
  match self.sessions.lookup addr with
  | some s =>
    let (actions, s) := session.update s time (draw addr).1 (draw addr).2
    { self with sessions := self.sessions.insert addr s }.handle_actions addr actions
  | none => self

/-- One session's turn in the loop that collects what to drop. -/
def check_session (time : Instant) (state : SessionManager S I × List SocketAddr) (addr : SocketAddr) :
    SessionManager S I × List SocketAddr :=
  let (self, to_drop) := state
  match self.sessions.lookup addr with
  | some s =>
    let ((drop, actions), s) := session.should_drop s time
    let self := { self with sessions := self.sessions.insert addr s }.handle_actions addr actions
    (self, if drop then to_drop ++ [addr] else to_drop)
  | none => (self, to_drop)

def remove_session (self : SessionManager S I) (addr : SocketAddr) : Outcome (SessionManager S I) :=
  { self with sessions := self.sessions.erase addr }.decrement_duplicate_count addr

def manual_poll (self : SessionManager S I) (poll : Poll) : Outcome (Flushed × SessionManager S I) := do
  let unestablished_sessions := self.unestablished_session_count session
  let state ← poll.datagrams.foldlM (receive session intercept poll.time) (unestablished_sessions, self)
  let (_, self) ← poll.user_events.foldlM (send_user_event session poll.time) state
  let self := (poll.update_order.arrange self.sessions.keys).foldl
    (update_session session poll.time poll.update_draw) self
  let (self, to_drop) := (poll.drop_order.arrange self.sessions.keys).foldl (check_session session poll.time) (self, [])
  let self ← to_drop.foldlM remove_session self
  return self.flush intercept

end Poll

/-- `Host::disconnect`. -/
def disconnect (self : SessionManager Peer I) (addr : SocketAddr) : SessionManager Peer I :=
  match self.sessions.lookup addr with
  | some s => { self with sessions := self.sessions.insert addr s.disconnect }
  | none => self

end SessionManager

end Bitfold
