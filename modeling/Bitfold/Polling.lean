import Bitfold.Lib.Runs
import Bitfold.SessionManager
/-!
# Turns of a poll

A poll is a sequence of turns: each datagram, each user event and each visit
of a session lets the session of one address act (`Turn`). The sessions of the
other addresses do not change, and what comes of it is added to what is
pending.
-/

namespace Bitfold

/-- The events among a session's actions. -/
def events_of (actions : List Action) : List SocketEvent :=
  actions.filterMap fun
    | .Emit ev => some ev
    | .Send _ => none

/-- The datagrams among a session's actions. -/
def sends_of (actions : List Action) : List Bytes :=
  actions.filterMap fun
    | .Emit _ => none
    | .Send bytes => some bytes

theorem actions_eq_nil_iff (actions : List Action) : actions = [] ↔ events_of actions = [] ∧ sends_of actions = [] := by
  cases actions with
  | nil => simp [events_of, sends_of]
  | cons a actions => cases a <;> simp [events_of, sends_of]

namespace SessionManager

open Lib

variable {S I : Type} {session : Session S} {intercept : Interceptor I} {m m' m'' : SessionManager S I}

theorem handle_actions_eq (m : SessionManager S I) (addr : SocketAddr) (actions : List Action) :
    m.handle_actions addr actions =
      { m with
        pending_sends := m.pending_sends ++ (sends_of actions).map fun bytes => (addr, bytes)
        pending_events := m.pending_events ++ events_of actions } := by
  unfold handle_actions
  induction actions generalizing m with
  | nil => simp [sends_of, events_of]
  | cons a actions ih =>
    rw [List.foldl_cons, ih]
    cases a <;> simp [handle_action, sends_of, events_of]

/-! ## One turn -/

/-- From `m` to `m'` the session of `addr` went from `before` to `after` and
asked for `actions`. -/
structure Turn (m m' : SessionManager S I) (addr : SocketAddr) (before after : Option S) (actions : List Action) :
    Prop where
  before : m.sessions.lookup addr = before
  after : m'.sessions.lookup addr = after
  others : ∀ a, a ≠ addr → m'.sessions.lookup a = m.sessions.lookup a
  events : m'.pending_events = m.pending_events ++ events_of actions
  sends : m'.pending_sends = m.pending_sends ++ (sends_of actions).map fun bytes => (addr, bytes)
  config : m'.config = m.config

/-- A turn in which the session does nothing. -/
theorem turn_idle (m : SessionManager S I) (addr : SocketAddr) :
    Turn m m addr (m.sessions.lookup addr) (m.sessions.lookup addr) [] :=
  ⟨rfl, rfl, fun _ _ => rfl, by simp [events_of], by simp [sends_of], rfl⟩

/-- The session acts and is kept. -/
theorem turn_insert {addr : SocketAddr} {before : Option S} (h : m.sessions.lookup addr = before) (s : S)
    (actions : List Action) :
    Turn m ({ m with sessions := m.sessions.insert addr s }.handle_actions addr actions) addr before (some s)
      actions := by
  rw [handle_actions_eq]
  exact ⟨h, AList.lookup_insert _, fun a ha => AList.lookup_insert_ne ha, rfl, rfl, rfl⟩

/-- The session acts and is forgotten. -/
theorem turn_refuse {addr : SocketAddr} {before : Option S} (h : m.sessions.lookup addr = before)
    (actions : List Action) : Turn m (m.handle_actions addr actions) addr before before actions := by
  rw [handle_actions_eq]
  exact ⟨h, h, fun _ _ => rfl, rfl, rfl, rfl⟩

/-- Bookkeeping around a turn that none of this depends on. -/
theorem Turn.of_eq {addr : SocketAddr} {before after : Option S} {actions : List Action}
    (h : Turn m m' addr before after actions) (i : I) (count : AList fun _ : IpAddr => Nat) :
    Turn m { m' with interceptor := i, duplicate_peer_count := count } addr before after actions :=
  ⟨h.before, h.after, h.others, h.events, h.sends, h.config⟩

/-- The payload a session gets to see, unless the interceptor drops it. -/
def passes (intercept : Interceptor I) (m : SessionManager S I) (d : IncomingDatagram) : Option Bytes :=
  match intercept.on_receive m.interceptor d.address d.payload with
  | ((false, _), _) => none
  | ((true, payload), _) => some payload

@[simp] theorem handle_actions_admits (m : SessionManager S I) (addr : SocketAddr) (actions : List Action) (n : Nat)
    (a : SocketAddr) : (m.handle_actions addr actions).admits n a = m.admits n a := by
  rw [handle_actions_eq]
  rfl

/-- What a datagram that passed can do. The session of its address acts; if
there is none, a new one acts before it is known whether it is admitted. -/
theorem dispatch_cases {time : Instant} {n n' : Nat} {d : IncomingDatagram} {payload : Bytes}
    (h : m.dispatch session time n d payload = .ok (n', m')) :
    (∃ s s' actions, m.sessions.lookup d.address = some s ∧
      session.process_packet s payload time d.draw = .ok (actions, s') ∧
      recount session n (session.is_established s) s' = .ok n' ∧
      m' = { m with sessions := m.sessions.insert d.address s' }.handle_actions d.address actions) ∨
    ∃ s' actions, m.sessions.lookup d.address = none ∧
      session.process_packet (session.create_session m.config d.address time d.ids) payload time d.draw =
        .ok (actions, s') ∧
      ((m.admits n d.address = true ∧ n' = n + 1 ∧
        m' = increment_duplicate_count
          ({ m with sessions := m.sessions.insert d.address s' }.handle_actions d.address actions) d.address) ∨
      (m.admits n d.address = false ∧ n' = n ∧ m' = m.handle_actions d.address actions)) := by
  unfold dispatch at h
  cases hl : m.sessions.lookup d.address with
  | some s =>
    rw [hl] at h
    obtain ⟨⟨actions, s'⟩, hp, h⟩ := bind_eq_ok h
    obtain ⟨n'', hn, h⟩ := bind_eq_ok h
    cases h
    exact .inl ⟨s, s', actions, rfl, hp, hn, rfl⟩
  | none =>
    rw [hl] at h
    obtain ⟨⟨actions, s'⟩, hp, h⟩ := bind_eq_ok h
    refine .inr ⟨s', actions, rfl, hp, ?_⟩
    dsimp only at h
    rw [handle_actions_admits] at h
    by_cases ha : m.admits n d.address = true
    · rw [if_pos ha] at h
      cases h
      refine .inl ⟨ha, rfl, ?_⟩
      rw [handle_actions_eq, handle_actions_eq]
    · rw [if_neg ha] at h
      cases h
      exact .inr ⟨eq_false_of_ne_true ha, rfl, rfl⟩

/-- What a user event can do. Without a session a new one acts, if its IP may
have one session more. -/
theorem send_user_event_cases {time : Instant} {n n' : Nat} {e : UserEvent}
    (h : send_user_event session time (n, m) e = .ok (n', m')) :
    (∃ s s' actions, m.sessions.lookup e.event.addr = some s ∧
      session.process_event s e.event time = .ok (actions, s') ∧
      recount session n (session.is_established s) s' = .ok n' ∧
      m' = { m with sessions := m.sessions.insert e.event.addr s' }.handle_actions e.event.addr actions) ∨
    (m.sessions.lookup e.event.addr = none ∧ m.can_accept_duplicate e.event.addr = false ∧ n' = n ∧ m' = m) ∨
    ∃ s' actions, m.sessions.lookup e.event.addr = none ∧ m.can_accept_duplicate e.event.addr = true ∧
      session.process_event (session.create_session m.config e.event.addr time e.ids) e.event time =
        .ok (actions, s') ∧ n' = n ∧
      m' = increment_duplicate_count
        ({ m with sessions := m.sessions.insert e.event.addr s' }.handle_actions e.event.addr actions) e.event.addr := by
  cases hl : m.sessions.lookup e.event.addr with
  | some s =>
    simp only [send_user_event, hl] at h
    obtain ⟨⟨actions, s'⟩, hp, h⟩ := bind_eq_ok h
    obtain ⟨n'', hn, h⟩ := bind_eq_ok h
    cases h
    exact .inl ⟨s, s', actions, rfl, hp, hn, rfl⟩
  | none =>
    simp only [send_user_event, hl] at h
    cases ha : m.can_accept_duplicate e.event.addr with
    | false =>
      rw [ha] at h
      cases h
      exact .inr (.inl ⟨rfl, rfl, rfl, rfl⟩)
    | true =>
      rw [ha] at h
      obtain ⟨⟨actions, s'⟩, hp, h⟩ := bind_eq_ok h
      cases h
      exact .inr (.inr ⟨s', actions, rfl, rfl, hp, rfl, rfl⟩)

/-- The session acts and is counted among those of its IP. -/
theorem turn_admit {addr : SocketAddr} {before : Option S} (h : m.sessions.lookup addr = before) (s : S)
    (actions : List Action) :
    Turn m (increment_duplicate_count ({ m with sessions := m.sessions.insert addr s }.handle_actions addr actions) addr)
      addr before (some s) actions := by
  have ht := turn_insert h s actions
  rw [handle_actions_eq] at ht ⊢
  exact ht.of_eq _ _

/-- A datagram that passed, to a session or to a new one. -/
theorem dispatch_turn {time : Instant} {n n' : Nat} {d : IncomingDatagram} {payload : Bytes}
    (h : m.dispatch session time n d payload = .ok (n', m')) :
    ∃ actions,
      (∃ s s', session.process_packet s payload time d.draw = .ok (actions, s') ∧
        Turn m m' d.address (some s) (some s') actions) ∨
      (∃ s', session.process_packet (session.create_session m.config d.address time d.ids) payload time d.draw =
          .ok (actions, s') ∧
        Turn m m' d.address none (if m.admits n d.address then some s' else none) actions) := by
  rcases dispatch_cases h with ⟨s, s', actions, hl, hp, -, rfl⟩ |
    ⟨s', actions, hl, hp, ⟨ha, -, rfl⟩ | ⟨ha, -, rfl⟩⟩
  · exact ⟨actions, .inl ⟨s, s', hp, turn_insert hl s' actions⟩⟩
  · refine ⟨actions, .inr ⟨s', hp, ?_⟩⟩
    rw [ha]
    exact turn_admit hl s' actions
  · refine ⟨actions, .inr ⟨s', hp, ?_⟩⟩
    rw [ha]
    exact turn_refuse hl actions

/-- A datagram is the turn of its address. Without a session a new one acts,
and is kept if it is admitted. -/
theorem receive_turn {time : Instant} {n n' : Nat} {d : IncomingDatagram}
    (h : receive session intercept time (n, m) d = .ok (n', m')) :
    (m.passes intercept d = none ∧
      Turn m m' d.address (m.sessions.lookup d.address) (m.sessions.lookup d.address) []) ∨
    ∃ payload actions, m.passes intercept d = some payload ∧
      ((∃ s s', session.process_packet s payload time d.draw = .ok (actions, s') ∧
        Turn m m' d.address (some s) (some s') actions) ∨
      (∃ s', session.process_packet (session.create_session m.config d.address time d.ids) payload time d.draw =
          .ok (actions, s') ∧
        Turn m m' d.address none (if m.admits n d.address then some s' else none) actions)) := by
  unfold passes
  match hi : intercept.on_receive m.interceptor d.address d.payload with
  | ((false, payload), i) =>
    simp only [receive, hi] at h
    cases h
    exact .inl ⟨rfl, (turn_idle m d.address).of_eq i m.duplicate_peer_count⟩
  | ((true, payload), i) =>
    simp only [receive, hi] at h
    have hturn : ∀ {before after actions}, Turn { m with interceptor := i } m' d.address before after actions →
        Turn m m' d.address before after actions :=
      fun ht => ⟨ht.before, ht.after, ht.others, ht.events, ht.sends, ht.config⟩
    obtain ⟨actions, ⟨s, s', hp, ht⟩ | ⟨s', hp, ht⟩⟩ := dispatch_turn h
    · exact .inr ⟨payload, actions, rfl, .inl ⟨s, s', hp, hturn ht⟩⟩
    · exact .inr ⟨payload, actions, rfl, .inr ⟨s', hp, hturn ht⟩⟩

/-- A user event is the turn of its address, unless it may not open a new
session. -/
theorem send_user_event_turn {time : Instant} {n n' : Nat} {e : UserEvent}
    (h : send_user_event session time (n, m) e = .ok (n', m')) :
    m' = m ∨ ∃ actions,
      (∃ s s', session.process_event s e.event time = .ok (actions, s') ∧
        Turn m m' e.event.addr (some s) (some s') actions) ∨
      (∃ s', session.process_event (session.create_session m.config e.event.addr time e.ids) e.event time =
          .ok (actions, s') ∧ Turn m m' e.event.addr none (some s') actions) := by
  rcases send_user_event_cases h with ⟨s, s', actions, hl, hp, -, rfl⟩ | ⟨-, -, -, he⟩ |
    ⟨s', actions, hl, -, hp, -, rfl⟩
  · exact .inr ⟨actions, .inl ⟨s, s', hp, turn_insert hl s' actions⟩⟩
  · exact .inl he
  · exact .inr ⟨actions, .inr ⟨s', hp, turn_admit hl s' actions⟩⟩

theorem update_session_turn (session : Session S) (m : SessionManager S I) (time : Instant)
    (draw : SocketAddr → Duration × ProbeDraw) (addr : SocketAddr) :
    m.update_session session time draw addr = m ∨ ∃ s,
      Turn m (m.update_session session time draw addr) addr (some s)
        (some (session.update s time (draw addr).1 (draw addr).2).2)
        (session.update s time (draw addr).1 (draw addr).2).1 := by
  cases hl : m.sessions.lookup addr with
  | some s =>
    rw [update_session, hl]
    exact .inr ⟨s, turn_insert hl _ _⟩
  | none =>
    rw [update_session, hl]
    exact .inl rfl

/-- Whether a session is to be dropped is its turn, too. -/
theorem check_session_turn (session : Session S) (m : SessionManager S I) (time : Instant)
    (to_drop : List SocketAddr) (addr : SocketAddr) :
    (m.sessions.lookup addr = none ∧ check_session session time (m, to_drop) addr = (m, to_drop)) ∨ ∃ s,
      Turn m (check_session session time (m, to_drop) addr).1 addr (some s)
        (some (session.should_drop s time).2) (session.should_drop s time).1.2 ∧
      (check_session session time (m, to_drop) addr).2 =
        to_drop ++ if (session.should_drop s time).1.1 then [addr] else [] := by
  cases hl : m.sessions.lookup addr with
  | some s =>
    refine .inr ⟨s, ?_⟩
    simp only [check_session, hl]
    refine ⟨turn_insert hl _ _, ?_⟩
    split
    · rfl
    · rw [List.append_nil]
  | none =>
    refine .inl ⟨rfl, ?_⟩
    simp only [check_session, hl]

/-! ## Removing -/

theorem decrement_duplicate_count_writes {addr : SocketAddr} (h : m.decrement_duplicate_count addr = .ok m') :
    ∃ count, m' = { m with duplicate_peer_count := count } := by
  unfold decrement_duplicate_count at h
  split at h
  · cases h
    exact ⟨_, rfl⟩
  · obtain ⟨n, -, h⟩ := bind_eq_ok h
    split at h
    · cases h
      exact ⟨_, rfl⟩
    · cases h
      exact ⟨_, rfl⟩

/-- From `m` to `m'` the sessions of `addrs` are gone. -/
structure Removes (m m' : SessionManager S I) (addrs : List SocketAddr) : Prop where
  gone : ∀ a ∈ addrs, m'.sessions.lookup a = none
  others : ∀ a, a ∉ addrs → m'.sessions.lookup a = m.sessions.lookup a
  events : m'.pending_events = m.pending_events
  config : m'.config = m.config

theorem remove_session_removes {addr : SocketAddr} (h : m.remove_session addr = .ok m') : Removes m m' [addr] := by
  obtain ⟨count, rfl⟩ := decrement_duplicate_count_writes h
  refine ⟨fun a ha => ?_, fun a ha => AList.lookup_erase_ne (by simpa using ha), rfl, rfl⟩
  rw [List.mem_singleton.1 ha]
  exact AList.lookup_erase _ _

theorem remove_sessions_removes {addrs : List SocketAddr} (h : addrs.foldlM remove_session m = .ok m') :
    Removes m m' addrs := by
  induction addrs generalizing m with
  | nil =>
    cases h
    exact ⟨by simp, fun _ _ => rfl, rfl, rfl⟩
  | cons addr addrs ih =>
    obtain ⟨r, hr, h⟩ := bind_eq_ok h
    have hfirst := remove_session_removes hr
    have hrest := ih h
    refine ⟨fun a ha => ?_, fun a ha => ?_, hrest.events.trans hfirst.events, hrest.config.trans hfirst.config⟩
    · by_cases hm : a ∈ addrs
      · exact hrest.gone a hm
      · rw [hrest.others a hm]
        exact hfirst.gone a (by simpa [hm] using ha)
    · rw [List.mem_cons, not_or] at ha
      rw [hrest.others a ha.2]
      exact hfirst.others a (by simpa using ha.1)

/-! ## The phases of a poll -/

/-- The sessions after datagrams, user events and updates. -/
def before_checks (session : Session S) (intercept : Interceptor I) (m : SessionManager S I) (poll : Poll) :
    Outcome (SessionManager S I) := do
  let state ← poll.datagrams.foldlM (receive session intercept poll.time) (m.unestablished_session_count session, m)
  let (_, m) ← poll.user_events.foldlM (send_user_event session poll.time) state
  return (poll.update_order.arrange m.sessions.keys).foldl (update_session session poll.time poll.update_draw) m

/-- The end of a poll: sessions are checked, dropped, and all is flushed. -/
structure Concludes (session : Session S) (intercept : Interceptor I) (m m' : SessionManager S I) (poll : Poll)
    (flushed : Flushed) : Prop where
  checked : ∃ r, Removes ((poll.drop_order.arrange m.sessions.keys).foldl (check_session session poll.time) (m, [])).1 r
      ((poll.drop_order.arrange m.sessions.keys).foldl (check_session session poll.time) (m, [])).2 ∧
    (flushed, m') = r.flush intercept

theorem manual_poll_ok {poll : Poll} {flushed : Flushed} (h : m.manual_poll session intercept poll = .ok (flushed, m')) :
    ∃ r, m.before_checks session intercept poll = .ok r ∧ Concludes session intercept r m' poll flushed := by
  unfold manual_poll at h
  obtain ⟨⟨n₁, m₁⟩, h₁, h⟩ := bind_eq_ok h
  obtain ⟨⟨n₂, m₂⟩, h₂, h⟩ := bind_eq_ok h
  obtain ⟨m₃, h₃, h⟩ := bind_eq_ok h
  refine ⟨_, ?_, ⟨m₃, remove_sessions_removes h₃, (Except.ok.inj h).symm⟩⟩
  unfold before_checks
  simp only [h₁, h₂, bind, Except.bind]
  rfl

@[simp] theorem flush_config (m : SessionManager S I) : (m.flush intercept).2.config = m.config := rfl

/-- The rounds of a poll: each datagram with the state in which it comes in. -/
def poll_rounds (session : Session S) (intercept : Interceptor I) (m : SessionManager S I) (poll : Poll) :
    List ((Nat × SessionManager S I) × IncomingDatagram) :=
  loop_rounds (receive session intercept poll.time) (m.unestablished_session_count session, m) poll.datagrams

/-! ## The configuration stays -/

theorem receive_config {time : Instant} {s t : Nat × SessionManager S I} {d : IncomingDatagram}
    (h : receive session intercept time s d = .ok t) : t.2.config = s.2.config := by
  rcases receive_turn h with ⟨-, ht⟩ | ⟨payload, actions, -, ⟨s', s'', -, ht⟩ | ⟨s', -, ht⟩⟩
  · exact ht.config
  · exact ht.config
  · exact ht.config

theorem send_user_event_config {time : Instant} {s t : Nat × SessionManager S I} {e : UserEvent}
    (h : send_user_event session time s e = .ok t) : t.2.config = s.2.config := by
  rcases send_user_event_turn h with he | ⟨actions, ⟨s', s'', -, ht⟩ | ⟨s', -, ht⟩⟩
  · rw [he]
  · exact ht.config
  · exact ht.config

theorem update_sessions_config (time : Instant) (draw : SocketAddr → Duration × ProbeDraw) (order : List SocketAddr)
    (m : SessionManager S I) : (order.foldl (update_session session time draw) m).config = m.config := by
  induction order generalizing m with
  | nil => rfl
  | cons addr order ih =>
    rw [List.foldl_cons, ih]
    rcases update_session_turn session m time draw addr with he | ⟨s, ht⟩
    · rw [he]
    · exact ht.config

theorem check_sessions_config (time : Instant) (order : List SocketAddr) (state : SessionManager S I × List SocketAddr) :
    (order.foldl (check_session session time) state).1.config = state.1.config := by
  induction order generalizing state with
  | nil => rfl
  | cons addr order ih =>
    obtain ⟨m, to_drop⟩ := state
    rw [List.foldl_cons, ih]
    rcases check_session_turn session m time to_drop addr with ⟨-, he⟩ | ⟨s, ht, -⟩
    · rw [he]
    · exact ht.config

theorem manual_poll_config {poll : Poll} {flushed : Flushed}
    (h : m.manual_poll session intercept poll = .ok (flushed, m')) : m'.config = m.config := by
  obtain ⟨r, hr, ⟨r', hremoves, hflush⟩⟩ := manual_poll_ok h
  have hm' : m' = (r'.flush intercept).2 := congrArg Prod.snd hflush
  obtain ⟨s₁, h₁, hr⟩ := bind_eq_ok hr
  obtain ⟨s₂, h₂, hr⟩ := bind_eq_ok hr
  cases hr
  have hreceive := foldlM_invariant (I := fun s => s.2.config = m.config)
    (fun s d t hs ht => (receive_config ht).trans hs) h₁ rfl
  have hsend := foldlM_invariant (I := fun s => s.2.config = m.config)
    (fun s e t hs ht => (send_user_event_config ht).trans hs) h₂ hreceive
  rw [hm', flush_config, hremoves.config, check_sessions_config, update_sessions_config, hsend]

end SessionManager

/-! ## Runs of a host -/

/-- What the owner of a host does with it. User events come with the poll
that takes them from their channel. -/
inductive HostOp where
  | Poll (poll : Poll)
  | Disconnect (addr : SocketAddr)

/-- An operation and what it handed out. -/
structure HostStep where
  op : HostOp
  flushed : Flushed

namespace SessionManager

open Lib

variable {I : Type}

def act (codecs : Codecs) (intercept : Interceptor I) (self : SessionManager Peer I) :
    HostOp → Outcome (Flushed × SessionManager Peer I)
  | .Poll poll => self.manual_poll (Peer.session codecs) intercept poll
  | .Disconnect addr => .ok (⟨[], []⟩, self.disconnect addr)

/-- A run of a host. -/
abbrev HostRun (codecs : Codecs) (intercept : Interceptor I) :
    SessionManager Peer I → List (SessionManager Peer I × HostStep) → SessionManager Peer I → Prop :=
  Run fun m e m' => m.act codecs intercept e.op = .ok (e.flushed, m')

theorem act_config {codecs : Codecs} {intercept : Interceptor I} {m m' : SessionManager Peer I} {op : HostOp}
    {flushed : Flushed} (h : m.act codecs intercept op = .ok (flushed, m')) : m'.config = m.config := by
  cases op with
  | Poll poll => exact manual_poll_config h
  | Disconnect addr =>
    cases h
    unfold disconnect
    split
    · rfl
    · rfl

end SessionManager

end Bitfold
