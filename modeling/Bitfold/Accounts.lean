import Bitfold.Duplicates
import Bitfold.Lib.Keyed
import Bitfold.Lifecycle
/-!
# Accounts

What a host has for one address: its session, and what is pending for it. A
poll ends with loops over all sessions, in the order of a hash map, and with
one flush. For each address they come to the same, whatever the order: it is
updated, checked and perhaps dropped (`Account.settle`), and its datagrams go
out through the interceptor.
-/

namespace Bitfold

open Lib

/-- What there is for an address. -/
structure Account where
  session : Option Peer
  sends : List Bytes
  events : List SocketEvent

namespace Account

/-- The session, if there is one, becomes another one and asks for actions. -/
def act (self : Account) (f : Peer → List Action × Peer) : Account :=
  match self.session with
  | some s => ⟨some (f s).2, self.sends ++ sends_of (f s).1, self.events ++ events_of (f s).1⟩
  | none => self

def update (codecs : Codecs) (time : Instant) (draw : Duration × ProbeDraw) (self : Account) : Account :=
  self.act fun s => s.update codecs time draw.1 draw.2

def check (time : Instant) (self : Account) : Account := self.act fun s => ((s.should_drop time).2, s)

/-- Is the session to be dropped? -/
def drops (time : Instant) (self : Account) : Bool := self.session.any fun s => (s.should_drop time).1

/-- The end of a poll for this address. -/
def settle (codecs : Codecs) (time : Instant) (draw : Duration × ProbeDraw) (self : Account) : Account :=
  let updated := self.update codecs time draw
  { updated.check time with session := if updated.drops time then none else (updated.check time).session }

@[simp] theorem act_none {self : Account} (h : self.session = none) (f : Peer → List Action × Peer) :
    self.act f = self := by
  unfold act
  rw [h]

@[simp] theorem act_some {self : Account} {s : Peer} (h : self.session = some s) (f : Peer → List Action × Peer) :
    self.act f = ⟨some (f s).2, self.sends ++ sends_of (f s).1, self.events ++ events_of (f s).1⟩ := by
  unfold act
  rw [h]

/-- Nothing comes of nothing. -/
theorem settle_none {self : Account} (h : self.session = none) (codecs : Codecs) (time : Instant)
    (draw : Duration × ProbeDraw) : self.settle codecs time draw = self := by
  obtain ⟨s, sends, events⟩ := self
  cases h
  rfl

end Account

/-! ## A session's own actions -/

namespace Peer

variable {codecs : Codecs} {p q : Peer} {actions : List Action}

/-- A session is still that of its address, and speaks of no other one. -/
structure Own (addr : SocketAddr) (actions : List Action) (q : Peer) : Prop where
  address : q.remote_address = addr
  events : ∀ e ∈ events_of actions, e.address = addr

theorem own_process_packet {payload : Bytes} {time : Instant} {draw : UInt16}
    (h : p.process_packet codecs payload time draw = .ok (actions, q)) : Own p.remote_address actions q := by
  refine ⟨?_, process_packet_addresses h⟩
  rcases process_packet_cases h with ⟨-, hm, -⟩ | ⟨packet, r, packets, -, -, -, hm⟩
  · exact hm.address
  · exact hm.address

theorem own_process_event {event : Packet} (h : p.process_event codecs event = .ok (actions, q)) :
    Own p.remote_address actions q := by
  obtain ⟨hno, hm⟩ := process_event_moves h
  exact ⟨hm.address, by simp [events_of_onlySends hno]⟩

theorem own_update (codecs : Codecs) (p : Peer) (time : Instant) (elapsed : Duration) (probe : ProbeDraw) :
    Own p.remote_address (p.update codecs time elapsed probe).1 (p.update codecs time elapsed probe).2 := by
  obtain ⟨hno, hm⟩ := update_moves codecs p time elapsed probe
  exact ⟨hm.address, by simp [events_of_onlySends hno]⟩

end Peer

/-! ## The accounts of a host -/

namespace SessionManager

variable {I : Type} {codecs : Codecs} {intercept : Interceptor I} {m m' : SessionManager Peer I} {time : Instant}

def account (m : SessionManager Peer I) (addr : SocketAddr) : Account :=
  ⟨m.sessions.lookup addr, items_of addr m.pending_sends, events_at addr m.pending_events⟩

/-- Every session is filed under its own address. -/
def Addressed (m : SessionManager Peer I) : Prop :=
  ∀ addr s, m.sessions.lookup addr = some s → s.remote_address = addr

theorem addressed_new (config : Config) (i : I) : Addressed (.new config i : SessionManager Peer I) :=
  fun addr s hs => by cases hs

/-- The session of `addr` becomes `next` and asks for `actions`; that is all. -/
structure Acts (m m' : SessionManager Peer I) (addr : SocketAddr) (next : Option Peer) (actions : List Action) : Prop
    extends Turn m m' addr (m.sessions.lookup addr) next actions where
  interceptor : m'.interceptor = m.interceptor
  max_unestablished_sessions : m'.max_unestablished_sessions = m.max_unestablished_sessions
  own : ∀ e ∈ events_of actions, e.address = addr
  address : ∀ s, next = some s → s.remote_address = addr

variable {addr : SocketAddr} {next : Option Peer} {actions : List Action}

theorem acts_insert (m : SessionManager Peer I) {s : Peer} (h : Peer.Own addr actions s) :
    Acts m ({ m with sessions := m.sessions.insert addr s }.handle_actions addr actions) addr (some s) actions := by
  refine ⟨turn_insert rfl s actions, ?_, ?_, h.events, fun s hs => ?_⟩
  · rw [handle_actions_eq]
  · rw [handle_actions_eq]
  · cases hs
    exact h.address

theorem acts_let_in (m : SessionManager Peer I) {s : Peer} (h : Peer.Own addr actions s) :
    Acts m (increment_duplicate_count
      ({ m with sessions := m.sessions.insert addr s }.handle_actions addr actions) addr) addr (some s) actions := by
  have hl : m.sessions.lookup addr = m.sessions.lookup addr := rfl
  have ht := turn_admit hl s actions
  refine ⟨ht, ?_, ?_, h.events, fun s hs => ?_⟩
  · rw [handle_actions_eq]
    rfl
  · rw [handle_actions_eq]
    rfl
  · cases hs
    exact h.address

theorem acts_refuse (h : m.sessions.lookup addr = none) (hown : ∀ e ∈ events_of actions, e.address = addr) :
    Acts m (m.handle_actions addr actions) addr none actions := by
  refine ⟨?_, ?_, ?_, hown, fun s hs => by cases hs⟩
  · rw [h]
    exact turn_refuse h actions
  · rw [handle_actions_eq]
  · rw [handle_actions_eq]

namespace Acts

theorem addressed (h : Acts m m' addr next actions) (hm : Addressed m) : Addressed m' := by
  intro a s hs
  by_cases ha : a = addr
  · subst ha
    exact h.address s (h.after.symm.trans hs)
  · rw [h.others a ha] at hs
    exact hm a s hs

/-- The account of the address gets what the session asked for. -/
theorem account_here (h : Acts m m' addr next actions) :
    m'.account addr =
      ⟨next, (m.account addr).sends ++ sends_of actions, (m.account addr).events ++ events_of actions⟩ := by
  unfold account
  rw [h.after, h.sends, h.events, items_of_append, items_of_self, events_at_append, events_at_self h.own]

/-- The other accounts stay. -/
theorem account_there (h : Acts m m' addr next actions) {a : SocketAddr} (ha : a ≠ addr) :
    m'.account a = m.account a := by
  unfold account
  rw [h.others a ha, h.sends, h.events, items_of_append, items_of_other ha, events_at_append,
    events_at_other h.own ha, List.append_nil, List.append_nil]

end Acts

/-! ## The loops over the sessions -/

/-- Apart from sessions and what is pending, nothing changed. -/
structure Frame (m m' : SessionManager Peer I) : Prop where
  config : m'.config = m.config
  interceptor : m'.interceptor = m.interceptor
  max_unestablished_sessions : m'.max_unestablished_sessions = m.max_unestablished_sessions

theorem Frame.refl (m : SessionManager Peer I) : Frame m m := ⟨rfl, rfl, rfl⟩

theorem Frame.trans {m'' : SessionManager Peer I} (h : Frame m m') (h' : Frame m' m'') : Frame m m'' :=
  ⟨h'.config.trans h.config, h'.interceptor.trans h.interceptor,
    h'.max_unestablished_sessions.trans h.max_unestablished_sessions⟩

theorem Acts.frame (h : Acts m m' addr next actions) : Frame m m' :=
  ⟨h.config, h.interceptor, h.max_unestablished_sessions⟩

theorem update_session_acts (hm : Addressed m) (codecs : Codecs) (time : Instant)
    (draw : SocketAddr → Duration × ProbeDraw) (addr : SocketAddr) :
    (m.sessions.lookup addr = none ∧ m.update_session (Peer.session codecs) time draw addr = m) ∨
    ∃ s, m.sessions.lookup addr = some s ∧
      Acts m (m.update_session (Peer.session codecs) time draw addr) addr
        (some (s.update codecs time (draw addr).1 (draw addr).2).2)
        (s.update codecs time (draw addr).1 (draw addr).2).1 := by
  cases hl : m.sessions.lookup addr with
  | none =>
    rw [update_session, hl]
    exact .inl ⟨rfl, rfl⟩
  | some s =>
    rw [update_session, hl]
    have hown := Peer.own_update codecs s time (draw addr).1 (draw addr).2
    rw [hm addr s hl] at hown
    exact .inr ⟨s, rfl, acts_insert m hown⟩

/-- A visit of the update loop. -/
theorem visits_update (m : SessionManager Peer I) (codecs : Codecs) (time : Instant)
    (draw : SocketAddr → Duration × ProbeDraw) :
    Visits (fun r => Addressed r ∧ Frame m r) account (update_session (Peer.session codecs) time draw)
      fun addr a => a.update codecs time (draw addr) where
  keeps r addr hr := by
    rcases update_session_acts hr.1 codecs time draw addr with ⟨-, he⟩ | ⟨s, -, ha⟩
    · rw [he]
      exact hr
    · exact ⟨ha.addressed hr.1, hr.2.trans ha.frame⟩
  here r addr hr := by
    rcases update_session_acts hr.1 codecs time draw addr with ⟨hl, he⟩ | ⟨s, hl, ha⟩
    · rw [he]
      exact (Account.act_none hl _).symm
    · have hsession : (r.account addr).session = some s := hl
      rw [ha.account_here, Account.update, Account.act_some hsession]
  there r addr a hr hne := by
    rcases update_session_acts hr.1 codecs time draw addr with ⟨-, he⟩ | ⟨s, -, ha⟩
    · rw [he]
    · exact ha.account_there hne

theorem check_session_acts (hm : Addressed m) (codecs : Codecs) (time : Instant) (to_drop : List SocketAddr)
    (addr : SocketAddr) :
    (m.sessions.lookup addr = none ∧ check_session (Peer.session codecs) time (m, to_drop) addr = (m, to_drop)) ∨
    ∃ s, m.sessions.lookup addr = some s ∧
      Acts m (check_session (Peer.session codecs) time (m, to_drop) addr).1 addr (some s) (s.should_drop time).2 ∧
      (check_session (Peer.session codecs) time (m, to_drop) addr).2 =
        if (s.should_drop time).1 then to_drop ++ [addr] else to_drop := by
  cases hl : m.sessions.lookup addr with
  | none =>
    simp only [check_session, hl]
    exact .inl ⟨trivial, trivial⟩
  | some s =>
    simp only [check_session, hl]
    have haddr := hm addr s hl
    exact .inr ⟨s, rfl, acts_insert m ⟨haddr, haddr ▸ Peer.should_drop_addresses s time⟩, rfl⟩

/-- A visit of the loop that collects what to drop. -/
theorem visits_check (m : SessionManager Peer I) (codecs : Codecs) (time : Instant) :
    Visits (fun r : SessionManager Peer I × List SocketAddr => Addressed r.1 ∧ Frame m r.1)
      (fun r addr => (r.1.account addr, decide (addr ∈ r.2))) (check_session (Peer.session codecs) time)
      fun _ a => (a.1.check time, a.2 || a.1.drops time) where
  keeps r addr hr := by
    obtain ⟨r, to_drop⟩ := r
    rcases check_session_acts hr.1 codecs time to_drop addr with ⟨-, he⟩ | ⟨s, -, ha, -⟩
    · rw [he]
      exact hr
    · exact ⟨ha.addressed hr.1, hr.2.trans ha.frame⟩
  here r addr hr := by
    obtain ⟨r, to_drop⟩ := r
    rcases check_session_acts hr.1 codecs time to_drop addr with ⟨hl, he⟩ | ⟨s, hl, ha, he⟩
    · have hidle : (r.account addr).check time = r.account addr := Account.act_none hl _
      have hstays : (r.account addr).drops time = false := by
        rw [Account.drops, show (r.account addr).session = none from hl]
        rfl
      rw [he, hidle, hstays, Bool.or_false]
    · have hcheck : (r.account addr).check time = ⟨some s, _, _⟩ := Account.act_some hl _
      have hdrops : (r.account addr).drops time = (s.should_drop time).1 := by
        rw [Account.drops, show (r.account addr).session = some s from hl]
        rfl
      rw [ha.account_here, he, hcheck, hdrops]
      cases (s.should_drop time).1 <;> simp
  there r addr a hr hne := by
    obtain ⟨r, to_drop⟩ := r
    rcases check_session_acts hr.1 codecs time to_drop addr with ⟨-, he⟩ | ⟨s, -, ha, he⟩
    · rw [he]
    · rw [ha.account_there hne, he]
      split <;> simp [hne]

/-- The rounds of the loop over the user events of a poll. -/
def event_rounds (codecs : Codecs) (intercept : Interceptor I) (m : SessionManager Peer I) (poll : Poll) :
    List ((Nat × SessionManager Peer I) × UserEvent) :=
  match poll.datagrams.foldlM (receive (Peer.session codecs) intercept poll.time)
    (m.unestablished_session_count (Peer.session codecs), m) with
  | .ok state => loop_rounds (send_user_event (Peer.session codecs) poll.time) state poll.user_events
  | .error _ => []

/-- One address's share in the end of a poll, before all is flushed. -/
structure Settled (codecs : Codecs) (limit : UInt16) (poll : Poll) (m r : SessionManager Peer I) : Prop where
  account : ∀ addr, r.account addr = (m.account addr).settle codecs poll.time (poll.update_draw addr)
  frame : Frame m r
  addressed : Addressed r
  accounted : Accounted limit r

variable {limit : UInt16} {poll : Poll}

theorem updated_account (hm : Addressed m) (codecs : Codecs) (poll : Poll) :
    (Addressed ((poll.update_order.arrange m.sessions.keys).foldl
        (update_session (Peer.session codecs) poll.time poll.update_draw) m) ∧
      Frame m ((poll.update_order.arrange m.sessions.keys).foldl
        (update_session (Peer.session codecs) poll.time poll.update_draw) m)) ∧
    ∀ addr, ((poll.update_order.arrange m.sessions.keys).foldl
        (update_session (Peer.session codecs) poll.time poll.update_draw) m).account addr =
      (m.account addr).update codecs poll.time (poll.update_draw addr) := by
  have hvisits := visits_update m codecs poll.time poll.update_draw
  have hperm := poll.update_order.perm m.sessions.keys
  refine ⟨hvisits.keeps_foldl ⟨hm, .refl m⟩, hvisits.foldl ⟨hm, .refl m⟩ (hperm.nodup_iff.2 m.sessions.keys_nodup) ?_⟩
  intro addr hno
  exact Account.act_none (AList.lookup_eq_none.2 fun ha => hno (hperm.mem_iff.2 (AList.mem_keys.1 ha))) _

theorem checked_account (hm : Addressed m) (codecs : Codecs) (poll : Poll) :
    (Addressed (m.checked (Peer.session codecs) poll).1 ∧ Frame m (m.checked (Peer.session codecs) poll).1) ∧ ∀ addr,
      (m.checked (Peer.session codecs) poll).1.account addr = (m.account addr).check poll.time ∧
      (addr ∈ (m.checked (Peer.session codecs) poll).2 ↔ (m.account addr).drops poll.time = true) := by
  have hvisits := visits_check m codecs poll.time
  have hperm := poll.drop_order.perm m.sessions.keys
  have hstart : Addressed m ∧ Frame m m := ⟨hm, .refl m⟩
  refine ⟨hvisits.keeps_foldl (s := (m, [])) hstart, fun addr => ?_⟩
  have hview := hvisits.foldl (s := (m, [])) hstart (hperm.nodup_iff.2 m.sessions.keys_nodup) (fun a hno => by
    have hnone : (m.account a).session = none :=
      AList.lookup_eq_none.2 fun ha => hno (hperm.mem_iff.2 (AList.mem_keys.1 ha))
    have hstays : (m.account a).drops poll.time = false := by
      rw [Account.drops, hnone]
      rfl
    rw [Account.check, Account.act_none hnone, hstays, Bool.or_false]) addr
  rw [Prod.mk.injEq] at hview
  refine ⟨hview.1, ?_⟩
  rw [← decide_eq_true_iff (p := addr ∈ _), checked, hview.2]
  simp

theorem removed_account {to_drop : List SocketAddr} (h : to_drop.foldlM remove_session m = .ok m') :
    Frame m m' ∧ ∀ addr, m'.account addr =
      { m.account addr with session := if addr ∈ to_drop then none else (m.account addr).session } := by
  have hkept : Frame m m' ∧ m'.pending_sends = m.pending_sends := by
    refine foldlM_invariant (I := fun r => Frame m r ∧ r.pending_sends = m.pending_sends) (fun r addr r' hr he => ?_) h
      ⟨.refl m, rfl⟩
    obtain ⟨count, rfl⟩ := decrement_duplicate_count_writes he
    exact ⟨⟨hr.1.config, hr.1.interceptor, hr.1.max_unestablished_sessions⟩, hr.2⟩
  have hremoves := remove_sessions_removes h
  refine ⟨hkept.1, fun addr => ?_⟩
  unfold account
  rw [hkept.2, hremoves.events]
  by_cases hm : addr ∈ to_drop
  · rw [hremoves.gone addr hm, if_pos hm]
  · rw [hremoves.others addr hm, if_neg hm]

/-- After its user events a poll cannot fail, and each account is settled by
itself. -/
theorem settles (intercept : Interceptor I) {n : Nat} {sent : SessionManager Peer I}
    (hs : m.before_updates (Peer.session codecs) intercept poll = .ok (n, sent)) (haddr : Addressed sent)
    (hacc : Accounted limit sent) :
    ∃ r, m.manual_poll (Peer.session codecs) intercept poll = .ok (r.flush intercept) ∧
      Settled codecs limit poll sent r := by
  obtain ⟨⟨hupdated, hframe⟩, haccount⟩ := updated_account haddr codecs poll
  have haccounted : Accounted limit ((poll.update_order.arrange sent.sessions.keys).foldl
      (update_session (Peer.session codecs) poll.time poll.update_draw) sent) :=
    foldl_invariant (accounted_update_session poll.update_draw) hacc
  have hbefore : m.before_checks (Peer.session codecs) intercept poll =
      .ok ((poll.update_order.arrange sent.sessions.keys).foldl
        (update_session (Peer.session codecs) poll.time poll.update_draw) sent) := by
    obtain ⟨state, hstate, hs⟩ := bind_eq_ok hs
    rw [after_datagrams] at hstate
    simp only [before_checks, hstate, hs, bind, Except.bind, pure, Except.pure]
  generalize (poll.update_order.arrange sent.sessions.keys).foldl
    (update_session (Peer.session codecs) poll.time poll.update_draw) sent = updated at hupdated hframe haccount haccounted hbefore
  obtain ⟨⟨hkept, hchecked⟩, hcheck⟩ := checked_account hupdated codecs poll
  obtain ⟨-, r, hr, hraccounted⟩ := haccounted.drop (Peer.session codecs) poll
  obtain ⟨hremoved, hremove⟩ := removed_account hr
  refine ⟨r, ?_, fun addr => ?_, (hframe.trans hchecked).trans hremoved, fun addr s hs => ?_, hraccounted⟩
  · rw [manual_poll_eq, hbefore]
    simp only [bind, Except.bind, hr, pure, Except.pure]
  · obtain ⟨hthere, hdrops⟩ := hcheck addr
    rw [hremove, hthere, Account.settle]
    simp only [hdrops, haccount]
  · have hsession := congrArg Account.session (hremove addr)
    rw [show (r.account addr).session = some s from hs] at hsession
    split at hsession
    · cases hsession
    · exact hkept addr s hsession.symm

/-! ## The flush -/

/-- What an interceptor lets pass. -/
def lets (f : I → SocketAddr → Bytes → (Bool × Bytes) × I) (i : I) (addr : SocketAddr) (data : Bytes) : List Bytes × I :=
  (if (f i addr data).1.1 then [(f i addr data).1.2] else [], (f i addr data).2)

theorem flush_eq (intercept : Interceptor I) (m : SessionManager Peer I) :
    m.flush intercept = (⟨(handle (lets intercept.on_send) m.interceptor m.pending_sends).1, m.pending_events⟩,
      { m with
        pending_sends := []
        pending_events := []
        interceptor := (handle (lets intercept.on_send) m.interceptor m.pending_sends).2 }) := by
  unfold flush
  rw [foldl_eq_handle (f := lets intercept.on_send)]
  · rw [List.nil_append]
  · intro acc i addr data
    dsimp only [lets]
    obtain ⟨⟨⟨send, payload⟩, i'⟩, hi⟩ : ∃ r, intercept.on_send i addr data = r := ⟨_, rfl⟩
    rw [hi]
    cases send <;> simp

end SessionManager

/-- An interceptor that treats each address by itself. What it keeps for an
address is its own matter. -/
structure Interceptor.Apart {I J : Type} (intercept : Interceptor I) (own : I → SocketAddr → J) : Prop where
  on_receive : Lib.Apart own (SessionManager.lets intercept.on_receive)
  on_send : Lib.Apart own (SessionManager.lets intercept.on_send)

/-- The one that does nothing is of that kind. -/
theorem Interceptor.no_op_apart : Interceptor.no_op.Apart fun _ _ => () :=
  ⟨⟨fun _ _ _ _ _ => ⟨rfl, rfl⟩, fun _ _ _ _ _ => rfl⟩, ⟨fun _ _ _ _ _ => ⟨rfl, rfl⟩, fun _ _ _ _ _ => rfl⟩⟩

namespace SessionManager

variable {I J : Type} {intercept : Interceptor I} {own : I → SocketAddr → J}

/-- What is flushed for an address is what there would be for it alone. -/
theorem flush_account (h : intercept.Apart own) (m : SessionManager Peer I) (addr : SocketAddr) :
    items_of addr (m.flush intercept).1.sent =
        (handle_key (lets intercept.on_send) addr m.interceptor (m.account addr).sends).1 ∧
      own (m.flush intercept).2.interceptor addr =
        own (handle_key (lets intercept.on_send) addr m.interceptor (m.account addr).sends).2 addr ∧
      events_at addr (m.flush intercept).1.events = (m.account addr).events ∧
      (m.flush intercept).2.account addr = ⟨(m.account addr).session, [], []⟩ := by
  obtain ⟨hitems, hown⟩ := h.on_send.handle_items addr m.interceptor m.pending_sends
  rw [flush_eq]
  exact ⟨hitems, hown, rfl, rfl⟩

end SessionManager

end Bitfold
