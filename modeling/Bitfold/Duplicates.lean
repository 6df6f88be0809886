import Bitfold.Lib.Tables
import Bitfold.Polling
/-!
# Sessions of one IP

`duplicate_peer_count` is kept beside the sessions: a datagram and a user event
may add a session, and dropping one takes it away. Through all of that the
table has the number of sessions of each IP, and no IP has more of them than
the limit.
-/

namespace Bitfold

open Lib

namespace SessionManager

variable {S I : Type} {session : Session S} {intercept : Interceptor I} {m m' : SessionManager S I} {limit : UInt16}

/-- How many sessions have an address with this IP. -/
def sessions_of (m : SessionManager S I) (ip : IpAddr) : Nat := count (fun addr _ => addr.ip == ip) m.sessions

/-- The table has an entry for exactly the IPs with sessions, their number, and
none of them has more than the limit. -/
structure Accounted (limit : UInt16) (m : SessionManager S I) : Prop where
  max_duplicate_peers : m.max_duplicate_peers = limit
  counted : ∀ ip, m.duplicate_peer_count.lookup ip = if m.sessions_of ip = 0 then none else some (m.sessions_of ip)
  limited : 0 < limit → ∀ ip, m.sessions_of ip ≤ limit.toNat

theorem accounted_new (config : Config) (i : I) :
    Accounted config.max_duplicate_peers (SessionManager.new config i : SessionManager S I) :=
  ⟨rfl, fun _ => rfl, fun _ _ => Nat.zero_le _⟩

/-- What the table says of an IP. -/
theorem Accounted.lookup_getD (h : Accounted limit m) (ip : IpAddr) :
    (m.duplicate_peer_count.lookup ip).getD 0 = m.sessions_of ip := by
  rw [h.counted ip]
  split
  · rename_i h0
    rw [h0]
    rfl
  · rfl

/-- Same numbers, same table. -/
theorem Accounted.congr (h : Accounted limit m) (hs : ∀ ip, m'.sessions_of ip = m.sessions_of ip)
    (hc : m'.duplicate_peer_count = m.duplicate_peer_count) (hm : m'.max_duplicate_peers = m.max_duplicate_peers) :
    Accounted limit m' := by
  refine ⟨hm.trans h.max_duplicate_peers, fun ip => ?_, fun hl ip => ?_⟩
  · rw [hc, hs, h.counted ip]
  · rw [hs]
    exact h.limited hl ip

/-! ## One session more or less -/

variable {addr : SocketAddr} {s s' : S}

/-- A session that changes still is one session. -/
theorem sessions_of_known (hl : m.sessions.lookup addr = some s) (hs : m'.sessions = m.sessions.insert addr s')
    (ip : IpAddr) : m'.sessions_of ip = m.sessions_of ip := by
  have hcount := count_insert (fun a (_ : S) => a.ip == ip) m.sessions addr s'
  rw [weight_of_some hl] at hcount
  unfold sessions_of
  rw [hs]
  omega

theorem sessions_of_new (hl : m.sessions.lookup addr = none) (hs : m'.sessions = m.sessions.insert addr s')
    (ip : IpAddr) : m'.sessions_of ip = m.sessions_of ip + if ip = addr.ip then 1 else 0 := by
  have hcount := count_insert (fun a (_ : S) => a.ip == ip) m.sessions addr s'
  rw [weight_of_none hl, Nat.add_zero] at hcount
  unfold sessions_of
  rw [hs, hcount]
  by_cases hip : ip = addr.ip
  · simp [hip]
  · simp [hip, Ne.symm hip]

theorem sessions_of_erase (hl : m.sessions.lookup addr = some s) (hs : m'.sessions = m.sessions.erase addr)
    (ip : IpAddr) : m.sessions_of ip = m'.sessions_of ip + if ip = addr.ip then 1 else 0 := by
  have hcount := count_erase (fun a (_ : S) => a.ip == ip) m.sessions addr
  rw [weight_of_some hl] at hcount
  unfold sessions_of
  rw [hs, ← hcount]
  by_cases hip : ip = addr.ip
  · simp [hip]
  · simp [hip, Ne.symm hip]

/-- A session acts. -/
theorem Accounted.insert (h : Accounted limit m) (hl : m.sessions.lookup addr = some s) (s' : S)
    (actions : List Action) :
    Accounted limit ({ m with sessions := m.sessions.insert addr s' }.handle_actions addr actions) := by
  rw [handle_actions_eq]
  exact h.congr (sessions_of_known hl rfl) rfl rfl

/-- Below its limit an IP has room for one session more. -/
theorem Accounted.room (h : Accounted limit m) (ha : m.can_accept_duplicate addr = true) (hl : 0 < limit) :
    m.sessions_of addr.ip + 1 ≤ limit.toNat := by
  unfold can_accept_duplicate at ha
  rw [h.max_duplicate_peers, if_neg (by
    rintro rfl
    exact absurd hl (by decide)), decide_eq_true_eq, h.lookup_getD] at ha
  exact ha

/-- A new session comes in. -/
theorem Accounted.let_in (h : Accounted limit m) (hl : m.sessions.lookup addr = none)
    (ha : m.can_accept_duplicate addr = true) (hs : m'.sessions = m.sessions.insert addr s')
    (hc : m'.duplicate_peer_count = (m.increment_duplicate_count addr).duplicate_peer_count)
    (hm : m'.max_duplicate_peers = m.max_duplicate_peers) : Accounted limit m' := by
  have hnew := sessions_of_new hl hs
  refine ⟨hm.trans h.max_duplicate_peers, fun ip => ?_, fun hlimit ip => ?_⟩
  · rw [hc, hnew ip, increment_duplicate_count]
    by_cases hip : ip = addr.ip
    · subst hip
      rw [AList.lookup_insert, h.lookup_getD]
      simp
    · rw [AList.lookup_insert_ne hip, h.counted ip]
      simp [hip]
  · rw [hnew ip]
    by_cases hip : ip = addr.ip
    · subst hip
      rw [if_pos rfl]
      exact h.room ha hlimit
    · rw [if_neg hip]
      exact h.limited hlimit ip

/-- A session goes. Its IP has an entry, which is not zero. -/
theorem Accounted.remove_session (h : Accounted limit m) (hl : m.sessions.lookup addr = some s) :
    ∃ m', m.remove_session addr = .ok m' ∧ Accounted limit m' ∧ m'.sessions = m.sessions.erase addr := by
  have herase : ∀ ip, m.sessions_of ip =
      sessions_of { m with sessions := m.sessions.erase addr } ip + if ip = addr.ip then 1 else 0 :=
    sessions_of_erase hl rfl
  generalize hr : { m with sessions := m.sessions.erase addr } = r at herase
  have haddr := herase addr.ip
  rw [if_pos rfl] at haddr
  have htable : r.duplicate_peer_count = m.duplicate_peer_count := by
    rw [← hr]
  have hlookup : r.duplicate_peer_count.lookup addr.ip = some (r.sessions_of addr.ip + 1) := by
    rw [htable, h.counted addr.ip, haddr]
    rfl
  have hlimited : 0 < limit → ∀ ip, r.sessions_of ip ≤ limit.toNat := by
    intro hlimit ip
    have hip := h.limited hlimit ip
    rw [herase ip] at hip
    omega
  have hothers : ∀ ip, ip ≠ addr.ip → r.duplicate_peer_count.lookup ip =
      if r.sessions_of ip = 0 then none else some (r.sessions_of ip) := by
    intro ip hip
    have hcounted := h.counted ip
    rw [herase ip, if_neg hip, Nat.add_zero] at hcounted
    rw [← hcounted, htable]
  have hmax : r.max_duplicate_peers = limit := by
    rw [← hr]
    exact h.max_duplicate_peers
  have hsessions : r.sessions = m.sessions.erase addr := by
    rw [← hr]
  unfold SessionManager.remove_session
  rw [hr, decrement_duplicate_count, hlookup]
  by_cases h0 : r.sessions_of addr.ip = 0
  · -- the last session of its IP
    refine ⟨{ r with duplicate_peer_count := r.duplicate_peer_count.erase addr.ip }, ?_, ⟨hmax, fun ip => ?_, hlimited⟩,
      hsessions⟩
    · simp [checked_decrement, h0, bind, Except.bind, pure, Except.pure]
    · change AList.lookup ip (r.duplicate_peer_count.erase addr.ip) =
        if r.sessions_of ip = 0 then none else some (r.sessions_of ip)
      by_cases hip : ip = addr.ip
      · rw [hip, AList.lookup_erase, h0]
        rfl
      · rw [AList.lookup_erase_ne hip]
        exact hothers ip hip
  · refine ⟨{ r with
        duplicate_peer_count := r.duplicate_peer_count.insert addr.ip (r.sessions_of addr.ip) }, ?_,
      ⟨hmax, fun ip => ?_, hlimited⟩, hsessions⟩
    · simp [checked_decrement, h0, bind, Except.bind, pure, Except.pure]
    · change AList.lookup ip (r.duplicate_peer_count.insert addr.ip (r.sessions_of addr.ip)) =
        if r.sessions_of ip = 0 then none else some (r.sessions_of ip)
      by_cases hip : ip = addr.ip
      · rw [hip, AList.lookup_insert, if_neg h0]
      · rw [AList.lookup_insert_ne hip]
        exact hothers ip hip

/-! ## The rounds of a poll -/

variable {time : Instant}

theorem Accounted.intercepted (h : Accounted limit m) (i : I) : Accounted limit { m with interceptor := i } :=
  h.congr (fun _ => rfl) rfl rfl

theorem Accounted.dispatch (h : Accounted limit m) {n n' : Nat} {d : IncomingDatagram} {payload : Bytes}
    (hd : m.dispatch session time n d payload = .ok (n', m')) : Accounted limit m' := by
  rcases dispatch_cases hd with ⟨s, s', actions, hl, -, -, rfl⟩ |
    ⟨s', actions, hl, -, ⟨ha, -, rfl⟩ | ⟨-, -, rfl⟩⟩
  · exact h.insert hl s' actions
  · rw [admits, Bool.and_eq_true] at ha
    rw [handle_actions_eq]
    exact h.let_in hl ha.2 rfl rfl rfl
  · rw [handle_actions_eq]
    exact h.congr (fun _ => rfl) rfl rfl

theorem accounted_receive (state : Nat × SessionManager S I) (d : IncomingDatagram) (state' : Nat × SessionManager S I)
    (h : Accounted limit state.2) (hr : receive session intercept time state d = .ok state') :
    Accounted limit state'.2 := by
  obtain ⟨n, m⟩ := state
  obtain ⟨n', m'⟩ := state'
  obtain ⟨⟨⟨should_process, payload⟩, i⟩, hi⟩ : ∃ r, intercept.on_receive m.interceptor d.address d.payload = r :=
    ⟨_, rfl⟩
  simp only [receive, hi] at hr
  cases should_process with
  | false =>
    cases hr
    exact h.intercepted i
  | true => exact (h.intercepted i).dispatch hr

theorem accounted_send_user_event (state : Nat × SessionManager S I) (e : UserEvent) (state' : Nat × SessionManager S I)
    (h : Accounted limit state.2) (hr : send_user_event session time state e = .ok state') :
    Accounted limit state'.2 := by
  obtain ⟨n, m⟩ := state
  obtain ⟨n', m'⟩ := state'
  dsimp only
  rcases send_user_event_cases hr with ⟨s, s', actions, hl, -, -, rfl⟩ | ⟨-, -, -, rfl⟩ |
    ⟨s', actions, hl, ha, -, -, rfl⟩
  · exact h.insert hl s' actions
  · exact h
  · rw [handle_actions_eq]
    exact h.let_in hl ha rfl rfl rfl

theorem accounted_update_session (draw : SocketAddr → Duration × ProbeDraw) (m : SessionManager S I)
    (addr : SocketAddr) (h : Accounted limit m) : Accounted limit (m.update_session session time draw addr) := by
  unfold update_session
  cases hl : m.sessions.lookup addr with
  | some s => exact h.insert hl _ _
  | none => exact h

theorem accounted_check_session (state : SessionManager S I × List SocketAddr) (addr : SocketAddr)
    (h : Accounted limit state.1) : Accounted limit (check_session session time state addr).1 := by
  obtain ⟨m, to_drop⟩ := state
  cases hl : m.sessions.lookup addr with
  | some s =>
    simp only [check_session, hl]
    exact h.insert hl _ _
  | none =>
    simp only [check_session, hl]
    exact h

theorem check_session_mem (session : Session S) (time : Instant) (m : SessionManager S I) (to_drop : List SocketAddr)
    (addr a : SocketAddr) :
    a ∈ (check_session session time (m, to_drop) addr).1.sessions ↔ a ∈ m.sessions := by
  rcases check_session_turn session m time to_drop addr with ⟨-, he⟩ | ⟨s, ht, -⟩
  · rw [he]
  · by_cases ha : a = addr
    · subst ha
      rw [← AList.lookup_isSome, ht.after, ← AList.lookup_isSome, ht.before]
      simp
    · rw [← AList.lookup_isSome, ht.others a ha, AList.lookup_isSome]

/-- Sessions stay while they are checked, and those to drop are found in the
order of the checks. -/
theorem check_sessions_finds (session : Session S) (time : Instant) (order : List SocketAddr) (m : SessionManager S I)
    (to_drop : List SocketAddr) :
    ∃ found, found.Sublist order ∧ (order.foldl (check_session session time) (m, to_drop)).2 = to_drop ++ found ∧
      ∀ a, a ∈ (order.foldl (check_session session time) (m, to_drop)).1.sessions ↔ a ∈ m.sessions := by
  induction order generalizing m to_drop with
  | nil => exact ⟨[], .slnil, by simp, fun _ => .rfl⟩
  | cons addr order ih =>
    have hmem := check_session_mem session time m to_drop addr
    rw [List.foldl_cons]
    rcases check_session_turn session m time to_drop addr with ⟨-, he⟩ | ⟨s, -, he⟩
    · rw [he]
      obtain ⟨found, hsub, htail, hrest⟩ := ih m to_drop
      exact ⟨found, hsub.cons addr, htail, hrest⟩
    · obtain ⟨found, hsub, htail, hrest⟩ := ih (check_session session time (m, to_drop) addr).1
        (check_session session time (m, to_drop) addr).2
      refine ⟨(if (session.should_drop s time).1.1 then [addr] else []) ++ found, ?_, ?_, fun a => ?_⟩
      · split
        · exact hsub.cons_cons addr
        · exact hsub.cons addr
      · rw [← List.append_assoc, ← he]
        exact htail
      · rw [hrest a, hmem a]

/-- Sessions that are there can be removed, one by one. -/
theorem Accounted.remove_sessions (h : Accounted limit m) {addrs : List SocketAddr} (hnodup : addrs.Nodup)
    (hmem : ∀ a ∈ addrs, a ∈ m.sessions) :
    (∀ x ∈ loop_rounds SessionManager.remove_session m addrs, Accounted limit x.1) ∧
      ∃ m', addrs.foldlM SessionManager.remove_session m = .ok m' ∧ Accounted limit m' := by
  induction addrs generalizing m with
  | nil => exact ⟨by simp [loop_rounds], m, rfl, h⟩
  | cons addr addrs ih =>
    obtain ⟨s, hs⟩ := Option.isSome_iff_exists.1 (AList.lookup_isSome.2 (hmem addr List.mem_cons_self))
    obtain ⟨r, hr, hr', hsessions⟩ := h.remove_session hs
    rw [List.nodup_cons] at hnodup
    have hrest : ∀ a ∈ addrs, a ∈ r.sessions := by
      intro a ha
      rw [hsessions, AList.mem_erase]
      exact ⟨fun he => hnodup.1 (he ▸ ha), hmem a (List.mem_cons_of_mem _ ha)⟩
    obtain ⟨hrounds, m', hm', hacc⟩ := ih hr' hnodup.2 hrest
    refine ⟨fun x hx => ?_, m', ?_, hacc⟩
    · rw [loop_rounds, hr] at hx
      rcases List.mem_cons.1 hx with rfl | hx
      · exact h
      · exact hrounds x hx
    · rw [List.foldlM_cons, hr]
      exact hm'

/-! ## Polls -/

/-- The end of the receive loop. -/
def after_datagrams (session : Session S) (intercept : Interceptor I) (m : SessionManager S I) (poll : Poll) :
    Outcome (Nat × SessionManager S I) :=
  poll.datagrams.foldlM (receive session intercept poll.time) (m.unestablished_session_count session, m)

/-- The sessions before any is updated. -/
def before_updates (session : Session S) (intercept : Interceptor I) (m : SessionManager S I) (poll : Poll) :
    Outcome (Nat × SessionManager S I) := do
  let state ← m.after_datagrams session intercept poll
  poll.user_events.foldlM (send_user_event session poll.time) state

/-- The checks of a poll, and what they found. -/
def checked (session : Session S) (m : SessionManager S I) (poll : Poll) : SessionManager S I × List SocketAddr :=
  (poll.drop_order.arrange m.sessions.keys).foldl (check_session session poll.time) (m, [])

/-- The manager at some round of one of a poll's loops. -/
inductive Moment (session : Session S) (intercept : Interceptor I) (m : SessionManager S I) (poll : Poll) :
    SessionManager S I → Prop where
  | receiving {n : Nat} {r : SessionManager S I} {d : IncomingDatagram} :
      ((n, r), d) ∈ m.poll_rounds session intercept poll → Moment session intercept m poll r
  | sending {state : Nat × SessionManager S I} {n : Nat} {r : SessionManager S I} {e : UserEvent} :
      m.after_datagrams session intercept poll = .ok state →
      ((n, r), e) ∈ loop_rounds (send_user_event session poll.time) state poll.user_events →
      Moment session intercept m poll r
  | updating {n : Nat} {sent r : SessionManager S I} :
      m.before_updates session intercept poll = .ok (n, sent) →
      r ∈ (poll.update_order.arrange sent.sessions.keys).scanl (update_session session poll.time poll.update_draw)
        sent →
      Moment session intercept m poll r
  | checking {updated : SessionManager S I} {r : SessionManager S I × List SocketAddr} :
      m.before_checks session intercept poll = .ok updated →
      r ∈ (poll.drop_order.arrange updated.sessions.keys).scanl (check_session session poll.time) (updated, []) →
      Moment session intercept m poll r.1
  | dropping {updated r : SessionManager S I} {addr : SocketAddr} :
      m.before_checks session intercept poll = .ok updated →
      (r, addr) ∈ loop_rounds remove_session (updated.checked session poll).1 (updated.checked session poll).2 →
      Moment session intercept m poll r

theorem before_checks_eq_ok {poll : Poll} {updated : SessionManager S I}
    (h : m.before_checks session intercept poll = .ok updated) :
    ∃ n sent, m.before_updates session intercept poll = .ok (n, sent) ∧
      updated = (poll.update_order.arrange sent.sessions.keys).foldl
        (update_session session poll.time poll.update_draw) sent := by
  unfold before_checks at h
  obtain ⟨state, hstate, h⟩ := bind_eq_ok h
  obtain ⟨⟨n, sent⟩, hsent, h⟩ := bind_eq_ok h
  cases h
  refine ⟨n, sent, ?_, rfl⟩
  rw [before_updates, after_datagrams, hstate]
  exact hsent

theorem manual_poll_eq (m : SessionManager S I) (poll : Poll) :
    m.manual_poll session intercept poll = do
      let updated ← m.before_checks session intercept poll
      let m' ← (updated.checked session poll).2.foldlM remove_session (updated.checked session poll).1
      return m'.flush intercept := by
  unfold manual_poll before_checks checked
  simp only [bind_assoc, pure_bind]

variable {poll : Poll}

theorem Accounted.after_datagrams (h : Accounted limit m) {state : Nat × SessionManager S I}
    (hs : m.after_datagrams session intercept poll = .ok state) : Accounted limit state.2 :=
  foldlM_invariant (I := fun state => Accounted limit state.2) accounted_receive hs h

theorem Accounted.before_updates (h : Accounted limit m) {state : Nat × SessionManager S I}
    (hs : m.before_updates session intercept poll = .ok state) : Accounted limit state.2 := by
  obtain ⟨state', hs', hs⟩ := bind_eq_ok hs
  exact foldlM_invariant (I := fun state => Accounted limit state.2) accounted_send_user_event hs (h.after_datagrams hs')

theorem Accounted.before_checks (h : Accounted limit m) {updated : SessionManager S I}
    (hs : m.before_checks session intercept poll = .ok updated) : Accounted limit updated := by
  obtain ⟨n, sent, hsent, rfl⟩ := before_checks_eq_ok hs
  exact foldl_invariant (accounted_update_session poll.update_draw) (h.before_updates hsent)

/-- What is found by the checks can be dropped. -/
theorem Accounted.drop (h : Accounted limit m) (session : Session S) (poll : Poll) :
    (∀ x ∈ loop_rounds SessionManager.remove_session (m.checked session poll).1 (m.checked session poll).2,
      Accounted limit x.1) ∧
      ∃ m', (m.checked session poll).2.foldlM SessionManager.remove_session (m.checked session poll).1 = .ok m' ∧
        Accounted limit m' := by
  have hchecked : Accounted limit (m.checked session poll).1 :=
    foldl_invariant (I := fun state : SessionManager S I × List SocketAddr => Accounted limit state.1)
      accounted_check_session h
  have hperm := poll.drop_order.perm m.sessions.keys
  obtain ⟨found, hsub, htail, hmem⟩ :=
    check_sessions_finds session poll.time (poll.drop_order.arrange m.sessions.keys) m []
  rw [List.nil_append] at htail
  refine hchecked.remove_sessions ?_ ?_
  · rw [checked, htail]
    exact hsub.nodup (hperm.nodup_iff.2 m.sessions.keys_nodup)
  · intro a ha
    rw [checked, htail] at ha
    refine (hmem a).2 (AList.mem_keys.2 ?_)
    exact hperm.mem_iff.1 (hsub.subset ha)

theorem Accounted.moment (h : Accounted limit m) (hm : Moment session intercept m poll m') : Accounted limit m' := by
  cases hm with
  | @receiving n r d hr =>
    rw [poll_rounds] at hr
    exact loop_rounds_invariant (I := fun state => Accounted limit state.2) accounted_receive h _ hr
  | sending hs hr =>
    exact loop_rounds_invariant (I := fun state => Accounted limit state.2) accounted_send_user_event
      (h.after_datagrams hs) _ hr
  | updating hs hr =>
    exact scanl_invariant (accounted_update_session poll.update_draw) (h.before_updates hs) _ hr
  | checking hs hr =>
    exact scanl_invariant (I := fun state => Accounted limit state.1) accounted_check_session (h.before_checks hs) _ hr
  | dropping hs hr => exact ((h.before_checks hs).drop session poll).1 _ hr

/-- If no session panics, neither does the poll. -/
theorem Accounted.manual_poll (h : Accounted limit m) {updated : SessionManager S I}
    (hs : m.before_checks session intercept poll = .ok updated) :
    ∃ flushed m', m.manual_poll session intercept poll = .ok (flushed, m') ∧ Accounted limit m' := by
  obtain ⟨m', hm', hacc⟩ := ((h.before_checks hs).drop session poll).2
  refine ⟨(m'.flush intercept).1, (m'.flush intercept).2, ?_, hacc.congr (fun _ => rfl) rfl rfl⟩
  rw [manual_poll_eq, hs]
  simp only [bind, Except.bind]
  rw [show (updated.checked session poll).2.foldlM _ _ = _ from hm']
  rfl

/-! ## Runs -/

/-- What is done with a manager: it is polled, and `session_mut` hands out a
session. -/
inductive Op (S : Type) where
  | Poll (poll : Bitfold.Poll)
  | SessionMut (addr : SocketAddr) (change : S → S)

def session_mut (self : SessionManager S I) (addr : SocketAddr) (change : S → S) : SessionManager S I :=
  match self.sessions.lookup addr with
  | some s => { self with sessions := self.sessions.insert addr (change s) }
  | none => self

def perform (session : Session S) (intercept : Interceptor I) (self : SessionManager S I) :
    Op S → Outcome (SessionManager S I)
  | .Poll poll => do
    let (_, self) ← self.manual_poll session intercept poll
    return self
  | .SessionMut addr change => .ok (self.session_mut addr change)

/-- A run of a manager. -/
abbrev OpRun (session : Session S) (intercept : Interceptor I) :
    SessionManager S I → List (SessionManager S I × Op S) → SessionManager S I → Prop :=
  Run fun m op m' => m.perform session intercept op = .ok m'

theorem Accounted.session_mut (h : Accounted limit m) (addr : SocketAddr) (change : S → S) :
    Accounted limit (m.session_mut addr change) := by
  unfold SessionManager.session_mut
  cases hl : m.sessions.lookup addr with
  | some s => exact h.congr (sessions_of_known hl rfl) rfl rfl
  | none => exact h

theorem Accounted.perform (h : Accounted limit m) {op : Op S} (hp : m.perform session intercept op = .ok m') :
    Accounted limit m' := by
  cases op with
  | Poll poll =>
    obtain ⟨⟨flushed, r⟩, hr, hp⟩ := bind_eq_ok hp
    cases hp
    obtain ⟨updated, hu, -⟩ := manual_poll_ok hr
    obtain ⟨flushed', r', hr', hacc⟩ := h.manual_poll hu
    rw [hr] at hr'
    cases hr'
    exact hacc
  | SessionMut addr change =>
    cases hp
    exact h.session_mut addr change

/-- After every run the table has the number of sessions of each IP, within the
limit. The limit holds all through the next poll, too, and no session can be
dropped that was not counted. -/
theorem duplicates_accounted (session : Session S) (intercept : Interceptor I) (config : Config) (i : I)
    {steps : List (SessionManager S I × Op S)} {m : SessionManager S I}
    (h : OpRun session intercept (.new config i) steps m) :
    Accounted config.max_duplicate_peers m ∧
      ∀ poll,
        (∀ r, Moment session intercept m poll r → Accounted config.max_duplicate_peers r) ∧
        (∀ updated, m.before_checks session intercept poll = .ok updated →
          ∃ flushed m', m.manual_poll session intercept poll = .ok (flushed, m')) := by
  have hm : Accounted config.max_duplicate_peers m :=
    h.invariant (accounted_new config i) fun m op m' hm hp => hm.perform hp
  refine ⟨hm, fun poll => ⟨fun r hr => hm.moment hr, fun updated hu => ?_⟩⟩
  obtain ⟨flushed, m', hm', -⟩ := hm.manual_poll hu
  exact ⟨flushed, m', hm'⟩

/-- One session an IP. -/
def crowded_config : Config := { Config.default with max_duplicate_peers := 1 }

/-- Two ports of one IP send a datagram, and one of another. -/
def crowded_poll : Poll where
  time := 0
  datagrams := [⟨⟨.V4 1, 5⟩, [], ⟨0, 0, 0⟩, 0⟩, ⟨⟨.V4 1, 6⟩, [], ⟨0, 0, 0⟩, 0⟩, ⟨⟨.V4 2, 5⟩, [], ⟨0, 0, 0⟩, 0⟩]
  user_events := []
  update_order := ⟨id, List.Perm.refl⟩
  update_draw _ := (0, ⟨0, fun _ => 0⟩)
  drop_order := ⟨id, List.Perm.refl⟩

theorem duplicates_accounted_crowded :
    ∃ steps m, OpRun (Peer.session .checked) .no_op (.new crowded_config ()) steps m ∧
      Accounted 1 m ∧ m.sessions_of (.V4 1) = 1 ∧ m.duplicate_peer_count.lookup (.V4 1) = some 1 ∧
      m.sessions_of (.V4 2) = 1 := by
  obtain ⟨m, hm⟩ : ∃ m, perform (Peer.session .checked) .no_op (.new crowded_config ()) (.Poll crowded_poll) = .ok m :=
    ⟨_, rfl⟩
  have hrun : OpRun (Peer.session .checked) .no_op (.new crowded_config ()) [(_, .Poll crowded_poll)] m :=
    .next .start hm
  refine ⟨_, m, hrun, (duplicates_accounted (Peer.session .checked) .no_op crowded_config () hrun).1, ?_⟩
  cases hm
  exact ⟨rfl, rfl, rfl⟩

end SessionManager

end Bitfold
