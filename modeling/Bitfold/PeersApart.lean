import Bitfold.Accounts
import Bitfold.Unestablished
/-!
# Peers apart

A host serves many addresses with one socket, one set of hash maps and one
interceptor. Take the inputs of some addresses away and poll again, in any
order of the sessions: the addresses that are left get the same datagrams and
the same events as before. Only who is let in depends on the others.
-/

namespace Bitfold

open Lib

/-- Of a poll, what concerns the addresses in `A`. The hash maps may be iterated
in another order. -/
structure Poll.Restricts (A : SocketAddr → Prop) [DecidablePred A] (p q : Poll) : Prop where
  time : q.time = p.time
  datagrams : q.datagrams = p.datagrams.filter fun d => A d.address
  user_events : q.user_events = p.user_events.filter fun e => A e.event.addr
  update_draw : ∀ addr, A addr → q.update_draw addr = p.update_draw addr

/-- The same of an operation. To disconnect an unknown address does nothing. -/
inductive HostOp.Restricts (A : SocketAddr → Prop) [DecidablePred A] : HostOp → HostOp → Prop where
  | poll {p q : Bitfold.Poll} : p.Restricts A q → Restricts A (.Poll p) (.Poll q)
  | disconnect (addr : SocketAddr) : Restricts A (.Disconnect addr) (.Disconnect addr)

namespace SessionManager

variable {I J : Type} {codecs : Codecs} {intercept : Interceptor I} {own : I → SocketAddr → J}
  {A : SocketAddr → Prop} {m m' r r' : SessionManager Peer I} {time : Instant} {limit : UInt16} {n n' k : Nat}
  {d : IncomingDatagram} {payload : Bytes} {addr : SocketAddr} {next : Option Peer} {actions : List Action}

/-- The interceptor has seen the datagram. -/
def intercepted (intercept : Interceptor I) (m : SessionManager Peer I) (d : IncomingDatagram) : SessionManager Peer I :=
  { m with interceptor := (intercept.on_receive m.interceptor d.address d.payload).2 }

theorem passes_eq (intercept : Interceptor I) (m : SessionManager Peer I) (d : IncomingDatagram) :
    m.passes intercept d = (lets intercept.on_receive m.interceptor d.address d.payload).1.head? := by
  unfold passes lets
  obtain ⟨⟨⟨should_process, payload⟩, i⟩, hi⟩ : ∃ x, intercept.on_receive m.interceptor d.address d.payload = x :=
    ⟨_, rfl⟩
  rw [hi]
  cases should_process <;> rfl

theorem receive_eq (codecs : Codecs) (intercept : Interceptor I) (time : Instant) (n : Nat) (m : SessionManager Peer I)
    (d : IncomingDatagram) :
    receive (Peer.session codecs) intercept time (n, m) d =
      (m.passes intercept d).elim (.ok (n, m.intercepted intercept d)) fun payload =>
        (m.intercepted intercept d).dispatch (Peer.session codecs) time n d payload := by
  unfold receive passes intercepted
  obtain ⟨⟨⟨should_process, payload⟩, i⟩, hi⟩ : ∃ x, intercept.on_receive m.interceptor d.address d.payload = x :=
    ⟨_, rfl⟩
  simp only [hi]
  cases should_process <;> rfl

/-- `r` has for the addresses in `A` what `m` has, and nobody else. -/
structure Restricts (own : I → SocketAddr → J) (A : SocketAddr → Prop) (m r : SessionManager Peer I) : Prop where
  account : ∀ addr, A addr → r.account addr = m.account addr
  own : ∀ addr, A addr → own r.interceptor addr = own m.interceptor addr
  strangers : ∀ addr, ¬ A addr → r.sessions.lookup addr = none
  config : r.config = m.config
  max_unestablished_sessions : r.max_unestablished_sessions = m.max_unestablished_sessions

namespace Restricts

theorem new (own : I → SocketAddr → J) (A : SocketAddr → Prop) (config : Config) (i : I) :
    Restricts own A (.new config i) (.new config i) :=
  ⟨fun _ _ => rfl, fun _ _ => rfl, fun _ _ => rfl, rfl, rfl⟩

theorem lookup (h : Restricts own A m r) (hA : A addr) : r.sessions.lookup addr = m.sessions.lookup addr :=
  congrArg Account.session (h.account addr hA)

/-- The session of an address in `A` does the same on both sides. -/
theorem here (h : Restricts own A m r) (hA : A addr) (hm : Acts m m' addr next actions)
    (hr : Acts r r' addr next actions) : Restricts own A m' r' where
  account a ha := by
    by_cases he : a = addr
    · subst he
      rw [hm.account_here, hr.account_here, h.account a hA]
    · rw [hm.account_there he, hr.account_there he, h.account a ha]
  own a ha := by
    rw [hm.interceptor, hr.interceptor]
    exact h.own a ha
  strangers a ha := by
    have hne : a ≠ addr := fun he => ha (he ▸ hA)
    rw [hr.others a hne]
    exact h.strangers a ha
  config := by rw [hm.config, hr.config, h.config]
  max_unestablished_sessions := by
    rw [hm.max_unestablished_sessions, hr.max_unestablished_sessions, h.max_unestablished_sessions]

/-- What the session of another address does is not seen. -/
theorem elsewhere (h : Restricts own A m r) (hA : ¬ A addr) (hm : Acts m m' addr next actions) : Restricts own A m' r where
  account a ha := by
    have hne : a ≠ addr := fun he => hA (he ▸ ha)
    rw [hm.account_there hne]
    exact h.account a ha
  own a ha := by
    rw [hm.interceptor]
    exact h.own a ha
  strangers := h.strangers
  config := by rw [hm.config, h.config]
  max_unestablished_sessions := by rw [hm.max_unestablished_sessions, h.max_unestablished_sessions]

/-- The interceptor sees a datagram of an address in `A`. -/
theorem intercepted (h : Restricts own A m r) (hi : intercept.Apart own) (hA : A d.address) :
    Restricts own A (m.intercepted intercept d) (r.intercepted intercept d) where
  account := h.account
  own a ha := by
    by_cases he : a = d.address
    · subst he
      exact (hi.on_receive.here r.interceptor m.interceptor d.address d.payload (h.own d.address hA)).2
    · exact (hi.on_receive.there r.interceptor d.address d.payload a he).trans
        ((h.own a ha).trans (hi.on_receive.there m.interceptor d.address d.payload a he).symm)
  strangers := h.strangers
  config := h.config
  max_unestablished_sessions := h.max_unestablished_sessions

/-- It sees a datagram of another address. -/
theorem intercepted_elsewhere (h : Restricts own A m r) (hi : intercept.Apart own) (hA : ¬ A d.address) :
    Restricts own A (m.intercepted intercept d) r where
  account := h.account
  own a ha := by
    have hne : a ≠ d.address := fun he => hA (he ▸ ha)
    exact (h.own a ha).trans (hi.on_receive.there m.interceptor d.address d.payload a hne).symm
  strangers := h.strangers
  config := h.config
  max_unestablished_sessions := h.max_unestablished_sessions

theorem passes (h : Restricts own A m r) (hi : intercept.Apart own) (hA : A d.address) :
    r.passes intercept d = m.passes intercept d := by
  rw [passes_eq, passes_eq,
    (hi.on_receive.here r.interceptor m.interceptor d.address d.payload (h.own d.address hA)).1]

/-- No IP has more sessions. -/
theorem sessions_of_le (h : Restricts own A m r) (ip : IpAddr) : r.sessions_of ip ≤ m.sessions_of ip := by
  apply count_le_of_lookup
  intro a s hs hip
  refine ⟨?_, hip⟩
  by_cases ha : A a
  · rw [← h.lookup ha]
    exact hs
  · rw [h.strangers a ha] at hs
    cases hs

theorem can_accept_of (h : Restricts own A m r) (hm : Accounted limit m) (hr : Accounted limit r)
    (ha : m.can_accept_duplicate addr = true) : r.can_accept_duplicate addr = true := by
  unfold can_accept_duplicate at ha ⊢
  rw [hm.max_duplicate_peers, hm.lookup_getD] at ha
  rw [hr.max_duplicate_peers, hr.lookup_getD]
  split at ha
  · rename_i h0
    rw [if_pos h0]
  · rename_i h0
    rw [if_neg h0]
    rw [decide_eq_true_eq] at ha ⊢
    exact Nat.lt_of_le_of_lt (h.sessions_of_le addr.ip) ha

theorem can_accept_all (h : Restricts own A m r) (hall : ∀ a, A a) (hm : Accounted limit m) (hr : Accounted limit r)
    (addr : SocketAddr) : r.can_accept_duplicate addr = m.can_accept_duplicate addr := by
  have hsame : r.sessions_of addr.ip = m.sessions_of addr.ip := count_congr_on fun a _ _ => h.lookup (hall a)
  unfold can_accept_duplicate
  rw [hm.max_duplicate_peers, hm.lookup_getD, hr.max_duplicate_peers, hr.lookup_getD, hsame]

end Restricts

/-! ## Rounds -/

/-- What a round relies on. -/
structure Sorted (limit : UInt16) (m : SessionManager Peer I) : Prop where
  addressed : Addressed m
  accounted : Accounted limit m

theorem sorted_new (config : Config) (i : I) : Sorted config.max_duplicate_peers (.new config i : SessionManager Peer I) :=
  ⟨addressed_new config i, accounted_new config i⟩

/-- A datagram that passed is the session's turn, of which its address is
told. -/
theorem dispatch_acts (hm : Addressed m) (h : m.dispatch (Peer.session codecs) time n d payload = .ok (n', m')) :
    (∃ s s' actions, m.sessions.lookup d.address = some s ∧
      s.process_packet codecs payload time d.draw = .ok (actions, s') ∧
      recount (Peer.session codecs) n s.is_established s' = .ok n' ∧ Acts m m' d.address (some s') actions) ∨
    ∃ s' actions, m.sessions.lookup d.address = none ∧
      (Peer.new d.address m.config time d.ids).process_packet codecs payload time d.draw = .ok (actions, s') ∧
      ((m.admits n d.address = true ∧ n' = n + 1 ∧ Acts m m' d.address (some s') actions) ∨
      (m.admits n d.address = false ∧ n' = n ∧ Acts m m' d.address none actions)) := by
  rcases dispatch_cases h with ⟨s, s', actions, hl, hp, hn, rfl⟩ | ⟨s', actions, hl, hp, hadmit⟩
  · have hown := Peer.own_process_packet hp
    rw [hm _ s hl] at hown
    exact .inl ⟨s, s', actions, hl, hp, hn, acts_insert m hown⟩
  · have hown : Peer.Own d.address actions s' := Peer.own_process_packet hp
    refine .inr ⟨s', actions, hl, hp, ?_⟩
    rcases hadmit with ⟨ha, hn, rfl⟩ | ⟨ha, hn, rfl⟩
    · exact .inl ⟨ha, hn, acts_let_in m hown⟩
    · exact .inr ⟨ha, hn, acts_refuse hl hown.events⟩

/-- The turn of a session that is there. -/
theorem dispatch_known {s s' : Peer} (hr : Addressed r) (hl : r.sessions.lookup d.address = some s)
    (hp : s.process_packet codecs payload time d.draw = .ok (actions, s'))
    (hk : recount (Peer.session codecs) k s.is_established s' = .ok n') :
    ∃ r', r.dispatch (Peer.session codecs) time k d payload = .ok (n', r') ∧ Acts r r' d.address (some s') actions := by
  have hown := Peer.own_process_packet hp
  rw [hr _ s hl] at hown
  refine ⟨_, ?_, acts_insert r hown⟩
  change recount (Peer.session codecs) k ((Peer.session codecs).is_established s) s' = .ok n' at hk
  change (Peer.session codecs).process_packet s payload time d.draw = .ok (actions, s') at hp
  unfold dispatch
  simp only [hl, hp, hk, bind, Except.bind, pure, Except.pure]

/-- The turn of a new session. -/
theorem dispatch_new {s' : Peer} (hl : r.sessions.lookup d.address = none)
    (hp : (Peer.new d.address r.config time d.ids).process_packet codecs payload time d.draw = .ok (actions, s')) :
    (r.admits k d.address = true → ∃ r', r.dispatch (Peer.session codecs) time k d payload = .ok (k + 1, r') ∧
      Acts r r' d.address (some s') actions) ∧
    (r.admits k d.address = false → ∃ r', r.dispatch (Peer.session codecs) time k d payload = .ok (k, r') ∧
      Acts r r' d.address none actions) := by
  have hown : Peer.Own d.address actions s' := Peer.own_process_packet hp
  change (Peer.session codecs).process_packet ((Peer.session codecs).create_session r.config d.address time d.ids)
    payload time d.draw = .ok (actions, s') at hp
  refine ⟨fun ha => ⟨_, ?_, acts_let_in r hown⟩, fun ha => ⟨_, ?_, acts_refuse hl hown.events⟩⟩
  · unfold dispatch
    simp only [hl, hp, bind, Except.bind, pure, Except.pure, handle_actions_admits, ha, if_true]
    rw [handle_actions_eq, handle_actions_eq]
  · unfold dispatch
    simp only [hl, hp, bind, Except.bind, pure, Except.pure, handle_actions_admits, ha]
    rfl

theorem Acts.sorted (ha : Acts m m' addr next actions) (hm : Sorted limit m) (hacc : Accounted limit m') :
    Sorted limit m' := ⟨ha.addressed hm.addressed, hacc⟩

theorem Sorted.intercepted (h : Sorted limit m) (intercept : Interceptor I) (d : IncomingDatagram) :
    Sorted limit (m.intercepted intercept d) := ⟨h.addressed, h.accounted.intercepted _⟩

/-! ## The count of unestablished sessions -/

/-- How many sessions of addresses outside of `A` are yet to be established. -/
def strangers_pending (A : SocketAddr → Prop) [DecidablePred A] (m : SessionManager Peer I) : Nat :=
  count (fun addr (p : Peer) => !decide (A addr) && p.state.pending) m.sessions

/-- The count `k` of the restricted side is not more than the count `n` of the
full one, and stays so while strangers become established. -/
structure Counts (A : SocketAddr → Prop) [DecidablePred A] (n : Nat) (m : SessionManager Peer I) (k : Nat)
    (r : SessionManager Peer I) : Prop where
  strangers : k + strangers_pending A m ≤ n
  pending : r.pending_count ≤ k
  all : (∀ addr, A addr) → k = n

variable [DecidablePred A]

/-- A session of an address in `A` is no stranger. -/
theorem Acts.strangers_pending (ha : Acts m m' addr next actions) (hA : A addr) :
    strangers_pending A m' = strangers_pending A m := by
  have hsame : ∀ a, ¬ A a → m'.sessions.lookup a = m.sessions.lookup a :=
    fun a hno => ha.others a fun he => hno (he ▸ hA)
  apply count_congr_on
  intro a p hP
  rw [Bool.and_eq_true, Bool.not_eq_true', decide_eq_false_iff_not] at hP
  exact hsame a hP.1

/-- A stranger that becomes established was counted. -/
theorem strangers_receive {j : Nat} (hA : ¬ A d.address)
    (hr : receive (Peer.session codecs) intercept time (n, m) d = .ok (n', m')) (h : j + strangers_pending A m ≤ n) :
    j + strangers_pending A m' ≤ n' := by
  have hinsert := count_insert (fun addr (p : Peer) => !decide (A addr) && p.state.pending) m.sessions d.address
  unfold SessionManager.strangers_pending at h ⊢
  rcases (receive_dispatched hr).1 with ⟨-, rfl, hs⟩ | ⟨payload, -, hd⟩
  · rw [hs]
    exact h
  cases hd with
  | @known s s' actions hl hp hn hs =>
    have hcount := hinsert s'
    have hpending := (Peer.process_packet_forward hp).pending_toNat
    have hrecount : n' + (!s.state.is_established && s'.state.is_established).toNat = n := recount_eq_ok hn
    rw [weight_of_some hl] at hcount
    simp only [hA, decide_false, Bool.not_false, Bool.true_and] at hcount
    rw [hs]
    omega
  | @admitted s' actions hl hp ha hn hs =>
    have hcount := hinsert s'
    rw [weight_of_none hl] at hcount
    have hone : (!decide (A d.address) && s'.state.pending).toNat ≤ 1 := Bool.toNat_le _
    rw [hs, hn]
    omega
  | refused hl ha hn hs =>
    rw [hs, hn]
    exact h

theorem recount_of_le {was_est : Bool} {s : Peer} (h : (!was_est && s.is_established).toNat ≤ k) :
    recount (Peer.session codecs) k was_est s = .ok (k - (!was_est && s.is_established).toNat) := by
  unfold recount
  change (if (!was_est && s.is_established) = true then _ else _) = _
  split
  · rename_i he
    rw [he] at h ⊢
    unfold checked_decrement
    rw [if_neg (by
      rintro rfl
      exact absurd h (by decide))]
    rfl
  · rename_i he
    rw [Bool.not_eq_true] at he
    rw [he]
    rfl

/-- A session that becomes established was counted. -/
theorem recount_follows {s s' : Peer} (hl : r.sessions.lookup d.address = some s)
    (hp : s.process_packet codecs payload time d.draw = .ok (actions, s')) (hk : r.pending_count ≤ k) :
    (!s.is_established && s'.is_established).toNat ≤ k ∧
      recount (Peer.session codecs) k s.is_established s' =
        .ok (k - (!s.is_established && s'.is_established).toNat) := by
  suffices hle : (!s.is_established && s'.is_established).toNat ≤ k from ⟨hle, recount_of_le hle⟩
  have hpending := (Peer.process_packet_forward hp).pending_toNat
  have hweight := weight_le_count (fun _ (p : Peer) => p.state.pending) r.sessions d.address
  rw [weight_of_some hl] at hweight
  change (!s.state.is_established && s'.state.is_established).toNat ≤ k
  unfold pending_count at hk
  omega

/-! ## Rounds of addresses in `A` -/

omit [DecidablePred A] in
/-- The restricted side lets in whom the full side lets in. -/
theorem Restricts.admits (h : Restricts own A m r) (hm : Accounted limit m) (hr : Accounted limit r)
    (hk : k ≤ n) (hall : (∀ a, A a) → k = n) (hw : (∀ a, A a) ∨ m.admits n addr = true) :
    r.admits k addr = m.admits n addr := by
  unfold SessionManager.admits at hw ⊢
  rw [h.max_unestablished_sessions]
  rcases hw with hw | hw
  · rw [h.can_accept_all hw hm hr, hall hw]
  · rw [hw]
    rw [Bool.and_eq_true, decide_eq_true_eq] at hw ⊢
    exact ⟨Nat.lt_of_le_of_lt hk hw.1, h.can_accept_of hm hr hw.2⟩

/-- A datagram of an address in `A` does the same on both sides. -/
theorem dispatch_follows (h : Restricts own A m r) (hm : Sorted limit m) (hr : Sorted limit r)
    (hc : Counts A n m k r) (hA : A d.address)
    (hw : (∀ a, A a) ∨ (m.sessions.lookup d.address = none → m.admits n d.address = true))
    (hd : m.dispatch (Peer.session codecs) time n d payload = .ok (n', m')) :
    ∃ k' r', r.dispatch (Peer.session codecs) time k d payload = .ok (k', r') ∧ Restricts own A m' r' ∧
      k' + strangers_pending A m' ≤ n' ∧ ((∀ a, A a) → k' = n') := by
  have hlookup := h.lookup hA
  have hstrangers := hc.strangers
  rcases dispatch_acts hm.addressed hd with ⟨s, s', actions, hl, hp, hn, ha⟩ | ⟨s', actions, hl, hp, hadmit⟩
  · rw [hl] at hlookup
    obtain ⟨hcounted, hk⟩ := recount_follows hlookup hp hc.pending
    obtain ⟨r', hr', ha'⟩ := dispatch_known hr.addressed hlookup hp hk
    have hrecount : n' + (!s.is_established && s'.is_established).toNat = n := recount_eq_ok hn
    refine ⟨_, r', hr', h.here hA ha ha', ?_, fun hall => ?_⟩
    · rw [ha.strangers_pending hA]
      omega
    · rw [hc.all hall]
      omega
  · rw [hl] at hlookup
    rw [← h.config] at hp
    obtain ⟨hyes, hno⟩ := dispatch_new (k := k) hlookup hp
    have hsame : r.admits k d.address = m.admits n d.address :=
      h.admits hm.accounted hr.accounted (by omega) hc.all (hw.imp_right fun hw => hw hl)
    rcases hadmit with ⟨hadmits, rfl, ha⟩ | ⟨hadmits, rfl, ha⟩
    · obtain ⟨r', hr', ha'⟩ := hyes (hsame.trans hadmits)
      refine ⟨_, r', hr', h.here hA ha ha', ?_, fun hall => by rw [hc.all hall]⟩
      rw [ha.strangers_pending hA]
      omega
    · obtain ⟨r', hr', ha'⟩ := hno (hsame.trans hadmits)
      refine ⟨_, r', hr', h.here hA ha ha', ?_, hc.all⟩
      rw [ha.strangers_pending hA]
      exact hstrangers

/-- What the receive loop keeps between the two sides. -/
structure Fits (own : I → SocketAddr → J) (A : SocketAddr → Prop) [DecidablePred A] (limit : UInt16)
    (s t : Nat × SessionManager Peer I) : Prop where
  restricts : Restricts own A s.2 t.2
  full : Sorted limit s.2
  part : Sorted limit t.2
  counts : Counts A s.1 s.2 t.1 t.2

omit [DecidablePred A] in
/-- After the interceptor, a datagram is a turn of its address. -/
theorem receive_acts (hm : Addressed m) (h : receive (Peer.session codecs) intercept time (n, m) d = .ok (n', m')) :
    m' = m.intercepted intercept d ∨ ∃ next actions, Acts (m.intercepted intercept d) m' d.address next actions := by
  have hi : Addressed (m.intercepted intercept d) := hm
  rw [receive_eq] at h
  cases hp : m.passes intercept d with
  | none =>
    rw [hp] at h
    cases h
    exact .inl rfl
  | some payload =>
    rw [hp] at h
    change (m.intercepted intercept d).dispatch (Peer.session codecs) time n d payload = .ok (n', m') at h
    rcases dispatch_acts hi h with ⟨s, s', actions, -, -, -, ha⟩ | ⟨s', actions, -, -, ⟨-, -, ha⟩ | ⟨-, -, ha⟩⟩
    · exact .inr ⟨_, _, ha⟩
    · exact .inr ⟨_, _, ha⟩
    · exact .inr ⟨_, _, ha⟩

theorem addressed_receive (hm : Addressed m) (h : receive (Peer.session codecs) intercept time (n, m) d = .ok (n', m')) :
    Addressed m' := by
  have hi : Addressed (m.intercepted intercept d) := hm
  rcases receive_acts hm h with rfl | ⟨next, actions, ha⟩
  · exact hi
  · exact ha.addressed hi

theorem Sorted.receive {s t : Nat × SessionManager Peer I} (h : Sorted limit s.2)
    (hr : receive (Peer.session codecs) intercept time s d = .ok t) : Sorted limit t.2 :=
  ⟨addressed_receive h.addressed hr, accounted_receive s d t h.accounted hr⟩

theorem Fits.receive {s s' t : Nat × SessionManager Peer I} (h : Fits own A limit s t) (hi : intercept.Apart own)
    (hA : A d.address) (hw : (∀ a, A a) ∨ ∀ payload, ¬ Refused intercept s.1 s.2 d payload)
    (hr : SessionManager.receive (Peer.session codecs) intercept time s d = .ok s') :
    ∃ t', SessionManager.receive (Peer.session codecs) intercept time t d = .ok t' ∧ Fits own A limit s' t' := by
  obtain ⟨n, m⟩ := s
  obtain ⟨n', m'⟩ := s'
  obtain ⟨k, r⟩ := t
  have hfull := hr
  have hintercepted := h.restricts.intercepted hi hA
  have hpasses := h.restricts.passes hi hA
  suffices hpart : ∃ k' r', SessionManager.receive (Peer.session codecs) intercept time (k, r) d = .ok (k', r') ∧
      Restricts own A m' r' ∧ k' + strangers_pending A m' ≤ n' ∧ ((∀ a, A a) → k' = n') by
    obtain ⟨k', r', hr', hrestricts, hstrangers, hall⟩ := hpart
    exact ⟨(k', r'), hr', hrestricts, h.full.receive hfull, h.part.receive hr', hstrangers,
      receive_pending (k, r) d (k', r') h.counts.pending hr', hall⟩
  rw [receive_eq] at hr ⊢
  dsimp only at hpasses
  rw [hpasses]
  cases hp : m.passes intercept d with
  | none =>
    rw [hp] at hr
    cases hr
    exact ⟨k, _, rfl, hintercepted, h.counts.strangers, h.counts.all⟩
  | some payload =>
    rw [hp] at hr
    refine dispatch_follows hintercepted (h.full.intercepted intercept d) (h.part.intercepted intercept d)
      ⟨h.counts.strangers, h.counts.pending, h.counts.all⟩ hA (hw.imp_right fun hw hl => ?_) hr
    -- who passes, is unknown and not admitted is refused
    by_contra hno
    exact hw payload ⟨hp, hl, eq_false_of_ne_true hno⟩

theorem Fits.receive_elsewhere {s s' t : Nat × SessionManager Peer I} (h : Fits own A limit s t)
    (hi : intercept.Apart own) (hA : ¬ A d.address)
    (hr : SessionManager.receive (Peer.session codecs) intercept time s d = .ok s') : Fits own A limit s' t := by
  obtain ⟨n, m⟩ := s
  obtain ⟨n', m'⟩ := s'
  have hcounts : Counts A n' m' t.1 t.2 :=
    ⟨strangers_receive hA hr h.counts.strangers, h.counts.pending, fun hall => absurd (hall d.address) hA⟩
  refine ⟨?_, h.full.receive hr, h.part, hcounts⟩
  have hintercepted := h.restricts.intercepted_elsewhere hi hA
  rcases receive_acts h.full.addressed hr with rfl | ⟨next, actions, ha⟩
  · exact hintercepted
  · exact hintercepted.elsewhere hA ha

/-- A user event is a turn of its address, or nothing. -/
theorem send_user_event_acts {e : UserEvent} (hm : Addressed m)
    (h : send_user_event (Peer.session codecs) time (n, m) e = .ok (n', m')) :
    (∃ s s' actions, m.sessions.lookup e.event.addr = some s ∧ s.process_event codecs e.event = .ok (actions, s') ∧
      Acts m m' e.event.addr (some s') actions) ∨
    (m.sessions.lookup e.event.addr = none ∧ m.can_accept_duplicate e.event.addr = false ∧ m' = m) ∨
    ∃ s' actions, m.sessions.lookup e.event.addr = none ∧ m.can_accept_duplicate e.event.addr = true ∧
      (Peer.new e.event.addr m.config time e.ids).process_event codecs e.event = .ok (actions, s') ∧
      Acts m m' e.event.addr (some s') actions := by
  rcases send_user_event_cases h with ⟨s, s', actions, hl, hp, -, rfl⟩ | ⟨hl, ha, -, he⟩ |
    ⟨s', actions, hl, ha, hp, -, rfl⟩
  · have hown := Peer.own_process_event hp
    rw [hm _ s hl] at hown
    exact .inl ⟨s, s', actions, hl, hp, acts_insert m hown⟩
  · exact .inr (.inl ⟨hl, ha, he⟩)
  · change (Peer.new e.event.addr m.config time e.ids).process_event codecs e.event = .ok (actions, s') at hp
    have hown := Peer.own_process_event hp
    exact .inr (.inr ⟨s', actions, hl, ha, hp, acts_let_in m hown⟩)

/-- What the loop over user events keeps between the two sides. -/
structure Meets (own : I → SocketAddr → J) (A : SocketAddr → Prop) (limit : UInt16)
    (s t : Nat × SessionManager Peer I) : Prop where
  restricts : Restricts own A s.2 t.2
  full : Sorted limit s.2
  part : Sorted limit t.2

theorem Sorted.send_user_event {s t : Nat × SessionManager Peer I} {e : UserEvent} (h : Sorted limit s.2)
    (hr : send_user_event (Peer.session codecs) time s e = .ok t) : Sorted limit t.2 := by
  refine ⟨?_, accounted_send_user_event s e t h.accounted hr⟩
  rcases send_user_event_acts h.addressed hr with ⟨s, s', actions, -, -, ha⟩ | ⟨-, -, he⟩ | ⟨s', actions, -, -, -, ha⟩
  · exact ha.addressed h.addressed
  · rw [he]
    exact h.addressed
  · exact ha.addressed h.addressed

omit [DecidablePred A] in
theorem Meets.send_user_event {s s' t : Nat × SessionManager Peer I} {e : UserEvent} (h : Meets own A limit s t)
    (hA : A e.event.addr)
    (hw : (∀ a, A a) ∨ (s.2.sessions.lookup e.event.addr = none → s.2.can_accept_duplicate e.event.addr = true))
    (hr : SessionManager.send_user_event (Peer.session codecs) time s e = .ok s') :
    ∃ t', SessionManager.send_user_event (Peer.session codecs) time t e = .ok t' ∧ Meets own A limit s' t' := by
  obtain ⟨n, m⟩ := s
  obtain ⟨n', m'⟩ := s'
  obtain ⟨k, r⟩ := t
  have hlookup := h.restricts.lookup hA
  suffices hpart : ∃ t', SessionManager.send_user_event (Peer.session codecs) time (k, r) e = .ok t' ∧
      Restricts own A m' t'.2 by
    obtain ⟨t', ht', hrestricts⟩ := hpart
    exact ⟨t', ht', hrestricts, h.full.send_user_event hr, h.part.send_user_event ht'⟩
  dsimp only at hlookup hw
  rcases send_user_event_acts h.full.addressed hr with ⟨s, s', actions, hl, hp, ha⟩ | ⟨hl, hno, he⟩ |
    ⟨s', actions, hl, hyes, hp, ha⟩
  · rw [hl] at hlookup
    have hown := Peer.own_process_event hp
    rw [h.part.addressed _ s hlookup] at hown
    have hsame : recount (Peer.session codecs) k s.is_established s' = .ok k := by
      unfold recount
      change (if (!s.is_established && s'.is_established) = true then _ else _) = _
      rw [Peer.process_event_established hp]
      simp
    change (Peer.session codecs).process_event s e.event time = .ok (actions, s') at hp
    change recount (Peer.session codecs) k ((Peer.session codecs).is_established s) s' = .ok k at hsame
    refine ⟨(k, _), ?_, h.restricts.here hA ha (acts_insert r hown)⟩
    simp only [SessionManager.send_user_event, hlookup, hp, hsame, bind, Except.bind, pure, Except.pure]
    rfl
  · rw [hl] at hlookup
    have hsame : r.can_accept_duplicate e.event.addr = false := by
      rcases hw with hall | hw
      · rw [h.restricts.can_accept_all hall h.full.accounted h.part.accounted]
        exact hno
      · rw [hw hl] at hno
        cases hno
    refine ⟨(k, r), ?_, ?_⟩
    · simp only [SessionManager.send_user_event, hlookup, hsame]
      rfl
    · rw [he]
      exact h.restricts
  · rw [hl] at hlookup
    have hsame : r.can_accept_duplicate e.event.addr = true :=
      h.restricts.can_accept_of h.full.accounted h.part.accounted hyes
    rw [← h.restricts.config] at hp
    have hown := Peer.own_process_event hp
    change (Peer.session codecs).process_event ((Peer.session codecs).create_session r.config e.event.addr time e.ids)
      e.event time = .ok (actions, s') at hp
    refine ⟨(k, _), ?_, h.restricts.here hA ha (acts_let_in r hown)⟩
    simp only [SessionManager.send_user_event, hlookup, hsame, hp, bind, Except.bind, pure, Except.pure]
    rfl

omit [DecidablePred A] in
theorem Meets.send_elsewhere {s s' t : Nat × SessionManager Peer I} {e : UserEvent} (h : Meets own A limit s t)
    (hA : ¬ A e.event.addr) (hr : SessionManager.send_user_event (Peer.session codecs) time s e = .ok s') :
    Meets own A limit s' t := by
  refine ⟨?_, h.full.send_user_event hr, h.part⟩
  rcases send_user_event_acts h.full.addressed hr with ⟨s, s', actions, -, -, ha⟩ | ⟨-, -, he⟩ |
    ⟨s', actions, -, -, -, ha⟩
  · exact h.restricts.elsewhere hA ha
  · rw [he]
    exact h.restricts
  · exact h.restricts.elsewhere hA ha

/-! ## Polls -/

/-- No session of an address in `A` is refused in the poll. -/
structure Welcomes (codecs : Codecs) (intercept : Interceptor I) (A : SocketAddr → Prop) (m : SessionManager Peer I)
    (poll : Poll) : Prop where
  datagrams : ∀ x ∈ m.poll_rounds (Peer.session codecs) intercept poll, A x.2.address →
    ∀ payload, ¬ Refused intercept x.1.1 x.1.2 x.2 payload
  user_events : ∀ x ∈ m.event_rounds codecs intercept poll, A x.2.event.addr →
    x.1.2.sessions.lookup x.2.event.addr = none → x.1.2.can_accept_duplicate x.2.event.addr = true

/-- What two sides have in common between their polls. -/
structure Alongside (own : I → SocketAddr → J) (A : SocketAddr → Prop) (limit : UInt16)
    (m r : SessionManager Peer I) : Prop where
  restricts : Restricts own A m r
  full : Sorted limit m
  part : Sorted limit r

variable {poll part : Poll}

/-- At the start of a poll the full side counts what the restricted side counts,
and the strangers. -/
theorem Alongside.counts (h : Alongside own A limit m r) (codecs : Codecs) :
    Counts A (m.unestablished_session_count (Peer.session codecs)) m
      (r.unestablished_session_count (Peer.session codecs)) r := by
  have hfull : m.unestablished_session_count (Peer.session codecs) =
      count (fun _ (p : Peer) => !p.is_established) m.sessions := rfl
  have hpart : r.unestablished_session_count (Peer.session codecs) =
      count (fun _ (p : Peer) => !p.is_established) r.sessions := rfl
  refine ⟨?_, pending_count_le codecs r, fun hall => ?_⟩
  · have hours : count (fun _ (p : Peer) => !p.is_established) r.sessions ≤
        count (fun addr (p : Peer) => decide (A addr) && !p.is_established) m.sessions := by
      apply count_le_of_lookup
      intro a p hp hest
      by_cases ha : A a
      · rw [← h.restricts.lookup ha]
        exact ⟨hp, by simpa [ha] using hest⟩
      · rw [h.restricts.strangers a ha] at hp
        cases hp
    have hstrangers : strangers_pending A m ≤
        count (fun addr (p : Peer) => !decide (A addr) && !p.is_established) m.sessions := by
      apply count_le_count
      intro a p hp
      rw [Bool.and_eq_true] at hp ⊢
      exact ⟨hp.1, by rw [Peer.is_established, PeerState.not_established_of_pending hp.2]; rfl⟩
    have hsplit := count_split (fun addr _ => decide (A addr)) (fun _ (p : Peer) => !p.is_established) m.sessions
    rw [hfull, hpart]
    omega
  · rw [hfull, hpart]
    exact count_congr_on fun a _ _ => h.restricts.lookup (hall a)

/-- The restricted side gets to its updates, too. -/
theorem Alongside.before_updates (h : Alongside own A limit m r) (hi : intercept.Apart own) (hp : poll.Restricts A part)
    (hw : (∀ a, A a) ∨ m.Welcomes codecs intercept A poll) {s : Nat × SessionManager Peer I}
    (hs : m.before_updates (Peer.session codecs) intercept poll = .ok s) :
    ∃ t, r.before_updates (Peer.session codecs) intercept part = .ok t ∧ Meets own A limit s t := by
  obtain ⟨received, hreceived, hs⟩ := bind_eq_ok hs
  have hstart : Fits own A limit (m.unestablished_session_count (Peer.session codecs), m)
      (r.unestablished_session_count (Peer.session codecs), r) := ⟨h.restricts, h.full, h.part, h.counts codecs⟩
  obtain ⟨t, ht, hfits⟩ := foldlM_filter_follows (p := fun d => decide (A d.address)) (fun x hx u y hA hxy hu => by
    refine hxy.receive hi (of_decide_eq_true hA) (hw.imp_right fun hw => ?_) hu
    apply hw.datagrams x _ (of_decide_eq_true hA)
    rw [poll_rounds]
    exact hx) (fun x _ u y hA hxy hu => hxy.receive_elsewhere hi (of_decide_eq_false hA) hu) hreceived hstart
  have hmeets : Meets own A limit received t := ⟨hfits.restricts, hfits.full, hfits.part⟩
  obtain ⟨t', ht', hmeets'⟩ := foldlM_filter_follows (p := fun e => decide (A e.event.addr))
    (fun x hx u y hA hxy hu => by
      refine hxy.send_user_event (of_decide_eq_true hA) (hw.imp_right fun hw => ?_) hu
      apply hw.user_events x _ (of_decide_eq_true hA)
      unfold event_rounds
      rw [after_datagrams] at hreceived
      rw [hreceived]
      exact hx) (fun x _ u y hA hxy hu => hxy.send_elsewhere (of_decide_eq_false hA) hu) hs hmeets
  refine ⟨t', ?_, hmeets'⟩
  unfold SessionManager.before_updates after_datagrams
  rw [hp.time, hp.datagrams, hp.user_events, ht]
  exact ht'

/-- Both sides come to the end of their polls. -/
theorem Meets.settled {s t : Nat × SessionManager Peer I} (h : Meets own A limit s t) (hp : poll.Restricts A part)
    {u v : SessionManager Peer I} (hu : Settled codecs limit poll s.2 u) (hv : Settled codecs limit part t.2 v) :
    Restricts own A u v := by
  refine ⟨fun a ha => ?_, fun a ha => ?_, fun a ha => ?_, ?_, ?_⟩
  · rw [hu.account, hv.account, hp.time, hp.update_draw a ha, h.restricts.account a ha]
  · rw [hu.frame.interceptor, hv.frame.interceptor]
    exact h.restricts.own a ha
  · have hnone : (t.2.account a).session = none := h.restricts.strangers a ha
    have hsettled := hv.account a
    rw [Account.settle_none hnone] at hsettled
    exact (congrArg Account.session hsettled).trans hnone
  · rw [hu.frame.config, hv.frame.config, h.restricts.config]
  · rw [hu.frame.max_unestablished_sessions, hv.frame.max_unestablished_sessions,
      h.restricts.max_unestablished_sessions]

omit [DecidablePred A] in
/-- What is flushed for an address in `A`. -/
theorem Restricts.flush {u v : SessionManager Peer I} (h : Restricts own A u v) (hi : intercept.Apart own) :
    Restricts own A (u.flush intercept).2 (v.flush intercept).2 ∧ ∀ addr, A addr →
      items_of addr (v.flush intercept).1.sent = items_of addr (u.flush intercept).1.sent ∧
      events_at addr (v.flush intercept).1.events = events_at addr (u.flush intercept).1.events := by
  have hsame : ∀ addr, A addr →
      items_of addr (v.flush intercept).1.sent = items_of addr (u.flush intercept).1.sent ∧
      own (v.flush intercept).2.interceptor addr = own (u.flush intercept).2.interceptor addr ∧
      events_at addr (v.flush intercept).1.events = events_at addr (u.flush intercept).1.events ∧
      (v.flush intercept).2.account addr = (u.flush intercept).2.account addr := by
    intro addr ha
    obtain ⟨husent, huown, huevents, huaccount⟩ := flush_account hi u addr
    obtain ⟨hvsent, hvown, hvevents, hvaccount⟩ := flush_account hi v addr
    obtain ⟨hkey, hkept⟩ := hi.on_send.handle_key_congr (h.own addr ha) (u.account addr).sends
    rw [husent, hvsent, huown, hvown, huevents, hvevents, huaccount, hvaccount, h.account addr ha]
    exact ⟨hkey, hkept, rfl, rfl⟩
  refine ⟨⟨fun a ha => (hsame a ha).2.2.2, fun a ha => (hsame a ha).2.1, h.strangers, h.config,
    h.max_unestablished_sessions⟩, fun a ha => ⟨(hsame a ha).1, (hsame a ha).2.2.1⟩⟩

/-- A poll of the restricted side gives the addresses in `A` what the poll of
the full side gives them. -/
theorem Alongside.manual_poll (h : Alongside own A limit m r) (hi : intercept.Apart own) (hp : poll.Restricts A part)
    (hw : (∀ a, A a) ∨ m.Welcomes codecs intercept A poll) {flushed : Flushed}
    (hm : m.manual_poll (Peer.session codecs) intercept poll = .ok (flushed, m')) :
    ∃ flushed' r', r.manual_poll (Peer.session codecs) intercept part = .ok (flushed', r') ∧ Alongside own A limit m' r' ∧
      ∀ addr, A addr → items_of addr flushed'.sent = items_of addr flushed.sent ∧
        events_at addr flushed'.events = events_at addr flushed.events := by
  have hfull := hm
  rw [manual_poll_eq] at hfull
  obtain ⟨updated, hupdated, -⟩ := bind_eq_ok hfull
  obtain ⟨n, sent, hsent, -⟩ := before_checks_eq_ok hupdated
  obtain ⟨⟨k, sent'⟩, hsent', hmeets⟩ := h.before_updates hi hp hw hsent
  obtain ⟨u, hu, hsettled⟩ := settles intercept hsent hmeets.full.addressed hmeets.full.accounted
  obtain ⟨v, hv, hsettled'⟩ := settles intercept hsent' hmeets.part.addressed hmeets.part.accounted
  rw [hu] at hm
  cases hm
  obtain ⟨hflushed, hsame⟩ := (hmeets.settled hp hsettled hsettled').flush hi
  exact ⟨_, _, hv, ⟨hflushed, ⟨hsettled.addressed, hsettled.accounted.congr (fun _ => rfl) rfl rfl⟩,
    ⟨hsettled'.addressed, hsettled'.accounted.congr (fun _ => rfl) rfl rfl⟩⟩, hsame⟩

/-! ## Runs -/

omit [DecidablePred A] in
theorem disconnect_acts (hm : Addressed m) (addr : SocketAddr) :
    (m.sessions.lookup addr = none ∧ m.disconnect addr = m) ∨
    ∃ s, m.sessions.lookup addr = some s ∧ Acts m (m.disconnect addr) addr (some s.disconnect) [] := by
  unfold SessionManager.disconnect
  cases hl : m.sessions.lookup addr with
  | none => exact .inl ⟨rfl, rfl⟩
  | some s =>
    have hown : Peer.Own addr [] s.disconnect := by
      refine ⟨?_, by simp [events_of]⟩
      rw [← hm addr s hl]
      unfold Peer.disconnect
      split <;> rfl
    exact .inr ⟨s, rfl, acts_insert m hown⟩

omit [DecidablePred A] in
theorem Sorted.disconnect (h : Sorted limit m) (addr : SocketAddr) : Sorted limit (m.disconnect addr) := by
  rcases disconnect_acts h.addressed addr with ⟨-, he⟩ | ⟨s, hl, ha⟩
  · rw [he]
    exact h
  · refine ⟨ha.addressed h.addressed, ?_⟩
    unfold SessionManager.disconnect
    rw [hl]
    exact h.accounted.congr (sessions_of_known hl rfl) rfl rfl

omit [DecidablePred A] in
theorem Alongside.disconnect (h : Alongside own A limit m r) (addr : SocketAddr) :
    Alongside own A limit (m.disconnect addr) (r.disconnect addr) := by
  refine ⟨?_, h.full.disconnect addr, h.part.disconnect addr⟩
  by_cases hA : A addr
  · have hlookup := h.restricts.lookup hA
    rcases disconnect_acts h.full.addressed addr with ⟨hl, he⟩ | ⟨s, hl, ha⟩
    · rcases disconnect_acts h.part.addressed addr with ⟨-, he'⟩ | ⟨s', hl', -⟩
      · rw [he, he']
        exact h.restricts
      · rw [hl', hl] at hlookup
        cases hlookup
    · rcases disconnect_acts h.part.addressed addr with ⟨hl', -⟩ | ⟨s', hl', ha'⟩
      · rw [hl', hl] at hlookup
        cases hlookup
      · rw [hl', hl] at hlookup
        cases hlookup
        exact h.restricts.here hA ha ha'
  · have hpart : r.disconnect addr = r := by
      unfold SessionManager.disconnect
      rw [h.restricts.strangers addr hA]
    rw [hpart]
    rcases disconnect_acts h.full.addressed addr with ⟨-, he⟩ | ⟨s, -, ha⟩
    · rw [he]
      exact h.restricts
    · exact h.restricts.elsewhere hA ha

/-- The addresses in `A` get the same from two steps. -/
structure SameFor (A : SocketAddr → Prop) (x y : SessionManager Peer I × HostStep) : Prop where
  sent : ∀ addr, A addr → items_of addr y.2.flushed.sent = items_of addr x.2.flushed.sent
  events : ∀ addr, A addr → events_at addr y.2.flushed.events = events_at addr x.2.flushed.events

/-- An operation on both sides. -/
theorem Alongside.act (h : Alongside own A limit m r) (hi : intercept.Apart own) {x : HostStep} {op : HostOp}
    (ho : x.op.Restricts A op) (hw : (∀ a, A a) ∨ ∀ poll, x.op = .Poll poll → m.Welcomes codecs intercept A poll)
    (hm : m.act codecs intercept x.op = .ok (x.flushed, m')) :
    ∃ (y : HostStep) (r' : SessionManager Peer I), r.act codecs intercept y.op = .ok (y.flushed, r') ∧ y.op = op ∧
      SameFor A (m, x) (r, y) ∧ Alongside own A limit m' r' := by
  obtain ⟨op', flushed⟩ := x
  cases ho with
  | poll hp =>
    obtain ⟨flushed', r', hr', halong, hsame⟩ := h.manual_poll hi hp (hw.imp_right fun hw => hw _ rfl) hm
    exact ⟨⟨.Poll _, flushed'⟩, r', hr', rfl, ⟨fun addr ha => (hsame addr ha).1, fun addr ha => (hsame addr ha).2⟩, halong⟩
  | disconnect addr =>
    cases hm
    exact ⟨⟨.Disconnect addr, ⟨[], []⟩⟩, _, rfl, rfl, ⟨fun _ _ => rfl, fun _ _ => rfl⟩, h.disconnect addr⟩

theorem restricted_run (hi : intercept.Apart own) (config : Config) (i : I)
    {steps : List (SessionManager Peer I × HostStep)} (h : HostRun codecs intercept (.new config i) steps m)
    (hw : (∀ a, A a) ∨ ∀ x ∈ steps, ∀ poll, x.2.op = .Poll poll → x.1.Welcomes codecs intercept A poll)
    {ops : List HostOp} (ho : List.Forall₂ (fun x op => x.2.op.Restricts A op) steps ops) :
    ∃ steps' m', HostRun codecs intercept (.new config i) steps' m' ∧ steps'.map (fun x => x.2.op) = ops ∧
      List.Forall₂ (SameFor A) steps steps' ∧ Alongside own A config.max_duplicate_peers m m' := by
  refine Run.follows (R := Alongside own A config.max_duplicate_peers) (O := SameFor A) h ?_
    ⟨.new own A config i, sorted_new config i, sorted_new config i⟩ ho
  intro x hx u r op hr hu hop
  exact hr.act hi hop (hw.imp_right fun hw => hw x hx) hu

omit [DecidablePred A]

/-- What a host does for some peers depends on what they do, and its user does
for them, alone, if they are let in: without the others, it would do the same
for them. -/
theorem peers_apart [DecidablePred A] (hi : intercept.Apart own) (config : Config) (i : I)
    {steps : List (SessionManager Peer I × HostStep)} (h : HostRun codecs intercept (.new config i) steps m)
    (hw : ∀ x ∈ steps, ∀ poll, x.2.op = .Poll poll → x.1.Welcomes codecs intercept A poll)
    {ops : List HostOp} (ho : List.Forall₂ (fun x op => x.2.op.Restricts A op) steps ops) :
    ∃ steps' m', HostRun codecs intercept (.new config i) steps' m' ∧ steps'.map (fun x => x.2.op) = ops ∧
      List.Forall₂ (SameFor A) steps steps' ∧
      (∀ addr, A addr → m'.sessions.lookup addr = m.sessions.lookup addr) ∧
      ∀ addr, ¬ A addr → m'.sessions.lookup addr = none := by
  obtain ⟨steps', m', hrun, hops, hsame, halong⟩ := restricted_run hi config i h (.inr hw) ho
  exact ⟨steps', m', hrun, hops, hsame, fun addr ha => halong.restricts.lookup ha, halong.restricts.strangers⟩

/-- Two addresses ping a host. -/
def two_pings : Poll := { poll_of (letter (.Ping 7)) with
  datagrams := [letter (.Ping 7), { letter (.Ping 8) with address := ⟨.V4 2, 5⟩ }] }

theorem two_pings_run : ∃ flushed m,
    (SessionManager.new .default () : SessionManager Peer Unit).act .checked .no_op (.Poll two_pings) = .ok (flushed, m) ∧
      flushed.sent.length = 2 ∧
      HostRun .checked .no_op (.new .default ()) [(.new .default (), ⟨.Poll two_pings, flushed⟩)] m := by
  obtain ⟨⟨flushed, m⟩, h, hout⟩ := exists_ok
    (x := (SessionManager.new .default () : SessionManager Peer Unit).act .checked .no_op (.Poll two_pings))
    (p := fun out => out.1.sent.length == 2) (by decide +kernel)
  exact ⟨flushed, m, h, beq_iff_eq.1 hout, .next .start h⟩

/-- One of them gets its answer without the other one, too. -/
theorem peers_apart_pings :
    ∃ (flushed : Flushed) (m : SessionManager Peer Unit) (steps' : List (SessionManager Peer Unit × HostStep))
      (m' : SessionManager Peer Unit),
      flushed.sent.length = 2 ∧
      HostRun .checked .no_op (.new .default ()) [(.new .default (), ⟨.Poll two_pings, flushed⟩)] m ∧
      HostRun .checked .no_op (.new .default ()) steps' m' ∧
      steps'.map (fun x => x.2.op) = [.Poll (poll_of (letter (.Ping 7)))] ∧
      List.Forall₂ (SameFor fun addr => addr = ⟨.V4 1, 5⟩) [(.new .default (), ⟨.Poll two_pings, flushed⟩)] steps' := by
  obtain ⟨flushed, m, -, hsent, hrun⟩ := two_pings_run
  have hwelcomes : (SessionManager.new .default () : SessionManager Peer Unit).Welcomes .checked .no_op
      (fun addr => addr = ⟨.V4 1, 5⟩) two_pings := by
    refine ⟨fun x hx hA payload hrefused => ?_, fun x hx => ?_⟩
    · obtain ⟨state, hstate, -⟩ := exists_ok
        (x := receive (Peer.session .checked) .no_op two_pings.time
          ((SessionManager.new .default () : SessionManager Peer Unit).unestablished_session_count (Peer.session .checked),
            .new .default ()) (letter (.Ping 7)))
        (p := fun _ => true) (by decide +kernel)
      have hd : two_pings.datagrams = [letter (.Ping 7), { letter (.Ping 8) with address := ⟨.V4 2, 5⟩ }] := by rfl
      rw [poll_rounds_two hd hstate] at hx
      rcases List.mem_cons.1 hx with rfl | hx
      · have hadmits := hrefused.refused
        revert hadmits
        decide
      · rw [List.mem_singleton.1 hx] at hA
        have hne : ¬ (⟨.V4 2, 5⟩ : SocketAddr) = ⟨.V4 1, 5⟩ := by decide
        exact absurd hA hne
    · unfold event_rounds at hx
      split at hx <;> cases hx
  have hpart : two_pings.Restricts (fun addr => addr = ⟨.V4 1, 5⟩) (poll_of (letter (.Ping 7))) :=
    ⟨rfl, by rfl, rfl, fun _ _ => rfl⟩
  obtain ⟨steps', m', hrun', hops, hsame, -, -⟩ := peers_apart Interceptor.no_op_apart .default () hrun
    (fun x hx poll hp => by
      rw [List.mem_singleton.1 hx] at hp ⊢
      cases hp
      exact hwelcomes) (.cons (.poll hpart) .nil)
  exact ⟨flushed, m, steps', m', hsent, hrun, hrun', hops, hsame⟩

end SessionManager

/-- The same operation, with other iteration orders of the hash maps. -/
inductive HostOp.Reorders : HostOp → HostOp → Prop where
  | poll (p : Bitfold.Poll) (update_order drop_order : IterOrder) :
      Reorders (.Poll p) (.Poll { p with update_order, drop_order })
  | disconnect (addr : SocketAddr) : Reorders (.Disconnect addr) (.Disconnect addr)

theorem HostOp.Reorders.restricts {op op' : HostOp} (h : op.Reorders op') : op.Restricts (fun _ => True) op' := by
  cases h with
  | poll p update_order drop_order => exact .poll ⟨rfl, by simp, by simp, fun _ _ => rfl⟩
  | disconnect addr => exact .disconnect addr

namespace SessionManager

variable {I J : Type} {codecs : Codecs} {intercept : Interceptor I} {own : I → SocketAddr → J} {m : SessionManager Peer I}

/-- The order in which a hash map is iterated is not observable: in any other
order the host gets through the same operations, and every address gets the
same datagrams, events and session from them. -/
theorem iteration_order_unobservable (hi : intercept.Apart own) (config : Config) (i : I)
    {steps : List (SessionManager Peer I × HostStep)} (h : HostRun codecs intercept (.new config i) steps m)
    {ops : List HostOp} (ho : List.Forall₂ (fun x op => x.2.op.Reorders op) steps ops) :
    ∃ steps' m', HostRun codecs intercept (.new config i) steps' m' ∧ steps'.map (fun x => x.2.op) = ops ∧
      List.Forall₂ (SameFor fun _ => True) steps steps' ∧
      ∀ addr, m'.sessions.lookup addr = m.sessions.lookup addr := by
  obtain ⟨steps', m', hrun, hops, hsame, halong⟩ := restricted_run (A := fun _ => True) hi config i h
    (.inl fun _ => trivial) (ho.imp fun _ _ hr => hr.restricts)
  exact ⟨steps', m', hrun, hops, hsame, fun addr => halong.restricts.lookup trivial⟩

/-- The two pings, with the sessions updated and dropped the other way round. -/
theorem iteration_order_unobservable_pings :
    ∃ (flushed : Flushed) (m : SessionManager Peer Unit) (steps' : List (SessionManager Peer Unit × HostStep))
      (m' : SessionManager Peer Unit),
      flushed.sent.length = 2 ∧
      HostRun .checked .no_op (.new .default ()) [(.new .default (), ⟨.Poll two_pings, flushed⟩)] m ∧
      HostRun .checked .no_op (.new .default ()) steps' m' ∧
      steps'.map (fun x => x.2.op) = [.Poll { two_pings with
        update_order := ⟨List.reverse, List.reverse_perm⟩
        drop_order := ⟨List.reverse, List.reverse_perm⟩ }] ∧
      List.Forall₂ (SameFor fun _ => True) [(.new .default (), ⟨.Poll two_pings, flushed⟩)] steps' := by
  obtain ⟨flushed, m, -, hsent, hrun⟩ := two_pings_run
  obtain ⟨steps', m', hrun', hops, hsame, -⟩ := iteration_order_unobservable Interceptor.no_op_apart .default () hrun
    (.cons (.poll two_pings _ _) .nil)
  exact ⟨flushed, m, steps', m', hsent, hrun, hrun', hops, hsame⟩

end SessionManager

end Bitfold
