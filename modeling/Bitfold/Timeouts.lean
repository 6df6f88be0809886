import Bitfold.Heartbeats
import Bitfold.NoPanics
/-!
# Timeouts

A host drops a session that has been silent for the idle timeout, and tells its
user. When a session was last heard is a field of it, which every command from
its address sets. So who was heard within the timeout stays, who was not goes,
and nobody goes without a word.
-/

namespace Bitfold

open Lib

namespace Peer

variable {codecs : Codecs} {config : Config} {p q : Peer} {t : Instant} {draw : UInt16} {payload : Bytes}
  {actions : List Action}

/-- As far as timeouts go: the configuration stays, and nothing is in flight. -/
structure Plain (config : Config) (p : Peer) : Prop where
  settled : Settled config p
  untracked : Untracked p

theorem plain_new (addr : SocketAddr) (config : Config) (time : Instant) (ids : PeerDraw) :
    Plain config (.new addr config time ids) :=
  ⟨settled_new addr config time ids, untracked_new addr config time ids⟩

theorem Plain.process_packet (h : Plain config p) (hp : p.process_packet codecs payload t draw = .ok (actions, q)) :
    Plain config q := ⟨h.settled.process_packet hp, h.untracked.process_packet hp⟩

theorem Plain.process_event {event : Packet} (h : Plain config p)
    (hp : p.process_event codecs event = .ok (actions, q)) : Plain config q :=
  ⟨h.settled.process_event hp, h.untracked.process_event hp⟩

theorem Plain.update (h : Plain config p) (codecs : Codecs) (t : Instant) (elapsed : Duration) (draw : ProbeDraw) :
    Plain config (p.update codecs t elapsed draw).2 := ⟨h.settled.update, h.untracked.update t elapsed draw⟩

theorem Plain.disconnect (h : Plain config p) : Plain config p.disconnect := by
  refine ⟨h.settled.disconnect, ?_⟩
  have hsame : p.disconnect.acknowledge_handler = p.acknowledge_handler := by
    unfold Peer.disconnect
    split <;> rfl
  unfold Untracked
  rw [hsame]
  exact h.untracked

theorem disconnect_last_heard (p : Peer) : p.disconnect.last_heard = p.last_heard := by
  unfold Peer.disconnect
  split <;> rfl

/-- Such a session times out when it was silent for long enough, and then only. -/
theorem Plain.times_out_iff (h : Plain config p) (t : Instant) :
    p.times_out t = true ↔ config.idle_connection_timeout ≤ t - p.last_heard := by
  obtain ⟨a, b, hc⟩ := h.settled
  unfold times_out
  rw [h.untracked.packets_in_flight, hc]
  simp

/-- Who is reported as timed out was silent. -/
theorem Plain.silent_of_timeout (h : Plain config p) {addr : SocketAddr}
    (hm : .Timeout addr ∈ events_of (p.should_drop t).2) : config.idle_connection_timeout ≤ t - p.last_heard := by
  rw [should_drop_eq] at hm
  split at hm
  · simp [events_of] at hm
  · split at hm
    · exact (h.times_out_iff t).1 ‹_›
    · simp [events_of] at hm

/-- Who is not dropped was heard. -/
theorem Plain.heard_of_kept (h : Plain config p) (hkept : (p.should_drop t).1 = false) :
    t - p.last_heard < config.idle_connection_timeout := by
  rw [should_drop_eq] at hkept
  split at hkept
  · cases hkept
  · split at hkept
    · cases hkept
    · exact Nat.lt_of_not_le fun hle => ‹¬ p.times_out t = true› ((h.times_out_iff t).2 hle)

/-- A session that is dropped says so. -/
theorem dropped_because (hdrop : (p.should_drop t).1 = true) :
    .Timeout p.remote_address ∈ events_of (p.should_drop t).2 ∨
      .Disconnect p.remote_address ∈ events_of (p.should_drop t).2 := by
  rw [should_drop_eq] at hdrop ⊢
  split
  · exact .inr (by simp [events_of])
  · split
    · exact .inl (by simp [events_of])
    · rename_i hz ht
      rw [if_neg hz, if_neg ht] at hdrop
      cases hdrop

/-- Datagrams and user packets time nobody out. -/
theorem no_timeout_process_packet (h : p.process_packet codecs payload t draw = .ok (actions, q)) (addr : SocketAddr) :
    .Timeout addr ∉ events_of actions := by
  rcases process_packet_cases h with ⟨rfl, -, -⟩ | ⟨packet, r, packets, -, -, rfl, -⟩
  · simp [events_of]
  · rw [events_of_append, events_of_packet_events]
    unfold connect_event
    split <;> simp [events_of]

theorem no_timeout_process_event {event : Packet} (h : p.process_event codecs event = .ok (actions, q))
    (addr : SocketAddr) : .Timeout addr ∉ events_of actions := by
  rw [events_of_onlySends (process_event_moves h).1]
  exact List.not_mem_nil

end Peer

/-- What the user is told at the end of a poll comes from the last check. -/
theorem Account.settle_events {self : Account} {s : Peer} (hs : self.session = some s) (codecs : Codecs)
    (time : Instant) (draw : Duration × ProbeDraw) :
    (self.settle codecs time draw).events =
      self.events ++ events_of ((s.update codecs time draw.1 draw.2).2.should_drop time).2 := by
  have hquiet : events_of (s.update codecs time draw.1 draw.2).1 = [] :=
    Peer.events_of_onlySends (Peer.update_moves codecs s time draw.1 draw.2).1
  have hupdated : self.update codecs time draw = ⟨some (s.update codecs time draw.1 draw.2).2,
      self.sends ++ sends_of (s.update codecs time draw.1 draw.2).1, self.events⟩ := by
    rw [update, act_some hs, hquiet, List.append_nil]
  unfold settle
  dsimp only
  rw [hupdated]
  rfl

namespace SessionManager

variable {I : Type} {codecs : Codecs} {intercept : Interceptor I} {m m' : SessionManager Peer I} {config : Config}
  {limit : UInt16} {poll : Poll} {time : Instant} {addr : SocketAddr} {next : Option Peer} {actions : List Action}
  {n n' : Nat} {d : IncomingDatagram}

/-! ## When an address was last heard -/

/-- When the session of an address was last heard, or made. -/
def last_heard (m : SessionManager Peer I) (addr : SocketAddr) : Option Instant :=
  (m.sessions.lookup addr).map Peer.last_heard

/-- The datagram makes a session, or brings a command to the one there is. -/
def Reaches (codecs : Codecs) (intercept : Interceptor I) (time : Instant)
    (x : (Nat × SessionManager Peer I) × IncomingDatagram) : Prop :=
  ∃ payload, x.1.2.passes intercept x.2 = some payload ∧
    ((∃ s, x.1.2.sessions.lookup x.2.address = some s ∧
      Peer.Processes codecs s (.process_packet payload time x.2.draw)) ∨
    (x.1.2.sessions.lookup x.2.address = none ∧ x.1.2.admits x.1.1 x.2.address = true))

/-- The user packet makes a session. -/
def Opens (x : (Nat × SessionManager Peer I) × UserEvent) : Prop :=
  x.1.2.sessions.lookup x.2.event.addr = none ∧ x.1.2.can_accept_duplicate x.2.event.addr = true

theorem Acts.last_heard_here (h : Acts m m' addr next actions) : m'.last_heard addr = next.map Peer.last_heard := by
  unfold SessionManager.last_heard
  rw [h.after]

theorem Acts.last_heard_there (h : Acts m m' addr next actions) {a : SocketAddr} (ha : a ≠ addr) :
    m'.last_heard a = m.last_heard a := by
  unfold SessionManager.last_heard
  rw [h.others a ha]

/-- Once its address is reached, a session was heard. -/
theorem last_heard_receive (hm : Addressed m)
    (h : receive (Peer.session codecs) intercept time (n, m) d = .ok (n', m')) (addr : SocketAddr) :
    (d.address = addr ∧ Reaches codecs intercept time ((n, m), d) → m'.last_heard addr = some time) ∧
    (¬ (d.address = addr ∧ Reaches codecs intercept time ((n, m), d)) → m'.last_heard addr = m.last_heard addr) := by
  have haddressed : Addressed (m.intercepted intercept d) := hm
  rw [receive_eq] at h
  cases hp : m.passes intercept d with
  | none =>
    rw [hp] at h
    cases h
    refine ⟨fun ⟨_, payload, hpass, _⟩ => ?_, fun _ => rfl⟩
    rw [hp] at hpass
    cases hpass
  | some payload =>
    rw [hp] at h
    change (m.intercepted intercept d).dispatch (Peer.session codecs) time n d payload = .ok (n', m') at h
    rcases dispatch_acts haddressed h with ⟨s, s', actions, hl, hs', -, ha⟩ |
      ⟨s', actions, hl, hs', ⟨hadmits, -, ha⟩ | ⟨hrefused, -, ha⟩⟩
    · -- the session is there
      have hhere : m.last_heard d.address = some s.last_heard := congrArg (Option.map Peer.last_heard) hl
      rcases Peer.process_packet_times hs' with ⟨hprocesses, hstamped⟩ | ⟨hidle, hsame⟩
      · have hreaches : Reaches codecs intercept time ((n, m), d) := ⟨payload, hp, .inl ⟨s, hl, hprocesses⟩⟩
        refine ⟨fun ⟨he, _⟩ => ?_, fun hno => ?_⟩
        · subst he
          rw [ha.last_heard_here, Option.map_some, hstamped.heard]
        · exact ha.last_heard_there fun he => hno ⟨he.symm, hreaches⟩
      · have hno : ¬ Reaches codecs intercept time ((n, m), d) := by
          rintro ⟨payload', hpass, ⟨s₀, hl₀, hprocesses⟩ | ⟨hl₀, -⟩⟩
          · cases hp.symm.trans hpass
            cases hl.symm.trans hl₀
            exact hidle hprocesses
          · cases hl.symm.trans hl₀
        refine ⟨fun hreaches => absurd hreaches.2 hno, fun _ => ?_⟩
        by_cases he : addr = d.address
        · subst he
          rw [ha.last_heard_here, Option.map_some, hsame.heard, hhere]
        · exact ha.last_heard_there he
    · -- a new session was heard, or is as old as now
      have hnew : s'.last_heard = time := by
        rcases Peer.process_packet_times hs' with ⟨-, hstamped⟩ | ⟨-, hsame⟩
        · exact hstamped.heard
        · exact hsame.heard
      have hreaches : Reaches codecs intercept time ((n, m), d) := ⟨payload, hp, .inr ⟨hl, hadmits⟩⟩
      refine ⟨fun ⟨he, _⟩ => ?_, fun hno => ?_⟩
      · subst he
        rw [ha.last_heard_here, Option.map_some, hnew]
      · exact ha.last_heard_there fun he => hno ⟨he.symm, hreaches⟩
    · have hhere : m.last_heard d.address = none := congrArg (Option.map Peer.last_heard) hl
      have hno : ¬ Reaches codecs intercept time ((n, m), d) := by
        rintro ⟨payload', -, ⟨s₀, hl₀, -⟩ | ⟨-, hadmits⟩⟩
        · cases hl.symm.trans hl₀
        · cases hrefused.symm.trans hadmits
      refine ⟨fun hreaches => absurd hreaches.2 hno, fun _ => ?_⟩
      by_cases he : addr = d.address
      · subst he
        rw [ha.last_heard_here, hhere]
        rfl
      · exact ha.last_heard_there he

/-- To send to somebody is not to hear them. -/
theorem last_heard_send_user_event {e : UserEvent} (hm : Addressed m)
    (h : send_user_event (Peer.session codecs) time (n, m) e = .ok (n', m')) (addr : SocketAddr) :
    (e.event.addr = addr ∧ Opens ((n, m), e) → m'.last_heard addr = some time) ∧
    (¬ (e.event.addr = addr ∧ Opens ((n, m), e)) → m'.last_heard addr = m.last_heard addr) := by
  rcases send_user_event_acts hm h with ⟨s, s', actions, hl, hs', ha⟩ | ⟨hl, hrefused, rfl⟩ |
    ⟨s', actions, hl, haccepts, hs', ha⟩
  · refine ⟨fun ⟨_, hnone, _⟩ => ?_, fun _ => ?_⟩
    · cases hl.symm.trans hnone
    · by_cases he : addr = e.event.addr
      · subst he
        rw [ha.last_heard_here, Option.map_some, (Peer.sameTimes_process_event hs').heard]
        exact (congrArg (Option.map Peer.last_heard) hl).symm
      · exact ha.last_heard_there he
  · refine ⟨fun ⟨_, _, haccepts⟩ => ?_, fun _ => rfl⟩
    cases hrefused.symm.trans haccepts
  · have hnew : s'.last_heard = time := (Peer.sameTimes_process_event hs').heard
    refine ⟨fun ⟨he, _⟩ => ?_, fun hno => ?_⟩
    · subst he
      rw [ha.last_heard_here, Option.map_some, hnew]
    · exact ha.last_heard_there fun he => hno ⟨he.symm, hl, haccepts⟩

/-- The poll hears the address, or makes a session for it. -/
def Contacts (codecs : Codecs) (intercept : Interceptor I) (m : SessionManager Peer I) (poll : Poll)
    (addr : SocketAddr) : Prop :=
  (∃ x ∈ m.poll_rounds (Peer.session codecs) intercept poll, x.2.address = addr ∧
    Reaches codecs intercept poll.time x) ∨
  ∃ x ∈ m.event_rounds codecs intercept poll, x.2.event.addr = addr ∧ Opens x

theorem sorted_after_datagrams (hm : Sorted limit m) {state : Nat × SessionManager Peer I}
    (h : m.after_datagrams (Peer.session codecs) intercept poll = .ok state) : Sorted limit state.2 :=
  foldlM_invariant (I := fun state => Sorted limit state.2) (fun _ _ _ hs hr => hs.receive hr) h hm

/-- Before its updates, a poll has set the time of the addresses it heard, and
of no others. -/
theorem last_heard_before_updates (hm : Sorted limit m) {state : Nat × SessionManager Peer I}
    (h : m.before_updates (Peer.session codecs) intercept poll = .ok state) (addr : SocketAddr) :
    (m.Contacts codecs intercept poll addr → state.2.last_heard addr = some poll.time) ∧
    (¬ m.Contacts codecs intercept poll addr → state.2.last_heard addr = m.last_heard addr) := by
  obtain ⟨received, hreceived, hsent⟩ := bind_eq_ok h
  have hsorted := sorted_after_datagrams hm hreceived
  have hrounds : m.event_rounds codecs intercept poll =
      loop_rounds (send_user_event (Peer.session codecs) poll.time) received poll.user_events := by
    rw [after_datagrams] at hreceived
    unfold event_rounds
    rw [hreceived]
  have hstart : Sorted limit (m.unestablished_session_count (Peer.session codecs), m).2 := hm
  obtain ⟨hheard, hsilent⟩ := foldlM_sets (v := fun state => state.2.last_heard addr) (b := some poll.time)
    (T := fun x => x.2.address = addr ∧ Reaches codecs intercept poll.time x)
    (fun x hx u hu hT => (last_heard_receive (loop_rounds_invariant (I := fun state => Sorted limit state.2)
      (fun _ _ _ hs hr => hs.receive hr) hstart x hx).addressed hu addr).1 hT)
    (fun x hx u hu hT => (last_heard_receive (loop_rounds_invariant (I := fun state => Sorted limit state.2)
      (fun _ _ _ hs hr => hs.receive hr) hstart x hx).addressed hu addr).2 hT) hreceived
  obtain ⟨hopened, hkept⟩ := foldlM_sets (v := fun state => state.2.last_heard addr) (b := some poll.time)
    (T := fun x => x.2.event.addr = addr ∧ Opens x)
    (fun x hx u hu hT => (last_heard_send_user_event (loop_rounds_invariant (I := fun state => Sorted limit state.2)
      (fun _ _ _ hs hr => hs.send_user_event hr) hsorted x hx).addressed hu addr).1 hT)
    (fun x hx u hu hT => (last_heard_send_user_event (loop_rounds_invariant (I := fun state => Sorted limit state.2)
      (fun _ _ _ hs hr => hs.send_user_event hr) hsorted x hx).addressed hu addr).2 hT) hsent
  unfold Contacts
  rw [hrounds, poll_rounds]
  constructor
  · intro hcontact
    by_cases hopens : ∃ x ∈ loop_rounds (send_user_event (Peer.session codecs) poll.time) received poll.user_events,
        x.2.event.addr = addr ∧ Opens x
    · exact hopened hopens
    · rcases hcontact with hreaches | hopens'
      · rw [hkept fun x hx hT => hopens ⟨x, hx, hT⟩]
        exact hheard hreaches
      · exact absurd hopens' hopens
  · intro hno
    rw [hkept fun x hx hT => hno (.inr ⟨x, hx, hT⟩)]
    exact hsilent fun x hx hT => hno (.inl ⟨x, hx, hT⟩)

/-! ## Polls -/

/-- What a host keeps. Between checks no timeout is pending. -/
structure Calm (config : Config) (limit : UInt16) (m : SessionManager Peer I) : Prop where
  sorted : Sorted limit m
  configured : m.config = config
  sessions : Each (Peer.Plain config) m
  untold : ∀ addr, .Timeout addr ∉ m.pending_events

theorem calm_new (config : Config) (i : I) :
    Calm config config.max_duplicate_peers (.new config i : SessionManager Peer I) :=
  ⟨sorted_new config i, rfl, each_new _ config i, fun _ => List.not_mem_nil⟩

theorem Calm.acts (h : Calm config limit m) (ha : Acts m m' addr next actions) (hsorted : Sorted limit m')
    (hn : ∀ s, next = some s → s.Plain config) (hq : ∀ a, .Timeout a ∉ events_of actions) : Calm config limit m' := by
  refine ⟨hsorted, ha.config.trans h.configured, h.sessions.acts ha hn, fun a hm => ?_⟩
  rw [ha.events] at hm
  rcases List.mem_append.1 hm with hm | hm
  · exact h.untold a hm
  · exact hq a hm

theorem Calm.receive {state state' : Nat × SessionManager Peer I} (h : Calm config limit state.2)
    (hr : SessionManager.receive (Peer.session codecs) intercept time state d = .ok state') :
    Calm config limit state'.2 := by
  obtain ⟨n, m⟩ := state
  obtain ⟨n', m'⟩ := state'
  have hsorted := h.sorted.receive hr
  have hconfig : m.config = config := h.configured
  have hi : Calm config limit (m.intercepted intercept d) :=
    ⟨h.sorted.intercepted intercept d, h.configured, h.sessions, h.untold⟩
  rcases receive_does h.sorted.addressed hr with rfl | ⟨s, payload, s', actions, next, hs, hs', hnext, ha⟩
  · exact hi
  · have hplain : s.Plain config := h.sessions.of_acting hs (hconfig ▸ Peer.plain_new _ _ _ _)
    refine hi.acts ha hsorted (fun t ht => ?_) (Peer.no_timeout_process_packet hs')
    rw [hnext t ht]
    exact hplain.process_packet hs'

theorem Calm.send_user_event {state state' : Nat × SessionManager Peer I} {e : UserEvent}
    (h : Calm config limit state.2)
    (hr : SessionManager.send_user_event (Peer.session codecs) time state e = .ok state') :
    Calm config limit state'.2 := by
  obtain ⟨n, m⟩ := state
  obtain ⟨n', m'⟩ := state'
  have hsorted := h.sorted.send_user_event hr
  have hconfig : m.config = config := h.configured
  rcases send_user_event_does h.sorted.addressed hr with rfl | ⟨s, s', actions, hs, hs', ha⟩
  · exact h
  · have hplain : s.Plain config := h.sessions.of_acting hs (hconfig ▸ Peer.plain_new _ _ _ _)
    refine h.acts ha hsorted (fun t ht => ?_) (Peer.no_timeout_process_event hs')
    cases ht
    exact hplain.process_event hs'

theorem Calm.before_updates (h : Calm config limit m) {state : Nat × SessionManager Peer I}
    (hs : m.before_updates (Peer.session codecs) intercept poll = .ok state) : Calm config limit state.2 := by
  obtain ⟨received, hreceived, hsent⟩ := bind_eq_ok hs
  have hstart : Calm config limit (m.unestablished_session_count (Peer.session codecs), m).2 := h
  have hcalm : Calm config limit received.2 :=
    foldlM_invariant (I := fun state => Calm config limit state.2) (fun _ _ _ hs hr => hs.receive hr) hreceived hstart
  exact foldlM_invariant (I := fun state => Calm config limit state.2) (fun _ _ _ hs hr => hs.send_user_event hr)
    hsent hcalm

/-- The checks of a poll, for one address. `sent` is the host before them. -/
structure Checked (config : Config) (poll : Poll) (addr : SocketAddr) (sent m' : SessionManager Peer I)
    (events : List SocketEvent) : Prop where
  silent : .Timeout addr ∈ events → ∃ t, sent.last_heard addr = some t ∧ config.idle_connection_timeout ≤ poll.time - t
  heard : ∀ t, m'.last_heard addr = some t →
    sent.last_heard addr = some t ∧ poll.time - t < config.idle_connection_timeout
  told : ∀ t, sent.last_heard addr = some t → m'.last_heard addr = none →
    .Timeout addr ∈ events ∨ .Disconnect addr ∈ events

section Settled

variable {sent r : SessionManager Peer I} {s : Peer}

/-- The account of an address has what the user is told about it. -/
theorem Settled.mem_pending_events (h : Settled codecs limit poll sent r) (e : SocketEvent) :
    e ∈ r.pending_events ↔
      e ∈ ((sent.account e.address).settle codecs poll.time (poll.update_draw e.address)).events := by
  rw [← h.account]
  exact ⟨fun hm => List.mem_filter.2 ⟨hm, decide_eq_true rfl⟩, fun hm => (List.mem_filter.1 hm).1⟩

theorem Settled.last_heard (h : Settled codecs limit poll sent r) (addr : SocketAddr) :
    r.last_heard addr =
      ((sent.account addr).settle codecs poll.time (poll.update_draw addr)).session.map Peer.last_heard := by
  rw [← h.account]
  rfl

theorem Calm.not_mem_account (h : Calm config limit m) (a addr : SocketAddr) : .Timeout a ∉ (m.account addr).events :=
  fun hm => h.untold a (List.mem_filter.1 hm).1

theorem Settled.checked_none (h : Settled codecs limit poll sent r) (hsent : Calm config limit sent)
    (hl : sent.sessions.lookup addr = none) : Checked config poll addr sent r r.pending_events := by
  have hnone : (sent.account addr).session = none := hl
  have hsession := h.last_heard addr
  rw [Account.settle_none hnone, hnone] at hsession
  refine ⟨fun hm => ?_, fun t ht => ?_, fun t ht => ?_⟩
  · have hm' := (h.mem_pending_events (.Timeout addr)).1 hm
    rw [show SocketEvent.address (.Timeout addr) = addr from rfl, Account.settle_none hnone] at hm'
    exact absurd hm' (hsent.not_mem_account addr addr)
  · rw [hsession] at ht
    cases ht
  · rw [show sent.last_heard addr = none from congrArg (Option.map Peer.last_heard) hl] at ht
    cases ht

theorem Settled.checked_some (h : Settled codecs limit poll sent r) (hsent : Calm config limit sent)
    (hl : sent.sessions.lookup addr = some s) : Checked config poll addr sent r r.pending_events := by
  have hsome : (sent.account addr).session = some s := hl
  have htime : sent.last_heard addr = some s.last_heard := congrArg (Option.map Peer.last_heard) hl
  have hsession := h.last_heard addr
  have hupdate := (hsent.sessions addr s hl).update codecs poll.time (poll.update_draw addr).1 (poll.update_draw addr).2
  have hsame := (Peer.sameTimes_update codecs s poll.time (poll.update_draw addr).1 (poll.update_draw addr).2).heard
  have haddr : (s.update codecs poll.time (poll.update_draw addr).1 (poll.update_draw addr).2).2.remote_address = addr :=
    (Peer.update_moves codecs s poll.time _ _).2.address.trans (hsent.sorted.addressed addr s hl)
  have hevents : ∀ e : SocketEvent, e.address = addr → (e ∈ r.pending_events ↔ e ∈ (sent.account addr).events ++
      events_of ((s.update codecs poll.time (poll.update_draw addr).1 (poll.update_draw addr).2).2.should_drop
        poll.time).2) := by
    rintro e rfl
    rw [h.mem_pending_events, Account.settle_events hsome]
  refine ⟨fun hm => ⟨s.last_heard, htime, ?_⟩, fun t ht => ?_, fun t _ hgone => ?_⟩
  · rw [← hsame]
    rcases List.mem_append.1 ((hevents (.Timeout addr) rfl).1 hm) with hm | hm
    · exact absurd hm (hsent.not_mem_account addr addr)
    · exact hupdate.silent_of_timeout hm
  · rw [hsession] at ht
    obtain ⟨s', hs', rfl⟩ := Option.map_eq_some_iff.1 ht
    obtain ⟨s₀, hs₀, rfl, hkept⟩ := Account.settle_some hs'
    cases hsome.symm.trans hs₀
    exact ⟨hsame ▸ htime, hupdate.heard_of_kept hkept⟩
  · have hdrop : ((s.update codecs poll.time (poll.update_draw addr).1 (poll.update_draw addr).2).2.should_drop
        poll.time).1 = true := by
      by_contra hno
      rw [hsession, Account.settle_kept hsome (eq_false_of_ne_true hno)] at hgone
      cases hgone
    rcases Peer.dropped_because hdrop with hm | hm
    · rw [haddr] at hm
      exact .inl ((hevents (.Timeout addr) rfl).2 (List.mem_append_right _ hm))
    · rw [haddr] at hm
      exact .inr ((hevents (.Disconnect addr) rfl).2 (List.mem_append_right _ hm))

/-- An account is checked when it is settled. -/
theorem Settled.checked (h : Settled codecs limit poll sent r) (hsent : Calm config limit sent) (addr : SocketAddr) :
    Checked config poll addr sent r r.pending_events := by
  cases hl : sent.sessions.lookup addr with
  | none => exact h.checked_none hsent hl
  | some s => exact h.checked_some hsent hl

end Settled

theorem Calm.manual_poll (h : Calm config limit m) {flushed : Flushed}
    (hp : m.manual_poll (Peer.session codecs) intercept poll = .ok (flushed, m')) :
    ∃ state, m.before_updates (Peer.session codecs) intercept poll = .ok state ∧ Calm config limit m' ∧
      ∀ addr, Checked config poll addr state.2 m' flushed.events := by
  have hpoll := hp
  rw [manual_poll_eq] at hpoll
  obtain ⟨updated, hupdated, -⟩ := bind_eq_ok hpoll
  obtain ⟨n, sent, hsent, -⟩ := before_checks_eq_ok hupdated
  have hcalm : Calm config limit sent := h.before_updates hsent
  obtain ⟨r, hr, hsettled⟩ := settles intercept hsent hcalm.sorted.addressed hcalm.sorted.accounted
  rw [hp] at hr
  cases hr
  refine ⟨(n, sent), hsent, ⟨⟨hsettled.addressed, hsettled.accounted.congr (fun _ => rfl) rfl rfl⟩,
    hsettled.frame.config.trans hcalm.configured, fun addr s hs => ?_, fun _ => List.not_mem_nil⟩, fun addr => ?_⟩
  · have hsession : (r.account addr).session = some s := hs
    rw [hsettled.account] at hsession
    obtain ⟨s₀, hs₀, rfl, -⟩ := Account.settle_some hsession
    exact (hcalm.sessions addr s₀ hs₀).update codecs poll.time _ _
  · have hchecked := hsettled.checked hcalm addr
    exact ⟨hchecked.silent, hchecked.heard, hchecked.told⟩

theorem Calm.disconnect (h : Calm config limit m) (addr : SocketAddr) : Calm config limit (m.disconnect addr) := by
  have hsorted := h.sorted.disconnect addr
  rcases disconnect_acts h.sorted.addressed addr with ⟨-, he⟩ | ⟨s, hl, ha⟩
  · rw [he]
    exact h
  · refine h.acts ha hsorted (fun t ht => ?_) (fun _ => List.not_mem_nil)
    cases ht
    exact (h.sessions addr s hl).disconnect

/-- To disconnect somebody is not to hear them. -/
theorem last_heard_disconnect (hm : Addressed m) (addr a : SocketAddr) :
    (m.disconnect addr).last_heard a = m.last_heard a := by
  rcases disconnect_acts hm addr with ⟨-, he⟩ | ⟨s, hl, ha⟩
  · rw [he]
  · by_cases he : a = addr
    · subst he
      rw [ha.last_heard_here, Option.map_some, Peer.disconnect_last_heard]
      exact (congrArg (Option.map Peer.last_heard) hl).symm
    · exact ha.last_heard_there he

/-! ## Runs -/

/-- The times of the polls of a run. -/
def poll_times (steps : List (SessionManager Peer I × HostStep)) : List Instant :=
  steps.filterMap fun x =>
    match x.2.op with
    | .Poll poll => some poll.time
    | .Disconnect _ => none

/-- At this time a poll of the run heard the address, or made a session for it. -/
def Contact (codecs : Codecs) (intercept : Interceptor I) (steps : List (SessionManager Peer I × HostStep))
    (addr : SocketAddr) (t : Instant) : Prop :=
  ∃ u poll flushed, (u, ⟨.Poll poll, flushed⟩) ∈ steps ∧ u.Contacts codecs intercept poll addr ∧ poll.time = t

variable {steps : List (SessionManager Peer I × HostStep)} {flushed : Flushed} {t : Instant}

theorem Contact.mem_poll_times (h : Contact codecs intercept steps addr t) : t ∈ poll_times steps := by
  obtain ⟨u, poll, flushed, hm, -, rfl⟩ := h
  exact List.mem_filterMap.2 ⟨_, hm, rfl⟩

theorem contact_snoc_poll : Contact codecs intercept (steps ++ [(m, ⟨.Poll poll, flushed⟩)]) addr t ↔
    Contact codecs intercept steps addr t ∨ m.Contacts codecs intercept poll addr ∧ poll.time = t := by
  constructor
  · rintro ⟨u, poll', flushed', hm, hcontacts, ht⟩
    rcases List.mem_append.1 hm with hm | hm
    · exact .inl ⟨u, poll', flushed', hm, hcontacts, ht⟩
    · cases List.mem_singleton.1 hm
      exact .inr ⟨hcontacts, ht⟩
  · rintro (⟨u, poll', flushed', hm, hcontacts, ht⟩ | ⟨hcontacts, ht⟩)
    · exact ⟨u, poll', flushed', List.mem_append_left _ hm, hcontacts, ht⟩
    · exact ⟨m, poll, flushed, by simp, hcontacts, ht⟩

theorem contact_snoc_disconnect {a : SocketAddr} :
    Contact codecs intercept (steps ++ [(m, ⟨.Disconnect a, flushed⟩)]) addr t ↔
      Contact codecs intercept steps addr t := by
  constructor
  · rintro ⟨u, poll', flushed', hm, hcontacts, ht⟩
    rcases List.mem_append.1 hm with hm | hm
    · exact ⟨u, poll', flushed', hm, hcontacts, ht⟩
    · cases List.mem_singleton.1 hm
  · rintro ⟨u, poll', flushed', hm, hcontacts, ht⟩
    exact ⟨u, poll', flushed', List.mem_append_left _ hm, hcontacts, ht⟩

/-- The time is that of the last contact. -/
def Latest (codecs : Codecs) (intercept : Interceptor I) (steps : List (SessionManager Peer I × HostStep))
    (addr : SocketAddr) (t : Instant) : Prop :=
  Contact codecs intercept steps addr t ∧ ∀ t', Contact codecs intercept steps addr t' → t' ≤ t

/-- Sessions know their last contact. -/
structure Remembers (codecs : Codecs) (intercept : Interceptor I) (config : Config) (limit : UInt16)
    (steps : List (SessionManager Peer I × HostStep)) (m : SessionManager Peer I) : Prop where
  calm : Calm config limit m
  latest : ∀ addr t, m.last_heard addr = some t → Latest codecs intercept steps addr t

/-- So do those that a poll checks. -/
theorem Remembers.before_updates (h : Remembers codecs intercept config limit steps m)
    (hlater : ∀ t ∈ poll_times steps, t ≤ poll.time) {state : Nat × SessionManager Peer I}
    (hs : m.before_updates (Peer.session codecs) intercept poll = .ok state) (flushed : Flushed)
    (ht : state.2.last_heard addr = some t) :
    Latest codecs intercept (steps ++ [(m, ⟨.Poll poll, flushed⟩)]) addr t := by
  obtain ⟨hheard, hsilent⟩ := last_heard_before_updates h.calm.sorted hs addr
  by_cases hcontacts : m.Contacts codecs intercept poll addr
  · cases (hheard hcontacts).symm.trans ht
    refine ⟨contact_snoc_poll.2 (.inr ⟨hcontacts, rfl⟩), fun t' ht' => ?_⟩
    rcases contact_snoc_poll.1 ht' with ht' | ⟨-, rfl⟩
    · exact hlater t' ht'.mem_poll_times
    · exact le_refl _
  · rw [hsilent hcontacts] at ht
    obtain ⟨hcontact, hlast⟩ := h.latest addr t ht
    refine ⟨contact_snoc_poll.2 (.inl hcontact), fun t' ht' => ?_⟩
    rcases contact_snoc_poll.1 ht' with ht' | ⟨hc, -⟩
    · exact hlast t' ht'
    · exact absurd hc hcontacts

theorem poll_times_snoc_poll :
    poll_times (steps ++ [(m, ⟨.Poll poll, flushed⟩)]) = poll_times steps ++ [poll.time] := by
  simp [poll_times]

theorem poll_times_snoc_disconnect {a : SocketAddr} :
    poll_times (steps ++ [(m, ⟨.Disconnect a, flushed⟩)]) = poll_times steps := by
  simp [poll_times]

theorem run_remembers {i : I} (h : HostRun codecs intercept (.new config i) steps m)
    (hclock : (poll_times steps).Pairwise (· ≤ ·)) :
    Remembers codecs intercept config config.max_duplicate_peers steps m := by
  induction h with
  | start => exact ⟨calm_new config i, fun addr t ht => by cases ht⟩
  | @next steps m x m' hr hact ih =>
    obtain ⟨op, flushed⟩ := x
    cases op with
    | Poll poll =>
      rw [poll_times_snoc_poll, List.pairwise_append] at hclock
      have hremembers := ih hclock.1
      have hlater : ∀ t ∈ poll_times steps, t ≤ poll.time :=
        fun t ht => hclock.2.2 t ht _ (List.mem_singleton_self _)
      obtain ⟨state, hs, hcalm, hchecked⟩ := hremembers.calm.manual_poll hact
      refine ⟨hcalm, fun addr t ht => ?_⟩
      exact hremembers.before_updates hlater hs flushed ((hchecked addr).heard t ht).1
    | Disconnect addr =>
      rw [poll_times_snoc_disconnect] at hclock
      have hremembers := ih hclock
      cases hact
      refine ⟨hremembers.calm.disconnect addr, fun a t ht => ?_⟩
      rw [last_heard_disconnect hremembers.calm.sorted.addressed] at ht
      obtain ⟨hcontact, hlast⟩ := hremembers.latest a t ht
      exact ⟨contact_snoc_disconnect.2 hcontact, fun t' ht' => hlast t' (contact_snoc_disconnect.1 ht')⟩

/-- As long as the clock does not go back: who is reported as timed out was not
heard within the idle timeout, whose session stays was, and whose session goes
is reported. -/
theorem timeouts_fit_silence {i : I} (h : HostRun codecs intercept (.new config i) steps m)
    (hp : m.manual_poll (Peer.session codecs) intercept poll = .ok (flushed, m'))
    (hclock : (poll_times (steps ++ [(m, ⟨.Poll poll, flushed⟩)])).Pairwise (· ≤ ·)) (addr : SocketAddr) :
    (.Timeout addr ∈ flushed.events → ∀ t, Contact codecs intercept (steps ++ [(m, ⟨.Poll poll, flushed⟩)]) addr t →
      t + config.idle_connection_timeout ≤ poll.time) ∧
    (∀ s, m'.sessions.lookup addr = some s → ∃ t,
      Contact codecs intercept (steps ++ [(m, ⟨.Poll poll, flushed⟩)]) addr t ∧
        poll.time < t + config.idle_connection_timeout) ∧
    (∀ s, m.sessions.lookup addr = some s → m'.sessions.lookup addr = none →
      .Timeout addr ∈ flushed.events ∨ .Disconnect addr ∈ flushed.events) := by
  rw [poll_times_snoc_poll, List.pairwise_append] at hclock
  have hremembers := run_remembers h hclock.1
  have hlater : ∀ t ∈ poll_times steps, t ≤ poll.time := fun t ht => hclock.2.2 t ht _ (List.mem_singleton_self _)
  obtain ⟨state, hs, -, hchecked⟩ := hremembers.calm.manual_poll hp
  refine ⟨fun hm t ht => ?_, fun s hl => ?_, fun s hl hgone => ?_⟩
  · obtain ⟨t₀, ht₀, hsilent⟩ := (hchecked addr).silent hm
    have hle := (hremembers.before_updates hlater hs flushed ht₀).2 t ht
    have hpast : t ≤ poll.time := by
      rcases contact_snoc_poll.1 ht with ht | ⟨-, rfl⟩
      · exact hlater t ht.mem_poll_times
      · exact le_refl _
    exact Nat.add_le_of_le_sub' hpast (hsilent.trans (Nat.sub_le_sub_left hle poll.time))
  · have hheard : m'.last_heard addr = some s.last_heard := congrArg (Option.map Peer.last_heard) hl
    obtain ⟨hsent, hrecent⟩ := (hchecked addr).heard _ hheard
    exact ⟨s.last_heard, (hremembers.before_updates hlater hs flushed hsent).1, lt_add_of_tsub_lt_left hrecent⟩
  · have hheard : m.last_heard addr = some s.last_heard := congrArg (Option.map Peer.last_heard) hl
    have hunheard : m'.last_heard addr = none := congrArg (Option.map Peer.last_heard) hgone
    obtain ⟨hcontacted, hleft⟩ := last_heard_before_updates hremembers.calm.sorted hs addr
    by_cases hcontacts : m.Contacts codecs intercept poll addr
    · exact (hchecked addr).told _ (hcontacted hcontacts) hunheard
    · exact (hchecked addr).told _ ((hleft hcontacts).trans hheard) hunheard

/-- A `Ping` comes, and then nothing for five seconds. -/
def long_silence : Poll := { poll_of (letter (.Ping 7)) with time := from_secs 5, datagrams := [] }

theorem timeouts_fit_silence_pinged : ∃ flushed m flushed' m',
    HostRun .checked .no_op (.new .default ()) [(.new .default (), ⟨.Poll (poll_of (letter (.Ping 7))), flushed⟩)] m ∧
      m.manual_poll (Peer.session .checked) .no_op long_silence = .ok (flushed', m') ∧
      .Timeout ⟨.V4 1, 5⟩ ∈ flushed'.events ∧
      ∀ t, Contact .checked .no_op ([(.new .default (), ⟨.Poll (poll_of (letter (.Ping 7))), flushed⟩)] ++
        [(m, ⟨.Poll long_silence, flushed'⟩)]) ⟨.V4 1, 5⟩ t →
        t + Config.default.idle_connection_timeout ≤ from_secs 5 := by
  obtain ⟨⟨flushed, m⟩, hact, hout⟩ := exists_ok
    (x := (SessionManager.new .default () : SessionManager Peer Unit).act .checked .no_op
      (.Poll (poll_of (letter (.Ping 7)))))
    (p := fun out => (out.2.manual_poll (Peer.session .checked) .no_op long_silence).toOption.any fun out' =>
      out'.1.events.contains (.Timeout ⟨.V4 1, 5⟩)) (by decide +kernel)
  obtain ⟨⟨flushed', m'⟩, hp, hout⟩ := exists_ok hout
  have htimeout : .Timeout ⟨.V4 1, 5⟩ ∈ flushed'.events := List.contains_iff_mem.1 hout
  have hrun : HostRun .checked .no_op (.new .default ())
      [(.new .default (), ⟨.Poll (poll_of (letter (.Ping 7))), flushed⟩)] m := .next .start hact
  exact ⟨flushed, m, flushed', m', hrun, hp, htimeout,
    (timeouts_fit_silence hrun hp (List.pairwise_pair.2 (Nat.zero_le _)) ⟨.V4 1, 5⟩).1 htimeout⟩

end SessionManager

end Bitfold
