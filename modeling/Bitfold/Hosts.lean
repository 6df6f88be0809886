import Bitfold.Accounts
import Bitfold.Admission
import Bitfold.Lib.Mesh
import Bitfold.Provenance
/-!
# Hosts

Any number of hosts, each with its sessions, its interceptor and its user, on
a network that loses, repeats and reorders datagrams. Some addresses are not
those of hosts and send anything. What the user of a host gets from the address
of another host, the user of that host sent here.
-/

namespace Bitfold

open Lib ProtocolCommand

namespace SessionManager

variable {I : Type} {codecs : Codecs} {intercept : Interceptor I} {m m' : SessionManager Peer I}

/-! ## What is handed to the sessions -/

/-- The session that a user event is for: the one of its address or, if one may
be opened, a new one. -/
def session_for (m : SessionManager Peer I) (time : Instant) (e : UserEvent) : Option Peer :=
  match m.sessions.lookup e.event.addr with
  | some s => some s
  | none => if m.can_accept_duplicate e.event.addr then some (.new e.event.addr m.config time e.ids) else none

/-- The packets for an address that a poll hands to a session. -/
def hands_over (codecs : Codecs) (intercept : Interceptor I) (m : SessionManager Peer I) (poll : Poll)
    (addr : SocketAddr) : Set (Peer × Packet) :=
  {x | ∃ r ∈ m.event_rounds codecs intercept poll, x.2 = r.2.event ∧ x.2.addr = addr ∧
    r.1.2.session_for poll.time r.2 = some x.1}

/-! ## One host -/

/-- The sessions with the addresses in `H` send what the one policy lets
through, and deliver what the other one does; so does what is pending. -/
structure Upright (codecs : Codecs) (H : SocketAddr → Prop) (mine theirs : SocketAddr → Policy) (checks : Bool)
    (m : SessionManager Peer I) : Prop where
  config : m.config.use_checksums = checks
  address : ∀ addr s, m.sessions.lookup addr = some s → s.remote_address = addr
  sessions : ∀ addr s, H addr → m.sessions.lookup addr = some s → Intact (mine addr) (theirs addr) checks ⟨s, [], []⟩
  sends : ∀ x ∈ m.pending_sends, H x.1 → Conveys codecs checks (mine x.1).command x.2
  events : ∀ packet, .Packet packet ∈ m.pending_events → H packet.addr → (theirs packet.addr).Admits packet

variable {H : SocketAddr → Prop} {mine theirs : SocketAddr → Policy} {checks : Bool}

theorem upright_new (config : Config) (i : I) (h : config.use_checksums = checks) :
    Upright codecs H mine theirs checks (.new config i) := by
  refine ⟨h, fun addr s hs => ?_, fun addr s _ hs => ?_, fun x hx => ?_, fun packet hm => ?_⟩
  · cases hs
  · cases hs
  · cases hx
  · cases hm

theorem mem_emitted {packet : Packet} {actions : List Action} :
    packet ∈ Peer.emitted actions ↔ .Packet packet ∈ events_of actions := by
  unfold Peer.emitted events_of
  simp only [List.mem_filterMap]
  constructor
  · rintro ⟨a, ha, he⟩
    refine ⟨a, ha, ?_⟩
    cases a with
    | Send bytes => cases he
    | Emit e =>
      cases e with
      | Packet x =>
        cases he
        rfl
      | _ => cases he
  · rintro ⟨a, ha, he⟩
    refine ⟨a, ha, ?_⟩
    cases a with
    | Send bytes => cases he
    | Emit e =>
      cases he
      rfl

/-- What a session in order does in its turn. -/
structure Does (codecs : Codecs) (H : SocketAddr → Prop) (mine theirs : SocketAddr → Policy) (checks : Bool)
    (addr : SocketAddr) (after : Option Peer) (actions : List Action) : Prop where
  address : ∀ s, after = some s → s.remote_address = addr
  events : ∀ e ∈ events_of actions, e.address = addr
  intact : H addr → (∀ s, after = some s → Intact (mine addr) (theirs addr) checks ⟨s, [], []⟩) ∧
    (∀ bytes ∈ sends_of actions, Conveys codecs checks (mine addr).command bytes) ∧
    ∀ packet ∈ Peer.emitted actions, (theirs addr).Admits packet

/-- A turn leaves a host upright. -/
theorem Upright.turn (h : Upright codecs H mine theirs checks m) {addr : SocketAddr} {before after : Option Peer}
    {actions : List Action} (ht : Turn m m' addr before after actions)
    (hd : Does codecs H mine theirs checks addr after actions) : Upright codecs H mine theirs checks m' where
  config := by rw [ht.config]; exact h.config
  address a s hs := by
    by_cases ha : a = addr
    · subst ha
      exact hd.address s (ht.after.symm.trans hs)
    · rw [ht.others a ha] at hs
      exact h.address a s hs
  sessions a s hH hs := by
    by_cases ha : a = addr
    · subst ha
      exact (hd.intact hH).1 s (ht.after.symm.trans hs)
    · rw [ht.others a ha] at hs
      exact h.sessions a s hH hs
  sends x hx hH := by
    rw [ht.sends] at hx
    rcases List.mem_append.1 hx with hx | hx
    · exact h.sends x hx hH
    · obtain ⟨bytes, hm, rfl⟩ := List.mem_map.1 hx
      exact (hd.intact hH).2.1 bytes hm
  events packet hm hH := by
    rw [ht.events] at hm
    rcases List.mem_append.1 hm with hm | hm
    · exact h.events packet hm hH
    · have ha : packet.addr = addr := hd.events _ hm
      rw [ha] at hH ⊢
      exact (hd.intact hH).2.2 packet (mem_emitted.2 hm)

/-- An operation on a session in order. -/
theorem does_serve (hc : codecs.Lossless) (hmine : ∀ addr, (mine addr).Sound) (htheirs : ∀ addr, (theirs addr).Sound)
    (op : LinkOp) {addr : SocketAddr} {p q : Peer} {actions : List Action} (haddr : p.remote_address = addr)
    (hp : H addr → Intact (mine addr) (theirs addr) checks ⟨p, [], []⟩)
    (hread : H addr → ∀ bytes, op.datagram = some bytes → Conveys codecs checks (theirs addr).command bytes)
    (hcuts : H addr → ∀ event, op = .session (.process_event event) → ∀ c, p.Cuts event c → (mine addr).command c)
    (h : p.serve codecs op = .ok (actions, q)) : Does codecs H mine theirs checks addr (some q) actions := by
  have hsame : Peer.Own p.remote_address actions q := by
    cases op with
    | disconnect =>
      cases h
      unfold Peer.disconnect
      refine ⟨?_, by simp [events_of]⟩
      split <;> rfl
    | session op =>
      cases op with
      | process_packet payload t draw => exact Peer.own_process_packet h
      | process_event event => exact Peer.own_process_event h
      | update time elapsed probe =>
        obtain rfl : (p.update codecs time elapsed probe).1 = actions := congrArg Prod.fst (Except.ok.inj h)
        obtain rfl : (p.update codecs time elapsed probe).2 = q := congrArg Prod.snd (Except.ok.inj h)
        exact Peer.own_update codecs p time elapsed probe
      | should_drop time =>
        cases h
        exact ⟨rfl, Peer.should_drop_addresses p time⟩
  refine ⟨fun s hs => ?_, haddr ▸ hsame.events, fun hH => ?_⟩
  · cases hs
    exact hsame.address.trans haddr
  · obtain ⟨hintact, hsends⟩ := (hp hH).step hc (hmine addr) (htheirs addr) (hread hH) (hcuts hH)
      ⟨actions, q, h, rfl, rfl⟩
    refine ⟨fun s hs => ?_, hsends, fun packet hm => ?_⟩
    · cases hs
      exact ⟨hintact.checks, hintact.queue, hintact.guards, fun packet hm => by cases hm⟩
    · exact hintact.delivered packet hm

/-! ## A poll -/

section Polls

variable (hc : codecs.Lossless) (hmine : ∀ addr, (mine addr).Sound) (htheirs : ∀ addr, (theirs addr).Sound)

/-- A new session is in order. -/
theorem Upright.newcomer (h : Upright codecs H mine theirs checks m) (addr : SocketAddr) (time : Instant) (ids : PeerDraw) :
    Intact (mine addr) (theirs addr) checks ⟨.new addr m.config time ids, [], []⟩ :=
  ⟨h.config, fun c hm => (by cases hm), Policy.guards_new _ _ _ _ _, fun packet hm => (by cases hm)⟩

include hc hmine htheirs

theorem Upright.receive {time : Instant} {n n' : Nat} {d : IncomingDatagram}
    (h : Upright codecs H mine theirs checks m)
    (hread : ∀ payload, m.passes intercept d = some payload → H d.address →
      Conveys codecs checks (theirs d.address).command payload)
    (hr : SessionManager.receive (Peer.session codecs) intercept time (n, m) d = .ok (n', m')) :
    Upright codecs H mine theirs checks m' := by
  have hconveys : ∀ payload, m.passes intercept d = some payload → H d.address →
      ∀ bytes, LinkOp.datagram (.session (.process_packet payload time d.draw)) = some bytes →
      Conveys codecs checks (theirs d.address).command bytes := by
    intro payload hp hH bytes hb
    cases hb
    exact hread payload hp hH
  have hnone : ∀ payload, H d.address → ∀ event : Packet,
      LinkOp.session (.process_packet payload time d.draw) = .session (.process_event event) →
      ∀ p : Peer, ∀ c, p.Cuts event c → (mine d.address).command c := by
    intro payload _ event he
    cases he
  rcases receive_turn hr with ⟨-, ht⟩ | ⟨payload, actions, hp, ⟨s, s', hs, ht⟩ | ⟨s', hs, ht⟩⟩
  · exact h.turn ht ⟨fun s hs => h.address _ s hs, by simp [events_of], fun hH =>
      ⟨fun s hs => h.sessions _ s hH hs, by simp [sends_of], by simp [Peer.emitted]⟩⟩
  · apply h.turn ht
    have hbefore := ht.before
    exact does_serve hc hmine htheirs (.session (.process_packet payload time d.draw)) (h.address _ s hbefore)
      (fun hH => h.sessions _ s hH hbefore) (hconveys payload hp) (fun hH event he => hnone payload hH event he s) hs
  · have hd := does_serve hc hmine htheirs (H := H) (.session (.process_packet payload time d.draw)) rfl
      (fun _ => h.newcomer d.address time d.ids) (hconveys payload hp) (fun hH event he => hnone payload hH event he _) hs
    apply h.turn ht
    refine ⟨fun s hs => ?_, hd.events, fun hH => ⟨fun s hs => ?_, (hd.intact hH).2⟩⟩
    · split at hs
      · exact hd.address s hs
      · cases hs
    · split at hs
      · exact (hd.intact hH).1 s hs
      · cases hs

theorem Upright.send_user_event {time : Instant} {n n' : Nat} {e : UserEvent}
    (h : Upright codecs H mine theirs checks m)
    (hcuts : ∀ p, m.session_for time e = some p → H e.event.addr → ∀ c, p.Cuts e.event c → (mine e.event.addr).command c)
    (hr : SessionManager.send_user_event (Peer.session codecs) time (n, m) e = .ok (n', m')) :
    Upright codecs H mine theirs checks m' := by
  have hevent : ∀ p, m.session_for time e = some p → H e.event.addr → ∀ event : Packet,
      LinkOp.session (.process_event e.event) = .session (.process_event event) →
      ∀ c, p.Cuts event c → (mine e.event.addr).command c := by
    intro p hp hH event he
    cases he
    exact hcuts p hp hH
  rcases send_user_event_cases hr with ⟨s, s', actions, hl, hs, -, rfl⟩ | ⟨-, -, -, rfl⟩ |
    ⟨s', actions, hl, ha, hs, -, rfl⟩
  · have hfor : m.session_for time e = some s := by rw [session_for, hl]
    exact h.turn (turn_insert hl s' actions) (does_serve hc hmine htheirs (.session (.process_event e.event))
      (h.address _ s hl) (fun hH => h.sessions _ s hH hl) (fun _ _ hb => by cases hb) (hevent s hfor) hs)
  · exact h
  · have hfor : m.session_for time e = some (.new e.event.addr m.config time e.ids) := by
      rw [session_for, hl]
      exact if_pos ha
    have ht := turn_admit hl s' actions
    exact h.turn ht (does_serve hc hmine htheirs (.session (.process_event e.event)) rfl
      (fun _ => h.newcomer e.event.addr time e.ids) (fun _ _ hb => by cases hb) (hevent _ hfor) hs)

theorem Upright.update_sessions (time : Instant) (draw : SocketAddr → Duration × ProbeDraw) (order : List SocketAddr)
    (h : Upright codecs H mine theirs checks m) :
    Upright codecs H mine theirs checks (order.foldl (update_session (Peer.session codecs) time draw) m) := by
  induction order generalizing m with
  | nil => exact h
  | cons addr order ih =>
    rw [List.foldl_cons]
    apply ih
    rcases update_session_turn (Peer.session codecs) m time draw addr with he | ⟨s, ht⟩
    · rw [he]
      exact h
    · have hbefore := ht.before
      exact h.turn ht (does_serve hc hmine htheirs (.session (.update time (draw addr).1 (draw addr).2))
        (h.address _ s hbefore) (fun hH => h.sessions _ s hH hbefore) (fun _ _ hb => by cases hb)
        (fun _ _ he => by cases he) rfl)

theorem Upright.check_sessions (time : Instant) (order to_drop : List SocketAddr)
    (h : Upright codecs H mine theirs checks m) :
    Upright codecs H mine theirs checks (order.foldl (check_session (Peer.session codecs) time) (m, to_drop)).1 := by
  induction order generalizing m to_drop with
  | nil => exact h
  | cons addr order ih =>
    rw [List.foldl_cons]
    have hnext : Upright codecs H mine theirs checks (check_session (Peer.session codecs) time (m, to_drop) addr).1 := by
      rcases check_session_turn (Peer.session codecs) m time to_drop addr with ⟨-, he⟩ | ⟨s, ht, -⟩
      · rw [he]
        exact h
      · have hbefore := ht.before
        exact h.turn ht (does_serve hc hmine htheirs (.session (.should_drop time)) (h.address _ s hbefore)
          (fun hH => h.sessions _ s hH hbefore) (fun _ _ hb => by cases hb) (fun _ _ he => by cases he) rfl)
    generalize check_session (Peer.session codecs) time (m, to_drop) addr = state at hnext ⊢
    exact ih state.2 hnext

omit hc hmine htheirs

/-- Dropping sessions leaves what is pending alone. -/
theorem remove_sessions_pending_sends {addrs : List SocketAddr} (h : addrs.foldlM remove_session m = .ok m') :
    m'.pending_sends = m.pending_sends := by
  refine foldlM_invariant (I := fun r => r.pending_sends = m.pending_sends) (fun r addr r' hr he => ?_) h rfl
  obtain ⟨count, rfl⟩ := decrement_duplicate_count_writes he
  exact hr

theorem Upright.removes {to_drop : List SocketAddr} (h : Upright codecs H mine theirs checks m)
    (hr : to_drop.foldlM remove_session m = .ok m') : Upright codecs H mine theirs checks m' := by
  have hremoves := remove_sessions_removes hr
  have hkept : ∀ addr s, m'.sessions.lookup addr = some s → m.sessions.lookup addr = some s := by
    intro addr s hs
    by_cases hm : addr ∈ to_drop
    · rw [hremoves.gone addr hm] at hs
      cases hs
    · rw [← hremoves.others addr hm]
      exact hs
  refine ⟨hremoves.config ▸ h.config, fun addr s hs => h.address addr s (hkept addr s hs),
    fun addr s hH hs => h.sessions addr s hH (hkept addr s hs), fun x hx => ?_, fun packet hm => ?_⟩
  · rw [remove_sessions_pending_sends hr] at hx
    exact h.sends x hx
  · rw [hremoves.events] at hm
    exact h.events packet hm

/-- What goes out was pending, and the interceptor made this of it. -/
theorem flush_sent (m : SessionManager Peer I) :
    ∀ x ∈ (m.flush intercept).1.sent, ∃ i data, (x.1, data) ∈ m.pending_sends ∧
      (intercept.on_send i x.1 data).1 = (true, x.2) := by
  refine List.foldlRecOn m.pending_sends _ (motive := fun acc : List (SocketAddr × Bytes) × I =>
    ∀ x ∈ acc.1, ∃ i data, (x.1, data) ∈ m.pending_sends ∧ (intercept.on_send i x.1 data).1 = (true, x.2))
    (fun x hx => by cases hx) ?_
  intro acc hacc send hsend
  split
  · exact hacc
  · rename_i payload i he
    intro x hx
    rcases List.mem_append.1 hx with hx | hx
    · exact hacc x hx
    · rw [List.mem_singleton.1 hx]
      exact ⟨acc.2, send.2, hsend, by rw [he]⟩

include hc hmine htheirs

/-- A poll that reads and is handed what it may leaves the host upright, and
what comes of it is what may come. -/
theorem Upright.manual_poll {poll : Poll} {flushed : Flushed} (h : Upright codecs H mine theirs checks m)
    (hread : ∀ d ∈ poll.datagrams, ∀ (r : SessionManager Peer I) payload, passes intercept r d = some payload → H d.address →
      Conveys codecs checks (theirs d.address).command payload)
    (hcuts : ∀ addr, H addr → ∀ x ∈ m.hands_over codecs intercept poll addr, ∀ c, x.1.Cuts x.2 c → (mine addr).command c)
    (hp : SessionManager.manual_poll (Peer.session codecs) intercept m poll = .ok (flushed, m')) :
    Upright codecs H mine theirs checks m' ∧
      (∀ x ∈ flushed.sent, H x.1 → ∃ i data, Conveys codecs checks (mine x.1).command data ∧
        (intercept.on_send i x.1 data).1 = (true, x.2)) ∧
      ∀ packet, .Packet packet ∈ flushed.events → H packet.addr → (theirs packet.addr).Admits packet := by
  unfold SessionManager.manual_poll at hp
  obtain ⟨s₁, h₁, hp⟩ := bind_eq_ok hp
  obtain ⟨s₂, h₂, hp⟩ := bind_eq_ok hp
  obtain ⟨r, h₃, hp⟩ := bind_eq_ok hp
  have hreceived : Upright codecs H mine theirs checks s₁.2 := by
    refine foldlM_invariant_on (I := fun s => Upright codecs H mine theirs checks s.2) (fun x hx t hs ht => ?_) h₁ h
    have hm : x.2 ∈ poll.datagrams := mem_of_mem_loop_rounds hx
    exact hs.receive hc hmine htheirs (fun payload hpass hH => hread x.2 hm x.1.2 payload hpass hH) ht
  have hsent : Upright codecs H mine theirs checks s₂.2 := by
    refine foldlM_invariant_on (I := fun s => Upright codecs H mine theirs checks s.2) (fun x hx t hs ht => ?_) h₂ hreceived
    refine hs.send_user_event hc hmine htheirs (fun p hfor hH c hcut => ?_) ht
    refine hcuts _ hH (p, x.2.event) ⟨x, ?_, rfl, rfl, hfor⟩ c hcut
    unfold event_rounds
    rw [h₁]
    exact hx
  have hupdated := hsent.update_sessions hc hmine htheirs poll.time poll.update_draw
    (poll.update_order.arrange s₂.2.sessions.keys)
  have hupright : Upright codecs H mine theirs checks r :=
    (hupdated.check_sessions hc hmine htheirs poll.time _ []).removes h₃
  obtain ⟨rfl, rfl⟩ : flushed = (r.flush intercept).1 ∧ m' = (r.flush intercept).2 := by
    have he := Except.ok.inj hp
    exact ⟨(congrArg Prod.fst he).symm, (congrArg Prod.snd he).symm⟩
  refine ⟨⟨hupright.config, hupright.address, hupright.sessions, fun x hx => ?_, fun packet hm => ?_⟩,
    fun x hx hH => ?_, hupright.events⟩
  · cases hx
  · cases hm
  · obtain ⟨i, data, hpending, hout⟩ := flush_sent r x hx
    exact ⟨i, data, hupright.sends _ hpending hH, hout⟩

/-- `Host::disconnect`. -/
theorem Upright.disconnect (h : Upright codecs H mine theirs checks m) (addr : SocketAddr) :
    Upright codecs H mine theirs checks (m.disconnect addr) := by
  cases hl : m.sessions.lookup addr with
  | none =>
    rw [SessionManager.disconnect, hl]
    exact h
  | some s =>
    have ht := turn_insert (m := m) hl s.disconnect []
    rw [show SessionManager.disconnect m addr = ({ m with
      sessions := m.sessions.insert addr s.disconnect } : SessionManager Peer I).handle_actions addr [] by
        rw [SessionManager.disconnect, hl]; rfl]
    exact h.turn ht (does_serve hc hmine htheirs .disconnect (h.address _ s hl) (fun hH => h.sessions _ s hH hl)
      (fun _ _ hb => by cases hb) (fun _ _ he => by cases he) rfl)

end Polls

end SessionManager

/-! ## Many hosts -/

/-- What one interceptor makes of a datagram, another one takes back, if it
lets the datagram through. -/
structure Interceptor.Mirrored {I : Type} (intercept : Interceptor I) : Prop where
  undoes : ∀ {i addr data bytes}, (intercept.on_send i addr data).1 = (true, bytes) →
    ∀ {i' addr' data'}, (intercept.on_receive i' addr' bytes).1 = (true, data') → data' = data

theorem Interceptor.no_op_mirrored : Interceptor.no_op.Mirrored where
  undoes h _ _ _ h' := by
    cases h
    cases h'
    rfl

/-- A host, and the events its user got so far. -/
structure Host (I : Type) where
  manager : SessionManager Peer I
  events : List SocketEvent

/-- A node that is a host. -/
def host {I : Type} (codecs : Codecs) (intercept : Interceptor I) : Node SocketAddr (Host I) HostOp Bytes where
  reads
    | .Poll poll => poll.datagrams.map fun d => (d.address, d.payload)
    | .Disconnect _ => []
  step s op out t := ∃ flushed m', s.manager.act codecs intercept op = .ok (flushed, m') ∧ out = flushed.sent ∧
    t = ⟨m', s.events ++ flushed.events⟩

/-- Everything that may happen on a network with hosts at the honest
addresses. -/
abbrev HostsRun {I : Type} (codecs : Codecs) (intercept : Interceptor I) (honest : SocketAddr → Prop) :=
  Run (Mesh.Step (host codecs intercept) honest)

namespace Hosts

variable {I : Type} {codecs : Codecs} {intercept : Interceptor I} {honest : SocketAddr → Prop}
  {configs : SocketAddr → Config} {interceptors : SocketAddr → I} {m : Mesh SocketAddr (Host I) Bytes}
  {steps : List (Mesh SocketAddr (Host I) Bytes × (SocketAddr × HostOp))} {checks : Bool} {a b : SocketAddr}

/-- New hosts, and nothing sent. -/
def new (configs : SocketAddr → Config) (interceptors : SocketAddr → I) : Mesh SocketAddr (Host I) Bytes :=
  .start fun addr => ⟨.new (configs addr) (interceptors addr), []⟩

/-- The packets that the user at one address has sent to another one, with the
sessions they were handed to. -/
def handed_over (codecs : Codecs) (intercept : Interceptor I)
    (steps : List (Mesh SocketAddr (Host I) Bytes × (SocketAddr × HostOp))) (a b : SocketAddr) : Set (Peer × Packet) :=
  {x | ∃ m poll, (m, (a, .Poll poll)) ∈ steps ∧ x ∈ (m.state a).manager.hands_over codecs intercept poll b}

/-- A host in order, towards the other hosts. -/
structure Steady (codecs : Codecs) (honest : SocketAddr → Prop) (P : SocketAddr → SocketAddr → Policy) (checks : Bool)
    (a : SocketAddr) (s : Host I) : Prop where
  manager : s.manager.Upright codecs honest (P a) (fun b => P b a) checks
  events : ∀ packet, .Packet packet ∈ s.events → honest packet.addr → (P packet.addr a).Admits packet

/-- The bytes are what the interceptor made of a datagram with such commands. -/
def Wrapped (codecs : Codecs) (intercept : Interceptor I) (checks : Bool) (K : ProtocolCommand → Prop)
    (addr : SocketAddr) (bytes : Bytes) : Prop :=
  ∃ i data, Conveys codecs checks K data ∧ (intercept.on_send i addr data).1 = (true, bytes)

theorem Steady.step (hc : codecs.Lossless) (hmirrored : intercept.Mirrored) {P : SocketAddr → SocketAddr → Policy}
    (hP : ∀ a b, (P a b).Sound) {s t : Host I} {op : HostOp} {out : List (SocketAddr × Bytes)}
    (h : Steady codecs honest P checks a s)
    (hreads : ∀ y ∈ (host codecs intercept).reads op, honest y.1 → Wrapped codecs intercept checks (P y.1 a).command a y.2)
    (hcuts : ∀ poll, op = .Poll poll → ∀ b, honest b → ∀ x ∈ s.manager.hands_over codecs intercept poll b,
      ∀ c, x.1.Cuts x.2 c → (P a b).command c)
    (hs : (host codecs intercept).step s op out t) :
    Steady codecs honest P checks a t ∧
      ∀ y ∈ out, honest y.1 → Wrapped codecs intercept checks (P a y.1).command y.1 y.2 := by
  obtain ⟨flushed, m', hact, rfl, rfl⟩ := hs
  cases op with
  | Disconnect addr =>
    cases hact
    refine ⟨⟨h.manager.disconnect hc (hP a) (fun b => hP b a) addr, ?_⟩, fun y hy => by cases hy⟩
    intro packet hm
    rw [List.append_nil] at hm
    exact h.events packet hm
  | Poll poll =>
    have hread : ∀ d ∈ poll.datagrams, ∀ (r : SessionManager Peer I) payload, SessionManager.passes intercept r d =
        some payload → honest d.address → Conveys codecs checks (P d.address a).command payload := by
      intro d hd r payload hpass hhonest
      obtain ⟨i, data, hconveys, hout⟩ := hreads (d.address, d.payload) (List.mem_map.2 ⟨d, hd, rfl⟩) hhonest
      unfold SessionManager.passes at hpass
      match he : intercept.on_receive r.interceptor d.address d.payload with
      | ((false, _), _) =>
        rw [he] at hpass
        cases hpass
      | ((true, payload'), _) =>
        rw [he] at hpass
        cases hpass
        rw [hmirrored.undoes hout (congrArg Prod.fst he)]
        exact hconveys
    obtain ⟨hupright, hsent, hevents⟩ := h.manager.manual_poll hc (hP a) (fun b => hP b a) hread (hcuts poll rfl) hact
    refine ⟨⟨hupright, fun packet hm hhonest => ?_⟩, fun y hy hhonest => ?_⟩
    · rcases List.mem_append.1 hm with hm | hm
      · exact h.events packet hm hhonest
      · exact hevents packet hm hhonest
    · obtain ⟨i, data, hconveys, hout⟩ := hsent y hy hhonest
      exact ⟨i, data, hconveys, hout⟩

/-- No message among them needs fragments. -/
def Short (sent : Set (Peer × Packet)) : Prop :=
  ∀ x ∈ sent, ∀ mode, Peer.packet_mode x.2 = some mode → x.2.payload.length ≤ x.1.payload_budget mode.header

theorem Short.not_fragmented {sent : Set (Peer × Packet)} {g : Group} (h : Short sent) : ¬ Fragmented sent g := by
  rintro ⟨x, hx, hmode, hg⟩
  have hfits := h x hx _ hmode
  have hlong : x.1.payload_budget g.mode.header < x.2.payload.length :=
    hg.elim (fun h => h.1.long) fun h => h.1.long
  omega

/-- Whatever the network and the addresses without a host do, every packet that
the user at one host gets from another host was sent to it by the user there.
If no message needed fragments, it is one of the packets that were sent, or a
chunk of an unsequenced one. -/
theorem delivered_from_hosts (hc : codecs.Lossless) (hmirrored : intercept.Mirrored)
    (hchecks : ∀ a, honest a → (configs a).use_checksums = checks)
    (h : HostsRun codecs intercept honest (new configs interceptors) steps m) (ha : honest a) (hb : honest b)
    {packet : Packet} (hm : .Packet packet ∈ (m.state a).events) (hfrom : packet.addr = b) :
    Comes (handed_over codecs intercept steps b a) packet.delivery packet.ordering packet.channel_id packet.payload ∧
    (Short (handed_over codecs intercept steps b a) → packet.ordering ≠ .Unsequenced →
      ∃ x ∈ handed_over codecs intercept steps b a, packet.delivery = x.2.delivery ∧
        packet.channel_id = x.2.channel_id ∧ packet.payload = x.2.payload) := by
  have hcomes : Comes (handed_over codecs intercept steps b a) packet.delivery packet.ordering packet.channel_id
      packet.payload := by
    subst hfrom
    have hsteady := (Mesh.guarantees (Steady codecs honest (fun a b => cut_policy (handed_over codecs intercept steps a b))
      checks) (fun a b bytes => honest b → Wrapped codecs intercept checks
        (cut_policy (handed_over codecs intercept steps a b)).command b bytes) ?_ ?_ h a ha).1
    · exact hsteady.events packet hm hb
    · intro a ha
      exact ⟨SessionManager.upright_new _ _ (hchecks a ha), fun packet hm => by cases hm⟩
    · intro m a op out t hm ha hgood hreads hstep
      refine hgood.step hc hmirrored (fun a b => cut_policy_sound _) (fun y hy hh => hreads y hy hh ha) ?_ hstep
      rintro poll rfl b - x hx c hcut _
      exact ⟨x, ⟨m, poll, hm, hx⟩, hcut⟩
  refine ⟨hcomes, fun hshort hordering => ?_⟩
  cases hcomes with
  | whole x mode hx hmode hd ho hch hdata =>
    exact ⟨x, hx, hd.trans (Peer.packet_mode_some hmode).1, hch, hdata⟩
  | woven g hg hd ho hdata => exact absurd hg hshort.not_fragmented
  | chunk x k hx hmode hd ho hch hdata => exact absurd ho hordering

/-- The mesh after an operation of a host, if that does not panic. -/
def act (codecs : Codecs) (intercept : Interceptor I) (m : Mesh SocketAddr (Host I) Bytes) (a : SocketAddr)
    (op : HostOp) : Mesh SocketAddr (Host I) Bytes :=
  match (m.state a).manager.act codecs intercept op with
  | .ok (flushed, m') =>
    ⟨Function.update m.state a ⟨m', (m.state a).events ++ flushed.events⟩,
      Function.update m.sent a (m.sent a ++ flushed.sent)⟩
  | .error _ => m

/-- The operation does not panic, and what it reads from hosts was sent. -/
def can_act (codecs : Codecs) (intercept : Interceptor I) (hosts : List SocketAddr) (m : Mesh SocketAddr (Host I) Bytes)
    (a : SocketAddr) (op : HostOp) : Bool :=
  hosts.contains a && ((m.state a).manager.act codecs intercept op).isOk &&
    ((host codecs intercept).reads op).all fun y => !hosts.contains y.1 || (m.sent y.1).contains (a, y.2)

theorem act_step {hosts : List SocketAddr} {op : HostOp} (h : can_act codecs intercept hosts m a op = true) :
    Mesh.Step (host codecs intercept) (· ∈ hosts) m (a, op) (act codecs intercept m a op) := by
  rw [can_act, Bool.and_eq_true, Bool.and_eq_true, List.contains_iff_mem, List.all_eq_true] at h
  obtain ⟨⟨ha, hok⟩, hreads⟩ := h
  cases hact : (m.state a).manager.act codecs intercept op with
  | error e =>
    rw [hact] at hok
    cases hok
  | ok x =>
    refine ⟨ha, _, _, ⟨x.1, x.2, hact, rfl, rfl⟩, fun y hy hh => ?_, ?_⟩
    · simpa [hh] using hreads y hy
    · rw [act, hact]

/-- Two hosts, and an address without one. -/
def here : SocketAddr := ⟨.V4 1, 0⟩
def there : SocketAddr := ⟨.V4 2, 0⟩
def elsewhere : SocketAddr := ⟨.V4 3, 0⟩

/-- A poll at time 0. -/
def poll_with (datagrams : List IncomingDatagram) (user_events : List UserEvent) : Poll :=
  { SessionManager.poll_of ⟨elsewhere, [], ⟨0, 0, 0⟩, 0⟩ with datagrams, user_events }

def greeted : Packet := ⟨there, [7], .Unreliable, .None, 0⟩

def two_hosts : Mesh SocketAddr (Host Unit) Bytes := new (fun _ => .default) fun _ => ()

/-- One host has sent a packet to the other. -/
def one_sent : Mesh SocketAddr (Host Unit) Bytes :=
  act .checked .no_op two_hosts here (.Poll (poll_with [] [⟨greeted, ⟨1, 2, 3⟩⟩]))

/-- The other host gets that, and something from elsewhere. -/
def hearing : Poll :=
  poll_with (⟨elsewhere, [0, 1, 2], ⟨4, 5, 6⟩, 7⟩ ::
    (one_sent.sent here).map fun y => ⟨here, y.2, ⟨4, 5, 6⟩, 7⟩) []

theorem event_rounds_one (m : SessionManager Peer I) {poll : Poll} {e : UserEvent} (hd : poll.datagrams = [])
    (hu : poll.user_events = [e]) : m.event_rounds codecs intercept poll =
      [((m.unestablished_session_count (Peer.session codecs), m), e)] := by
  rw [SessionManager.event_rounds, hd, hu]
  simp only [List.foldlM_nil, pure, Except.pure, loop_rounds]
  split <;> rfl

/-- The only packet is short. -/
theorem short_greeted {x : Peer × Packet} (hx : x ∈ (two_hosts.state here).manager.hands_over .checked .no_op
    (poll_with [] [⟨greeted, ⟨1, 2, 3⟩⟩]) there) (mode : Mode) :
    x.2.payload.length ≤ x.1.payload_budget mode.header := by
  obtain ⟨r, hr, he, -, hfor⟩ := hx
  rw [event_rounds_one _ rfl rfl, List.mem_singleton] at hr
  subst hr
  have hpeer : some (Peer.new there .default 0 ⟨1, 2, 3⟩) = some x.1 := hfor
  rw [he, ← Option.some.inj hpeer]
  cases mode with
  | Reliable ordered => cases ordered <;> decide +kernel
  | Unreliable => decide +kernel

theorem delivered_from_hosts_greeted : ∃ steps m,
    HostsRun .checked .no_op (· ∈ [here, there]) two_hosts steps m ∧
    .Packet ⟨here, [7], .Unreliable, .None, 0⟩ ∈ (m.state there).events ∧
    ∃ x ∈ handed_over .checked .no_op steps here there, x.2.channel_id = 0 ∧ x.2.payload = [7] := by
  have hfirst : Mesh.Step (host .checked .no_op) (· ∈ [here, there]) two_hosts _ one_sent := act_step (by decide +kernel)
  have hsecond : Mesh.Step (host .checked .no_op) (· ∈ [here, there]) one_sent _
      (act .checked .no_op one_sent there (.Poll hearing)) := act_step (by decide +kernel)
  have hrun := (Run.start.next hfirst).next hsecond
  have hm : .Packet ⟨here, [7], .Unreliable, .None, 0⟩ ∈
      ((act .checked .no_op one_sent there (.Poll hearing)).state there).events := by decide +kernel
  refine ⟨_, _, hrun, hm, ?_⟩
  have hexact := (delivered_from_hosts Codecs.checked_lossless Interceptor.no_op_mirrored (fun _ _ => rfl) hrun
    (by decide) (by decide) hm rfl).2 ?_ (by decide)
  · obtain ⟨x, hx, -, hch, hpayload⟩ := hexact
    exact ⟨x, hx, hch.symm, hpayload.symm⟩
  · rintro x ⟨m, poll, hstep, hx⟩ mode -
    rcases List.mem_append.1 hstep with hstep | hstep
    · cases List.mem_singleton.1 hstep
      exact short_greeted hx mode
    · cases List.mem_singleton.1 hstep

end Hosts

end Bitfold
