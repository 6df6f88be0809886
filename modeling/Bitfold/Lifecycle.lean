import Bitfold.Admission
/-!
# The events of an address

`Connect` and `Disconnect` should take turns, with the packets in between. The
two are emitted from four places that look at the connection state, and the
state does not tell whether the session was ever announced. `Agrees` says when
it does; the steps that lose the agreement are the ones to avoid.
-/

namespace Bitfold

open Lib

/-- `SocketEvent::address`. -/
def SocketEvent.address : SocketEvent → SocketAddr
  | .Packet packet => packet.addr
  | .Connect addr => addr
  | .Timeout addr => addr
  | .Disconnect addr => addr

/-! ## Sequences of events -/

/-- The events of one address. -/
def events_at (addr : SocketAddr) (events : List SocketEvent) : List SocketEvent :=
  events.filter fun e => e.address = addr

@[simp] theorem events_at_append (addr : SocketAddr) (xs ys : List SocketEvent) :
    events_at addr (xs ++ ys) = events_at addr xs ++ events_at addr ys := List.filter_append ..

theorem events_at_self {addr : SocketAddr} {events : List SocketEvent} (h : ∀ e ∈ events, e.address = addr) :
    events_at addr events = events := List.filter_eq_self.2 (by simpa using h)

theorem events_at_other {addr a : SocketAddr} {events : List SocketEvent} (h : ∀ e ∈ events, e.address = a)
    (hne : addr ≠ a) : events_at addr events = [] := by
  apply List.filter_eq_nil_iff.2
  intro e he
  rw [h e he]
  simpa using hne.symm

/-- Is the connection open after an event? -/
def opened_after (o : Bool) : SocketEvent → Bool
  | .Connect _ => true
  | .Disconnect _ => false
  | _ => o

/-- Is the last `Connect` or `Disconnect` a `Connect`? -/
def opened (events : List SocketEvent) : Bool := events.foldl opened_after false

theorem opened_append (xs ys : List SocketEvent) : opened (xs ++ ys) = ys.foldl opened_after (opened xs) :=
  List.foldl_append ..

/-- The events of one address in order: each `Connect` comes when the
connection is not open, each `Disconnect` and each packet when it is. -/
structure Lifecycle (events : List SocketEvent) : Prop where
  connect : ∀ before addr after, events = before ++ .Connect addr :: after → opened before = false
  disconnect : ∀ before addr after, events = before ++ .Disconnect addr :: after → opened before = true
  packet : ∀ before packet after, events = before ++ .Packet packet :: after → opened before = true

/-- May the event come next? -/
def MayFollow (o : Bool) : SocketEvent → Prop
  | .Connect _ => o = false
  | .Disconnect _ | .Packet _ => o = true
  | .Timeout _ => True

theorem Lifecycle.nil : Lifecycle [] := by
  constructor <;> simp

theorem Lifecycle.fits {events before after : List SocketEvent} {e : SocketEvent} (h : Lifecycle events)
    (he : events = before ++ e :: after) : MayFollow (opened before) e := by
  cases e with
  | Packet packet => exact h.packet before packet after he
  | Connect addr => exact h.connect before addr after he
  | Disconnect addr => exact h.disconnect before addr after he
  | Timeout addr => trivial

theorem lifecycle_of_fits {events : List SocketEvent}
    (h : ∀ before e after, events = before ++ e :: after → MayFollow (opened before) e) : Lifecycle events :=
  ⟨fun before addr after he => h before (.Connect addr) after he,
    fun before addr after he => h before (.Disconnect addr) after he,
    fun before packet after he => h before (.Packet packet) after he⟩

theorem Lifecycle.snoc {events : List SocketEvent} {e : SocketEvent} (h : Lifecycle events)
    (he : MayFollow (opened events) e) : Lifecycle (events ++ [e]) := by
  apply lifecycle_of_fits
  intro before e' after hs
  rcases List.eq_nil_or_concat after with rfl | ⟨after', last, rfl⟩
  · obtain ⟨rfl, hlast⟩ := List.append_inj' hs rfl
    cases hlast
    exact he
  · rw [List.concat_eq_append, ← List.cons_append, ← List.append_assoc] at hs
    obtain ⟨rfl, -⟩ := List.append_inj' hs rfl
    exact h.fits rfl

/-- Packets may come while the connection is open, and leave it so. -/
theorem Lifecycle.packets {events : List SocketEvent} (h : Lifecycle events) (ho : opened events = true)
    (packets : List Packet) :
    Lifecycle (events ++ packets.map .Packet) ∧ opened (events ++ packets.map .Packet) = true := by
  induction packets generalizing events with
  | nil => simpa using ⟨h, ho⟩
  | cons packet packets ih =>
    have hone : opened (events ++ [.Packet packet]) = true := by
      rw [opened_append]
      exact ho
    have hrest := ih (h.snoc (show MayFollow (opened events) (.Packet packet) from ho)) hone
    simpa using hrest

/-! ## What a session emits -/

namespace Peer

variable {p q : Peer} {codecs : Codecs} {t : Instant} {draw : UInt16} {actions : List Action} {events : List SocketEvent}

/-- The packets are from `addr`. -/
def From (addr : SocketAddr) (packets : IncomingPackets) : Prop := ∀ x ∈ packets, x.1.addr = addr

@[simp] theorem enqueue_ack_command_address (p : Peer) (time : Option UInt32) :
    (p.enqueue_ack_command time).remote_address = p.remote_address := (sameSession_enqueue_command p _).address

theorem process_send_reliable_from (p : Peer) (ch : UInt8) (s : UInt16) (o : Bool) (d : SharedBytes) (t : Instant) :
    From p.remote_address (p.process_send_reliable ch s o d t).2 := by
  unfold process_send_reliable
  cases o with
  | true => simp [From, IncomingPackets.many, packet, deliver_ordered, process_acknowledge]
  | false => simp [From, IncomingPackets.one, packet, process_acknowledge]

theorem process_send_unreliable_sequenced_from (p : Peer) (ch : UInt8) (s : UInt16) (d : SharedBytes) :
    From p.remote_address (p.process_send_unreliable_sequenced ch s d).2 := by
  simp only [process_send_unreliable_sequenced]
  split <;> simp [From, IncomingPackets.one, IncomingPackets.zero, packet]

theorem process_send_unsequenced_from (p : Peer) (ch : UInt8) (g : UInt16) (d : SharedBytes) :
    From p.remote_address (p.process_send_unsequenced ch g d).2 := by
  unfold process_send_unsequenced
  split <;> simp [From, IncomingPackets.one, IncomingPackets.zero, packet, mark_unsequenced_received]

theorem add_fragment_address (p : Peer) (ch : UInt8) (s : UInt16) (o : Bool) (i n : UInt8) (d : SharedBytes)
    (t : Instant) : (p.add_fragment ch s o i n d t).2.remote_address = p.remote_address := by
  unfold add_fragment
  dsimp only
  split <;> rfl

theorem process_send_fragment_from (p : Peer) (ch : UInt8) (s : UInt16) (o : Bool) (i n : UInt8) (d : SharedBytes)
    (t : Instant) : From p.remote_address (p.process_send_fragment ch s o i n d t).2 := by
  have haddr : ((p.process_acknowledge s 0 t).add_fragment ch s o i n d t).2.remote_address = p.remote_address :=
    add_fragment_address ..
  unfold process_send_fragment
  dsimp only
  split
  · simp [From, IncomingPackets.zero]
  · rename_i he
    rw [he] at haddr
    split
    · simp [From, IncomingPackets.zero]
    · split
      · simpa [From, IncomingPackets.many, packet, deliver_ordered] using fun _ _ => haddr
      · simpa [From, IncomingPackets.one, packet] using haddr

theorem process_send_unreliable_fragment_from (p : Peer) (ch : UInt8) (s : UInt16) (i n : UInt8) (d : SharedBytes)
    (t : Instant) : From p.remote_address (p.process_send_unreliable_fragment ch s i n d t).2 := by
  have haddr := add_fragment_address p ch s false i n d t
  unfold process_send_unreliable_fragment
  split
  · simp [From, IncomingPackets.zero]
  · rename_i he
    rw [he] at haddr
    split
    · simp [From, IncomingPackets.zero]
    · simpa [From, IncomingPackets.one, packet] using haddr

theorem process_command_from {c : ProtocolCommand} {packets : IncomingPackets}
    (h : p.process_command c t draw = .ok (q, .ok packets)) : From p.remote_address packets := by
  cases c with
  | SendReliable ch s o d =>
    cases h
    exact process_send_reliable_from (p.heard t) ch s o d t
  | SendUnreliable ch d =>
    cases h
    simp [From, IncomingPackets.one, packet, heard]
  | SendUnreliableSequenced ch s d =>
    cases h
    exact process_send_unreliable_sequenced_from (p.heard t) ch s d
  | SendUnsequenced ch g d =>
    cases h
    exact process_send_unsequenced_from (p.heard t) ch g d
  | SendFragment ch s o i n d =>
    cases h
    exact process_send_fragment_from (p.heard t) ch s o i n d t
  | SendUnreliableFragment ch s i n d =>
    cases h
    exact process_send_unreliable_fragment_from (p.heard t) ch s i n d t
  | VerifyConnect pid chs m isid osid w =>
    have hnone : packets = [] := by
      by_cases hs : (p.heard t).state = .Connecting
      · rw [process_command, process_verify_connect_eq hs] at h
        obtain ⟨f, -, h⟩ := map_eq_ok h
        split at h
        · cases h
          rfl
        · cases h
      · rw [process_command, process_verify_connect, if_neg hs] at h
        cases h
        rfl
    simp [From, hnone]
  | _ =>
    cases h
    simp [From, IncomingPackets.zero]

theorem process_commands_from {cmds : List ProtocolCommand} {acc packets : IncomingPackets}
    (hacc : From p.remote_address acc) (h : process_commands t draw cmds p acc = .ok (q, .ok packets)) :
    From p.remote_address packets := by
  induction cmds generalizing p acc with
  | nil =>
    cases h
    exact hacc
  | cons c cmds ih =>
    obtain ⟨r, packets', hc, h⟩ := process_commands_cons h
    have haddr := (process_command_moves hc).address
    rw [← haddr]
    refine ih (fun x hx => ?_) h
    rw [haddr]
    rcases List.mem_append.1 hx with hx | hx
    · exact hacc x hx
    · exact process_command_from hc x hx

/-- The state tells whether the session was announced. Once a disconnect is
under way it does not. -/
def Agrees (o : Bool) : PeerState → Prop
  | .Idle | .Connecting | .AcknowledgingConnect => o = false
  | .ConnectionSucceeded | .Connected | .Zombie => o = true
  | .Disconnecting => True

theorem agrees_after_recv {s : PeerState} (h : Agrees true s) (handshake : Bool) :
    s.announces handshake = false ∧ s.after_recv handshake = s := by
  cases s with
  | Idle | Connecting | AcknowledgingConnect => cases h
  | _ => exact ⟨rfl, rfl⟩

theorem not_agrees_after_recv {s : PeerState} (h : Agrees false s) (handshake : Bool) :
    (s.announces handshake = true ∧ s.after_recv handshake = .Connected) ∨
      (s.announces handshake = false ∧ Agrees false (s.after_recv handshake)) := by
  cases s with
  | ConnectionSucceeded | Connected | Zombie => cases h
  | AcknowledgingConnect => exact .inl ⟨rfl, rfl⟩
  | Disconnecting => exact .inr ⟨rfl, trivial⟩
  | Idle | Connecting =>
    cases handshake with
    | true => exact .inr ⟨rfl, rfl⟩
    | false => exact .inl ⟨rfl, rfl⟩

/-- An announced session stays announced, whatever comes. -/
theorem agrees_after_commands {s : PeerState} (h : Agrees true s) (cmds : List ProtocolCommand) :
    Agrees true (s.after_commands cmds) := by
  cases hd : cmds.any is_disconnect with
  | true =>
    rw [PeerState.after_commands_disconnect hd]
    rfl
  | false =>
    cases s with
    | Idle | Connecting | AcknowledgingConnect => cases h
    | _ =>
      rw [PeerState.after_commands_settled (by decide) (by decide) hd]
      exact h

/-- A client that gets no answer keeps waiting. -/
theorem after_commands_connecting {cmds : List ProtocolCommand} (hd : cmds.any is_disconnect = false)
    (hv : cmds.any is_verify_connect = false) : PeerState.Connecting.after_commands cmds = .Connecting := by
  induction cmds with
  | nil => rfl
  | cons c cmds ih =>
    rw [List.any_cons, Bool.or_eq_false_iff] at hd hv
    cases c with
    | Disconnect n => cases hd.1
    | VerifyConnect pid chs m isid osid w => cases hv.1
    | _ => exact ih hd.2 hv.2

theorem not_agrees_after_commands {s : PeerState} (h : Agrees false s) {cmds : List ProtocolCommand}
    (hd : cmds.any is_disconnect = false) (hv : s = .Connecting → cmds.any is_verify_connect = false) :
    Agrees false (s.after_commands cmds) := by
  cases s with
  | ConnectionSucceeded | Connected | Zombie => cases h
  | Idle =>
    rw [PeerState.after_commands_idle hd]
    split <;> rfl
  | Connecting =>
    rw [after_commands_connecting hd (hv rfl)]
    rfl
  | _ =>
    rw [PeerState.after_commands_settled (by decide) (by decide) hd]
    exact h

/-- A datagram an unannounced session can take: no `Disconnect` in it, no
answer to a client's `Connect`, and packets only if it establishes the session
by being received. -/
def Orderly (codecs : Codecs) (o : Bool) (p : Peer) (payload : Bytes) (t : Instant) (draw : UInt16) : Prop :=
  ∀ packet q packets, Taken codecs p payload t packet →
    process_commands t draw packet.commands (p.taking t payload.length) [] = .ok (q, .ok packets) → o = false →
    packet.commands.any is_disconnect = false ∧
    (p.state = .Connecting → packet.commands.any is_verify_connect = false) ∧
    ((p.state.after_commands packet.commands).announces p.config.use_connection_handshake = true ∨ packets = [])

/-- The session of an address and the events of the address agree. -/
structure GoodAt (addr : SocketAddr) (s : Option Peer) (events : List SocketEvent) : Prop where
  lifecycle : Lifecycle events
  absent : s = none → opened events = false
  present : ∀ p, s = some p → p.remote_address = addr ∧ Agrees (opened events) p.state

variable {addr : SocketAddr} {payload : Bytes}

theorem goodAt_some (hl : Lifecycle events) (ha : p.remote_address = addr) (hs : Agrees (opened events) p.state) :
    GoodAt addr (some p) events := by
  refine ⟨hl, (fun hn => by cases hn), fun q hq => ?_⟩
  cases hq
  exact ⟨ha, hs⟩

/-- A step without events that leaves the state alone. -/
theorem GoodAt.quiet (h : GoodAt addr (some p) events) (hm : Moves p q p.state) (he : events_of actions = []) :
    GoodAt addr (some q) (events ++ events_of actions) := by
  obtain ⟨haddr, hagrees⟩ := h.present p rfl
  rw [he, List.append_nil]
  exact goodAt_some h.lifecycle (hm.address.trans haddr) (by rw [hm.state]; exact hagrees)

theorem events_of_append (xs ys : List Action) : events_of (xs ++ ys) = events_of xs ++ events_of ys :=
  List.filterMap_append

theorem events_of_packet_events (packets : IncomingPackets) :
    events_of (packet_events packets) = (packets.map Prod.fst).map .Packet := by
  simp [events_of, packet_events, List.filterMap_map, Function.comp_def]

theorem events_of_connect_event (b : Bool) (addr : SocketAddr) :
    events_of (connect_event b addr) = if b then [.Connect addr] else [] := by
  cases b <;> rfl

/-- What a session emits when it gets a datagram is about its own address. -/
theorem process_packet_addresses (h : p.process_packet codecs payload t draw = .ok (actions, q)) :
    ∀ e ∈ events_of actions, e.address = p.remote_address := by
  rcases process_packet_cases h with ⟨rfl, -, -⟩ | ⟨packet, r, packets, -, hr, rfl, -⟩
  · simp [events_of]
  · have hfrom : From p.remote_address packets := by
      have htaking := moves_taking p t payload.length
      rw [← htaking.address]
      exact process_commands_from (fun x hx => by cases hx) hr
    intro e he
    rw [events_of_append, events_of_packet_events, events_of_connect_event, List.mem_append] at he
    rcases he with he | he
    · split at he
      · rw [List.mem_singleton.1 he]
        rfl
      · cases he
    · simp only [List.mem_map, exists_exists_and_eq_and] at he
      obtain ⟨x, hx, rfl⟩ := he
      exact hfrom x hx

theorem GoodAt.process_packet (hg : GoodAt addr (some p) events)
    (h : p.process_packet codecs payload t draw = .ok (actions, q))
    (ho : Orderly codecs (opened events) p payload t draw) : GoodAt addr (some q) (events ++ events_of actions) := by
  rcases process_packet_cases h with ⟨rfl, hm, -⟩ | ⟨packet, r, packets, ht, hr, rfl, hm⟩
  · exact hg.quiet hm rfl
  · obtain ⟨haddr, hagrees⟩ := hg.present p rfl
    have horderly := ho packet r packets ht hr
    rw [events_of_append, events_of_packet_events, events_of_connect_event]
    generalize hs : p.state.after_commands packet.commands = s at hm horderly ⊢
    cases hopen : opened events with
    | true =>
      -- already announced: the datagram can only add packets
      rw [hopen] at hagrees
      have hs' : Agrees true s := hs ▸ agrees_after_commands hagrees packet.commands
      obtain ⟨hno, hstay⟩ := agrees_after_recv hs' p.config.use_connection_handshake
      rw [hno]
      obtain ⟨hl, hstill⟩ := hg.lifecycle.packets hopen (packets.map Prod.fst)
      refine goodAt_some hl (hm.address.trans haddr) ?_
      rw [hm.state, hstay, show opened (events ++ ((if false = true then _ else []) ++ _)) = true from hstill]
      exact hs'
    | false =>
      rw [hopen] at hagrees
      obtain ⟨hd, hv, hor⟩ := horderly hopen
      have hs' : Agrees false s := hs ▸ not_agrees_after_commands hagrees hd hv
      rcases not_agrees_after_recv hs' p.config.use_connection_handshake with ⟨hyes, hconnected⟩ | ⟨hno, hstay⟩
      · -- announced, and then the packets
        rw [hyes, if_pos rfl, ← List.append_assoc]
        have hconnect := hg.lifecycle.snoc (show MayFollow (opened events) (.Connect p.remote_address) from hopen)
        have hopened : opened (events ++ [.Connect p.remote_address]) = true := by
          rw [opened_append]
          rfl
        obtain ⟨hl, hstill⟩ := hconnect.packets hopened (packets.map Prod.fst)
        apply goodAt_some hl (hm.address.trans haddr)
        rw [hm.state, hconnected]
        exact hstill
      · -- still unannounced: there must be no packets
        rw [hno] at hor
        have hnone : packets = [] := hor.resolve_left (by decide)
        subst hnone
        rw [hno]
        have hsame : events ++ ((if false = true then [.Connect p.remote_address] else []) ++
            (List.map Prod.fst ([] : IncomingPackets)).map .Packet) = events := by simp
        rw [hsame]
        apply goodAt_some hg.lifecycle (hm.address.trans haddr)
        rw [hm.state, hopen]
        exact hstay

theorem events_of_onlySends (h : OnlySends actions) : events_of actions = [] := by
  apply List.filterMap_eq_nil_iff.2
  intro a ha
  obtain ⟨bytes, rfl⟩ := h a ha
  rfl

theorem agrees_after_send {o : Bool} {s : PeerState} (h : Agrees o s) : Agrees o s.after_send := by
  cases s <;> exact h

theorem GoodAt.process_event (hg : GoodAt addr (some p) events) {event : Packet}
    (h : p.process_event codecs event = .ok (actions, q)) : GoodAt addr (some q) (events ++ events_of actions) := by
  obtain ⟨hsends, hm⟩ := process_event_moves h
  obtain ⟨haddr, hagrees⟩ := hg.present p rfl
  rw [events_of_onlySends hsends, List.append_nil]
  apply goodAt_some hg.lifecycle (hm.address.trans haddr)
  rw [hm.state]
  exact agrees_after_send hagrees

theorem GoodAt.update (hg : GoodAt addr (some p) events) (codecs : Codecs) (elapsed : Duration) (probe : ProbeDraw) :
    GoodAt addr (some (p.update codecs t elapsed probe).2) (events ++ events_of (p.update codecs t elapsed probe).1) := by
  obtain ⟨hsends, hm⟩ := update_moves codecs p t elapsed probe
  exact hg.quiet hm (events_of_onlySends hsends)

theorem GoodAt.disconnect (hg : GoodAt addr (some p) events) : GoodAt addr (some p.disconnect) events := by
  obtain ⟨haddr, hagrees⟩ := hg.present p rfl
  unfold Peer.disconnect
  split
  · exact goodAt_some hg.lifecycle haddr trivial
  · exact hg

/-- A new session has not been announced. -/
theorem GoodAt.new (hg : GoodAt addr none events) (config : Config) (ids : PeerDraw) :
    GoodAt addr (some (.new addr config t ids)) events :=
  goodAt_some hg.lifecycle rfl (hg.absent rfl)

/-- Has the session been silent for too long, or too much is in flight? -/
def times_out (p : Peer) (t : Instant) : Bool :=
  decide (p.packets_in_flight > p.config.max_packets_in_flight) ||
    decide (t - p.last_heard ≥ p.config.idle_connection_timeout)

theorem should_drop_eq (p : Peer) (t : Instant) :
    p.should_drop t =
      if p.state = .Zombie then (true, [.Emit (.Disconnect p.remote_address)])
      else if p.times_out t then
        (true, .Emit (.Timeout p.remote_address) ::
          if p.is_established then [.Emit (.Disconnect p.remote_address)] else [])
      else (false, []) := rfl

theorem should_drop_addresses (p : Peer) (t : Instant) :
    ∀ e ∈ events_of (p.should_drop t).2, e.address = p.remote_address := by
  rw [should_drop_eq]
  split
  · simp [events_of, SocketEvent.address]
  · split
    · split <;> simp [events_of, SocketEvent.address]
    · simp [events_of]

/-- A session that is dropped has said goodbye, unless it was announced, then
disconnected by its owner, and timed out. -/
theorem GoodAt.should_drop (hg : GoodAt addr (some p) events) (t : Instant)
    (hc : p.state = .Disconnecting → opened events = true → p.times_out t = false) :
    GoodAt addr (if (p.should_drop t).1 then none else some p) (events ++ events_of (p.should_drop t).2) := by
  obtain ⟨haddr, hagrees⟩ := hg.present p rfl
  have hgone : ∀ {evs : List SocketEvent}, Lifecycle evs → opened evs = false → GoodAt addr none evs :=
    fun hl ho => ⟨hl, fun _ => ho, fun _ hq => by cases hq⟩
  have hbye : ∀ {evs : List SocketEvent}, Lifecycle evs → opened evs = true →
      GoodAt addr none (evs ++ [.Disconnect p.remote_address]) := by
    intro evs hl ho
    refine hgone (hl.snoc ho) ?_
    rw [opened_append]
    rfl
  rw [should_drop_eq]
  by_cases hz : p.state = .Zombie
  · -- the remote end disconnected; `Disconnect` is emitted without a check
    rw [if_pos hz]
    rw [hz] at hagrees
    exact hbye hg.lifecycle hagrees
  rw [if_neg hz]
  by_cases ht : p.times_out t = true
  · have htimeout := hg.lifecycle.snoc (show MayFollow (opened events) (.Timeout p.remote_address) from trivial)
    have hsame : opened (events ++ [.Timeout p.remote_address]) = opened events := by
      rw [opened_append]
      rfl
    rw [if_pos ht]
    by_cases he : p.is_established = true
    · have hopen : opened events = true := by
        unfold is_established at he
        cases hs : p.state with
        | ConnectionSucceeded | Connected =>
          rw [hs] at hagrees
          exact hagrees
        | _ =>
          rw [hs] at he
          cases he
      rw [if_pos he]
      have hlast := hbye htimeout (hsame.trans hopen)
      rw [List.append_assoc] at hlast
      exact hlast
    · have hclosed : opened events = false := by
        unfold is_established at he
        cases hs : p.state with
        | Idle | Connecting | AcknowledgingConnect =>
          rw [hs] at hagrees
          exact hagrees
        | ConnectionSucceeded | Connected =>
          rw [hs] at he
          exact absurd rfl he
        | Disconnecting =>
          -- a disconnect of our own: the one state that says nothing
          by_contra hopen
          rw [hc hs (by simpa using hopen)] at ht
          cases ht
        | Zombie => exact absurd hs hz
      rw [if_neg he]
      exact hgone htimeout (hsame.trans hclosed)
  · rw [if_neg ht]
    simpa [events_of] using hg

end Peer

/-! ## Turns -/

namespace SessionManager

variable {I : Type} {intercept : Interceptor I} {codecs : Codecs} {m m' : SessionManager Peer I} {n n' : Nat}
  {d : IncomingDatagram} {time : Instant} {log : List SocketEvent}

/-- The events of an address so far, those not yet flushed included. -/
def history (log : List SocketEvent) (m : SessionManager Peer I) (addr : SocketAddr) : List SocketEvent :=
  events_at addr (log ++ m.pending_events)

/-- Sessions and events agree at every address. -/
def Good (log : List SocketEvent) (m : SessionManager Peer I) : Prop :=
  ∀ addr, Peer.GoodAt addr (m.sessions.lookup addr) (history log m addr)

theorem Turn.history_self {addr : SocketAddr} {before after : Option Peer} {actions : List Action}
    (ht : Turn m m' addr before after actions) (ha : ∀ e ∈ events_of actions, e.address = addr)
    (log : List SocketEvent) : history log m' addr = history log m addr ++ events_of actions := by
  simp only [history, ht.events, events_at_append, events_at_self ha, List.append_assoc]

theorem Turn.history_other {addr a : SocketAddr} {before after : Option Peer} {actions : List Action}
    (ht : Turn m m' a before after actions) (ha : ∀ e ∈ events_of actions, e.address = a) (hne : addr ≠ a)
    (log : List SocketEvent) : history log m' addr = history log m addr := by
  simp only [history, ht.events, events_at_append, events_at_other ha hne, List.append_nil]

/-- A turn has to be good for its own address only. -/
theorem Good.turn (hg : Good log m) {a : SocketAddr} {before after : Option Peer} {actions : List Action}
    (ht : Turn m m' a before after actions) (ha : ∀ e ∈ events_of actions, e.address = a)
    (hat : Peer.GoodAt a before (history log m a) → Peer.GoodAt a after (history log m a ++ events_of actions)) :
    Good log m' := by
  intro addr
  by_cases hne : addr = a
  · subst hne
    rw [ht.after, ht.history_self ha]
    exact hat (ht.before ▸ hg addr)
  · rw [ht.others addr hne, ht.history_other ha hne]
    exact hg addr

/-- The datagram is in order for the session that gets it; one that is refused
says nothing. -/
structure CarefulRound (codecs : Codecs) (intercept : Interceptor I) (log : List SocketEvent) (time : Instant) (n : Nat)
    (m : SessionManager Peer I) (d : IncomingDatagram) : Prop where
  known : ∀ payload p, m.passes intercept d = some payload → m.sessions.lookup d.address = some p →
    Peer.Orderly codecs (opened (history log m d.address)) p payload time d.draw
  admitted : ∀ payload, m.passes intercept d = some payload → m.sessions.lookup d.address = none →
    m.admits n d.address = true → Peer.Orderly codecs false (newcomer m.config time d) payload time d.draw
  refused : ∀ payload, Refused intercept n m d payload → Mute codecs m.config time d payload

theorem Good.receive (hg : Good log m)
    (h : SessionManager.receive (Peer.session codecs) intercept time (n, m) d = .ok (n', m'))
    (hc : CarefulRound codecs intercept log time n m d) : Good log m' := by
  rcases receive_turn h with ⟨-, ht⟩ | ⟨payload, actions, hp, ⟨s, s', hs, ht⟩ | ⟨s', hs, ht⟩⟩
  · apply hg.turn ht (by simp [events_of])
    intro hat
    simpa [events_of] using hat
  · have hprocess : s.process_packet codecs payload time d.draw = .ok (actions, s') := hs
    have haddr := ((hg d.address).present s ht.before).1
    apply hg.turn ht (haddr ▸ Peer.process_packet_addresses hprocess)
    intro hat
    exact hat.process_packet hprocess (hc.known payload s hp ht.before)
  · have hprocess : (newcomer m.config time d).process_packet codecs payload time d.draw = .ok (actions, s') := hs
    apply hg.turn ht (Peer.process_packet_addresses hprocess)
    intro hat
    by_cases ha : m.admits n d.address = true
    · rw [if_pos ha]
      have horderly := hc.admitted payload hp ht.before ha
      rw [← hat.absent rfl] at horderly
      exact (hat.new m.config d.ids).process_packet hprocess horderly
    · rw [if_neg ha]
      have hmute := hc.refused payload ⟨hp, ht.before, by simpa using ha⟩
      have hnone := (newcomer_actions_iff hprocess).2 hmute
      rw [hnone]
      simpa [events_of] using hat

theorem Good.send_user_event (hg : Good log m) {e : UserEvent}
    (h : SessionManager.send_user_event (Peer.session codecs) time (n, m) e = .ok (n', m')) : Good log m' := by
  rcases send_user_event_turn h with rfl | ⟨actions, ⟨s, s', hs, ht⟩ | ⟨s', hs, ht⟩⟩
  · exact hg
  · have hprocess : s.process_event codecs e.event = .ok (actions, s') := hs
    have hnone := Peer.events_of_onlySends (Peer.process_event_moves hprocess).1
    exact hg.turn ht (by simp [hnone]) fun hat => hat.process_event hprocess
  · have hprocess : (Peer.new e.event.addr m.config time e.ids).process_event codecs e.event = .ok (actions, s') := hs
    have hnone := Peer.events_of_onlySends (Peer.process_event_moves hprocess).1
    exact hg.turn ht (by simp [hnone]) fun hat => (hat.new m.config e.ids).process_event hprocess

theorem Good.update_sessions (hg : Good log m) (draw : SocketAddr → Duration × ProbeDraw) (order : List SocketAddr) :
    Good log (order.foldl (update_session (Peer.session codecs) time draw) m) := by
  induction order generalizing m with
  | nil => exact hg
  | cons addr order ih =>
    rw [List.foldl_cons]
    apply ih
    rcases update_session_turn (Peer.session codecs) m time draw addr with he | ⟨s, ht⟩
    · rw [he]
      exact hg
    · have hnone : events_of ((Peer.session codecs).update s time (draw addr).1 (draw addr).2).1 = [] :=
        Peer.events_of_onlySends (Peer.update_moves codecs s time (draw addr).1 (draw addr).2).1
      exact hg.turn ht (by simp [hnone]) fun hat => hat.update codecs (draw addr).1 (draw addr).2

/-! ## Checks -/

/-- With the sessions of `to_drop` taken out, sessions and events agree. -/
def GoodWithout (log : List SocketEvent) (m : SessionManager Peer I) (to_drop : List SocketAddr) : Prop :=
  ∀ addr, Peer.GoodAt addr (if addr ∈ to_drop then none else m.sessions.lookup addr) (history log m addr)

/-- No announced session that its owner disconnected times out. -/
def NoTimeout (log : List SocketEvent) (m : SessionManager Peer I) (time : Instant) (addr : SocketAddr) : Prop :=
  ∀ p, m.sessions.lookup addr = some p → p.state = .Disconnecting → opened (history log m addr) = true →
    p.times_out time = false

theorem GoodWithout.check_session (codecs : Codecs) {to_drop : List SocketAddr} {a : SocketAddr}
    (hg : GoodWithout log m to_drop) (ha : a ∉ to_drop) (hc : NoTimeout log m time a) :
    GoodWithout log (SessionManager.check_session (Peer.session codecs) time (m, to_drop) a).1
        (SessionManager.check_session (Peer.session codecs) time (m, to_drop) a).2 ∧
      ∀ addr, addr ≠ a →
        (addr ∈ (SessionManager.check_session (Peer.session codecs) time (m, to_drop) a).2 ↔ addr ∈ to_drop) ∧
        (NoTimeout log m time addr →
          NoTimeout log (SessionManager.check_session (Peer.session codecs) time (m, to_drop) a).1 time addr) := by
  rcases check_session_turn (Peer.session codecs) m time to_drop a with ⟨hl, he⟩ | ⟨s, ht, hd⟩
  · rw [he]
    exact ⟨hg, fun addr _ => ⟨Iff.rfl, id⟩⟩
  · have hdrop : (Peer.session codecs).should_drop s time = (s.should_drop time, s) := rfl
    rw [hdrop] at ht hd
    generalize SessionManager.check_session (Peer.session codecs) time (m, to_drop) a = state at ht hd ⊢
    obtain ⟨r, to_drop'⟩ := state
    dsimp only at ht hd ⊢
    subst hd
    have hgood := hg a
    rw [if_neg ha, ht.before] at hgood
    have haddr : ∀ e ∈ events_of (s.should_drop time).2, e.address = a :=
      (hgood.present s rfl).1 ▸ Peer.should_drop_addresses s time
    have hmem : ∀ addr, addr ≠ a → (addr ∈ to_drop ++ (if (s.should_drop time).1 then [a] else []) ↔ addr ∈ to_drop) := by
      intro addr hne
      split <;> simp [hne]
    -- the check has to be good for `a` and leaves the rest alone
    refine ⟨fun addr => ?_, fun addr hne => ⟨hmem addr hne, fun hno p hp => ?_⟩⟩
    · by_cases hne : addr = a
      · subst hne
        have hself : addr ∈ to_drop ++ (if (s.should_drop time).1 then [addr] else []) ↔ (s.should_drop time).1 = true := by
          split <;> simp_all
        rw [ht.history_self haddr, ht.after]
        simp only [hself]
        exact hgood.should_drop time (hc s ht.before)
      · rw [ht.history_other haddr hne, ht.others addr hne]
        simp only [hmem addr hne]
        exact hg addr
    · rw [ht.others addr hne] at hp
      rw [ht.history_other haddr hne]
      exact hno p hp

theorem GoodWithout.check_sessions (codecs : Codecs) {order to_drop : List SocketAddr}
    (hg : GoodWithout log m to_drop) (hnodup : order.Nodup) (hfresh : ∀ a ∈ order, a ∉ to_drop)
    (hc : ∀ a ∈ order, NoTimeout log m time a) :
    GoodWithout log (order.foldl (SessionManager.check_session (Peer.session codecs) time) (m, to_drop)).1
      (order.foldl (SessionManager.check_session (Peer.session codecs) time) (m, to_drop)).2 := by
  -- each address is checked once, so the addresses still to come are as they were
  induction order generalizing m to_drop with
  | nil => exact hg
  | cons a order ih =>
    rw [List.nodup_cons] at hnodup
    rw [List.forall_mem_cons] at hfresh hc
    obtain ⟨hgood, hothers⟩ := hg.check_session codecs hfresh.1 hc.1
    have hne : ∀ addr ∈ order, addr ≠ a := fun addr hm he => hnodup.1 (he ▸ hm)
    rw [List.foldl_cons]
    generalize SessionManager.check_session (Peer.session codecs) time (m, to_drop) a = state at hgood hothers ⊢
    obtain ⟨r, to_drop'⟩ := state
    refine ih hgood hnodup.2 (fun addr hm => ?_) (fun addr hm => ?_)
    · rw [(hothers addr (hne addr hm)).1]
      exact hfresh.2 addr hm
    · exact (hothers addr (hne addr hm)).2 (hc.2 addr hm)

theorem GoodWithout.removes {to_drop : List SocketAddr} (hg : GoodWithout log m to_drop) (h : Removes m m' to_drop) :
    Good log m' := by
  intro addr
  have hgood := hg addr
  unfold history at hgood ⊢
  rw [h.events]
  by_cases hm : addr ∈ to_drop
  · rw [h.gone addr hm]
    rwa [if_pos hm] at hgood
  · rw [h.others addr hm]
    rwa [if_neg hm] at hgood

/-! ## Polls and runs -/

/-- Every datagram of the poll is in order, and so are the timeouts at its
end. -/
structure CarefulPoll (codecs : Codecs) (intercept : Interceptor I) (log : List SocketEvent)
    (m : SessionManager Peer I) (poll : Poll) : Prop where
  rounds : ∀ n r d, ((n, r), d) ∈ m.poll_rounds (Peer.session codecs) intercept poll →
    CarefulRound codecs intercept log poll.time n r d
  timeouts : ∀ r, m.before_checks (Peer.session codecs) intercept poll = .ok r →
    ∀ addr, NoTimeout log r poll.time addr

theorem Good.before_checks (hg : Good log m) {poll : Poll}
    (h : SessionManager.before_checks (Peer.session codecs) intercept m poll = .ok m')
    (hc : ∀ n r d, ((n, r), d) ∈ m.poll_rounds (Peer.session codecs) intercept poll →
      CarefulRound codecs intercept log poll.time n r d) : Good log m' := by
  obtain ⟨s₁, h₁, h⟩ := bind_eq_ok h
  obtain ⟨s₂, h₂, h⟩ := bind_eq_ok h
  cases h
  have hreceived : Good log s₁.2 := foldlM_invariant_on (I := fun s => Good log s.2)
    (fun x hx t hs ht => Good.receive hs ht (hc x.1.1 x.1.2 x.2 hx)) h₁ hg
  have hsent : Good log s₂.2 := foldlM_invariant (I := fun s => Good log s.2)
    (fun s e t hs ht => Good.send_user_event hs ht) h₂ hreceived
  exact hsent.update_sessions poll.update_draw _

theorem Good.manual_poll (hg : Good log m) {poll : Poll} {flushed : Flushed}
    (h : SessionManager.manual_poll (Peer.session codecs) intercept m poll = .ok (flushed, m'))
    (hc : CarefulPoll codecs intercept log m poll) :
    m'.pending_events = [] ∧ Good (log ++ flushed.events) m' := by
  obtain ⟨r, hr, ⟨r', hremoves, hflush⟩⟩ := manual_poll_ok h
  have hgood := hg.before_checks hr hc.rounds
  have hnodup : (poll.drop_order.arrange r.sessions.keys).Nodup :=
    (poll.drop_order.perm _).nodup_iff.2 r.sessions.keys_nodup
  have hwithout : GoodWithout log r [] := fun addr => by simpa using hgood addr
  have hchecked := hwithout.check_sessions codecs hnodup (by simp) fun a _ => hc.timeouts r hr a
  have hremoved := hchecked.removes hremoves
  have hevents : flushed.events = r'.pending_events := congrArg (fun out => out.1.events) hflush
  have hpending : m'.pending_events = [] := congrArg (fun out => out.2.pending_events) hflush
  have hsessions : m'.sessions = r'.sessions := congrArg (fun out => out.2.sessions) hflush
  -- the events move from the pending ones to the log
  refine ⟨hpending, fun addr => ?_⟩
  have hlast := hremoved addr
  unfold history at hlast ⊢
  rw [hsessions, hpending, hevents, List.append_nil]
  exact hlast

/-- All events handed out so far. -/
def log_of (steps : List (SessionManager Peer I × HostStep)) : List SocketEvent :=
  steps.flatMap fun step => step.2.flushed.events

theorem log_of_append (steps : List (SessionManager Peer I × HostStep)) (q : SessionManager Peer I) (e : HostStep) :
    log_of (steps ++ [(q, e)]) = log_of steps ++ e.flushed.events := by
  simp [log_of]

/-- Every poll of the run is careful. -/
def Careful (codecs : Codecs) (intercept : Interceptor I) (steps : List (SessionManager Peer I × HostStep)) : Prop :=
  ∀ before q e poll after, steps = before ++ (q, e) :: after → e.op = .Poll poll →
    CarefulPoll codecs intercept (log_of before) q poll

theorem Good.disconnect (hg : Good log m) (addr : SocketAddr) : Good log (m.disconnect addr) := by
  unfold SessionManager.disconnect
  split
  · rename_i s hs
    intro a
    by_cases hne : a = addr
    · subst hne
      have hgood := hg a
      rw [hs] at hgood
      rw [AList.lookup_insert]
      exact hgood.disconnect
    · rw [AList.lookup_insert_ne hne]
      exact hg a
  · exact hg

theorem disconnect_pending (m : SessionManager Peer I) (addr : SocketAddr) :
    (m.disconnect addr).pending_events = m.pending_events := by
  unfold SessionManager.disconnect
  split <;> rfl

theorem run_good {config : Config} {i : I} {steps : List (SessionManager Peer I × HostStep)}
    (h : HostRun codecs intercept (.new config i) steps m) (hc : Careful codecs intercept steps) :
    m.pending_events = [] ∧ Good (log_of steps) m := by
  induction h with
  | start => exact ⟨rfl, fun addr => ⟨.nil, fun _ => rfl, fun p hp => by cases hp⟩⟩
  | @next steps q e m' _ hs ih =>
    have hprefix : Careful codecs intercept steps := by
      intro before q' e' poll after he
      exact hc before q' e' poll (after ++ [(q, e)]) (by simp [he])
    obtain ⟨hpending, hgood⟩ := ih hprefix
    rw [log_of_append]
    obtain ⟨op, flushed⟩ := e
    cases op with
    | Poll poll => exact hgood.manual_poll hs (hc steps q _ poll [] rfl rfl)
    | Disconnect addr =>
      cases hs
      refine ⟨(disconnect_pending q addr).trans hpending, ?_⟩
      rw [List.append_nil]
      exact hgood.disconnect addr

/-- In a run whose polls are careful, `Connect` and `Disconnect` take turns at
every address, packets lie between them, and an address without a session has
no connection open. -/
theorem events_keep_lifecycle (config : Config) (i : I) {steps : List (SessionManager Peer I × HostStep)}
    (h : HostRun codecs intercept (.new config i) steps m) (hc : Careful codecs intercept steps) (addr : SocketAddr) :
    Lifecycle (events_at addr (log_of steps)) ∧
      (m.sessions.lookup addr = none → opened (events_at addr (log_of steps)) = false) := by
  obtain ⟨hpending, hgood⟩ := run_good h hc
  have hat := hgood addr
  unfold history at hat
  rw [hpending, List.append_nil] at hat
  exact ⟨hat.lifecycle, hat.absent⟩

/-- A host with the default configuration. -/
def open_manager : SessionManager Peer Unit := .new .default ()

/-- No session of a host is disconnecting. -/
theorem noTimeout_of_all (h : (m.sessions.entries.all fun x => x.2.state != .Disconnecting) = true)
    (addr : SocketAddr) : NoTimeout log m time addr := by
  intro p hp hd
  rw [← Option.mem_def, AList.mem_lookup_iff] at hp
  have hstate := List.all_eq_true.1 h _ hp
  rw [hd] at hstate
  cases hstate

theorem Careful.snoc {steps : List (SessionManager Peer I × HostStep)} {e : HostStep}
    (h : Careful codecs intercept steps)
    (hc : ∀ poll, e.op = .Poll poll → CarefulPoll codecs intercept (log_of steps) m poll) :
    Careful codecs intercept (steps ++ [(m, e)]) := by
  intro before q e' poll after he hop
  rcases List.eq_nil_or_concat after with rfl | ⟨after, x, rfl⟩
  · obtain ⟨rfl, hlast⟩ := List.append_inj' he rfl
    cases hlast
    exact hc poll hop
  · rw [List.concat_eq_append, ← List.cons_append, ← List.append_assoc] at he
    obtain ⟨rfl, -⟩ := List.append_inj' he rfl
    exact h before q e' poll after rfl hop

/-- A run of one poll. -/
theorem careful_one {poll : Poll} (hc : CarefulPoll codecs intercept [] m poll) (flushed : Flushed) :
    Careful codecs intercept [(m, ⟨.Poll poll, flushed⟩)] := by
  have hnil : Careful codecs intercept ([] : List (SessionManager Peer I × HostStep)) := by
    intro before q e poll after he
    simp at he
  refine hnil.snoc fun poll' hop => ?_
  cases hop
  exact hc

/-- While its connection is open, an address may send anything. -/
theorem carefulRound_of_opened {d : IncomingDatagram} (hl : (m.sessions.lookup d.address).isSome = true)
    (ho : opened (history log m d.address) = true) : CarefulRound codecs intercept log time n m d := by
  refine ⟨fun payload p _ _ packet q packets _ _ h => ?_, fun payload _ h => ?_, fun payload h => ?_⟩
  · rw [ho] at h
    cases h
  · rw [h] at hl
    cases hl
  · rw [h.unknown] at hl
    cases hl

/-- A poll that gets one datagram. -/
theorem poll_rounds_one (codecs : Codecs) (m : SessionManager Peer I) (d : IncomingDatagram) :
    m.poll_rounds (Peer.session codecs) intercept (poll_of d) =
      [((m.unestablished_session_count (Peer.session codecs), m), d)] := by
  unfold poll_rounds poll_of
  dsimp only
  rw [loop_rounds]
  split <;> rfl

/-- A datagram with a `Connect` from a new address is in order. -/
theorem careful_connect : CarefulPoll .checked .no_op [] open_manager (poll_of (letter (.Connect 1 1400 1 7 9))) := by
  refine ⟨fun n r d hm => ?_, fun r hr => ?_⟩
  · rw [poll_rounds_one, List.mem_singleton] at hm
    cases hm
    refine ⟨?_, ?_, ?_⟩
    · intro payload p _ hp
      cases hp
    · intro payload hp _ _ packet q packets ht _ _
      cases hp
      have he : Except.ok ⟨[.Connect 1 1400 1 7 9]⟩ = Except.ok packet := Eq.trans (by decide +kernel) ht.opened
      cases he
      refine ⟨rfl, ?_, .inl rfl⟩
      intro hs
      cases hs
    · intro payload hr
      cases hr.refused
  · obtain ⟨r', hr', hone⟩ := exists_ok
      (x := open_manager.before_checks (Peer.session .checked) .no_op (poll_of (letter (.Connect 1 1400 1 7 9))))
      (p := fun r => r.sessions.entries.all fun x => x.2.state != .Disconnecting) (by decide +kernel)
    obtain rfl := Except.ok.inj (hr'.symm.trans hr)
    exact noTimeout_of_all hone

/-- Data, and a `Disconnect` behind it. -/
def goodbye : Poll := { poll_of (letter (.Disconnect 0)) with
  datagrams := [letter (.SendUnreliable 0 (.from_vec [1])), letter (.Disconnect 0)] }

/-- The address has a session and an open connection. -/
def is_open (log : List SocketEvent) (m : SessionManager Peer Unit) : Bool :=
  (m.sessions.lookup ⟨.V4 1, 5⟩).isSome && opened (history log m ⟨.V4 1, 5⟩)

/-- What the second poll finds and does, after the events of the first one. -/
def parts (log : List SocketEvent) (m : SessionManager Peer Unit) : Bool :=
  is_open log m &&
    (receive (Peer.session .checked) .no_op 0 (m.unestablished_session_count (Peer.session .checked), m)
      (letter (.SendUnreliable 0 (.from_vec [1])))).toOption.any (fun state => is_open log state.2) &&
    (m.before_checks (Peer.session .checked) .no_op goodbye).toOption.any
      (fun r => r.sessions.entries.all fun x => x.2.state != .Disconnecting) &&
    (m.act .checked .no_op (.Poll goodbye)).toOption.any fun out =>
      out.1.events == [.Packet ⟨⟨.V4 1, 5⟩, [1], .Unreliable, .None, 0⟩, .Disconnect ⟨.V4 1, 5⟩]

/-- A session is announced, delivers a packet and ends. -/
theorem events_keep_lifecycle_goodbye :
    ∃ steps m, HostRun .checked .no_op open_manager steps m ∧ Careful .checked .no_op steps ∧
      events_at ⟨.V4 1, 5⟩ (log_of steps) =
        [.Connect ⟨.V4 1, 5⟩, .Packet ⟨⟨.V4 1, 5⟩, [1], .Unreliable, .None, 0⟩, .Disconnect ⟨.V4 1, 5⟩] ∧
      Lifecycle (events_at ⟨.V4 1, 5⟩ (log_of steps)) := by
  obtain ⟨⟨flushed, m⟩, h, hout⟩ := exists_ok
    (x := open_manager.act .checked .no_op (.Poll (poll_of (letter (.Connect 1 1400 1 7 9)))))
    (p := fun out => out.1.events == [.Connect ⟨.V4 1, 5⟩] && parts [.Connect ⟨.V4 1, 5⟩] out.2) (by decide +kernel)
  rw [Bool.and_eq_true, beq_iff_eq] at hout
  obtain ⟨hevents, hout⟩ := hout
  simp only [parts, is_open, Bool.and_eq_true] at hout
  obtain ⟨⟨⟨⟨hknown, hopened⟩, hfirst⟩, hchecks⟩, hsecond⟩ := hout
  obtain ⟨state, hstate, hstill⟩ := exists_ok hfirst
  obtain ⟨r, hr, hone⟩ := exists_ok hchecks
  obtain ⟨⟨flushed', m'⟩, h', hevents'⟩ := exists_ok hsecond
  have hgoodbye : CarefulPoll .checked .no_op [.Connect ⟨.V4 1, 5⟩] m goodbye := by
    refine ⟨fun n q d hm => ?_, fun q hq => ?_⟩
    · rw [poll_rounds_two rfl hstate] at hm
      rcases List.mem_pair.1 hm with hm | hm <;> cases hm
      · exact carefulRound_of_opened hknown hopened
      · rw [Bool.and_eq_true] at hstill
        exact carefulRound_of_opened hstill.1 hstill.2
    · obtain rfl := Except.ok.inj (hr.symm.trans hq)
      exact noTimeout_of_all hone
  have hcareful : Careful .checked .no_op ([(open_manager, ⟨.Poll (poll_of (letter (.Connect 1 1400 1 7 9))), flushed⟩)] ++
      [(m, ⟨.Poll goodbye, flushed'⟩)]) := by
    refine (careful_one careful_connect flushed).snoc fun poll hop => ?_
    cases hop
    rw [log_of, List.flatMap_singleton, hevents]
    exact hgoodbye
  have hrun : HostRun .checked .no_op open_manager
      ([(open_manager, ⟨.Poll (poll_of (letter (.Connect 1 1400 1 7 9))), flushed⟩)] ++
        [(m, ⟨.Poll goodbye, flushed'⟩)]) m' := .next (.next .start h) h'
  refine ⟨_, m', hrun, hcareful, ?_, (events_keep_lifecycle .default () hrun hcareful _).1⟩
  rw [log_of, List.flatMap_append, List.flatMap_singleton, List.flatMap_singleton, hevents, beq_iff_eq.1 hevents']
  decide

/-- One datagram with a `Disconnect`: the end of a connection that there never
was. -/
theorem disconnect_without_connect :
    ∃ steps m, HostRun .checked .no_op open_manager steps m ∧
      events_at ⟨.V4 1, 5⟩ (log_of steps) = [.Disconnect ⟨.V4 1, 5⟩] ∧
      ¬ Lifecycle (events_at ⟨.V4 1, 5⟩ (log_of steps)) := by
  obtain ⟨⟨flushed, m'⟩, h, hout⟩ := exists_ok
    (x := open_manager.act .checked .no_op (.Poll (poll_of (letter (.Disconnect 0)))))
    (p := fun out => out.1.events == [.Disconnect ⟨.V4 1, 5⟩]) (by decide +kernel)
  have hflushed : flushed.events = [.Disconnect ⟨.V4 1, 5⟩] := beq_iff_eq.1 hout
  have hevents : events_at ⟨.V4 1, 5⟩ (log_of [(open_manager, ⟨.Poll (poll_of (letter (.Disconnect 0))), flushed⟩)]) =
      [.Disconnect ⟨.V4 1, 5⟩] := by
    rw [log_of, List.flatMap_singleton, hflushed]
    rfl
  refine ⟨[(open_manager, ⟨.Poll (poll_of (letter (.Disconnect 0))), flushed⟩)], m', .next .start h, hevents, ?_⟩
  rw [hevents]
  intro hl
  cases hl.disconnect [] _ [] rfl

end SessionManager

end Bitfold
