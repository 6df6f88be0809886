import Bitfold.Messages
import Bitfold.TwoPeers
/-!
# Nothing is made up

What a session delivers comes from what it was sent. `Policy` is the receiving
side: which commands may come in, and what may then be delivered. Between two
sessions, every payload delivered is put together from pieces of packets of the
other user; if no packet was cut, it is one of them.
-/

namespace Bitfold

open Lib ProtocolCommand

/-! ## What a peer lets through -/

/-- A command that carries data of the user. -/
def carries_data : ProtocolCommand → Bool
  | .SendReliable .. | .SendUnreliable .. | .SendUnreliableSequenced .. | .SendUnsequenced .. | .SendFragment ..
  | .SendUnreliableFragment .. => true
  | _ => false

/-- Which commands may come in, what may be in a fragment buffer and in a
channel then, and what may be delivered. -/
structure Policy where
  command : ProtocolCommand → Prop
  buffers : UInt16 → CommandFragmentBuffer → Prop
  waits : UInt8 → Bytes → Prop
  delivers : DeliveryGuarantee → OrderingGuarantee → UInt8 → Bytes → Prop

namespace Policy

/-- The commands that may come in bring nothing else. -/
structure Sound (P : Policy) : Prop where
  quiet : ∀ {c}, carries_data c = false → P.command c
  owned : ∀ {c}, P.command c → P.command c.owned
  ordered : ∀ {ch s d}, P.command (.SendReliable ch s true d) → P.waits ch d.as_slice
  reliable : ∀ {ch s d}, P.command (.SendReliable ch s false d) → P.delivers .Reliable .None ch d.as_slice
  unreliable : ∀ {ch d}, P.command (.SendUnreliable ch d) → P.delivers .Unreliable .None ch d.as_slice
  sequenced : ∀ {ch s d}, P.command (.SendUnreliableSequenced ch s d) →
    P.delivers .Unreliable (.Sequenced none) ch d.as_slice
  unsequenced : ∀ {ch g d}, P.command (.SendUnsequenced ch g d) → P.delivers .Unreliable .Unsequenced ch d.as_slice
  opens : ∀ {mode : Mode} {ch s i n d}, P.command (mode.fragment ch s i n d) → ∀ t,
    P.buffers s ((CommandFragmentBuffer.new ch n mode.ordered t).add_fragment i d.as_slice)
  joins : ∀ {mode : Mode} {ch s i n d b}, P.command (mode.fragment ch s i n d) → P.buffers s b →
    P.buffers s (b.add_fragment i d.as_slice)
  reassembled : ∀ (mode : Mode) {ch s i n d b data}, P.command (mode.fragment ch s i n d) → P.buffers s b →
    b.reassemble = some data → (b.ordered = true → P.waits b.channel_id data) ∧
      P.delivers mode.delivery .None b.channel_id data
  released : ∀ {ch data}, P.waits ch data → P.delivers .Reliable (.Ordered none) ch data
  completed : ∀ {ch s o i n d b data}, P.command (.SendFragment ch s o i n d) → P.buffers s b →
    P.waits b.channel_id data → P.delivers .Reliable .None b.channel_id data

/-- The packet may be delivered. -/
def Admits (P : Policy) (packet : Packet) : Prop :=
  P.delivers packet.delivery packet.ordering packet.channel_id packet.payload

/-- All the packets may be delivered. -/
def Passes (P : Policy) (packets : IncomingPackets) : Prop := ∀ x ∈ packets, P.Admits x.1

/-- What is in the peer may be there. -/
structure Guards (P : Policy) (p : Peer) : Prop where
  waits : p.Waits P.waits
  buffers : ∀ (s : UInt16) b, p.command_fragments[s]? = some b → P.buffers s b

end Policy

/-- The sequenced mode leaves what waits alone. -/
theorem ChannelState.process_sequenced_keeps (c : ChannelState) (s : UInt16) (d : SharedBytes) :
    (c.process_sequenced s d).2.buffered_packets = c.buffered_packets ∧
      ∀ x, (c.process_sequenced s d).1 = some x → x = d := by
  unfold process_sequenced
  dsimp only
  split
  · exact ⟨rfl, fun x hx => (Option.some.inj hx).symm⟩
  · exact ⟨rfl, fun x hx => by cases hx⟩

theorem Peer.taking_writes (p : Peer) (t : Instant) (len : Nat) :
    ∃ st b, p.taking t len = { p with statistics := st, bandwidth_throttle := b } := by
  unfold taking counted received update_bandwidth_window record_bytes_received record_data_received
    record_packet_received
  exact ⟨_, _, rfl⟩

/-- A datagram comes to nothing, or its commands are processed; and unless one
of them fails, the packets they bring come out. -/
theorem Peer.process_packet_conveyed {codecs : Codecs} {K : ProtocolCommand → Prop} {p q : Peer} {payload : Bytes}
    {t : Instant} {draw : UInt16} {actions : List Action}
    (hread : Conveys codecs p.config.use_checksums K payload)
    (hp : p.process_packet codecs payload t draw = .ok (actions, q)) :
    (emitted actions = [] ∧ ∃ st b, q = { p with statistics := st, bandwidth_throttle := b }) ∨
    ∃ cmds r result st, (∀ c ∈ cmds, ∃ c', K c' ∧ c = c'.owned) ∧
      process_commands t draw cmds (p.taking t payload.length) [] = .ok (r, result) ∧ q = { r with state := st } ∧
      (emitted actions = [] ∨ ∃ packets, result = .ok packets ∧ emitted actions = packets.map Prod.fst) := by
  cases ht : p.takes payload t with
  | false =>
    obtain ⟨rfl, rfl⟩ := process_packet_not_taken ht hp
    refine .inl ⟨rfl, ?_⟩
    split
    · exact ⟨_, _, rfl⟩
    · exact ⟨_, _, rfl⟩
  | true =>
    rw [takes, Bool.and_eq_true] at ht
    cases ho : open_datagram codecs (p.counted t payload.length).config payload with
    | error failure =>
      cases failure with
      | panic e =>
        rcases process_packet_processes (by simpa using ht.1) ht.2 hp with ⟨e, hr, -⟩ | ⟨r, packets, hr, -, -⟩ <;>
          rw [process_command_packet_panics ho] at hr <;> cases hr
      | error e =>
        rcases process_packet_processes (by simpa using ht.1) ht.2 hp with ⟨e, hr, rfl⟩ | ⟨r, packets, hr, -, -⟩ <;>
          rw [process_command_packet_unopened ho] at hr <;> cases hr
        exact .inl ⟨rfl, _, _, rfl⟩
    | ok packet =>
      have hcmds : ∀ c ∈ packet.commands, ∃ c', K c' ∧ c = c'.owned := hread _ _ rfl ho
      rcases process_packet_processes (by simpa using ht.1) ht.2 hp with ⟨e, hr, rfl⟩ | ⟨r, packets, hr, rfl, rfl⟩
      · rw [process_command_packet_opened ho] at hr
        exact .inr ⟨packet.commands, q, _, q.state, hcmds, hr, rfl, .inl rfl⟩
      · rw [process_command_packet_opened ho] at hr
        obtain ⟨st, he⟩ := record_recv_writes r
        refine .inr ⟨packet.commands, r, _, st, hcmds, hr, he, .inr ⟨packets, rfl, ?_⟩⟩
        rw [emitted_append, packet_events, emitted_packets, connect_event, emitted_connect, List.nil_append]

namespace Policy

variable {P : Policy} {p q : Peer} {t : Instant} {draw : UInt16}

theorem passes_zero (P : Policy) : P.Passes .zero := by
  intro x hx
  cases hx

theorem passes_one {packet : Packet} (h : P.Admits packet) : P.Passes (.one packet .Packet) := by
  intro x hx
  rw [List.mem_singleton.1 hx]
  exact h

theorem Passes.append {xs ys : IncomingPackets} (hx : P.Passes xs) (hy : P.Passes ys) : P.Passes (xs ++ ys) := by
  intro x hm
  rcases List.mem_append.1 hm with hm | hm
  · exact hx x hm
  · exact hy x hm

theorem guards_new (P : Policy) (addr : SocketAddr) (config : Config) (time : Instant) (ids : PeerDraw) :
    P.Guards (.new addr config time ids) := by
  refine ⟨Peer.waits_new _ addr config time ids, fun s b hb => ?_⟩
  simp [Peer.new] at hb

theorem Guards.same (h : P.Guards p) (hf : q.command_fragments = p.command_fragments)
    (hc : q.channel_states = p.channel_states) : P.Guards q :=
  ⟨h.waits.same hc, by rw [hf]; exact h.buffers⟩

/-- Data that may wait passes through its channel, with what it releases. -/
theorem Guards.deliver (h : P.Guards p) (ch : UInt8) (s : UInt16) {d : SharedBytes} (hd : P.waits ch d.as_slice) :
    (∀ x ∈ (p.deliver_ordered ch s d).1, P.waits ch x.as_slice) ∧ P.Guards (p.deliver_ordered ch s d).2 := by
  obtain ⟨hout, hend⟩ := h.waits.deliver ch s hd
  exact ⟨hout, hend, h.buffers⟩

/-! ## Fragments -/

theorem Guards.fragment_buffer (hP : P.Sound) (h : P.Guards p) (mode : Mode) {ch : UInt8} {s : UInt16} {i n : UInt8}
    {d : SharedBytes} (hc : P.command (mode.fragment ch s i n d)) (t : Instant) :
    P.buffers s (p.fragment_buffer ch s mode.ordered i n d t) := by
  unfold Peer.fragment_buffer
  rw [SharedBytes.to_arc_eq]
  cases hb : p.command_fragments[s]? with
  | none => exact hP.opens hc t
  | some b => exact hP.joins hc (h.buffers s b hb)

/-- A buffer is put in, or taken out when it is complete. -/
theorem Guards.add_fragment (hP : P.Sound) (h : P.Guards p) (mode : Mode) {ch : UInt8} {s : UInt16} {i n : UInt8}
    {d : SharedBytes} (hc : P.command (mode.fragment ch s i n d)) (t : Instant) :
    P.Guards (p.add_fragment ch s mode.ordered i n d t).2 ∧
      ∀ b, (p.add_fragment ch s mode.ordered i n d t).1 = some b → P.buffers s b := by
  have hbuffer := h.fragment_buffer hP mode hc t
  unfold Peer.add_fragment
  dsimp only
  split
  · refine ⟨⟨h.waits, fun s' b hb => ?_⟩, fun b hb => ?_⟩
    · rw [Std.ExtTreeMap.getElem?_erase] at hb
      split at hb
      · cases hb
      · exact h.buffers s' b hb
    · cases hb
      exact hbuffer
  · refine ⟨⟨h.waits, fun s' b hb => ?_⟩, fun b hb => by cases hb⟩
    simp only [Std.ExtTreeMap.getElem?_insert, Std.compare_eq_iff_eq] at hb
    split at hb
    · rename_i he
      cases hb
      exact he ▸ hbuffer
    · exact h.buffers s' b hb

/-! ## Commands -/

theorem Guards.process_send_reliable (hP : P.Sound) (h : P.Guards p) {ch : UInt8} {s : UInt16} {o : Bool}
    {d : SharedBytes} (hc : P.command (.SendReliable ch s o d)) (t : Instant) :
    P.Guards (p.process_send_reliable ch s o d t).1 ∧ P.Passes (p.process_send_reliable ch s o d t).2 := by
  have hsame := Peer.sameInbox_enqueue_ack_command (p.process_acknowledge s 0 t)
  have hq : P.Guards ((p.process_acknowledge s 0 t).enqueue_ack_command none) := h.same hsame.fragments hsame.channels
  cases o with
  | true =>
    have hd : P.waits ch (SharedBytes.from_arc d.to_arc).as_slice := by simpa using hP.ordered hc
    obtain ⟨hout, hend⟩ := hq.deliver ch s hd
    refine ⟨hend, fun x hx => ?_⟩
    obtain ⟨y, hy, rfl⟩ := List.mem_map.1 hx
    have hreleased := hP.released (hout y hy)
    rwa [← SharedBytes.to_arc_eq] at hreleased
  | false =>
    refine ⟨hq, passes_one ?_⟩
    have hd := hP.reliable hc
    rwa [← SharedBytes.to_arc_eq] at hd

theorem Guards.process_send_unreliable_sequenced (hP : P.Sound) (h : P.Guards p) {ch : UInt8} {s : UInt16}
    {d : SharedBytes} (hc : P.command (.SendUnreliableSequenced ch s d)) :
    P.Guards (p.process_send_unreliable_sequenced ch s d).1 ∧
      P.Passes (p.process_send_unreliable_sequenced ch s d).2 := by
  have hd := hP.sequenced hc
  obtain ⟨hbuffered, hout⟩ := (p.channel_state ch).process_sequenced_keeps s (.from_arc d.to_arc)
  unfold Peer.process_send_unreliable_sequenced
  generalize (p.channel_state ch).process_sequenced s (.from_arc d.to_arc) = x at hbuffered hout
  obtain ⟨data, c⟩ := x
  have hg : P.Guards { p with channel_states := p.channel_states.insert ch c } := by
    refine ⟨fun ch' k x hx => ?_, h.buffers⟩
    unfold Peer.channel_state at hx
    simp only [Std.ExtTreeMap.getElem?_insert, Std.compare_eq_iff_eq] at hx
    split at hx
    · rename_i he
      subst he
      rw [Option.getD_some, hbuffered] at hx
      exact h.waits ch k x hx
    · exact h.waits ch' k x hx
  cases data with
  | none => exact ⟨hg, passes_zero P⟩
  | some data =>
    refine ⟨hg, passes_one ?_⟩
    rw [hout data rfl]
    simpa [Peer.packet, Admits] using hd

theorem Guards.process_send_unsequenced (hP : P.Sound) (h : P.Guards p) {ch : UInt8} {g : UInt16} {d : SharedBytes}
    (hc : P.command (.SendUnsequenced ch g d)) :
    P.Guards (p.process_send_unsequenced ch g d).1 ∧ P.Passes (p.process_send_unsequenced ch g d).2 := by
  unfold Peer.process_send_unsequenced
  split
  · exact ⟨h, passes_zero P⟩
  · refine ⟨h.same rfl rfl, passes_one ?_⟩
    have hd := hP.unsequenced hc
    rwa [← SharedBytes.to_arc_eq] at hd

theorem Guards.process_send_fragment (hP : P.Sound) (h : P.Guards p) {ch : UInt8} {s : UInt16} {o : Bool} {i n : UInt8}
    {d : SharedBytes} (hc : P.command (.SendFragment ch s o i n d)) (t : Instant) :
    P.Guards (p.process_send_fragment ch s o i n d t).1 ∧ P.Passes (p.process_send_fragment ch s o i n d t).2 := by
  have hacked : P.Guards (p.process_acknowledge s 0 t) := h.same rfl rfl
  obtain ⟨hadded, hbuffer⟩ := hacked.add_fragment hP (.Reliable o) hc t
  unfold Mode.ordered at hadded hbuffer
  unfold Peer.process_send_fragment
  dsimp only
  split
  · rename_i he
    rw [he] at hadded
    exact ⟨hadded, passes_zero P⟩
  · rename_i b q he
    rw [he] at hadded hbuffer
    have hb := hbuffer b rfl
    split
    · exact ⟨hadded, passes_zero P⟩
    · rename_i data hr
      obtain ⟨hwaits, hdelivers⟩ := hP.reassembled (.Reliable o) hc hb hr
      have hsame := Peer.sameInbox_enqueue_ack_command q
      have hq : P.Guards (q.enqueue_ack_command none) := hadded.same hsame.fragments hsame.channels
      split
      · -- an ordered message takes its place in the channel
        rename_i ho
        have hd : P.waits b.channel_id (SharedBytes.from_vec data).as_slice := by simpa using hwaits ho
        obtain ⟨hout, hend⟩ := hq.deliver b.channel_id s hd
        refine ⟨hend, fun x hx => ?_⟩
        obtain ⟨y, hy, rfl⟩ := List.mem_map.1 hx
        have hcompleted := hP.completed hc hb (hout y hy)
        rwa [← SharedBytes.to_arc_eq] at hcompleted
      · exact ⟨hq, passes_one hdelivers⟩

theorem Guards.process_send_unreliable_fragment (hP : P.Sound) (h : P.Guards p) {ch : UInt8} {s : UInt16}
    {i n : UInt8} {d : SharedBytes} (hc : P.command (.SendUnreliableFragment ch s i n d)) (t : Instant) :
    P.Guards (p.process_send_unreliable_fragment ch s i n d t).1 ∧
      P.Passes (p.process_send_unreliable_fragment ch s i n d t).2 := by
  obtain ⟨hadded, hbuffer⟩ := h.add_fragment hP .Unreliable hc t
  unfold Mode.ordered at hadded hbuffer
  unfold Peer.process_send_unreliable_fragment
  split
  · rename_i he
    rw [he] at hadded
    exact ⟨hadded, passes_zero P⟩
  · rename_i b q he
    rw [he] at hadded hbuffer
    split
    · exact ⟨hadded, passes_zero P⟩
    · rename_i data hr
      exact ⟨hadded, passes_one (hP.reassembled .Unreliable hc (hbuffer b rfl) hr).2⟩

/-- A command that may come in keeps everything guarded. -/
theorem Guards.process_command (hP : P.Sound) (h : P.Guards p) {c : ProtocolCommand} {r : Peer.Processed}
    (hc : P.command c) (hp : p.process_command c t draw = .ok (q, r)) :
    P.Guards q ∧ ∀ packets, r = .ok packets → P.Passes packets := by
  have hheard : P.Guards (p.heard t) := h.same rfl rfl
  have hquiet : ∀ {q : Peer}, q.command_fragments = p.command_fragments → q.channel_states = p.channel_states →
      P.Guards q ∧ ∀ packets, (.ok .zero : Peer.Processed) = .ok packets → P.Passes packets := by
    intro q hf hc
    refine ⟨h.same hf hc, fun packets he => ?_⟩
    cases he
    exact passes_zero P
  have hsame := fun c => Peer.sameInbox_enqueue_command (p.heard t) c
  cases c with
  | SendReliable ch s o d =>
    cases hp
    obtain ⟨hg, hpass⟩ := hheard.process_send_reliable hP hc t
    exact ⟨hg, fun packets he => by cases he; exact hpass⟩
  | SendUnreliable ch d =>
    cases hp
    refine ⟨hheard, fun packets he => ?_⟩
    cases he
    apply passes_one
    have hd := hP.unreliable hc
    rwa [← SharedBytes.to_arc_eq] at hd
  | SendUnreliableSequenced ch s d =>
    cases hp
    obtain ⟨hg, hpass⟩ := hheard.process_send_unreliable_sequenced hP hc
    exact ⟨hg, fun packets he => by cases he; exact hpass⟩
  | SendUnsequenced ch g d =>
    cases hp
    obtain ⟨hg, hpass⟩ := hheard.process_send_unsequenced hP hc
    exact ⟨hg, fun packets he => by cases he; exact hpass⟩
  | SendFragment ch s o i n d =>
    cases hp
    obtain ⟨hg, hpass⟩ := hheard.process_send_fragment hP hc t
    exact ⟨hg, fun packets he => by cases he; exact hpass⟩
  | SendUnreliableFragment ch s i n d =>
    cases hp
    obtain ⟨hg, hpass⟩ := hheard.process_send_unreliable_fragment hP hc t
    exact ⟨hg, fun packets he => by cases he; exact hpass⟩
  | VerifyConnect pid chs m isid osid w =>
    have hpackets : ∀ packets, r = .ok packets → packets = .zero := by
      rintro packets rfl
      by_cases hs : (p.heard t).state = .Connecting
      · rw [Peer.process_command, Peer.process_verify_connect_eq hs] at hp
        obtain ⟨f, -, hp⟩ := Peer.map_eq_ok hp
        split at hp <;> cases hp
        rfl
      · rw [Peer.process_command, Peer.process_verify_connect, if_neg hs] at hp
        cases hp
        rfl
    obtain ⟨i, n, f, st, rfl⟩ := Peer.process_verify_connect_writes hp
    refine ⟨h.same rfl rfl, fun packets he => ?_⟩
    rw [hpackets packets he]
    exact passes_zero P
  | Ping ts =>
    cases hp
    exact hquiet (hsame _).fragments (hsame _).channels
  | PMTUProbe size token d =>
    cases hp
    exact hquiet (hsame _).fragments (hsame _).channels
  | Connect chs m v sid cid =>
    cases hp
    rcases Peer.process_connect_writes (p.heard t) chs sid cid draw with he | ⟨i, n, st, v, he, -⟩
    · rw [he]
      exact hquiet rfl rfl
    · rw [he]
      exact hquiet rfl rfl
  | _ =>
    cases hp
    exact hquiet rfl rfl

/-- So do the commands of a datagram. -/
theorem Guards.process_commands (hP : P.Sound) {cmds : List ProtocolCommand} {acc : IncomingPackets} {r : Peer.Processed}
    (h : P.Guards p) (hcmds : ∀ c ∈ cmds, P.command c) (hacc : P.Passes acc)
    (hp : Peer.process_commands t draw cmds p acc = .ok (q, r)) :
    P.Guards q ∧ ∀ packets, r = .ok packets → P.Passes packets := by
  induction cmds generalizing p acc with
  | nil =>
    cases hp
    refine ⟨h, fun packets he => ?_⟩
    cases he
    exact hacc
  | cons c cmds ih =>
    rw [List.forall_mem_cons] at hcmds
    cases hc : p.process_command c t draw with
    | error e =>
      rw [Peer.process_commands_panics hc] at hp
      cases hp
    | ok x =>
      obtain ⟨p₁, result⟩ := x
      obtain ⟨hg, hpass⟩ := h.process_command hP hcmds.1 hc
      cases result with
      | error e =>
        rw [Peer.process_commands_refuses hc] at hp
        cases hp
        exact ⟨hg, fun packets he => by cases he⟩
      | ok packets =>
        rw [Peer.process_commands_ok hc] at hp
        exact ih hg hcmds.2 (hacc.append (hpass packets rfl)) hp

variable {codecs : Codecs} {actions : List Action} {payload : Bytes}

/-- So does a datagram, and what it delivers may be delivered. -/
theorem Guards.process_packet (hP : P.Sound) (h : P.Guards p)
    (hread : Conveys codecs p.config.use_checksums P.command payload)
    (hp : p.process_packet codecs payload t draw = .ok (actions, q)) :
    P.Guards q ∧ ∀ packet ∈ Peer.emitted actions, P.Admits packet := by
  rcases Peer.process_packet_conveyed hread hp with ⟨hnone, st, b, rfl⟩ | ⟨cmds, r, result, st, hcmds, hr, rfl, hemitted⟩
  · rw [hnone]
    exact ⟨h.same rfl rfl, fun packet hm => by cases hm⟩
  · obtain ⟨stats, b, htakes⟩ := p.taking_writes t payload.length
    have htaking : P.Guards (p.taking t payload.length) := h.same (by rw [htakes]) (by rw [htakes])
    have hcommands : ∀ c ∈ cmds, P.command c := by
      intro c hc
      obtain ⟨c', hc', rfl⟩ := hcmds c hc
      exact hP.owned hc'
    obtain ⟨hg, hpass⟩ := htaking.process_commands hP hcommands (passes_zero P) hr
    refine ⟨hg.same rfl rfl, fun packet hm => ?_⟩
    rcases hemitted with hnone | ⟨packets, rfl, hsome⟩
    · rw [hnone] at hm
      cases hm
    · rw [hsome] at hm
      obtain ⟨x, hx, rfl⟩ := List.mem_map.1 hm
      exact hpass packets rfl x hx

end Policy

/-! ## Two sessions -/

namespace Peer

theorem emitted_of_onlySends {actions : List Action} (h : OnlySends actions) : emitted actions = [] := by
  apply List.filterMap_eq_nil_iff.2
  intro a ha
  obtain ⟨bytes, rfl⟩ := h a ha
  rfl

/-- Only a datagram that comes in delivers packets. -/
theorem emitted_serve {codecs : Codecs} {p q : Peer} {op : LinkOp} {actions : List Action}
    (hop : op.datagram = none) (h : p.serve codecs op = .ok (actions, q)) : emitted actions = [] := by
  cases op with
  | disconnect =>
    cases h
    rfl
  | session op =>
    cases op with
    | process_packet payload t draw => cases hop
    | process_event event => exact emitted_of_onlySends (process_event_moves h).1
    | update time elapsed probe =>
      obtain rfl : (p.update codecs time elapsed probe).1 = actions := congrArg Prod.fst (Except.ok.inj h)
      exact emitted_of_onlySends (update_moves codecs p time elapsed probe).1
    | should_drop time =>
      cases h
      unfold should_drop
      dsimp only
      split
      · rfl
      · split
        · split <;> rfl
        · rfl

end Peer

/-- A session that sends what one policy lets through, and delivers what the
other one does. -/
structure Intact (mine theirs : Policy) (checks : Bool) (e : Endpoint) : Prop where
  checks : e.peer.config.use_checksums = checks
  queue : ∀ c ∈ e.peer.commands, mine.command c ∧ Framed c
  guards : theirs.Guards e.peer
  delivered : ∀ packet ∈ e.delivered, theirs.Admits packet

section Links

variable {codecs : Codecs} {mine theirs : Policy} {checks : Bool} {e e' : Endpoint} {op : LinkOp} {out : List Bytes}

theorem carries_data_of_response {c : ProtocolCommand} (h : Peer.IsResponse c) : carries_data c = false := by
  cases c <;> first | rfl | cases h

/-- A datagram leaves only answers in the queue. -/
theorem process_packet_queue {p q : Peer} {payload : Bytes} {t : Instant} {draw : UInt16} {actions : List Action}
    (hmine : mine.Sound) (hchecks : p.config.use_checksums = checks)
    (hqueue : ∀ c ∈ p.commands, mine.command c ∧ Framed c)
    (h : p.process_packet codecs payload t draw = .ok (actions, q)) :
    q.config.use_checksums = checks ∧ ∀ c ∈ q.commands, mine.command c ∧ Framed c := by
  refine Peer.process_packet_keeps (K := fun _ _ => True)
    (J := fun p => p.config.use_checksums = checks ∧ ∀ c ∈ p.commands, mine.command c ∧ Framed c) ?_ ?_
    (fun _ _ _ => trivial) h ⟨hchecks, hqueue⟩
  · rintro p q c r ⟨hchecks, hqueue⟩ - h
    refine ⟨(Peer.process_command_setup h).1.trans hchecks, fun x hx => ?_⟩
    obtain ⟨new, hnew, hresponse⟩ := Peer.process_command_answers h
    rcases Peer.process_command_framed h x hx with hold | hframed
    · exact hqueue x hold
    · rw [hnew.commands] at hx
      rcases List.mem_append.1 hx with hx | hx
      · exact hqueue x hx
      · exact ⟨hmine.quiet (carries_data_of_response (hresponse x hx)), hframed⟩
  · rintro p q ⟨hchecks, hqueue⟩ hconfig - hcommands
    exact ⟨by rw [hconfig]; exact hchecks, by rw [hcommands]; exact hqueue⟩

/-- An operation that queues what the one policy lets through, and reads what
the other does, leaves the session intact. -/
theorem Intact.step (hc : codecs.Lossless) (hmine : mine.Sound) (htheirs : theirs.Sound) (h : Intact mine theirs checks e)
    (hread : ∀ bytes, op.datagram = some bytes → Conveys codecs checks theirs.command bytes)
    (hcuts : ∀ event, op = .session (.process_event event) → ∀ c, e.peer.Cuts event c → mine.command c)
    (hs : e.Step codecs op out e') :
    Intact mine theirs checks e' ∧ ∀ bytes ∈ out, Conveys codecs checks mine.command bytes := by
  obtain ⟨actions, q, hserve, rfl, rfl⟩ := hs
  have hquiet : op.datagram = none → ∀ packet ∈ e.delivered ++ Peer.emitted actions, theirs.Admits packet := by
    intro hop packet hm
    rw [Peer.emitted_serve hop hserve, List.append_nil] at hm
    exact h.delivered packet hm
  cases op with
  | disconnect =>
    cases hserve
    refine ⟨⟨?_, fun c hm => ?_, ?_, hquiet rfl⟩, fun bytes hm => by cases hm⟩
    · rw [(e.peer.disconnect_handshake []).2.1]
      exact h.checks
    · rcases (e.peer.disconnect_handshake []).2.2 c hm with hm | rfl
      · exact h.queue c hm
      · exact ⟨hmine.quiet rfl, Peer.framed_of_frame_len (by decide)⟩
    · unfold Peer.disconnect
      split
      · exact h.guards.same rfl rfl
      · exact h.guards
  | session op =>
    cases op with
    | process_packet payload t draw =>
      have hconveys := hread payload rfl
      rw [← h.checks] at hconveys
      obtain ⟨hguards, hemitted⟩ := h.guards.process_packet htheirs hconveys hserve
      obtain ⟨hchecks, hqueue⟩ := process_packet_queue hmine h.checks h.queue hserve
      refine ⟨⟨hchecks, hqueue, hguards, fun packet hm => ?_⟩, fun bytes hm => ?_⟩
      · rcases List.mem_append.1 hm with hm | hm
        · exact h.delivered packet hm
        · exact hemitted packet hm
      · rw [Peer.process_packet_sends hserve] at hm
        cases hm
    | process_event event =>
      have hconveying := Peer.process_event_conveying hc h.queue (fun c hm => ?_) (fun r hr => ?_) hserve
      · obtain ⟨n, cq, u, sq, st, stats, b, rfl⟩ := Peer.process_event_writes hserve
        refine ⟨⟨h.checks, hconveying.queue, h.guards.same rfl rfl, hquiet rfl⟩, fun bytes hm => ?_⟩
        rw [← h.checks]
        exact hconveying.sends bytes hm
      · unfold Peer.opening at hm
        split at hm
        · rw [List.mem_singleton.1 hm]
          exact hmine.quiet rfl
        · cases hm
      · apply (Peer.enqueue_packet_cuts hr).mono
        rintro c ⟨hcut, hframed⟩
        exact ⟨hcuts event rfl c (Peer.cuts_record_send hcut), hframed⟩
    | update time elapsed probe =>
      have hconveying := Peer.update_conveying hc h.queue (fun _ => hmine.quiet rfl) (fun _ _ _ => hmine.quiet rfl)
        time elapsed probe
      obtain ⟨n, cq, stats, b, pm, he⟩ := Peer.update_writes codecs e.peer time elapsed probe
      obtain rfl : (e.peer.update codecs time elapsed probe).1 = actions := congrArg Prod.fst (Except.ok.inj hserve)
      obtain rfl : (e.peer.update codecs time elapsed probe).2 = q := congrArg Prod.snd (Except.ok.inj hserve)
      refine ⟨⟨?_, hconveying.queue, ?_, hquiet rfl⟩, fun bytes hm => ?_⟩
      · rw [he]
        exact h.checks
      · rw [he]
        exact h.guards.same rfl rfl
      · rw [← h.checks]
        exact hconveying.sends bytes hm
    | should_drop time =>
      cases hserve
      refine ⟨⟨h.checks, h.queue, h.guards, hquiet rfl⟩, fun bytes hm => ?_⟩
      rw [Peer.should_drop_sends] at hm
      cases hm

/-- Two sessions with a policy each: if what every packet of the run is cut
into is let through, the packets delivered are those that may be. -/
theorem link_integrity {origins : Side → Origin} {n : Network Endpoint Bytes}
    {steps : List (Network Endpoint Bytes × (Side × LinkOp))} (hc : codecs.Lossless)
    (hchecks : ∀ side, (origins side).config.use_checksums = checks) (P : Side → Policy) (hP : ∀ side, (P side).Sound)
    (hcuts : ∀ m side event, (m, (side, .session (.process_event event))) ∈ steps →
      ∀ c, (m.state side).peer.Cuts event c → (P side).command c)
    (h : LinkRun codecs (new_link origins) steps n) (side : Side) :
    ∀ packet ∈ (n.state side).delivered, (P side.other).Admits packet := by
  refine (Network.guarantees (fun side => Intact (P side) (P side.other) checks)
    (fun side => Conveys codecs checks (P side).command) ?_ ?_ h side).1.delivered
  · intro side
    refine ⟨hchecks side, fun c hm => ?_, Policy.guards_new _ _ _ _ _, fun packet hm => ?_⟩
    · cases hm
    · cases hm
  · intro m side op out e' hm hgood hreads hstep
    apply hgood.step hc (hP side) (hP side.other) hreads ?_ hstep
    rintro event rfl
    exact hcuts m side event hm

end Links

end Bitfold
