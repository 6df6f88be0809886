import Bitfold.Datagrams
import Bitfold.Receiving
/-!
# Delivery

How a peer delivers the commands of incoming datagrams. What is delivered
depends on the fragment buffers and the channels only, so a sequence of
datagrams is one stream of commands, wherever it is cut (`Stream`).
-/

namespace Bitfold

open Lib ProtocolCommand

/-! ## Channels -/

namespace ChannelState

/-- A channel that has delivered sequence 0 and got nothing since but repeats
of it. -/
structure Stuck (s : ChannelState) : Prop where
  expected : s.expected_sequence = 1
  buffered : ∀ k, k ∈ s.buffered_packets → k = 0

theorem Stuck.missing {s : ChannelState} (h : Stuck s) : s.deliver_next = (none, s) := by
  unfold deliver_next
  split
  · rename_i d hd
    rw [h.expected] at hd
    have hmem : (1 : UInt16) ∈ s.buffered_packets := Std.ExtTreeMap.mem_iff_isSome_getElem?.2 (by rw [hd]; rfl)
    exact absurd (h.buffered 1 hmem) (by decide)
  · rfl

/-- Another message with sequence 0 is buffered for good. -/
theorem Stuck.process_ordered {s : ChannelState} (h : Stuck s) (d : SharedBytes) :
    (s.process_ordered 0 d).1 = [] ∧ Stuck (s.process_ordered 0 d).2 := by
  have hins : Stuck { s with buffered_packets := s.buffered_packets.insert 0 d } := by
    refine ⟨h.expected, fun k hk => ?_⟩
    rcases Std.ExtTreeMap.mem_insert.1 hk with hk | hk
    · exact (Std.compare_eq_iff_eq.1 hk).symm
    · exact h.buffered k hk
  obtain ⟨hout, hend⟩ := (process_ordered_drains s 0 d).of_none hins.missing
  rw [hout, hend]
  exact ⟨rfl, hins⟩

/-- The first message with sequence 0 is delivered. -/
theorem new_process_ordered (d : SharedBytes) :
    (new.process_ordered 0 d).1 = [d] ∧ Stuck (new.process_ordered 0 d).2 := by
  have hstep : ({ new with buffered_packets := new.buffered_packets.insert 0 d } : ChannelState).deliver_next =
      (some d, { new with
        buffered_packets := (new.buffered_packets.insert 0 d).erase 0, expected_sequence := 1 }) := by
    unfold deliver_next
    simp [new]
  have hstuck : Stuck { new with
      buffered_packets := (new.buffered_packets.insert 0 d).erase 0, expected_sequence := 1 } := by
    refine ⟨rfl, fun k hk => ?_⟩
    obtain ⟨hne, hk⟩ := Std.ExtTreeMap.mem_erase.1 hk
    rcases Std.ExtTreeMap.mem_insert.1 hk with hk | hk
    · exact absurd hk hne
    · exact absurd hk Std.ExtTreeMap.not_mem_empty
  obtain ⟨rest, hout, hd⟩ := (process_ordered_drains new 0 d).of_some hstep
  obtain ⟨hrest, hend⟩ := hd.of_none hstuck.missing
  rw [hout, hrest, hend]
  exact ⟨rfl, hstuck⟩

end ChannelState

namespace Peer

variable {codecs : Codecs} {p p' q r : Peer}

/-! ## The stream of commands -/

/-- A step that touches neither fragments nor channels nor the unsequenced
window. -/
structure SameInbox (p p' : Peer) : Prop where
  fragments : p'.command_fragments = p.command_fragments
  channels : p'.channel_states = p.channel_states
  unsequenced : p'.unsequenced_state = p.unsequenced_state

theorem SameInbox.refl (p : Peer) : SameInbox p p := ⟨rfl, rfl, rfl⟩

theorem SameInbox.trans (h : SameInbox p q) (h' : SameInbox q r) : SameInbox p r :=
  ⟨h'.fragments.trans h.fragments, h'.channels.trans h.channels, h'.unsequenced.trans h.unsequenced⟩

/-- The commands are processed one after the other, and `out` is delivered. -/
inductive Stream : Peer → List ProtocolCommand → List Packet → Peer → Prop where
  | done {p p' : Peer} : SameInbox p p' → Stream p [] [] p'
  | next {p q p' p'' : Peer} {c : ProtocolCommand} {cs : List ProtocolCommand} {packets : IncomingPackets}
      {out : List Packet} {t : Instant} {draw : UInt16} : SameInbox p q →
      q.process_command c t draw = .ok (p', .ok packets) → Stream p' cs out p'' →
      Stream p (c :: cs) (packets.map Prod.fst ++ out) p''

theorem Stream.after {cs : List ProtocolCommand} {out : List Packet} (h : Stream q cs out r) (hp : SameInbox p q) :
    Stream p cs out r := by
  cases h with
  | done hq => exact .done (hp.trans hq)
  | next hq hc hs => exact .next (hp.trans hq) hc hs

theorem Stream.append {cs cs' : List ProtocolCommand} {out out' : List Packet} (h : Stream p cs out q)
    (h' : Stream q cs' out' r) : Stream p (cs ++ cs') (out ++ out') r := by
  induction h with
  | done hq => exact h'.after hq
  | next hq hc _ ih =>
    rw [List.append_assoc]
    exact .next hq hc (ih h')

theorem Stream.split {cs cs' : List ProtocolCommand} {out : List Packet} (h : Stream p (cs ++ cs') out r) :
    ∃ q out₁ out₂, Stream p cs out₁ q ∧ Stream q cs' out₂ r ∧ out = out₁ ++ out₂ := by
  induction cs generalizing p out with
  | nil => exact ⟨p, [], out, .done (.refl p), h, rfl⟩
  | cons c cs ih =>
    cases h with
    | next hq hc hs =>
      obtain ⟨m, out₁, out₂, h₁, h₂, rfl⟩ := ih hs
      exact ⟨m, _, out₂, .next hq hc h₁, h₂, (List.append_assoc ..).symm⟩

/-! ## Datagrams make a stream -/

/-- The commands a session sends for user packets. -/
def Carried : ProtocolCommand → Prop
  | .Connect .. | .SendReliable .. | .SendFragment .. | .SendUnreliable .. | .SendUnsequenced ..
  | .SendUnreliableFragment .. => True
  | _ => False

/-- The receiver takes any datagram, and reads it as its sender wrote it. -/
structure Receives (config : Config) (p : Peer) : Prop where
  config : p.config = config
  unlimited : p.bandwidth_throttle.incoming_bandwidth_limit = 0

/-- Processing such a command succeeds and leaves the configuration alone. -/
theorem process_carried {config : Config} {c : ProtocolCommand} (hc : Carried c) (h : Receives config p) (t : Instant)
    (draw : UInt16) :
    ∃ p' packets, p.process_command c t draw = .ok (p', .ok packets) ∧ Receives config p' := by
  cases ht : is_traffic c with
  | true =>
    obtain ⟨q, packets, hq, hh, -⟩ := process_command_traffic ht p t draw
    obtain ⟨t, u, hd, n, cq, fs, cs, rfl⟩ := hh.writes
    exact ⟨_, packets, hq, h.config, h.unlimited⟩
  | false =>
    cases c with
    | Connect chs m v sid cid =>
      refine ⟨_, _, process_command_connect .., ?_⟩
      rcases process_connect_writes (p.heard t) chs sid cid draw with he | ⟨i, n, st, v, he, -⟩
      · rw [he]
        exact ⟨h.config, h.unlimited⟩
      · rw [he]
        exact ⟨h.config, h.unlimited⟩
    | _ => first | exact absurd hc id | cases ht

theorem carried_owned {c : ProtocolCommand} (h : Carried c) : Carried c.owned := by
  cases c <;> first | exact trivial | exact absurd h id

theorem process_commands_stream {config : Config} {cmds : List ProtocolCommand} (hc : ∀ c ∈ cmds, Carried c)
    (h : Receives config p) (t : Instant) (draw : UInt16) (acc : IncomingPackets) :
    ∃ p' packets, process_commands t draw cmds p acc = .ok (p', .ok (acc ++ packets)) ∧
      Stream p cmds (packets.map Prod.fst) p' ∧ Receives config p' := by
  induction cmds generalizing p acc with
  | nil => exact ⟨p, [], by simp [process_commands, IncomingPackets.many], .done (.refl p), h⟩
  | cons c cmds ih =>
    obtain ⟨q, packets, hq, hr⟩ := process_carried (hc c (by simp)) h t draw
    obtain ⟨p', more, hp', hs, hr'⟩ := ih (fun c' hc' => hc c' (by simp [hc'])) hr (acc ++ packets)
    refine ⟨p', packets ++ more, ?_, ?_, hr'⟩
    · rw [process_commands, hq, ← List.append_assoc]
      exact hp'
    · rw [List.map_append]
      exact .next (.refl p) hq hs

/-- The packets among a session's events. -/
def emitted (actions : List Action) : List Packet :=
  actions.filterMap fun
    | .Emit (.Packet packet) => some packet
    | _ => none

theorem emitted_append (xs ys : List Action) : emitted (xs ++ ys) = emitted xs ++ emitted ys := List.filterMap_append

theorem emitted_packets (packets : IncomingPackets) :
    emitted (packets.map fun incoming => .Emit (.Packet incoming.1)) = packets.map Prod.fst := by
  simp [emitted, List.filterMap_map]

/-- A new bandwidth window has the old limits. -/
theorem update_bandwidth_window_limits (b : BandwidthThrottle) (t : Instant) :
    (b.update_bandwidth_window t).2.incoming_bandwidth_limit = b.incoming_bandwidth_limit ∧
      (b.update_bandwidth_window t).2.outgoing_bandwidth_limit = b.outgoing_bandwidth_limit := by
  unfold BandwidthThrottle.update_bandwidth_window
  split <;> exact ⟨rfl, rfl⟩

/-- A datagram is processed as the commands it opens to. -/
theorem process_command_packet_stream {config : Config} {bytes : Bytes} {cmds : List ProtocolCommand}
    (h : Receives config p) (ho : OpensTo codecs config bytes cmds) (hc : ∀ c ∈ cmds, Carried c) (t : Instant)
    (draw : UInt16) :
    ∃ q packets, p.process_command_packet codecs bytes t draw = .ok (q, .ok packets) ∧
      Stream p (cmds.map owned) (packets.map Prod.fst) q ∧ Receives config q := by
  have hown : ∀ c ∈ cmds.map owned, Carried c := by
    intro c hm
    obtain ⟨c', hc', rfl⟩ := List.mem_map.1 hm
    exact carried_owned (hc c' hc')
  have hr : Receives config (p.record_data_received bytes.length).record_packet_received := ⟨h.config, h.unlimited⟩
  obtain ⟨q, packets, hq, hs, hr'⟩ := process_commands_stream hown hr t draw []
  refine ⟨q, packets, ?_, hs.after ⟨rfl, rfl, rfl⟩, hr'⟩
  unfold process_command_packet
  dsimp only
  rw [show (p.record_data_received bytes.length).config = config from h.config, ho]
  exact hq

/-- The bookkeeping before a datagram is processed. -/
def counted (p : Peer) (t : Instant) (len : Nat) : Peer :=
  (p.update_bandwidth_window t).record_bytes_received (.ofNat len)

theorem Receives.counted {config : Config} (h : Receives config p) (t : Instant) (len : Nat) :
    Receives config (p.counted t len) :=
  ⟨h.config, (update_bandwidth_window_limits p.bandwidth_throttle t).1.trans h.unlimited⟩

/-- What `process_packet` does with a datagram it is free to take. -/
theorem process_packet_ok {config : Config} {bytes : Bytes} {t : Instant} {draw : UInt16} {packets : IncomingPackets}
    (h : Receives config p) (hb : bytes ≠ [])
    (hq : (p.counted t bytes.length).process_command_packet codecs bytes t draw = .ok (q, .ok packets)) :
    p.process_packet codecs bytes t draw =
      .ok ((if q.record_recv.1 then [.Emit (.Connect q.record_recv.2.remote_address)] else []) ++
        packets.map (fun incoming => .Emit (.Packet incoming.1)), q.record_recv.2) := by
  have hreceive : (p.update_bandwidth_window t).can_receive_within_bandwidth = true := by
    have hl := (h.counted t bytes.length).unlimited
    simp only [can_receive_within_bandwidth, BandwidthThrottle.can_receive_within_bandwidth]
    rw [show (p.update_bandwidth_window t).bandwidth_throttle.incoming_bandwidth_limit = 0 from hl]
    rfl
  unfold process_packet
  rw [if_neg (by simpa using hb)]
  dsimp only
  rw [if_neg (by rw [hreceive]; decide), show (p.update_bandwidth_window t).record_bytes_received
    (.ofNat bytes.length) = p.counted t bytes.length from rfl, hq]

theorem emitted_connect (b : Bool) (addr : SocketAddr) :
    emitted (if b then [.Emit (.Connect addr)] else []) = [] := by
  cases b <;> rfl

/-- A datagram is taken in as the commands it opens to. -/
theorem process_packet_stream {config : Config} {bytes : Bytes} {cmds : List ProtocolCommand} (h : Receives config p)
    (hb : bytes ≠ []) (ho : OpensTo codecs config bytes cmds) (hc : ∀ c ∈ cmds, Carried c) (t : Instant)
    (draw : UInt16) :
    ∃ events p', p.process_packet codecs bytes t draw = .ok (events, p') ∧
      Stream p (cmds.map owned) (emitted events) p' ∧ Receives config p' := by
  obtain ⟨q, packets, hq, hs, hr⟩ := process_command_packet_stream (h.counted t bytes.length) ho hc t draw
  refine ⟨_, _, process_packet_ok h hb hq, ?_, ?_⟩
  · rw [emitted_append, emitted_packets, emitted_connect, List.nil_append]
    obtain ⟨st, hst⟩ := record_recv_writes q
    have hout : SameInbox q q.record_recv.2 := by
      rw [hst]
      exact ⟨rfl, rfl, rfl⟩
    have hall := (hs.append (.done hout)).after (p := p) ⟨rfl, rfl, rfl⟩
    rw [List.append_nil, List.append_nil] at hall
    exact hall
  · obtain ⟨st, hst⟩ := record_recv_writes q
    rw [hst]
    exact ⟨hr.config, hr.unlimited⟩

/-! ## Messages with sequence 0 -/

variable {seen : List UInt8} {ch : UInt8}

/-- The channels in `seen` are stuck, the others are new. -/
structure Channels (seen : List UInt8) (p : Peer) : Prop where
  fresh : ∀ ch ∉ seen, p.channel_state ch = .new
  stuck : ∀ ch ∈ seen, (p.channel_state ch).Stuck

theorem Channels.same (h : Channels seen p) (hs : q.channel_states = p.channel_states) : Channels seen q := by
  have hcs : ∀ ch, q.channel_state ch = p.channel_state ch := fun ch => by
    unfold channel_state
    rw [hs]
  exact ⟨fun ch hch => (hcs ch).trans (h.fresh ch hch), fun ch hch => hcs ch ▸ h.stuck ch hch⟩

theorem deliver_ordered_channel_state (p : Peer) (ch ch' : UInt8) (s : UInt16) (d : SharedBytes) :
    (p.deliver_ordered ch s d).2.channel_state ch' =
      if ch = ch' then ((p.channel_state ch).process_ordered s d).2 else p.channel_state ch' := by
  simp only [deliver_ordered, channel_state, Std.ExtTreeMap.getElem?_insert, Std.compare_eq_iff_eq]
  split <;> rfl

/-- A message with sequence 0 is delivered if it is the first of its channel. -/
theorem Channels.deliver (h : Channels seen p) (ch : UInt8) (d : SharedBytes) :
    (p.deliver_ordered ch 0 d).1 = (if ch ∈ seen then [] else [d]) ∧
      Channels (ch :: seen) (p.deliver_ordered ch 0 d).2 := by
  have hch : ((p.channel_state ch).process_ordered 0 d).1 = (if ch ∈ seen then [] else [d]) ∧
      ((p.channel_state ch).process_ordered 0 d).2.Stuck := by
    by_cases hs : ch ∈ seen
    · rw [if_pos hs]
      exact (h.stuck ch hs).process_ordered d
    · rw [if_neg hs, h.fresh ch hs]
      exact ChannelState.new_process_ordered d
  refine ⟨hch.1, fun ch' hn => ?_, fun ch' hm => ?_⟩
  · rw [List.mem_cons, not_or] at hn
    rw [deliver_ordered_channel_state, if_neg (Ne.symm hn.1)]
    exact h.fresh ch' hn.2
  · rw [deliver_ordered_channel_state]
    split
    · exact hch.2
    · rename_i hne
      exact h.stuck ch' ((List.mem_cons.1 hm).resolve_left (Ne.symm hne))

/-- What the application sees of packets: channels and payloads. -/
def contents (packets : List Packet) : List (UInt8 × Bytes) := packets.map fun packet => (packet.channel_id, packet.payload)

/-- What is delivered of a message. -/
def once (seen : List UInt8) (ch : UInt8) (data : Bytes) : List (UInt8 × Bytes) :=
  if ch ∈ seen then [] else [(ch, data)]

theorem sameInbox_enqueue_command (p : Peer) (c : ProtocolCommand) : SameInbox p (p.enqueue_command c).2 := by
  obtain ⟨n, q, he⟩ := enqueue_command_writes p c
  rw [he]
  exact ⟨rfl, rfl, rfl⟩

theorem sameInbox_enqueue_ack_command (p : Peer) : SameInbox p (p.enqueue_ack_command none) :=
  sameInbox_enqueue_command p _

theorem process_whole {d : SharedBytes} {t : Instant} {draw : UInt16} {packets : IncomingPackets}
    (h : Channels seen p) (he : p.process_command (.SendReliable ch 0 true d) t draw = .ok (p', .ok packets)) :
    Channels (ch :: seen) p' ∧ p'.command_fragments = p.command_fragments ∧
      contents (packets.map Prod.fst) = once seen ch d.as_slice := by
  have hsame := sameInbox_enqueue_ack_command ((p.heard t).process_acknowledge 0 0 t)
  have hq : Channels seen (((p.heard t).process_acknowledge 0 0 t).enqueue_ack_command none) :=
    h.same hsame.channels
  obtain ⟨hout, hch⟩ := hq.deliver ch (.from_arc d.to_arc)
  rw [process_command_reliable] at he
  simp only [Except.ok.injEq, Prod.mk.injEq] at he
  obtain ⟨rfl, rfl⟩ := he
  refine ⟨hch, hsame.fragments, ?_⟩
  change contents (((((p.heard t).process_acknowledge 0 0 t).enqueue_ack_command none).deliver_ordered ch 0
    (.from_arc d.to_arc)).1.map _ |>.map Prod.fst) = _
  rw [hout, once]
  split
  · rfl
  · simp [contents, packet]

end Peer

end Bitfold
