import Bitfold.Messages
/-!
# Channels are isolated

A message that comes whole goes through its own channel only. So a peer that
gets such messages works like one machine for each channel (`receive`), and
what a channel delivers does not depend on the traffic of the others.
-/

namespace Bitfold

open Lib ProtocolCommand

/-- The channel of a message that comes whole. -/
def channel_of : ProtocolCommand → Option UInt8
  | .SendReliable channel_id .. | .SendUnreliable channel_id _ | .SendUnreliableSequenced channel_id .. =>
    some channel_id
  | _ => none

/-- The channel alone: what it does with a message, and what it delivers. -/
def ChannelState.receive (self : ChannelState) (remote_address : SocketAddr) : ProtocolCommand → List Packet × ChannelState
  | .SendReliable channel_id sequence true data =>
    let (ready, self) := self.process_ordered sequence (.from_arc data.to_arc)
    (ready.map fun payload => ⟨remote_address, payload.to_arc, .Reliable, .Ordered none, channel_id⟩, self)
  | .SendReliable channel_id _ false data => ([⟨remote_address, data.to_arc, .Reliable, .None, channel_id⟩], self)
  | .SendUnreliable channel_id data => ([⟨remote_address, data.to_arc, .Unreliable, .None, channel_id⟩], self)
  | .SendUnreliableSequenced channel_id sequence data =>
    let (ready, self) := self.process_sequenced sequence (.from_arc data.to_arc)
    (ready.toList.map fun payload => ⟨remote_address, payload.to_arc, .Unreliable, .Sequenced none, channel_id⟩, self)
  | _ => ([], self)

theorem ChannelState.receive_sequenced (s : ChannelState) (addr : SocketAddr) (ch : UInt8) (sequence : UInt16)
    (data : SharedBytes) : s.receive addr (.SendUnreliableSequenced ch sequence data) =
      ((s.process_sequenced sequence (.from_arc data.to_arc)).1.toList.map
        (fun payload => ⟨addr, payload.to_arc, .Unreliable, .Sequenced none, ch⟩),
        (s.process_sequenced sequence (.from_arc data.to_arc)).2) :=
  rfl

theorem ChannelState.receive_channel {s : ChannelState} {addr : SocketAddr} {c : ProtocolCommand} {ch : UInt8}
    (hc : channel_of c = some ch) : ∀ x ∈ (s.receive addr c).1, x.channel_id = ch := by
  intro x hx
  cases c with
  | SendReliable ch' sequence ordered data =>
    cases hc
    cases ordered with
    | true =>
      obtain ⟨payload, -, rfl⟩ := List.mem_map.1 hx
      rfl
    | false =>
      rw [List.mem_singleton.1 hx]
  | SendUnreliable ch' data =>
    cases hc
    rw [List.mem_singleton.1 hx]
  | SendUnreliableSequenced ch' sequence data =>
    cases hc
    obtain ⟨payload, -, rfl⟩ := List.mem_map.1 hx
    rfl
  | _ => cases hc

namespace Peer

variable {p q : Peer} {c : ProtocolCommand} {ch : UInt8}

/-- What a message did: its channel received it, and nothing else changed
that a delivery depends on. -/
structure Passes (p p' : Peer) (ch : UInt8) (c : ProtocolCommand) (packets : IncomingPackets) : Prop where
  packets : packets.map Prod.fst = ((p.channel_state ch).receive p.remote_address c).1
  channel : p'.channel_state ch = ((p.channel_state ch).receive p.remote_address c).2
  others : ∀ ch', ch' ≠ ch → p'.channel_state ch' = p.channel_state ch'
  address : p'.remote_address = p.remote_address
  fragments : p'.command_fragments = p.command_fragments

theorem insert_channel_state (p : Peer) (ch ch' : UInt8) (s : ChannelState) :
    ({ p with channel_states := p.channel_states.insert ch s } : Peer).channel_state ch' =
      if ch = ch' then s else p.channel_state ch' := by
  simp only [channel_state, Std.ExtTreeMap.getElem?_insert, Std.compare_eq_iff_eq]
  split <;> rfl

/-- A reliable message also updates the acknowledgment handler and queues an
acknowledgment. -/
theorem process_reliable_passes (p : Peer) (ch : UInt8) (s : UInt16) (o : Bool) (d : SharedBytes) (t : Instant)
    (draw : UInt16) : ∃ p' packets, p.process_command (.SendReliable ch s o d) t draw = .ok (p', .ok packets) ∧
      Passes p p' ch (.SendReliable ch s o d) packets := by
  refine ⟨_, _, process_command_reliable .., ?_⟩
  obtain ⟨w, cq, he⟩ : ∃ w cq, ((p.heard t).process_acknowledge s 0 t).enqueue_ack_command none = _ :=
    enqueue_command_writes ..
  unfold process_send_reliable
  dsimp only
  rw [he]
  cases o with
  | true =>
    refine ⟨?_, ?_, fun ch' hne => ?_, rfl, rfl⟩
    · simp only [if_true, IncomingPackets.many, List.map_map]
      rfl
    · exact (deliver_ordered_channel_state ..).trans (if_pos rfl)
    · exact (deliver_ordered_channel_state ..).trans (if_neg hne.symm)
  | false => exact ⟨rfl, rfl, fun _ _ => rfl, rfl, rfl⟩

/-- One message. -/
theorem process_message (p : Peer) (hc : channel_of c = some ch) (t : Instant) (draw : UInt16) :
    ∃ p' packets, p.process_command c t draw = .ok (p', .ok packets) ∧ Passes p p' ch c packets := by
  cases c with
  | SendReliable ch' s o d =>
    cases hc
    exact process_reliable_passes p ch s o d t draw
  | SendUnreliable ch' d =>
    cases hc
    exact ⟨_, _, rfl, rfl, rfl, fun _ _ => rfl, rfl, rfl⟩
  | SendUnreliableSequenced ch' s d =>
    cases hc
    refine ⟨_, _, process_command_unreliable_sequenced .., ?_⟩
    have hreceive := (p.channel_state ch).receive_sequenced p.remote_address ch s d
    unfold process_send_unreliable_sequenced
    rw [show (p.heard t).channel_state ch = p.channel_state ch from rfl]
    cases hs : (p.channel_state ch).process_sequenced s (.from_arc d.to_arc) with
    | mk ready cs =>
      rw [hs] at hreceive
      cases ready with
      | some payload =>
        refine ⟨?_, ?_, fun ch' hne => (insert_channel_state ..).trans (if_neg hne.symm), rfl, rfl⟩
        · rw [hreceive]
          rfl
        · rw [hreceive]
          exact (insert_channel_state ..).trans (if_pos rfl)
      | none =>
        refine ⟨?_, ?_, fun ch' hne => (insert_channel_state ..).trans (if_neg hne.symm), rfl, rfl⟩
        · rw [hreceive]
          rfl
        · rw [hreceive]
          exact (insert_channel_state ..).trans (if_pos rfl)
  | _ => cases hc

/-! ## Two runs -/

/-- Two peers that a channel cannot tell apart. -/
structure SameChannel (ch : UInt8) (p q : Peer) : Prop where
  channel : p.channel_state ch = q.channel_state ch
  address : p.remote_address = q.remote_address

/-- Is this a command of the channel? -/
def on_channel (ch : UInt8) (a : Arrival) : Bool := channel_of a.1 == some ch

/-- What the commands of a channel delivered, one list for each. -/
def outs_on (ch : UInt8) (arrivals : List Arrival) (outs : List (List Packet)) : List (List Packet) :=
  ((arrivals.zip outs).filter fun x => on_channel ch x.1).map Prod.snd

theorem outs_on_cons (ch : UInt8) (a : Arrival) (arrivals : List Arrival) (out : List Packet)
    (outs : List (List Packet)) : outs_on ch (a :: arrivals) (out :: outs) =
      if on_channel ch a then out :: outs_on ch arrivals outs else outs_on ch arrivals outs := by
  unfold outs_on
  rw [List.zip_cons_cons, List.filter_cons]
  split <;> rfl

/-- Peers that agree on a channel deliver the same on it, command by command,
when one of them gets the commands of the other channels, too. -/
theorem arrive_isolated {arrivals : List Arrival} (hk : ∀ a ∈ arrivals, (channel_of a.1).isSome) (h : SameChannel ch p q) :
    ∃ outs p' outs' q', arrive p arrivals = .ok (outs, p') ∧
      arrive q (arrivals.filter (on_channel ch)) = .ok (outs', q') ∧ SameChannel ch p' q' ∧
      outs_on ch arrivals outs = outs' ∧
      outs.flatten.filter (fun x => x.channel_id == ch) = outs'.flatten := by
  induction arrivals generalizing p q with
  | nil => exact ⟨[], p, [], q, rfl, rfl, h, rfl, rfl⟩
  | cons a arrivals ih =>
    obtain ⟨c, t, draw⟩ := a
    obtain ⟨ch', hch'⟩ := Option.isSome_iff_exists.1 (hk _ List.mem_cons_self)
    have hrest := fun a ha => hk a (List.mem_cons_of_mem _ ha)
    obtain ⟨p₁, packets, hp, hpass⟩ := process_message p hch' t draw
    have hchan : ∀ x ∈ packets.map Prod.fst, x.channel_id = ch' := by
      rw [hpass.packets]
      exact ChannelState.receive_channel hch'
    by_cases hon : ch' = ch
    · -- a command of the channel: both peers process it
      subst hon
      obtain ⟨q₁, packets', hq, hpass'⟩ := process_message q hch' t draw
      have hsame : packets.map Prod.fst = packets'.map Prod.fst := by
        rw [hpass.packets, hpass'.packets, h.channel, h.address]
      have hsame' : SameChannel ch' p₁ q₁ := by
        refine ⟨?_, ?_⟩
        · rw [hpass.channel, hpass'.channel, h.channel, h.address]
        · rw [hpass.address, hpass'.address, h.address]
      obtain ⟨outs, p', outs', q', hps, hqs, hend, hon, hflat⟩ := ih hrest hsame'
      have htrue : on_channel ch' (c, t, draw) = true := by simp [on_channel, hch']
      refine ⟨_, p', packets'.map Prod.fst :: outs', q', arrive_cons hp hps, ?_, hend, ?_, ?_⟩
      · rw [List.filter_cons_of_pos htrue]
        exact arrive_cons hq hqs
      · rw [outs_on_cons, if_pos htrue, hon, hsame]
      · rw [List.flatten_cons, List.filter_append, List.flatten_cons, hflat, ← hsame]
        congr 1
        apply List.filter_eq_self.2
        intro x hx
        rw [beq_iff_eq]
        exact hchan x hx
    · -- a command of another channel: the channel does not see it
      have hsame' : SameChannel ch p₁ q := by
        refine ⟨?_, ?_⟩
        · rw [hpass.others ch (Ne.symm hon), h.channel]
        · rw [hpass.address, h.address]
      obtain ⟨outs, p', outs', q', hps, hqs, hend, hon', hflat⟩ := ih hrest hsame'
      have hfalse : ¬ on_channel ch (c, t, draw) = true := by simp [on_channel, hch', hon]
      refine ⟨_, p', outs', q', arrive_cons hp hps, ?_, hend, ?_, ?_⟩
      · rw [List.filter_cons_of_neg hfalse]
        exact hqs
      · rw [outs_on_cons, if_neg hfalse]
        exact hon'
      · rw [List.flatten_cons, List.filter_append, hflat]
        refine (congrArg (· ++ _) (List.filter_eq_nil_iff.2 fun x hx => ?_)).trans (List.nil_append _)
        rw [beq_iff_eq, hchan x hx]
        exact hon

/-- What is delivered on a channel is what would be delivered if only its own
commands arrived, packet by packet and at the same commands. -/
theorem channel_isolation (p : Peer) (ch : UInt8) {arrivals : List Arrival}
    (hk : ∀ a ∈ arrivals, (channel_of a.1).isSome) :
    ∃ outs p' outs' q', arrive p arrivals = .ok (outs, p') ∧
      arrive p (arrivals.filter (on_channel ch)) = .ok (outs', q') ∧
      outs.flatten.filter (fun x => x.channel_id == ch) = outs'.flatten ∧ outs_on ch arrivals outs = outs' := by
  obtain ⟨outs, p', outs', q', hp, hq, -, hon, hflat⟩ := arrive_isolated hk (⟨rfl, rfl⟩ : SameChannel ch p p)
  exact ⟨outs, p', outs', q', hp, hq, hflat, hon⟩

/-- A message with sequence 1 waits on channel 0, and channel 1 is not held up
by it. -/
theorem channel_isolation_two_channels :
    ∃ outs p' outs' q', arrive (.new ⟨.V4 0, 0⟩ Config.default 0 ⟨0, 0, 0⟩)
        [(.SendReliable 0 1 true (.from_arc [7]), 0, 0), (.SendReliable 1 0 true (.from_arc [8]), 0, 0)] =
          .ok (outs, p') ∧
      arrive (.new ⟨.V4 0, 0⟩ Config.default 0 ⟨0, 0, 0⟩) [(.SendReliable 1 0 true (.from_arc [8]), 0, 0)] = .ok (outs', q') ∧
      outs.flatten.filter (fun x => x.channel_id == 1) = outs'.flatten := by
  have hk : ∀ a ∈ [((.SendReliable 0 1 true (.from_arc [7]), 0, 0) : Arrival),
      (.SendReliable 1 0 true (.from_arc [8]), 0, 0)], (channel_of a.1).isSome := by
    simp [channel_of]
  obtain ⟨outs, p', outs', q', hp, hq, hflat, -⟩ := channel_isolation (.new ⟨.V4 0, 0⟩ Config.default 0 ⟨0, 0, 0⟩) 1 hk
  exact ⟨outs, p', outs', q', hp, hq, hflat⟩

end Peer

end Bitfold
