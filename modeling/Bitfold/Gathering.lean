import Bitfold.Isolation
/-!
# Gathering messages

Reliable messages with their own sequences, each sent whole or as a group of
fragments. Their commands may come in any order and any number of times. A
message is complete whenever all its parts have come since it was complete the
last time (`gather`); the peer's fragment buffers hold just the parts gathered
so far, and a command does something to a channel only when it completes its
message (`process_part`).
-/

namespace Bitfold

open Lib ProtocolCommand

/-- How a message travels: in one command, or as a group of fragments. -/
inductive Carriage where
  | Whole (data : Bytes)
  | Fragments (chunks : List Bytes) (pos : 0 < chunks.length) (few : chunks.length ≤ 255)
deriving DecidableEq

/-- A reliable message. -/
structure Message where
  channel_id : UInt8
  sequence : UInt16
  ordered : Bool
  carriage : Carriage
deriving DecidableEq

namespace Message

variable {m m' : Message} {c : ProtocolCommand} {j : UInt8}

def payload (m : Message) : Bytes :=
  match m.carriage with
  | .Whole data => data
  | .Fragments chunks .. => chunks.flatten

/-- The number of its commands. -/
def parts (m : Message) : Nat :=
  match m.carriage with
  | .Whole _ => 1
  | .Fragments chunks .. => chunks.length

/-- The fragments as a group. -/
def group (m : Message) (chunks : List Bytes) : Group where
  mode := .Reliable m.ordered
  channel_id := m.channel_id
  sequence := m.sequence
  fragment_count := .ofNat chunks.length
  chunk j := chunks.getD j.toNat []

/-- Its commands. -/
def commands (m : Message) : List ProtocolCommand :=
  match m.carriage with
  | .Whole data => [.SendReliable m.channel_id m.sequence m.ordered (.from_vec data)]
  | .Fragments chunks .. => chunks.mapIdx fun j chunk =>
    .SendFragment m.channel_id m.sequence m.ordered (.ofNat j) (.ofNat chunks.length) (.from_vec chunk)

/-- Which part of the message a command carries, if any. -/
def part (m : Message) (c : ProtocolCommand) : Option UInt8 :=
  match m.carriage, c with
  | .Whole data, .SendReliable channel_id sequence ordered d =>
    if channel_id = m.channel_id ∧ sequence = m.sequence ∧ ordered = m.ordered ∧ d.as_slice = data then some 0 else none
  | .Fragments chunks .., .SendFragment channel_id sequence ordered fragment_id fragment_count d =>
    if channel_id = m.channel_id ∧ sequence = m.sequence ∧ ordered = m.ordered ∧
        fragment_count = .ofNat chunks.length ∧ chunks[fragment_id.toNat]? = some d.as_slice then some fragment_id
    else none
  | _, _ => none

/-! ## Gathering -/

/-- Is the message complete with this part beside those gathered? -/
def completes (m : Message) (held : Finset UInt8) (j : UInt8) : Bool :=
  decide (∀ i < m.parts, UInt8.ofNat i ∈ insert j held)

/-- A command comes: the parts gathered since the message was complete the last
time, and how often it has been. -/
def gather (m : Message) (g : Finset UInt8 × Nat) (c : ProtocolCommand) : Finset UInt8 × Nat :=
  match m.part c with
  | none => g
  | some j => if m.completes g.1 j then (∅, g.2 + 1) else (insert j g.1, g.2)

def gathered (m : Message) (cmds : List ProtocolCommand) : Finset UInt8 × Nat := cmds.foldl m.gather (∅, 0)

/-- How often the message has been complete. -/
def completions (m : Message) (cmds : List ProtocolCommand) : Nat := (m.gathered cmds).2

theorem gathered_append (m : Message) (cmds : List ProtocolCommand) (c : ProtocolCommand) :
    m.gathered (cmds ++ [c]) = m.gather (m.gathered cmds) c := by
  simp [gathered]

theorem gather_times_le (m : Message) (g : Finset UInt8 × Nat) (c : ProtocolCommand) : g.2 ≤ (m.gather g c).2 := by
  unfold gather
  split
  · exact le_rfl
  · split
    · exact Nat.le_succ _
    · exact le_rfl

/-- A message that has been complete stays counted. -/
theorem completions_le_append (m : Message) (cmds more : List ProtocolCommand) :
    m.completions cmds ≤ m.completions (cmds ++ more) := by
  unfold completions gathered
  rw [List.foldl_append]
  generalize cmds.foldl m.gather (∅, 0) = g
  induction more generalizing g with
  | nil => exact le_rfl
  | cons c more ih => exact (m.gather_times_le g c).trans (ih _)

/-- What the commands of a message look like. -/
theorem part_cases (h : m.part c = some j) :
    (∃ d, m.carriage = .Whole d.as_slice ∧ j = 0 ∧ c = .SendReliable m.channel_id m.sequence m.ordered d) ∨
    (∃ chunks pos few d, m.carriage = .Fragments chunks pos few ∧ chunks[j.toNat]? = some d.as_slice ∧
      c = .SendFragment m.channel_id m.sequence m.ordered j (.ofNat chunks.length) d) := by
  unfold part at h
  split at h
  · rename_i hm
    split at h
    · rename_i hc
      obtain ⟨rfl, rfl, rfl, rfl⟩ := hc
      exact .inl ⟨_, hm, (Option.some.inj h).symm, rfl⟩
    · cases h
  · rename_i hm
    split at h
    · rename_i hc
      obtain ⟨rfl, rfl, rfl, rfl, hd⟩ := hc
      cases h
      exact .inr ⟨_, _, _, _, hm, hd, rfl⟩
    · cases h
  · cases h

/-- The sequence of a command says which message it is part of. -/
theorem feeds_of_part (h : m.part c = some j) : AcknowledgmentHandler.feeds c = some m.sequence := by
  rcases part_cases h with ⟨d, -, -, rfl⟩ | ⟨chunks, pos, few, d, -, -, rfl⟩
  · rfl
  · rfl

theorem part_lt (h : m.part c = some j) : j.toNat < m.parts := by
  rcases part_cases h with ⟨d, hm, rfl, -⟩ | ⟨chunks, pos, few, d, hm, hd, -⟩
  · rw [parts, hm]
    exact Nat.one_pos
  · rw [parts, hm]
    exact (List.getElem?_eq_some_iff.1 hd).1

theorem parts_le (m : Message) : 0 < m.parts ∧ m.parts ≤ 255 := by
  unfold parts
  split
  · decide
  · rename_i pos few _
    exact ⟨pos, few⟩

theorem commands_length (m : Message) : m.commands.length = m.parts := by
  unfold commands parts
  split <;> simp_all

/-- The `i`-th command of a message carries its `i`-th part. -/
theorem part_of_getElem {i : Nat} (h : m.commands[i]? = some c) : m.part c = some (.ofNat i) := by
  unfold commands at h
  unfold part
  split at h
  · rename_i hm
    obtain ⟨hi, rfl⟩ := List.getElem?_eq_some_iff.1 h
    obtain rfl : i = 0 := by simpa using hi
    rw [hm]
    exact if_pos ⟨rfl, rfl, rfl, by simp⟩
  · rename_i chunks pos few hm
    rw [List.getElem?_mapIdx, Option.map_eq_some_iff] at h
    obtain ⟨chunk, hchunk, rfl⟩ := h
    rw [hm]
    refine if_pos ⟨rfl, rfl, rfl, rfl, ?_⟩
    have hi' : (UInt8.ofNat i).toNat = i := by
      have := (List.getElem?_eq_some_iff.1 hchunk).1
      rw [UInt8.toNat_ofNat']
      omega
    rw [hi', hchunk, SharedBytes.as_slice_from_vec]

theorem part_owned (m : Message) (c : ProtocolCommand) : m.part c.owned = m.part c := by
  unfold part
  cases m.carriage with
  | Whole data => cases c <;> simp [owned]
  | Fragments chunks pos few => cases c <;> simp [owned]

/-- Up to the buffers their data lie in, the commands that carry a part are
one command. -/
theorem part_eq_some_iff : m.part c = some j ↔ m.commands[j.toNat]? = some c.owned := by
  constructor
  · intro h
    unfold commands
    rcases part_cases h with ⟨d, hm, rfl, rfl⟩ | ⟨chunks, pos, few, d, hm, hd, rfl⟩
    · rw [hm]
      rfl
    · rw [hm]
      simp [hd, owned]
  · intro h
    rw [← part_owned, part_of_getElem h, UInt8.ofNat_toNat]

theorem group_count (m : Message) {chunks : List Bytes} (few : chunks.length ≤ 255) :
    (m.group chunks).fragment_count.toNat = chunks.length := by
  change (UInt8.ofNat chunks.length).toNat = _
  rw [UInt8.toNat_ofNat']
  omega

/-- The chunks of the group, one after the other, are the message. -/
theorem group_data (m : Message) {chunks : List Bytes} (few : chunks.length ≤ 255) :
    (m.group chunks).data = chunks.flatten := by
  unfold Group.data
  rw [m.group_count few, List.map_map]
  congr 1
  apply List.ext_getElem (by simp)
  intro i hi hi'
  have hlt : i % 256 = i := Nat.mod_eq_of_lt (by omega)
  simp [group, hlt, List.getElem?_eq_getElem hi']

end Message

namespace Peer

open Message

variable {p p' : Peer} {m m' : Message} {held : Finset UInt8} {c : ProtocolCommand} {j : UInt8}

/-- The buffer under the message's sequence holds just these parts. -/
def Gathers (m : Message) (held : Finset UInt8) (p : Peer) : Prop :=
  match m.carriage with
  | .Whole _ => True
  | .Fragments chunks .. => Joins (m.group chunks) p ∧ ∀ i, p.Held (m.group chunks) i ↔ i ∈ held

end Peer

namespace Message

/-- What a complete message does to its channel, and what is delivered: an
ordered one goes through the channel, another one is delivered at once. -/
def deliver (m : Message) (s : ChannelState) : List Bytes × ChannelState :=
  if m.ordered then
    ((s.process_ordered m.sequence (.from_vec m.payload)).1.map SharedBytes.as_slice,
      (s.process_ordered m.sequence (.from_vec m.payload)).2)
  else ([m.payload], s)

end Message

namespace Peer

open Message

variable {p p' : Peer} {m m' : Message} {held : Finset UInt8} {c : ProtocolCommand} {j : UInt8}

/-- What a command of a message does to the channels and the buffers. -/
structure Takes (p p' : Peer) (m : Message) (held : Finset UInt8) (j : UInt8) (packets : IncomingPackets) : Prop where
  contents : contents (packets.map Prod.fst) = if m.completes held j then
    (m.deliver (p.channel_state m.channel_id)).1.map fun bytes => (m.channel_id, bytes) else []
  channel : p'.channel_state m.channel_id =
    if m.completes held j then (m.deliver (p.channel_state m.channel_id)).2 else p.channel_state m.channel_id
  others : ∀ ch, ch ≠ m.channel_id → p'.channel_state ch = p.channel_state ch
  gathers : Gathers m (if m.completes held j then ∅ else insert j held) p'
  fragments : ∀ s, s ≠ m.sequence → p'.command_fragments[s]? = p.command_fragments[s]?

/-- A message that comes whole is complete at once. -/
theorem process_whole_part {d : SharedBytes} (hm : m.carriage = .Whole d.as_slice) (held : Finset UInt8) (t : Instant)
    (draw : UInt16) :
    ∃ p' packets, p.process_command (.SendReliable m.channel_id m.sequence m.ordered d) t draw =
      .ok (p', .ok packets) ∧ Takes p p' m held 0 packets := by
  obtain ⟨p', packets, he, hpass⟩ := process_reliable_passes p m.channel_id m.sequence m.ordered d t draw
  have hparts : m.parts = 1 := by rw [parts, hm]
  have hcomplete : m.completes held 0 = true := by
    rw [Message.completes, hparts, decide_eq_true_eq]
    intro i hi
    obtain rfl : i = 0 := by omega
    simp
  have hpayload : m.payload = d.as_slice := by rw [Message.payload, hm]
  refine ⟨p', packets, he, ?_, ?_, hpass.others, ?_, fun s _ => by rw [hpass.fragments]⟩
  · rw [if_pos hcomplete, contents, hpass.packets, deliver, hpayload]
    cases m.ordered with
    | true => simp [ChannelState.receive, SharedBytes.from_vec]
    | false => simp [ChannelState.receive]
  · rw [if_pos hcomplete, hpass.channel, deliver, hpayload]
    cases m.ordered with
    | true => simp [ChannelState.receive, SharedBytes.from_vec]
    | false => simp [ChannelState.receive]
  · rw [Gathers, hm]
    trivial

theorem channel_state_congr {q : Peer} (h : q.channel_states = p.channel_states) (ch : UInt8) :
    q.channel_state ch = p.channel_state ch := by
  unfold channel_state
  rw [h]

theorem completes_iff_held {chunks : List Bytes} {pos : 0 < chunks.length} {few : chunks.length ≤ 255}
    (hm : m.carriage = .Fragments chunks pos few) (hheld : ∀ i, p.Held (m.group chunks) i ↔ i ∈ held) :
    m.completes held j = true ↔ ∀ i < (m.group chunks).fragment_count, i ≠ j → p.Held (m.group chunks) i := by
  have hparts : m.parts = chunks.length := by rw [parts, hm]
  have hcount := m.group_count few
  rw [Message.completes, hparts, decide_eq_true_eq]
  constructor
  · intro h i hi hne
    rw [UInt8.lt_iff_toNat_lt, hcount] at hi
    have hmem := h i.toNat hi
    rw [UInt8.ofNat_toNat, Finset.mem_insert] at hmem
    exact (hheld i).2 (hmem.resolve_left hne)
  · intro h i hi
    rw [Finset.mem_insert]
    by_cases hj : UInt8.ofNat i = j
    · exact .inl hj
    · refine .inr ((hheld _).1 (h _ ?_ hj))
      rw [UInt8.lt_iff_toNat_lt, hcount, UInt8.toNat_ofNat']
      omega

/-- A fragment joins the others of its message, and completes it or not. -/
theorem process_fragment_part {chunks : List Bytes} {pos : 0 < chunks.length} {few : chunks.length ≤ 255}
    {d : SharedBytes} (hm : m.carriage = .Fragments chunks pos few) (hd : chunks[j.toNat]? = some d.as_slice)
    (hg : Gathers m held p) (t : Instant) (draw : UInt16) :
    ∃ p' packets, p.process_command (.SendFragment m.channel_id m.sequence m.ordered j (.ofNat chunks.length) d) t
      draw = .ok (p', .ok packets) ∧ Takes p p' m held j packets := by
  rw [Gathers, hm] at hg
  obtain ⟨hjoins, hheld⟩ := hg
  have hj : j < (m.group chunks).fragment_count := by
    rw [UInt8.lt_iff_toNat_lt, m.group_count few]
    exact (List.getElem?_eq_some_iff.1 hd).1
  have hchunk : d.as_slice = (m.group chunks).chunk j := by
    change d.as_slice = chunks.getD j.toNat []
    rw [List.getD_eq_getElem?_getD, hd, Option.getD_some]
  obtain ⟨p', packets, he, hcase⟩ := process_fragment hjoins hj hchunk t draw
  refine ⟨p', packets, he, ?_⟩
  have hcomplete := completes_iff_held (j := j) hm hheld
  rcases hcase with ⟨⟨i, hi, hne, hmiss⟩, hkept⟩ | ⟨hall, hdone⟩
  · have hno : ¬ m.completes held j = true := fun h => hmiss (hcomplete.1 h i hi hne)
    refine ⟨?_, ?_, fun ch _ => channel_state_congr hkept.channels ch, ?_, fun s hs => ?_⟩
    · rw [if_neg hno, hkept.packets]
      rfl
    · rw [if_neg hno]
      exact channel_state_congr hkept.channels _
    · rw [if_neg hno, Gathers, hm]
      refine ⟨hkept.joins (hjoins.joined hj hchunk t), fun i => ?_⟩
      rw [hkept.held_iff, hheld, Finset.mem_insert]
    · rw [hkept.fragments, Std.ExtTreeMap.getElem?_insert, if_neg]
      rw [Std.compare_eq_iff_eq]
      exact Ne.symm hs
  · have hyes : m.completes held j = true := hcomplete.2 hall
    have hpayload : m.payload = (m.group chunks).data := by rw [m.group_data few, Message.payload, hm]
    have hchannels : ∀ ch, p'.channel_state ch = if m.ordered = true ∧ ch = m.channel_id then
        ((p.channel_state m.channel_id).process_ordered m.sequence (.from_vec m.payload)).2
        else p.channel_state ch := by
      intro ch
      have hc := hdone.channels
      unfold Peer.completes at hc
      rw [show (m.group chunks).mode.ordered = m.ordered from rfl, ← hpayload] at hc
      cases ho : m.ordered with
      | true =>
        rw [ho, if_pos rfl] at hc
        rw [channel_state_congr hc, deliver_ordered_channel_state]
        by_cases hch : m.channel_id = ch
        · subst hch
          simp [Message.group]
        · rw [if_neg (by exact hch), if_neg fun h => hch h.2.symm]
      | false =>
        rw [ho, if_neg (by decide)] at hc
        rw [channel_state_congr hc, if_neg (by simp)]
    refine ⟨?_, ?_, fun ch hne => ?_, ?_, fun s hs => ?_⟩
    · rw [if_pos hyes, hdone.packets, deliver, hpayload]
      unfold contents released Peer.completes
      rw [show (m.group chunks).mode.ordered = m.ordered from rfl]
      cases m.ordered with
      | true => simp [deliver_ordered, Message.group, Peer.packet]
      | false => simp [Message.group, Peer.packet]
    · rw [if_pos hyes, hchannels, deliver]
      cases m.ordered with
      | true => simp
      | false => simp
    · rw [hchannels, if_neg fun h => hne h.2]
    · rw [if_pos hyes, Gathers, hm]
      have hnone := hdone.open_none
      refine ⟨fun b hb => ?_, fun i => ?_⟩
      · rw [hnone] at hb
        cases hb
      · unfold Held
        rw [hnone]
        simp
    · rw [hdone.fragments, Std.ExtTreeMap.getElem?_erase, if_neg]
      rw [Std.compare_eq_iff_eq]
      exact Ne.symm hs

/-- One command of a message. -/
theorem process_part (hg : Gathers m held p) (hc : m.part c = some j) (t : Instant) (draw : UInt16) :
    ∃ p' packets, p.process_command c t draw = .ok (p', .ok packets) ∧ Takes p p' m held j packets := by
  rcases part_cases hc with ⟨d, hm, rfl, rfl⟩ | ⟨chunks, pos, few, d, hm, hd, rfl⟩
  · exact process_whole_part hm held t draw
  · exact process_fragment_part hm hd hg t draw

/-- The messages with other sequences are left alone. -/
theorem Gathers.other (h : Gathers m' held p) (hf : p'.command_fragments[m'.sequence]? = p.command_fragments[m'.sequence]?) :
    Gathers m' held p' := by
  unfold Gathers Joins Held at *
  split
  · trivial
  · rename_i hm
    rw [hm] at h
    have hs : ∀ chunks, (m'.group chunks).sequence = m'.sequence := fun _ => rfl
    simp only [hs] at h ⊢
    rw [hf]
    exact h

theorem gathers_new (m : Message) (addr : SocketAddr) (config : Config) (time : Instant) (draw : PeerDraw) :
    Gathers m ∅ (.new addr config time draw) := by
  have hnone : ∀ s : UInt16, (Peer.new addr config time draw).command_fragments[s]? = none := fun s => by
    simp [Peer.new]
  unfold Gathers Joins Held
  split
  · trivial
  · simp [hnone]

end Peer

end Bitfold
