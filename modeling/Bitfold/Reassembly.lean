import Bitfold.Delivery
/-!
# Reassembly

How a peer puts the fragments of a message together again. A buffer that was
started by a fragment of a message, and to which only fragments of that
message were added (`Partial`), is complete when every fragment has been
added, and is then the message (`Partial.reassemble`). `process_fragment` is
what the arrival of one fragment does.
-/

namespace Bitfold

open Lib ProtocolCommand

/-! ## Groups of fragments -/

/-- How a fragmented message is sent. -/
inductive Mode where
  | Reliable (ordered : Bool)
  | Unreliable
deriving DecidableEq, Repr

namespace Mode

def delivery : Mode → DeliveryGuarantee
  | Reliable _ => .Reliable
  | Unreliable => .Unreliable

def ordered : Mode → Bool
  | Reliable ordered => ordered
  | Unreliable => false

/-- The command that carries a fragment. -/
def fragment (mode : Mode) (channel_id : UInt8) (sequence : UInt16) (fragment_id fragment_count : UInt8)
    (data : SharedBytes) : ProtocolCommand :=
  match mode with
  | Reliable ordered => .SendFragment channel_id sequence ordered fragment_id fragment_count data
  | Unreliable => .SendUnreliableFragment channel_id sequence fragment_id fragment_count data

end Mode

/-- The fragments of one message. -/
structure Group where
  mode : Mode
  channel_id : UInt8
  sequence : UInt16
  fragment_count : UInt8
  chunk : UInt8 → Bytes

namespace Group

/-- The command of one of its fragments. -/
def command (g : Group) (j : UInt8) (d : SharedBytes) : ProtocolCommand :=
  g.mode.fragment g.channel_id g.sequence j g.fragment_count d

/-- The message. -/
def data (g : Group) : Bytes := (((List.range g.fragment_count.toNat).map UInt8.ofNat).map g.chunk).flatten

end Group

namespace CommandFragmentBuffer

/-! ## Buffers -/

variable {g : Group} {b : CommandFragmentBuffer} {j : UInt8}

/-- Fragments that are all there are collected in order. -/
theorem collect_eq {ids : List UInt8} {fragments : Std.ExtTreeMap UInt8 Bytes} {chunk : UInt8 → Bytes}
    (hn : ids.Nodup) (h : ∀ i ∈ ids, fragments[i]? = some (chunk i)) :
    collect fragments ids = some ((ids.map chunk).flatten) := by
  induction ids generalizing fragments with
  | nil => rfl
  | cons i ids ih =>
    rw [List.nodup_cons] at hn
    have hrest : collect (fragments.erase i) ids = some ((ids.map chunk).flatten) := by
      apply ih hn.2
      intro j hj
      have hij : i ≠ j := fun he => hn.1 (he ▸ hj)
      rw [Std.ExtTreeMap.getElem?_erase, if_neg (by rw [Std.compare_eq_iff_eq]; exact hij)]
      exact h j (by simp [hj])
    rw [collect, h i (by simp)]
    simp [hrest]

/-- A buffer with fragments of one message only. -/
structure Partial (g : Group) (b : CommandFragmentBuffer) : Prop where
  channel : b.channel_id = g.channel_id
  count : b.fragment_count = g.fragment_count
  ordered : b.ordered = g.mode.ordered
  fragments : ∀ j d, b.fragments[j]? = some d → j < g.fragment_count ∧ d = g.chunk j

theorem partial_new (g : Group) (t : Instant) : Partial g (.new g.channel_id g.fragment_count g.mode.ordered t) :=
  ⟨rfl, rfl, rfl, fun j d h => by simp [new] at h⟩

theorem Partial.add_fragment (h : Partial g b) (hj : j < g.fragment_count) : Partial g (b.add_fragment j (g.chunk j)) := by
  refine ⟨h.channel, h.count, h.ordered, fun i d hi => ?_⟩
  simp only [CommandFragmentBuffer.add_fragment, Std.ExtTreeMap.getElem?_insert, Std.compare_eq_iff_eq] at hi
  split at hi
  · rename_i he
    subst he
    exact ⟨hj, (Option.some.inj hi).symm⟩
  · exact h.fragments i d hi

theorem mem_add_fragment (b : CommandFragmentBuffer) (j i : UInt8) (d : Bytes) :
    i ∈ (b.add_fragment j d).fragments ↔ i = j ∨ i ∈ b.fragments := by
  rw [add_fragment, Std.ExtTreeMap.mem_insert, Std.compare_eq_iff_eq, eq_comm]

/-- The ids that `reassemble` asks for. -/
theorem mem_ids {n i : UInt8} : i ∈ (List.range n.toNat).map UInt8.ofNat ↔ i < n := by
  rw [List.mem_map, UInt8.lt_iff_toNat_lt]
  constructor
  · rintro ⟨k, hk, rfl⟩
    have hlt := List.mem_range.1 hk
    have := n.toNat_lt
    rw [UInt8.toNat_ofNat']
    omega
  · intro hi
    exact ⟨i.toNat, List.mem_range.2 hi, UInt8.ofNat_toNat⟩

theorem nodup_ids (n : UInt8) : ((List.range n.toNat).map UInt8.ofNat).Nodup := by
  refine List.Nodup.map_on ?_ List.nodup_range
  intro i hi j hj he
  have hi' := List.mem_range.1 hi
  have hj' := List.mem_range.1 hj
  have := n.toNat_lt
  have heq := congrArg UInt8.toNat he
  rw [UInt8.toNat_ofNat', UInt8.toNat_ofNat'] at heq
  omega

/-- The ids of a message of `n` fragments. -/
def ids_below (n : UInt8) : Finset UInt8 := ((List.range n.toNat).map UInt8.ofNat).toFinset

theorem mem_ids_below {n i : UInt8} : i ∈ ids_below n ↔ i < n := by
  rw [ids_below, List.mem_toFinset, mem_ids]

theorem card_ids_below (n : UInt8) : (ids_below n).card = n.toNat := by
  rw [ids_below, List.toFinset_card_of_nodup (nodup_ids n), List.length_map, List.length_range]

/-- The ids that are in a map. -/
def ids_of (fragments : Std.ExtTreeMap UInt8 Bytes) : Finset UInt8 := fragments.keys.toFinset

theorem mem_ids_of {fragments : Std.ExtTreeMap UInt8 Bytes} {i : UInt8} : i ∈ ids_of fragments ↔ i ∈ fragments := by
  rw [ids_of, List.mem_toFinset, Std.ExtTreeMap.mem_keys]

/-- A map has `n` fragments iff as many ids below `n` are missing as there are
others in their place. -/
theorem size_eq_iff_card (fragments : Std.ExtTreeMap UInt8 Bytes) (n : UInt8) :
    fragments.size = n.toNat ↔ (ids_below n \ ids_of fragments).card = (ids_of fragments \ ids_below n).card := by
  have hcard : (ids_of fragments).card = fragments.size := by
    rw [ids_of, List.toFinset_card_of_nodup Std.ExtTreeMap.nodup_keys, Std.ExtTreeMap.length_keys]
  rw [Finset.card_sdiff_eq_card_sdiff_iff, card_ids_below, hcard, eq_comm]

theorem ids_below_subset {n : UInt8} {ids : Finset UInt8} : ids_below n ⊆ ids ↔ ∀ j < n, j ∈ ids := by
  constructor
  · intro h j hj
    exact h (mem_ids_below.2 hj)
  · intro h j hj
    exact h j (mem_ids_below.1 hj)

/-- A map whose keys are below `n` has `n` of them when every one is there. -/
theorem size_eq_iff {fragments : Std.ExtTreeMap UInt8 Bytes} {n : UInt8} (h : ∀ j ∈ fragments, j < n) :
    fragments.size = n.toNat ↔ ∀ j < n, j ∈ fragments := by
  have hstray : ids_of fragments \ ids_below n = ∅ := by
    rw [Finset.sdiff_eq_empty_iff_subset]
    intro j hj
    exact mem_ids_below.2 (h j (mem_ids_of.1 hj))
  rw [size_eq_iff_card, hstray, Finset.card_empty, Finset.card_eq_zero, Finset.sdiff_eq_empty_iff_subset,
    ids_below_subset]
  simp only [mem_ids_of]

theorem Partial.is_complete_iff (h : Partial g b) : b.is_complete = true ↔ ∀ j < g.fragment_count, j ∈ b.fragments := by
  rw [is_complete, h.count, beq_iff_eq]
  apply size_eq_iff
  intro j hj
  obtain ⟨d, hd⟩ := Option.isSome_iff_exists.1 (Std.ExtTreeMap.mem_iff_isSome_getElem?.1 hj)
  exact (h.fragments j d hd).1

/-- A complete buffer is the message. -/
theorem Partial.reassemble (h : Partial g b) (hc : b.is_complete = true) : b.reassemble = some g.data := by
  unfold CommandFragmentBuffer.reassemble
  rw [hc, h.count]
  apply collect_eq (nodup_ids g.fragment_count)
  intro i hi
  have hmem := h.is_complete_iff.1 hc i (mem_ids.1 hi)
  obtain ⟨d, hd⟩ := Option.isSome_iff_exists.1 (Std.ExtTreeMap.mem_iff_isSome_getElem?.1 hmem)
  rw [hd, (h.fragments _ d hd).2]

end CommandFragmentBuffer

namespace Peer

open CommandFragmentBuffer

variable {p p' q : Peer} {g : Group} {j : UInt8} {d : SharedBytes}

/-! ## Arrivals -/

/-- No buffer is open under the message's sequence, or one with fragments of
the message only. -/
def Joins (g : Group) (p : Peer) : Prop := ∀ b, p.command_fragments[g.sequence]? = some b → Partial g b

/-- Has the peer this fragment in a buffer? -/
def Held (g : Group) (p : Peer) (j : UInt8) : Prop :=
  ∃ b, p.command_fragments[g.sequence]? = some b ∧ j ∈ b.fragments

/-- The buffer of the message with the fragment added. -/
def joined (p : Peer) (g : Group) (j : UInt8) (d : SharedBytes) (t : Instant) : CommandFragmentBuffer :=
  p.fragment_buffer g.channel_id g.sequence g.mode.ordered j g.fragment_count d t

theorem Joins.joined (h : Joins g p) (hj : j < g.fragment_count) (hd : d.as_slice = g.chunk j) (t : Instant) :
    Partial g (p.joined g j d t) := by
  unfold Peer.joined fragment_buffer
  rw [SharedBytes.to_arc_eq, hd]
  cases hb : p.command_fragments[g.sequence]? with
  | none => exact (partial_new g t).add_fragment hj
  | some b => exact (h b hb).add_fragment hj

theorem mem_joined (p : Peer) (g : Group) (j i : UInt8) (d : SharedBytes) (t : Instant) :
    i ∈ (p.joined g j d t).fragments ↔ i = j ∨ p.Held g i := by
  unfold Peer.joined fragment_buffer Held
  rw [mem_add_fragment]
  cases hb : p.command_fragments[g.sequence]? with
  | none => simp [CommandFragmentBuffer.new]
  | some b => simp

/-- What a message that is complete does: an ordered one goes through its
channel. -/
def completes (p : Peer) (g : Group) : List SharedBytes × Std.ExtTreeMap UInt8 ChannelState :=
  if g.mode.ordered then
    ((p.deliver_ordered g.channel_id g.sequence (.from_vec g.data)).1,
      (p.deliver_ordered g.channel_id g.sequence (.from_vec g.data)).2.channel_states)
  else ([.from_vec g.data], p.channel_states)

/-- The packets of payloads that a fragment releases. -/
def released (p : Peer) (g : Group) (payloads : List SharedBytes) : IncomingPackets :=
  payloads.map fun payload => (p.packet payload.to_arc g.mode.delivery .None g.channel_id, .Packet)

theorem released_one (p : Peer) (g : Group) :
    p.released g [.from_vec g.data] = [(p.packet g.data g.mode.delivery .None g.channel_id, .Packet)] := by
  simp [released]

/-- A fragment was put into its buffer. -/
structure Kept (p p' : Peer) (g : Group) (b : CommandFragmentBuffer) (packets : IncomingPackets) : Prop where
  fragments : p'.command_fragments = p.command_fragments.insert g.sequence b
  channels : p'.channel_states = p.channel_states
  packets : packets = []

/-- A fragment completed its message. -/
structure Completed (p p' : Peer) (g : Group) (packets : IncomingPackets) : Prop where
  fragments : p'.command_fragments = p.command_fragments.erase g.sequence
  channels : p'.channel_states = (p.completes g).2
  packets : packets = p.released g (p.completes g).1

theorem add_fragment_incomplete {ch : UInt8} {s : UInt16} {o : Bool} {i n : UInt8} {t : Instant}
    (h : (p.fragment_buffer ch s o i n d t).is_complete = false) :
    p.add_fragment ch s o i n d t =
      (none, { p with command_fragments := p.command_fragments.insert s (p.fragment_buffer ch s o i n d t) }) := by
  unfold add_fragment
  dsimp only
  rw [if_neg (by rw [h]; decide)]

theorem add_fragment_complete {ch : UInt8} {s : UInt16} {o : Bool} {i n : UInt8} {t : Instant}
    (h : (p.fragment_buffer ch s o i n d t).is_complete = true) :
    p.add_fragment ch s o i n d t =
      (some (p.fragment_buffer ch s o i n d t), { p with command_fragments := p.command_fragments.erase s }) := by
  unfold add_fragment
  dsimp only
  rw [if_pos h]

/-- A fragment that leaves its message incomplete is kept. -/
theorem process_fragment_incomplete {t : Instant} (hc : (p.joined g j d t).is_complete = false) (draw : UInt16) :
    ∃ p', p.process_command (g.command j d) t draw = .ok (p', .ok []) ∧ Kept p p' g (p.joined g j d t) [] := by
  obtain ⟨mode, ch, s, n, chunk⟩ := g
  cases mode with
  | Reliable o =>
    have hadd := add_fragment_incomplete (p := (p.heard t).process_acknowledge s 0 t) hc
    refine ⟨{ (p.heard t).process_acknowledge s 0 t with
      command_fragments := p.command_fragments.insert s (p.fragment_buffer ch s o j n d t) }, ?_, rfl, rfl, rfl⟩
    apply (process_command_fragment ..).trans
    unfold process_send_fragment
    dsimp only
    rw [show ((p.heard t).process_acknowledge s 0 t).add_fragment ch s o j n d t = _ from hadd]
    rfl
  | Unreliable =>
    have hadd := add_fragment_incomplete (p := p.heard t) hc
    refine ⟨{ p.heard t with
      command_fragments := p.command_fragments.insert s (p.fragment_buffer ch s false j n d t) }, ?_, rfl, rfl, rfl⟩
    apply (process_command_unreliable_fragment ..).trans
    unfold process_send_unreliable_fragment
    dsimp only
    rw [show (p.heard t).add_fragment ch s false j n d t = _ from hadd]
    rfl

/-- The peer that has taken a complete buffer out and acknowledged it. -/
def acknowledged (p : Peer) (s : UInt16) (t : Instant) : Peer :=
  { p.process_acknowledge s 0 t with command_fragments := p.command_fragments.erase s }.enqueue_ack_command none

theorem process_send_fragment_complete {ch : UInt8} {s : UInt16} {o : Bool} {i n : UInt8} {t : Instant} {data : Bytes}
    (hc : (p.fragment_buffer ch s o i n d t).is_complete = true)
    (hr : (p.fragment_buffer ch s o i n d t).reassemble = some data)
    (ho : (p.fragment_buffer ch s o i n d t).ordered = o) (hch : (p.fragment_buffer ch s o i n d t).channel_id = ch) :
    p.process_send_fragment ch s o i n d t =
      if o then
        (((p.acknowledged s t).deliver_ordered ch s (.from_vec data)).2,
          ((p.acknowledged s t).deliver_ordered ch s (.from_vec data)).1.map fun payload =>
            (((p.acknowledged s t).deliver_ordered ch s (.from_vec data)).2.packet payload.to_arc .Reliable .None ch,
              .Packet))
      else (p.acknowledged s t, [((p.acknowledged s t).packet data .Reliable .None ch, .Packet)]) := by
  have hadd := add_fragment_complete (p := p.process_acknowledge s 0 t) hc
  unfold process_send_fragment
  dsimp only
  rw [hadd]
  dsimp only
  rw [show ((p.process_acknowledge s 0 t).fragment_buffer ch s o i n d t).reassemble = some data from hr,
    show ((p.process_acknowledge s 0 t).fragment_buffer ch s o i n d t).ordered = o from ho,
    show ((p.process_acknowledge s 0 t).fragment_buffer ch s o i n d t).channel_id = ch from hch]
  rfl

theorem process_send_unreliable_fragment_complete {ch : UInt8} {s : UInt16} {i n : UInt8} {t : Instant} {data : Bytes}
    (hc : (p.fragment_buffer ch s false i n d t).is_complete = true)
    (hr : (p.fragment_buffer ch s false i n d t).reassemble = some data)
    (hch : (p.fragment_buffer ch s false i n d t).channel_id = ch) :
    p.process_send_unreliable_fragment ch s i n d t =
      ({ p with command_fragments := p.command_fragments.erase s }, [(p.packet data .Unreliable .None ch, .Packet)]) := by
  unfold process_send_unreliable_fragment
  rw [add_fragment_complete hc]
  dsimp only
  rw [hr, hch]
  rfl

/-- A fragment that completes its message delivers it. -/
theorem process_fragment_complete {t : Instant} (hp : Partial g (p.joined g j d t))
    (hc : (p.joined g j d t).is_complete = true) (draw : UInt16) :
    ∃ p' packets, p.process_command (g.command j d) t draw = .ok (p', .ok packets) ∧ Completed p p' g packets := by
  have hr := hp.reassemble hc
  have ho := hp.ordered
  have hch := hp.channel
  obtain ⟨mode, ch, s, n, chunk⟩ := g
  cases mode with
  | Reliable o =>
    have hres : (p.heard t).process_send_fragment ch s o j n d t = _ := process_send_fragment_complete hc hr ho hch
    have hcmd := process_command_fragment p ch s o j n d t draw
    obtain ⟨w, cq, he⟩ : ∃ w cq, (p.heard t).acknowledged s t = _ := enqueue_command_writes ..
    rw [hres, he] at hcmd
    cases o with
    | true => exact ⟨_, _, hcmd, ⟨rfl, rfl, rfl⟩⟩
    | false => exact ⟨_, _, hcmd, ⟨rfl, rfl, (released_one p ⟨.Reliable false, ch, s, n, chunk⟩).symm⟩⟩
  | Unreliable =>
    have hres : (p.heard t).process_send_unreliable_fragment ch s j n d t = _ :=
      process_send_unreliable_fragment_complete hc hr hch
    have hcmd := process_command_unreliable_fragment p ch s j n d t draw
    rw [hres] at hcmd
    exact ⟨_, _, hcmd, ⟨rfl, rfl, (released_one p ⟨.Unreliable, ch, s, n, chunk⟩).symm⟩⟩

/-- The arrival of a fragment. -/
theorem process_fragment (h : Joins g p) (hj : j < g.fragment_count) (hd : d.as_slice = g.chunk j) (t : Instant)
    (draw : UInt16) :
    ∃ p' packets, p.process_command (g.command j d) t draw = .ok (p', .ok packets) ∧
      (((∃ i < g.fragment_count, i ≠ j ∧ ¬ p.Held g i) ∧ Kept p p' g (p.joined g j d t) packets) ∨
        ((∀ i < g.fragment_count, i ≠ j → p.Held g i) ∧ Completed p p' g packets)) := by
  have hp := h.joined hj hd t
  by_cases hall : ∀ i < g.fragment_count, i ≠ j → p.Held g i
  · have hc : (p.joined g j d t).is_complete = true := by
      apply hp.is_complete_iff.2
      intro i hi
      rw [mem_joined]
      by_cases he : i = j
      · exact .inl he
      · exact .inr (hall i hi he)
    obtain ⟨p', packets, he, hcd⟩ := process_fragment_complete hp hc draw
    exact ⟨p', packets, he, .inr ⟨hall, hcd⟩⟩
  · have hc : (p.joined g j d t).is_complete = false := by
      rw [← Bool.not_eq_true, hp.is_complete_iff]
      refine fun hmem => hall fun i hi hne => ?_
      exact ((mem_joined ..).1 (hmem i hi)).resolve_left hne
    obtain ⟨p', he, hk⟩ := process_fragment_incomplete hc draw
    push Not at hall
    exact ⟨p', [], he, .inl ⟨hall, hk⟩⟩

theorem Kept.joins {t : Instant} {packets : IncomingPackets} (h : Kept p p' g (p.joined g j d t) packets)
    (hp : Partial g (p.joined g j d t)) : Joins g p' := by
  intro b hb
  rw [h.fragments, Std.ExtTreeMap.getElem?_insert_self] at hb
  exact Option.some.inj hb ▸ hp

theorem Kept.held_iff {t : Instant} {packets : IncomingPackets} (h : Kept p p' g (p.joined g j d t) packets)
    (i : UInt8) : p'.Held g i ↔ i = j ∨ p.Held g i := by
  rw [← mem_joined p g j i d t, Held, h.fragments, Std.ExtTreeMap.getElem?_insert_self]
  simp

theorem Completed.open_none {packets : IncomingPackets} (h : Completed p p' g packets) :
    p'.command_fragments[g.sequence]? = none := by
  rw [h.fragments, Std.ExtTreeMap.getElem?_erase_self]

end Peer

end Bitfold
