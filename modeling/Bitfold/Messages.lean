import Bitfold.Reassembly
/-!
# Messages

One message from a fresh peer to another, in any order, with losses and
repeats. Its fragments are put together again when the last one arrives
(`fragments_reassemble`), and the receiver delivers the message whole, unless
it is one that the sender truncates (`delivered_whole_or_truncated`).
-/

namespace Bitfold

open Lib ProtocolCommand

/-! ## Sending a message -/

namespace Mode

/-- Bytes of the header of a message sent whole. -/
def header : Mode → Nat
  | Reliable _ => 1 + 1 + 2 + 1 + 2
  | Unreliable => 1 + 1 + 2

/-- Bytes of the header of a fragment. -/
def fragment_header : Mode → Nat
  | Reliable _ => 1 + 1 + 2 + 1 + 1 + 1 + 2
  | Unreliable => 1 + 1 + 2 + 1 + 1 + 2

/-- The command that carries a message whole. -/
def whole (mode : Mode) (channel_id : UInt8) (sequence : UInt16) (data : SharedBytes) : ProtocolCommand :=
  match mode with
  | Reliable ordered => .SendReliable channel_id sequence ordered data
  | Unreliable => .SendUnreliable channel_id data

/-- The sequence the next message gets. -/
def sequence (mode : Mode) (p : Peer) : UInt16 :=
  match mode with
  | Reliable _ => p.acknowledge_handler.local_sequence_num
  | Unreliable => p.next_unreliable_sequence

/-- `enqueue_reliable_data` or `enqueue_unreliable_data`. -/
def enqueue (mode : Mode) (p : Peer) (channel_id : UInt8) (data : Bytes) : Outcome (UInt16 × Peer) :=
  match mode with
  | Reliable ordered => p.enqueue_reliable_data channel_id data ordered
  | Unreliable => p.enqueue_unreliable_data channel_id data

end Mode

/-! ## What waits in a channel -/

namespace ChannelState

/-- Everything that waits has `P`. -/
def Waits (P : Bytes → Prop) (c : ChannelState) : Prop :=
  ∀ (k : UInt16) (d : SharedBytes), c.buffered_packets[k]? = some d → P d.as_slice

theorem Waits.deliver_next {P : Bytes → Prop} (c : ChannelState) (h : Waits P c) : Waits P c.deliver_next.2 := by
  unfold ChannelState.deliver_next
  split
  · intro k d hd
    rw [Std.ExtTreeMap.getElem?_erase] at hd
    split at hd
    · cases hd
    · exact h k d hd
  · exact h

theorem Waits.emit {P : Bytes → Prop} (c : ChannelState) (d : SharedBytes) (c' : ChannelState) (h : Waits P c)
    (he : c.deliver_next = (some d, c')) : P d.as_slice := by
  unfold ChannelState.deliver_next at he
  split at he
  · rename_i hd
    cases he
    exact h _ _ hd
  · cases he

/-- A channel hands out what waits in it, and what has just arrived. -/
theorem Waits.process_ordered {P : Bytes → Prop} {c : ChannelState} (h : Waits P c) (s : UInt16) {d : SharedBytes}
    (hd : P d.as_slice) :
    (∀ x ∈ (c.process_ordered s d).1, P x.as_slice) ∧ Waits P (c.process_ordered s d).2 := by
  have hstart : Waits P { c with buffered_packets := c.buffered_packets.insert s d } := by
    intro k x hx
    rw [Std.ExtTreeMap.getElem?_insert] at hx
    split at hx
    · exact Option.some.inj hx ▸ hd
    · exact h k x hx
  have hdrains := process_ordered_drains c s d
  exact ⟨hdrains.emits Waits.deliver_next Waits.emit hstart, hdrains.invariant Waits.deliver_next hstart⟩

end ChannelState

namespace Peer

open CommandFragmentBuffer

variable {p p' q : Peer} {g : Group} {mode : Mode} {ch : UInt8} {data : Bytes}

/-- The peer that has given a sequence to a message. -/
def numbered (p : Peer) : Mode → Peer
  | .Reliable _ => p
  | .Unreliable => { p with next_unreliable_sequence := p.next_unreliable_sequence + 1 }

/-- The commands of a message. -/
def message_commands (p : Peer) (mode : Mode) (ch : UInt8) (data : Bytes) : List ProtocolCommand :=
  p.data_commands data mode.header mode.fragment_header (mode.whole ch (mode.sequence p))
    (mode.fragment ch (mode.sequence p))

theorem enqueue_eq (p : Peer) (mode : Mode) (ch : UInt8) (data : Bytes) :
    mode.enqueue p ch data =
      .ok (mode.sequence p, (p.numbered mode).requeue (p.message_commands mode ch data)) := by
  cases mode with
  | Reliable o => exact enqueue_reliable_data_eq p ch data o
  | Unreliable =>
    unfold Mode.enqueue enqueue_unreliable_data
    dsimp only
    rw [enqueue_data_eq]
    rfl

/-- Payload bytes of one fragment. -/
def fragment_payload (p : Peer) (mode : Mode) : Nat := p.payload_budget mode.fragment_header

/-- The number of fragments of a message. -/
def total_fragments (p : Peer) (mode : Mode) (data : Bytes) : Nat := div_ceil data.length (p.fragment_payload mode)

/-- The message does not fit one command and is sent in fragments, which are
no more than a byte can count and `max_fragments` allows. -/
structure Splits (p : Peer) (mode : Mode) (data : Bytes) : Prop where
  room : 1 ≤ p.payload_budget mode.header
  long : p.payload_budget mode.header < data.length
  payload : 1 ≤ p.fragment_payload mode
  few : p.total_fragments mode data ≤ 255
  allowed : p.total_fragments mode data ≤ p.config.max_fragments.toNat

/-- The message would be sent in fragments, but `max_fragments` does not allow
so many. -/
structure Truncates (p : Peer) (mode : Mode) (data : Bytes) : Prop where
  room : 1 ≤ p.payload_budget mode.header
  long : p.payload_budget mode.header < data.length
  payload : 1 ≤ p.fragment_payload mode
  few : p.total_fragments mode data ≤ 255
  excess : p.config.max_fragments.toNat < p.total_fragments mode data

/-- The fragments of a message. -/
def group (p : Peer) (mode : Mode) (ch : UInt8) (data : Bytes) : Group where
  mode := mode
  channel_id := ch
  sequence := mode.sequence p
  fragment_count := .ofNat (p.total_fragments mode data)
  chunk j := (fragment_data data (p.fragment_payload mode) j.toNat).as_slice

/-- The first fragment of a message, alone. -/
def truncated (p : Peer) (mode : Mode) (ch : UInt8) (data : Bytes) : Group where
  mode := mode
  channel_id := ch
  sequence := mode.sequence p
  fragment_count := 1
  chunk _ := (fragment_data data (p.fragment_payload mode) 0).as_slice

theorem ofNat_gt_iff {n : Nat} {m : UInt8} (h : n ≤ 255) : UInt8.ofNat n > m ↔ m.toNat < n := by
  rw [gt_iff_lt, UInt8.lt_iff_toNat_lt, UInt8.toNat_ofNat']
  omega

/-- The commands of a message, in four cases. -/
theorem message_commands_cases (p : Peer) (mode : Mode) (ch : UInt8) (data : Bytes) :
    p.message_commands mode ch data = [] ∨
    (data.length ≤ p.payload_budget mode.header ∧
      p.message_commands mode ch data = [mode.whole ch (mode.sequence p) (.from_arc data)]) ∨
    (p.Truncates mode data ∧ p.message_commands mode ch data =
      [(p.truncated mode ch data).command 0 (fragment_data data (p.fragment_payload mode) 0)]) ∨
    (p.Splits mode data ∧ p.message_commands mode ch data =
      (List.range (p.total_fragments mode data)).map fun i =>
        (p.group mode ch data).command (.ofNat i) (fragment_data data (p.fragment_payload mode) i)) := by
  -- the branches of `enqueue_data` in its order
  unfold message_commands data_commands
  by_cases hb : p.payload_budget mode.header < 1
  · rw [if_pos hb]
    exact .inl rfl
  rw [if_neg hb]
  by_cases hw : data.length ≤ p.payload_budget mode.header
  · rw [if_pos hw]
    exact .inr (.inl ⟨hw, rfl⟩)
  rw [if_neg hw]
  by_cases hf : p.payload_budget mode.fragment_header < 1
  · rw [if_pos hf]
    exact .inl rfl
  rw [if_neg hf]
  dsimp only
  by_cases ht : div_ceil data.length (p.payload_budget mode.fragment_header) > 255
  · rw [if_pos ht]
    exact .inl rfl
  rw [if_neg ht]
  by_cases hm : UInt8.ofNat (div_ceil data.length (p.payload_budget mode.fragment_header)) > p.config.max_fragments
  · rw [if_pos hm]
    rw [ofNat_gt_iff (by omega)] at hm
    exact .inr (.inr (.inl ⟨⟨by omega, by omega, Nat.not_lt.1 hf, Nat.not_lt.1 ht, hm⟩, rfl⟩))
  · rw [if_neg hm]
    rw [ofNat_gt_iff (by omega)] at hm
    exact .inr (.inr (.inr ⟨⟨by omega, by omega, Nat.not_lt.1 hf, Nat.not_lt.1 ht, Nat.not_lt.1 hm⟩, rfl⟩))

theorem Splits.not_truncates (h : p.Splits mode data) : ¬ p.Truncates mode data := fun ht =>
  absurd ht.excess (Nat.not_lt.2 h.allowed)

/-- A message that splits is queued as its fragments. -/
theorem Splits.message_commands (h : p.Splits mode data) (ch : UInt8) :
    p.message_commands mode ch data = (List.range (p.total_fragments mode data)).map fun i =>
      (p.group mode ch data).command (.ofNat i) (fragment_data data (p.fragment_payload mode) i) := by
  unfold Peer.message_commands data_commands
  have hroom := h.room
  have hlong := h.long
  have hpayload : ¬ p.payload_budget mode.fragment_header < 1 := Nat.not_lt.2 h.payload
  have hfew : ¬ div_ceil data.length (p.payload_budget mode.fragment_header) > 255 := Nat.not_lt.2 h.few
  have hmax : ¬ UInt8.ofNat (div_ceil data.length (p.payload_budget mode.fragment_header)) > p.config.max_fragments := by
    rw [ofNat_gt_iff (Nat.not_lt.1 hfew), Nat.not_lt]
    exact h.allowed
  rw [if_neg (by omega), if_neg (by omega), if_neg hpayload, if_neg hfew, if_neg hmax]
  rfl

theorem Splits.count_toNat (h : p.Splits mode data) (ch : UInt8) :
    (p.group mode ch data).fragment_count.toNat = p.total_fragments mode data := by
  have := h.few
  simp only [group, UInt8.toNat_ofNat']
  omega

/-- The fragments of a message, one after the other, are the message. -/
theorem Splits.group_data (h : p.Splits mode data) (ch : UInt8) : (p.group mode ch data).data = data := by
  have hlen : 0 < data.length := by
    have := h.long
    omega
  unfold Group.data
  rw [h.count_toNat, List.map_map]
  refine Eq.trans ?_ (flatten_fragments h.payload hlen)
  refine congrArg List.flatten (List.map_congr_left fun i hi => ?_)
  have hi' := List.mem_range.1 hi
  have hfew := h.few
  have : (UInt8.ofNat i).toNat = i := by
    rw [UInt8.toNat_ofNat']
    omega
  simp [group, this]

/-! ## Arrivals -/

/-- A command, when it arrives and the draw it is processed with. -/
abbrev Arrival := ProtocolCommand × Instant × UInt16

/-- The packets the application gets. -/
def delivered : Processed → List Packet
  | .ok packets => packets.map Prod.fst
  | .error _ => []

/-- Commands arrive one after the other; what each of them delivers. -/
def arrive : Peer → List Arrival → Outcome (List (List Packet) × Peer)
  | p, [] => .ok ([], p)
  | p, (c, t, draw) :: arrivals => do
    let (p, r) ← p.process_command c t draw
    let (outs, p) ← arrive p arrivals
    return (delivered r :: outs, p)

theorem arrive_cons {c : ProtocolCommand} {t : Instant} {draw : UInt16} {arrivals : List Arrival}
    {packets : IncomingPackets} {outs : List (List Packet)} (h : p.process_command c t draw = .ok (q, .ok packets))
    (hs : arrive q arrivals = .ok (outs, p')) :
    arrive p ((c, t, draw) :: arrivals) = .ok (packets.map Prod.fst :: outs, p') := by
  simp only [arrive, h, hs, bind, Except.bind, delivered]
  rfl

theorem arrive_append {xs ys : List Arrival} {outs outs' : List (List Packet)} (h : arrive p xs = .ok (outs, q))
    (h' : arrive q ys = .ok (outs', p')) : arrive p (xs ++ ys) = .ok (outs ++ outs', p') := by
  induction xs generalizing p outs with
  | nil =>
    cases h
    exact h'
  | cons a xs ih =>
    obtain ⟨c, t, draw⟩ := a
    simp only [arrive, bind, Except.bind, List.cons_append] at h ⊢
    split at h
    · cases h
    · split at h
      · cases h
      · rename_i hrest
        cases h
        rw [ih hrest]
        rfl

/-- Every arrival keeps `I` and delivers only packets with `P`. -/
theorem arrive_all {I : Peer → Prop} {K : ProtocolCommand → Prop} {P : Packet → Prop}
    (step : ∀ p c t draw, I p → K c →
      ∃ p' packets, p.process_command c t draw = .ok (p', .ok packets) ∧ I p' ∧ ∀ x ∈ packets, P x.1)
    {arrivals : List Arrival} (hk : ∀ a ∈ arrivals, K a.1) (hp : I p) :
    ∃ outs p', arrive p arrivals = .ok (outs, p') ∧ I p' ∧ ∀ out ∈ outs, ∀ x ∈ out, P x := by
  induction arrivals generalizing p with
  | nil => exact ⟨[], p, rfl, hp, by simp⟩
  | cons a arrivals ih =>
    obtain ⟨c, t, draw⟩ := a
    obtain ⟨q, packets, hq, hi, hpk⟩ := step p c t draw hp (hk _ List.mem_cons_self)
    obtain ⟨outs, p', hs, hi', hout⟩ := ih (fun a ha => hk a (List.mem_cons_of_mem _ ha)) hi
    refine ⟨_, p', arrive_cons hq hs, hi', ?_⟩
    simp only [List.mem_cons, forall_eq_or_imp, List.mem_map, forall_exists_index, and_imp, forall_apply_eq_imp_iff₂]
    exact ⟨hpk, hout⟩

/-- Everything that waits in a channel has `P`. -/
def Waits (P : UInt8 → Bytes → Prop) (p : Peer) : Prop := ∀ ch, (p.channel_state ch).Waits (P ch)

theorem waits_new (P : UInt8 → Bytes → Prop) (addr : SocketAddr) (config : Config) (time : Instant)
    (draw : PeerDraw) : Waits P (.new addr config time draw) := by
  intro ch k d h
  simp [channel_state, Peer.new, ChannelState.new] at h

theorem Waits.same {P : UInt8 → Bytes → Prop} (h : Waits P p) (hs : q.channel_states = p.channel_states) :
    Waits P q := by
  unfold Waits channel_state at *
  rw [hs]
  exact h

theorem Waits.deliver {P : UInt8 → Bytes → Prop} (h : Waits P p) (ch : UInt8) (s : UInt16) {d : SharedBytes}
    (hd : P ch d.as_slice) :
    (∀ x ∈ (p.deliver_ordered ch s d).1, P ch x.as_slice) ∧ Waits P (p.deliver_ordered ch s d).2 := by
  obtain ⟨hout, hend⟩ := (h ch).process_ordered s hd
  refine ⟨hout, fun ch' => ?_⟩
  rw [deliver_ordered_channel_state]
  split
  · rename_i he
    exact he ▸ hend
  · exact h ch'

/-! ## One fragment -/

/-- The command is a fragment of the message. -/
def IsFragment (g : Group) (c : ProtocolCommand) : Prop :=
  ∃ j d, j < g.fragment_count ∧ SharedBytes.as_slice d = g.chunk j ∧ c = g.command j d

theorem Waits.completes {P : UInt8 → Bytes → Prop} (h : Waits P p) (hd : g.mode.ordered = true → P g.channel_id g.data)
    (hq : q.channel_states = (p.completes g).2) :
    (∀ x ∈ (p.completes g).1, x.as_slice = g.data ∨ g.mode.ordered = true ∧ P g.channel_id x.as_slice) ∧
      Waits P q := by
  unfold Peer.completes at *
  split
  · rename_i ho
    rw [if_pos ho] at hq
    obtain ⟨hout, hend⟩ := h.deliver g.channel_id g.sequence (d := .from_vec g.data) (by simpa using hd ho)
    exact ⟨fun x hx => .inr ⟨ho, hout x hx⟩, hend.same hq⟩
  · rename_i ho
    rw [if_neg ho] at hq
    exact ⟨by simp, h.same hq⟩

/-- A fragment that joins its message delivers the message or nothing, or
releases what waited in the message's channel. -/
theorem process_fragment_delivers {P : UInt8 → Bytes → Prop} {c : ProtocolCommand} (hj : Joins g p) (hw : Waits P p)
    (hd : g.mode.ordered = true → P g.channel_id g.data) (hc : IsFragment g c) (t : Instant) (draw : UInt16) :
    ∃ p' packets, p.process_command c t draw = .ok (p', .ok packets) ∧ Joins g p' ∧ Waits P p' ∧
      ∀ x ∈ packets, x.1.channel_id = g.channel_id ∧ x.1.delivery = g.mode.delivery ∧
        (x.1.payload = g.data ∨ g.mode.ordered = true ∧ P g.channel_id x.1.payload) := by
  obtain ⟨j, d, hlt, hchunk, rfl⟩ := hc
  obtain ⟨p', packets, he, ⟨-, hk⟩ | ⟨-, hk⟩⟩ := process_fragment hj hlt hchunk t draw
  · refine ⟨p', packets, he, hk.joins (hj.joined hlt hchunk t), hw.same hk.channels, ?_⟩
    rw [hk.packets]
    simp
  · obtain ⟨hout, hwaits⟩ := hw.completes hd hk.channels
    refine ⟨p', packets, he, fun b hb => ?_, hwaits, ?_⟩
    · rw [hk.open_none] at hb
      cases hb
    · rw [hk.packets]
      intro x hx
      obtain ⟨payload, hp, rfl⟩ := List.mem_map.1 hx
      refine ⟨rfl, rfl, ?_⟩
      have := hout payload hp
      rwa [← SharedBytes.to_arc_eq] at this

/-- The fragments of one message are put together to that message only. -/
structure Collects (g : Group) (p : Peer) : Prop where
  joins : Joins g p
  waits : Waits (fun _ data => data = g.data) p

theorem Collects.step {c : ProtocolCommand} (h : Collects g p) (hc : IsFragment g c) (t : Instant) (draw : UInt16) :
    ∃ p' packets, p.process_command c t draw = .ok (p', .ok packets) ∧ Collects g p' ∧
      ∀ x ∈ packets, x.1.payload = g.data := by
  obtain ⟨p', packets, he, hj, hw, hout⟩ := process_fragment_delivers h.joins h.waits (fun _ => rfl) hc t draw
  refine ⟨p', packets, he, ⟨hj, hw⟩, fun x hx => ?_⟩
  rcases (hout x hx).2.2 with hx | ⟨-, hx⟩
  · exact hx
  · exact hx

theorem collects_new (g : Group) (addr : SocketAddr) (config : Config) (time : Instant) (draw : PeerDraw) :
    Collects g (.new addr config time draw) :=
  ⟨fun b hb => by simp [Peer.new] at hb, waits_new _ addr config time draw⟩

theorem Collects.arrive {arrivals : List Arrival} (h : Collects g p) (hk : ∀ a ∈ arrivals, IsFragment g a.1) :
    ∃ outs p', p.arrive arrivals = .ok (outs, p') ∧ ∀ out ∈ outs, ∀ x ∈ out, x.payload = g.data := by
  obtain ⟨outs, p', he, -, hout⟩ := arrive_all (I := Collects g) (K := IsFragment g)
    (P := fun x => x.payload = g.data) (fun _ _ t draw hp hc => hp.step hc t draw) hk h
  exact ⟨outs, p', he, hout⟩

/-! ## Reassembly in any order -/

theorem command_inj {j k : UInt8} {d d' : SharedBytes} (h : g.command j d = g.command k d') : j = k ∧ d = d' := by
  unfold Group.command Mode.fragment at h
  cases hm : g.mode with
  | Reliable o =>
    simp only [hm, ProtocolCommand.SendFragment.injEq] at h
    exact ⟨h.2.2.2.1, h.2.2.2.2.2⟩
  | Unreliable =>
    simp only [hm, ProtocolCommand.SendUnreliableFragment.injEq] at h
    exact ⟨h.2.2.1, h.2.2.2.2⟩

/-- While a fragment is missing, nothing is delivered and all are kept. -/
theorem arrive_missing {arrivals : List Arrival} {i : UInt8} (hi : i < g.fragment_count)
    (hk : ∀ a ∈ arrivals, IsFragment g a.1) (hno : ∀ a ∈ arrivals, ∀ d, a.1 ≠ g.command i d) (hj : Joins g p)
    (hi' : ¬ p.Held g i) :
    ∃ outs p', arrive p arrivals = .ok (outs, p') ∧ outs.length = arrivals.length ∧ (∀ out ∈ outs, out = []) ∧
      Joins g p' ∧ p'.channel_states = p.channel_states ∧
      ∀ k, (p.Held g k ∨ ∃ a ∈ arrivals, ∃ d, a.1 = g.command k d) → p'.Held g k := by
  induction arrivals generalizing p with
  | nil => exact ⟨[], p, rfl, rfl, by simp, hj, rfl, by simp⟩
  | cons a arrivals ih =>
    obtain ⟨c, t, draw⟩ := a
    obtain ⟨j, d, hlt, hchunk, rfl⟩ := hk _ List.mem_cons_self
    have hne : i ≠ j := by
      rintro rfl
      exact hno _ List.mem_cons_self d rfl
    -- fragment `j` cannot complete the group: `i` is missing still
    obtain ⟨q, packets, he, ⟨-, hkept⟩ | ⟨hall, -⟩⟩ := process_fragment hj hlt hchunk t draw
    · have hiq : ¬ q.Held g i := by
        rw [hkept.held_iff, not_or]
        exact ⟨hne, hi'⟩
      obtain ⟨outs, p', hs, hl, ho, hj', hcs, hheld⟩ := ih (fun a ha => hk a (List.mem_cons_of_mem _ ha))
        (fun a ha => hno a (List.mem_cons_of_mem _ ha)) (hkept.joins (hj.joined hlt hchunk t)) hiq
      refine ⟨_, p', arrive_cons he hs, by simp [hl], ?_, hj', hcs.trans hkept.channels, fun k hk => ?_⟩
      · rw [hkept.packets]
        simpa using ho
      · apply hheld k
        rcases hk with hk | ⟨a, ha, d', hk⟩
        · exact .inl ((hkept.held_iff k).2 (.inr hk))
        · rcases List.mem_cons.1 ha with rfl | ha
          · exact .inl ((hkept.held_iff k).2 (.inl (command_inj hk).1.symm))
          · exact .inr ⟨a, ha, d', hk⟩
    · exact absurd (hall i hi hne) hi'

/-- The last of the wanted elements to appear in a list. -/
theorem exists_last_missing {α β : Type} (f : α → β) {wanted : List β} {l : List α} (hne : wanted ≠ [])
    (h : wanted ⊆ l.map f) :
    ∃ before x after, l = before ++ x :: after ∧ f x ∈ wanted ∧ f x ∉ before.map f ∧
      wanted ⊆ (before ++ [x]).map f := by
  induction l using List.reverseRecOn with
  | nil => exact absurd (List.subset_nil.1 h) hne
  | append_singleton l y ih =>
    by_cases hl : wanted ⊆ l.map f
    · obtain ⟨before, x, after, rfl, hx⟩ := ih hl
      exact ⟨before, x, after ++ [y], by simp, hx⟩
    · obtain ⟨b, hb, hbl⟩ : ∃ b ∈ wanted, b ∉ l.map f := by
        by_contra hcon
        push Not at hcon
        exact hl hcon
      have hby : b = f y := by
        have := h hb
        rw [List.map_append, List.mem_append] at this
        simpa using this.resolve_left hbl
      subst hby
      exact ⟨l, y, [], rfl, hb, hbl, h⟩

/-- The commands are the fragments of the message, each once. -/
structure Sends (g : Group) (cmds : List ProtocolCommand) : Prop where
  fragments : ∀ c ∈ cmds, IsFragment g c
  unique : ∀ j d d', g.command j d ∈ cmds → g.command j d' ∈ cmds → d = d'
  all : ∀ j < g.fragment_count, ∃ d, g.command j d ∈ cmds

theorem Splits.sends (h : p.Splits mode data) (ch : UInt8) :
    Sends (p.group mode ch data) (p.message_commands mode ch data) := by
  have hmem : ∀ c, c ∈ p.message_commands mode ch data ↔ ∃ i < p.total_fragments mode data,
      (p.group mode ch data).command (.ofNat i) (fragment_data data (p.fragment_payload mode) i) = c := by
    intro c
    rw [h.message_commands]
    simp
  have hid : ∀ i < p.total_fragments mode data, (UInt8.ofNat i).toNat = i := by
    intro i hi
    have := h.few
    rw [UInt8.toNat_ofNat']
    omega
  refine ⟨fun c hc => ?_, fun j d d' hd hd' => ?_, fun j hj => ?_⟩
  · obtain ⟨i, hi, rfl⟩ := (hmem c).1 hc
    refine ⟨.ofNat i, _, ?_, ?_, rfl⟩
    · rw [UInt8.lt_iff_toNat_lt, hid i hi, h.count_toNat]
      exact hi
    · simp [group, hid i hi]
  · obtain ⟨i, hi, he⟩ := (hmem _).1 hd
    obtain ⟨i', hi', he'⟩ := (hmem _).1 hd'
    obtain ⟨hj, rfl⟩ := command_inj he
    obtain ⟨hj', rfl⟩ := command_inj he'
    rw [← hid i hi, ← hid i' hi', hj, hj']
  · rw [UInt8.lt_iff_toNat_lt, h.count_toNat] at hj
    refine ⟨fragment_data data (p.fragment_payload mode) j.toNat, (hmem _).2 ⟨j.toNat, hj, ?_⟩⟩
    rw [UInt8.ofNat_toNat]

section Fresh

variable (addr : SocketAddr) (config : Config) (time : Instant) (draw : PeerDraw)

theorem sequence_new (mode : Mode) : mode.sequence (.new addr config time draw) = 0 := by
  cases mode with
  | Reliable o =>
    unfold Mode.sequence Peer.new new_handler
    dsimp only
    split <;> rfl
  | Unreliable => rfl

theorem command_data_size_fragment (g : Group) (j : UInt8) (d : SharedBytes) :
    command_data_size (g.command j d) = d.as_slice.length := by
  rw [SharedBytes.as_slice_length]
  unfold Group.command
  cases g.mode <;> rfl

/-- The fragments of a message carry as many bytes as the message has. -/
theorem Splits.waiting (h : p.Splits mode data) (ch : UInt8) :
    waiting (p.message_commands mode ch data) = data.length := by
  have hlen : 0 < data.length := by
    have := h.long
    omega
  have hflat := congrArg List.length (flatten_fragments h.payload hlen)
  rw [h.message_commands, Peer.waiting, List.map_map, ← hflat, List.length_flatten, List.map_map]
  refine congrArg List.sum (List.map_congr_left fun i _ => ?_)
  exact command_data_size_fragment ..

/-- A fresh peer queues all fragments of a message it has room for. -/
theorem Splits.enqueue_new (h : (Peer.new addr config time draw).Splits mode data) (ch : UInt8)
    (hw : config.max_waiting_data = 0 ∨ data.length ≤ config.max_waiting_data) :
    ∃ sender, mode.enqueue (.new addr config time draw) ch data = .ok (0, sender) ∧
      sender.commands = (Peer.new addr config time draw).message_commands mode ch data := by
  have hadmits : ((Peer.new addr config time draw).numbered mode).Admits
      (Peer.waiting ((Peer.new addr config time draw).message_commands mode ch data)) := by
    rw [h.waiting]
    unfold Admits
    cases mode <;> simp [numbered, Peer.new] <;> omega
  refine ⟨_, (enqueue_eq ..).trans (by rw [sequence_new]), ?_⟩
  rw [requeue_of_admits hadmits]
  cases mode <;> exact List.nil_append _

/-- On a fresh peer a message that is complete is delivered at once. -/
theorem completes_fresh (hg : g.sequence = 0) (h : p.channel_states = ∅) : (p.completes g).1 = [.from_vec g.data] := by
  have hfresh : Channels [] p := ⟨fun ch _ => by simp [channel_state, h], by simp⟩
  unfold Peer.completes
  split
  · rw [hg]
    exact (hfresh.deliver g.channel_id (.from_vec g.data)).1
  · rfl

/-- Fragments are put together again on a fresh peer, in whatever order and
however often they arrive. -/
theorem Sends.arrive {cmds : List ProtocolCommand} (h : Sends g cmds) (hne : cmds ≠ []) (hseq : g.sequence = 0)
    {arrivals : List Arrival} (hmem : ∀ a ∈ arrivals, a.1 ∈ cmds) (hall : cmds ⊆ arrivals.map Prod.fst) :
    ∃ before last after, arrivals = before ++ last :: after ∧ last.1 ∉ before.map Prod.fst ∧
      cmds ⊆ (before ++ [last]).map Prod.fst ∧
      ∃ early packet late receiver,
        Peer.arrive (.new addr config time draw) arrivals = .ok (early ++ [packet] :: late, receiver) ∧
        early.length = before.length ∧ (∀ out ∈ early, out = []) ∧ packet.payload = g.data ∧
        ∀ out ∈ late, ∀ x ∈ out, x.payload = g.data := by
  obtain ⟨before, last, after, rfl, hlast, hnot, hsub⟩ := exists_last_missing Prod.fst hne hall
  refine ⟨before, last, after, rfl, hnot, hsub, ?_⟩
  obtain ⟨c, t, dr⟩ := last
  obtain ⟨j, d, hlt, hchunk, rfl⟩ := h.fragments c hlast
  have hbefore : ∀ a ∈ before, a.1 ∈ cmds := fun a ha => hmem a (by simp [ha])
  have hmissing : ∀ a ∈ before, ∀ d', a.1 ≠ g.command j d' := by
    intro a ha d' he
    have hd := h.unique j d d' hlast (he ▸ hbefore a ha)
    exact hnot (List.mem_map.2 ⟨a, ha, by rw [he, hd]⟩)
  obtain ⟨early, p, hearly, hlen, hnone, hj, hcs, hheld⟩ := arrive_missing hlt (fun a ha => h.fragments _ (hbefore a ha))
    hmissing (collects_new g addr config time draw).joins (by simp [Held, Peer.new])
  obtain ⟨q, packets, hproc, ⟨⟨i, hi, hij, hmiss⟩, -⟩ | ⟨-, hcd⟩⟩ := process_fragment hj hlt hchunk t dr
  · -- every other fragment arrived before
    obtain ⟨d', hd'⟩ := h.all i hi
    obtain ⟨a, ha, he⟩ := List.mem_map.1 (hsub hd')
    rcases List.mem_append.1 ha with ha | ha
    · exact absurd (hheld i (.inr ⟨a, ha, d', he⟩)) hmiss
    · obtain rfl := List.mem_singleton.1 ha
      exact absurd (command_inj he).1.symm hij
  · -- the group is complete; what comes later opens it anew
    have hpackets : packets = [(p.packet g.data g.mode.delivery .None g.channel_id, .Packet)] := by
      rw [hcd.packets, completes_fresh hseq hcs, released_one]
    have hcollects : Collects g q := by
      refine ⟨fun b hb => ?_, ?_⟩
      · rw [hcd.open_none] at hb
        cases hb
      · exact (((collects_new g addr config time draw).waits.same hcs).completes (fun _ => rfl) hcd.channels).2
    have hafter : ∀ a ∈ after, IsFragment g a.1 := fun a ha => h.fragments _ (hmem a (by simp [ha]))
    obtain ⟨late, receiver, hlate, hout⟩ := hcollects.arrive hafter
    have hrest := arrive_cons hproc hlate
    rw [hpackets] at hrest
    exact ⟨early, _, late, receiver, arrive_append hearly hrest, hlen, hnone, rfl, hout⟩

/-- The fragments of the message, sent by one peer and arriving at the other
in whatever order and however often: nothing is delivered before the last
missing one, the message with it, and nothing but the message after it. -/
def Reassembles (sender receiver : Peer) (mode : Mode) (ch : UInt8) (data : Bytes) : Prop :=
  ∃ sequence sender', mode.enqueue sender ch data = .ok (sequence, sender') ∧
    ∀ arrivals : List Arrival, (∀ a ∈ arrivals, a.1 ∈ sender'.commands) →
      sender'.commands ⊆ arrivals.map Prod.fst →
      ∃ before last after, arrivals = before ++ last :: after ∧ last.1 ∉ before.map Prod.fst ∧
        sender'.commands ⊆ (before ++ [last]).map Prod.fst ∧
        ∃ early packet late receiver', receiver.arrive arrivals = .ok (early ++ [packet] :: late, receiver') ∧
          early.length = before.length ∧ (∀ out ∈ early, out = []) ∧ packet.payload = data ∧
          ∀ out ∈ late, ∀ x ∈ out, x.payload = data

/-- Reassembly inverts fragmentation under any arrival order. -/
theorem fragments_reassemble (addr' : SocketAddr) (config' : Config) (time' : Instant) (draw' : PeerDraw) (mode : Mode)
    (ch : UInt8) (data : Bytes) (hs : (Peer.new addr config time draw).Splits mode data)
    (hw : config.max_waiting_data = 0 ∨ data.length ≤ config.max_waiting_data) :
    Reassembles (.new addr config time draw) (.new addr' config' time' draw') mode ch data := by
  obtain ⟨sender, he, hq⟩ := hs.enqueue_new addr config time draw ch hw
  refine ⟨0, sender, he, fun arrivals hmem hall => ?_⟩
  have hne : sender.commands ≠ [] := by
    have hlong := hs.long
    obtain ⟨-, -, hpos⟩ := div_ceil_bounds hs.payload (show 0 < data.length by omega)
    rw [hq, hs.message_commands, Ne, List.map_eq_nil_iff, List.range_eq_nil]
    exact Nat.pos_iff_ne_zero.1 hpos
  rw [hq] at hmem hall hne
  have hall := (hs.sends ch).arrive addr' config' time' draw' hne (sequence_new ..) hmem hall
  rw [hs.group_data ch] at hall
  rw [hq]
  exact hall

end Fresh

/-- A configuration with datagrams of 24 bytes and messages of two fragments. -/
def narrow : Config :=
  { Config.default with fragment_size := 24, max_fragments := 2, use_checksums := false }

def narrow_peer : Peer := .new ⟨.V4 0, 0⟩ narrow 0 ⟨0, 0, 0⟩

/-- A message of 20 bytes in two fragments. -/
theorem fragments_reassemble_two :
    narrow_peer.Splits (.Reliable true) (List.replicate 20 7) ∧
      Reassembles narrow_peer narrow_peer (.Reliable true) 3 (List.replicate 20 7) := by
  have hs : narrow_peer.Splits (.Reliable true) (List.replicate 20 7) := by
    constructor <;> decide
  exact ⟨hs, fragments_reassemble _ _ _ _ _ _ _ _ _ _ _ hs (by decide)⟩

/-! ## Whole or not at all -/

/-- A message that arrives whole is delivered, or waits in its channel. -/
theorem process_whole_delivers {P : UInt8 → Bytes → Prop} {d : SharedBytes} (hw : Waits P p) (hd : P ch d.as_slice)
    (mode : Mode) (s : UInt16) (t : Instant) (draw : UInt16) :
    ∃ p' packets, p.process_command (mode.whole ch s d) t draw = .ok (p', .ok packets) ∧ Waits P p' ∧
      ∀ x ∈ packets, P ch x.1.payload := by
  cases mode with
  | Reliable o =>
    have hsame := sameInbox_enqueue_ack_command ((p.heard t).process_acknowledge s 0 t)
    have hq : Waits P (((p.heard t).process_acknowledge s 0 t).enqueue_ack_command none) := hw.same hsame.channels
    cases o with
    | true =>
      obtain ⟨hout, hend⟩ := hq.deliver ch s (d := .from_arc d.to_arc) (by simpa using hd)
      refine ⟨_, _, process_command_reliable .., hend, fun x hx => ?_⟩
      obtain ⟨y, hy, rfl⟩ := List.mem_map.1 hx
      simpa [packet] using hout y hy
    | false =>
      refine ⟨_, _, process_command_reliable .., hq, fun x hx => ?_⟩
      obtain rfl := List.mem_singleton.1 hx
      simpa [packet] using hd
  | Unreliable =>
    refine ⟨_, _, rfl, hw.same rfl, fun x hx => ?_⟩
    obtain rfl := List.mem_singleton.1 hx
    simpa [packet] using hd

theorem Truncates.truncated_data (h : p.Truncates mode data) (ch : UInt8) :
    (p.truncated mode ch data).data = data.take (p.fragment_payload mode) := by
  have hlen : 0 < data.length := by
    have := h.long
    omega
  obtain ⟨-, -, hpos⟩ := div_ceil_bounds h.payload hlen
  have hslice := as_slice_fragment_data h.payload hlen hpos
  rw [Nat.zero_mul, List.drop_zero] at hslice
  simp [Group.data, truncated, hslice]

/-- A fresh peer queues nothing but commands of the message. -/
theorem fresh_commands_subset (addr : SocketAddr) (config : Config) (time : Instant) (draw : PeerDraw) (mode : Mode)
    (ch : UInt8) (data : Bytes) :
    (((Peer.new addr config time draw).numbered mode).requeue
        ((Peer.new addr config time draw).message_commands mode ch data)).commands ⊆
      (Peer.new addr config time draw).message_commands mode ch data := by
  obtain ⟨kept, hk, hq⟩ := requeue_queues ((Peer.new addr config time draw).numbered mode)
    ((Peer.new addr config time draw).message_commands mode ch data)
  have hempty : ((Peer.new addr config time draw).numbered mode).commands = [] := by cases mode <;> rfl
  rw [hq.commands, hempty, List.nil_append]
  exact hk.subset

/-- Of a message with more fragments than `max_fragments` there is one command
at most, the first fragment. -/
theorem Truncates.message_commands (h : p.Truncates mode data) (ch : UInt8) {c : ProtocolCommand}
    (hc : c ∈ p.message_commands mode ch data) :
    c = (p.truncated mode ch data).command 0 (fragment_data data (p.fragment_payload mode) 0) := by
  rcases message_commands_cases p mode ch data with hnone | ⟨hlen, -⟩ | ⟨-, hfirst⟩ | ⟨hs, -⟩
  · rw [hnone] at hc
    cases hc
  · exact absurd h.long (Nat.not_lt.2 hlen)
  · exact List.mem_singleton.1 (hfirst ▸ hc)
  · exact absurd h hs.not_truncates

/-- The commands of one message, in whatever order, with losses and repeats:
what is delivered is the message, except that of a message with more fragments
than `max_fragments` the first fragment alone is sent, and delivered. -/
theorem delivered_whole_or_truncated (addr addr' : SocketAddr) (config config' : Config) (time time' : Instant)
    (draw draw' : PeerDraw) (mode : Mode) (ch : UInt8) (data : Bytes) :
    ∃ sequence sender, mode.enqueue (.new addr config time draw) ch data = .ok (sequence, sender) ∧
      ((Peer.new addr config time draw).Truncates mode data → ∀ c ∈ sender.commands,
        c = ((Peer.new addr config time draw).truncated mode ch data).command 0
          (fragment_data data ((Peer.new addr config time draw).fragment_payload mode) 0)) ∧
      ∀ arrivals : List Arrival, (∀ a ∈ arrivals, a.1 ∈ sender.commands) →
        ∃ outs receiver, arrive (.new addr' config' time' draw') arrivals = .ok (outs, receiver) ∧
          ∀ out ∈ outs, ∀ x ∈ out,
            (¬ (Peer.new addr config time draw).Truncates mode data → x.payload = data) ∧
            ((Peer.new addr config time draw).Truncates mode data →
              x.payload = data.take ((Peer.new addr config time draw).fragment_payload mode)) := by
  have hsent := fresh_commands_subset addr config time draw mode ch data
  refine ⟨_, _, enqueue_eq .., fun ht c hc => ht.message_commands ch (hsent hc), fun arrivals hmem => ?_⟩
  generalize Peer.new addr config time draw = p at hmem hsent ⊢
  have hsub : ∀ a ∈ arrivals, a.1 ∈ p.message_commands mode ch data := fun a ha => hsent (hmem a ha)
  rcases message_commands_cases p mode ch data with hc | ⟨hlen, hc⟩ | ⟨ht, hc⟩ | ⟨hs, hc⟩
  · -- nothing was queued, so nothing arrives
    rw [hc] at hsub
    obtain rfl : arrivals = [] := List.eq_nil_iff_forall_not_mem.2 fun a ha => absurd (hsub a ha) List.not_mem_nil
    exact ⟨[], _, rfl, by simp⟩
  · have hnot : ¬ p.Truncates mode data := fun ht => absurd ht.long (Nat.not_lt.2 hlen)
    rw [hc] at hsub
    obtain ⟨outs, receiver, he, -, hout⟩ := arrive_all (I := Waits fun _ x => x = data)
      (K := fun c => c = mode.whole ch (mode.sequence p) (.from_arc data)) (P := fun x => x.payload = data)
      (fun q c t dr hq hk => hk ▸ process_whole_delivers hq (by simp) mode _ t dr)
      (fun a ha => List.mem_singleton.1 (hsub a ha)) (waits_new _ addr' config' time' draw')
    exact ⟨outs, receiver, he, fun out ho x hx => ⟨fun _ => hout out ho x hx, fun ht => absurd ht hnot⟩⟩
  · -- the first fragment is a group of its own
    rw [hc] at hsub
    have hfrag : ∀ a ∈ arrivals, IsFragment (p.truncated mode ch data) a.1 := fun a ha =>
      ⟨0, _, by simp [truncated], rfl, List.mem_singleton.1 (hsub a ha)⟩
    obtain ⟨outs, receiver, he, hout⟩ := (collects_new _ addr' config' time' draw').arrive hfrag
    rw [ht.truncated_data] at hout
    exact ⟨outs, receiver, he, fun out ho x hx => ⟨fun hn => absurd ht hn, fun _ => hout out ho x hx⟩⟩
  · have hfrag : ∀ a ∈ arrivals, IsFragment (p.group mode ch data) a.1 := fun a ha =>
      (hs.sends ch).fragments _ (hsub a ha)
    obtain ⟨outs, receiver, he, hout⟩ := (collects_new _ addr' config' time' draw').arrive hfrag
    rw [hs.group_data] at hout
    exact ⟨outs, receiver, he, fun out ho x hx => ⟨fun _ => hout out ho x hx, fun ht => absurd ht hs.not_truncates⟩⟩

/-- A message of 30 bytes in three fragments, where two are allowed: its first
12 bytes are delivered. -/
theorem delivers_first_twelve :
    ∃ sender receiver packet,
      (Mode.Unreliable).enqueue narrow_peer 3 (List.replicate 30 7) = .ok (0, sender) ∧
      narrow_peer.arrive (sender.commands.map fun c => (c, 0, 0)) = .ok ([[packet]], receiver) ∧
      packet.payload = (List.replicate 30 7).take 12 ∧ packet.payload ≠ List.replicate 30 7 := by
  refine ⟨_, _, _, rfl, rfl, ?_⟩
  decide

end Peer

end Bitfold
