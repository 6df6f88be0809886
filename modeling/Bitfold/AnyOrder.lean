import Bitfold.Repeats
/-!
# Any order of arrival

Ordered messages with sequences 0, 1, ... on one channel, each command of them
processed once. At every point the longest run of complete messages from
sequence 0 on has been delivered, in order.
-/

namespace Bitfold

open Lib ProtocolCommand

namespace Message

variable {m : Message} {c : ProtocolCommand} {j : UInt8} {cmds : List ProtocolCommand}

/-! ## Each command once -/

/-- All commands of the message have come. -/
def AllIn (m : Message) (cmds : List ProtocolCommand) : Prop := ∀ c ∈ m.commands, c ∈ cmds.map owned

/-- One that carries this part has come. -/
def Has (m : Message) (cmds : List ProtocolCommand) (j : UInt8) : Prop := ∃ c ∈ cmds, m.part c = some j

theorem allIn_iff_has : m.AllIn cmds ↔ ∀ j : UInt8, j.toNat < m.parts → m.Has cmds j := by
  constructor
  · intro h j hj
    rw [← commands_length] at hj
    obtain ⟨c, hc, he⟩ := List.mem_map.1 (h _ (List.getElem_mem hj))
    exact ⟨c, hc, part_eq_some_iff.2 (by rw [he, List.getElem?_eq_getElem hj])⟩
  · intro h x hx
    obtain ⟨i, hi, rfl⟩ := List.mem_iff_getElem.1 hx
    have hi' : (UInt8.ofNat i).toNat = i := by
      have := m.parts_le.2
      rw [commands_length] at hi
      rw [UInt8.toNat_ofNat']
      omega
    obtain ⟨c, hc, hpart⟩ := h (.ofNat i) (by rw [hi', ← commands_length]; exact hi)
    rw [part_eq_some_iff, hi', List.getElem?_eq_getElem hi] at hpart
    exact List.mem_map.2 ⟨c, hc, (Option.some.inj hpart).symm⟩

theorem has_append_none (hc : m.part c = none) (j : UInt8) : m.Has (cmds ++ [c]) j ↔ m.Has cmds j := by
  unfold Has
  constructor
  · rintro ⟨x, hx, hj⟩
    rcases List.mem_append.1 hx with hx | hx
    · exact ⟨x, hx, hj⟩
    · rw [List.mem_singleton.1 hx, hc] at hj
      cases hj
  · rintro ⟨x, hx, hj⟩
    exact ⟨x, List.mem_append_left _ hx, hj⟩

theorem has_append_some (hc : m.part c = some j) (i : UInt8) : m.Has (cmds ++ [c]) i ↔ i = j ∨ m.Has cmds i := by
  unfold Has
  constructor
  · rintro ⟨x, hx, hi⟩
    rcases List.mem_append.1 hx with hx | hx
    · exact .inr ⟨x, hx, hi⟩
    · rw [List.mem_singleton.1 hx, hc] at hi
      exact .inl (Option.some.inj hi).symm
  · rintro (rfl | ⟨x, hx, hi⟩)
    · exact ⟨c, by simp, hc⟩
    · exact ⟨x, List.mem_append_left _ hx, hi⟩

/-- If no command comes twice, the message is complete once all have come, and
until then the parts that have come are gathered. -/
theorem gathered_of_nodup (m : Message) (hn : (cmds.map owned).Nodup) :
    (m.AllIn cmds → m.completions cmds = 1) ∧
    (¬ m.AllIn cmds → m.completions cmds = 0 ∧ ∀ j, j ∈ (m.gathered cmds).1 ↔ m.Has cmds j) := by
  induction cmds using List.reverseRecOn with
  | nil =>
    refine ⟨fun hall => ?_, fun _ => ⟨rfl, fun j => by simp [gathered, Has]⟩⟩
    obtain ⟨c, hc, -⟩ := allIn_iff_has.1 hall 0 m.parts_le.1
    cases hc
  | append_singleton cmds c ih =>
    rw [List.map_append, List.map_singleton, List.nodup_append] at hn
    obtain ⟨hn, -, hfresh⟩ := hn
    obtain ⟨ihall, ihnot⟩ := ih hn
    rw [allIn_iff_has] at ihall ihnot ⊢
    cases hpart : m.part c with
    | none =>
      -- not one of its commands
      have hsame : m.gathered (cmds ++ [c]) = m.gathered cmds := by
        rw [gathered_append, gather, hpart]
      simp only [has_append_none hpart, completions, hsame]
      exact ⟨ihall, ihnot⟩
    | some j =>
      -- the part has not come before, so the message was not complete
      have hnew : ¬ m.Has cmds j := by
        rintro ⟨x, hx, hj⟩
        rw [part_eq_some_iff] at hj hpart
        rw [hj] at hpart
        exact hfresh _ (List.mem_map_of_mem hx) _ (List.mem_singleton_self _) (Option.some.inj hpart)
      obtain ⟨hzero, hheld⟩ := ihnot fun h => hnew (h j (part_lt hpart))
      have hcomplete : m.completes (m.gathered cmds).1 j = true ↔
          ∀ i : UInt8, i.toNat < m.parts → m.Has (cmds ++ [c]) i := by
        rw [completes, decide_eq_true_eq]
        constructor
        · intro h i hi
          have hmem := h i.toNat hi
          rw [UInt8.ofNat_toNat, Finset.mem_insert, hheld] at hmem
          exact (has_append_some hpart i).2 hmem
        · intro h i hi
          rw [Finset.mem_insert, hheld, ← has_append_some hpart]
          apply h _
          rw [UInt8.toNat_ofNat']
          omega
      rw [completions, gathered_self hpart, hzero]
      refine ⟨fun hall => ?_, fun hnot => ?_⟩
      · rw [if_pos (hcomplete.2 hall)]
      · rw [if_neg fun h => hnot (hcomplete.1 h)]
        refine ⟨rfl, fun i => ?_⟩
        rw [Finset.mem_insert, hheld, has_append_some hpart]

end Message

/-! ## Messages with sequences from 0 on -/

/-- The messages: the `i`-th has sequence `i`. -/
def consecutive (ch : UInt8) (carriages : List Carriage) : List Message :=
  carriages.mapIdx fun i carriage => ⟨ch, .ofNat i, true, carriage⟩

section

variable {ch : UInt8} {carriages : List Carriage} {cmds : List ProtocolCommand} {m : Message} {i : Nat}

theorem consecutive_length (ch : UInt8) (carriages : List Carriage) :
    (consecutive ch carriages).length = carriages.length := by
  simp [consecutive]

theorem consecutive_get (h : (consecutive ch carriages)[i]? = some m) :
    m.sequence = .ofNat i ∧ m.channel_id = ch ∧ m.ordered = true := by
  unfold consecutive at h
  rw [List.getElem?_mapIdx, Option.map_eq_some_iff] at h
  obtain ⟨carriage, -, rfl⟩ := h
  exact ⟨rfl, rfl, rfl⟩

theorem consecutive_distinct (hn : carriages.length ≤ 65535) :
    ((consecutive ch carriages).map Message.sequence).Nodup := by
  have hseq : (consecutive ch carriages).map Message.sequence = (List.range carriages.length).map UInt16.ofNat := by
    apply List.ext_getElem (by simp [consecutive])
    intro i hi hi'
    simp [consecutive]
  rw [hseq]
  refine List.Nodup.map_on (fun i hi i' hi' he => ?_) List.nodup_range
  have hi := List.mem_range.1 hi
  have hi' := List.mem_range.1 hi'
  rw [← ChannelState.toNat_ofNat_of_lt (n := i) (by omega), he, ChannelState.toNat_ofNat_of_lt (by omega)]

/-- Message `i` has been received completely. -/
def CompleteAt (ch : UInt8) (carriages : List Carriage) (cmds : List ProtocolCommand) (i : Nat) : Prop :=
  ∃ m, (consecutive ch carriages)[i]? = some m ∧ m.AllIn cmds

theorem CompleteAt.lt (h : CompleteAt ch carriages cmds i) : i < carriages.length := by
  obtain ⟨m, hm, -⟩ := h
  rw [← consecutive_length ch]
  exact (List.getElem?_eq_some_iff.1 hm).1

/-- A message with the sequence of number `i` is the `i`-th one. -/
theorem consecutive_of_sequence (hn : carriages.length ≤ 65535) (hm : m ∈ consecutive ch carriages) (hi : i < 65536)
    (hs : m.sequence = .ofNat i) : (consecutive ch carriages)[i]? = some m := by
  obtain ⟨i', hm'⟩ := List.mem_iff_getElem?.1 hm
  have hlt := (List.getElem?_eq_some_iff.1 hm').1
  rw [consecutive_length] at hlt
  have hs' := (consecutive_get hm').1
  rw [hs, ← UInt16.toNat_inj, ChannelState.toNat_ofNat_of_lt hi, ChannelState.toNat_ofNat_of_lt (by omega)] at hs'
  rw [hs']
  exact hm'

/-- If no command comes twice, a message is counted when it is received
completely, and once. -/
theorem times_consecutive (hn : carriages.length ≤ 65535) (hnodup : (cmds.map owned).Nodup) (hi : i < 65536) :
    (0 < times (consecutive ch carriages) ch cmds (.ofNat i) ↔ CompleteAt ch carriages cmds i) ∧
      times (consecutive ch carriages) ch cmds (.ofNat i) ≤ 1 := by
  unfold times
  cases hf : ordered_message (consecutive ch carriages) ch (.ofNat i) with
  | none =>
    refine ⟨⟨fun h => (Nat.lt_irrefl 0 h).elim, ?_⟩, Nat.zero_le 1⟩
    rintro ⟨m, hm, -⟩
    obtain ⟨hs, hch, ho⟩ := consecutive_get hm
    have hsome := ordered_message_eq (consecutive_distinct hn) (List.mem_of_getElem? hm) ho
    rw [hs, hch, hf] at hsome
    cases hsome
  | some m =>
    obtain ⟨hm, hs, -, -⟩ := of_ordered_message hf
    have hget := consecutive_of_sequence hn hm hi hs
    obtain ⟨hall, hnot⟩ := m.gathered_of_nodup hnodup
    simp only [Option.map_some, Option.getD_some]
    by_cases h : m.AllIn cmds
    · rw [hall h]
      exact ⟨⟨fun _ => ⟨m, hget, h⟩, fun _ => Nat.one_pos⟩, le_rfl⟩
    · rw [(hnot h).1]
      refine ⟨⟨fun h0 => (Nat.lt_irrefl 0 h0).elim, ?_⟩, Nat.zero_le 1⟩
      rintro ⟨m', hm', h'⟩
      rw [hget] at hm'
      cases hm'
      exact absurd h' h

theorem once_consecutive (hn : carriages.length ≤ 65535) (hnodup : (cmds.map owned).Nodup) :
    Once (consecutive ch carriages) cmds := by
  refine ⟨fun m hm ho => ?_, fun ch' hall => ?_⟩
  · obtain ⟨i, hi⟩ := List.mem_iff_getElem?.1 hm
    rw [(consecutive_get hi).2.2] at ho
    cases ho
  · by_cases hch : ch' = ch
    · subst hch
      exact (times_consecutive (i := 0) hn hnodup (by omega)).2
    · have h0 := hall 0
      unfold times at h0 ⊢
      cases hf : ordered_message (consecutive ch carriages) ch' 0 with
      | none => exact Nat.zero_le 1
      | some m =>
        obtain ⟨hm, -, hch', -⟩ := of_ordered_message hf
        obtain ⟨i, hi⟩ := List.mem_iff_getElem?.1 hm
        exact absurd (hch'.symm.trans (consecutive_get hi).2.1) hch

/-- The commands of all the messages. -/
def all_commands (ch : UInt8) (carriages : List Carriage) : List ProtocolCommand :=
  (consecutive ch carriages).flatMap Message.commands

theorem commands_nodup (m : Message) : m.commands.Nodup := by
  refine List.nodup_iff_getElem?_ne_getElem?.2 fun i j hij hj he => ?_
  rw [List.getElem?_eq_getElem hj] at he
  have hi := Message.part_of_getElem he
  have hj' := Message.part_of_getElem (List.getElem?_eq_getElem hj)
  rw [hi, Option.some.injEq, ← UInt8.toNat_inj, UInt8.toNat_ofNat', UInt8.toNat_ofNat'] at hj'
  have := m.parts_le.2
  rw [Message.commands_length] at hj
  omega

theorem feeds_of_mem {c : ProtocolCommand} (h : c ∈ m.commands) :
    AcknowledgmentHandler.feeds c = some m.sequence := by
  obtain ⟨i, hi⟩ := List.mem_iff_getElem?.1 h
  exact Message.feeds_of_part (Message.part_of_getElem hi)

/-- No command belongs to two messages. -/
theorem all_commands_nodup (hn : carriages.length ≤ 65535) : (all_commands ch carriages).Nodup := by
  refine List.nodup_flatMap.2 ⟨fun m _ => commands_nodup m, ?_⟩
  refine (List.pairwise_map.1 (consecutive_distinct hn)).imp fun hne c hc hc' => hne ?_
  have h := feeds_of_mem hc
  rw [feeds_of_mem hc'] at h
  exact (Option.some.inj h).symm

namespace Peer

variable {arrivals seen rest : List Arrival}

theorem carry_consecutive (h : (arrivals.map fun a => a.1.owned) ⊆ all_commands ch carriages) :
    Carry (consecutive ch carriages) arrivals := by
  intro a ha
  obtain ⟨m, hm, hc⟩ := List.mem_flatMap.1 (h (List.mem_map_of_mem ha))
  obtain ⟨i, hi⟩ := List.mem_iff_getElem?.1 hc
  refine ⟨m, hm, ?_⟩
  rw [← Message.part_owned, Message.part_of_getElem hi]
  rfl

/-- The first `k` messages have come completely and message `k` has not. -/
def LongestRun (ch : UInt8) (carriages : List Carriage) (cmds : List ProtocolCommand) (k : Nat) : Prop :=
  (∀ i < k, CompleteAt ch carriages cmds i) ∧ ¬ CompleteAt ch carriages cmds k

/-- Deliveries traced back to sequences 0 to `k - 1` are the first `k`
messages. -/
theorem payloads_of_traced (hn : carriages.length ≤ 65535) {xs : List (UInt16 × Packet)} {k : Nat}
    (hk : k ≤ carriages.length) (hfst : xs.map Prod.fst = (List.range k).map UInt16.ofNat)
    (hall : ∀ x ∈ xs, Matches (consecutive ch carriages) x) :
    xs.map (fun x => x.2.payload) = ((consecutive ch carriages).take k).map Message.payload := by
  have hlen : xs.length = k := by
    have := congrArg List.length hfst
    simpa using this
  apply List.ext_getElem (by simp [consecutive_length, hlen, hk])
  intro i hi hi'
  simp only [List.length_map] at hi
  have hseq : xs[i].1 = .ofNat i := by
    have := congrArg (·[i]?) hfst
    simpa [hi, hlen ▸ hi] using this
  obtain ⟨m, hm, hs, -, hpay⟩ := hall _ (List.getElem_mem hi)
  rw [hseq] at hs
  have hget := consecutive_of_sequence hn hm (by omega) hs
  obtain ⟨hlt, rfl⟩ := List.getElem?_eq_some_iff.1 hget
  simp [hpay]

/-- What has been delivered when some of the commands have come, each once. -/
theorem arrive_longest_run (hn : carriages.length ≤ 65535) (addr : SocketAddr) (config : Config) (time : Instant)
    (draw : PeerDraw) (hsub : (seen.map fun a => a.1.owned) ⊆ all_commands ch carriages)
    (hnodup : (seen.map fun a => a.1.owned).Nodup) :
    ∃ outs p' k, arrive (.new addr config time draw) seen = .ok (outs, p') ∧
      LongestRun ch carriages (seen.map Prod.fst) k ∧
      outs.flatten.map Packet.payload = ((consecutive ch carriages).take k).map Message.payload := by
  have hd : ((consecutive ch carriages).map Message.sequence).Nodup := consecutive_distinct hn
  have hcarry := carry_consecutive hsub
  have hnodup' : ((seen.map Prod.fst).map owned).Nodup := by
    rw [List.map_map]
    exact hnodup
  have hf := fills_new (consecutive ch carriages) addr config time draw
  obtain ⟨outs, p', he, hsnd, hall⟩ := traced_matches hd hcarry hf
  have hrun := Counts.run hd hcarry hf (counts_new _ addr config time draw) (once_nil _)
  rw [List.nil_append, List.nil_append] at hrun
  rcases hrun with ⟨-, n, q, hcounts⟩ | ⟨ho, -⟩
  · have htimes : ∀ i < 65536, (0 < times (consecutive ch carriages) ch (seen.map Prod.fst) (.ofNat i) ↔
        CompleteAt ch carriages (seen.map Prod.fst) i) ∧ _ := fun i hi => times_consecutive hn hnodup' hi
    have hbound := (hcounts.channels ch).bound
    have hpassed : ∀ i < n ch, CompleteAt ch carriages (seen.map Prod.fst) i := fun i hi =>
      (htimes i (by omega)).1.1 ((hcounts.channels ch).passed i hi)
    have hle : n ch ≤ carriages.length := by
      by_contra hlt
      exact Nat.lt_irrefl _ (hpassed carriages.length (by omega)).lt
    -- every message delivered is an ordered one of the channel
    have hfst : (traced (.new addr config time draw) seen).map Prod.fst = (List.range (n ch)).map UInt16.ofNat := by
      rw [← hcounts.ordered ch]
      refine (List.filter_eq_self.2 fun s hs => ?_).symm
      obtain ⟨m, hm, rfl⟩ := known_of_matches hall s hs
      obtain ⟨i, hi⟩ := List.mem_iff_getElem?.1 hm
      obtain ⟨-, hch, ho⟩ := consecutive_get hi
      have hsome := ordered_message_eq hd hm ho
      rw [hch] at hsome
      rw [hsome]
      rfl
    refine ⟨outs, p', n ch, he, ⟨hpassed, fun hc => ?_⟩, ?_⟩
    · have hzero := hcounts.rest ch (by omega)
      have := (htimes (n ch) (by omega)).1.2 hc
      omega
    · rw [← hsnd, List.map_map]
      exact payloads_of_traced hn hle hfst hall
  · exact absurd (once_consecutive hn hnodup') ho

/-- In whatever order the commands come, the messages are delivered in their
order, and at every point as many of them as have come without a gap. -/
theorem delivered_in_any_order (hn : carriages.length ≤ 65535) (addr : SocketAddr) (config : Config) (time : Instant)
    (draw : PeerDraw) (hperm : (arrivals.map fun a => a.1.owned).Perm (all_commands ch carriages)) :
    (∃ outs p', arrive (.new addr config time draw) arrivals = .ok (outs, p') ∧
      outs.flatten.map Packet.payload = (consecutive ch carriages).map Message.payload) ∧
    ∀ seen rest, arrivals = seen ++ rest → ∃ outs p' k, arrive (.new addr config time draw) seen = .ok (outs, p') ∧
      LongestRun ch carriages (seen.map Prod.fst) k ∧
      outs.flatten.map Packet.payload = ((consecutive ch carriages).take k).map Message.payload := by
  have hnodup : (arrivals.map fun a => a.1.owned).Nodup := hperm.nodup_iff.2 (all_commands_nodup hn)
  refine ⟨?_, fun seen rest hsplit => ?_⟩
  · obtain ⟨outs, p', k, he, ⟨-, hnot⟩, hout⟩ := arrive_longest_run hn addr config time draw hperm.subset hnodup
    refine ⟨outs, p', he, ?_⟩
    -- all messages have come, so the run is as long as the list
    have hlong : carriages.length ≤ k := by
      by_contra hlt
      have hk : k < (consecutive ch carriages).length := by
        rw [consecutive_length]
        omega
      refine hnot ⟨_, List.getElem?_eq_getElem hk, fun c hc => ?_⟩
      rw [List.map_map]
      exact hperm.symm.subset (List.mem_flatMap.2 ⟨_, List.getElem_mem hk, hc⟩)
    rw [hout, List.take_of_length_le]
    rw [consecutive_length]
    exact hlong
  · subst hsplit
    rw [List.map_append] at hnodup hperm
    refine arrive_longest_run hn addr config time draw (fun c hc => ?_) (List.nodup_append.1 hnodup).1
    exact hperm.subset (List.mem_append_left _ hc)

/-- A message in two fragments comes before the one sent before it, its second
fragment first. -/
theorem delivered_in_any_order_two :
    ∃ outs p', arrive (.new ⟨.V4 0, 0⟩ Config.default 0 ⟨0, 0, 0⟩)
        [(.SendFragment 0 1 true 1 2 (.from_vec [8]), 0, 0), (.SendFragment 0 1 true 0 2 (.from_vec [7]), 0, 0),
          (.SendReliable 0 0 true (.from_vec [6]), 0, 0)] = .ok (outs, p') ∧
      outs.flatten.map Packet.payload = [[6], [7, 8]] :=
  (delivered_in_any_order (show [Carriage.Whole [6], .Fragments [[7], [8]] (by decide) (by decide)].length ≤ 65535 by
    decide) ⟨.V4 0, 0⟩ Config.default 0 ⟨0, 0, 0⟩ (show List.Perm _ (all_commands 0 _) by decide)).1

end Peer

end

end Bitfold
