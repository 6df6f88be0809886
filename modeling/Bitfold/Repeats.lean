import Bitfold.Gathering
/-!
# Messages that come more than once

Which messages a peer delivers a second time. The deliveries are traced back
to the sequences of the messages (`traced`). An unordered message is delivered
whenever it is complete. An ordered channel lets a message through once, until
all 65536 sequences of one channel have been used: then a repeat of message 0
is delivered again.
-/

namespace Bitfold

open Lib ProtocolCommand

/-! ## The ordered channel -/

namespace ChannelState

/-- What waits in the channel belongs to its sequence. -/
def Labelled (P : UInt16 → Bytes → Prop) (s : ChannelState) : Prop :=
  ∀ k d, s.buffered_packets[k]? = some d → P k d.as_slice

/-- The loop hands out consecutive sequences from the expected one on. -/
theorem Labelled.drains {P : UInt16 → Bytes → Prop} {s t : ChannelState} {out : List SharedBytes}
    (h : Labelled P s) (hd : Drains deliver_next s out t) :
    Labelled P t ∧ ∀ i d, out[i]? = some d → P (s.expected_sequence + .ofNat i) d.as_slice := by
  induction hd with
  | @stop s t hs =>
    unfold deliver_next at hs
    split at hs
    · cases hs
    · cases hs
      exact ⟨h, by simp⟩
  | @next s s' t b bs hs hd ih =>
    unfold deliver_next at hs
    split at hs
    · rename_i hb
      cases hs
      have herase : Labelled P { s with
          buffered_packets := s.buffered_packets.erase s.expected_sequence
          expected_sequence := s.expected_sequence + 1 } := by
        intro k d hk
        rw [Std.ExtTreeMap.getElem?_erase] at hk
        split at hk
        · cases hk
        · exact h k d hk
      obtain ⟨hend, hout⟩ := ih herase
      refine ⟨hend, fun i d hi => ?_⟩
      cases i with
      | zero =>
        cases hi
        rw [show UInt16.ofNat 0 = 0 from rfl, UInt16.add_zero]
        exact h _ _ hb
      | succ i =>
        have hP := hout i d hi
        rw [show s.expected_sequence + UInt16.ofNat (i + 1) = s.expected_sequence + 1 + UInt16.ofNat i by
          rw [UInt16.ofNat_add, UInt16.add_assoc, UInt16.add_comm 1]
          rfl]
        exact hP
    · cases hs

theorem Labelled.process_ordered {P : UInt16 → Bytes → Prop} {s : ChannelState} {k : UInt16} {d : SharedBytes}
    (h : Labelled P s) (hd : P k d.as_slice) :
    Labelled P (s.process_ordered k d).2 ∧
      ∀ i x, (s.process_ordered k d).1[i]? = some x → P (s.expected_sequence + .ofNat i) x.as_slice := by
  have hins : Labelled P { s with buffered_packets := s.buffered_packets.insert k d } := by
    intro i x hx
    rw [Std.ExtTreeMap.getElem?_insert] at hx
    split at hx
    · rename_i he
      rw [← Std.compare_eq_iff_eq.1 he, ← Option.some.inj hx]
      exact hd
    · exact h i x hx
  exact hins.drains (process_ordered_drains s k d)

/-- The channel has let through sequences 0 to `n - 1`, and `times` says how
often each sequence has come. What waits is ahead, or has come again. -/
structure Sequential (times : UInt16 → Nat) (n : Nat) (s : ChannelState) : Prop where
  bound : n ≤ 65536
  expected : s.expected_sequence = .ofNat n
  passed : ∀ i < n, 0 < times (.ofNat i)
  first : n = 0 → times 0 ≤ 1
  ahead : ∀ k, n ≤ k.toNat → 0 < times k → k ∈ s.buffered_packets
  again : 0 < n → 1 < times 0 → 0 ∈ s.buffered_packets
  sound : ∀ k ∈ s.buffered_packets, 0 < times k ∧ (k.toNat < n → 1 < times k)

variable {times : UInt16 → Nat} {n : Nat} {s t : ChannelState}

theorem sequential_new (h : ∀ s, times s = 0) : Sequential times 0 new where
  bound := by omega
  expected := rfl
  passed i hi := absurd hi (Nat.not_lt_zero i)
  first _ := by rw [h]; omega
  ahead k _ hk := by rw [h] at hk; omega
  again hn := absurd hn (Nat.lt_irrefl 0)
  sound k hk := by simp [new] at hk

theorem toNat_ofNat_of_lt {n : Nat} (h : n < 65536) : (UInt16.ofNat n).toNat = n := by
  rw [UInt16.toNat_ofNat']
  omega

/-- The next sequence has come: it is let through. -/
theorem Sequential.deliver (h : Sequential times n s) (hn : n < 65536) (ht : 0 < times (.ofNat n)) :
    ∃ d s', s.deliver_next = (some d, s') ∧ Sequential times (n + 1) s' := by
  have hn' := toNat_ofNat_of_lt hn
  have hmem : UInt16.ofNat n ∈ s.buffered_packets := h.ahead _ hn'.ge ht
  obtain ⟨d, hd⟩ := Option.isSome_iff_exists.1 (Std.ExtTreeMap.mem_iff_isSome_getElem?.1 hmem)
  refine ⟨d, _, by rw [deliver_next, h.expected, hd], ?_⟩
  have herase : ∀ k, k ∈ s.buffered_packets.erase (.ofNat n) ↔ k ≠ .ofNat n ∧ k ∈ s.buffered_packets := fun k => by
    rw [Std.ExtTreeMap.mem_erase, ne_eq, Std.compare_eq_iff_eq, eq_comm]
  refine ⟨hn, ?_, fun i hi => ?_, fun h0 => absurd h0 (Nat.succ_ne_zero n), fun k hk hk' => ?_, fun _ h0 => ?_,
    fun k hk => ?_⟩
  · rw [UInt16.ofNat_add]
    rfl
  · rcases Nat.lt_succ_iff_lt_or_eq.1 hi with hi | rfl
    · exact h.passed i hi
    · exact ht
  · refine (herase k).2 ⟨?_, h.ahead k (by omega) hk'⟩
    rintro rfl
    omega
  · -- message 0 comes again only after it was let through
    have hpos : 0 < n := by
      by_contra hz
      have := h.first (by omega)
      omega
    refine (herase 0).2 ⟨?_, h.again hpos h0⟩
    rw [ne_eq, ← UInt16.toNat_inj, hn', UInt16.toNat_zero]
    omega
  · obtain ⟨hne, hk⟩ := (herase k).1 hk
    obtain ⟨hpos, hold⟩ := h.sound k hk
    refine ⟨hpos, fun hlt => hold ?_⟩
    rw [ne_eq, ← UInt16.toNat_inj, hn'] at hne
    omega

/-- The loop stops at the first sequence that has not come. When all have, it
goes on if message 0 has come again. -/
theorem Sequential.drains {out : List SharedBytes} (h : Sequential times n s) (hd : Drains deliver_next s out t) :
    ∃ l, (Sequential times (n + l) t ∧ out.length = l ∧
        (n + l < 65536 → times (.ofNat (n + l)) = 0) ∧ (n + l = 65536 → times 0 ≤ 1)) ∨
      (n + l = 65536 ∧ (∀ i < 65536, 0 < times (.ofNat i)) ∧ 1 < times 0 ∧ l < out.length) := by
  induction hd generalizing n with
  | @stop s t hs =>
    have hmiss : s.expected_sequence ∉ s.buffered_packets ∧ t = s := by
      unfold deliver_next at hs
      split at hs
      · cases hs
      · rename_i hnone
        cases hs
        rw [Std.ExtTreeMap.mem_iff_isSome_getElem?, hnone]
        simp
    obtain ⟨hmiss, rfl⟩ := hmiss
    rw [h.expected] at hmiss
    refine ⟨0, .inl ⟨h, rfl, fun hn => ?_, fun hn => ?_⟩⟩
    · by_contra ht
      exact hmiss (h.ahead _ (toNat_ofNat_of_lt hn).ge (Nat.pos_of_ne_zero ht))
    · by_contra ht
      obtain rfl : n = 65536 := hn
      exact hmiss (h.again (by omega) (by omega))
  | @next s s' t b bs hs hd ih =>
    have hmem : UInt16.ofNat n ∈ s.buffered_packets := by
      unfold deliver_next at hs
      split at hs
      · rename_i hb
        rw [← h.expected, Std.ExtTreeMap.mem_iff_isSome_getElem?, hb]
        rfl
      · cases hs
    obtain ⟨hpos, hold⟩ := h.sound _ hmem
    by_cases hn : n < 65536
    · obtain ⟨d, s'', hs'', hnext⟩ := h.deliver hn hpos
      rw [hs] at hs''
      cases hs''
      obtain ⟨l, ⟨hend, hlen, hstop, hwrap⟩ | ⟨hall, hevery, htwice, hlen⟩⟩ := ih hnext
      · refine ⟨l + 1, .inl ?_⟩
        rw [show n + (l + 1) = n + 1 + l by omega]
        exact ⟨hend, by rw [List.length_cons, hlen], hstop, hwrap⟩
      · exact ⟨l + 1, .inr ⟨by omega, hevery, htwice, by rw [List.length_cons]; omega⟩⟩
    · -- all sequences have been let through, and the loop is back at 0
      obtain rfl : n = 65536 := by
        have := h.bound
        omega
      exact ⟨0, .inr ⟨rfl, h.passed, hold (by decide), by rw [List.length_cons]; omega⟩⟩

/-- A message comes to a channel at rest. -/
theorem Sequential.insert (h : Sequential times n s) (hrest : n < 65536 → times (.ofNat n) = 0) (k : UInt16)
    (d : SharedBytes) : Sequential (Function.update times k (times k + 1)) n
      { s with buffered_packets := s.buffered_packets.insert k d } := by
  have hle : ∀ i, times i ≤ Function.update times k (times k + 1) i := fun i => by
    by_cases hi : i = k
    · rw [hi, Function.update_self]
      omega
    · rw [Function.update_of_ne hi]
  have hmem : ∀ i, i ∈ s.buffered_packets.insert k d ↔ i = k ∨ i ∈ s.buffered_packets := fun i => by
    rw [Std.ExtTreeMap.mem_insert, Std.compare_eq_iff_eq, eq_comm]
  have hbefore : ∀ i, i ≠ k → Function.update times k (times k + 1) i = times i := fun i hi =>
    Function.update_of_ne hi ..
  refine ⟨h.bound, h.expected, fun i hi => (h.passed i hi).trans_le (hle _), fun h0 => ?_, fun i hi hpos => ?_,
    fun hn h0 => ?_, fun i hi => ?_⟩
  · have hz : times 0 = 0 := by
      have := hrest (by omega)
      rwa [h0] at this
    by_cases hk : 0 = k
    · rw [← hk, Function.update_self]
      omega
    · rw [hbefore 0 hk]
      omega
  · apply (hmem i).2
    by_cases hk : i = k
    · exact .inl hk
    · rw [hbefore i hk] at hpos
      exact .inr (h.ahead i hi hpos)
  · apply (hmem 0).2
    by_cases hk : 0 = k
    · exact .inl hk
    · rw [hbefore 0 hk] at h0
      exact .inr (h.again hn h0)
  · by_cases hk : i = k
    · subst hk
      rw [Function.update_self]
      refine ⟨Nat.succ_pos _, fun hlt => ?_⟩
      have hpassed := h.passed i.toNat hlt
      rw [UInt16.ofNat_toNat] at hpassed
      omega
    · rw [hbefore i hk]
      exact h.sound i (((hmem i).1 hi).resolve_left hk)

end ChannelState

/-! ## The messages of a run -/

/-- The ordered message of a channel that has this sequence. -/
def ordered_message (messages : List Message) (ch : UInt8) (s : UInt16) : Option Message :=
  messages.find? fun m => m.sequence == s && m.channel_id == ch && m.ordered

/-- How often it has been complete. -/
def times (messages : List Message) (ch : UInt8) (cmds : List ProtocolCommand) (s : UInt16) : Nat :=
  ((ordered_message messages ch s).map fun m => m.completions cmds).getD 0

/-- No unordered message is complete twice, and message 0 of a channel on which
an ordered message with every sequence has been complete is not, either. -/
structure Once (messages : List Message) (cmds : List ProtocolCommand) : Prop where
  unordered : ∀ m ∈ messages, m.ordered = false → m.completions cmds ≤ 1
  around : ∀ ch, (∀ s, 0 < times messages ch cmds s) → times messages ch cmds 0 ≤ 1

section

variable {messages : List Message} {m m' : Message} {cmds : List ProtocolCommand} {c : ProtocolCommand} {j : UInt8}
  {ch : UInt8} {s : UInt16}

theorem eq_of_sequence (hd : (messages.map Message.sequence).Nodup) (hm : m ∈ messages) (hm' : m' ∈ messages)
    (h : m.sequence = m'.sequence) : m = m' :=
  List.inj_on_of_nodup_map hd hm hm' h

theorem of_ordered_message (h : ordered_message messages ch s = some m) :
    m ∈ messages ∧ m.sequence = s ∧ m.channel_id = ch ∧ m.ordered = true := by
  have hp := List.find?_some h
  simp only [Bool.and_eq_true, beq_iff_eq] at hp
  exact ⟨List.mem_of_find?_eq_some h, hp.1.1, hp.1.2, hp.2⟩

theorem ordered_message_eq (hd : (messages.map Message.sequence).Nodup) (hm : m ∈ messages) (ho : m.ordered = true) :
    ordered_message messages m.channel_id m.sequence = some m := by
  cases hf : ordered_message messages m.channel_id m.sequence with
  | none =>
    have hnone := List.find?_eq_none.1 hf m hm
    simp [ho] at hnone
  | some m' =>
    obtain ⟨hm', hs, -, -⟩ := of_ordered_message hf
    rw [eq_of_sequence hd hm' hm hs]

/-- Only the message a command is part of sees it. -/
theorem gathered_other (hd : (messages.map Message.sequence).Nodup) (hm : m ∈ messages) (hm' : m' ∈ messages)
    (hc : m.part c = some j) (hne : m' ≠ m) : m'.gathered (cmds ++ [c]) = m'.gathered cmds := by
  rw [Message.gathered_append, Message.gather]
  cases hpart : m'.part c with
  | none => rfl
  | some j' =>
    have hfeeds := Message.feeds_of_part hc
    rw [Message.feeds_of_part hpart] at hfeeds
    exact absurd (eq_of_sequence hd hm' hm (Option.some.inj hfeeds)) hne

theorem gathered_self (hc : m.part c = some j) : m.gathered (cmds ++ [c]) =
    if m.completes (m.gathered cmds).1 j then (∅, m.completions cmds + 1)
    else (insert j (m.gathered cmds).1, m.completions cmds) := by
  rw [Message.gathered_append, Message.gather, hc]
  rfl

/-- How a command changes the counts: those of its own message only. -/
theorem completions_append (hd : (messages.map Message.sequence).Nodup) (hm : m ∈ messages) (hm' : m' ∈ messages)
    (hc : m.part c = some j) : m'.completions (cmds ++ [c]) =
      if m' = m ∧ m.completes (m.gathered cmds).1 j = true then m'.completions cmds + 1 else m'.completions cmds := by
  by_cases he : m' = m
  · subst he
    rw [Message.completions, gathered_self hc]
    cases m'.completes (m'.gathered cmds).1 j with
    | true => simp
    | false => simp
  · rw [if_neg fun h => he h.1, Message.completions, gathered_other hd hm hm' hc he]
    rfl

theorem times_eq_of_unchanged (h : ∀ m' ∈ messages, m'.ordered = true → m'.channel_id = ch →
    m'.completions (cmds ++ [c]) = m'.completions cmds) : times messages ch (cmds ++ [c]) = times messages ch cmds := by
  funext s
  unfold times
  cases hf : ordered_message messages ch s with
  | none => rfl
  | some m' =>
    obtain ⟨hm', -, hch, ho⟩ := of_ordered_message hf
    exact h m' hm' ho hch

/-- The counts of a channel after its message `m` is complete. -/
theorem times_append (hd : (messages.map Message.sequence).Nodup) (hm : m ∈ messages) (ho : m.ordered = true)
    (hc : m.part c = some j) (hdone : m.completes (m.gathered cmds).1 j = true) :
    times messages m.channel_id (cmds ++ [c]) = Function.update (times messages m.channel_id cmds) m.sequence
      (times messages m.channel_id cmds m.sequence + 1) := by
  funext s
  by_cases hs : s = m.sequence
  · subst hs
    rw [Function.update_self, times, times, ordered_message_eq hd hm ho]
    simp only [Option.map_some, Option.getD_some]
    rw [completions_append hd hm hm hc, if_pos ⟨rfl, hdone⟩]
  · rw [Function.update_of_ne hs]
    unfold times
    cases hf : ordered_message messages m.channel_id s with
    | none => rfl
    | some m' =>
      obtain ⟨hm', rfl, -, -⟩ := of_ordered_message hf
      have hne : m' ≠ m := fun he => hs (congrArg Message.sequence he)
      simp only [Option.map_some, Option.getD_some]
      rw [completions_append hd hm hm' hc, if_neg fun h => hne h.1]

theorem times_le_append (messages : List Message) (ch : UInt8) (cmds more : List ProtocolCommand) (s : UInt16) :
    times messages ch cmds s ≤ times messages ch (cmds ++ more) s := by
  unfold times
  cases ordered_message messages ch s with
  | none => exact le_rfl
  | some m => exact m.completions_le_append cmds more

theorem Once.of_append {more : List ProtocolCommand} (h : Once messages (cmds ++ more)) : Once messages cmds where
  unordered m hm ho := (m.completions_le_append cmds more).trans (h.unordered m hm ho)
  around ch hall := (times_le_append ..).trans
    (h.around ch fun s => (hall s).trans_le (times_le_append messages ch cmds more s))

theorem once_nil (messages : List Message) : Once messages [] := by
  refine ⟨fun m _ _ => Nat.zero_le 1, fun ch hall => ?_⟩
  have h0 := hall 0
  unfold times at h0 ⊢
  cases hf : ordered_message messages ch 0 with
  | none =>
    rw [hf] at h0
    cases h0
  | some m => exact Nat.zero_le 1

end

namespace Peer

/-- The sequences of the messages a command delivers, `count` of them: an
ordered one sets free consecutive ones, another one is delivered itself. -/
def sources (p : Peer) (c : ProtocolCommand) (count : Nat) : List UInt16 :=
  match c with
  | .SendReliable channel_id sequence ordered _ | .SendFragment channel_id sequence ordered _ _ _ =>
    if ordered then (List.range count).map fun i => (p.channel_state channel_id).expected_sequence + .ofNat i
    else List.replicate count sequence
  | _ => []

/-- The deliveries of a run, each with the sequence of its message. -/
def traced : Peer → List Arrival → List (UInt16 × Packet)
  | _, [] => []
  | p, (c, t, draw) :: arrivals =>
    match p.process_command c t draw with
    | .ok (p', r) => (p.sources c (delivered r).length).zip (delivered r) ++ traced p' arrivals
    | .error _ => []

section

variable {messages : List Message} {m m' : Message} {p p' : Peer} {seen : List ProtocolCommand} {c : ProtocolCommand}
  {j : UInt8} {tr : List UInt16} {n : UInt8 → Nat} {packets : IncomingPackets}

theorem sources_of_part (p : Peer) (hc : m.part c = some j) (count : Nat) : p.sources c count =
    if m.ordered then (List.range count).map fun i => (p.channel_state m.channel_id).expected_sequence + .ofNat i
    else List.replicate count m.sequence := by
  rcases Message.part_cases hc with ⟨d, -, -, rfl⟩ | ⟨chunks, pos, few, d, -, -, rfl⟩
  · rfl
  · rfl

theorem sources_length (hc : m.part c = some j) (count : Nat) : (p.sources c count).length = count := by
  rw [sources_of_part p hc]
  split <;> simp

theorem traced_cons {t : Instant} {draw : UInt16} (h : p.process_command c t draw = .ok (p', .ok packets))
    (arrivals : List Arrival) : traced p ((c, t, draw) :: arrivals) =
      (p.sources c packets.length).zip (packets.map Prod.fst) ++ traced p' arrivals := by
  rw [traced, h]
  simp [delivered]

/-! ## What is delivered -/

/-- The deliveries of a run are the messages they are traced back to. -/
def Matches (messages : List Message) (x : UInt16 × Packet) : Prop :=
  ∃ m ∈ messages, m.sequence = x.1 ∧ m.channel_id = x.2.channel_id ∧ m.payload = x.2.payload

/-- The buffers hold parts of the messages, and the channels wait with them
under their sequences. -/
structure Fills (messages : List Message) (seen : List ProtocolCommand) (p : Peer) : Prop where
  gathers : ∀ m ∈ messages, Gathers m (m.gathered seen).1 p
  labelled : ∀ ch, (p.channel_state ch).Labelled fun s bytes =>
    ∃ m ∈ messages, m.sequence = s ∧ m.channel_id = ch ∧ m.payload = bytes

theorem fills_new (messages : List Message) (addr : SocketAddr) (config : Config) (time : Instant)
    (draw : PeerDraw) : Fills messages [] (.new addr config time draw) := by
  refine ⟨fun m _ => gathers_new m addr config time draw, fun ch k d hk => ?_⟩
  simp [channel_state, Peer.new, ChannelState.new] at hk

theorem Takes.length {held : Finset UInt8} (h : Takes p p' m held j packets) : packets.length =
    if m.completes held j then (m.deliver (p.channel_state m.channel_id)).1.length else 0 := by
  have hlen := congrArg List.length h.contents
  rw [Peer.contents, List.length_map, List.length_map] at hlen
  rw [hlen]
  split <;> simp

theorem Fills.gathers_next (hd : (messages.map Message.sequence).Nodup) (h : Fills messages seen p) (hm : m ∈ messages)
    (hc : m.part c = some j) (ht : Takes p p' m (m.gathered seen).1 j packets) :
    ∀ m' ∈ messages, Gathers m' (m'.gathered (seen ++ [c])).1 p' := by
  intro m' hm'
  by_cases he : m' = m
  · subst he
    rw [gathered_self hc, apply_ite Prod.fst]
    exact ht.gathers
  · rw [gathered_other hd hm hm' hc he]
    refine (h.gathers m' hm').other (ht.fragments _ fun hs => he ?_)
    exact eq_of_sequence hd hm' hm hs

/-- One command: what it delivers are messages with the sequences it is traced
back to. -/
theorem Fills.step (hd : (messages.map Message.sequence).Nodup) (h : Fills messages seen p) (hm : m ∈ messages)
    (hc : m.part c = some j) (ht : Takes p p' m (m.gathered seen).1 j packets) :
    Fills messages (seen ++ [c]) p' ∧
      ∀ x ∈ (p.sources c packets.length).zip (packets.map Prod.fst), Matches messages x := by
  have hgathers := h.gathers_next hd hm hc ht
  have hlen := ht.length
  have hcontents := ht.contents
  have hchannel := ht.channel
  rw [sources_of_part p hc]
  cases hdone : m.completes (m.gathered seen).1 j with
  | false =>
    rw [hdone] at hlen hchannel
    obtain rfl : packets = [] := List.length_eq_zero_iff.1 hlen
    refine ⟨⟨hgathers, fun ch => ?_⟩, by simp⟩
    by_cases hch : ch = m.channel_id
    · rw [hch, hchannel]
      exact h.labelled m.channel_id
    · rw [ht.others ch hch]
      exact h.labelled ch
  | true =>
    rw [hdone, if_pos rfl] at hlen hchannel hcontents
    cases ho : m.ordered with
    | false =>
      rw [Message.deliver, ho, if_neg (by decide)] at hlen hchannel hcontents
      refine ⟨⟨hgathers, fun ch => ?_⟩, fun x hx => ?_⟩
      · by_cases hch : ch = m.channel_id
        · rw [hch, hchannel]
          exact h.labelled m.channel_id
        · rw [ht.others ch hch]
          exact h.labelled ch
      · obtain ⟨incoming, rfl⟩ := List.length_eq_one_iff.1 hlen
        simp only [contents, List.map_cons, List.map_nil, List.cons.injEq, Prod.mk.injEq, and_true] at hcontents
        obtain rfl : x = (m.sequence, incoming.1) := by simpa using hx
        exact ⟨m, hm, rfl, hcontents.1.symm, hcontents.2.symm⟩
    | true =>
      rw [Message.deliver, ho, if_pos rfl] at hlen hchannel hcontents
      obtain ⟨hend, hout⟩ := (h.labelled m.channel_id).process_ordered (k := m.sequence) (d := .from_vec m.payload)
        ⟨m, hm, rfl, rfl, by simp⟩
      refine ⟨⟨hgathers, fun ch => ?_⟩, fun x hx => ?_⟩
      · by_cases hch : ch = m.channel_id
        · rw [hch, hchannel]
          exact hend
        · rw [ht.others ch hch]
          exact h.labelled ch
      · -- the i-th delivery is the payload that waited under the i-th sequence
        obtain ⟨i, hi⟩ := List.mem_iff_getElem?.1 hx
        obtain ⟨hs, hp⟩ := List.getElem?_zip_eq_some.1 hi
        rw [if_pos rfl, List.getElem?_map, Option.map_eq_some_iff] at hs
        obtain ⟨i', hi', hs⟩ := hs
        obtain rfl : i = i' := by
          have := List.getElem?_eq_some_iff.1 hi'
          simpa using this.2
        have hci := congrArg (·[i]?) hcontents
        simp only [contents, List.getElem?_map, hp, Option.map_some] at hci
        obtain ⟨bytes, hbytes, hpair⟩ := Option.map_eq_some_iff.1 hci.symm
        obtain ⟨d, hget, rfl⟩ := Option.map_eq_some_iff.1 hbytes
        obtain ⟨m', hm', hseq, hchan, hpay⟩ := hout i d hget
        obtain ⟨hch, hbytes⟩ := Prod.mk.inj hpair
        exact ⟨m', hm', hseq.trans hs, hchan.trans hch, hpay.trans hbytes⟩

/-! ## How often -/

/-- What has been delivered, by sequences: an ordered channel has let through
sequences 0 to `n - 1` in order, and an unordered message has been delivered as
often as it was complete. -/
structure Counts (messages : List Message) (seen : List ProtocolCommand) (tr : List UInt16) (n : UInt8 → Nat)
    (p : Peer) : Prop where
  channels : ∀ ch, (p.channel_state ch).Sequential (times messages ch seen) (n ch)
  rest : ∀ ch, n ch < 65536 → times messages ch seen (.ofNat (n ch)) = 0
  ordered : ∀ ch, tr.filter (fun s => (ordered_message messages ch s).isSome) = (List.range (n ch)).map UInt16.ofNat
  unordered : ∀ m ∈ messages, m.ordered = false → tr.count m.sequence = m.completions seen

theorem counts_new (messages : List Message) (addr : SocketAddr) (config : Config) (time : Instant)
    (draw : PeerDraw) : Counts messages [] [] (fun _ => 0) (.new addr config time draw) := by
  have hzero : ∀ ch s, times messages ch [] s = 0 := by
    intro ch s
    unfold times
    cases ordered_message messages ch s with
    | none => rfl
    | some m => rfl
  have hnew : ∀ ch, (Peer.new addr config time draw).channel_state ch = .new := fun ch => by
    simp [channel_state, Peer.new]
  refine ⟨fun ch => ?_, fun ch _ => hzero ch _, fun ch => rfl, fun m _ _ => rfl⟩
  rw [hnew]
  exact ChannelState.sequential_new (hzero ch)

/-- A command that completes no message changes nothing. -/
theorem Counts.incomplete (hd : (messages.map Message.sequence).Nodup) (h : Counts messages seen tr n p)
    (hm : m ∈ messages) (hc : m.part c = some j) (ht : Takes p p' m (m.gathered seen).1 j packets)
    (hno : m.completes (m.gathered seen).1 j = false) (ho : Once messages seen) :
    Once messages (seen ++ [c]) ∧ Counts messages (seen ++ [c]) (tr ++ p.sources c packets.length) n p' := by
  have hsame : ∀ m' ∈ messages, m'.completions (seen ++ [c]) = m'.completions seen := by
    intro m' hm'
    rw [completions_append hd hm hm' hc, if_neg (by simp [hno])]
  have htimes : ∀ ch, times messages ch (seen ++ [c]) = times messages ch seen := fun ch =>
    times_eq_of_unchanged fun m' hm' _ _ => hsame m' hm'
  have hchannel : ∀ ch, p'.channel_state ch = p.channel_state ch := by
    intro ch
    by_cases hch : ch = m.channel_id
    · rw [hch, ht.channel, hno]
      rfl
    · exact ht.others ch hch
  have hnone : p.sources c packets.length = [] := by
    rw [← List.length_eq_zero_iff, sources_length hc, ht.length, hno]
    rfl
  refine ⟨⟨fun m' hm' hu => ?_, fun ch => ?_⟩, fun ch => ?_, fun ch => ?_, fun ch => ?_, fun m' hm' hu => ?_⟩
  · rw [hsame m' hm']
    exact ho.unordered m' hm' hu
  · rw [htimes]
    exact ho.around ch
  · rw [hchannel, htimes]
    exact h.channels ch
  · rw [htimes]
    exact h.rest ch
  · rw [hnone, List.append_nil]
    exact h.ordered ch
  · rw [hnone, List.append_nil, hsame m' hm']
    exact h.unordered m' hm' hu

/-- An unordered message is complete, and delivered. -/
theorem Counts.unordered_complete (hd : (messages.map Message.sequence).Nodup) (h : Counts messages seen tr n p)
    (hm : m ∈ messages) (hc : m.part c = some j) (ht : Takes p p' m (m.gathered seen).1 j packets)
    (hdone : m.completes (m.gathered seen).1 j = true) (hu : m.ordered = false) (ho : Once messages seen) :
    Counts messages (seen ++ [c]) (tr ++ p.sources c packets.length) n p' ∧
      (m.completions (seen ++ [c]) ≤ 1 → Once messages (seen ++ [c])) := by
  have hcount : ∀ m' ∈ messages, m'.completions (seen ++ [c]) =
      if m' = m then m'.completions seen + 1 else m'.completions seen := by
    intro m' hm'
    rw [completions_append hd hm hm' hc, hdone]
    simp
  have htimes : ∀ ch, times messages ch (seen ++ [c]) = times messages ch seen := by
    refine fun ch => times_eq_of_unchanged fun m' hm' ho' _ => ?_
    rw [hcount m' hm', if_neg]
    rintro rfl
    rw [hu] at ho'
    cases ho'
  have hchannel : ∀ ch, p'.channel_state ch = p.channel_state ch := by
    intro ch
    by_cases hch : ch = m.channel_id
    · rw [hch, ht.channel, hdone, if_pos rfl, Message.deliver, hu]
      rfl
    · exact ht.others ch hch
  have hsources : p.sources c packets.length = [m.sequence] := by
    have hlen : packets.length = 1 := by
      rw [ht.length, hdone, if_pos rfl, Message.deliver, hu]
      rfl
    rw [sources_of_part p hc, hu, hlen]
    rfl
  have hnot : ∀ ch, (ordered_message messages ch m.sequence).isSome = false := by
    intro ch
    cases hf : ordered_message messages ch m.sequence with
    | none => rfl
    | some m' =>
      obtain ⟨hm', hs, -, ho'⟩ := of_ordered_message hf
      rw [eq_of_sequence hd hm' hm hs, hu] at ho'
      cases ho'
  rw [hsources]
  refine ⟨⟨fun ch => ?_, fun ch => ?_, fun ch => ?_, fun m' hm' hu' => ?_⟩, fun hle => ⟨fun m' hm' hu' => ?_, fun ch => ?_⟩⟩
  · rw [hchannel, htimes]
    exact h.channels ch
  · rw [htimes]
    exact h.rest ch
  · rw [List.filter_append, h.ordered ch, List.filter_cons_of_neg (by rw [hnot]; decide)]
    simp
  · rw [List.count_append, h.unordered m' hm' hu', hcount m' hm', List.count_singleton]
    by_cases he : m' = m
    · rw [he]
      simp
    · rw [if_neg he, if_neg fun hs => he (eq_of_sequence hd hm' hm (beq_iff_eq.1 hs).symm), Nat.add_zero]
  · by_cases he : m' = m
    · rw [he]
      exact hle
    · rw [hcount m' hm', if_neg he]
      exact ho.unordered m' hm' hu'
  · rw [htimes]
    exact ho.around ch

theorem range_append_range' (n l : Nat) : List.range n ++ List.range' n l = List.range (n + l) := by
  have h : List.range' 0 n ++ List.range' (0 + n) l = List.range' 0 (n + l) := List.range'_append_1
  rw [Nat.zero_add] at h
  rw [List.range_eq_range', List.range_eq_range', h]

theorem ofNat_add_ofNat (n i : Nat) : UInt16.ofNat n + UInt16.ofNat i = UInt16.ofNat (n + i) :=
  (UInt16.ofNat_add n i).symm

/-- Sequences of ordered messages of a channel. -/
def OnChannel (messages : List Message) (ch : UInt8) (new : List UInt16) : Prop :=
  ∀ s ∈ new, ∃ m, ordered_message messages ch s = some m

section OnChannel

variable {ch : UInt8} {new : List UInt16}

theorem OnChannel.filter_self (h : OnChannel messages ch new) :
    new.filter (fun s => (ordered_message messages ch s).isSome) = new := by
  apply List.filter_eq_self.2
  intro s hs
  obtain ⟨m, hm⟩ := h s hs
  rw [hm]
  rfl

/-- They belong to no other channel. -/
theorem OnChannel.filter_other (h : OnChannel messages ch new) (hd : (messages.map Message.sequence).Nodup)
    {ch' : UInt8} (hne : ch' ≠ ch) : new.filter (fun s => (ordered_message messages ch' s).isSome) = [] := by
  rw [List.filter_eq_nil_iff]
  intro s hs hsome
  obtain ⟨m₁, hm₁⟩ := h s hs
  obtain ⟨m₂, hm₂⟩ := Option.isSome_iff_exists.1 hsome
  obtain ⟨hmem₁, hs₁, hch₁, -⟩ := of_ordered_message hm₁
  obtain ⟨hmem₂, hs₂, hch₂, -⟩ := of_ordered_message hm₂
  rw [← hch₁, ← hch₂, eq_of_sequence hd hmem₂ hmem₁ (hs₂.trans hs₁.symm)] at hne
  exact hne rfl

/-- Nor to an unordered message. -/
theorem OnChannel.count_unordered (h : OnChannel messages ch new) (hd : (messages.map Message.sequence).Nodup)
    (hm : m ∈ messages) (hu : m.ordered = false) : new.count m.sequence = 0 := by
  apply List.count_eq_zero_of_not_mem
  intro hs
  obtain ⟨m₁, hm₁⟩ := h _ hs
  obtain ⟨hmem₁, hs₁, -, ho₁⟩ := of_ordered_message hm₁
  rw [eq_of_sequence hd hmem₁ hm hs₁, hu] at ho₁
  cases ho₁

end OnChannel

/-- An ordered message is complete: its channel lets it and those after it
through, or has come round to message 0 and lets it through again. -/
theorem Counts.ordered_complete (hd : (messages.map Message.sequence).Nodup) (h : Counts messages seen tr n p)
    (hm : m ∈ messages) (hc : m.part c = some j) (ht : Takes p p' m (m.gathered seen).1 j packets)
    (hdone : m.completes (m.gathered seen).1 j = true) (hord : m.ordered = true) (ho : Once messages seen) :
    (Once messages (seen ++ [c]) ∧ ∃ n', Counts messages (seen ++ [c]) (tr ++ p.sources c packets.length) n' p') ∨
      (¬ Once messages (seen ++ [c]) ∧ ¬ (tr ++ p.sources c packets.length).Nodup) := by
  have hcount : ∀ m' ∈ messages, m' ≠ m → m'.completions (seen ++ [c]) = m'.completions seen := by
    intro m' hm' hne
    rw [completions_append hd hm hm' hc, if_neg fun h => hne h.1]
  have hunord : ∀ m' ∈ messages, m'.ordered = false → m' ≠ m := by
    rintro m' hm' hu rfl
    rw [hord] at hu
    cases hu
  have htimes := times_append hd hm hord hc hdone
  have hother : ∀ ch, ch ≠ m.channel_id → times messages ch (seen ++ [c]) = times messages ch seen := by
    intro ch hch
    refine times_eq_of_unchanged fun m' hm' _ hch' => hcount m' hm' ?_
    rintro rfl
    exact hch hch'.symm
  have hchannel := ht.channel
  have hlen := ht.length
  rw [hdone, if_pos rfl, Message.deliver, hord, if_pos rfl] at hchannel hlen
  rw [List.length_map] at hlen
  have hsources : p.sources c packets.length = (List.range packets.length).map fun i =>
      UInt16.ofNat (n m.channel_id + i) := by
    rw [sources_of_part p hc, hord, if_pos rfl, (h.channels m.channel_id).expected]
    simp only [ofNat_add_ofNat]
  have hins := (h.channels m.channel_id).insert (h.rest m.channel_id) m.sequence (.from_vec m.payload)
  rw [← htimes] at hins
  obtain ⟨l, ⟨hend, hl, hstop, hwrap⟩ | ⟨hall, hevery, htwice, hl⟩⟩ :=
    hins.drains (ChannelState.process_ordered_drains ..)
  · -- the channel stops at a message that is missing
    left
    rw [← hlen] at hl
    have hnew : p.sources c packets.length = (List.range' (n m.channel_id) l).map UInt16.ofNat := by
      rw [hsources, hl, List.range'_eq_map_range, List.map_map]
      rfl
    have hon : OnChannel messages m.channel_id (p.sources c packets.length) := by
      intro s hs
      rw [hnew] at hs
      obtain ⟨i, hi, rfl⟩ := List.mem_map.1 hs
      have hpos := hend.passed i (by have := List.mem_range'_1.1 hi; omega)
      unfold times at hpos
      cases hf : ordered_message messages m.channel_id (.ofNat i) with
      | none =>
        rw [hf] at hpos
        cases hpos
      | some m' => exact ⟨m', rfl⟩
    refine ⟨⟨fun m' hm' hu => ?_, fun ch hch => ?_⟩, Function.update n m.channel_id (n m.channel_id + l), ?_⟩
    · rw [hcount m' hm' (hunord m' hm' hu)]
      exact ho.unordered m' hm' hu
    · by_cases he : ch = m.channel_id
      · subst he
        apply hwrap
        have hb := hend.bound
        by_contra hne
        have := hstop (by omega)
        have := hch (.ofNat (n m.channel_id + l))
        omega
      · rw [hother ch he] at hch ⊢
        exact ho.around ch hch
    · refine ⟨fun ch => ?_, fun ch => ?_, fun ch => ?_, fun m' hm' hu => ?_⟩
      · by_cases he : ch = m.channel_id
        · subst he
          rw [hchannel, Function.update_self]
          exact hend
        · rw [ht.others ch he, hother ch he, Function.update_of_ne he]
          exact h.channels ch
      · by_cases he : ch = m.channel_id
        · subst he
          rw [Function.update_self]
          exact hstop
        · rw [hother ch he, Function.update_of_ne he]
          exact h.rest ch
      · rw [List.filter_append, h.ordered ch]
        by_cases he : ch = m.channel_id
        · subst he
          rw [Function.update_self, hon.filter_self, hnew, ← List.map_append, range_append_range']
        · rw [Function.update_of_ne he, hon.filter_other hd he, List.append_nil]
      · rw [List.count_append, h.unordered m' hm' hu, hcount m' hm' (hunord m' hm' hu), hon.count_unordered hd hm' hu,
          Nat.add_zero]
  · -- all sequences have come, and message 0 has come again
    right
    rw [← hlen] at hl
    refine ⟨fun hOnce => ?_, fun hnodup => ?_⟩
    · have := hOnce.around m.channel_id fun s => by
        have := hevery s.toNat s.toNat_lt
        rwa [UInt16.ofNat_toNat] at this
      omega
    · have hpos : 0 < n m.channel_id := by
        by_contra hz
        have := hins.first (by omega)
        omega
      have hbefore : (0 : UInt16) ∈ tr := by
        have : (0 : UInt16) ∈ (List.range (n m.channel_id)).map UInt16.ofNat :=
          List.mem_map.2 ⟨0, List.mem_range.2 hpos, rfl⟩
        rw [← h.ordered m.channel_id] at this
        exact (List.mem_filter.1 this).1
      have hnow : (0 : UInt16) ∈ p.sources c packets.length := by
        rw [hsources]
        exact List.mem_map.2 ⟨l, List.mem_range.2 hl, by rw [hall]; rfl⟩
      exact (List.nodup_append.1 hnodup).2.2 0 hbefore 0 hnow rfl

/-- Every sequence delivered is that of a message. -/
def Known (messages : List Message) (tr : List UInt16) : Prop := ∀ s ∈ tr, ∃ m ∈ messages, m.sequence = s

theorem known_of_matches {xs : List (UInt16 × Packet)} (h : ∀ x ∈ xs, Matches messages x) :
    Known messages (xs.map Prod.fst) := by
  intro s hs
  obtain ⟨x, hx, rfl⟩ := List.mem_map.1 hs
  obtain ⟨m, hm, hseq, -⟩ := h x hx
  exact ⟨m, hm, hseq⟩

/-- As long as no message came once too often, none was delivered twice. -/
theorem Counts.nodup (hd : (messages.map Message.sequence).Nodup) (h : Counts messages seen tr n p)
    (hk : Known messages tr) (ho : Once messages seen) : tr.Nodup := by
  apply List.nodup_iff_count_le_one.2
  intro s
  by_cases hs : s ∈ tr
  · obtain ⟨m, hm, rfl⟩ := hk s hs
    cases hord : m.ordered with
    | false =>
      rw [h.unordered m hm hord]
      exact ho.unordered m hm hord
    | true =>
      have hsome : (ordered_message messages m.channel_id m.sequence).isSome = true := by
        rw [ordered_message_eq hd hm hord]
        rfl
      -- the ordered messages of its channel were delivered in order
      rw [← List.count_filter (p := fun s => (ordered_message messages m.channel_id s).isSome) hsome,
        h.ordered m.channel_id]
      refine List.nodup_iff_count_le_one.1 (List.Nodup.map_on (fun i hi i' hi' he => ?_) List.nodup_range) _
      have hb := (h.channels m.channel_id).bound
      have hi := List.mem_range.1 hi
      have hi' := List.mem_range.1 hi'
      rw [← ChannelState.toNat_ofNat_of_lt (n := i) (by omega), he, ChannelState.toNat_ofNat_of_lt (by omega)]
  · rw [List.count_eq_zero_of_not_mem hs]
    exact Nat.zero_le 1

/-- One command of a run in which no message came once too often. -/
theorem Counts.step (hd : (messages.map Message.sequence).Nodup) (h : Counts messages seen tr n p) (hm : m ∈ messages)
    (hc : m.part c = some j) (ht : Takes p p' m (m.gathered seen).1 j packets) (ho : Once messages seen) :
    (Once messages (seen ++ [c]) ∧ ∃ n', Counts messages (seen ++ [c]) (tr ++ p.sources c packets.length) n' p') ∨
      (¬ Once messages (seen ++ [c]) ∧ ¬ (tr ++ p.sources c packets.length).Nodup) := by
  cases hdone : m.completes (m.gathered seen).1 j with
  | false =>
    obtain ⟨ho', h'⟩ := h.incomplete hd hm hc ht hdone ho
    exact .inl ⟨ho', n, h'⟩
  | true =>
    cases hord : m.ordered with
    | true => exact h.ordered_complete hd hm hc ht hdone hord ho
    | false =>
      obtain ⟨h', honce⟩ := h.unordered_complete hd hm hc ht hdone hord ho
      by_cases hle : m.completions (seen ++ [c]) ≤ 1
      · exact .inl ⟨honce hle, n, h'⟩
      · refine .inr ⟨fun ho' => hle (ho'.unordered m hm hord), fun hnodup => hle ?_⟩
        rw [← h'.unordered m hm hord]
        exact List.nodup_iff_count_le_one.1 hnodup m.sequence

/-! ## Whole runs -/

/-- The commands of a run, each part of one of the messages. -/
def Carry (messages : List Message) (arrivals : List Arrival) : Prop :=
  ∀ a ∈ arrivals, ∃ m ∈ messages, (m.part a.1).isSome

/-- Every command is processed, and what is delivered are the messages it is
traced back to. -/
theorem traced_matches (hd : (messages.map Message.sequence).Nodup) {arrivals : List Arrival}
    (hk : Carry messages arrivals) (h : Fills messages seen p) :
    ∃ outs p', arrive p arrivals = .ok (outs, p') ∧ (traced p arrivals).map Prod.snd = outs.flatten ∧
      ∀ x ∈ traced p arrivals, Matches messages x := by
  induction arrivals generalizing p seen with
  | nil => exact ⟨[], p, rfl, rfl, fun x hx => by cases hx⟩
  | cons a arrivals ih =>
    obtain ⟨c, t, draw⟩ := a
    obtain ⟨m, hm, hpart⟩ := hk _ List.mem_cons_self
    obtain ⟨j, hc⟩ := Option.isSome_iff_exists.1 hpart
    obtain ⟨p₁, packets, he, ht⟩ := process_part (h.gathers m hm) hc t draw
    obtain ⟨h', hmatch⟩ := h.step hd hm hc ht
    obtain ⟨outs, p', hs, hsnd, hall⟩ := ih (fun a ha => hk a (List.mem_cons_of_mem _ ha)) h'
    refine ⟨_, p', arrive_cons he hs, ?_, ?_⟩
    · rw [traced_cons he, List.map_append, hsnd, List.flatten_cons, List.map_snd_zip]
      rw [List.length_map, sources_length hc]
    · rw [traced_cons he]
      intro x hx
      rcases List.mem_append.1 hx with hx | hx
      · exact hmatch x hx
      · exact hall x hx

/-- A run either keeps the counts, or a message comes once too often and is
delivered twice. -/
theorem Counts.run (hd : (messages.map Message.sequence).Nodup) {arrivals : List Arrival}
    (hk : Carry messages arrivals) (hf : Fills messages seen p) (h : Counts messages seen tr n p)
    (ho : Once messages seen) :
    (Once messages (seen ++ arrivals.map Prod.fst) ∧ ∃ n' p',
      Counts messages (seen ++ arrivals.map Prod.fst) (tr ++ (traced p arrivals).map Prod.fst) n' p') ∨
    (¬ Once messages (seen ++ arrivals.map Prod.fst) ∧ ¬ (tr ++ (traced p arrivals).map Prod.fst).Nodup) := by
  induction arrivals generalizing p seen tr n with
  | nil =>
    simp only [traced, List.map_nil, List.append_nil]
    exact .inl ⟨ho, n, p, h⟩
  | cons a arrivals ih =>
    obtain ⟨c, t, draw⟩ := a
    obtain ⟨m, hm, hpart⟩ := hk _ List.mem_cons_self
    obtain ⟨j, hc⟩ := Option.isSome_iff_exists.1 hpart
    obtain ⟨p₁, packets, he, ht⟩ := process_part (hf.gathers m hm) hc t draw
    have hf' := (hf.step hd hm hc ht).1
    have hfst : ((p.sources c packets.length).zip (packets.map Prod.fst)).map Prod.fst =
        p.sources c packets.length := by
      rw [List.map_fst_zip]
      rw [List.length_map, sources_length hc]
    have htrace : tr ++ (traced p ((c, t, draw) :: arrivals)).map Prod.fst =
        tr ++ p.sources c packets.length ++ (traced p₁ arrivals).map Prod.fst := by
      rw [traced_cons he, List.map_append, hfst, List.append_assoc]
    have hseen : seen ++ ((c, t, draw) :: arrivals).map Prod.fst = seen ++ [c] ++ arrivals.map Prod.fst := by
      simp
    rw [htrace, hseen]
    rcases h.step hd hm hc ht ho with ⟨ho', n', h'⟩ | ⟨hnot, hdup⟩
    · exact ih (fun a ha => hk a (List.mem_cons_of_mem _ ha)) hf' h' ho'
    · exact .inr ⟨fun ho' => hnot ho'.of_append, fun hn => hdup (List.nodup_append.1 hn).1⟩

/-- The deliveries of a run on a fresh peer are messages, and none of them is
delivered twice if and only if no unordered message is complete twice, nor
message 0 of a channel on which all 65536 sequences have been complete. -/
theorem delivered_once_iff (hd : (messages.map Message.sequence).Nodup) (addr : SocketAddr) (config : Config)
    (time : Instant) (draw : PeerDraw) {arrivals : List Arrival} (hk : Carry messages arrivals) :
    ∃ outs p', arrive (.new addr config time draw) arrivals = .ok (outs, p') ∧
      (traced (.new addr config time draw) arrivals).map Prod.snd = outs.flatten ∧
      (∀ x ∈ traced (.new addr config time draw) arrivals, Matches messages x) ∧
      (((traced (.new addr config time draw) arrivals).map Prod.fst).Nodup ↔
        Once messages (arrivals.map Prod.fst)) := by
  have hf := fills_new messages addr config time draw
  obtain ⟨outs, p', he, hsnd, hall⟩ := traced_matches hd hk hf
  refine ⟨outs, p', he, hsnd, hall, ?_⟩
  have hrun := Counts.run hd hk hf (counts_new messages addr config time draw) (once_nil messages)
  rw [List.nil_append, List.nil_append] at hrun
  rcases hrun with ⟨ho, n, q, hc⟩ | ⟨ho, hdup⟩
  · exact ⟨fun _ => ho, fun _ => hc.nodup hd (known_of_matches hall) ho⟩
  · exact ⟨fun hn => absurd hn hdup, fun h => absurd h ho⟩

/-- A message of one byte, not ordered. -/
def seven : Message := ⟨0, 0, false, .Whole [7]⟩

/-- The command of `seven` arrives. -/
def seven_arrives : Arrival := (.SendReliable 0 0 false (.from_vec [7]), 0, 0)

theorem carry_seven (k : Nat) : Carry [seven] (List.replicate k seven_arrives) := by
  intro a ha
  rw [List.eq_of_mem_replicate ha]
  exact ⟨seven, List.mem_singleton_self seven, by decide⟩

/-- An ordered message in two fragments, behind an ordered one of one byte. -/
def two_ordered : List Message :=
  [⟨0, 0, true, .Whole [7]⟩, ⟨0, 1, true, .Fragments [[8], [9]] (by decide) (by decide)⟩]

/-- Their commands arrive, all of them twice. -/
def all_twice : List Arrival :=
  [(.SendFragment 0 1 true 1 2 (.from_vec [9]), 0, 0), (.SendReliable 0 0 true (.from_vec [7]), 0, 0),
    (.SendReliable 0 0 true (.from_vec [7]), 0, 0), (.SendFragment 0 1 true 0 2 (.from_vec [8]), 0, 0),
    (.SendFragment 0 1 true 1 2 (.from_vec [9]), 0, 0), (.SendFragment 0 1 true 0 2 (.from_vec [8]), 0, 0)]

/-- Each is delivered once. -/
theorem delivered_once_ordered :
    (traced (.new ⟨.V4 0, 0⟩ Config.default 0 ⟨0, 0, 0⟩) all_twice).length = 2 ∧
      ((traced (.new ⟨.V4 0, 0⟩ Config.default 0 ⟨0, 0, 0⟩) all_twice).map Prod.fst).Nodup := by
  have hcarry : Carry two_ordered all_twice := by
    unfold Carry
    decide +kernel
  obtain ⟨outs, p', -, -, -, hiff⟩ := delivered_once_iff
    (show (two_ordered.map Message.sequence).Nodup by decide) ⟨.V4 0, 0⟩ Config.default 0 ⟨0, 0, 0⟩ hcarry
  refine ⟨by decide +kernel, hiff.2 ⟨?_, fun ch hall => absurd (hall 5) (by simp [times, ordered_message, two_ordered])⟩⟩
  decide +kernel

/-- The command comes twice, and the message is delivered twice. -/
theorem seven_delivered_twice :
    Carry [seven] [seven_arrives, seven_arrives] ∧
      (∃ p', arrive (.new ⟨.V4 0, 0⟩ Config.default 0 ⟨0, 0, 0⟩) [seven_arrives, seven_arrives] =
        .ok ([[⟨⟨.V4 0, 0⟩, [7], .Reliable, .None, 0⟩], [⟨⟨.V4 0, 0⟩, [7], .Reliable, .None, 0⟩]], p')) ∧
      ¬ ((traced (.new ⟨.V4 0, 0⟩ Config.default 0 ⟨0, 0, 0⟩) [seven_arrives, seven_arrives]).map Prod.fst).Nodup :=
  ⟨carry_seven 2, ⟨_, rfl⟩, by
    rw [show (traced (.new ⟨.V4 0, 0⟩ Config.default 0 ⟨0, 0, 0⟩) [seven_arrives, seven_arrives]).map Prod.fst =
      [0, 0] from rfl]
    decide⟩

end

end Peer

end Bitfold
