import Bitfold.Receiving
/-!
# Soundness of acknowledgments

An acknowledgment speaks of the sequences in the handler's window, whatever
fed them. It names only what was received if everything else that fed the
window has left it by then, if the window was started by a sequence it can
start from, and if the group a last fragment completes is one group.
-/

namespace Bitfold

open AcknowledgmentHandler

/-! ## The window starts at sequence 0 -/

theorem next_after_zero {w : SequenceBuffer ReceivedPacket 33} {s : UInt16} (hw : w.sequence_num = 0)
    (hs : s ≤ 32734) : w.next_after s = s + 1 := by
  have hs' : s.toNat ≤ 32734 := hs
  have hold : w.too_old s = false := by
    unfold SequenceBuffer.too_old sequence_less_than sequence_greater_than
    rw [hw, show (0 : UInt16) - .ofNat 33 = 65503 from rfl]
    simp only [Bool.or_eq_false_iff, Bool.and_eq_false_iff, decide_eq_false_iff_not, gt_iff_lt,
      UInt16.lt_iff_toNat_lt, UInt16.le_iff_toNat_le, UInt16.toNat_sub, UInt16.toNat_ofNat]
    omega
  have hnew : sequence_greater_than (s + 1) w.sequence_num = true := by
    unfold sequence_greater_than
    rw [hw]
    simp only [Bool.or_eq_true, Bool.and_eq_true, decide_eq_true_eq, gt_iff_lt,
      UInt16.lt_iff_toNat_lt, UInt16.le_iff_toNat_le, UInt16.toNat_sub, UInt16.toNat_add, UInt16.toNat_ofNat]
    omega
  simp [SequenceBuffer.next_after, hold, hnew]

/-! ## What was received -/

/-- Was the sequence received, whole or in all the fragments of a group? -/
def Received (history : List ProtocolCommand) (s : UInt16) : Prop :=
  (∃ ch o d, .SendReliable ch s o d ∈ history) ∨
    ∃ n : UInt8, 0 < n ∧ ∀ i < n, ∃ ch o d, .SendFragment ch s o i n d ∈ history

theorem Received.mono {h h' : List ProtocolCommand} {s : UInt16} (hs : Received h s) (hsub : h ⊆ h') :
    Received h' s := by
  rcases hs with ⟨ch, o, d, hm⟩ | ⟨n, hn, hf⟩
  · exact .inl ⟨ch, o, d, hsub hm⟩
  · refine .inr ⟨n, hn, fun i hi => ?_⟩
    obtain ⟨ch, o, d, hm⟩ := hf i hi
    exact ⟨ch, o, d, hsub hm⟩

/-- Did a command feed the sequence to the window? -/
def Fed (history : List ProtocolCommand) (s : UInt16) : Prop := ∃ c ∈ history, feeds c = some s

/-- Was the sequence named by an acknowledgment or by a single fragment? -/
def Mentioned (history : List ProtocolCommand) (s : UInt16) : Prop :=
  (∃ m st, .Acknowledge s m st ∈ history) ∨ ∃ ch o i n d, .SendFragment ch s o i n d ∈ history

theorem Fed.received_or_mentioned {h : List ProtocolCommand} {s : UInt16} (hf : Fed h s) :
    Received h s ∨ Mentioned h s := by
  obtain ⟨c, hc, hs⟩ := hf
  cases c with
  | Acknowledge s' m st =>
    cases hs
    exact .inr (.inl ⟨m, st, hc⟩)
  | SendReliable ch s' o d =>
    cases hs
    exact .inl (.inl ⟨ch, o, d, hc⟩)
  | SendFragment ch s' o i n d =>
    cases hs
    exact .inr (.inr ⟨ch, o, i, n, d, hc⟩)
  | _ => cases hs

theorem Fed.append {history : List ProtocolCommand} {x : UInt16} (h : Fed history x) (c : ProtocolCommand) :
    Fed (history ++ [c]) x := by
  obtain ⟨c', hc, hx⟩ := h
  exact ⟨c', by simp [hc], hx⟩

theorem fed_last {history : List ProtocolCommand} {c : ProtocolCommand} {s : UInt16} (h : feeds c = some s) :
    Fed (history ++ [c]) s := ⟨c, by simp, h⟩

theorem fed_append_iff {history : List ProtocolCommand} {c : ProtocolCommand} {x : UInt16} :
    Fed (history ++ [c]) x ↔ Fed history x ∨ feeds c = some x := by
  constructor
  · rintro ⟨c', hc, hx⟩
    rcases List.mem_append.1 hc with hc | hc
    · exact .inl ⟨c', hc, hx⟩
    · rw [List.mem_singleton.1 hc] at hx
      exact .inr hx
  · rintro (h | h)
    · exact h.append c
    · exact fed_last h

namespace Peer

variable {p p' : Peer} {c : ProtocolCommand} {t : Instant} {draw : UInt16} {r : Processed}
  {history : List ProtocolCommand}

/-- Every acknowledgment in the queue names received sequences only. -/
def AckSound (history : List ProtocolCommand) (p : Peer) : Prop :=
  ∀ s m st, .Acknowledge s m st ∈ p.commands → ∀ x, names s m x = true → Received history x

abbrev window (p : Peer) : SequenceBuffer ReceivedPacket 33 := p.acknowledge_handler.received_packets

theorem window_size_pos : 0 < 33 := by decide

/-- A window of 33 that the sequences of a history have gone through. -/
def window_of (history : List ProtocolCommand) : SequenceBuffer ReceivedPacket 33 :=
  (history.filterMap feeds).foldl (fun w s => w.insert s {}) (.with_capacity 33 window_size_pos)

/-- The newest sequence once `s` has followed the history. -/
def newest_after (history : List ProtocolCommand) (s : UInt16) : UInt16 := (window_of history).next_after s - 1

/-- Once `s` has followed the history, `x` is not among the last 33 sequences,
or is not one that a window would still hold. -/
def Forgotten (history : List ProtocolCommand) (s x : UInt16) : Prop :=
  32 < (newest_after history s - x).toNat ∨ ((window_of history).exists_at x = false ∧ x ≠ newest_after history s)

/-- The condition on a command with sequence `s` that makes the peer
acknowledge. -/
structure Clean (history : List ProtocolCommand) (p : Peer) (c : ProtocolCommand) (s : UInt16) : Prop where
  /-- What was only mentioned has left the window. -/
  mentioned : ∀ x, Mentioned history x → Received (history ++ [c]) x ∨ Forgotten history s x
  /-- The window has been started. -/
  started : (∃ x, Fed (history ++ [c]) x ∧ x ≤ 32734) ∨ Received (history ++ [c]) 65535
  /-- The fragments gathered under `s` are of the group of the last one. -/
  group : ∀ ch o i n d, c = .SendFragment ch s o i n d → ∀ b, p.command_fragments[s]? = some b →
    b.fragment_count = n ∧ ∀ j, j ∈ b.fragments → ∃ ch o d, .SendFragment ch s o j n d ∈ history

/-- A run from a fresh peer whose commands all meet the condition. -/
inductive CleanRun : List ProtocolCommand → Peer → Prop where
  | new (addr : SocketAddr) (config : Config) (time : Instant) (draw : PeerDraw) :
      CleanRun [] (.new addr config time draw)
  | step {history : List ProtocolCommand} {p p' : Peer} {c : ProtocolCommand} {t : Instant} {draw : UInt16}
      {r : Processed} : CleanRun history p →
      (p.Acknowledges t c → ∀ s, feeds c = some s → Clean history p c s) →
      p.process_command c t draw = .ok (p', r) → CleanRun (history ++ [c]) p'

/-! ## The window holds what was fed to it -/

/-- The window is at its start, fed by nothing it can start from, or its
newest sequence was fed to it. -/
structure WindowFed (history : List ProtocolCommand) (p : Peer) : Prop where
  window : p.window = window_of history
  entries : ∀ x, p.window.exists_at x = true → Fed history x
  newest : (p.window.sequence_num = 0 ∧ ∀ x, Fed history x → 32734 < x) ∨ Fed history (p.window.sequence_num - 1)

theorem next_after_cases (w : SequenceBuffer ReceivedPacket 33) (s : UInt16) :
    w.next_after s = s + 1 ∨ w.next_after s = w.sequence_num := by
  unfold SequenceBuffer.next_after
  split
  · exact .inl rfl
  · exact .inr rfl

theorem window_of_snoc (history : List ProtocolCommand) (c : ProtocolCommand) :
    window_of (history ++ [c]) =
      (feeds c).elim (window_of history) fun s => (window_of history).insert s {} := by
  unfold window_of
  rw [List.filterMap_append, List.foldl_append]
  cases h : feeds c <;> simp [h]

theorem windowFed_new (addr : SocketAddr) (config : Config) (time : Instant) (draw : PeerDraw) :
    WindowFed [] (.new addr config time draw) := by
  have hw : (Peer.new addr config time draw).window = .with_capacity 33 window_size_pos := by
    unfold window Peer.new new_handler
    dsimp only
    split <;> rfl
  refine ⟨hw, fun x hx => ?_, .inl ⟨by rw [hw]; rfl, ?_⟩⟩
  · rw [hw, SequenceBuffer.exists_at_iff] at hx
    simp [SequenceBuffer.with_capacity, Vector.get] at hx
  · rintro x ⟨c, hc, -⟩
    cases hc

theorem WindowFed.process_command (h : WindowFed history p) (he : p.process_command c t draw = .ok (p', r)) :
    WindowFed (history ++ [c]) p' := by
  have hw : p'.window = (p.acknowledge_handler.hear c t).received_packets :=
    congrArg received_packets (process_command_hears he).handler
  rw [hear_received] at hw
  cases hf : feeds c with
  | none =>
    -- nothing is fed and the window stays
    rw [hf] at hw
    have hfed : ∀ x, Fed (history ++ [c]) x ↔ Fed history x := by simp [fed_append_iff, hf]
    refine ⟨?_, fun x hx => ?_, ?_⟩
    · rw [hw, window_of_snoc, hf]
      exact h.window
    · rw [hw] at hx
      exact (h.entries x hx).append c
    · simp only [hw, hfed]
      exact h.newest
  | some s =>
    rw [hf] at hw
    dsimp only at hw
    refine ⟨?_, fun x hx => ?_, ?_⟩
    · rw [hw, window_of_snoc, hf, ← h.window]
      rfl
    · rw [hw] at hx
      rcases SequenceBuffer.exists_at_of_insert hx with hx | rfl
      · exact (h.entries x hx).append c
      · exact fed_last hf
    · rw [hw, SequenceBuffer.insert_sequence_num]
      rcases next_after_cases p.window s with hn | hn
      · rw [hn, UInt16.add_sub_cancel]
        exact .inr (fed_last hf)
      · rw [hn]
        rcases h.newest with ⟨h0, hfar⟩ | hnew
        · by_cases hs : s ≤ 32734
          · -- a sequence the window can start from
            rw [← hn, next_after_zero h0 hs, UInt16.add_sub_cancel]
            exact .inr (fed_last hf)
          · refine .inl ⟨h0, fun x hx => ?_⟩
            rcases fed_append_iff.1 hx with hx | hx
            · exact hfar x hx
            · rw [hf] at hx
              cases hx
              exact UInt16.not_le.1 hs
        · exact .inr (hnew.append c)

/-! ## A completed group was received -/

/-- Fragments are collected only where all are there. -/
theorem mem_of_collect {fragments : Std.ExtTreeMap UInt8 Bytes} {ids : List UInt8} {data : Bytes}
    (h : CommandFragmentBuffer.collect fragments ids = some data) : ∀ j ∈ ids, j ∈ fragments := by
  induction ids generalizing fragments data with
  | nil =>
    intro j hj
    cases hj
  | cons i ids ih =>
    unfold CommandFragmentBuffer.collect at h
    split at h
    · rename_i bytes hi
      obtain ⟨rest, hrest, -⟩ := Option.map_eq_some_iff.1 h
      intro j hj
      rcases List.mem_cons.1 hj with rfl | hj
      · exact Std.ExtTreeMap.mem_iff_isSome_getElem?.2 (by rw [hi]; rfl)
      · exact Std.ExtTreeMap.mem_of_mem_erase (ih hrest j hj)
    · cases h

/-- The last fragment of a group whose others all were of the same group. -/
theorem received_of_completed {ch : UInt8} {s : UInt16} {o : Bool} {i n : UInt8} {d : SharedBytes}
    (hc : Clean history p (.SendFragment ch s o i n d) s) (ha : p.Acknowledges t (.SendFragment ch s o i n d)) :
    Received (history ++ [.SendFragment ch s o i n d]) s := by
  obtain ⟨data, hr⟩ := ha
  unfold CommandFragmentBuffer.reassemble at hr
  split at hr
  · cases hr
  rename_i hcomplete
  simp only [CommandFragmentBuffer.is_complete, Bool.not_eq_true', Bool.not_eq_false, beq_iff_eq] at hcomplete
  have hcount : (p.fragment_buffer ch s o i n d t).fragment_count = n := by
    unfold fragment_buffer CommandFragmentBuffer.add_fragment
    cases hb : p.command_fragments[s]? with
    | none => rfl
    | some b => exact (hc.group ch o i n d rfl b hb).1
  -- the fragment itself, or one that was gathered before
  have hmem : ∀ j, j ∈ (p.fragment_buffer ch s o i n d t).fragments →
      ∃ ch' o' d', .SendFragment ch' s o' j n d' ∈ history ++ [.SendFragment ch s o i n d] := by
    intro j hj
    unfold fragment_buffer CommandFragmentBuffer.add_fragment at hj
    rcases Std.ExtTreeMap.mem_insert.1 hj with hij | hj
    · cases Std.compare_eq_iff_eq.1 hij
      exact ⟨ch, o, d, by simp⟩
    · cases hb : p.command_fragments[s]? with
      | none =>
        rw [hb] at hj
        exact absurd hj Std.ExtTreeMap.not_mem_empty
      | some b =>
        rw [hb] at hj
        obtain ⟨ch', o', d', hm⟩ := (hc.group ch o i n d rfl b hb).2 j hj
        exact ⟨ch', o', d', by simp [hm]⟩
  rw [hcount] at hr hcomplete
  refine .inr ⟨n, ?_, fun j hj => hmem j (mem_of_collect hr j ?_)⟩
  · rw [UInt8.pos_iff_ne_zero]
    rintro rfl
    have he := Std.ExtTreeMap.eq_empty_iff_size_eq_zero.2 hcomplete
    exact absurd he (Std.ExtTreeMap.insert_ne_empty)
  · exact List.mem_map.2 ⟨j.toNat, List.mem_range.2 hj, UInt8.ofNat_toNat⟩

theorem received_of_acknowledges {s : UInt16} (ha : p.Acknowledges t c) (hf : feeds c = some s)
    (hc : Clean history p c s) : Received (history ++ [c]) s := by
  cases c with
  | SendReliable ch s' o d =>
    cases hf
    exact .inl ⟨ch, o, d, by simp⟩
  | SendFragment ch s' o i n d =>
    cases hf
    exact received_of_completed hc ha
  | _ => exact absurd ha id

/-- What the window holds within reach of an acknowledgment was received. -/
theorem Clean.received_of_fed {s x : UInt16} (hc : Clean history p c s) (hx : Fed history x)
    (hn : ¬ Forgotten history s x) : Received (history ++ [c]) x := by
  rcases hx.received_or_mentioned with hr | hm
  · exact hr.mono (by simp)
  · exact (hc.mentioned x hm).resolve_right hn

/-- What an acknowledgment of the handler names: the newest sequence, and
those of the 32 before it that the window holds. -/
theorem names_handler {h : AcknowledgmentHandler} {x : UInt16}
    (hx : names h.remote_sequence_num h.ack_bitfield x = true) :
    x = h.remote_sequence_num ∨
      (h.received_packets.exists_at x = true ∧ (h.remote_sequence_num - x).toNat ≤ 32) := by
  simp only [names, Bool.or_eq_true, beq_iff_eq, List.any_eq_true, Bool.and_eq_true, List.mem_range'_1] at hx
  apply hx.imp_right
  rintro ⟨i, ⟨h1, h2⟩, hbit, rfl⟩
  rw [ack_bitfield_testBit, Nat.sub_add_cancel h1, Bool.and_eq_true] at hbit
  refine ⟨hbit.2, ?_⟩
  rw [sub_sub_cancel, UInt16.toNat_ofNat']
  simp only [redundant_packet_acks_size] at h2
  omega

/-- One step: an acknowledgment that a clean command causes is sound. -/
theorem AckSound.process_command (h : AckSound history p) (hw : WindowFed history p)
    (hc : p.Acknowledges t c → ∀ s, feeds c = some s → Clean history p c s)
    (he : p.process_command c t draw = .ok (p', r)) : AckSound (history ++ [c]) p' := by
  intro s m st hm x hx
  rcases (process_command_hears he).acks s m st hm with hm | ⟨ha, rfl, rfl⟩
  · exact (h s m st hm x hx).mono (by simp)
  obtain ⟨seq, hseq⟩ : ∃ seq, feeds c = some seq := by
    cases c <;> first | exact ⟨_, rfl⟩ | exact absurd ha id
  have hclean := hc ha seq hseq
  have hself := received_of_acknowledges ha hseq hclean
  have hwin : (p.acknowledge_handler.hear c t).received_packets = p.window.insert seq {} := by
    rw [hear_received, hseq]
  have hnew : (p.acknowledge_handler.hear c t).remote_sequence_num = newest_after history seq := by
    rw [remote_sequence_num, hwin, SequenceBuffer.insert_sequence_num, newest_after, hw.window]
  rcases names_handler hx with hx | ⟨hex, hdist⟩
  · -- the newest sequence: the one that arrived, or the newest before it
    rw [hnew] at hx
    rcases next_after_cases p.window seq with hn | hn
    · rw [hx, newest_after, ← hw.window, hn, UInt16.add_sub_cancel]
      exact hself
    · have hnf : ¬ Forgotten history seq x := by
        rintro (hlt | ⟨-, hne⟩)
        · rw [hx, UInt16.sub_self] at hlt
          cases hlt
        · exact hne hx
      rw [newest_after, ← hw.window, hn] at hx
      rcases hw.newest with ⟨h0, hfar⟩ | hfed
      · rcases hclean.started with ⟨y, hy, hle⟩ | h65535
        · rcases fed_append_iff.1 hy with hy | hy
          · exact absurd (hfar y hy) (UInt16.not_lt.2 hle)
          · rw [hseq] at hy
            cases hy
            rw [hx, ← hn, next_after_zero h0 hle, UInt16.add_sub_cancel]
            exact hself
        · rw [hx, h0]
          exact h65535
      · rw [← hx] at hfed
        exact hclean.received_of_fed hfed hnf
  · -- a sequence of the mask: held before, or the one that arrived
    rw [hwin] at hex
    rw [hnew] at hdist
    rcases SequenceBuffer.exists_at_of_insert hex with hex | rfl
    · apply hclean.received_of_fed (hw.entries x hex)
      rintro (hlt | ⟨hne, -⟩)
      · omega
      · rw [← hw.window, hex] at hne
        cases hne
    · exact hself

/-- In a clean run every acknowledgment names received sequences only. -/
theorem acknowledgments_sound (h : CleanRun history p) : AckSound history p := by
  suffices AckSound history p ∧ WindowFed history p from this.1
  induction h with
  | new addr config time draw =>
    refine ⟨fun s m st hm => ?_, windowFed_new addr config time draw⟩
    cases hm
  | step _ hc he ih => exact ⟨ih.1.process_command ih.2 hc he, ih.2.process_command he⟩

/-- A fresh peer. -/
def unheard : Peer := .new ⟨.V4 0, 0⟩ Config.default 0 ⟨0, 0, 0⟩

/-- Reliable data of one byte. -/
def message (s : UInt16) : ProtocolCommand := .SendReliable 0 s true (.from_arc [7])

/-- Whole messages mention no other sequences. -/
theorem clean_message {history : List ProtocolCommand} {p : Peer} (h : ∀ c ∈ history, ∃ s, c = message s) {s : UInt16}
    (hs : s ≤ 32734) : Clean history p (message s) s := by
  refine ⟨fun x hx => ?_, .inl ⟨s, fed_last rfl, hs⟩, fun ch o i n d hc => by cases hc⟩
  rcases hx with ⟨m, st, hm⟩ | ⟨ch, o, i, n, d, hm⟩ <;> obtain ⟨s', hs'⟩ := h _ hm <;> cases hs'

/-- Of the messages 0, 1 and 2 the second one is lost: the last acknowledgment
names the other two. -/
theorem acknowledgments_sound_gap :
    ∃ p₁ r₁ p₂ r₂, unheard.process_command (message 0) 0 0 = .ok (p₁, r₁) ∧
      p₁.process_command (message 2) 0 0 = .ok (p₂, r₂) ∧
      p₂.commands = [.Acknowledge 0 0 none, .Acknowledge 2 2 none] ∧ AckSound [message 0, message 2] p₂ := by
  obtain ⟨⟨p₁, r₁⟩, h₁, hout⟩ := exists_ok (x := unheard.process_command (message 0) 0 0)
    (p := fun out => (out.1.process_command (message 2) 0 0).toOption.any fun out' =>
      out'.1.commands == [.Acknowledge 0 0 none, .Acknowledge 2 2 none]) (by decide +kernel)
  obtain ⟨⟨p₂, r₂⟩, h₂, hcmds⟩ := exists_ok hout
  refine ⟨p₁, r₁, p₂, r₂, h₁, h₂, beq_iff_eq.1 hcmds, ?_⟩
  refine acknowledgments_sound (.step (.step (.new _ _ _ _) (fun _ s hs => ?_) h₁) (fun _ s hs => ?_) h₂)
  · cases hs
    exact clean_message (by simp) (by decide)
  · cases hs
    exact clean_message (by simp) (by decide)

/-- An incoming acknowledgment of sequence 5 is taken for its reception: the
acknowledgment of the first message then names 5. -/
theorem acknowledgment_names_five :
    ∃ p₁ r₁ p₂ r₂, unheard.process_command (.Acknowledge 5 0 none) 0 0 = .ok (p₁, r₁) ∧
      p₁.process_command (message 0) 0 0 = .ok (p₂, r₂) ∧
      ¬ AckSound [.Acknowledge 5 0 none, message 0] p₂ := by
  refine ⟨(unheard.heard 0).process_acknowledge 5 0 0, .ok .zero,
    (((unheard.heard 0).process_acknowledge 5 0 0).heard 0 |>.process_send_reliable 0 0 true (.from_arc [7]) 0).1,
    .ok _, rfl, rfl, fun h => ?_⟩
  have hq : (((unheard.heard 0).process_acknowledge 5 0 0).heard 0 |>.process_send_reliable 0 0 true
      (.from_arc [7]) 0).1.commands = [.Acknowledge 5 16 none] := by decide +kernel
  have hr := h 5 16 none (by rw [hq]; simp) 5 rfl
  rcases hr with ⟨ch, o, d, hm⟩ | ⟨n, hn, hf⟩
  · simp [message] at hm
  · obtain ⟨ch, o, d, hm⟩ := hf 0 hn
    simp [message] at hm

end Peer

end Bitfold
