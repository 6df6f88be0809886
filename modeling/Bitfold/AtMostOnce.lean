import Bitfold.Lib.Keyed
import Bitfold.Provenance
/-!
# At most once

Nobody resends an unsequenced packet, but the network may repeat it. Every
chunk has a group, and the receiver keeps a window of the groups it has seen.
Until a sender has used half of the groups no chunk comes out twice.
-/

namespace Bitfold

open Lib ProtocolCommand

/-! ## The window -/

namespace UnsequencedState

variable {s : UnsequencedState} {groups : List UInt16} {g : UInt16}

/-- The groups were taken, and are all in the lower half. -/
def Took (s : UnsequencedState) (groups : List UInt16) : Prop :=
  ∃ base ≤ 32767, s.Counts base ∧ (groups = [] ∧ base = 0 ∨ ¬ s.Empty) ∧ ∀ g ∈ groups, s.Recorded base g.toNat

theorem took_new : new.Took [] :=
  ⟨0, Nat.zero_le _, rfl, .inl ⟨rfl, rfl⟩, fun g hg => by cases hg⟩

/-- A group of the lower half is new when it is taken. -/
theorem Took.receive (h : s.Took groups) (hg : g.toNat < 32768) :
    ((s.receive g).2 = false ∧ (s.receive g).1 = s) ∨
      ((s.receive g).2 = true ∧ g ∉ groups ∧ (s.receive g).1.Took (groups ++ [g])) := by
  obtain ⟨base, hbase, hcounts, hempty, hrecorded⟩ := h
  cases hd : s.is_duplicate g with
  | true => exact .inl (by simp [UnsequencedState.receive, hd])
  | false =>
    have hoffset : s.offset g = (2 ^ 16 - base + g.toNat) % 2 ^ 16 := by
      rw [offset, UInt16.toNat_sub, hcounts, Nat.mod_eq_of_lt (a := base) (by omega)]
    -- behind the base it would be a duplicate
    have hahead : base ≤ g.toNat := by
      by_contra hlt
      have hne : ¬ s.Empty := hempty.resolve_left fun h => by omega
      have hdup := (is_duplicate_iff s g).2 ⟨hne, .inr (by omega)⟩
      rw [hd] at hdup
      cases hdup
    have hfar : s.offset g = g.toNat - base := by omega
    have hnumber : s.number base g = g.toNat := by
      unfold number
      rw [if_pos (by omega)]
      omega
    have hadvance : base + advance (s.offset g) ≤ 32767 := by
      unfold advance
      split <;> omega
    have hmoved := receive_counts hcounts g
    have hold := fun g' hm => receive_recorded (hrecorded g' hm) g
    rw [receive_base, hd, if_neg (by decide)] at hmoved hold
    have hreceive : s.receive g = (s.mark_received g, true) := by simp [UnsequencedState.receive, hd]
    rw [hreceive] at hmoved hold ⊢
    refine .inr ⟨rfl, fun hm => ?_, base + advance (s.offset g), hadvance, hmoved,
      .inr (mark_received_not_empty (by omega)), fun g' hm => ?_⟩
    · have hne : ¬ s.Empty := hempty.resolve_left fun h => List.ne_nil_of_mem hm h.1
      have hdup := is_duplicate_of_recorded hne hcounts (hrecorded g hm) (g := g) (by omega) (by omega)
      rw [hd] at hdup
      cases hdup
    · rcases List.mem_append.1 hm with hm | hm
      · exact hold g' hm
      · rw [List.mem_singleton.1 hm, ← hnumber]
        exact mark_received_recorded s base g

end UnsequencedState

/-! ## What a session takes -/

/-- The chunks are in the datagrams under their own groups. -/
def Grouped (chunks : List (UInt8 × Bytes)) (c : ProtocolCommand) : Prop :=
  ∀ ch g d, c = .SendUnsequenced ch g d → ∃ i, g = .ofNat i ∧ chunks[i]? = some (ch, d.as_slice)

theorem Grouped.owned {chunks : List (UInt8 × Bytes)} {c : ProtocolCommand} (h : Grouped chunks c) :
    Grouped chunks c.owned := by
  intro ch g d he
  cases c with
  | SendUnsequenced ch' g' d' =>
    cases he
    obtain ⟨i, hi, hchunk⟩ := h _ _ _ rfl
    exact ⟨i, hi, by simpa using hchunk⟩
  | _ => cases he

theorem grouped_of_other {chunks : List (UInt8 × Bytes)} {c : ProtocolCommand}
    (h : ∀ ch g d, c ≠ .SendUnsequenced ch g d) : Grouped chunks c :=
  fun ch g d he => absurd he (h ch g d)

/-- The unsequenced packets among these. -/
def unsequenced (packets : List Packet) : List Packet := packets.filter fun packet => packet.ordering = .Unsequenced

theorem unsequenced_append (xs ys : List Packet) : unsequenced (xs ++ ys) = unsequenced xs ++ unsequenced ys :=
  List.filter_append ..

/-- The unsequenced packets are chunks with different groups, which the window
has taken. -/
def CameOnce (chunks : List (UInt8 × Bytes)) (s : UnsequencedState) (packets : List Packet) : Prop :=
  ∃ groups delivered : List UInt16, s.Took groups ∧ groups.Nodup ∧ delivered.Sublist groups ∧
    delivered.map (fun g => chunks[g.toNat]?) =
      (unsequenced packets).map fun packet => some (packet.channel_id, packet.payload)

section Receiver

variable {codecs : Codecs} {chunks : List (UInt8 × Bytes)} {p q : Peer} {packets : List Packet} {t : Instant}
  {draw : UInt16}

theorem cameOnce_new (chunks : List (UInt8 × Bytes)) : CameOnce chunks .new [] :=
  ⟨[], [], UnsequencedState.took_new, .nil, .slnil, rfl⟩

theorem CameOnce.subperm {s : UnsequencedState} (h : CameOnce chunks s packets) :
    ((unsequenced packets).map fun packet => (packet.channel_id, packet.payload)).Subperm chunks := by
  obtain ⟨groups, delivered, -, hnodup, hsub, hlabels⟩ := h
  have hplaces : (delivered.map UInt16.toNat).map (chunks[·]?) =
      ((unsequenced packets).map fun packet => (packet.channel_id, packet.payload)).map some := by
    rw [List.map_map, List.map_map]
    exact hlabels
  exact picked_subperm ((hnodup.sublist hsub).map fun _ _ => UInt16.toNat_inj.1) hplaces

/-- Other packets do not count. -/
theorem CameOnce.others {s : UnsequencedState} (h : CameOnce chunks s packets) {more : List Packet}
    (hmore : ∀ packet ∈ more, packet.ordering ≠ .Unsequenced) : CameOnce chunks s (packets ++ more) := by
  have hnone : unsequenced more = [] := by
    apply List.filter_eq_nil_iff.2
    intro packet hm
    simpa using hmore packet hm
  unfold CameOnce
  rw [unsequenced_append, hnone, List.append_nil]
  exact h

/-- All but unsequenced chunks. -/
def sequenced_policy : Policy where
  command c := ∀ ch g d, c ≠ .SendUnsequenced ch g d
  buffers _ _ := True
  waits _ _ := True
  delivers _ o _ _ := o ≠ .Unsequenced

theorem sequenced_policy_sound : sequenced_policy.Sound where
  quiet h := by
    rintro ch g d rfl
    cases h
  owned h := by
    intro ch g d he
    rename_i c
    cases c <;> cases he
    exact h _ _ _ rfl
  ordered _ := trivial
  reliable _ := by simp [sequenced_policy]
  unreliable _ := by simp [sequenced_policy]
  sequenced _ := by simp [sequenced_policy]
  unsequenced h := absurd rfl (h _ _ _)
  opens _ _ := trivial
  joins _ _ := trivial
  reassembled := by
    intros
    exact ⟨fun _ => trivial, by simp [sequenced_policy]⟩
  released _ := by simp [sequenced_policy]
  completed _ _ _ := by simp [sequenced_policy]

theorem sequenced_policy_guards (p : Peer) : sequenced_policy.Guards p := by
  exact ⟨fun _ _ _ _ => trivial, fun _ _ _ => trivial⟩

theorem enqueue_command_window (p : Peer) (c : ProtocolCommand) :
    (p.enqueue_command c).2.unsequenced_state = p.unsequenced_state := by
  obtain ⟨n, cq, he⟩ := Peer.enqueue_command_writes p c
  rw [he]

/-- Only unsequenced chunks touch the window. -/
theorem process_command_window {c : ProtocolCommand} {r : Peer.Processed} (hc : ∀ ch g d, c ≠ .SendUnsequenced ch g d)
    (h : p.process_command c t draw = .ok (q, r)) : q.unsequenced_state = p.unsequenced_state := by
  cases c with
  | SendUnsequenced ch g d => exact absurd rfl (hc ch g d)
  | SendReliable ch s o d =>
    cases h
    obtain ⟨cs, he⟩ := Peer.process_send_reliable_writes (p.heard t) ch s o d t
    change ((p.heard t).process_send_reliable ch s o d t).1.unsequenced_state = _
    rw [he]
    exact enqueue_command_window ..
  | SendFragment ch s o i n d =>
    cases h
    change ((p.heard t).process_send_fragment ch s o i n d t).1.unsequenced_state = _
    rcases Peer.process_send_fragment_cases (p.heard t) ch s o i n d t with ⟨-, fs, he⟩ | ⟨-, fs, cs, he⟩
    · rw [he]
      rfl
    · rw [he]
      exact enqueue_command_window ..
  | SendUnreliableSequenced ch s d =>
    cases h
    obtain ⟨cs, he⟩ := Peer.process_send_unreliable_sequenced_writes (p.heard t) ch s d
    change ((p.heard t).process_send_unreliable_sequenced ch s d).1.unsequenced_state = _
    rw [he]
    rfl
  | SendUnreliableFragment ch s i n d =>
    cases h
    obtain ⟨fs, he⟩ := Peer.process_send_unreliable_fragment_writes (p.heard t) ch s i n d t
    change ((p.heard t).process_send_unreliable_fragment ch s i n d t).1.unsequenced_state = _
    rw [he]
    rfl
  | Connect chs m v sid cid =>
    cases h
    rcases Peer.process_connect_writes (p.heard t) chs sid cid draw with he | ⟨i, n, st, v, he, -⟩ <;> rw [he] <;> rfl
  | VerifyConnect pid chs m isid osid w =>
    obtain ⟨i, n, f, st, rfl⟩ := Peer.process_verify_connect_writes h
    rfl
  | Ping ts | PMTUProbe size token d =>
    cases h
    exact enqueue_command_window ..
  | _ =>
    cases h
    rfl

/-- A chunk comes out if its group is new; anything else brings other packets. -/
theorem CameOnce.process_command {c : ProtocolCommand} {r : Peer.Processed} (hfew : chunks.length ≤ 32768)
    (h : CameOnce chunks p.unsequenced_state packets) (hc : Grouped chunks c)
    (hp : p.process_command c t draw = .ok (q, r)) :
    CameOnce chunks q.unsequenced_state packets ∧
      ∀ more, r = .ok more → CameOnce chunks q.unsequenced_state (packets ++ more.map Prod.fst) := by
  by_cases hchunk : ∀ ch g d, c ≠ .SendUnsequenced ch g d
  · have hothers := ((sequenced_policy_guards p).process_command sequenced_policy_sound hchunk hp).2
    rw [process_command_window hchunk hp]
    refine ⟨h, fun more hm => h.others fun packet hin => ?_⟩
    obtain ⟨x, hx, rfl⟩ := List.mem_map.1 hin
    exact hothers more hm x hx
  · push Not at hchunk
    obtain ⟨ch, g, d, rfl⟩ := hchunk
    obtain ⟨i, rfl, hi⟩ := hc ch g d rfl
    have hlt := (List.getElem?_eq_some_iff.1 hi).1
    have hg : (UInt16.ofNat i).toNat = i := by
      rw [UInt16.toNat_ofNat', Nat.mod_eq_of_lt (by omega)]
    obtain ⟨groups, delivered, htook, hnodup, hsub, hlabels⟩ := h
    rw [Peer.process_command_unsequenced, Peer.process_send_unsequenced_eq] at hp
    cases hp
    have hwindow : (p.heard t).unsequenced_state = p.unsequenced_state := rfl
    rw [hwindow]
    rcases htook.receive (g := .ofNat i) (by omega) with ⟨hold, hsame⟩ | ⟨hnew, hunseen, htook'⟩
    · dsimp only
      rw [hold, hsame]
      have honce : CameOnce chunks p.unsequenced_state packets := ⟨groups, delivered, htook, hnodup, hsub, hlabels⟩
      refine ⟨honce, fun more hm => ?_⟩
      cases hm
      simpa using honce
    · have hnodup' : (groups ++ [UInt16.ofNat i]).Nodup :=
        List.nodup_append.2 ⟨hnodup, List.nodup_singleton _, fun a ha b hb he => by
          rw [he, List.mem_singleton.1 hb] at ha
          exact hunseen ha⟩
      refine ⟨⟨_, delivered, htook', hnodup', hsub.trans (List.sublist_append_left ..), hlabels⟩, fun more hm => ?_⟩
      dsimp only at hm
      rw [hnew] at hm
      cases hm
      refine ⟨_, delivered ++ [.ofNat i], htook', hnodup', hsub.append (.refl _), ?_⟩
      rw [unsequenced_append, List.map_append, List.map_append, hlabels]
      simp [unsequenced, Peer.packet, hg, hi, SharedBytes.to_arc_eq]

/-- So with all the commands of a datagram. -/
theorem CameOnce.process_commands {cmds : List ProtocolCommand} {acc : IncomingPackets} {r : Peer.Processed}
    (hfew : chunks.length ≤ 32768) (h : CameOnce chunks p.unsequenced_state packets)
    (hacc : CameOnce chunks p.unsequenced_state (packets ++ acc.map Prod.fst)) (hcmds : ∀ c ∈ cmds, Grouped chunks c)
    (hp : Peer.process_commands t draw cmds p acc = .ok (q, r)) :
    CameOnce chunks q.unsequenced_state packets ∧
      ∀ more, r = .ok more → CameOnce chunks q.unsequenced_state (packets ++ more.map Prod.fst) := by
  induction cmds generalizing p acc with
  | nil =>
    cases hp
    refine ⟨h, fun more hm => ?_⟩
    cases hm
    exact hacc
  | cons c cmds ih =>
    rw [List.forall_mem_cons] at hcmds
    cases hc : p.process_command c t draw with
    | error e =>
      rw [Peer.process_commands_panics hc] at hp
      cases hp
    | ok x =>
      obtain ⟨p₁, result⟩ := x
      have hkept := (h.process_command hfew hcmds.1 hc).1
      cases result with
      | error e =>
        rw [Peer.process_commands_refuses hc] at hp
        cases hp
        exact ⟨hkept, fun more hm => by cases hm⟩
      | ok more =>
        rw [Peer.process_commands_ok hc] at hp
        have hmore := (hacc.process_command hfew hcmds.1 hc).2 more rfl
        rw [List.append_assoc, ← List.map_append] at hmore
        exact ih hkept hmore hcmds.2 hp

/-- So with a datagram that conveys chunks of the other side. -/
theorem CameOnce.process_packet {payload : Bytes} {actions : List Action} (hfew : chunks.length ≤ 32768)
    (h : CameOnce chunks p.unsequenced_state packets)
    (hread : Conveys codecs p.config.use_checksums (Grouped chunks) payload)
    (hp : p.process_packet codecs payload t draw = .ok (actions, q)) :
    CameOnce chunks q.unsequenced_state (packets ++ Peer.emitted actions) := by
  rcases Peer.process_packet_conveyed hread hp with ⟨hnone, st, b, rfl⟩ | ⟨cmds, r, result, st, hcmds, hr, rfl, hemitted⟩
  · rw [hnone, List.append_nil]
    exact h
  · have htaking : CameOnce chunks (p.taking t payload.length).unsequenced_state packets := by
      obtain ⟨stats, b, htakes⟩ := p.taking_writes t payload.length
      rw [htakes]
      exact h
    have hcommands : ∀ c ∈ cmds, Grouped chunks c := by
      intro c hc
      obtain ⟨c', hc', rfl⟩ := hcmds c hc
      exact hc'.owned
    obtain ⟨hkept, hmore⟩ := htaking.process_commands hfew (by simpa using htaking) hcommands hr
    rcases hemitted with hnone | ⟨more, rfl, hsome⟩
    · rw [hnone, List.append_nil]
      exact hkept
    · rw [hsome]
      exact hmore more rfl

end Receiver

/-! ## What a session numbers -/

/-- The data in pieces of this size. -/
def pieces (size : Nat) : Nat → Bytes → List Bytes
  | 0, _ => []
  | fuel + 1, data => if data = [] then [] else data.take size :: pieces size fuel (data.drop size)

/-- The chunks of a packet that is sent through this session. -/
def chunks_of (x : Peer × Packet) : List (UInt8 × Bytes) :=
  if Peer.packet_mode x.2 = none then
    (pieces x.1.max_payload_unseq x.2.payload.length x.2.payload).map fun piece => (x.2.channel_id, piece)
  else []

/-- The chunks of all these packets. -/
def unsequenced_chunks (sent : List (Peer × Packet)) : List (UInt8 × Bytes) := sent.flatMap chunks_of

namespace Peer

variable {codecs : Codecs} {p q : Peer} {event : Packet} {actions : List Action} {t : Instant} {draw : UInt16}

/-- A session that has numbered so many chunks. -/
def HasNumbered (p : Peer) (k : Nat) : Prop := p.unsequenced_state.outgoing_unsequenced_group = .ofNat k

/-- The window stays, and so many chunks have been numbered. -/
def numbering (p : Peer) (k : Nat) : UnsequencedState :=
  { p.unsequenced_state with outgoing_unsequenced_group := .ofNat k }

theorem HasNumbered.numbering {k : Nat} (h : p.HasNumbered k) : p.unsequenced_state = p.numbering k := by
  unfold Peer.numbering
  rw [← h]

theorem hasNumbered_of_numbering {k : Nat} (h : q.unsequenced_state = p.numbering k) : q.HasNumbered k := by
  unfold HasNumbered
  rw [h]
  rfl

/-- Chunks get the next groups. -/
theorem enqueue_chunks_numbers {ch : UInt8} {base : SharedBytes} {size fuel offset : Nat}
    {before : List (UInt8 × Bytes)} (hsize : size ≤ 65529) (hp : p.HasNumbered before.length)
    (h : enqueue_chunks ch base size fuel offset p = .ok q) :
    QueuesAll (fun c => Grouped (before ++ (pieces size fuel (base.as_slice.drop offset)).map fun piece => (ch, piece)) c ∧
        Framed c) p q ∧
      q.unsequenced_state = p.numbering
        (before ++ (pieces size fuel (base.as_slice.drop offset)).map fun piece => (ch, piece)).length := by
  induction fuel generalizing offset p before with
  | zero =>
    cases h
    exact ⟨.refl _ _, by simpa [pieces] using hp.numbering⟩
  | succ fuel ih =>
    unfold enqueue_chunks at h
    split at h
    · rename_i hlt
      obtain ⟨chunk, hchunk, hlen, hslice⟩ := base.slice_spec
        (show offset + min size (base.len - offset) ≤ base.len by omega)
      dsimp only at h
      rw [hchunk] at h
      have hpiece : chunk.as_slice = (base.as_slice.drop offset).take size := by
        rw [hslice, ← SharedBytes.as_slice_length base, ← List.length_drop, List.take_eq_take_iff]
        omega
      have hrest : base.as_slice.drop (offset + min size (base.len - offset)) = (base.as_slice.drop offset).drop size := by
        rw [List.drop_drop, List.drop_eq_drop_iff, SharedBytes.as_slice_length]
        omega
      have hne : base.as_slice.drop offset ≠ [] := by
        rw [Ne, List.drop_eq_nil_iff, SharedBytes.as_slice_length]
        omega
      have hnext : (p.next_unsequenced_group.2.enqueue_command
          (.SendUnsequenced ch p.next_unsequenced_group.1 chunk)).2.HasNumbered (before ++ [(ch, chunk.as_slice)]).length := by
        unfold HasNumbered at hp ⊢
        rw [enqueue_command_window, List.length_append, List.length_singleton, UInt16.ofNat_add, ← hp]
        rfl
      obtain ⟨hqueues, hnumbered⟩ := ih hnext h
      rw [pieces, if_neg hne, List.map_cons, ← hpiece, ← hrest]
      rw [List.append_assoc, List.singleton_append] at hqueues hnumbered
      have hwindow : ∀ k, (p.next_unsequenced_group.2.enqueue_command
          (.SendUnsequenced ch p.next_unsequenced_group.1 chunk)).2.numbering k = p.numbering k := by
        intro k
        unfold numbering
        rw [enqueue_command_window]
        rfl
      rw [hwindow] at hnumbered
      refine ⟨(queuesAll_of_eq rfl rfl rfl : QueuesAll _ p p.next_unsequenced_group.2).trans
        ((enqueue_command_queuesAll _ ⟨?_, ?_⟩).trans hqueues), hnumbered⟩
      · intro ch' g' d' he
        cases he
        exact ⟨before.length, hp, by simp⟩
      · apply framed_of_frame_len
        rw [frame_len_chunk]
        omega
    · rename_i hge
      cases h
      have hnil : base.as_slice.drop offset = [] := by
        rw [List.drop_eq_nil_iff, SharedBytes.as_slice_length]
        omega
      rw [pieces, if_pos hnil]
      exact ⟨.refl _ _, by simpa using hp.numbering⟩

/-- A user packet queues its chunks under the next groups, or no chunks. -/
theorem enqueue_packet_numbers {before : List (UInt8 × Bytes)} (hp : p.HasNumbered before.length)
    (h : p.enqueue_packet event = .ok q) :
    QueuesAll (fun c => Grouped (before ++ chunks_of (p, event)) c ∧ Framed c) p q ∧
      q.unsequenced_state = p.numbering (before ++ chunks_of (p, event)).length := by
  cases hmode : packet_mode event with
  | some mode =>
    have hnone : chunks_of (p, event) = [] := if_neg (by rw [hmode]; simp)
    rw [hnone, List.append_nil]
    have hcuts := enqueue_packet_cuts h
    refine ⟨hcuts.mono fun c ⟨hcut, hframed⟩ => ⟨grouped_of_other fun ch g d he => ?_, hframed⟩, ?_⟩
    · subst he
      cases hcut with
      | whole mode' d hm hfits hd hc => cases mode' <;> cases hc
      | fragment mode' g hm hg hc =>
        obtain ⟨j, y, -, -, hc⟩ := hc
        unfold Group.command at hc
        cases hgm : g.mode <;> rw [hgm] at hc <;> cases hc
      | chunk k group d hm hd hc =>
        rw [hmode] at hm
        cases hm
    · rw [enqueue_packet_mode hmode] at h
      cases h
      obtain ⟨n, cq, he⟩ := requeue_writes (p.numbered mode) (p.message_commands mode event.channel_id event.payload)
      rw [he]
      cases mode <;> exact hp.numbering
  | none =>
    have hunsequenced : p.enqueue_unsequenced event.channel_id event.payload = .ok q := by
      unfold packet_mode at hmode
      split at hmode
      · cases hmode
      · rename_i hdelivery hordering
        unfold enqueue_packet at h
        rwa [hdelivery, hordering] at h
      · cases hmode
    have hchunks := enqueue_chunks_numbers p.chunk_size_le hp hunsequenced
    rw [List.drop_zero, SharedBytes.as_slice_from_arc] at hchunks
    rw [chunks_of, if_pos hmode]
    exact hchunks

theorem receive_outgoing (s : UnsequencedState) (g : UInt16) :
    (s.receive g).1.outgoing_unsequenced_group = s.outgoing_unsequenced_group := by
  unfold UnsequencedState.receive UnsequencedState.mark_received UnsequencedState.advance_window
  split
  · rfl
  · dsimp only
    repeat' split
    all_goals rfl

theorem HasNumbered.process_command {c : ProtocolCommand} {r : Processed} {k : Nat} (hp : p.HasNumbered k)
    (h : p.process_command c t draw = .ok (q, r)) : q.HasNumbered k := by
  by_cases hchunk : ∀ ch g d, c ≠ .SendUnsequenced ch g d
  · unfold HasNumbered
    rw [process_command_window hchunk h]
    exact hp
  · push Not at hchunk
    obtain ⟨ch, g, d, rfl⟩ := hchunk
    rw [process_command_unsequenced, process_send_unsequenced_eq] at h
    cases h
    exact (receive_outgoing _ _).trans hp

theorem record_send_numbers {k : Nat} (hp : p.HasNumbered k) : p.record_send.2.HasNumbered k := by
  obtain ⟨st, cq, he⟩ := record_send_writes p
  rw [he]
  exact hp

theorem chunks_of_record_send (p : Peer) (event : Packet) : chunks_of (p.record_send.2, event) = chunks_of (p, event) := by
  obtain ⟨st, cq, he⟩ := record_send_writes p
  rw [he]
  rfl

theorem numbering_record_send (p : Peer) (k : Nat) : p.record_send.2.numbering k = p.numbering k := by
  obtain ⟨st, cq, he⟩ := record_send_writes p
  rw [he]
  rfl

theorem HasNumbered.process_event {before : List (UInt8 × Bytes)} (hp : p.HasNumbered before.length)
    (h : p.process_event codecs event = .ok (actions, q)) :
    q.unsequenced_state = p.numbering (before ++ chunks_of (p, event)).length := by
  obtain ⟨r, hr, -, rfl⟩ := process_event_ok h
  obtain ⟨n, cq, st, b, he⟩ := flush_writes codecs r
  have hnumbers := (enqueue_packet_numbers (record_send_numbers hp) hr).2
  rw [chunks_of_record_send, numbering_record_send] at hnumbers
  rw [he]
  exact hnumbers

/-- No other operation numbers chunks. -/
theorem HasNumbered.serve {op : LinkOp} {k : Nat} (hp : p.HasNumbered k) (hop : op.packets = [])
    (h : p.serve codecs op = .ok (actions, q)) : q.HasNumbered k := by
  cases op with
  | disconnect =>
    cases h
    unfold disconnect
    split <;> exact hp
  | session op =>
    cases op with
    | process_packet payload t draw =>
      cases ht : p.takes payload t with
      | false =>
        obtain ⟨-, rfl⟩ := process_packet_not_taken ht h
        split <;> exact hp
      | true =>
        exact (process_packet_invariant (K := fun _ _ => True) (J := fun q => q.HasNumbered k)
          (fun hp _ hq => hp.process_command hq) (fun _ hp => hp) (fun _ hp => hp) ht (fun _ _ => trivial) h hp).2
    | process_event event => cases hop
    | update time elapsed probe =>
      obtain ⟨n, cq, stats, b, pm, he⟩ := update_writes codecs p time elapsed probe
      obtain rfl : (p.update codecs time elapsed probe).2 = q := congrArg Prod.snd (Except.ok.inj h)
      rw [he]
      exact hp
    | should_drop time =>
      cases h
      exact hp

end Peer

section Runs

variable {codecs : Codecs} {origins : Side → Origin} {n n' : Network Endpoint Bytes} {x : Side × LinkOp} {side : Side}
  {steps : List (Network Endpoint Bytes × (Side × LinkOp))} {checks : Bool} {mine theirs : List (UInt8 × Bytes)}
  {e e' : Endpoint} {op : LinkOp} {out : List Bytes}

theorem submission_session {y : Peer × Packet} (h : submission side (n, x) = some y) : y.1 = (n.state side).peer := by
  obtain ⟨s, op⟩ := x
  unfold submission at h
  dsimp only at h
  split at h
  · split at h
    · cases h
      rfl
    · cases h
  · cases h

/-- A step numbers the chunks of the packet that is sent in it. -/
theorem step_numbers (hs : Network.Step (link codecs) n x n') (side : Side) {before : List (UInt8 × Bytes)}
    (hp : (n.state side).peer.HasNumbered before.length) :
    (n'.state side).peer.HasNumbered (before ++ unsequenced_chunks (submission side (n, x)).toList).length := by
  have hnone : before ++ unsequenced_chunks (none : Option (Peer × Packet)).toList = before := List.append_nil _
  obtain ⟨s, op⟩ := x
  obtain ⟨out, t, ⟨actions, q, hserve, -, rfl⟩, -, rfl⟩ := hs
  dsimp only at hserve ⊢
  rcases s.eq_or_eq_other side with rfl | rfl
  · rw [Function.update_self]
    unfold submission
    cases op with
    | disconnect =>
      rw [hnone]
      exact hp.serve rfl hserve
    | session op =>
      cases op with
      | process_event event =>
        dsimp only
        rw [if_pos rfl, Option.toList_some, unsequenced_chunks, List.flatMap_singleton]
        exact Peer.hasNumbered_of_numbering (hp.process_event hserve)
      | _ =>
        rw [hnone]
        exact hp.serve rfl hserve
  · rw [Function.update_of_ne (Side.other_ne _)]
    have hother : submission s.other (n, (s, op)) = none := by
      unfold submission
      cases op with
      | disconnect => rfl
      | session op => cases op <;> simp [(Side.other_ne s).symm]
    rw [hother, hnone]
    exact hp

/-- The chunks of a run have the groups from 0 on. -/
theorem chunks_numbered (h : LinkRun codecs (new_link origins) steps n) (side : Side) :
    (∀ xs y ys, submissions side steps = xs ++ y :: ys → y.1.HasNumbered (unsequenced_chunks xs).length) ∧
      (n.state side).peer.HasNumbered (unsequenced_chunks (submissions side steps)).length := by
  induction h with
  | start => exact ⟨fun xs y ys h => by simp [submissions] at h, rfl⟩
  | @next steps m x n' _ hs ih =>
    obtain ⟨hbefore, hnow⟩ := ih
    have hstep := step_numbers hs side hnow
    rw [unsequenced_chunks, unsequenced_chunks, ← List.flatMap_append, ← submissions_snoc] at hstep
    refine ⟨fun xs y ys hsplit => ?_, hstep⟩
    rw [submissions_snoc] at hsplit
    cases hx : submission side (m, x) with
    | none =>
      rw [hx, Option.toList_none, List.append_nil] at hsplit
      exact hbefore xs y ys hsplit
    | some z =>
      rw [hx, Option.toList_some] at hsplit
      rcases List.eq_nil_or_concat ys with rfl | ⟨ys, w, rfl⟩
      · -- the packet of this step
        obtain ⟨hxs, hz⟩ := List.append_inj' hsplit rfl
        cases hz
        rw [submission_session hx, ← hxs]
        exact hnow
      · rw [List.concat_eq_append, ← List.cons_append, ← List.append_assoc] at hsplit
        exact hbefore xs y ys (List.append_inj' hsplit rfl).1

/-! ## Both sides -/

/-- A session whose chunks are `mine`, and which takes those of the other side
once. -/
structure TakesOnce (mine theirs : List (UInt8 × Bytes)) (checks : Bool) (e : Endpoint) : Prop where
  checks : e.peer.config.use_checksums = checks
  queue : ∀ c ∈ e.peer.commands, Grouped mine c ∧ Framed c
  once : theirs.length ≤ 32768 → CameOnce theirs e.peer.unsequenced_state e.delivered

/-- Any data, but chunks only under their own groups. -/
def chunk_policy (chunks : List (UInt8 × Bytes)) : Policy where
  command := Grouped chunks
  buffers _ _ := True
  waits _ _ := True
  delivers _ _ _ _ := True

theorem chunk_policy_sound (chunks : List (UInt8 × Bytes)) : (chunk_policy chunks).Sound where
  quiet h := by
    apply grouped_of_other
    rintro ch g d rfl
    cases h
  owned h := h.owned
  ordered _ := trivial
  reliable _ := trivial
  unreliable _ := trivial
  sequenced _ := trivial
  unsequenced _ := trivial
  opens _ _ := trivial
  joins _ _ := trivial
  reassembled := by
    intros
    exact ⟨fun _ => trivial, trivial⟩
  released _ := trivial
  completed _ _ _ := trivial

/-- Every operation keeps it that way, if what the user sends has its chunks
among `mine`, at their own places. -/
theorem TakesOnce.step (hc : codecs.Lossless) (h : TakesOnce mine theirs checks e)
    (hread : ∀ bytes, op.datagram = some bytes → Conveys codecs checks (Grouped theirs) bytes)
    (hsends : ∀ event, op = .session (.process_event event) → ∃ before after,
      mine = before ++ chunks_of (e.peer, event) ++ after ∧ e.peer.HasNumbered before.length)
    (hs : e.Step codecs op out e') :
    TakesOnce mine theirs checks e' ∧ ∀ bytes ∈ out, Conveys codecs checks (Grouped mine) bytes := by
  obtain ⟨actions, q, hserve, rfl, rfl⟩ := hs
  have hquiet : op.datagram = none → e.delivered ++ Peer.emitted actions = e.delivered := by
    intro hop
    rw [Peer.emitted_serve hop hserve, List.append_nil]
  cases op with
  | disconnect =>
    cases hserve
    refine ⟨⟨?_, fun c hm => ?_, ?_⟩, fun bytes hm => by cases hm⟩
    · rw [(e.peer.disconnect_handshake []).2.1]
      exact h.checks
    · rcases (e.peer.disconnect_handshake []).2.2 c hm with hm | rfl
      · exact h.queue c hm
      · exact ⟨(chunk_policy_sound mine).quiet rfl, Peer.framed_of_frame_len (by decide)⟩
    · rw [hquiet rfl]
      dsimp only
      unfold Peer.disconnect
      split <;> exact h.once
  | session op =>
    cases op with
    | process_packet payload t draw =>
      have hconveys := hread payload rfl
      rw [← h.checks] at hconveys
      obtain ⟨hchecks, hqueue⟩ := process_packet_queue (chunk_policy_sound mine) h.checks h.queue hserve
      refine ⟨⟨hchecks, hqueue, fun hfew => (h.once hfew).process_packet hfew hconveys hserve⟩, fun bytes hm => ?_⟩
      rw [Peer.process_packet_sends hserve] at hm
      cases hm
    | process_event event =>
      obtain ⟨before, after, hmine, hnumbered⟩ := hsends event rfl
      have hconveying : Peer.Conveying codecs (Grouped mine) e.peer actions q := by
        refine Peer.process_event_conveying hc h.queue (fun c hm => ?_) (fun r hr => ?_) hserve
        · unfold Peer.opening at hm
          split at hm
          · rw [List.mem_singleton.1 hm]
            exact (chunk_policy_sound mine).quiet rfl
          · cases hm
        · have hqueues := (Peer.enqueue_packet_numbers (Peer.record_send_numbers hnumbered) hr).1
          rw [Peer.chunks_of_record_send] at hqueues
          refine hqueues.mono fun c ⟨hgrouped, hframed⟩ => ⟨fun ch g d he => ?_, hframed⟩
          obtain ⟨i, hi, hchunk⟩ := hgrouped ch g d he
          refine ⟨i, hi, ?_⟩
          rw [hmine, List.getElem?_append_left (List.getElem?_eq_some_iff.1 hchunk).1]
          exact hchunk
      refine ⟨⟨?_, hconveying.queue, fun hfew => ?_⟩, fun bytes hm => ?_⟩
      · obtain ⟨n, cq, u, sq, st, stats, b, rfl⟩ := Peer.process_event_writes hserve
        exact h.checks
      · rw [hquiet rfl, hnumbered.process_event hserve]
        exact h.once hfew
      · rw [← h.checks]
        exact hconveying.sends bytes hm
    | update time elapsed probe =>
      have hconveying := Peer.update_conveying hc h.queue (fun _ => (chunk_policy_sound mine).quiet rfl)
        (fun _ _ _ => (chunk_policy_sound mine).quiet rfl) time elapsed probe
      obtain ⟨n, cq, stats, b, pm, he⟩ := Peer.update_writes codecs e.peer time elapsed probe
      obtain rfl : (e.peer.update codecs time elapsed probe).1 = actions := congrArg Prod.fst (Except.ok.inj hserve)
      obtain rfl : (e.peer.update codecs time elapsed probe).2 = q := congrArg Prod.snd (Except.ok.inj hserve)
      refine ⟨⟨?_, hconveying.queue, ?_⟩, fun bytes hm => ?_⟩
      · rw [he]
        exact h.checks
      · rw [hquiet rfl, he]
        exact h.once
      · rw [← h.checks]
        exact hconveying.sends bytes hm
    | should_drop time =>
      cases hserve
      refine ⟨⟨h.checks, h.queue, ?_⟩, fun bytes hm => ?_⟩
      · rw [hquiet rfl]
        exact h.once
      · rw [Peer.should_drop_sends] at hm
        cases hm

/-- Whatever is lost, repeated or reordered: until a side has sent more than
32768 chunks, none of them comes out more often than it was sent. -/
theorem chunks_at_most_once (hc : codecs.Lossless) (hchecks : ∀ side, (origins side).config.use_checksums = checks)
    (h : LinkRun codecs (new_link origins) steps n) (side : Side)
    (hfew : (unsequenced_chunks (submissions side.other steps)).length ≤ 32768) :
    ((unsequenced (n.state side).delivered).map fun packet => (packet.channel_id, packet.payload)).Subperm
      (unsequenced_chunks (submissions side.other steps)) := by
  refine (((Network.guarantees (fun side => TakesOnce (unsequenced_chunks (submissions side steps))
    (unsequenced_chunks (submissions side.other steps)) checks)
    (fun side => Conveys codecs checks (Grouped (unsequenced_chunks (submissions side steps)))) ?_ ?_ h side).1).once
      hfew).subperm
  · intro side
    exact ⟨hchecks side, fun c hm => (by cases hm), fun _ => cameOnce_new _⟩
  · intro m side op out e' hm hgood hreads hstep
    apply hgood.step hc hreads ?_ hstep
    rintro event rfl
    obtain ⟨xs, ys, hsplit⟩ := List.append_of_mem (mem_submissions hm)
    refine ⟨unsequenced_chunks xs, unsequenced_chunks ys, ?_, (chunks_numbered h side).1 xs _ ys hsplit⟩
    rw [hsplit]
    simp [unsequenced_chunks]

/-- An unsequenced packet that needs two chunks. -/
def notes : Packet := ⟨⟨.V4 0, 0⟩, List.replicate 10 3, .Unreliable, .Unsequenced, 4⟩

/-- It is sent, and its chunks come in the other order, each of them twice. -/
def repeated : List (Side × (Network Endpoint Bytes → LinkOp)) :=
  Endpoint.sends .left notes :: [2, 1, 2, 0, 1].map (Endpoint.gets .right)

theorem chunks_at_most_once_repeated : ∃ steps n, LinkRun .checked (new_link narrow) steps n ∧
    (unsequenced (n.state .right).delivered).map Packet.payload = [List.replicate 4 3, List.replicate 6 3] ∧
    ((unsequenced (n.state .right).delivered).map fun packet => (packet.channel_id, packet.payload)).Subperm
      (unsequenced_chunks (submissions .left steps)) := by
  have hrun := Endpoint.play_run .checked (new_link narrow) repeated (by decide +kernel)
  refine ⟨_, _, hrun, by decide +kernel, ?_⟩
  exact chunks_at_most_once Codecs.checked_lossless (fun side => by cases side <;> rfl) hrun .right (by decide +kernel)

end Runs

end Bitfold
