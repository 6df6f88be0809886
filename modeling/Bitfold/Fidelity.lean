import Bitfold.AllOrNothing
import Bitfold.EndToEnd
import Bitfold.UnsequencedTheorems
/-!
# Delivery modes

What a fresh peer emits for one user packet of a fresh peer of the same
configuration. A message arrives as one packet, whether it was sent whole or
in fragments; an unsequenced packet arrives as one packet for each chunk it
was cut into. Which of them arrive with the mode they were sent with is
`delivery_mode_iff`.
-/

namespace Bitfold

open Lib CommandEncoder ProtocolCommand

/-! ## Groups in order -/

namespace UnsequencedState

/-- The first `k` groups, and no others, have been received. -/
structure Counted (k : Nat) (s : UnsequencedState) : Prop where
  base : s.incoming_unsequenced_group = 0
  bits : ∀ j, bit s.unsequenced_window j = decide (j < k)

theorem counted_new : Counted 0 new := ⟨rfl, fun j => by rw [new, bit_replicate]; simp⟩

/-- The next group is taken, as long as the window holds it. -/
theorem Counted.receive {k : Nat} {s : UnsequencedState} (h : Counted k s) (hk : k < 1024) :
    (s.receive (.ofNat k)).2 = true ∧ Counted (k + 1) (s.receive (.ofNat k)).1 := by
  have hoffset : s.offset (.ofNat k) = k := by
    unfold offset
    rw [h.base, UInt16.sub_zero, UInt16.toNat_ofNat']
    omega
  have hfresh : s.is_duplicate (.ofNat k) = false := by
    rw [← Bool.not_eq_true, is_duplicate_iff, hoffset, h.bits]
    simp only [lt_irrefl, decide_false, Bool.false_eq_true, and_false, false_or, not_and]
    omega
  have hadvance : advance k = 0 := by
    unfold advance
    rw [if_neg (by omega)]
  obtain ⟨hbase, hbits⟩ := mark_received_spec s (.ofNat k)
  rw [hoffset, hadvance] at hbase hbits
  unfold UnsequencedState.receive
  rw [hfresh, if_neg (by decide)]
  refine ⟨rfl, by rw [hbase, h.base]; rfl, fun j => ?_⟩
  rw [hbits, Nat.add_zero, h.bits, ← Bool.decide_or, decide_eq_decide]
  omega

end UnsequencedState

namespace Peer

variable {codecs : Codecs} {p p' q : Peer} {config : Config} {mode : Mode} {ch : UInt8} {data : Bytes}
  {out : List Packet}

/-- Unsequenced data is delivered when the window takes its group. -/
theorem process_send_unsequenced_eq (p : Peer) (ch : UInt8) (group : UInt16) (d : SharedBytes) :
    p.process_send_unsequenced ch group d =
      ({ p with unsequenced_state := (p.unsequenced_state.receive group).1 },
        if (p.unsequenced_state.receive group).2 then [(p.packet d.to_arc .Unreliable .Unsequenced ch, .Packet)]
        else []) := by
  unfold process_send_unsequenced is_unsequenced_duplicate UnsequencedState.receive
  by_cases h : p.unsequenced_state.is_duplicate group = true
  · rw [if_pos h, if_pos h]
    rfl
  · rw [if_neg h, if_neg h]
    rfl

/-- Chunks in order are delivered one by one. -/
theorem stream_chunks {n k : Nat} {d : Nat → SharedBytes} (hn : n ≤ 1024) (hk : k ≤ n)
    (hu : p.unsequenced_state.Counted k)
    (hs : Stream p ((List.range' k (n - k)).map fun i => .SendUnsequenced ch (.ofNat i) (d i)) out p') :
    labelled out = (List.range' k (n - k)).map fun i => (ch, .Unreliable, .Unsequenced, (d i).as_slice) := by
  induction hm : n - k generalizing k p out with
  | zero =>
    rw [hm] at hs
    cases hs
    rfl
  | succ m ih =>
    rw [hm, List.range'_succ, List.map_cons] at hs
    cases hs with
    | @next _ q r _ _ _ packets out t draw hsame hcmd hrest =>
      rw [process_command_unsequenced, process_send_unsequenced_eq] at hcmd
      have hq : (q.heard t).unsequenced_state.Counted k := by
        rw [show (q.heard t).unsequenced_state = p.unsequenced_state from hsame.unsequenced]
        exact hu
      obtain ⟨htaken, hnext⟩ := hq.receive (by omega)
      rw [htaken, if_pos rfl] at hcmd
      cases hcmd
      rw [← show n - (k + 1) = m by omega] at hrest
      have hlabels := ih (k := k + 1) (by omega) hnext hrest (by omega)
      simp only [labelled, packet, List.range'_succ, List.map_cons, List.map_nil, List.cons_append, List.nil_append,
        SharedBytes.to_arc_eq]
      exact congrArg _ hlabels

/-! ## Cutting into chunks -/

/-- The commands of an unsequenced packet, from the `k`th chunk on. -/
def chunk_commands (ch : UInt8) (data : Bytes) (size k : Nat) : List ProtocolCommand :=
  (List.range' k (div_ceil data.length size - k)).map fun i =>
    .SendUnsequenced ch (.ofNat i) (fragment_data data size i)

/-- The window and the queue do not touch each other. -/
theorem enqueue_command_unsequenced (p : Peer) (u : UnsequencedState) (c : ProtocolCommand) :
    ({ p with unsequenced_state := u }.enqueue_command c).2 =
      { (p.enqueue_command c).2 with unsequenced_state := u } := by
  unfold enqueue_command
  dsimp only
  split <;> rfl

theorem requeue_unsequenced (p : Peer) (u : UnsequencedState) (cmds : List ProtocolCommand) :
    { p with unsequenced_state := u }.requeue cmds = { p.requeue cmds with unsequenced_state := u } := by
  induction cmds generalizing p with
  | nil => rfl
  | cons c cmds ih =>
    simp only [requeue, List.foldl_cons, enqueue_command_unsequenced] at ih ⊢
    exact ih _

/-- Chunks are queued one by one, through the admission check. -/
theorem enqueue_chunks_eq (ch : UInt8) {size fuel k : Nat} (hsize : 0 < size) (hpos : 0 < data.length)
    (hk : k ≤ div_ceil data.length size) (hfuel : data.length ≤ k * size + fuel)
    (hgroup : p.unsequenced_state.outgoing_unsequenced_group = .ofNat k) :
    ∃ u, enqueue_chunks ch (.from_arc data) size fuel (min (k * size) data.length) p =
      .ok { p.requeue (chunk_commands ch data size k) with unsequenced_state := u } := by
  obtain ⟨hlast, hall, -⟩ := div_ceil_bounds hsize hpos
  induction hm : div_ceil data.length size - k generalizing fuel k p with
  | zero =>
    -- past the last chunk
    obtain rfl : k = div_ceil data.length size := by omega
    refine ⟨p.unsequenced_state, ?_⟩
    rw [chunk_commands, Nat.sub_self]
    cases fuel with
    | zero => rfl
    | succ fuel =>
      rw [enqueue_chunks, if_neg (by rw [SharedBytes.len_from_arc]; omega)]
      rfl
  | succ m ih =>
    have hlt : k < div_ceil data.length size := by omega
    have hoff : k * size < data.length :=
      Nat.lt_of_le_of_lt (Nat.mul_le_mul_right size (by omega : k ≤ div_ceil data.length size - 1)) hlast
    obtain ⟨h1, h2, h3⟩ := fragment_range_bounds hsize hpos hlt
    have hslice := SharedBytes.slice_from_arc h3
    rw [h1, h2] at hslice
    have hview : SharedBytes.view data (k * size) (min size (data.length - k * size)) = fragment_data data size k := by
      rw [fragment_data, h1, h2]
    cases fuel with
    | zero => omega
    | succ fuel =>
      have hnext : k * size + min size (data.length - k * size) = min ((k + 1) * size) data.length := by
        rw [Nat.add_mul, Nat.one_mul]
        omega
      have hcmds : chunk_commands ch data size k =
          .SendUnsequenced ch (.ofNat k) (fragment_data data size k) :: chunk_commands ch data size (k + 1) := by
        rw [chunk_commands, hm, List.range'_succ, List.map_cons, chunk_commands,
          show div_ceil data.length size - (k + 1) = m by omega]
      obtain ⟨u, hu⟩ := ih (p := ({ p with unsequenced_state := p.unsequenced_state.next_outgoing_group.2 }.enqueue_command
        (.SendUnsequenced ch (.ofNat k) (fragment_data data size k))).2) (k := k + 1) hlt
        (show data.length ≤ (k + 1) * size + fuel by rw [Nat.add_mul, Nat.one_mul]; omega)
        (by
          rw [enqueue_command_unsequenced]
          simp only [UnsequencedState.next_outgoing_group, hgroup]
          exact (UInt16.ofNat_add ..).symm)
        (by omega)
      refine ⟨u, ?_⟩
      rw [Nat.min_eq_left (Nat.le_of_lt hoff), enqueue_chunks, if_pos (by rw [SharedBytes.len_from_arc]; exact hoff)]
      simp only [SharedBytes.len_from_arc, hslice, hview, bind, Except.bind, hnext]
      rw [show p.next_unsequenced_group.1 = .ofNat k from hgroup, hcmds]
      apply hu.trans
      rw [enqueue_command_unsequenced, requeue_unsequenced]
      rfl

/-- Payload bytes of one chunk of a fresh peer. -/
def chunk_size (config : Config) : Nat := budget config (1 + 1 + 2 + 2)

theorem Sender.max_payload_unseq (h : Sender config p) (hcap : CapCarriesFragment config) :
    p.max_payload_unseq = chunk_size config ∧ 0 < chunk_size config := by
  unfold CapCarriesFragment at hcap
  unfold Peer.max_payload_unseq chunk_size
  rw [h.payload_budget]
  unfold budget
  omega

theorem chunk_commands_nil {size : Nat} (hsize : 0 < size) (ch : UInt8) : chunk_commands ch [] size 0 = [] := by
  rw [chunk_commands, List.length_nil, div_ceil, Nat.div_eq_of_lt (by omega)]
  rfl

theorem chunk_commands_packs (hcap : CapCarriesFragment config) (ch : UInt8) (data : Bytes) :
    Packs config (chunk_commands ch data (chunk_size config) 0) := by
  unfold CapCarriesFragment at hcap
  rcases List.eq_nil_or_concat data with rfl | ⟨xs, x, hdata⟩
  · rw [chunk_commands_nil (by unfold chunk_size budget; omega)]
    exact ⟨by simp, by simp, by simp⟩
  have hpos : 0 < data.length := by simp [hdata]
  have hroom : static_overhead config + 2 + 6 + chunk_size config = fresh_cap config := by
    unfold chunk_size budget
    omega
  rw [chunk_commands, Nat.sub_zero, ← List.range_eq_range']
  refine packs_slices 6 (by unfold chunk_size budget; omega) hpos hroom (fun i => trivial) fun i => ?_
  simp only [encode_command, write_u8, write_u16, write_all, List.length_append, List.length_cons, List.length_nil,
    be16_length, SharedBytes.as_slice_length]

/-- A payload that is no longer than a chunk is one chunk. -/
theorem div_ceil_eq_one {n size : Nat} (hsize : 0 < size) (hpos : 0 < n) (hle : n ≤ size) : div_ceil n size = 1 := by
  obtain ⟨hlast, -, hchunks⟩ := div_ceil_bounds hsize hpos
  by_contra hne
  have := Nat.le_mul_of_pos_left size (show 0 < div_ceil n size - 1 by omega)
  omega

theorem chunk_commands_one {size : Nat} (hsize : 0 < size) (hpos : 0 < data.length) (hle : data.length ≤ size) :
    chunk_commands ch data size 0 = [.SendUnsequenced ch 0 (fragment_data data size 0)] := by
  rw [chunk_commands, div_ceil_eq_one hsize hpos hle]
  rfl

theorem waiting_chunk_commands {size : Nat} (hsize : 0 < size) (ch : UInt8) (data : Bytes) :
    waiting (chunk_commands ch data size 0) = data.length := by
  rcases List.eq_nil_or_concat data with rfl | ⟨xs, x, hdata⟩
  · rw [chunk_commands_nil hsize]
    rfl
  have hpos : 0 < data.length := by simp [hdata]
  have hflat := congrArg List.length (flatten_fragments hsize hpos)
  rw [List.length_flatten, List.map_map] at hflat
  refine Eq.trans ?_ hflat
  rw [chunk_commands, Nat.sub_zero, ← List.range_eq_range', Peer.waiting, List.map_map]
  refine congrArg List.sum (List.map_congr_left fun i _ => ?_)
  exact (SharedBytes.as_slice_length _).symm

/-- The one mode that is cut into chunks. -/
theorem packet_mode_none {packet : Packet} (h : packet_mode packet = none) :
    packet.delivery = .Unreliable ∧ packet.ordering = .Unsequenced := by
  unfold packet_mode at h
  split at h
  · cases h
  · rename_i hd ho
    exact ⟨hd, ho⟩
  · cases h

theorem enqueue_packet_chunks {packet : Packet} (h : packet_mode packet = none) :
    p.enqueue_packet packet = p.enqueue_unsequenced packet.channel_id packet.payload := by
  obtain ⟨hd, ho⟩ := packet_mode_none h
  unfold enqueue_packet
  rw [hd, ho]

theorem Sender.enqueue_chunks {packet : Packet} (h : Sender config p) (hcap : CapCarriesFragment config)
    (hm : packet_mode packet = none) (hgroup : p.unsequenced_state.outgoing_unsequenced_group = 0) :
    ∃ u, p.enqueue_packet packet = .ok { p.requeue
      (chunk_commands packet.channel_id packet.payload (chunk_size config) 0) with unsequenced_state := u } := by
  obtain ⟨hsize, hsize0⟩ := h.max_payload_unseq hcap
  rw [enqueue_packet_chunks hm, enqueue_unsequenced, hsize]
  rcases List.eq_nil_or_concat packet.payload with hnil | ⟨xs, x, hdata⟩
  · rw [hnil, chunk_commands_nil hsize0]
    exact ⟨p.unsequenced_state, rfl⟩
  · have hpos : 0 < packet.payload.length := by simp [hdata]
    obtain ⟨u, hu⟩ := enqueue_chunks_eq packet.channel_id hsize0 hpos (Nat.zero_le _)
      (show packet.payload.length ≤ 0 * chunk_size config + packet.payload.length by omega) hgroup
    rw [Nat.zero_mul, Nat.zero_min] at hu
    exact ⟨u, hu⟩

/-! ## Commands that find room -/

/-- An empty queue has room for the payload. -/
def HasRoom (config : Config) (payload : Bytes) : Prop :=
  config.max_waiting_data = 0 ∨ payload.length ≤ config.max_waiting_data

theorem Packs.sublist {cmds kept : List ProtocolCommand} (h : Packs config cmds) (hsub : kept.Sublist cmds) :
    Packs config kept :=
  ⟨fun c hc => h.carried c (hsub.subset hc), fun c hc => h.fits c (hsub.subset hc), (hsub.countP_le ..).trans h.small⟩

/-- A quiet peer sends a packet as those of its commands that find room, and
these are all of them exactly if there is room for the payload. -/
theorem Quiet.send_kept {packet : Packet} {r : Peer} {cmds : List ProtocolCommand} (hc : codecs.Lossless)
    (ht : codecs.Total) (h : Quiet config p) (hopen : OpeningFits config p)
    (hq : p.record_send.2.enqueue_packet packet = .ok q) (hqueue : q.commands = (r.requeue cmds).commands)
    (hr : r.commands = p.opening ∧ r.total_waiting_data = 0 ∧ r.config = config) (hpacks : Packs config cmds)
    (hwaiting : waiting cmds = packet.payload.length) :
    ∃ actions p' kept, p.process_event codecs packet = .ok (actions, p') ∧ kept.Sublist cmds ∧
      Transmits codecs config (datagrams actions) (p.opening ++ kept) ∧
      (kept = cmds ↔ HasRoom config packet.payload) := by
  obtain ⟨hopening, htotal, hsettings⟩ := hr
  obtain ⟨kept, hsub, hqueues⟩ := requeue_queues r cmds
  have hroom : r.Admits (waiting cmds) ↔ HasRoom config packet.payload := by
    rw [Admits, htotal, hsettings, Nat.zero_add, hwaiting]
    rfl
  have hall : kept = cmds ↔ r.Admits (waiting cmds) := by
    rcases Nat.eq_zero_or_pos (waiting cmds) with hzero | hpos
    · have hadmits : r.Admits (waiting cmds) := by
        rw [hzero, Admits, htotal]
        exact .inr (Nat.zero_le _)
      have hcmds := hqueues.commands
      rw [requeue_of_admits hadmits] at hcmds
      exact iff_of_true (List.append_cancel_left hcmds).symm hadmits
    · rw [← requeue_commands_append_iff hpos, hqueues.commands, List.append_cancel_left_eq]
  have hpacks' := hpacks.sublist hsub
  obtain ⟨actions, p', he, htr, -, -⟩ := h.process_event hc ht hq (by rw [hqueue, hqueues.commands, hopening])
    hpacks'.carried (fun c hm => by
      rcases List.mem_append.1 hm with hm | hm
      · exact hopen c hm
      · exact hpacks'.fits c hm) hpacks'.small
  exact ⟨actions, p', kept, he, hsub, htr, hall.trans hroom⟩

/-- A message is sent as those of its commands that find room. -/
theorem Quiet.send_message_kept {packet : Packet} (hc : codecs.Lossless) (ht : codecs.Total)
    (hcap : CapCarriesFragment config) (h : Quiet config p) (hopen : OpeningFits config p)
    (hm : packet_mode packet = some mode) (hfit : MessageFits config mode packet.payload) :
    ∃ actions p' kept, p.process_event codecs packet = .ok (actions, p') ∧
      kept.Sublist (p.record_send.2.message_commands mode packet.channel_id packet.payload) ∧
      Transmits codecs config (datagrams actions) (p.opening ++ kept) ∧
      (kept = p.record_send.2.message_commands mode packet.channel_id packet.payload ↔ HasRoom config packet.payload) := by
  obtain ⟨hs, hcmds, -, htotal⟩ := h.record_send
  obtain ⟨hpacks, hwaiting⟩ := hs.message_packs hcap hfit packet.channel_id
  refine h.send_kept hc ht hopen (enqueue_packet_mode hm) rfl ?_ hpacks hwaiting
  cases mode <;> exact ⟨hcmds, htotal, hs.settings⟩

theorem unsequenced_record_send (p : Peer) : p.record_send.2.unsequenced_state = p.unsequenced_state := by
  obtain ⟨st, q, he⟩ := record_send_writes p
  rw [he]

/-- An unsequenced packet is sent as those of its chunks that find room. -/
theorem Quiet.send_chunks_kept {packet : Packet} (hc : codecs.Lossless) (ht : codecs.Total)
    (hcap : CapCarriesFragment config) (h : Quiet config p) (hopen : OpeningFits config p)
    (hm : packet_mode packet = none) (hgroup : p.unsequenced_state.outgoing_unsequenced_group = 0) :
    ∃ actions p' kept, p.process_event codecs packet = .ok (actions, p') ∧
      kept.Sublist (chunk_commands packet.channel_id packet.payload (chunk_size config) 0) ∧
      Transmits codecs config (datagrams actions) (p.opening ++ kept) ∧
      (kept = chunk_commands packet.channel_id packet.payload (chunk_size config) 0 ↔
        HasRoom config packet.payload) := by
  obtain ⟨hs, hcmds, -, htotal⟩ := h.record_send
  obtain ⟨u, hq⟩ := hs.enqueue_chunks hcap hm (by rw [unsequenced_record_send]; exact hgroup)
  exact h.send_kept hc ht hopen hq rfl ⟨hcmds, htotal, hs.settings⟩
    (chunk_commands_packs hcap packet.channel_id packet.payload)
    (waiting_chunk_commands (hs.max_payload_unseq hcap).2 packet.channel_id packet.payload)

/-! ## What a fresh peer emits -/

/-- The ordering a message that arrives whole is labelled with. -/
def Mode.label (mode : Mode) : OrderingGuarantee := if mode.ordered then .Ordered none else .None

/-- The first message to a fresh peer is delivered. Only one that arrives
whole keeps its label. -/
theorem stream_first {s : Peer} (h : Sender config s) (hseq : mode.sequence s = 0) (hcap : CapCarriesFragment config)
    (hfit : MessageFits config mode data) (hchannels : p.channel_states = ∅)
    (hnone : p.command_fragments[(0 : UInt16)]? = none)
    (hst : Stream p ((s.message_commands mode ch data).map owned) out p') :
    labelled out =
      [(ch, mode.delivery, if data.length ≤ budget config mode.header then Mode.label mode else .None, data)] := by
  have hfresh : ∀ q : Peer, q.channel_states = p.channel_states → Channels [] q := fun q hq =>
    ⟨fun ch _ => by simp [channel_state, hq, hchannels], by simp⟩
  rcases h.message_cases hcap hfit ch with ⟨hlen, he⟩ | ⟨hlen, hs⟩
  · -- whole: the one command says how it is to be labelled
    rw [if_pos hlen]
    rw [he, List.map_singleton, owned_whole] at hst
    obtain ⟨q, r, t, draw, packets, hsame, hcmd, hend, rfl⟩ := Stream.one hst
    rw [hseq] at hcmd
    cases mode with
    | Reliable o =>
      rw [show (Mode.Reliable o).whole ch 0 (SharedBytes.from_vec (SharedBytes.from_arc data).as_slice) =
        .SendReliable ch 0 o (SharedBytes.from_vec (SharedBytes.from_arc data).as_slice) from rfl,
        process_command_reliable] at hcmd
      have hack := sameInbox_enqueue_ack_command ((q.heard t).process_acknowledge 0 0 t)
      have hout := ((hfresh _ (hack.channels.trans hsame.channels)).deliver ch
        (.from_arc (SharedBytes.from_vec (SharedBytes.from_arc data).as_slice).to_arc)).1
      cases o with
      | true =>
        cases hcmd
        change labelled (List.map Prod.fst (List.map _ (deliver_ordered _ ch 0 _).1)) = _
        rw [hout]
        simp [labelled, packet, Mode.label, Mode.ordered, Mode.delivery]
      | false =>
        cases hcmd
        simp [process_send_reliable, labelled, packet, Mode.label, Mode.ordered, Mode.delivery, IncomingPackets.one]
    | Unreliable =>
      cases hcmd
      simp [labelled, packet, Mode.label, Mode.ordered, Mode.delivery, IncomingPackets.one]
  · -- in fragments: a completed group is always labelled as unordered
    rw [if_neg (Nat.not_le.2 hlen)]
    rw [← hseq] at hnone
    obtain ⟨-, -, hout⟩ := stream_splits hs ch hnone hst
    rw [hout, completes_fresh hseq hchannels, hs.group_data]
    simp

/-- Without one of its fragments a message is not delivered. -/
theorem stream_missing {g : Group} {j : UInt8} {cmds : List ProtocolCommand} (hj : j < g.fragment_count)
    (hjoins : Joins g p) (hmiss : ¬ p.Held g j)
    (hcmds : ∀ c ∈ cmds, ∃ i d, c = g.command i d ∧ i < g.fragment_count ∧ i ≠ j ∧ d.as_slice = g.chunk i)
    (hs : Stream p cmds out p') : out = [] := by
  induction hs with
  | done _ => rfl
  | @next p q r p'' c cs packets out t draw hsame hcmd hrest ih =>
    obtain ⟨i, d, rfl, hi, hne, hd⟩ := hcmds c List.mem_cons_self
    have hjq : Joins g q := by
      intro b hb
      rw [hsame.fragments] at hb
      exact hjoins b hb
    have hmq : ¬ q.Held g j := by
      unfold Held
      rw [hsame.fragments]
      exact hmiss
    obtain ⟨r', packets', he, ⟨-, hkept⟩ | ⟨hall, -⟩⟩ := process_fragment hjq hi hd t draw
    · rw [hcmd] at he
      cases he
      rw [hkept.packets, List.map_nil, List.nil_append]
      refine ih (hkept.joins (hjq.joined hi hd t)) ?_ fun c hc => hcmds c (List.mem_cons_of_mem _ hc)
      rw [hkept.held_iff]
      exact not_or.2 ⟨hne.symm, hmq⟩
    · exact absurd (hall j hj hne.symm) hmq

/-- Some index is not among fewer than all of them. -/
theorem exists_not_mem_of_sublist_range {n : Nat} {ids : List Nat} (h : ids.Sublist (List.range n))
    (hne : ids ≠ List.range n) : ∃ j < n, j ∉ ids := by
  by_contra hall
  push Not at hall
  have hperm := List.nodup_range.subperm fun j hj => hall j (List.mem_range.1 hj)
  exact hne (h.eq_of_length_le hperm.length_le)

/-- Without one of its commands a message is not delivered. -/
theorem stream_divided {s : Peer} {kept : List ProtocolCommand} (h : Sender config s) (hcap : CapCarriesFragment config)
    (hfit : MessageFits config mode data) (hsub : kept.Sublist (s.message_commands mode ch data))
    (hne : kept ≠ s.message_commands mode ch data) (hnone : p.command_fragments[mode.sequence s]? = none)
    (hst : Stream p (kept.map owned) out p') : out = [] := by
  rcases h.message_cases hcap hfit ch with ⟨-, he⟩ | ⟨-, hs⟩
  · rw [he] at hsub hne
    rcases List.sublist_singleton.1 hsub with rfl | rfl
    · cases hst
      rfl
    · exact absurd rfl hne
  · rw [hs.message_commands ch] at hsub hne
    obtain ⟨ids, hids, rfl⟩ := List.sublist_map_iff.1 hsub
    obtain ⟨j, hj, hmiss⟩ := exists_not_mem_of_sublist_range hids fun h => hne (by rw [h])
    have hid : ∀ i < s.total_fragments mode data, (UInt8.ofNat i).toNat = i := by
      intro i hi
      have := hs.few
      rw [UInt8.toNat_ofNat']
      omega
    have hlt : ∀ i < s.total_fragments mode data, UInt8.ofNat i < (s.group mode ch data).fragment_count := by
      intro i hi
      rw [UInt8.lt_iff_toNat_lt, hid i hi, hs.count_toNat ch]
      exact hi
    have hclosed : p.command_fragments[(s.group mode ch data).sequence]? = none := hnone
    refine stream_missing (hlt j hj) ?_ ?_ ?_ hst
    · intro b hb
      rw [hclosed] at hb
      cases hb
    · rintro ⟨b, hb, -⟩
      rw [hclosed] at hb
      cases hb
    · intro c hc
      simp only [List.map_map, List.mem_map, Function.comp_apply] at hc
      obtain ⟨i, hi, rfl⟩ := hc
      have hin := List.mem_range.1 (hids.subset hi)
      refine ⟨.ofNat i, _, owned_fragment .., hlt i hin, fun heq => hmiss ?_, ?_⟩
      · rw [← hid j hj, ← heq, hid i hin]
        exact hi
      · change _ = (fragment_data data (s.fragment_payload mode) (UInt8.ofNat i).toNat).as_slice
        rw [SharedBytes.as_slice_from_vec, hid i hin]

/-- A chunk is delivered as it is, if at all. -/
theorem stream_chunk_lengths {cmds : List ProtocolCommand} {n : Nat}
    (hcmds : ∀ c ∈ cmds, ∃ ch group d, c = .SendUnsequenced ch group d ∧ d.as_slice.length ≤ n)
    (hs : Stream p cmds out p') : ∀ x ∈ out, x.payload.length ≤ n := by
  induction hs with
  | done _ => simp
  | @next p q r p'' c cs packets out t draw hsame hcmd hrest ih =>
    obtain ⟨ch, group, d, rfl, hd⟩ := hcmds c List.mem_cons_self
    rw [process_command_unsequenced, process_send_unsequenced_eq] at hcmd
    cases hcmd
    intro x hx
    rcases List.mem_append.1 hx with hx | hx
    · split at hx
      · obtain rfl : x = _ := by simpa using hx
        simpa [packet] using hd
      · cases hx
    · exact ih (fun c hc => hcmds c (List.mem_cons_of_mem _ hc)) x hx

/-- The user packet is handed to the sender and its datagrams to the receiver,
in order, whenever they arrive: the receiver emits packets with `P`. -/
def Emits (codecs : Codecs) (sender receiver : Peer) (packet : Packet) (P : List Packet → Prop) : Prop :=
  ∃ actions sender', sender.process_event codecs packet = .ok (actions, sender') ∧
    ∀ arrivals : List (Bytes × Instant × UInt16), arrivals.map Prod.fst = datagrams actions →
      ∃ events receiver', receiver.receive_all codecs arrivals = .ok (events, receiver') ∧ P (emitted events)

/-- The receiver can only emit one thing. -/
theorem Emits.not {packet : Packet} {P Q : List Packet → Prop} (h : Emits codecs p q packet P)
    (hPQ : ∀ out, P out → ¬ Q out) : ¬ Emits codecs p q packet Q := by
  rintro ⟨actions', p', he', h'⟩
  obtain ⟨actions, p'', he, h⟩ := h
  rw [he] at he'
  cases he'
  obtain ⟨events, r, hr, hP⟩ := h _ (at_once_fst _)
  obtain ⟨events', r', hr', hQ⟩ := h' _ (at_once_fst _)
  rw [hr] at hr'
  cases hr'
  exact hPQ _ hP hQ

theorem Emits.mono {packet : Packet} {P Q : List Packet → Prop} (h : Emits codecs p q packet P)
    (hPQ : ∀ out, P out → Q out) : Emits codecs p q packet Q := by
  obtain ⟨actions, p', he, h⟩ := h
  refine ⟨actions, p', he, fun arrivals harr => ?_⟩
  obtain ⟨events, r, hr, hP⟩ := h arrivals harr
  exact ⟨events, r, hr, hPQ _ hP⟩

/-- The packet arrives as one unsequenced packet for each chunk. -/
def ArrivesInChunks (config : Config) (packet : Packet) (packets : List Packet) : Prop :=
  labelled packets = (List.range (div_ceil packet.payload.length (chunk_size config))).map fun i =>
    (packet.channel_id, .Unreliable, .Unsequenced, (packet.payload.drop (i * chunk_size config)).take (chunk_size config))

/-- Not an unsequenced packet. -/
theorem packet_mode_some {packet : Packet} (h : packet_mode packet = some mode) :
    mode.delivery = packet.delivery ∧ (mode.ordered = true ↔ packet.delivery = .Reliable ∧ packet.ordering ≠ .None) := by
  unfold packet_mode at h
  split at h
  · rename_i hd
    cases h
    simp [Mode.delivery, Mode.ordered, hd]
  · cases h
  · rename_i hd _
    cases h
    simp [Mode.delivery, Mode.ordered, hd]

theorem labelled_eq_one {x : UInt8 × DeliveryGuarantee × OrderingGuarantee × Bytes} (h : labelled out = [x]) :
    ∃ packet, out = [packet] ∧ (packet.channel_id, packet.delivery, packet.ordering, packet.payload) = x := by
  unfold labelled at h
  obtain ⟨packet, rest, rfl, hx, hrest⟩ := List.map_eq_cons_iff.1 h
  obtain rfl := List.map_eq_nil_iff.1 hrest
  exact ⟨packet, rfl, hx⟩

/-- The two orderings are of one kind, streams apart. -/
def same_kind : OrderingGuarantee → OrderingGuarantee → Bool
  | .None, .None | .Sequenced _, .Sequenced _ | .Ordered _, .Ordered _ | .Unsequenced, .Unsequenced => true
  | _, _ => false

/-- The packet arrives as it was sent. -/
def ArrivesFaithfully (packet : Packet) (packets : List Packet) : Prop :=
  ∃ x, packets = [x] ∧ x.payload = packet.payload ∧ x.channel_id = packet.channel_id ∧
    x.delivery = packet.delivery ∧ same_kind x.ordering packet.ordering = true

/-- The mode of the packet is one that is kept at its size: no ordering, an
ordered message in one command or an unsequenced one in one chunk. -/
def KeepsMode (config : Config) (packet : Packet) : Prop :=
  packet.ordering = .None ∨
  (packet.delivery = .Reliable ∧ (∃ stream, packet.ordering = .Ordered stream) ∧
    packet.payload.length ≤ budget config (1 + 1 + 2 + 1 + 2)) ∨
  (packet.delivery = .Unreliable ∧ packet.ordering = .Unsequenced ∧ packet.payload ≠ [] ∧
    packet.payload.length ≤ chunk_size config)

/-- What is emitted for a packet decides whether it arrives as it was sent. -/
theorem Emits.iff {packet : Packet} {P Q : List Packet → Prop} {c : Prop} (h : Emits codecs p q packet P)
    (hPQ : ∀ out, P out → (Q out ↔ c)) : Emits codecs p q packet Q ↔ c := by
  by_cases hc : c
  · exact iff_of_true (h.mono fun out hP => (hPQ out hP).2 hc) hc
  · exact iff_of_false (h.not fun out hP hQ => hc ((hPQ out hP).1 hQ)) hc

theorem arrivesFaithfully_iff {packet : Packet} {ordering : OrderingGuarantee}
    (h : labelled out = [(packet.channel_id, packet.delivery, ordering, packet.payload)]) :
    ArrivesFaithfully packet out ↔ same_kind ordering packet.ordering = true := by
  obtain ⟨x, rfl, hx⟩ := labelled_eq_one h
  simp only [Prod.mk.injEq] at hx
  obtain ⟨hch, hdel, hord, hpay⟩ := hx
  constructor
  · rintro ⟨y, hy, -, -, -, hkind⟩
    cases hy
    rwa [hord] at hkind
  · intro hkind
    exact ⟨x, rfl, hpay, hch, hdel, by rwa [hord]⟩

theorem same_kind_none (ordering : OrderingGuarantee) : same_kind .None ordering = true ↔ ordering = .None := by
  cases ordering <;> constructor <;> intro h <;> cases h <;> rfl

theorem same_kind_ordered (ordering : OrderingGuarantee) :
    same_kind (.Ordered none) ordering = true ↔ ∃ stream, ordering = .Ordered stream := by
  cases ordering with
  | Ordered stream => exact iff_of_true rfl ⟨stream, rfl⟩
  | _ =>
    constructor
    · intro h
      cases h
    · rintro ⟨stream, h⟩
      cases h

/-- A message keeps its mode exactly if its label is of the kind it was sent
with. -/
theorem keepsMode_of_message {packet : Packet} (hm : packet_mode packet = some mode) :
    same_kind (if packet.payload.length ≤ budget config mode.header then Mode.label mode else .None)
      packet.ordering = true ↔ KeepsMode config packet := by
  obtain ⟨addr, payload, delivery, ordering, ch⟩ := packet
  unfold KeepsMode
  dsimp only
  cases delivery with
  | Reliable =>
    obtain rfl : mode = .Reliable (ordering != .None) := (Option.some.inj hm).symm
    change same_kind (if payload.length ≤ budget config (1 + 1 + 2 + 1 + 2) then _ else _) _ = true ↔ _
    by_cases hno : ordering = .None
    · rw [hno, show Mode.label (.Reliable (OrderingGuarantee.None != .None)) = .None from rfl, ite_self, same_kind_none]
      exact iff_of_true rfl (.inl rfl)
    · have hlabel : Mode.label (.Reliable (ordering != .None)) = .Ordered none := by
        unfold Mode.label Mode.ordered
        rw [if_pos (bne_iff_ne.2 hno)]
      rw [hlabel]
      by_cases hlen : payload.length ≤ budget config (1 + 1 + 2 + 1 + 2)
      · rw [if_pos hlen, same_kind_ordered]
        simp [hno, hlen]
      · rw [if_neg hlen, same_kind_none]
        simp [hno, hlen]
  | Unreliable =>
    have hlabel : Mode.label mode = .None ∧ ordering ≠ .Unsequenced := by
      cases ordering <;> cases hm <;> exact ⟨rfl, by simp⟩
    rw [hlabel.1, ite_self, same_kind_none]
    simp [hlabel.2]

theorem keepsMode_of_chunks {packet : Packet} (hm : packet_mode packet = none) :
    KeepsMode config packet ↔ packet.payload ≠ [] ∧ packet.payload.length ≤ chunk_size config := by
  obtain ⟨hd, ho⟩ := packet_mode_none hm
  simp [KeepsMode, hd, ho]

section Fresh

variable (addr addr' : SocketAddr) (config : Config) (time time' : Instant) (draw draw' : PeerDraw)

theorem sequence_record_send (mode : Mode) : mode.sequence (Peer.new addr config time draw).record_send.2 = 0 := by
  obtain ⟨st, q, he⟩ := record_send_writes (Peer.new addr config time draw)
  rw [he, ← sequence_new addr config time draw mode]
  cases mode <;> rfl

/-- What a sender transmits, after it has opened the connection, comes out of
the stream of its commands. -/
theorem emits_of_transmits {packet : Packet} {cmds : List ProtocolCommand} {actions : List Action}
    {P : List Packet → Prop} (hlimit : config.incoming_bandwidth_limit = 0)
    (he : p.process_event codecs packet = .ok (actions, p'))
    (htr : Transmits codecs config (datagrams actions) (p.opening ++ cmds)) (hcarried : ∀ c ∈ cmds, Carried c)
    (hP : ∀ r r' out, SameInbox (.new addr' config time' draw') r → Stream r (cmds.map owned) out r' → P out) :
    Emits codecs p (.new addr' config time' draw') packet P := by
  refine ⟨actions, p', he, fun arrivals harr => ?_⟩
  rw [← harr] at htr
  have hall : ∀ c ∈ p.opening ++ cmds, Carried c := by
    intro c hm
    rcases List.mem_append.1 hm with hm | hm
    · exact p.carried_opening c hm
    · exact hcarried c hm
  obtain ⟨events, r', hr, hs⟩ := receive_all_stream (receives_new addr' time' draw' hlimit) htr hall
  rw [List.map_append] at hs
  obtain ⟨m, out₁, out₂, hs₁, hs₂, hout⟩ := hs.split
  obtain ⟨hsame, rfl⟩ := stream_opening hs₁
  refine ⟨events, r', hr, ?_⟩
  rw [hout]
  exact hP m r' out₂ hsame hs₂

/-- A message there is room for arrives once, and is otherwise not delivered. -/
theorem emits_message {packet : Packet} {mode : Mode} (hc : codecs.Lossless) (ht : codecs.Total)
    (hcap : CapCarriesFragment config) (hlimit : config.outgoing_bandwidth_limit = 0)
    (hlimit' : config.incoming_bandwidth_limit = 0) (hopen : OpeningFits config (.new addr config time draw))
    (hm : packet_mode packet = some mode) (hfit : MessageFits config mode packet.payload) :
    Emits codecs (.new addr config time draw) (.new addr' config time' draw') packet fun out =>
      HasRoom config packet.payload ∧ labelled out = [(packet.channel_id, mode.delivery,
        if packet.payload.length ≤ budget config mode.header then Mode.label mode else .None, packet.payload)] ∨
      ¬ HasRoom config packet.payload ∧ out = [] := by
  have hquiet := quiet_new addr time draw hlimit
  obtain ⟨hsender, -, -, -⟩ := hquiet.record_send
  obtain ⟨actions, p', kept, he, hsub, htr, hroom⟩ := hquiet.send_message_kept hc ht hcap hopen hm hfit
  have hseq := sequence_record_send addr config time draw mode
  refine emits_of_transmits addr' config time' draw' hlimit' he htr
    ((hsender.message_packs hcap hfit packet.channel_id).1.sublist hsub).carried fun r r' out hsame hst => ?_
  have hnone : r.command_fragments[(0 : UInt16)]? = none := by
    rw [hsame.fragments]
    simp [Peer.new]
  by_cases hall : HasRoom config packet.payload
  · rw [hroom.2 hall] at hst
    exact .inl ⟨hall, stream_first hsender hseq hcap hfit (hsame.channels.trans rfl) hnone hst⟩
  · rw [← hseq] at hnone
    exact .inr ⟨hall, stream_divided hsender hcap hfit hsub (mt hroom.1 hall) hnone hst⟩

/-- An unsequenced packet there is room for arrives in chunks, if the window
holds them all. -/
theorem emits_chunks {packet : Packet} (hc : codecs.Lossless) (ht : codecs.Total)
    (hcap : CapCarriesFragment config) (hlimit : config.outgoing_bandwidth_limit = 0)
    (hlimit' : config.incoming_bandwidth_limit = 0) (hopen : OpeningFits config (.new addr config time draw))
    (hm : packet_mode packet = none) (hne : packet.payload ≠ []) (hroom : HasRoom config packet.payload)
    (hfew : div_ceil packet.payload.length (chunk_size config) ≤ 1024) :
    Emits codecs (.new addr config time draw) (.new addr' config time' draw') packet
      (ArrivesInChunks config packet) := by
  have hquiet := quiet_new addr time draw hlimit
  have hpos : 0 < packet.payload.length := List.length_pos_iff.2 hne
  obtain ⟨hsender, -, -, -⟩ := hquiet.record_send
  obtain ⟨-, hsize⟩ := hsender.max_payload_unseq hcap
  obtain ⟨actions, p', kept, he, -, htr, hall⟩ := hquiet.send_chunks_kept hc ht hcap hopen hm rfl
  obtain rfl := hall.2 hroom
  refine emits_of_transmits addr' config time' draw' hlimit' he htr
    (chunk_commands_packs hcap packet.channel_id packet.payload).carried fun r r' out hsame hst => ?_
  have hcounted : r.unsequenced_state.Counted 0 := by
    rw [hsame.unsequenced]
    exact UnsequencedState.counted_new
  rw [chunk_commands, List.map_map] at hst
  have hout := stream_chunks (d := fun i => .from_vec (fragment_data packet.payload (chunk_size config) i).as_slice)
    hfew (Nat.zero_le _) hcounted hst
  rw [Nat.sub_zero, ← List.range_eq_range'] at hout
  unfold ArrivesInChunks
  rw [hout]
  apply List.map_congr_left
  intro i hi
  rw [SharedBytes.as_slice_from_vec, as_slice_fragment_data hsize hpos (List.mem_range.1 hi)]

/-- An unsequenced packet that is no single chunk, or that there is no room for,
does not arrive as it is. -/
theorem emits_no_whole {packet : Packet} (hc : codecs.Lossless) (ht : codecs.Total)
    (hcap : CapCarriesFragment config) (hlimit : config.outgoing_bandwidth_limit = 0)
    (hlimit' : config.incoming_bandwidth_limit = 0) (hopen : OpeningFits config (.new addr config time draw))
    (hm : packet_mode packet = none)
    (hnot : ¬ (HasRoom config packet.payload ∧ packet.payload ≠ [] ∧ packet.payload.length ≤ chunk_size config)) :
    Emits codecs (.new addr config time draw) (.new addr' config time' draw') packet fun out =>
      ∀ x ∈ out, x.payload ≠ packet.payload := by
  have hquiet := quiet_new addr time draw hlimit
  obtain ⟨hsender, -, -, -⟩ := hquiet.record_send
  obtain ⟨-, hsize⟩ := hsender.max_payload_unseq hcap
  obtain ⟨actions, p', kept, he, hsub, htr, hroom⟩ := hquiet.send_chunks_kept hc ht hcap hopen hm rfl
  refine emits_of_transmits addr' config time' draw' hlimit' he htr
    ((chunk_commands_packs hcap packet.channel_id packet.payload).sublist hsub).carried fun r r' out hsame hst => ?_
  by_cases hnil : packet.payload = []
  · rw [hnil, chunk_commands_nil hsize] at hsub
    obtain rfl := List.sublist_nil.1 hsub
    cases hst
    simp
  have hpos : 0 < packet.payload.length := List.length_pos_iff.2 hnil
  by_cases hlong : chunk_size config < packet.payload.length
  · -- every chunk is shorter than the payload
    intro x hx heq
    have hshort := stream_chunk_lengths (n := chunk_size config) (fun c hc => ?_) hst x hx
    · rw [heq] at hshort
      omega
    · obtain ⟨c', hc', rfl⟩ := List.mem_map.1 hc
      obtain ⟨i, hi, rfl⟩ := List.mem_map.1 (hsub.subset hc')
      rw [Nat.sub_zero, ← List.range_eq_range'] at hi
      refine ⟨_, _, _, rfl, ?_⟩
      rw [SharedBytes.as_slice_from_vec, SharedBytes.as_slice_length,
        fragment_data_len hsize hpos (List.mem_range.1 hi)]
      exact Nat.min_le_left _ _
  · -- the one chunk has not found room
    have hrefused : ¬ HasRoom config packet.payload := fun h => hnot ⟨h, hnil, Nat.not_lt.1 hlong⟩
    rw [chunk_commands_one hsize hpos (Nat.not_lt.1 hlong)] at hsub hroom
    rcases List.sublist_singleton.1 hsub with rfl | rfl
    · cases hst
      simp
    · exact absurd (hroom.1 rfl) hrefused

/-- A peer whose `Connect` fits no datagram gets nothing across. -/
theorem emits_nothing {packet : Packet} (hcap : CapCarriesFragment config)
    (hlimit : config.outgoing_bandwidth_limit = 0) (hopen : ¬ OpeningFits config (.new addr config time draw)) :
    Emits codecs (.new addr config time draw) (.new addr' config time' draw') packet fun out => out = [] := by
  have hwedged := wedged_new addr config time draw hlimit hopen
  obtain ⟨q, hq⟩ : ∃ q, (Peer.new addr config time draw).record_send.2.enqueue_packet packet = .ok q := by
    cases hm : packet_mode packet with
    | some mode => exact ⟨_, enqueue_packet_mode hm⟩
    | none =>
      obtain ⟨u, hu⟩ := hwedged.toSender.enqueue_chunks hcap hm (by rw [unsequenced_record_send]; rfl)
      exact ⟨_, hu⟩
  obtain ⟨actions, p', he, hnone, -⟩ := hwedged.process_event codecs hq
  refine ⟨actions, p', he, fun arrivals harr => ?_⟩
  rw [hnone, List.map_eq_nil_iff] at harr
  rw [harr]
  exact ⟨[], _, rfl, rfl⟩

/-- A packet arrives as it was sent exactly if a `Connect` fits a datagram,
there is room for the payload, and the mode is one that is kept. -/
theorem delivery_mode_iff {packet : Packet} (hc : codecs.Lossless) (ht : codecs.Total)
    (hcap : CapCarriesFragment config) (hlimit : config.outgoing_bandwidth_limit = 0)
    (hlimit' : config.incoming_bandwidth_limit = 0)
    (hfits : ∀ mode, packet_mode packet = some mode → MessageFits config mode packet.payload) :
    Emits codecs (.new addr config time draw) (.new addr' config time' draw') packet (ArrivesFaithfully packet) ↔
      (config.use_connection_handshake = false ∨ static_overhead config + 14 ≤ fresh_cap config) ∧
        HasRoom config packet.payload ∧ KeepsMode config packet := by
  rw [← openingFits_new addr config time draw]
  have hempty : ¬ ArrivesFaithfully packet [] := by
    rintro ⟨x, hx, -⟩
    cases hx
  by_cases hopen : OpeningFits config (.new addr config time draw)
  · rw [and_iff_right hopen]
    cases hm : packet_mode packet with
    | some mode =>
      refine (emits_message addr addr' config time time' draw draw' hc ht hcap hlimit hlimit' hopen hm
        (hfits mode hm)).iff fun out hout => ?_
      rcases hout with ⟨hroom, hout⟩ | ⟨hroom, rfl⟩
      · rw [(packet_mode_some hm).1] at hout
        rw [arrivesFaithfully_iff hout, keepsMode_of_message hm, and_iff_right hroom]
      · exact iff_of_false hempty fun h => hroom h.1
    | none =>
      rw [keepsMode_of_chunks hm]
      obtain ⟨hd, ho⟩ := packet_mode_none hm
      by_cases hwhole : HasRoom config packet.payload ∧ packet.payload ≠ [] ∧
          packet.payload.length ≤ chunk_size config
      · obtain ⟨hroom, hne, hle⟩ := hwhole
        have hone : div_ceil packet.payload.length (chunk_size config) = 1 := by
          have hpos : 0 < packet.payload.length := List.length_pos_iff.2 hne
          exact div_ceil_eq_one (Nat.lt_of_lt_of_le hpos hle) hpos hle
        refine iff_of_true (Emits.mono (emits_chunks addr addr' config time time' draw draw' hc ht hcap hlimit hlimit'
          hopen hm hne hroom (by rw [hone]; decide)) fun out hout => ?_) ⟨hroom, hne, hle⟩
        have hlabels : labelled out = [(packet.channel_id, packet.delivery, .Unsequenced, packet.payload)] := by
          rw [ArrivesInChunks, hone] at hout
          rw [hout, hd, List.range_one, List.map_singleton, Nat.zero_mul, List.drop_zero, List.take_of_length_le hle]
        exact (arrivesFaithfully_iff hlabels).2 (by rw [ho]; rfl)
      · refine iff_of_false (Emits.not (emits_no_whole addr addr' config time time' draw draw' hc ht hcap hlimit hlimit'
          hopen hm hwhole) fun out hout hfaithful => ?_) hwhole
        obtain ⟨x, hx, hpay, -⟩ := hfaithful
        exact hout x (by rw [hx]; exact List.mem_singleton_self x) hpay
  · refine iff_of_false (Emits.not (emits_nothing addr addr' config time time' draw draw' hcap hlimit hopen)
      fun out hout => ?_) fun h => hopen h.1
    rw [hout]
    exact hempty

end Fresh

/-- A reliable packet of 20 bytes on channel 3. -/
def reliable_packet (ordering : OrderingGuarantee) : Packet :=
  ⟨⟨.V4 0, 0⟩, List.replicate 20 7, .Reliable, ordering, 3⟩

theorem reliable_packet_fits (ordering : OrderingGuarantee) (mode : Mode)
    (hm : packet_mode (reliable_packet ordering) = some mode) :
    MessageFits unlimited mode (reliable_packet ordering).payload := by
  cases hm
  exact .inl (show 20 ≤ budget unlimited 7 by decide)

/-- An ordered packet arrives as it was sent. -/
theorem delivery_mode_ordered :
    Emits .checked unlimited_peer unlimited_peer (reliable_packet (.Ordered none))
      (ArrivesFaithfully (reliable_packet (.Ordered none))) := by
  refine (delivery_mode_iff _ _ _ _ _ _ _ Codecs.checked_lossless Codecs.checked_total
    (by unfold CapCarriesFragment; decide) rfl rfl (reliable_packet_fits _)).2 ⟨?_, ?_, ?_⟩
  · decide
  · exact .inr (show 20 ≤ unlimited.max_waiting_data by decide)
  · exact .inr (.inl ⟨rfl, ⟨none, rfl⟩, show 20 ≤ budget unlimited 7 by decide⟩)

/-- A sequenced packet arrives as an ordered one. -/
theorem sequenced_arrives_ordered :
    ¬ Emits .checked unlimited_peer unlimited_peer (reliable_packet (.Sequenced none))
      (ArrivesFaithfully (reliable_packet (.Sequenced none))) := by
  obtain ⟨⟨actions, sender'⟩, he, hout⟩ := exists_ok
    (x := unlimited_peer.process_event .checked (reliable_packet (.Sequenced none)))
    (p := fun out => (unlimited_peer.receive_all .checked (at_once (datagrams out.1))).toOption.any fun received =>
      (emitted received.1).map Packet.ordering == [.Ordered none]) (by decide +kernel)
  obtain ⟨⟨events, receiver'⟩, hr, hout⟩ := exists_ok hout
  have hordered : (emitted events).map Packet.ordering = [.Ordered none] := beq_iff_eq.1 hout
  rintro ⟨actions', sender'', he', h⟩
  rw [he] at he'
  cases he'
  obtain ⟨events', receiver'', hr', x, hx, -, -, -, hkind⟩ := h _ (at_once_fst _)
  rw [hr] at hr'
  cases hr'
  rw [hx, List.map_singleton, List.singleton_inj] at hordered
  rw [hordered] at hkind
  cases hkind

end Peer

end Bitfold
