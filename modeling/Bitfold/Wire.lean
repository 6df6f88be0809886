import Bitfold.CutToSize
/-!
# What goes over the wire

A datagram of a session opens to commands that were in its queue, and to no
others: the count byte may wrap, but no length does, as no command in the queue
is longer than its frame can say (`Framed`). What was queued for a user packet
is the packet, or a part that it was cut into (`Cuts`).
-/

namespace Bitfold

open Lib CommandEncoder ProtocolCommand

/-- Whoever opens the datagram finds nothing but commands of the kind in it. -/
def Conveys (codecs : Codecs) (checks : Bool) (K : ProtocolCommand → Prop) (bytes : Bytes) : Prop :=
  ∀ config packet, config.use_checksums = checks → Peer.open_datagram codecs config bytes = .ok packet →
    ∀ c ∈ packet.commands, ∃ c', K c' ∧ c = c'.owned

theorem Conveys.mono {codecs : Codecs} {checks : Bool} {K K' : ProtocolCommand → Prop} {bytes : Bytes}
    (h : Conveys codecs checks K bytes) (hK : ∀ c, K c → K' c) : Conveys codecs checks K' bytes := by
  intro config packet hs ho c hc
  obtain ⟨c', hc', rfl⟩ := h config packet hs ho c hc
  exact ⟨c', hK c' hc', rfl⟩

/-- The length of the command fits its frame. -/
def Framed (c : ProtocolCommand) : Prop := (encode_command c).length ≤ 65535

namespace Peer

variable {codecs : Codecs} {p q : Peer} {t : Instant} {draw : UInt16}

theorem framed_of_frame_len {c : ProtocolCommand} (h : frame_len c ≤ 65537) : Framed c := by
  unfold frame_len at h
  unfold Framed
  omega

/-! ## Opening a datagram -/

/-- The checksum setting is all that opening needs of the configuration. -/
theorem open_datagram_congr {config config' : Config} (h : config.use_checksums = config'.use_checksums)
    (bytes : Bytes) : open_datagram codecs config bytes = open_datagram codecs config' bytes := by
  unfold open_datagram
  rw [h]

/-- What is sealed is opened up to the count byte. -/
theorem decode_packet_sealed {cmds : List ProtocolCommand} (h : ∀ c ∈ cmds, Framed c) :
    CommandDecoder.decode_packet (encode_packet ⟨cmds⟩) = .ok ⟨(cmds.take (cmds.length % 256)).map owned⟩ := by
  have hle : cmds.length % 256 ≤ cmds.length := Nat.mod_le _ _
  apply decode_packet_eq_owned_iff.2
  refine ⟨.ofNat cmds.length, (cmds.take (cmds.length % 256)).flatMap frame,
    (cmds.drop (cmds.length % 256)).flatMap frame, ?_, ?_, ?_⟩
  · rw [UInt8.toNat_ofNat', List.length_take]
    omega
  · exact frames_of_fits fun c hc => h c (List.mem_of_mem_take hc)
  · rw [encode_packet_eq, List.append_assoc, ← List.flatMap_append, List.take_append_drop]

theorem conveys_finish_packet (hc : codecs.Lossless) {K : ProtocolCommand → Prop} {cmds : List ProtocolCommand}
    {out : Bytes} (h : (p.finish_packet codecs ⟨cmds⟩).2 = .ok out) (hcmds : ∀ c ∈ cmds, K c ∧ Framed c) :
    Conveys codecs p.config.use_checksums K out := by
  intro config packet hs ho c hm
  rw [open_datagram_congr hs, open_datagram_finish_packet hc h,
    decode_packet_sealed fun c hc => (hcmds c hc).2] at ho
  cases ho
  obtain ⟨c', hc', rfl⟩ := List.mem_map.1 hm
  exact ⟨c', (hcmds c' (List.mem_of_mem_take hc')).1, rfl⟩

/-- Flushing sends nothing but what is in the queue. -/
theorem flush_conveys (hc : codecs.Lossless) {K : ProtocolCommand → Prop} (h : ∀ c ∈ p.commands, K c ∧ Framed c) :
    ∀ bytes, .Send bytes ∈ (p.flush codecs).1 → Conveys codecs p.config.use_checksums K bytes := by
  have hround : ∀ s : Peer, (s.config = p.config ∧ ∀ c ∈ s.commands, K c ∧ Framed c) →
      (s.flush_next codecs).2.config = p.config ∧ ∀ c ∈ (s.flush_next codecs).2.commands, K c ∧ Framed c := by
    rintro s ⟨hconfig, hs⟩
    obtain ⟨n, cq, st, b, he⟩ := flush_next_writes codecs s
    exact ⟨by rw [he]; exact hconfig, fun c hm => hs c (flush_next_subset codecs s hm)⟩
  have hall := (drains_flush codecs p).emits hround
    (P := fun a => ∀ bytes, a = .Send bytes → Conveys codecs p.config.use_checksums K bytes) ?_ ⟨rfl, h⟩
  · exact fun bytes hm => hall _ hm bytes rfl
  · rintro s a s' ⟨hconfig, hs⟩ hnext bytes rfl
    rw [flush_next_eq] at hnext
    split at hnext
    · split at hnext
      · rename_i he
        cases hnext
        obtain ⟨-, r, hr, hout⟩ := encode_bounded_some (Prod.ext rfl he)
        have hconveys := conveys_finish_packet hc hout (K := K) fun c hm => hs c (List.mem_of_mem_take hm)
        rwa [hr, hconfig] at hconveys
      · cases hnext
    · cases hnext

/-! ## What a user packet queues -/

/-- The fragments of a message, or the only one if it is truncated. -/
def GroupOf (p : Peer) (mode : Mode) (event : Packet) (g : Group) : Prop :=
  (p.Splits mode event.payload ∧ g = p.group mode event.channel_id event.payload) ∨
    (p.Truncates mode event.payload ∧ g = p.truncated mode event.channel_id event.payload)

/-- The commands that the peer cuts a user packet into. -/
inductive Cuts (p : Peer) (event : Packet) (c : ProtocolCommand) : Prop where
  | whole (mode : Mode) (d : SharedBytes) (hmode : packet_mode event = some mode)
      (hfits : event.payload.length ≤ p.payload_budget mode.header) (hd : d.as_slice = event.payload)
      (hc : c = mode.whole event.channel_id (mode.sequence p) d)
  | fragment (mode : Mode) (g : Group) (hmode : packet_mode event = some mode) (hg : p.GroupOf mode event g)
      (hc : IsFragment g c)
  | chunk (k : Nat) (group : UInt16) (d : SharedBytes) (hmode : packet_mode event = none)
      (hd : d.as_slice = (event.payload.drop (k * p.max_payload_unseq)).take p.max_payload_unseq)
      (hc : c = .SendUnsequenced event.channel_id group d)

theorem GroupOf.mode {mode : Mode} {event : Packet} {g : Group} (h : p.GroupOf mode event g) : g.mode = mode := by
  rcases h with ⟨-, rfl⟩ | ⟨-, rfl⟩ <;> rfl

/-- A message queues its parts, which can be framed. -/
theorem message_commands_cuts {mode : Mode} {event : Packet} {c : ProtocolCommand}
    (hmode : packet_mode event = some mode) (h : c ∈ p.message_commands mode event.channel_id event.payload) :
    p.Cuts event c ∧ Framed c := by
  have hcap := data_commands_le_cap (encode_whole_length mode _ _) (encode_mode_fragment_length mode _ _) h
  have hle := p.datagram_cap_le
  refine ⟨?_, framed_of_frame_len (by omega)⟩
  rcases p.message_commands_cases mode event.channel_id event.payload with he | ⟨hfits, he⟩ | ⟨ht, he⟩ | ⟨hs, he⟩
  · rw [he] at h
    cases h
  · rw [he] at h
    exact .whole mode _ hmode hfits (SharedBytes.as_slice_from_arc _) (List.mem_singleton.1 h)
  · rw [he] at h
    exact .fragment mode _ hmode (.inr ⟨ht, rfl⟩) ⟨0, _, (by decide : (0 : UInt8) < 1), rfl, List.mem_singleton.1 h⟩
  · rw [he] at h
    obtain ⟨i, hi, rfl⟩ := List.mem_map.1 h
    have hfew := hs.few
    rw [List.mem_range] at hi
    have hid : (UInt8.ofNat i).toNat = i := by
      rw [UInt8.toNat_ofNat']
      omega
    refine .fragment mode _ hmode (.inl ⟨hs, rfl⟩) ⟨.ofNat i, _, ?_, ?_, rfl⟩
    · rw [UInt8.lt_iff_toNat_lt, hid, hs.count_toNat]
      exact hi
    · simp only [Peer.group, hid]

theorem chunk_size_le (p : Peer) : p.max_payload_unseq ≤ 65529 := by
  have hle := p.datagram_cap_le
  unfold max_payload_unseq payload_budget
  omega

/-- Chunks begin at the multiples of their size. -/
theorem enqueue_chunks_queues {K : ProtocolCommand → Prop} {ch : UInt8} {base : SharedBytes} {size fuel k : Nat}
    {offset : Nat} (ho : offset = k * size ∨ base.len ≤ offset)
    (hK : ∀ group d k, d.len ≤ size → d.as_slice = (base.as_slice.drop (k * size)).take size →
      K (.SendUnsequenced ch group d))
    (h : enqueue_chunks ch base size fuel offset p = .ok q) : QueuesAll K p q := by
  induction fuel generalizing offset k p with
  | zero =>
    cases h
    exact .refl _ _
  | succ fuel ih =>
    unfold enqueue_chunks at h
    split at h
    · rename_i hlt
      obtain rfl : offset = k * size := ho.resolve_right (Nat.not_le.2 hlt)
      obtain ⟨chunk, hchunk, hlen, hslice⟩ := base.slice_spec
        (show k * size + min size (base.len - k * size) ≤ base.len by omega)
      dsimp only at h
      rw [hchunk] at h
      have hblock : chunk.as_slice = (base.as_slice.drop (k * size)).take size := by
        rw [hslice, ← SharedBytes.as_slice_length base, ← List.length_drop, List.take_eq_take_iff]
        omega
      have hnext : k * size + min size (base.len - k * size) = (k + 1) * size ∨
          base.len ≤ k * size + min size (base.len - k * size) := by
        rw [Nat.add_mul]
        omega
      apply (queuesAll_of_eq rfl rfl rfl : QueuesAll _ p p.next_unsequenced_group.2).trans
      exact (enqueue_command_queuesAll _ (hK _ _ _ (by omega) hblock)).trans (ih hnext h)
    · cases h
      exact .refl _ _

theorem QueuesAll.mono {K K' : ProtocolCommand → Prop} (h : QueuesAll K p q) (hK : ∀ c, K c → K' c) :
    QueuesAll K' p q := by
  obtain ⟨new, hq, hnew⟩ := h
  exact ⟨new, hq, fun c hc => hK c (hnew c hc)⟩

/-- A user packet queues what it is cut into. -/
theorem enqueue_packet_cuts {event : Packet} (h : p.enqueue_packet event = .ok q) :
    QueuesAll (fun c => p.Cuts event c ∧ Framed c) p q := by
  cases hmode : packet_mode event with
  | some mode =>
    rw [enqueue_packet_mode hmode] at h
    cases h
    have hnumbered : QueuesAll (fun c => p.Cuts event c ∧ Framed c) p (p.numbered mode) := by
      cases mode <;> exact queuesAll_of_eq rfl rfl rfl
    exact hnumbered.trans (requeue_queuesAll _ fun c hc => message_commands_cuts hmode hc)
  | none =>
    have hunsequenced : p.enqueue_unsequenced event.channel_id event.payload = .ok q := by
      unfold packet_mode at hmode
      split at hmode
      · cases hmode
      · rename_i hdelivery hordering
        unfold enqueue_packet at h
        rwa [hdelivery, hordering] at h
      · cases hmode
    apply enqueue_chunks_queues (k := 0) (.inl (Nat.zero_mul _).symm) ?_ hunsequenced
    intro group d k hlen hd
    rw [SharedBytes.as_slice_from_arc] at hd
    refine ⟨.chunk k group d hmode hd rfl, framed_of_frame_len ?_⟩
    have hsize := p.chunk_size_le
    rw [frame_len_chunk]
    omega

/-- Beginning to connect does not change how packets are cut. -/
theorem cuts_record_send {event : Packet} {c : ProtocolCommand} (h : p.record_send.2.Cuts event c) :
    p.Cuts event c := by
  obtain ⟨st, cq, he⟩ := record_send_writes p
  rw [he] at h
  cases h with
  | whole mode d hmode hfits hd hc =>
    refine .whole mode d hmode hfits hd (hc.trans ?_)
    cases mode <;> rfl
  | fragment mode g hmode hg hc =>
    refine .fragment mode g hmode ?_ hc
    cases mode <;> exact hg.imp (fun h => ⟨⟨h.1.1, h.1.2, h.1.3, h.1.4, h.1.5⟩, h.2⟩)
      fun h => ⟨⟨h.1.1, h.1.2, h.1.3, h.1.4, h.1.5⟩, h.2⟩
  | chunk k group d hmode hd hc => exact .chunk k group d hmode hd hc

/-! ## What the peer queues by itself -/

/-- The answers of a peer can be framed. -/
theorem process_command_framed {c : ProtocolCommand} {r : Processed} (h : p.process_command c t draw = .ok (q, r)) :
    ∀ x ∈ q.commands, x ∈ p.commands ∨ Framed x := by
  intro x hx
  cases hconnect : is_connect c with
  | false => exact (process_command_small hconnect h x hx).imp_right fun hle => framed_of_frame_len (by omega)
  | true =>
    cases c with
    | Connect chs m v sid cid =>
      rw [process_command_connect] at h
      cases h
      unfold process_connect at hx
      split at hx
      · rcases List.mem_append.1 hx with hx | hx
        · exact .inl hx
        · rw [List.mem_singleton.1 hx]
          exact .inr (framed_of_frame_len (by rw [frame_len_verify]; decide))
      · exact .inl hx
    | _ => cases hconnect

theorem frame_len_connect (chs : UInt8) (m v sid : UInt16) (cid : UInt32) :
    frame_len (.Connect chs m v sid cid) = 14 := rfl

theorem framed_opening (p : Peer) : ∀ c ∈ p.opening, Framed c := by
  intro c hc
  unfold opening at hc
  split at hc
  · rw [List.mem_singleton.1 hc]
    exact framed_of_frame_len (by rw [frame_len_connect]; decide)
  · cases hc

/-- A probe is no longer than the datagram it asks for. -/
theorem framed_probe {pm pm' : PmtuDiscovery} {rto : Duration} {probe : ProbeDraw} {c : ProtocolCommand}
    (h : pm.handle_pmtu t rto probe = (some c, pm')) : Framed c := by
  have hturns := pm.turns t rto probe
  rw [h] at hturns
  cases hturns with
  | probes _ _ _ _ hlen =>
    have hstatic := PmtuDiscovery.static_overhead_le pm.config
    have hmiddle := pm.clamp_high.middle.toNat_lt
    apply framed_of_frame_len
    rw [frame_len_probe]
    omega

/-! ## The operations -/

/-- What the operation sent conveys only commands of the kind, and what is now
in the queue is of the kind, too. -/
structure Conveying (codecs : Codecs) (K : ProtocolCommand → Prop) (p : Peer) (actions : List Action) (q : Peer) :
    Prop where
  sends : ∀ bytes ∈ sends_of actions, Conveys codecs p.config.use_checksums K bytes
  queue : ∀ c ∈ q.commands, K c ∧ Framed c

variable {K : ProtocolCommand → Prop} {actions : List Action}

theorem mem_sends_of {bytes : Bytes} : bytes ∈ sends_of actions ↔ .Send bytes ∈ actions := by
  unfold sends_of
  rw [List.mem_filterMap]
  constructor
  · rintro ⟨a, ha, he⟩
    cases a with
    | Send b =>
      cases he
      exact ha
    | Emit e => cases he
  · intro h
    exact ⟨_, h, rfl⟩

theorem conveying_flush (hc : codecs.Lossless) (h : ∀ c ∈ p.commands, K c ∧ Framed c) :
    Conveying codecs K p (p.flush codecs).1 (p.flush codecs).2 :=
  ⟨fun bytes hm => flush_conveys hc h bytes (mem_sends_of.1 hm), fun c hm => h c (flush_subset codecs p hm)⟩

/-- Sending a packet touches nothing of what came in. -/
theorem process_event_writes {event : Packet} (h : p.process_event codecs event = .ok (actions, q)) :
    ∃ n cq u sq st stats b, q = { p with
      total_waiting_data := n, command_queue := cq, unsequenced_state := u, next_unreliable_sequence := sq, state := st,
      statistics := stats, bandwidth_throttle := b } := by
  obtain ⟨r, hr, -, rfl⟩ := process_event_ok h
  obtain ⟨n, cq, u, sq, rfl⟩ := enqueue_packet_writes hr
  obtain ⟨st, cq', hsend⟩ := record_send_writes p
  rw [hsend]
  obtain ⟨n', cq'', stats, b, he⟩ := flush_writes codecs { p with
    state := st, total_waiting_data := n, command_queue := cq, unsequenced_state := u, next_unreliable_sequence := sq }
  rw [he]
  exact ⟨_, _, _, _, _, _, _, rfl⟩

/-- Nor does an update. -/
theorem update_writes (codecs : Codecs) (p : Peer) (time : Instant) (elapsed : Duration) (probe : ProbeDraw) :
    ∃ n cq stats b pm, (p.update codecs time elapsed probe).2 = { p with
      total_waiting_data := n, command_queue := cq, statistics := stats, bandwidth_throttle := b, pmtu := pm } := by
  obtain ⟨n, cq, st, b, hf⟩ := flush_writes codecs (p.before_update_flush time elapsed)
  obtain ⟨n', cq', pm, hp⟩ := handle_pmtu_writes ((p.before_update_flush time elapsed).flush codecs).2 time probe
  rw [update_eq, hp, hf]
  unfold before_update_flush
  dsimp only
  split
  · obtain ⟨n'', cq'', he⟩ := enqueue_command_writes (p.update_bandwidth_window time) (.Ping (.ofNat (as_millis elapsed)))
    rw [enqueue_ping_command, he]
    exact ⟨_, _, _, _, _, rfl⟩
  · exact ⟨_, _, _, _, _, rfl⟩

/-- A packet of the user goes out behind what opens the connection. -/
theorem process_event_conveying (hc : codecs.Lossless) {event : Packet} (hqueue : ∀ c ∈ p.commands, K c ∧ Framed c)
    (hopening : ∀ c ∈ p.opening, K c)
    (hqueues : ∀ r, p.record_send.2.enqueue_packet event = .ok r →
      QueuesAll (fun c => K c ∧ Framed c) p.record_send.2 r)
    (h : p.process_event codecs event = .ok (actions, q)) : Conveying codecs K p actions q := by
  obtain ⟨r, hr, rfl, rfl⟩ := process_event_ok h
  have hall : ∀ c ∈ r.commands, K c ∧ Framed c := by
    obtain ⟨st, -, hsend⟩ := record_send_eq p
    obtain ⟨new, hnews, hnew⟩ := hqueues r hr
    intro c hm
    rw [hnews.commands, hsend] at hm
    rcases List.mem_append.1 hm with hm | hm
    · rcases List.mem_append.1 hm with hm | hm
      · exact hqueue c hm
      · exact ⟨hopening c hm, p.framed_opening c hm⟩
    · exact hnew c hm
  have hconfig : r.config = p.config := by
    obtain ⟨n, cq, u, sq, hw⟩ := enqueue_packet_writes hr
    obtain ⟨st, cq', hsend⟩ := record_send_writes p
    rw [hw, hsend]
  obtain ⟨hsends, hrest⟩ := conveying_flush hc hall
  refine ⟨fun bytes hm => ?_, hrest⟩
  rw [← hconfig]
  apply hsends
  rw [mem_sends_of] at hm ⊢
  rcases List.mem_append.1 hm with hm | hm
  · split at hm
    · cases List.mem_singleton.1 hm
    · cases hm
  · exact hm

/-- An update adds a ping and a probe at most. -/
theorem update_conveying (hc : codecs.Lossless) (hqueue : ∀ c ∈ p.commands, K c ∧ Framed c)
    (hping : ∀ ts, K (.Ping ts)) (hprobe : ∀ size token d, K (.PMTUProbe size token d)) (time : Instant)
    (elapsed : Duration) (probe : ProbeDraw) :
    Conveying codecs K p (p.update codecs time elapsed probe).1 (p.update codecs time elapsed probe).2 := by
  have hbefore : ∀ c ∈ (p.before_update_flush time elapsed).commands, K c ∧ Framed c := by
    intro c hm
    unfold before_update_flush at hm
    dsimp only at hm
    split at hm
    · rcases mem_enqueue_command hm with hm | rfl
      · exact hqueue c hm
      · exact ⟨hping _, framed_of_frame_len (by rw [frame_len_ping]; decide)⟩
    · exact hqueue c hm
  have hconfig : (p.before_update_flush time elapsed).config = p.config := by
    unfold before_update_flush
    dsimp only
    split
    · exact (sameLimits_enqueue_command (p.update_bandwidth_window time) _).config
    · rfl
  obtain ⟨hsends, hrest⟩ := conveying_flush hc hbefore
  rw [hconfig] at hsends
  rw [update_eq]
  refine ⟨hsends, fun c hm => ?_⟩
  dsimp only at hm
  unfold handle_pmtu at hm
  match he : ((p.before_update_flush time elapsed).flush codecs).2.pmtu.handle_pmtu time
      ((p.before_update_flush time elapsed).flush codecs).2.rto probe with
  | (none, pmtu) =>
    rw [he] at hm
    exact hrest c hm
  | (some x, pmtu) =>
    rw [he] at hm
    rcases mem_enqueue_command hm with hm | rfl
    · exact hrest c hm
    · have hturns := PmtuDiscovery.turns ((p.before_update_flush time elapsed).flush codecs).2.pmtu time
        ((p.before_update_flush time elapsed).flush codecs).2.rto probe
      have hframed := framed_probe he
      rw [he] at hturns
      cases hturns with
      | probes => exact ⟨hprobe _ _ _, hframed⟩

/-- A datagram that comes in sends nothing at once. -/
theorem process_packet_sends {payload : Bytes} (h : p.process_packet codecs payload t draw = .ok (actions, q)) :
    sends_of actions = [] := by
  cases ht : p.takes payload t with
  | false =>
    obtain ⟨rfl, -⟩ := process_packet_not_taken ht h
    rfl
  | true =>
    obtain ⟨r, result, st, -, -, hsends⟩ := process_packet_of_takes ht h
    exact hsends

/-- Nor does asking whether the session is to be dropped. -/
theorem should_drop_sends (p : Peer) (t : Instant) : sends_of (p.should_drop t).2 = [] := by
  unfold should_drop
  dsimp only
  split
  · rfl
  · split
    · split <;> rfl
    · rfl

end Peer

end Bitfold
