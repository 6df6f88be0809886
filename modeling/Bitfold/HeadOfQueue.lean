import Bitfold.Bandwidth
import Bitfold.Sending
/-!
# The head of the queue

A command is cut to the size of a datagram when it is queued, and it has to fit
a datagram when it is sent. In between the size can shrink: path MTU discovery
may settle on a smaller one while the bandwidth limit holds commands back. A
command at the head of the queue that is too large is never sent, and nothing
behind it is.
-/

namespace Bitfold

open Lib CommandEncoder

/-- Is it a probe? -/
def is_pmtu_probe : ProtocolCommand → Bool
  | .PMTUProbe .. => true
  | _ => false

namespace Peer

variable {codecs : Codecs} {p q : Peer} {config : Config} {t : Instant} {draw : UInt16}

/-! ## Commands that fit -/

/-- The size of a datagram with the command alone. A probe may be larger than
the path is known to be. -/
def FitsAlone (p : Peer) (c : ProtocolCommand) : Prop :=
  static_overhead p.config + frame_len c ≤
    if is_pmtu_probe c then p.config.receive_buffer_max_size else p.datagram_cap

theorem fitsAlone_of_le_cap {c : ProtocolCommand} (h : static_overhead p.config + frame_len c ≤ p.datagram_cap) :
    p.FitsAlone c := by
  have hcap : p.datagram_cap ≤ p.config.receive_buffer_max_size := Nat.min_le_right _ _
  unfold FitsAlone
  split
  · exact h.trans hcap
  · exact h

/-- A session in which every queued command can be sent: the configuration is
still the one it began with, up to the bandwidth, and there is room for an
acknowledgment. -/
structure Unblocked (config : Config) (p : Peer) : Prop where
  settings : ∃ a b, p.config = { config with incoming_bandwidth_limit := a, outgoing_bandwidth_limit := b }
  path : p.pmtu.config = config
  room : static_overhead p.config + 9 ≤ p.datagram_cap
  fits : ∀ c ∈ p.commands, p.FitsAlone c

theorem Unblocked.overhead (h : Unblocked config p) : static_overhead p.config = static_overhead config := by
  obtain ⟨a, b, hc⟩ := h.settings
  rw [hc]
  rfl

theorem Unblocked.buffer (h : Unblocked config p) :
    p.config.receive_buffer_max_size = config.receive_buffer_max_size := by
  obtain ⟨a, b, hc⟩ := h.settings
  rw [hc]

/-- Where neither the configuration nor the path changes, only what is queued
anew has to fit. -/
theorem Unblocked.of_queued (h : Unblocked config p) (hc : q.config = p.config) (hp : q.pmtu = p.pmtu)
    (hq : ∀ c ∈ q.commands, c ∈ p.commands ∨ p.FitsAlone c) : Unblocked config q := by
  have hcap : q.datagram_cap = p.datagram_cap := by
    unfold datagram_cap current_fragment_size
    rw [hc, hp]
  refine ⟨hc ▸ h.settings, hp ▸ h.path, ?_, fun c hm => ?_⟩
  · rw [hc, hcap]
    exact h.room
  · have hfits : p.FitsAlone c := by
      rcases hq c hm with hm | hm
      · exact h.fits c hm
      · exact hm
    unfold FitsAlone at hfits ⊢
    rw [hc, hcap]
    exact hfits

theorem Unblocked.of_queuesAll (h : Unblocked config p) (hc : q.config = p.config) (hp : q.pmtu = p.pmtu)
    (hq : QueuesAll p.FitsAlone p q) : Unblocked config q := by
  obtain ⟨new, hq, hnew⟩ := hq
  apply h.of_queued hc hp
  intro c hm
  rw [hq.commands] at hm
  rcases List.mem_append.1 hm with hm | hm
  · exact .inl hm
  · exact .inr (hnew c hm)

/-- A small command fits. -/
theorem Unblocked.small (h : Unblocked config p) {c : ProtocolCommand} (hc : frame_len c ≤ 9) : p.FitsAlone c := by
  apply fitsAlone_of_le_cap
  have := h.room
  omega

/-- The command at the head of an unblocked queue goes out. -/
theorem Unblocked.sends (h : Unblocked config p) (ht : codecs.Total)
    (hbuffer : config.compression = .Lz4 → config.receive_buffer_max_size ≤ 0x7E000000) (hne : p.commands ≠ []) :
    ∃ p' bytes, p.encode_queued_commands_bounded codecs p.datagram_cap = (p', .ok (some bytes)) := by
  have heffective := p.effective_max_size_le
  rw [h.buffer] at heffective
  have hcompression : p.config.compression = config.compression := by
    obtain ⟨a, b, hc⟩ := h.settings
    rw [hc]
  refine encode_bounded_total ht ?_ fun hl => heffective.trans (hbuffer (hcompression ▸ hl))
  obtain ⟨c, rest, hq⟩ := List.exists_cons_of_ne_nil hne
  have hfits : p.FitsAlone c := h.fits c (by rw [hq]; exact List.mem_cons_self)
  have hlimit : p.effective_max_size p.datagram_cap =
      if is_pmtu_probe c then p.config.receive_buffer_max_size else p.datagram_cap := by
    unfold effective_max_size first_is_pmtu_probe
    rw [show p.command_queue.commands = c :: rest from hq]
    cases c <;> rfl
  unfold FitsAlone frame_len at hfits
  rw [← hlimit] at hfits
  unfold selected_count
  rw [show p.command_queue.commands = c :: rest from hq, select_count]
  rw [if_neg (by omega)]
  exact Nat.succ_ne_zero _

/-! ## User data -/

theorem fragment_data_len_le (data : Bytes) (payload i : Nat) : (fragment_data data payload i).len ≤ payload := by
  have hlen : (fragment_data data payload i).len ≤ (fragment_range data.length payload i).2 := Nat.min_le_left _ _
  have hstop : min ((i + 1) * payload) data.length ≤ i * payload + payload := by
    rw [Nat.add_mul, Nat.one_mul]
    exact Nat.min_le_left _ _
  unfold fragment_range at hlen
  dsimp only at hlen
  omega

/-- Data is cut to the budget of the cap it is queued under. -/
theorem data_commands_le_cap {data : Bytes} {header fragment_header : Nat} {whole : SharedBytes → ProtocolCommand}
    {fragment : UInt8 → UInt8 → SharedBytes → ProtocolCommand}
    (hwhole : ∀ d, (encode_command (whole d)).length = header + d.len)
    (hfragment : ∀ i n d, (encode_command (fragment i n d)).length = fragment_header + d.len) {c : ProtocolCommand}
    (h : c ∈ p.data_commands data header fragment_header whole fragment) :
    static_overhead p.config + frame_len c ≤ p.datagram_cap := by
  have hpart : ∀ d, 0 < p.payload_budget fragment_header → d.len ≤ p.payload_budget fragment_header → ∀ i n,
      static_overhead p.config + frame_len (fragment i n d) ≤ p.datagram_cap := by
    intro d hpos hle i n
    rw [frame_len, hfragment]
    unfold payload_budget at hpos hle
    omega
  unfold data_commands at h
  split at h
  · cases h
  · rename_i hbudget
    split at h
    · rename_i hlen
      rw [List.mem_singleton.1 h, frame_len, hwhole, SharedBytes.len_from_arc]
      unfold payload_budget at hbudget hlen
      omega
    · split at h
      · cases h
      · rename_i hpos
        dsimp only at h
        split at h
        · cases h
        · split at h
          · rw [List.mem_singleton.1 h]
            exact hpart _ (by omega) (fragment_data_len_le _ _ _) _ _
          · obtain ⟨i, -, rfl⟩ := List.mem_map.1 h
            exact hpart _ (by omega) (fragment_data_len_le _ _ _) _ _

theorem frame_len_chunk (ch : UInt8) (group : UInt16) (d : SharedBytes) :
    frame_len (.SendUnsequenced ch group d) = 2 + 6 + d.len := by
  rw [frame_len]
  simp only [encode_command, write_u8, write_u16, write_all, List.length_append, List.length_cons, List.length_nil,
    be16_length, SharedBytes.as_slice_length]
  omega

theorem enqueue_chunks_small {ch : UInt8} {base : SharedBytes} {size fuel offset : Nat} {p q : Peer}
    (h : enqueue_chunks ch base size fuel offset p = .ok q) : QueuesAll (fun c => frame_len c ≤ 2 + 6 + size) p q := by
  refine enqueue_chunks_queuesAll ?_ h
  intro group d hd
  rw [frame_len_chunk]
  omega

theorem encode_mode_fragment_length (mode : Mode) (ch : UInt8) (s : UInt16) (i n : UInt8) (d : SharedBytes) :
    (encode_command (mode.fragment ch s i n d)).length = mode.fragment_header + d.len := by
  cases mode <;>
    simp only [Mode.fragment, Mode.fragment_header, encode_command, write_u8, write_u16, write_all,
      List.length_append, List.length_cons, List.length_nil, be16_length, SharedBytes.as_slice_length]

/-- What a user packet queues fits. -/
theorem Unblocked.enqueue_packet_fits {event : Packet} (h : Unblocked config p) (hq : p.enqueue_packet event = .ok q) :
    QueuesAll p.FitsAlone p q := by
  by_cases hd : event.delivery = .Reliable
  · rw [enqueue_packet_reliable hd] at hq
    cases hq
    exact requeue_queuesAll p fun c hc => fitsAlone_of_le_cap (data_commands_le_cap
      (encode_whole_length (.Reliable (event.ordering != .None)) _ _)
      (encode_mode_fragment_length (.Reliable (event.ordering != .None)) _ _) hc)
  unfold enqueue_packet at hq
  split at hq
  · exact absurd ‹_› hd
  · split at hq
    · obtain ⟨new, hnew, hsmall⟩ := enqueue_chunks_small hq
      refine ⟨new, hnew, fun c hc => fitsAlone_of_le_cap ?_⟩
      have hc' := hsmall c hc
      have hroom := h.room
      unfold max_payload_unseq payload_budget at hc'
      omega
    · simp only [bind, Except.bind, enqueue_unreliable_data] at hq
      split at hq
      · cases hq
      · rename_i he
        split at he
        · cases he
        · rename_i hdata
          cases he
          cases hq
          rw [enqueue_data_eq] at hdata
          cases hdata
          refine (queuesAll_of_eq rfl rfl rfl : QueuesAll _ p { p with
            next_unreliable_sequence := p.next_unreliable_sequence + 1 }).trans ?_
          exact requeue_queuesAll _ fun c hc => fitsAlone_of_le_cap (data_commands_le_cap
            (encode_whole_length .Unreliable _ 0) (encode_mode_fragment_length .Unreliable _ _) hc)

theorem Unblocked.enqueue_packet {event : Packet} (h : Unblocked config p) (hq : p.enqueue_packet event = .ok q) :
    Unblocked config q := by
  obtain ⟨n, cq, u, sq, hw⟩ := enqueue_packet_writes hq
  exact h.of_queuesAll (by rw [hw]) (by rw [hw]) (h.enqueue_packet_fits hq)

/-! ## Operations -/

theorem Unblocked.flush (h : Unblocked config p) : Unblocked config (p.flush codecs).2 := by
  obtain ⟨n, cq, st, b, hw⟩ := flush_writes codecs p
  refine h.of_queued (by rw [hw]) (by rw [hw]) fun c hc => .inl ?_
  exact flush_subset codecs p hc

/-- The `Connect` that a send from `Idle` queues has to fit. -/
theorem Unblocked.record_send (h : Unblocked config p)
    (hopening : ∀ c ∈ p.opening, static_overhead p.config + frame_len c ≤ p.datagram_cap) :
    Unblocked config p.record_send.2 := by
  obtain ⟨st, -, he⟩ := record_send_eq p
  rw [he]
  refine h.of_queued rfl rfl fun c hc => ?_
  rcases List.mem_append.1 hc with hc | hc
  · exact .inl hc
  · exact .inr (fitsAlone_of_le_cap (hopening c hc))

theorem Unblocked.process_event {event : Packet} {actions : List Action} (h : Unblocked config p)
    (hopening : ∀ c ∈ p.opening, static_overhead p.config + frame_len c ≤ p.datagram_cap)
    (hp : p.process_event codecs event = .ok (actions, q)) : Unblocked config q := by
  obtain ⟨r, hr, -, rfl⟩ := process_event_ok hp
  exact ((h.record_send hopening).enqueue_packet hr).flush

/-- If the path to `pmtu` is smaller, it still has room for an acknowledgment
and for every command that waits, probes apart. -/
def ShrinkFits (p : Peer) (pmtu : PmtuDiscovery) : Prop :=
  { p with pmtu }.datagram_cap < p.datagram_cap →
    static_overhead p.config + 9 ≤ { p with pmtu }.datagram_cap ∧
      ∀ c ∈ p.commands, is_pmtu_probe c = false → static_overhead p.config + frame_len c ≤ { p with pmtu }.datagram_cap

/-- A change of the path matters to commands that are no probes. -/
theorem FitsAlone.path {c : ProtocolCommand} (h : p.FitsAlone c) {pmtu : PmtuDiscovery}
    (hfits : is_pmtu_probe c = false → static_overhead p.config + frame_len c ≤ { p with pmtu }.datagram_cap) :
    { p with pmtu }.FitsAlone c := by
  unfold FitsAlone at h ⊢
  cases hprobe : is_pmtu_probe c with
  | true =>
    rw [hprobe] at h
    exact h
  | false => exact hfits hprobe

theorem Unblocked.shrink (h : Unblocked config p) {pmtu : PmtuDiscovery} (hpath : pmtu.config = config)
    (hfits : p.ShrinkFits pmtu) : Unblocked config { p with pmtu } := by
  unfold ShrinkFits at hfits
  by_cases hlt : { p with pmtu }.datagram_cap < p.datagram_cap
  · obtain ⟨hroom, hwaiting⟩ := hfits hlt
    refine ⟨h.settings, hpath, hroom, ?_⟩
    intro c hc
    exact (h.fits c hc).path (hwaiting c hc)
  · -- a larger path takes what the smaller one took
    rw [Nat.not_lt] at hlt
    refine ⟨h.settings, hpath, h.room.trans hlt, ?_⟩
    intro c hc
    apply (h.fits c hc).path
    intro hprobe
    have hold := h.fits c hc
    rw [FitsAlone, hprobe, if_neg Bool.false_ne_true] at hold
    exact hold.trans hlt

/-- What a command queues, or what it does to the path, fits. -/
def CommandFits (t : Instant) (p : Peer) : ProtocolCommand → Prop
  | .Connect .. => p.state = .Idle → static_overhead p.config + 16 ≤ p.datagram_cap
  | .PMTUReply size token => p.ShrinkFits (p.pmtu.process_reply size token t).2
  | _ => True

theorem frame_len_ack (s : UInt16) (m : UInt32) : frame_len (.Acknowledge s m none) = 9 := rfl

theorem frame_len_reply (size : UInt16) (token : UInt32) : frame_len (.PMTUReply size token) = 9 := rfl

theorem frame_len_pong (ts : UInt32) : frame_len (.Pong ts) = 7 := rfl

theorem frame_len_ping (ts : UInt32) : frame_len (.Ping ts) = 7 := rfl

theorem frame_len_verify (pid : UInt16) (chs : UInt8) (m isid osid : UInt16) (w : UInt32) :
    frame_len (.VerifyConnect pid chs m isid osid w) = 16 := rfl

theorem frame_len_answer {c : ProtocolCommand} (h : is_answer c = true) : frame_len c ≤ 9 := by
  cases c with
  | Acknowledge s m st =>
    cases st with
    | none => exact (frame_len_ack s m).le
    | some ts => cases h
  | Pong ts =>
    rw [frame_len_pong]
    decide
  | PMTUReply size token => exact (frame_len_reply _ _).le
  | _ => cases h

/-- Everything but the answer to a `Connect` is small. -/
theorem process_command_small {c : ProtocolCommand} {r : Processed} (hc : is_connect c = false)
    (h : p.process_command c t draw = .ok (q, r)) : ∀ x ∈ q.commands, x ∈ p.commands ∨ frame_len x ≤ 9 := by
  intro x hx
  cases ht : is_traffic c with
  | true =>
    exact ((handles_of_traffic ht h).1.queued x hx).imp_right frame_len_answer
  | false =>
    cases c with
    | Connect chs m v sid cid => cases hc
    | VerifyConnect pid chs m isid osid w =>
      obtain ⟨i, s, f, st, rfl⟩ := process_verify_connect_writes h
      exact .inl hx
    | Disconnect n =>
      cases h
      exact .inl hx
    | BandwidthLimit i o =>
      cases h
      exact .inl hx
    | ThrottleConfigure i a d =>
      cases h
      exact .inl hx
    | PMTUReply size token =>
      cases h
      exact .inl hx
    | _ => cases ht

theorem Unblocked.process_command {c : ProtocolCommand} {r : Processed} (h : Unblocked config p)
    (hc : CommandFits t p c) (hp : p.process_command c t draw = .ok (q, r)) : Unblocked config q := by
  cases hconnect : is_connect c with
  | true =>
    cases c with
    | Connect chs m v sid cid =>
      have hlimits := process_command_limits hp rfl rfl
      apply h.of_queued hlimits.config hlimits.pmtu
      intro x hx
      rw [process_command_connect] at hp
      cases hp
      by_cases hs : (p.heard t).state = .Idle
      · rw [process_connect, if_pos hs] at hx
        rcases List.mem_append.1 hx with hx | hx
        · exact .inl hx
        · rw [List.mem_singleton.1 hx]
          refine .inr (fitsAlone_of_le_cap ?_)
          rw [frame_len_verify]
          exact hc hs
      · rw [process_connect, if_neg hs] at hx
        exact .inl hx
    | _ => cases hconnect
  | false =>
    have hsmall := process_command_small hconnect hp
    cases hset : sets_limits c with
    | true =>
      cases c with
      | BandwidthLimit i o =>
        cases hp
        obtain ⟨a, b, hconfig⟩ := h.settings
        refine ⟨⟨i, o, ?_⟩, h.path, h.room, h.fits⟩
        change { p.config with incoming_bandwidth_limit := i, outgoing_bandwidth_limit := o } = _
        rw [hconfig]
      | _ => cases hset
    | false =>
      cases hpath : sets_path c with
      | true =>
        cases c with
        | PMTUReply size token =>
          have hreply : (p.pmtu.process_reply size token t).2.config = config := by
            rw [← h.path]
            unfold PmtuDiscovery.process_reply
            split
            · split <;> rfl
            · rfl
          cases hp
          have hshrunk := h.shrink hreply hc
          exact ⟨hshrunk.settings, hshrunk.path, hshrunk.room, hshrunk.fits⟩
        | _ => cases hpath
      | false =>
        have hlimits := process_command_limits hp hset hpath
        apply h.of_queued hlimits.config hlimits.pmtu
        intro x hx
        rcases hsmall x hx with hm | hle
        · exact .inl hm
        · exact .inr (h.small hle)

theorem Unblocked.of_same (h : Unblocked config p) (hc : q.config = p.config) (hp : q.pmtu = p.pmtu)
    (hq : q.commands = p.commands) : Unblocked config q :=
  h.of_queued hc hp fun _ hm => .inl (hq ▸ hm)

theorem Unblocked.process_packet {payload : Bytes} {actions : List Action} (h : Unblocked config p)
    (hfits : p.takes payload t = true → ∀ x ∈ datagram_commands codecs p payload t draw, CommandFits t x.1 x.2)
    (hp : p.process_packet codecs payload t draw = .ok (actions, q)) : Unblocked config q :=
  process_packet_keeps (fun hp hc hq => hp.process_command hc hq) (fun hp => hp.of_same) hfits hp h

/-! ## Probes -/

theorem handle_pmtu_config (pm : PmtuDiscovery) (rto : Duration) (probe : ProbeDraw) :
    (pm.handle_pmtu t rto probe).2.config = pm.config := by
  have hturns := pm.turns t rto probe
  have hclamp := pm.clamp_high_config
  generalize pm.handle_pmtu t rto probe = r at hturns ⊢
  cases hturns with
  | off => rfl
  | waits => rfl
  | gives_up => rfl
  | converged => exact hclamp
  | early => exact hclamp
  | probes => exact hclamp

theorem frame_len_probe (size : UInt16) (token : UInt32) (payload : SharedBytes) :
    frame_len (.PMTUProbe size token payload) = 11 + payload.len := by
  simp only [frame_len, encode_command, write_u8, write_u16, write_u32, write_all, List.length_append, List.length_cons,
    List.length_nil, be16_length, be32_length, SharedBytes.as_slice_length]
  omega

/-- A probe is as large as it says, and the receive buffer holds it. -/
theorem probe_fits {pm pm' : PmtuDiscovery} {rto : Duration} {probe : ProbeDraw} {c : ProtocolCommand}
    (hbuffer : static_overhead pm.config + 12 ≤ pm.config.receive_buffer_max_size)
    (h : pm.handle_pmtu t rto probe = (some c, pm')) :
    static_overhead pm.config + frame_len c ≤ pm.config.receive_buffer_max_size ∧ is_pmtu_probe c = true := by
  have hturns := pm.turns t rto probe
  rw [h] at hturns
  cases hturns with
  | probes _ _ hwide _ hlen =>
    have hclamp := pm.clamp_high_high
    have hmiddle := pm.clamp_high.middle_toNat
    rw [PmtuDiscovery.clamp_high_low] at hmiddle
    refine ⟨?_, rfl⟩
    rw [frame_len_probe]
    omega

theorem Unblocked.handle_pmtu (h : Unblocked config p) (hcap : CapCarriesFragment config) (probe : ProbeDraw)
    (hfits : p.ShrinkFits (p.pmtu.handle_pmtu t p.rto probe).2) : Unblocked config (p.handle_pmtu t probe) := by
  have hbuffer : static_overhead config + 12 ≤ config.receive_buffer_max_size := by
    have hle : fresh_cap config ≤ config.receive_buffer_max_size := Nat.min_le_right _ _
    unfold CapCarriesFragment at hcap
    omega
  have hpath : (p.pmtu.handle_pmtu t p.rto probe).2.config = config := (handle_pmtu_config _ _ _).trans h.path
  unfold Peer.handle_pmtu
  cases he : p.pmtu.handle_pmtu t p.rto probe with
  | mk sent pmtu =>
    rw [he] at hfits hpath
    have hshrunk : Unblocked config { p with pmtu } := h.shrink hpath hfits
    cases sent with
    | none => exact hshrunk
    | some c =>
      rw [← h.path] at hbuffer
      obtain ⟨hsize, hprobe⟩ := probe_fits hbuffer he
      obtain ⟨n, cq, hw⟩ := enqueue_command_writes { p with pmtu } c
      apply hshrunk.of_queued (by simp only [hw]) (by simp only [hw])
      intro x hx
      rcases mem_enqueue_command hx with hx | rfl
      · exact .inl hx
      · refine .inr ?_
        unfold FitsAlone
        rw [if_pos hprobe, hshrunk.overhead, hshrunk.buffer, ← h.path]
        exact hsize

theorem Unblocked.before_update_flush (h : Unblocked config p) (elapsed : Duration) :
    Unblocked config (p.before_update_flush t elapsed) := by
  have hwindow : Unblocked config (p.update_bandwidth_window t) := h.of_same rfl rfl rfl
  unfold Peer.before_update_flush
  dsimp only
  split
  · have hlimits := sameLimits_enqueue_command (p.update_bandwidth_window t) (.Ping (.ofNat (as_millis elapsed)))
    apply hwindow.of_queued hlimits.config hlimits.pmtu
    intro x hx
    rcases mem_enqueue_command hx with hx | rfl
    · exact .inl hx
    · exact .inr (hwindow.small (by rw [frame_len_ping]; decide))
  · exact hwindow

/-! ## Runs -/

/-- The step queues no `Connect` and no `VerifyConnect` that does not fit, and
whenever it shrinks the path, all that then waits still fits. -/
def StepFits (codecs : Codecs) (p : Peer) : SessionOp → Prop
  | .process_event _ => ∀ c ∈ p.opening, static_overhead p.config + frame_len c ≤ p.datagram_cap
  | .process_packet payload t draw =>
    p.takes payload t = true → ∀ x ∈ datagram_commands codecs p payload t draw, CommandFits t x.1 x.2
  | .update t elapsed probe =>
    let q := ((p.before_update_flush t elapsed).flush codecs).2
    q.ShrinkFits (q.pmtu.handle_pmtu t q.rto probe).2
  | .should_drop _ => True

theorem Unblocked.perform {op : SessionOp} {actions : List Action} (h : Unblocked config p)
    (hcap : CapCarriesFragment config) (hstep : p.StepFits codecs op) (hp : p.perform codecs op = .ok (actions, q)) :
    Unblocked config q := by
  cases op with
  | process_packet payload t draw => exact h.process_packet hstep hp
  | process_event event => exact h.process_event hstep hp
  | update t elapsed probe =>
    have hu : p.update codecs t elapsed probe = (actions, q) := Except.ok.inj hp
    rw [update_eq] at hu
    rw [← (Prod.mk.inj hu).2]
    exact ((h.before_update_flush elapsed).flush).handle_pmtu hcap probe hstep
  | should_drop t =>
    cases hp
    exact h

theorem unblocked_new (addr : SocketAddr) (hcap : CapCarriesFragment config) (time : Instant) (ids : PeerDraw) :
    Unblocked config (.new addr config time ids) := by
  refine ⟨⟨_, _, rfl⟩, rfl, ?_, fun c hc => by cases hc⟩
  unfold CapCarriesFragment at hcap
  change static_overhead config + 9 ≤ fresh_cap config
  omega

/-- As long as the path never shrinks below what waits, whatever is at the head
of the queue can be sent. -/
theorem queue_never_wedges (ht : codecs.Total) (addr : SocketAddr) (config : Config) (time : Instant) (ids : PeerDraw)
    (hcap : CapCarriesFragment config)
    (hbuffer : config.compression = .Lz4 → config.receive_buffer_max_size ≤ 0x7E000000) {steps : List (Peer × Performed)}
    {q : Peer} (h : SessionRun codecs (.new addr config time ids) steps q)
    (hsteps : ∀ x ∈ steps, x.1.StepFits codecs x.2.op) :
    ∀ p ∈ states steps q, p.commands ≠ [] →
      ∃ p' bytes, p.encode_queued_commands_bounded codecs p.datagram_cap = (p', .ok (some bytes)) := by
  have hall : ∀ p ∈ states steps q, Unblocked config p := by
    induction h with
    | start =>
      intro p hp
      rw [List.mem_singleton.1 hp]
      exact unblocked_new addr hcap time ids
    | @next steps r e q _ hs ih =>
      have hbefore := ih fun x hx => hsteps x (List.mem_append_left _ hx)
      obtain ⟨hp, rfl⟩ := hs
      have hr : Unblocked config r := hbefore r (List.mem_append_right _ (List.mem_singleton_self r))
      have hstep := hsteps (r, e) (List.mem_append_right _ (List.mem_singleton_self _))
      intro p hm
      rw [states_append] at hm
      rcases List.mem_append.1 hm with hm | hm
      · exact hbefore p hm
      · rw [List.mem_singleton.1 hm]
        exact hr.perform hcap hstep hp
  intro p hp hne
  exact (hall p hp).sends ht hbuffer hne

/-- Datagrams of sixty bytes on a path that may turn out to take forty, and one
datagram a second. -/
def shrinking_config : Config :=
  { Config.default with fragment_size := 60, pmtu_min := 40, pmtu_max := 45, outgoing_bandwidth_limit := 1 }

/-- A packet of two fragments. -/
def two_fragments : Packet := ⟨⟨.V4 0, 0⟩, List.replicate 50 0, .Reliable, .None, 0⟩

/-- What the bandwidth limit holds back can be sent. -/
theorem queue_never_wedges_held :
    ∃ steps q, SessionRun .checked (.new ⟨.V4 0, 0⟩ shrinking_config 0 ⟨0, 0, 0⟩) steps q ∧
      (∀ x ∈ steps, x.1.StepFits .checked x.2.op) ∧ q.commands ≠ [] ∧
      ∃ p' bytes, q.encode_queued_commands_bounded .checked q.datagram_cap = (p', .ok (some bytes)) := by
  obtain ⟨actions, q, hq⟩ : ∃ actions q, Peer.perform .checked (.new ⟨.V4 0, 0⟩ shrinking_config 0 ⟨0, 0, 0⟩)
      (.process_event two_fragments) = .ok (actions, q) := ⟨_, _, rfl⟩
  have hrun : SessionRun .checked (.new ⟨.V4 0, 0⟩ shrinking_config 0 ⟨0, 0, 0⟩)
      [(.new ⟨.V4 0, 0⟩ shrinking_config 0 ⟨0, 0, 0⟩, ⟨.process_event two_fragments, actions, q⟩)] q :=
    .next .start ⟨hq, rfl⟩
  have hsteps : ∀ x ∈ [((.new ⟨.V4 0, 0⟩ shrinking_config 0 ⟨0, 0, 0⟩ : Peer),
      (⟨.process_event two_fragments, actions, q⟩ : Performed))], x.1.StepFits .checked x.2.op := by
    intro x hx
    rw [List.mem_singleton.1 hx]
    intro c hc
    rw [List.mem_singleton.1 hc]
    dsimp only
    decide
  have hne : q.commands ≠ [] := by
    cases hq
    decide
  refine ⟨_, q, hrun, hsteps, hne, ?_⟩
  exact queue_never_wedges Codecs.checked_total _ shrinking_config 0 _ (by unfold CapCarriesFragment; decide)
    (fun h => by cases h) hrun hsteps q (List.mem_append_right _ (List.mem_singleton_self q)) hne

/-- Discovery settles on forty bytes while a fragment of sixty waits, and
nothing can be sent any more. -/
theorem shrunk_path_wedges_queue :
    CapCarriesFragment shrinking_config ∧
      ∃ steps q, SessionRun .checked (.new ⟨.V4 0, 0⟩ shrinking_config 0 ⟨0, 0, 0⟩) steps q ∧ q.commands ≠ [] ∧
        q.encode_queued_commands_bounded .checked q.datagram_cap = (q, .ok none) := by
  obtain ⟨actions, p, hp⟩ : ∃ actions p, Peer.perform .checked (.new ⟨.V4 0, 0⟩ shrinking_config 0 ⟨0, 0, 0⟩)
      (.process_event two_fragments) = .ok (actions, p) := ⟨_, _, rfl⟩
  obtain ⟨sends, q, hq⟩ : ∃ sends q, Peer.perform .checked p (.update 0 0 ⟨0, fun _ => 0⟩) = .ok (sends, q) := ⟨_, _, rfl⟩
  have hrun : SessionRun .checked (.new ⟨.V4 0, 0⟩ shrinking_config 0 ⟨0, 0, 0⟩)
      [(.new ⟨.V4 0, 0⟩ shrinking_config 0 ⟨0, 0, 0⟩, ⟨.process_event two_fragments, actions, p⟩),
        (p, ⟨.update 0 0 ⟨0, fun _ => 0⟩, sends, q⟩)] q := .next (.next .start ⟨hp, rfl⟩) ⟨hq, rfl⟩
  refine ⟨by unfold CapCarriesFragment; decide, _, q, hrun, ?_, ?_⟩
  · cases hp
    cases hq
    decide
  · have hcount : q.selected_count q.datagram_cap = 0 := by
      cases hp
      cases hq
      decide
    rcases encode_bounded_cases .checked q q.datagram_cap with ⟨-, he⟩ | ⟨hk, -⟩
    · exact he
    · exact absurd hcount hk

end Peer

end Bitfold
