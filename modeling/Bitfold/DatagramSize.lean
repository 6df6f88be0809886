import Bitfold.HeadOfQueue
/-!
# The size of a datagram

What fits is reckoned command by command, before compression. A datagram is
never larger than that, whatever the compressors make of it, so the check of
the finished datagram never fails. The limit itself is raised for a probe at
the head of the queue, and it is raised for all that goes with the probe.
-/

namespace Bitfold

open Lib CommandEncoder

namespace Peer

variable {codecs : Codecs} {p : Peer} {max_size : Nat}

/-- What is taken keeps to the limit when it is sealed. -/
theorem sealed_le_limit {q : Peer} {out : Bytes} (hk : p.selected_count max_size ≠ 0) (hconfig : q.config = p.config)
    (h : (q.finish_packet codecs ⟨p.taken max_size⟩).2 = .ok out) : out.length ≤ p.effective_max_size max_size := by
  have hlen := finish_packet_length h
  rw [hconfig] at hlen
  exact hlen.trans (taken_fits hk)

/-- A datagram keeps to its limit, its last check never fails, and a call that
yields nothing changes nothing. -/
theorem encode_bounded_size (codecs : Codecs) (p : Peer) (max_size : Nat) :
    (∀ p' bytes, p.encode_queued_commands_bounded codecs max_size = (p', .ok (some bytes)) →
      bytes.length ≤ if p.first_is_pmtu_probe then p.config.receive_buffer_max_size else max_size) ∧
    (∀ p' final_data, p.selected_count max_size ≠ 0 →
      (p.after_taking max_size).finish_packet codecs ⟨p.taken max_size⟩ = (p', .ok final_data) →
      ¬ final_data.length > p.effective_max_size max_size) ∧
    ∀ p', p.encode_queued_commands_bounded codecs max_size = (p', .ok none) →
      p'.command_queue = p.command_queue ∧ p'.total_waiting_data = p.total_waiting_data ∧
        p'.statistics = p.statistics := by
  refine ⟨fun p' bytes he => ?_, fun p' out hk hf => ?_, fun p' he => ?_⟩
  · obtain ⟨hk, q, hconfig, hout⟩ := encode_bounded_some he
    exact sealed_le_limit hk hconfig hout
  · obtain ⟨n, q, hw⟩ := requeue_writes p.drained (p.left max_size)
    have hconfig : (p.after_taking max_size).config = p.config := by
      rw [after_taking, hw, drained_config]
    exact Nat.not_lt.2 (sealed_le_limit hk hconfig (by rw [hf]))
  · rcases encode_bounded_cases codecs p max_size with ⟨-, hnothing⟩ | ⟨-, hsome⟩
    · rw [hnothing] at he
      cases he
      exact ⟨rfl, rfl, rfl⟩
    · -- with commands selected there is a datagram or an error
      rw [hsome] at he
      cases hr : ((p.after_taking max_size).finish_packet codecs ⟨p.taken max_size⟩).2 with
      | error e =>
        rw [hr] at he
        cases he
      | ok out =>
        rw [hr] at he
        cases he

/-! ## Riding along with a probe -/

/-- The bytes that a packet with these commands is sealed to. -/
def sealed (codecs : Codecs) (config : Config) (cmds : List ProtocolCommand) : Except IoError Bytes := do
  let data ← codecs.compress_with_buffer (encode_packet ⟨cmds⟩) config.compression config.compression_threshold []
  return if config.use_checksums then codecs.append_checksum_in_place data else data

theorem finish_packet_sealed (codecs : Codecs) (p : Peer) (cmds : List ProtocolCommand) :
    (p.finish_packet codecs ⟨cmds⟩).2 = sealed codecs p.config cmds := by
  unfold finish_packet sealed
  simp only [encode_packet_into_eq, List.nil_append]
  cases codecs.compress_with_buffer (encode_packet ⟨cmds⟩) p.config.compression p.config.compression_threshold [] with
  | error e => rfl
  | ok data => rfl

/-- A datagram is the commands taken, sealed. -/
theorem encode_bounded_some_iff {bytes : Bytes} :
    (∃ p', p.encode_queued_commands_bounded codecs max_size = (p', .ok (some bytes))) ↔
      p.taken max_size ≠ [] ∧ sealed codecs p.config (p.taken max_size) = .ok bytes := by
  have hconfig : (p.after_taking max_size).config = p.config := by
    obtain ⟨n, q, hw⟩ := requeue_writes p.drained (p.left max_size)
    rw [after_taking, hw, drained_config]
  constructor
  · rintro ⟨p', he⟩
    obtain ⟨hk, q, hq, hout⟩ := encode_bounded_some he
    rw [finish_packet_sealed, hq] at hout
    exact ⟨taken_ne_nil hk, hout⟩
  · rintro ⟨hne, hs⟩
    rcases encode_bounded_cases codecs p max_size with ⟨h0, -⟩ | ⟨-, he⟩
    · rw [taken, h0] at hne
      exact absurd List.take_zero hne
    · rw [he, finish_packet_sealed, hconfig, hs]
      exact ⟨_, rfl⟩

/-- Commands that fit, of which no more would, are those taken. -/
theorem taken_eq {load rest : List ProtocolCommand} (hq : p.commands = load ++ rest) (hfits : p.Fits max_size load)
    (hmore : ∀ c ∈ rest.head?, ¬ p.Fits max_size (load ++ [c])) : p.taken max_size = load := by
  obtain ⟨more, hmore'⟩ := hfits.prefix_taken ⟨rest, hq.symm⟩
  cases more with
  | nil => rw [← hmore', List.append_nil]
  | cons c more =>
    exfalso
    have hsplit := p.taken_append_left max_size
    rw [← hmore', hq, List.append_assoc, List.append_cancel_left_eq] at hsplit
    have hhead : rest.head? = some c := by
      rw [← hsplit]
      rfl
    have htaken : p.Fits max_size (p.taken max_size) := by
      apply taken_fits
      intro h0
      rw [taken, h0, List.take_zero] at hmore'
      exact absurd hmore' (by simp)
    apply hmore c hhead
    rw [← hmore'] at htaken
    unfold Fits at htaken ⊢
    refine le_trans ?_ htaken
    simp only [frames_len, List.map_append, List.sum_append, List.map_cons, List.sum_cons, List.map_nil, List.sum_nil]
    omega

/-- A datagram that is larger than asked for is a probe and nothing else. -/
def OnlyProbesExceed (codecs : Codecs) (p : Peer) (max_size : Nat) : Prop :=
  ∀ p' bytes, p.encode_queued_commands_bounded codecs max_size = (p', .ok (some bytes)) → max_size < bytes.length →
    ∃ size token payload, p.taken max_size = [.PMTUProbe size token payload]

/-- At the head of the queue is a probe, the next command fits the receive
buffer beside it, and sealed with all that fits there it is too large. -/
structure Overloaded (codecs : Codecs) (p : Peer) (max_size : Nat) (probe next : ProtocolCommand)
    (load rest : List ProtocolCommand) : Prop where
  queue : p.commands = (probe :: next :: load) ++ rest
  head : is_pmtu_probe probe = true
  fits : static_overhead p.config + frames_len (probe :: next :: load) ≤ p.config.receive_buffer_max_size
  full : ∀ c ∈ rest.head?,
    p.config.receive_buffer_max_size < static_overhead p.config + frames_len (probe :: next :: load ++ [c])
  large : ∃ bytes, sealed codecs p.config (probe :: next :: load) = .ok bytes ∧ max_size < bytes.length

theorem effective_max_size_cons {c : ProtocolCommand} {cmds : List ProtocolCommand} (hq : p.commands = c :: cmds) :
    p.effective_max_size max_size = if is_pmtu_probe c then p.config.receive_buffer_max_size else max_size := by
  unfold effective_max_size first_is_pmtu_probe
  rw [show p.command_queue.commands = c :: cmds from hq]
  cases c <;> rfl

/-- Anything else is sent in a datagram above the limit exactly if it rides
along with a probe. -/
theorem only_probes_exceed_iff (codecs : Codecs) (p : Peer) (max_size : Nat) :
    OnlyProbesExceed codecs p max_size ↔ ¬ ∃ probe next load rest, Overloaded codecs p max_size probe next load rest := by
  constructor
  · rintro hon ⟨probe, next, load, rest, h⟩
    have hlimit : p.effective_max_size max_size = p.config.receive_buffer_max_size := by
      rw [effective_max_size_cons h.queue, if_pos h.head]
    have htaken : p.taken max_size = probe :: next :: load := by
      refine taken_eq h.queue ?_ fun c hc => ?_
      · rw [Fits, hlimit]
        exact h.fits
      · rw [Fits, hlimit]
        exact Nat.not_le.2 (h.full c hc)
    obtain ⟨bytes, hs, hlarge⟩ := h.large
    rw [← htaken] at hs
    obtain ⟨p', he⟩ := encode_bounded_some_iff.2 ⟨by rw [htaken]; simp, hs⟩
    obtain ⟨size, token, payload, hone⟩ := hon p' bytes he hlarge
    rw [htaken] at hone
    cases hone
  · intro hnot p' bytes he hlarge
    obtain ⟨hne, hs⟩ := encode_bounded_some_iff.1 ⟨p', he⟩
    have hlimit : bytes.length ≤ p.effective_max_size max_size := by
      obtain ⟨hk, q, hconfig, hout⟩ := encode_bounded_some he
      exact sealed_le_limit hk hconfig hout
    have hfits : p.Fits max_size (p.taken max_size) := by
      refine taken_fits fun h0 => hne ?_
      rw [taken, h0, List.take_zero]
    have hsplit := p.taken_append_left max_size
    obtain ⟨probe, more, hmore⟩ := List.exists_cons_of_ne_nil hne
    rw [hmore] at hsplit hs hfits
    have hraised : p.effective_max_size max_size = _ := effective_max_size_cons hsplit.symm
    by_cases hprobe : is_pmtu_probe probe = true
    · rw [if_pos hprobe] at hraised
      cases more with
      | nil =>
        rw [hmore]
        cases probe with
        | PMTUProbe size token payload => exact ⟨size, token, payload, rfl⟩
        | _ => cases hprobe
      | cons next load =>
        refine absurd ⟨probe, next, load, p.left max_size, hsplit.symm, hprobe, ?_, fun c hc => ?_, bytes, hs, hlarge⟩ hnot
        · rw [← hraised]
          exact hfits
        · -- one more command would have been taken
          rw [← hraised]
          apply Nat.not_le.1
          intro hle
          obtain ⟨left, hleft⟩ : ∃ left, p.left max_size = c :: left := List.head?_eq_some_iff.1 hc
          have hp : probe :: next :: load ++ [c] <+: p.commands := by
            refine ⟨left, ?_⟩
            rw [List.append_assoc, List.singleton_append, ← hleft]
            exact hsplit
          have hlen := (Fits.prefix_taken hle hp).length_le
          rw [hmore] at hlen
          simp at hlen
    · rw [if_neg hprobe] at hraised
      omega

/-- A probe was queued, and three bytes of data behind it. -/
def probe_then_data : Peer :=
  (((Peer.new ⟨.V4 0, 0⟩ Config.default 0 ⟨0, 0, 0⟩).enqueue_command (.PMTUProbe 988 7 (.from_vec [0]))).2.enqueue_command
    (.SendReliable 0 0 true (.from_vec [1, 2, 3]))).2

/-- The data goes out in a datagram of 30 bytes where 24 were allowed. -/
theorem data_exceeds_with_probe : ¬ OnlyProbesExceed .checked probe_then_data 24 := by
  intro h
  have htaken : probe_then_data.taken 24 =
      [.PMTUProbe 988 7 (.from_vec [0]), .SendReliable 0 0 true (.from_vec [1, 2, 3])] := by decide +kernel
  obtain ⟨bytes, hbytes, hlarge⟩ : ∃ bytes, sealed .checked probe_then_data.config (probe_then_data.taken 24) = .ok bytes ∧
      24 < bytes.length := ⟨_, rfl, by decide +kernel⟩
  obtain ⟨p', he⟩ := encode_bounded_some_iff.2 ⟨by rw [htaken]; simp, hbytes⟩
  obtain ⟨size, token, payload, hone⟩ := h p' bytes he hlarge
  rw [htaken] at hone
  cases hone

/-! ## The size of a probe -/

/-- The size that a probe advertises is one the receive buffer holds. -/
theorem handle_pmtu_size_le {d d' : PmtuDiscovery} {t : Instant} {rto : Duration} {draw : ProbeDraw} {size : UInt16}
    {token : UInt32} {payload : SharedBytes}
    (h : d.handle_pmtu t rto draw = (some (.PMTUProbe size token payload), d')) :
    size.toNat ≤ min d.config.receive_buffer_max_size 65535 := by
  have hturns := d.turns t rto draw
  rw [h] at hturns
  cases hturns with
  | probes _ _ hwide _ _ =>
    have hclamp := d.clamp_high_high
    rw [PmtuDiscovery.middle_toNat, PmtuDiscovery.clamp_high_low]
    omega

/-- Without compression every byte of overhead is spent. -/
theorem sealed_length_of_none {config : Config} {cmds : List ProtocolCommand} {out : Bytes}
    (hnone : config.compression = .None) (h : sealed codecs config cmds = .ok out) :
    out.length = static_overhead config + frames_len cmds := by
  have hstored : codecs.compress_with_buffer (encode_packet ⟨cmds⟩) config.compression config.compression_threshold [] =
      .ok (Codecs.stored (encode_packet ⟨cmds⟩)) := by
    rw [hnone]
    unfold Codecs.compress_with_buffer
    split <;> rfl
  have hone : compression_overhead config = 1 := by
    unfold compression_overhead
    rw [hnone]
  have hlen : (Codecs.stored (encode_packet ⟨cmds⟩)).length = 2 + frames_len cmds := by
    rw [Codecs.stored, List.length_cons, encode_packet_length]
    omega
  unfold sealed at h
  rw [hstored] at h
  cases h
  unfold static_overhead checksum_overhead
  rw [hone]
  split
  · rw [Codecs.append_checksum_in_place, List.length_append, hlen, be32_length]
    omega
  · rw [hlen]

/-- A probe with room for a payload is sent alone, whatever the limit, in a
datagram that is no larger than it says and, without compression, exactly as
large. -/
theorem probe_size_truthful (ht : codecs.Total) {d d' : PmtuDiscovery} {t : Instant} {rto : Duration} {draw : ProbeDraw}
    {size : UInt16} {token : UInt32} {payload : SharedBytes}
    (h : d.handle_pmtu t rto draw = (some (.PMTUProbe size token payload), d'))
    (hsize : PmtuDiscovery.probe_overhead d.config < size)
    (hsettings : ∃ a b, p.config = { d.config with incoming_bandwidth_limit := a, outgoing_bandwidth_limit := b })
    (halone : p.commands = [.PMTUProbe size token payload]) (max_size : Nat) :
    ∃ p' bytes, p.encode_queued_commands_bounded codecs max_size = (p', .ok (some bytes)) ∧
      bytes.length ≤ size.toNat ∧ (d.config.compression = .None → bytes.length = size.toNat) := by
  obtain ⟨a, b, hc⟩ := hsettings
  have hcompression : p.config.compression = d.config.compression := by rw [hc]
  have hframe : static_overhead p.config + frames_len [.PMTUProbe size token payload] = size.toNat := by
    have hoverhead : static_overhead p.config = static_overhead d.config := by
      rw [hc]
      rfl
    have hframes : frames_len [.PMTUProbe size token payload] = frame_len (.PMTUProbe size token payload) :=
      List.sum_singleton
    rw [hoverhead, hframes, frame_len_probe, PmtuDiscovery.handle_pmtu_payload h,
      ← PmtuDiscovery.payload_len_of_lt hsize]
    omega
  have hbuffer := handle_pmtu_size_le h
  have htaken : p.taken max_size = [.PMTUProbe size token payload] := by
    have hqueue : p.commands = [.PMTUProbe size token payload] ++ [] := halone
    refine taken_eq hqueue ?_ (by simp)
    unfold Fits
    rw [hframe, effective_max_size_cons halone, hc]
    exact hbuffer.trans (Nat.min_le_left _ _)
  have hsmall : p.config.compression = .Lz4 → 1 + frames_len [.PMTUProbe size token payload] ≤ 0x7E000000 := by
    intro _
    omega
  obtain ⟨out, hout⟩ := finish_packet_total ht p _ hsmall
  have hle := finish_packet_length hout
  rw [finish_packet_sealed] at hout
  obtain ⟨p', he⟩ := encode_bounded_some_iff.2 ⟨by rw [htaken]; simp, htaken.symm ▸ hout⟩
  refine ⟨p', out, he, hframe ▸ hle, fun hnone => ?_⟩
  rw [sealed_length_of_none (hcompression.trans hnone) hout, hframe]

/-- A search between 40 and 80 bytes. -/
def short_path : Config := { Config.default with pmtu_min := 40, pmtu_max := 80, pmtu_converge_threshold := 8 }

/-- Its first probe, of 60 bytes. -/
def sixty : ProtocolCommand := .PMTUProbe 60 7 (.from_vec (List.replicate 43 0))

/-- It goes out in 60 bytes where 24 were asked for. -/
theorem probe_of_sixty : ∃ p' bytes,
    ((Peer.new ⟨.V4 0, 0⟩ short_path 0 ⟨0, 0, 0⟩).enqueue_command sixty).2.encode_queued_commands_bounded .checked 24 =
      (p', .ok (some bytes)) ∧
      bytes.length ≤ 60 ∧ (short_path.compression = .None → bytes.length = 60) := by
  have h : (PmtuDiscovery.new short_path 0).handle_pmtu 10000000000 0 ⟨7, fun _ => 0⟩ =
      (some sixty, (PmtuDiscovery.new short_path 0).probing 7 10000000000) := by decide +kernel
  exact probe_size_truthful Codecs.checked_total h (by decide) ⟨_, _, rfl⟩ rfl 24

end Peer

end Bitfold
