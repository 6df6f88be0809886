import Bitfold.Queue
/-!
# Datagrams

What a datagram of queued commands holds. `encode_bounded_cases` says all a
bounded encode can do: nothing, or seal the commands that fit and put the
rest back through the admission check. Whether the datagram opens to the
commands taken out is then a question of the format's limits: one byte for
the count, two for each length.
-/

namespace Bitfold

open Lib CommandEncoder CommandDecoder ProtocolCommand

namespace Peer

/-- `cmds` can be written: the count fits a byte, every length two. -/
def Writable (cmds : List ProtocolCommand) : Prop :=
  cmds.length ≤ 255 ∧ ∀ c ∈ cmds, (encode_command c).length ≤ 65535

/-- The format's limits are exactly what decoding needs. -/
theorem decode_encode_packet_iff (cmds : List ProtocolCommand) :
    decode_packet (encode_packet ⟨cmds⟩) = .ok ⟨cmds.map owned⟩ ↔ Writable cmds := by
  rw [decode_packet_eq_owned_iff]
  constructor
  · rintro ⟨n, frames, tail, hn, hf, -⟩
    refine ⟨by have := n.toNat_lt; omega, ?_⟩
    clear hn
    induction hf with
    | nil => simp
    | @cons c cs u v hu hv ih =>
      intro x hx
      rcases List.mem_cons.1 hx with rfl | hx
      · obtain ⟨len, enc, rest, hsp, -, hlen, -⟩ := hu
        have := len.toNat_lt
        rw [List.length_append, hsp.length_eq] at hlen
        omega
      · exact ih x hx
  · rintro ⟨hn, hl⟩
    exact datagram_encode_packet hn hl

theorem foldl_add_command (cmds : List ProtocolCommand) (packet : CommandPacket) :
    cmds.foldl CommandPacket.add_command packet = ⟨packet.commands ++ cmds⟩ := by
  induction cmds generalizing packet with
  | nil => simp
  | cons c cmds ih => rw [List.foldl_cons, ih]; simp [CommandPacket.add_command]

/-! ## Sealing a packet -/

/-- Bytes of the frames of `cmds`. -/
def frames_len (cmds : List ProtocolCommand) : Nat := (cmds.map fun c => 2 + (encode_command c).length).sum

theorem encode_packet_length (cmds : List ProtocolCommand) :
    (encode_packet ⟨cmds⟩).length = 1 + frames_len cmds := by
  rw [encode_packet_eq]
  simp only [frames_len, List.length_append, List.length_cons, List.length_nil, List.length_flatMap, frame,
    be16_length]

variable {codecs : Codecs}

/-- Sealing changes nothing but the statistics. -/
theorem finish_packet_writes (codecs : Codecs) (p : Peer) (packet : CommandPacket) :
    ∃ st, (p.finish_packet codecs packet).1 = { p with statistics := st } := by
  unfold finish_packet
  dsimp only
  split <;> exact ⟨_, rfl⟩

/-- The bytes of a sealed packet. -/
theorem finish_packet_ok {p : Peer} {packet : CommandPacket} {out : Bytes}
    (h : (p.finish_packet codecs packet).2 = .ok out) :
    ∃ data, codecs.compress_with_buffer (encode_packet packet) p.config.compression
        p.config.compression_threshold [] = .ok data ∧
      out = if p.config.use_checksums then codecs.append_checksum_in_place data else data := by
  unfold finish_packet at h
  simp only [encode_packet_into_eq, List.nil_append] at h
  split at h
  · cases h
  · rename_i data hd
    cases h
    exact ⟨data, hd, rfl⟩

/-- Sealing succeeds on whatever the compressors take. -/
theorem finish_packet_total (ht : codecs.Total) (p : Peer) (cmds : List ProtocolCommand)
    (h : p.config.compression = .Lz4 → 1 + frames_len cmds ≤ 0x7E000000) :
    ∃ out, (p.finish_packet codecs ⟨cmds⟩).2 = .ok out := by
  rw [← encode_packet_length] at h
  obtain ⟨data, hd⟩ := Codecs.compress_ok ht h p.config.compression_threshold []
  unfold finish_packet
  simp only [encode_packet_into_eq, List.nil_append, hd]
  exact ⟨_, rfl⟩

/-- A sealed packet opens to what was encoded. -/
theorem open_datagram_finish_packet (hc : codecs.Lossless) {p : Peer} {packet : CommandPacket} {out : Bytes}
    (h : (p.finish_packet codecs packet).2 = .ok out) :
    open_datagram codecs p.config out = decode_packet (encode_packet packet) := by
  obtain ⟨data, hd, rfl⟩ := finish_packet_ok h
  have hdec := Codecs.decompress_compress hc hd
  unfold open_datagram
  by_cases hs : p.config.use_checksums = true
  · simp only [hs, if_true, codecs.validate_append_checksum]
    simp [Except.mapError, hdec, bind, Except.bind]
  · simp [hs, Except.mapError, hdec, bind, Except.bind]

/-- A sealed packet keeps to the overhead that was reckoned for it. -/
theorem finish_packet_length {p : Peer} {cmds : List ProtocolCommand} {out : Bytes}
    (h : (p.finish_packet codecs ⟨cmds⟩).2 = .ok out) : out.length ≤ static_overhead p.config + frames_len cmds := by
  obtain ⟨data, hd, rfl⟩ := finish_packet_ok h
  have hlen := Codecs.compress_length hd
  rw [encode_packet_length] at hlen
  have hco : 1 ≤ compression_overhead p.config := by unfold compression_overhead; split <;> omega
  unfold static_overhead checksum_overhead
  split
  · simp only [Codecs.append_checksum_in_place, List.length_append, be32_length]
    omega
  · omega

/-! ## Selecting what fits -/

theorem select_count_le (s m agg : Nat) (cmds : List ProtocolCommand) : select_count s m agg cmds ≤ cmds.length := by
  induction cmds generalizing agg with
  | nil => simp [select_count]
  | cons c cmds ih =>
    unfold select_count
    dsimp only
    split
    · simp
    · have := ih (agg + (2 + (encode_command c).length))
      simp
      omega

/-- The commands selected fit the datagram. -/
theorem select_count_fits (s m agg : Nat) (cmds : List ProtocolCommand) (h : s + agg ≤ m) :
    s + agg + frames_len (cmds.take (select_count s m agg cmds)) ≤ m := by
  induction cmds generalizing agg with
  | nil => simpa [select_count, frames_len] using h
  | cons c cmds ih =>
    unfold select_count
    dsimp only
    split
    · simpa [frames_len] using h
    · rename_i hle
      have := ih (agg + (2 + (encode_command c).length)) (by omega)
      simp only [List.take_succ_cons, frames_len, List.map_cons, List.sum_cons] at this ⊢
      omega

/-- No longer prefix would fit. -/
theorem select_count_max (s m agg : Nat) {fit cmds : List ProtocolCommand} (hp : fit <+: cmds)
    (h : s + agg + frames_len fit ≤ m) : fit.length ≤ select_count s m agg cmds := by
  induction cmds generalizing agg fit with
  | nil => simp [List.prefix_nil.1 hp]
  | cons c cmds ih =>
    cases fit with
    | nil => simp
    | cons d fit =>
      obtain ⟨rfl, hp'⟩ := List.cons_prefix_cons.1 hp
      simp only [frames_len, List.map_cons, List.sum_cons] at h
      have := ih (agg + (2 + (encode_command d).length)) hp' (by unfold frames_len; omega)
      unfold select_count
      dsimp only
      rw [if_neg (by omega), List.length_cons]
      omega

/-- Do the commands fit one datagram of the given size? -/
def Fits (p : Peer) (max_size : Nat) (cmds : List ProtocolCommand) : Prop :=
  static_overhead p.config + frames_len cmds ≤ p.effective_max_size max_size

theorem effective_max_size_le (p : Peer) : p.effective_max_size p.datagram_cap ≤ p.config.receive_buffer_max_size := by
  unfold effective_max_size
  split
  · exact le_rfl
  · exact Nat.min_le_right _ _

/-- The commands the next datagram takes, and those it leaves. -/
def taken (p : Peer) (max_size : Nat) : List ProtocolCommand := p.commands.take (p.selected_count max_size)

def left (p : Peer) (max_size : Nat) : List ProtocolCommand := p.commands.drop (p.selected_count max_size)

theorem taken_append_left (p : Peer) (max_size : Nat) : p.taken max_size ++ p.left max_size = p.commands :=
  List.take_append_drop ..

theorem taken_ne_nil {p : Peer} {max_size : Nat} (h : p.selected_count max_size ≠ 0) : p.taken max_size ≠ [] := by
  intro ht
  have hle : p.selected_count max_size ≤ p.commands.length := select_count_le ..
  have hlen : (p.taken max_size).length = p.selected_count max_size := by
    rw [taken, List.length_take]; omega
  rw [ht] at hlen
  exact h hlen.symm

theorem taken_fits {p : Peer} {max_size : Nat} (h : p.selected_count max_size ≠ 0) :
    p.Fits max_size (p.taken max_size) := by
  by_cases hs : static_overhead p.config ≤ p.effective_max_size max_size
  · exact select_count_fits _ _ 0 _ hs
  · -- not even the first command was selected
    exfalso
    apply h
    unfold selected_count
    cases p.command_queue.commands with
    | nil => rfl
    | cons c cmds =>
      unfold select_count
      dsimp only
      rw [if_pos (by omega)]

/-- A prefix that fits is taken. -/
theorem Fits.prefix_taken {p : Peer} {max_size : Nat} {fit : List ProtocolCommand} (h : p.Fits max_size fit)
    (hp : fit <+: p.commands) : fit <+: p.taken max_size := by
  rw [taken, List.prefix_take_iff]
  exact ⟨hp, select_count_max _ _ 0 hp h⟩

/-! ## Putting the rest back -/

/-- The peer with its queue drained. -/
def drained (p : Peer) : Peer := p.drain_commands.2

@[simp] theorem drained_commands (p : Peer) : p.drained.commands = [] := rfl

@[simp] theorem drained_total (p : Peer) : p.drained.total_waiting_data = 0 := rfl

@[simp] theorem drained_config (p : Peer) : p.drained.config = p.config := rfl

/-! ## One bounded encode -/

/-- The peer after a datagram was taken out, before it is sealed. -/
def after_taking (p : Peer) (max_size : Nat) : Peer := p.drained.requeue (p.left max_size)

/-- All a bounded encode can do. The guard on the final size never acts. -/
theorem encode_bounded_cases (codecs : Codecs) (p : Peer) (max_size : Nat) :
    (p.selected_count max_size = 0 ∧ p.encode_queued_commands_bounded codecs max_size = (p, .ok none)) ∨
      (p.selected_count max_size ≠ 0 ∧
        p.encode_queued_commands_bounded codecs max_size =
          (((p.after_taking max_size).finish_packet codecs ⟨p.taken max_size⟩).1,
            ((p.after_taking max_size).finish_packet codecs ⟨p.taken max_size⟩).2.map some)) := by
  by_cases h : p.selected_count max_size = 0
  · refine .inl ⟨h, ?_⟩
    unfold encode_queued_commands_bounded
    split
    · rfl
    · dsimp only
      rw [if_pos h]
  · have hne : ¬ (!p.has_queued_commands) = true := by
      intro hc
      have he : p.command_queue.commands = [] := by simpa [has_queued_commands] using hc
      apply h
      rw [selected_count, he, select_count]
    refine .inr ⟨h, ?_⟩
    unfold encode_queued_commands_bounded
    rw [if_neg hne]
    dsimp only
    rw [if_neg h, foldl_add_command]
    rw [show CommandPacket.mk (CommandPacket.new.commands ++ List.take (p.selected_count max_size)
      p.drain_commands.1) = ⟨p.taken max_size⟩ from rfl]
    rw [show p.drain_commands.2.requeue (List.drop (p.selected_count max_size) p.drain_commands.1) =
      p.after_taking max_size from rfl]
    cases hf : (p.after_taking max_size).finish_packet codecs ⟨p.taken max_size⟩ with
    | mk q r =>
      cases r with
      | error e => rfl
      | ok out =>
        have hcfg : (p.after_taking max_size).config = p.config := by
          obtain ⟨n, q, he⟩ := requeue_writes p.drained (p.left max_size)
          rw [after_taking, he, drained_config]
        have hlen := finish_packet_length (p := p.after_taking max_size) (by rw [hf])
        rw [hcfg] at hlen
        have hfit := taken_fits h
        unfold Fits at hfit
        simp only [Except.map]
        rw [if_neg (by omega)]

/-- Encoding changes the queue, its counter and the statistics only. -/
theorem encode_bounded_writes (codecs : Codecs) (p : Peer) (max_size : Nat) :
    ∃ n q st, (p.encode_queued_commands_bounded codecs max_size).1 =
      { p with total_waiting_data := n, command_queue := q, statistics := st } := by
  rcases encode_bounded_cases codecs p max_size with ⟨-, he⟩ | ⟨-, he⟩
  · rw [he]
    exact ⟨_, _, _, rfl⟩
  · obtain ⟨st, hst⟩ := finish_packet_writes codecs (p.after_taking max_size) ⟨p.taken max_size⟩
    obtain ⟨n, q, hw⟩ := requeue_writes p.drained (p.left max_size)
    rw [he, hst, after_taking, hw]
    exact ⟨_, _, _, rfl⟩

/-- Once commands are selected, the queue is what the admission check let back
in of the others, whether or not the packet can be sealed. -/
theorem encode_bounded_kept (codecs : Codecs) {p : Peer} {max_size : Nat} (h : p.selected_count max_size ≠ 0) :
    ∃ kept, kept.Sublist (p.left max_size) ∧
      Queues p.drained (p.encode_queued_commands_bounded codecs max_size).1 kept := by
  rcases encode_bounded_cases codecs p max_size with ⟨h0, -⟩ | ⟨-, he⟩
  · exact absurd h0 h
  · obtain ⟨st, hst⟩ := finish_packet_writes codecs (p.after_taking max_size) ⟨p.taken max_size⟩
    obtain ⟨kept, hk, hq⟩ := requeue_queues p.drained (p.left max_size)
    refine ⟨kept, hk, ?_⟩
    rw [he, hst]
    exact ⟨hq.commands, hq.total, hq.limit, hq.admitted⟩

/-- A datagram comes out only of selected commands, sealed. -/
theorem encode_bounded_some {p p' : Peer} {max_size : Nat} {bytes : Bytes}
    (h : p.encode_queued_commands_bounded codecs max_size = (p', .ok (some bytes))) :
    p.selected_count max_size ≠ 0 ∧
      ∃ q : Peer, q.config = p.config ∧ (q.finish_packet codecs ⟨p.taken max_size⟩).2 = .ok bytes := by
  rcases encode_bounded_cases codecs p max_size with ⟨-, he⟩ | ⟨hk, he⟩
  · rw [he] at h
    cases h
  · rw [he] at h
    refine ⟨hk, p.after_taking max_size, ?_, ?_⟩
    · obtain ⟨n, q, hw⟩ := requeue_writes p.drained (p.left max_size)
      rw [after_taking, hw, drained_config]
    · have hb := (Prod.mk.inj h).2
      cases hr : ((p.after_taking max_size).finish_packet codecs ⟨p.taken max_size⟩).2 with
      | error e => rw [hr] at hb; cases hb
      | ok out => rw [hr] at hb; cases hb; rfl

/-- With commands selected, a datagram does come out. -/
theorem encode_bounded_total (ht : codecs.Total) {p : Peer} {max_size : Nat} (h : p.selected_count max_size ≠ 0)
    (hm : p.config.compression = .Lz4 → p.effective_max_size max_size ≤ 0x7E000000) :
    ∃ p' bytes, p.encode_queued_commands_bounded codecs max_size = (p', .ok (some bytes)) := by
  rcases encode_bounded_cases codecs p max_size with ⟨h0, -⟩ | ⟨-, he⟩
  · exact absurd h0 h
  · have hfit := taken_fits h
    have hconfig : (p.after_taking max_size).config = p.config := by
      obtain ⟨n, q, hw⟩ := requeue_writes p.drained (p.left max_size)
      rw [after_taking, hw, drained_config]
    unfold Fits static_overhead at hfit
    rw [← hconfig] at hm
    obtain ⟨out, ho⟩ := finish_packet_total ht (p.after_taking max_size) (p.taken max_size) fun hl => by
      have := hm hl
      omega
    rw [he, ho]
    exact ⟨_, _, rfl⟩

theorem encode_queued_commands_eq (codecs : Codecs) (p : Peer) :
    p.encode_queued_commands codecs = p.drained.finish_packet codecs ⟨p.commands⟩ := by
  have h : p.commands.foldl CommandPacket.add_command .new = ⟨p.commands⟩ := foldl_add_command _ _
  rw [← h]
  rfl

/-! ## What a datagram opens to -/

/-- The datagram `bytes`, sent by a peer with this configuration, opens to
`cmds`, up to the views of their payloads. -/
def OpensTo (codecs : Codecs) (config : Config) (bytes : Bytes) (cmds : List ProtocolCommand) : Prop :=
  open_datagram codecs config bytes = .ok ⟨cmds.map owned⟩

/-- Going from `p` to `p'` took out of the front of the queue exactly what the
datagram `bytes` opens to. -/
def Carries (codecs : Codecs) (p p' : Peer) (bytes : Bytes) : Prop :=
  ∃ removed, p.commands = removed ++ p'.commands ∧ OpensTo codecs p.config bytes removed

/-- A sealed packet opens to its commands iff they can be written. -/
theorem opensTo_finish_packet_iff (hc : codecs.Lossless) {p : Peer} {cmds : List ProtocolCommand} {out : Bytes}
    (h : (p.finish_packet codecs ⟨cmds⟩).2 = .ok out) : OpensTo codecs p.config out cmds ↔ Writable cmds := by
  rw [OpensTo, open_datagram_finish_packet hc h, decode_encode_packet_iff]

/-- The count byte of a sealed packet is read back modulo 256. -/
theorem opensTo_finish_packet_length (hc : codecs.Lossless) {p : Peer} {cmds cmds' : List ProtocolCommand}
    {out : Bytes} (h : (p.finish_packet codecs ⟨cmds⟩).2 = .ok out) (ho : OpensTo codecs p.config out cmds') :
    cmds'.length = cmds.length % 256 := by
  rw [OpensTo, open_datagram_finish_packet hc h, decode_packet_eq_owned_iff, encode_packet_eq] at ho
  obtain ⟨n, frames, tail, hn, -, hb⟩ := ho
  simp only [List.cons_append, List.nil_append, List.cons.injEq] at hb
  rw [← hn, ← hb.1, UInt8.toNat_ofNat']

/-- Every prefix of the queue that fits the datagram can be written. -/
def FormatHolds (p : Peer) (max_size : Nat) : Prop :=
  ∀ fit, fit <+: p.commands → p.Fits max_size fit → Writable fit

/-- Behind some prefix of the queue that fits the datagram, the waiting data
is within its limit. -/
def RestAdmitted (p : Peer) (max_size : Nat) : Prop :=
  p.config.max_waiting_data = 0 ∨
    ∃ fit rest, p.commands = fit ++ rest ∧ p.Fits max_size fit ∧ waiting rest ≤ p.config.max_waiting_data

theorem formatHolds_iff {p : Peer} {max_size : Nat} (h : p.selected_count max_size ≠ 0) :
    p.FormatHolds max_size ↔ Writable (p.taken max_size) := by
  constructor
  · intro hf
    exact hf _ (List.take_prefix ..) (taken_fits h)
  · rintro ⟨hn, hl⟩ fit hp hfit
    have hpre := hfit.prefix_taken hp
    exact ⟨hpre.length_le.trans hn, fun c hc => hl c (hpre.subset hc)⟩

theorem restAdmitted_iff {p : Peer} {max_size : Nat} (h : p.selected_count max_size ≠ 0) :
    p.RestAdmitted max_size ↔ p.drained.Admits (waiting (p.left max_size)) := by
  unfold RestAdmitted Admits
  rw [drained_config, drained_total, Nat.zero_add]
  refine or_congr_right ⟨?_, fun hw => ⟨_, _, (p.taken_append_left max_size).symm, taken_fits h, hw⟩⟩
  rintro ⟨fit, rest, hc, hfit, hw⟩
  -- the longest prefix leaves least behind
  obtain ⟨more, hmore⟩ := hfit.prefix_taken ⟨rest, hc.symm⟩
  have hsplit := (p.taken_append_left max_size).trans hc
  rw [← hmore, List.append_assoc, List.append_cancel_left_eq] at hsplit
  rw [← hsplit, waiting_append] at hw
  omega

/-- A datagram holds what was taken out of the queue iff the commands that fit
it can be written (at most 255, none longer than 65535 bytes) and the rest
passes the admission check again. -/
theorem datagram_carries_iff (hc : codecs.Lossless) (p : Peer) :
    (∀ max_size p' bytes, p.encode_queued_commands_bounded codecs max_size = (p', .ok (some bytes)) →
      (Carries codecs p p' bytes ↔ p.FormatHolds max_size ∧ p.RestAdmitted max_size)) ∧
      ∀ p' bytes, p.encode_queued_commands codecs = (p', .ok bytes) →
        (Carries codecs p p' bytes ↔ Writable p.commands) := by
  constructor
  · intro max_size p' bytes h
    obtain ⟨hk, q, hcfg, hout⟩ := encode_bounded_some h
    rw [formatHolds_iff hk, restAdmitted_iff hk]
    obtain ⟨kept, hkept, hq⟩ := encode_bounded_kept codecs hk
    rw [h] at hq
    have hp' : p'.commands = kept := hq.commands
    have hsplit := p.taken_append_left max_size
    constructor
    · rintro ⟨removed, hr, ho⟩
      rw [← hcfg] at ho
      have hlen := opensTo_finish_packet_length hc hout ho
      -- at least what was taken is gone, at most that many come out again
      have hge : (p.taken max_size).length ≤ removed.length := by
        have h1 := congrArg List.length (hr.symm.trans hsplit.symm)
        rw [hp', List.length_append, List.length_append] at h1
        have := hkept.length_le
        omega
      have heq : removed = p.taken max_size ∧ kept = p.left max_size := by
        apply List.append_inj (by rw [← hp', ← hr, hsplit])
        have := Nat.mod_le (p.taken max_size).length 256
        omega
      obtain ⟨rfl, rfl⟩ := heq
      refine ⟨(opensTo_finish_packet_iff hc hout).1 ho, ?_⟩
      have ha := hq.admitted
      rw [hq.total, drained_total] at ha
      unfold Admits
      rw [drained_total]
      omega
    · rintro ⟨hw, ha⟩
      refine ⟨p.taken max_size, ?_, hcfg ▸ (opensTo_finish_packet_iff hc hout).2 hw⟩
      rcases encode_bounded_cases codecs p max_size with ⟨-, he⟩ | ⟨-, he⟩
      · rw [he] at h
        cases h
      · obtain ⟨st, hst⟩ := finish_packet_writes codecs (p.after_taking max_size) ⟨p.taken max_size⟩
        have hc' : p'.commands = p.left max_size := by
          rw [h] at he
          rw [(Prod.mk.inj he).1, hst, after_taking, requeue_of_admits ha]
          rfl
        rw [hc', hsplit]
  · intro p' bytes h
    rw [encode_queued_commands_eq] at h
    have hout : (p.drained.finish_packet codecs ⟨p.commands⟩).2 = .ok bytes := by rw [h]
    obtain ⟨st, hst⟩ := finish_packet_writes codecs p.drained ⟨p.commands⟩
    have hp' : p'.commands = [] := by
      rw [h] at hst
      rw [show p' = _ from hst]
      rfl
    constructor
    · rintro ⟨removed, hr, ho⟩
      rw [hp', List.append_nil] at hr
      rw [← hr] at ho
      exact (opensTo_finish_packet_iff hc hout).1 ho
    · intro hw
      exact ⟨p.commands, by rw [hp', List.append_nil], (opensTo_finish_packet_iff hc hout).2 hw⟩

/-- A peer with a large datagram cap. -/
def large_cap : Config :=
  { Config.default with
    fragment_size := 2000, receive_buffer_max_size := 2000, use_checksums := false }

/-- A fresh peer with `n` pings queued. -/
def pinging (n : Nat) : Peer :=
  (Peer.new ⟨.V4 0, 0⟩ large_cap 0 ⟨0, 0, 0⟩).queued (List.replicate n (.Ping 0))

/-- Two pings in one datagram. -/
theorem datagram_carries_two :
    ∃ p' bytes, (pinging 2).encode_queued_commands_bounded .checked 2000 = (p', .ok (some bytes)) ∧
      (Carries .checked (pinging 2) p' bytes ↔ (pinging 2).FormatHolds 2000 ∧ (pinging 2).RestAdmitted 2000) :=
  ⟨_, _, rfl, (datagram_carries_iff Codecs.checked_lossless (pinging 2)).1 2000 _ _ rfl⟩

theorem pinging_commands (n : Nat) : (pinging n).commands = List.replicate n (.Ping 0) := rfl

theorem pinging_selected : (pinging 256).selected_count 2000 = 256 := by decide +kernel

/-- 256 pings in one datagram: its count byte is zero. -/
theorem datagram_loses_256 :
    ∃ p' bytes, (pinging 256).encode_queued_commands_bounded .checked 2000 = (p', .ok (some bytes)) ∧
      ¬ Carries .checked (pinging 256) p' bytes := by
  have hk : (pinging 256).selected_count 2000 ≠ 0 := by rw [pinging_selected]; decide
  obtain ⟨p', bytes, h⟩ := encode_bounded_total Codecs.checked_total hk (fun _ => by decide)
  refine ⟨p', bytes, h, ?_⟩
  rintro ⟨removed, hr, ho⟩
  obtain ⟨-, q, hcfg, hout⟩ := encode_bounded_some h
  have hlen : ((pinging 256).taken 2000).length = 256 := by
    rw [taken, pinging_selected, pinging_commands, List.length_take, List.length_replicate, Nat.min_self]
  -- nothing comes out, but the whole queue went in
  rw [← hcfg] at ho
  have h0 := opensTo_finish_packet_length Codecs.checked_lossless hout ho
  rw [hlen] at h0
  rw [List.eq_nil_of_length_eq_zero h0, List.nil_append] at hr
  obtain ⟨kept, hkept, hq⟩ := encode_bounded_kept .checked hk
  rw [h] at hq
  have hleft : ((pinging 256).left 2000).length = 0 := by
    rw [left, pinging_selected, pinging_commands, List.length_drop, List.length_replicate]
  have hc := hq.commands
  rw [← hr] at hc
  have hc' := congrArg List.length hc
  rw [drained_commands, List.nil_append] at hc'
  have := hkept.length_le
  have h256 : (pinging 256).commands.length = 256 := by rw [pinging_commands, List.length_replicate]
  omega

end Peer

end Bitfold
