import Bitfold.Delivery
import Bitfold.Flush
/-!
# Transmission

A sender without a bandwidth limit flushes a queue of commands that all fit
its datagrams to the end (`flush_ready`), and a receiver of the same
configuration takes the datagrams in as the stream of those commands
(`receive_all_stream`).
-/

namespace Bitfold

open Lib CommandEncoder ProtocolCommand

namespace Peer

variable {codecs : Codecs} {p p' : Peer} {config : Config}

/-! ## The sender -/

/-- The datagram cap of a fresh peer. -/
def fresh_cap (config : Config) : Nat := min config.fragment_size.toNat config.receive_buffer_max_size

/-- Payload bytes of one command with this header in a fresh peer's datagram. -/
def budget (config : Config) (header : Nat) : Nat := fresh_cap config - static_overhead config - 2 - header

/-- A peer that has only sent: its configuration and cap are those it started
with, its sequence is 0. -/
structure Sender (config : Config) (p : Peer) : Prop where
  fragment_size : p.pmtu.fragment_size = config.fragment_size
  settings : p.config = config
  unlimited : p.bandwidth_throttle.outgoing_bandwidth_limit = 0
  sequence : p.acknowledge_handler.local_sequence_num = 0

theorem sender_new (addr : SocketAddr) (time : Instant) (draw : PeerDraw) (h : config.outgoing_bandwidth_limit = 0) :
    Sender config (.new addr config time draw) := by
  refine ⟨rfl, rfl, h, ?_⟩
  unfold Peer.new new_handler
  dsimp only
  split <;> rfl

theorem Sender.datagram_cap (h : Sender config p) : p.datagram_cap = fresh_cap config := by
  unfold Peer.datagram_cap current_fragment_size PmtuDiscovery.current_fragment_size fresh_cap
  rw [h.settings, h.fragment_size]

theorem Sender.payload_budget (h : Sender config p) (header : Nat) : p.payload_budget header = budget config header := by
  unfold Peer.payload_budget budget
  rw [h.datagram_cap, h.settings]

theorem Sender.can_send (h : Sender config p) : p.can_send_within_bandwidth = true := by
  simp [can_send_within_bandwidth, BandwidthThrottle.can_send_within_bandwidth, h.unlimited]

/-- Flushing leaves a sender a sender. -/
theorem Sender.flush_next (h : Sender config p) (codecs : Codecs) : Sender config (p.flush_next codecs).2 := by
  obtain ⟨n, q, st, he⟩ := encode_bounded_writes codecs p p.datagram_cap
  rw [flush_next_eq]
  unfold sent after_encode
  rw [he]
  split
  · split <;> exact ⟨h.fragment_size, h.settings, h.unlimited, h.sequence⟩
  · exact h

/-! ## A queue that can be sent -/

/-- Bytes of a command's frame. -/
def frame_len (c : ProtocolCommand) : Nat := 2 + (encode_command c).length

/-- Does the command take up more than half of a datagram's room? -/
def Bulky (config : Config) (c : ProtocolCommand) : Bool :=
  decide (fresh_cap config - static_overhead config < 2 * frame_len c)

/-- Every queued command fits a datagram, and few are so small that many of
them could. -/
structure Ready (config : Config) (p : Peer) : Prop extends Sender config p where
  balanced : Balanced p
  carried : ∀ c ∈ p.commands, Carried c
  fits : ∀ c ∈ p.commands, static_overhead config + frame_len c ≤ fresh_cap config
  small : p.commands.countP (fun c => !Bulky config c) ≤ 2

/-- At most one bulky command fits a datagram. -/
theorem countP_bulky_le {cmds : List ProtocolCommand}
    (h : static_overhead config + frames_len cmds ≤ fresh_cap config) : cmds.countP (Bulky config) ≤ 1 := by
  -- by room: n bulky commands take more than n halves of it
  have key : ∀ cmds : List ProtocolCommand,
      cmds.countP (Bulky config) * (fresh_cap config - static_overhead config + 1) ≤ 2 * frames_len cmds := by
    intro cmds
    induction cmds with
    | nil => simp
    | cons c cmds ih =>
      have hc : frames_len (c :: cmds) = frame_len c + frames_len cmds := by
        simp [frames_len, frame_len]
      rw [hc, List.countP_cons]
      split
      · rename_i hb
        have hb' := of_decide_eq_true hb
        rw [Nat.add_mul, Nat.one_mul]
        omega
      · rw [Nat.add_zero]
        omega
  by_contra hlt
  have h2 : 2 * (fresh_cap config - static_overhead config + 1) ≤
      cmds.countP (Bulky config) * (fresh_cap config - static_overhead config + 1) :=
    Nat.mul_le_mul_right _ (by omega)
  have := key cmds
  omega

theorem Ready.effective_max_size (h : Ready config p) : p.effective_max_size p.datagram_cap = fresh_cap config := by
  have hprobe : p.first_is_pmtu_probe = false := by
    unfold first_is_pmtu_probe
    split
    · rename_i hq
      have hm := h.carried _ (show _ ∈ p.commands by rw [commands, hq]; exact List.mem_cons_self)
      exact absurd hm id
    · rfl
  rw [Peer.effective_max_size, hprobe, if_neg (by decide), h.datagram_cap]

theorem Ready.selected (h : Ready config p) (hne : p.commands ≠ []) : p.selected_count p.datagram_cap ≠ 0 := by
  unfold selected_count
  rw [h.effective_max_size, h.settings]
  cases hq : p.command_queue.commands with
  | nil => exact absurd hq hne
  | cons c cmds =>
    have hf := h.fits c (show c ∈ p.commands by rw [commands, hq]; exact List.mem_cons_self)
    unfold frame_len at hf
    unfold select_count
    dsimp only
    rw [if_neg (by omega)]
    omega

/-- What a datagram takes can be written. -/
theorem Ready.writable (h : Ready config p) (hne : p.commands ≠ []) : Writable (p.taken p.datagram_cap) := by
  have hfit := taken_fits (h.selected hne)
  unfold Fits at hfit
  rw [h.effective_max_size, h.settings] at hfit
  have hsub : (p.taken p.datagram_cap).Sublist p.commands := List.take_sublist ..
  refine ⟨?_, fun c hc => ?_⟩
  · have hb := countP_bulky_le hfit
    have hs := (hsub.countP_le (p := fun c => !Bulky config c)).trans h.small
    have hlen := List.length_eq_countP_add_countP (Bulky config) (l := p.taken p.datagram_cap)
    simp only [Bool.not_eq_true, ← Bool.not_eq_true'] at hlen
    simp only [Bool.decide_eq_true] at hlen
    omega
  · have hf := h.fits c (hsub.subset hc)
    have hcap : fresh_cap config ≤ 65535 := by
      have := config.fragment_size.toNat_lt
      unfold fresh_cap
      omega
    unfold frame_len at hf
    omega

theorem fresh_cap_le (config : Config) : fresh_cap config ≤ 65535 := by
  have := config.fragment_size.toNat_lt
  unfold fresh_cap
  omega

/-- An empty datagram opens to nothing, not even to no commands. -/
theorem OpensTo.ne_nil {bytes : Bytes} {cmds : List ProtocolCommand} (h : OpensTo codecs config bytes cmds) :
    bytes ≠ [] := by
  rintro rfl
  unfold OpensTo open_datagram at h
  split at h <;> simp [Codecs.validate_and_strip_checksum, Codecs.decompress, Except.mapError, bind, Except.bind] at h

/-- One round: a datagram with the first commands, the others stay. -/
theorem Ready.flush_next (hc : codecs.Lossless) (ht : codecs.Total) (h : Ready config p) (hne : p.commands ≠ []) :
    ∃ bytes q, p.flush_next codecs = (some (.Send bytes), q) ∧
      OpensTo codecs config bytes (p.taken p.datagram_cap) ∧ q.commands = p.left p.datagram_cap ∧ Ready config q := by
  have hsel := h.selected hne
  have hcap : p.effective_max_size p.datagram_cap ≤ 0x7E000000 := by
    have := fresh_cap_le config
    rw [h.effective_max_size]
    omega
  obtain ⟨q, bytes, he⟩ := encode_bounded_total ht hsel (fun _ => hcap)
  obtain ⟨-, r, hr, hout⟩ := encode_bounded_some he
  have hopen : OpensTo codecs config bytes (p.taken p.datagram_cap) := by
    rw [← h.settings, ← hr]
    exact (opensTo_finish_packet_iff hc hout).2 (h.writable hne)
  have hflush : p.flush_next codecs = (some (.Send bytes), p.sent codecs bytes) := by
    have hgo : p.flushes = true := by
      simpa [flushes, has_queued_commands, h.can_send] using hne
    rw [flush_next_eq, if_pos hgo, he]
  have hleft : (p.sent codecs bytes).commands = p.left p.datagram_cap := by
    obtain ⟨st, hst⟩ := after_encode_of_selected codecs h.balanced hsel
    unfold sent
    rw [hst]
    rfl
  refine ⟨bytes, _, hflush, hopen, hleft, ?_⟩
  -- what was asked of the whole queue holds of the rest of it
  have hsub : (p.left p.datagram_cap).Sublist p.commands := List.drop_sublist ..
  have hs : Sender config (p.sent codecs bytes) := by
    have := h.toSender.flush_next codecs
    rwa [hflush] at this
  refine { hs with
    balanced := (h.balanced.after_encode _ p.datagram_cap).1.of_eq rfl rfl rfl
    carried := ?_
    fits := ?_
    small := ?_ }
  · rw [hleft]
    exact fun c hm => h.carried c (hsub.subset hm)
  · rw [hleft]
    exact fun c hm => h.fits c (hsub.subset hm)
  · rw [hleft]
    exact hsub.countP_le.trans h.small

/-- The datagrams among a session's actions. -/
def datagrams (actions : List Action) : List Bytes :=
  actions.filterMap fun
    | .Send bytes => some bytes
    | _ => none

theorem datagrams_append (xs ys : List Action) : datagrams (xs ++ ys) = datagrams xs ++ datagrams ys :=
  List.filterMap_append

/-- The datagrams open to groups that make up the commands. -/
def Transmits (codecs : Codecs) (config : Config) (bytes : List Bytes) (cmds : List ProtocolCommand) : Prop :=
  ∃ groups, List.Forall₂ (OpensTo codecs config) bytes groups ∧ groups.flatten = cmds

theorem Transmits.append {bs bs' : List Bytes} {cs cs' : List ProtocolCommand} (h : Transmits codecs config bs cs)
    (h' : Transmits codecs config bs' cs') : Transmits codecs config (bs ++ bs') (cs ++ cs') := by
  obtain ⟨gs, hf, rfl⟩ := h
  obtain ⟨gs', hf', rfl⟩ := h'
  exact ⟨gs ++ gs', List.rel_append hf hf', List.flatten_append⟩

theorem flush_next_of_empty (codecs : Codecs) (h : p.commands = []) : p.flush_next codecs = (none, p) := by
  have hgo : ¬ p.flushes = true := by
    simp [flushes, has_queued_commands, h]
  rw [flush_next_eq, if_neg hgo]

/-- A ready queue is sent to the end. -/
theorem Ready.flush (hc : codecs.Lossless) (ht : codecs.Total) (h : Ready config p) :
    Transmits codecs config (datagrams (p.flush codecs).1) p.commands ∧ (p.flush codecs).2.commands = [] ∧
      Ready config (p.flush codecs).2 := by
  have hd := drains_flush codecs p
  generalize (p.flush codecs).1 = sends at hd ⊢
  generalize (p.flush codecs).2 = q at hd ⊢
  induction hd with
  | @stop p q hs =>
    have hempty : p.commands = [] := by
      by_contra hne
      obtain ⟨bytes, r, hf, -⟩ := h.flush_next hc ht hne
      rw [hs] at hf
      cases hf
    have hq := flush_next_of_empty codecs hempty
    rw [hs] at hq
    cases hq
    exact ⟨⟨[], .nil, hempty.symm⟩, hempty, h⟩
  | @next p r q b bs hs _ ih =>
    have hne : p.commands ≠ [] := by
      intro hempty
      rw [flush_next_of_empty codecs hempty] at hs
      cases hs
    obtain ⟨bytes, r', hf, ho, hl, hr⟩ := h.flush_next hc ht hne
    rw [hs] at hf
    cases hf
    obtain ⟨⟨groups, hg, hfl⟩, hend, hready⟩ := ih hr
    refine ⟨⟨p.taken p.datagram_cap :: groups, .cons ho hg, ?_⟩, hend, hready⟩
    rw [List.flatten_cons, hfl, hl]
    exact p.taken_append_left p.datagram_cap

/-! ## The receiver -/

/-- The datagrams are handed to the receiver one after the other, each with
its time and draw. -/
def receive_all (codecs : Codecs) : Peer → List (Bytes × Instant × UInt16) → Outcome (List Action × Peer)
  | p, [] => .ok ([], p)
  | p, (bytes, time, draw) :: arrivals => do
    let (events, p) ← p.process_packet codecs bytes time draw
    let (more, p) ← receive_all codecs p arrivals
    return (events ++ more, p)

theorem receives_new (addr : SocketAddr) (time : Instant) (draw : PeerDraw) (h : config.incoming_bandwidth_limit = 0) :
    Receives config (.new addr config time draw) := ⟨rfl, h⟩

/-- What was transmitted is taken in as one stream. -/
theorem receive_all_stream {arrivals : List (Bytes × Instant × UInt16)} {cmds : List ProtocolCommand}
    (h : Receives config p) (ht : Transmits codecs config (arrivals.map Prod.fst) cmds)
    (hc : ∀ c ∈ cmds, Carried c) :
    ∃ events q, receive_all codecs p arrivals = .ok (events, q) ∧ Stream p (cmds.map owned) (emitted events) q := by
  obtain ⟨groups, hf, rfl⟩ := ht
  induction arrivals generalizing p groups with
  | nil =>
    cases hf
    exact ⟨[], p, rfl, .done (.refl p)⟩
  | cons a arrivals ih =>
    obtain ⟨bytes, time, draw⟩ := a
    cases hf with
    | @cons _ g _ groups ho hf =>
      rw [List.flatten_cons] at hc
      obtain ⟨events, q, hq, hs, hr⟩ := process_packet_stream h ho.ne_nil ho
        (fun c hm => hc c (List.mem_append_left _ hm)) time draw
      obtain ⟨more, r, hrest, hs'⟩ := ih hr groups hf fun c hm => hc c (List.mem_append_right _ hm)
      refine ⟨events ++ more, r, ?_, ?_⟩
      · rw [receive_all, hq]
        simp only [bind, Except.bind, hrest]
        rfl
      · rw [List.flatten_cons, List.map_append, emitted_append]
        exact hs.append hs'

end Peer

end Bitfold
