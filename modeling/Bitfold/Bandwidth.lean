import Bitfold.Establishing
import Bitfold.Polling
/-!
# Bandwidth

A session looks at its counters before it sends or takes a datagram and charges
the datagram to them afterwards, so a window goes over its limit by less than
one datagram. All that sends, and a reset of the window, is in `update` and
`process_event`; all that takes in, and a reset, is in `process_packet`.
-/

namespace Bitfold

open Lib

/-! ## A counter -/

/-- `total` bytes were charged to a counter that is looked at before each of
them, at most `size` at a time. -/
structure Charged (limit counter : UInt32) (size total : Nat) : Prop where
  counter : counter.toNat = min total (2 ^ 32 - 1)
  bound : 0 < limit → total < limit.toNat + size

theorem charged_zero (limit : UInt32) (size : Nat) : Charged limit 0 size 0 := by
  refine ⟨rfl, fun h => ?_⟩
  have hpos : 0 < limit.toNat := h
  omega

theorem saturating_add32_toNat (x y : UInt32) : (saturating_add32 x y).toNat = min (x.toNat + y.toNat) (2 ^ 32 - 1) := by
  unfold saturating_add32
  split
  · rename_i h
    rw [UInt32.toNat_add, Nat.mod_eq_of_lt h]
    omega
  · have hmax : (0xFFFFFFFF : UInt32).toNat = 2 ^ 32 - 1 := rfl
    rw [hmax]
    omega

/-- Below the limit the counter is not saturated, so it knows the total. -/
theorem Charged.charge {limit counter : UInt32} {size total len : Nat} (h : Charged limit counter size total)
    (hlimit : limit = 0 ∨ counter < limit) (hlen : len ≤ size) (hsize : size < 2 ^ 32) :
    Charged limit (saturating_add32 counter (.ofNat len)) size (total + len) := by
  have hcounter := h.counter
  have hmod : (UInt32.ofNat len).toNat = len := UInt32.toNat_ofNat_of_lt' (by simpa using Nat.lt_of_le_of_lt hlen hsize)
  refine ⟨?_, fun hpos => ?_⟩
  · rw [saturating_add32_toNat, hmod, hcounter]
    omega
  · rcases hlimit with rfl | hlt
    · exact absurd hpos (by decide)
    · have hlt' : counter.toNat < limit.toNat := hlt
      have := limit.toNat_lt
      omega

namespace Peer

variable {p q : Peer} {codecs : Codecs}

/-! ## What leaves the limits alone -/

/-- The limits, the configuration and the path are the same. -/
structure SameLimits (p q : Peer) : Prop where
  throttle : q.bandwidth_throttle = p.bandwidth_throttle
  config : q.config = p.config
  pmtu : q.pmtu = p.pmtu

theorem SameLimits.trans {r : Peer} (h : SameLimits p q) (h' : SameLimits q r) : SameLimits p r :=
  ⟨h'.throttle.trans h.throttle, h'.config.trans h.config, h'.pmtu.trans h.pmtu⟩

theorem sameLimits_enqueue_command (p : Peer) (c : ProtocolCommand) : SameLimits p (p.enqueue_command c).2 := by
  obtain ⟨n, q, he⟩ := enqueue_command_writes p c
  rw [he]
  exact ⟨rfl, rfl, rfl⟩

/-- Does the command set limits? -/
def sets_limits : ProtocolCommand → Bool
  | .BandwidthLimit .. => true
  | _ => false

/-- Does the command change the size of the path? -/
def sets_path : ProtocolCommand → Bool
  | .PMTUReply .. => true
  | _ => false

theorem process_command_limits {c : ProtocolCommand} {t : Instant} {draw : UInt16} {r : Processed}
    (h : p.process_command c t draw = .ok (q, r)) (hl : sets_limits c = false) (hp : sets_path c = false) :
    SameLimits p q := by
  have hheard : SameLimits p (p.heard t) := ⟨rfl, rfl, rfl⟩
  cases ht : is_traffic c with
  | true =>
    obtain ⟨t, u, hd, n, cq, fs, cs, he⟩ := (handles_of_traffic ht h).1.writes
    rw [he]
    exact ⟨rfl, rfl, rfl⟩
  | false =>
    cases c with
    | Connect chs m v sid cid =>
      rw [process_command_connect] at h
      cases h
      rcases process_connect_writes (p.heard t) chs sid cid draw with he | ⟨i, n, st, v, he, -⟩
      · rw [he]
        exact hheard
      · rw [he]
        exact ⟨rfl, rfl, rfl⟩
    | VerifyConnect pid chs m isid osid w =>
      obtain ⟨i, s, f, st, rfl⟩ := process_verify_connect_writes h
      exact ⟨rfl, rfl, rfl⟩
    | Disconnect n =>
      cases h
      exact ⟨rfl, rfl, rfl⟩
    | ThrottleConfigure i a d =>
      cases h
      exact ⟨rfl, rfl, rfl⟩
    | BandwidthLimit i o => cases hl
    | PMTUReply size token => cases hp
    | _ => cases ht

/-- The commands of a datagram that are processed, those up to the first that
fails, each with the peer that it finds. -/
def processing (time : Instant) (draw : UInt16) : List ProtocolCommand → Peer → List (Peer × ProtocolCommand)
  | [], _ => []
  | c :: cmds, p =>
    (p, c) ::
      match p.process_command c time draw with
      | .ok (q, .ok _) => processing time draw cmds q
      | _ => []

/-- What every command that is processed keeps, the datagram keeps. -/
theorem process_commands_invariant {J : Peer → Prop} {K : Peer → ProtocolCommand → Prop} {t : Instant} {draw : UInt16}
    (hJ : ∀ {p q c r}, J p → K p c → p.process_command c t draw = .ok (q, r) → J q) {cmds : List ProtocolCommand}
    {acc : IncomingPackets} {r : Processed} (hK : ∀ x ∈ processing t draw cmds p, K x.1 x.2)
    (h : process_commands t draw cmds p acc = .ok (q, r)) (hp : J p) : J q := by
  induction cmds generalizing p acc with
  | nil =>
    cases h
    exact hp
  | cons c cmds ih =>
    rw [processing] at hK
    have hc : K p c := hK (p, c) List.mem_cons_self
    rw [process_commands] at h
    obtain ⟨x, hx⟩ : ∃ x, p.process_command c t draw = x := ⟨_, rfl⟩
    rw [hx] at h hK
    cases x with
    | error e => cases h
    | ok y =>
      obtain ⟨p₁, result⟩ := y
      have hone : J p₁ := hJ hp hc hx
      cases result with
      | error e =>
        cases h
        exact hone
      | ok packets => exact ih (fun x hx => hK x (List.mem_cons_of_mem _ hx)) h hone

/-- The counters, the limits and the configuration are the same. -/
structure SameBandwidth (p q : Peer) : Prop where
  throttle : q.bandwidth_throttle = p.bandwidth_throttle
  config : q.config = p.config

theorem sameBandwidth_refl (p : Peer) : SameBandwidth p p := ⟨rfl, rfl⟩

theorem SameBandwidth.trans {r : Peer} (h : SameBandwidth p q) (h' : SameBandwidth q r) : SameBandwidth p r :=
  ⟨h'.throttle.trans h.throttle, h'.config.trans h.config⟩

theorem SameLimits.bandwidth (h : SameLimits p q) : SameBandwidth p q := ⟨h.throttle, h.config⟩

theorem process_command_bandwidth {c : ProtocolCommand} {t : Instant} {draw : UInt16} {r : Processed}
    (hl : sets_limits c = false) (h : p.process_command c t draw = .ok (q, r)) : SameBandwidth p q := by
  by_cases hp : sets_path c = true
  · cases c with
    | PMTUReply size token =>
      cases h
      exact ⟨rfl, rfl⟩
    | _ => cases hp
  · exact (process_command_limits h hl (by simpa using hp)).bandwidth

/-- The commands of a datagram that a session processes. -/
def datagram_commands (codecs : Codecs) (p : Peer) (payload : Bytes) (t : Instant) (draw : UInt16) :
    List (Peer × ProtocolCommand) :=
  match open_datagram codecs p.config payload with
  | .ok packet => processing t draw packet.commands (p.taking t payload.length)
  | .error _ => []

/-- The session takes the datagram, as far as its bandwidth goes. -/
def takes (p : Peer) (payload : Bytes) (t : Instant) : Bool :=
  !payload.isEmpty && (p.update_bandwidth_window t).can_receive_within_bandwidth

/-- A datagram that is not taken begins a new window at most. -/
theorem process_packet_not_taken {payload : Bytes} {t : Instant} {draw : UInt16} {actions : List Action}
    (ht : p.takes payload t = false) (h : p.process_packet codecs payload t draw = .ok (actions, q)) :
    actions = [] ∧ q = if payload = [] then p else p.update_bandwidth_window t := by
  unfold process_packet at h
  by_cases hne : payload = []
  · subst hne
    cases h
    exact ⟨rfl, rfl⟩
  rw [takes, List.isEmpty_eq_false_iff.2 hne, Bool.not_false, Bool.true_and] at ht
  rw [if_neg (by simpa using hne)] at h
  dsimp only at h
  rw [if_pos (by rw [ht]; rfl)] at h
  cases h
  exact ⟨rfl, (if_neg hne).symm⟩

section Taken

variable {J : Peer → Prop} {K : Peer → ProtocolCommand → Prop} {payload : Bytes} {t : Instant} {draw : UInt16}

theorem process_command_packet_invariant {r : Processed}
    (hJ : ∀ {p q c r}, J p → K p c → p.process_command c t draw = .ok (q, r) → J q)
    (hstat : ∀ {p} st, J p → J { p with statistics := st })
    (hK : ∀ x ∈ datagram_commands codecs p payload t draw, K x.1 x.2)
    (h : (p.counted t payload.length).process_command_packet codecs payload t draw = .ok (q, r))
    (hp : J (p.counted t payload.length)) : J q := by
  unfold datagram_commands at hK
  rw [← counted_config p t payload.length] at hK
  cases ho : open_datagram codecs (p.counted t payload.length).config payload with
  | error fault =>
    cases fault with
    | panic e =>
      rw [process_command_packet_panics ho] at h
      cases h
    | error e =>
      rw [process_command_packet_unopened ho] at h
      cases h
      exact hstat _ hp
  | ok packet =>
    rw [ho] at hK
    rw [process_command_packet_opened ho] at h
    exact process_commands_invariant hJ hK h (hstat _ (hstat _ hp))

theorem sends_of_received (announced : Bool) (addr : SocketAddr) (packets : IncomingPackets) :
    sends_of (connect_event announced addr ++ packet_events packets) = [] := by
  unfold sends_of connect_event packet_events
  rw [List.filterMap_append, List.filterMap_map]
  split <;> simp

/-- A datagram that is taken is counted and processed, and nothing is sent. -/
theorem process_packet_of_takes {actions : List Action} (ht : p.takes payload t = true)
    (h : p.process_packet codecs payload t draw = .ok (actions, q)) :
    ∃ r result st, (p.counted t payload.length).process_command_packet codecs payload t draw = .ok (r, result) ∧
      q = { r with state := st } ∧ sends_of actions = [] := by
  rw [takes, Bool.and_eq_true] at ht
  rcases process_packet_processes (by simpa using ht.1) ht.2 h with ⟨e, hc, rfl⟩ | ⟨r, packets, hc, rfl, hq⟩
  · exact ⟨q, _, q.state, hc, rfl, rfl⟩
  · obtain ⟨st, he⟩ := record_recv_writes r
    exact ⟨r, _, st, hc, hq.trans he, sends_of_received ..⟩

/-- What every command that is processed keeps, a datagram that is taken
keeps. -/
theorem process_packet_invariant {actions : List Action}
    (hJ : ∀ {p q c r}, J p → K p c → p.process_command c t draw = .ok (q, r) → J q)
    (hstat : ∀ {p} st, J p → J { p with statistics := st }) (hstate : ∀ {p} st, J p → J { p with state := st })
    (ht : p.takes payload t = true) (hK : ∀ x ∈ datagram_commands codecs p payload t draw, K x.1 x.2)
    (h : p.process_packet codecs payload t draw = .ok (actions, q)) (hp : J (p.counted t payload.length)) :
    sends_of actions = [] ∧ J q := by
  obtain ⟨r, result, st, hr, rfl, hsends⟩ := process_packet_of_takes ht h
  exact ⟨hsends, hstate st (process_command_packet_invariant hJ hstat hK hr hp)⟩

/-- So does any datagram, if `J` is about the configuration, the path and the
queue. -/
theorem process_packet_keeps {actions : List Action}
    (hJ : ∀ {p q c r}, J p → K p c → p.process_command c t draw = .ok (q, r) → J q)
    (hsame : ∀ {p q : Peer}, J p → q.config = p.config → q.pmtu = p.pmtu → q.commands = p.commands → J q)
    (hK : p.takes payload t = true → ∀ x ∈ datagram_commands codecs p payload t draw, K x.1 x.2)
    (h : p.process_packet codecs payload t draw = .ok (actions, q)) (hp : J p) : J q := by
  cases ht : p.takes payload t with
  | false =>
    obtain ⟨-, rfl⟩ := process_packet_not_taken ht h
    split
    · exact hp
    · exact hsame hp rfl rfl rfl
  | true =>
    exact (process_packet_invariant hJ (fun _ hp => hsame hp rfl rfl rfl) (fun _ hp => hsame hp rfl rfl rfl) ht (hK ht) h
      (hsame hp rfl rfl rfl)).2

end Taken

/-! ## Sending -/

/-- The bytes a session sends. -/
def sent_bytes (actions : List Action) : Nat := ((sends_of actions).map List.length).sum

/-- No datagram is larger than the receive buffer, not even a probe. -/
theorem encode_bounded_length {bytes : Bytes}
    (h : (p.encode_queued_commands_bounded codecs p.datagram_cap).2 = .ok (some bytes)) :
    bytes.length ≤ p.config.receive_buffer_max_size := by
  obtain ⟨hk, q, hconfig, hfinish⟩ := encode_bounded_some (Prod.ext rfl h)
  have hlen := finish_packet_length hfinish
  have hfits := taken_fits hk
  have hcap : p.effective_max_size p.datagram_cap ≤ p.config.receive_buffer_max_size := by
    unfold effective_max_size
    split
    · exact le_rfl
    · exact Nat.min_le_right _ _
  rw [hconfig] at hlen
  unfold Fits at hfits
  omega

/-- A round of the flush loop sends nothing, or it sends within the bandwidth
and charges what it sent. -/
theorem flush_next_bandwidth (codecs : Codecs) (p : Peer) :
    (∃ q, p.flush_next codecs = (none, q) ∧ SameBandwidth p q) ∨
    ∃ bytes q, p.flush_next codecs = (some (.Send bytes), q) ∧
      bytes.length ≤ p.config.receive_buffer_max_size ∧ p.can_send_within_bandwidth = true ∧ q.config = p.config ∧
      q.bandwidth_throttle = p.bandwidth_throttle.record_bytes_sent (.ofNat bytes.length) := by
  have hencode : SameBandwidth p (p.after_encode codecs p.datagram_cap) := by
    obtain ⟨n, cq, st, he⟩ := encode_bounded_writes codecs p p.datagram_cap
    rw [after_encode, he]
    exact ⟨rfl, rfl⟩
  rw [flush_next_eq]
  by_cases hf : p.flushes = true
  · rw [if_pos hf]
    rw [flushes, Bool.and_eq_true] at hf
    cases hr : (p.encode_queued_commands_bounded codecs p.datagram_cap).2 with
    | error e => exact .inl ⟨_, rfl, hencode⟩
    | ok result =>
      cases result with
      | none => exact .inl ⟨_, rfl, hencode⟩
      | some bytes =>
        refine .inr ⟨bytes, p.sent codecs bytes, rfl, encode_bounded_length hr, hf.2, hencode.config, ?_⟩
        rw [← hencode.throttle]
        rfl
  · rw [if_neg hf]
    exact .inl ⟨p, rfl, sameBandwidth_refl p⟩

/-- What a session has spent of its bandwidth. -/
structure Spent (config : Config) (p : Peer) (sent received : Nat) : Prop where
  settings : p.config = config
  outgoing : p.bandwidth_throttle.outgoing_bandwidth_limit = config.outgoing_bandwidth_limit
  incoming : p.bandwidth_throttle.incoming_bandwidth_limit = config.incoming_bandwidth_limit
  sent : Charged config.outgoing_bandwidth_limit p.bandwidth_throttle.bytes_sent_this_window
    config.receive_buffer_max_size sent
  received : Charged config.incoming_bandwidth_limit p.bandwidth_throttle.bytes_received_this_window
    config.receive_buffer_max_size received

variable {config : Config} {sent received : Nat}

theorem spent_new (addr : SocketAddr) (config : Config) (time : Instant) (draw : PeerDraw) :
    Spent config (.new addr config time draw) 0 0 :=
  ⟨rfl, rfl, rfl, charged_zero _ _, charged_zero _ _⟩

theorem Spent.of_same (h : Spent config p sent received) (hs : SameBandwidth p q) : Spent config q sent received := by
  obtain ⟨hthrottle, hconfig⟩ := hs
  exact ⟨hconfig.trans h.settings, hthrottle ▸ h.outgoing, hthrottle ▸ h.incoming, hthrottle ▸ h.sent,
    hthrottle ▸ h.received⟩

theorem Spent.flush (h : Spent config p sent received) (hsize : config.receive_buffer_max_size < 2 ^ 32) :
    Spent config (p.flush codecs).2 (sent + sent_bytes (p.flush codecs).1) received := by
  have hdrains := drains_flush codecs p
  generalize (p.flush codecs).1 = actions at hdrains ⊢
  generalize (p.flush codecs).2 = q at hdrains ⊢
  induction hdrains generalizing sent with
  | @stop p q hnext =>
    rcases flush_next_bandwidth codecs p with ⟨r, hr, hs⟩ | ⟨bytes, r, hr, -⟩
    · rw [hr] at hnext
      cases hnext
      exact h.of_same hs
    · rw [hr] at hnext
      cases hnext
  | @next p r q a actions hnext _ ih =>
    rcases flush_next_bandwidth codecs p with ⟨r', hr, -⟩ | ⟨bytes, r', hr, hlen, hcan, hconfig, hthrottle⟩
    · rw [hr] at hnext
      cases hnext
    · rw [hr] at hnext
      cases hnext
      have hsent : sent_bytes (.Send bytes :: actions) = bytes.length + sent_bytes actions := by
        simp [sent_bytes, sends_of]
      rw [hsent, ← Nat.add_assoc]
      refine ih ⟨hconfig.trans h.settings, ?_, ?_, ?_, ?_⟩
      · rw [hthrottle]
        exact h.outgoing
      · rw [hthrottle]
        exact h.incoming
      · rw [hthrottle]
        rw [h.settings] at hlen
        refine h.sent.charge ?_ hlen hsize
        rw [can_send_within_bandwidth, BandwidthThrottle.can_send_within_bandwidth, h.outgoing, Bool.or_eq_true,
          beq_iff_eq, decide_eq_true_eq] at hcan
        exact hcan
      · rw [hthrottle]
        exact h.received

/-! ## Operations -/

/-- Does a new window begin? -/
def window_ends (p : Peer) (t : Instant) : Bool := (p.bandwidth_throttle.update_bandwidth_window t).1

/-- Does the operation begin a new window? If it does, that comes first. -/
def resets_window (p : Peer) : SessionOp → Bool
  | .process_packet payload t _ => !payload.isEmpty && p.window_ends t
  | .update t _ _ => p.window_ends t
  | _ => false

/-- The bytes of a datagram that the operation takes in. -/
def received_bytes (p : Peer) : SessionOp → Nat
  | .process_packet payload t _ => if p.takes payload t then payload.length else 0
  | _ => 0

/-- Does the operation process a `BandwidthLimit`? -/
def ProcessesLimit (codecs : Codecs) (p : Peer) : SessionOp → Prop
  | .process_packet payload t draw =>
    p.takes payload t = true ∧ ∃ x ∈ datagram_commands codecs p payload t draw, sets_limits x.2 = true
  | _ => False

theorem Spent.window (h : Spent config p sent received) (t : Instant) :
    Spent config (p.update_bandwidth_window t) (if p.window_ends t then 0 else sent)
      (if p.window_ends t then 0 else received) := by
  have hb : (p.update_bandwidth_window t).bandwidth_throttle = (p.bandwidth_throttle.update_bandwidth_window t).2 := rfl
  have hc : (p.update_bandwidth_window t).config = p.config := rfl
  generalize p.update_bandwidth_window t = q at hb hc
  unfold window_ends
  unfold BandwidthThrottle.update_bandwidth_window at hb ⊢
  split
  · rename_i he
    rw [if_pos he] at hb
    refine ⟨hc.trans h.settings, ?_, ?_, ?_, ?_⟩
    · rw [hb]
      exact h.outgoing
    · rw [hb]
      exact h.incoming
    · rw [hb]
      exact charged_zero _ _
    · rw [hb]
      exact charged_zero _ _
  · rename_i he
    rw [if_neg he] at hb
    exact h.of_same ⟨hb, hc⟩

theorem Spent.counted {payload : Bytes} {t : Instant} (h : Spent config p sent received)
    (hsize : config.receive_buffer_max_size < 2 ^ 32) (hlen : payload.length ≤ config.receive_buffer_max_size)
    (ht : p.takes payload t = true) :
    Spent config (p.counted t payload.length) (if p.window_ends t then 0 else sent)
      ((if p.window_ends t then 0 else received) + payload.length) := by
  have hw := h.window t
  rw [takes, Bool.and_eq_true] at ht
  have hcan := ht.2
  rw [can_receive_within_bandwidth, BandwidthThrottle.can_receive_within_bandwidth, hw.incoming, Bool.or_eq_true,
    beq_iff_eq, decide_eq_true_eq] at hcan
  exact ⟨hw.settings, hw.outgoing, hw.incoming, hw.sent, hw.received.charge hcan hlen hsize⟩

theorem Spent.process_packet {payload : Bytes} {t : Instant} {draw : UInt16} {actions : List Action}
    (h : Spent config p sent received) (hsize : config.receive_buffer_max_size < 2 ^ 32)
    (hlen : payload.length ≤ config.receive_buffer_max_size)
    (hl : ¬ p.ProcessesLimit codecs (.process_packet payload t draw))
    (hp : p.process_packet codecs payload t draw = .ok (actions, q)) :
    Spent config q ((if p.resets_window (.process_packet payload t draw) then 0 else sent) + sent_bytes actions)
      ((if p.resets_window (.process_packet payload t draw) then 0 else received) +
        p.received_bytes (.process_packet payload t draw)) := by
  have hresets : payload ≠ [] → p.resets_window (.process_packet payload t draw) = p.window_ends t := by
    intro hne
    simp [resets_window, hne]
  cases ht : p.takes payload t with
  | false =>
    obtain ⟨rfl, rfl⟩ := process_packet_not_taken ht hp
    rw [received_bytes, ht]
    by_cases hne : payload = []
    · subst hne
      exact h
    · rw [hresets hne, if_neg hne]
      exact h.window t
  | true =>
    have hne : payload ≠ [] := by
      rintro rfl
      cases ht
    have hlimits : ∀ x ∈ datagram_commands codecs p payload t draw, sets_limits x.2 = false := by
      intro x hx
      by_contra hset
      exact hl ⟨ht, x, hx, by simpa using hset⟩
    obtain ⟨hsends, hsame⟩ := process_packet_invariant (J := SameBandwidth (p.counted t payload.length))
      (K := fun _ c => sets_limits c = false) (fun hp hc hq => hp.trans (process_command_bandwidth hc hq))
      (fun _ hp => ⟨hp.throttle, hp.config⟩) (fun _ hp => ⟨hp.throttle, hp.config⟩) ht hlimits hp (sameBandwidth_refl _)
    rw [hresets hne, received_bytes, ht, sent_bytes, hsends]
    exact (h.counted hsize hlen ht).of_same hsame

theorem Spent.process_event {event : Packet} {actions : List Action} (h : Spent config p sent received)
    (hsize : config.receive_buffer_max_size < 2 ^ 32) (hp : p.process_event codecs event = .ok (actions, q)) :
    Spent config q (sent + sent_bytes actions) received := by
  obtain ⟨r, hr, rfl, rfl⟩ := process_event_ok hp
  have hsend : SameBandwidth p p.record_send.2 := by
    obtain ⟨st, cq, he⟩ := record_send_writes p
    rw [he]
    exact ⟨rfl, rfl⟩
  have hqueue : SameBandwidth p.record_send.2 r := by
    obtain ⟨n, cq, u, sq, he⟩ := enqueue_packet_writes hr
    rw [he]
    exact ⟨rfl, rfl⟩
  have hbytes : sent_bytes ((if p.record_send.1 then [.Emit (.Connect p.remote_address)] else []) ++
      (r.flush codecs).1) = sent_bytes (r.flush codecs).1 := by
    rw [(record_send_moves p).1]
    rfl
  rw [hbytes]
  exact (h.of_same (hsend.trans hqueue)).flush hsize

theorem Spent.update (h : Spent config p sent received) (hsize : config.receive_buffer_max_size < 2 ^ 32) (t : Instant)
    (elapsed : Duration) (draw : ProbeDraw) :
    Spent config (p.update codecs t elapsed draw).2
      ((if p.window_ends t then 0 else sent) + sent_bytes (p.update codecs t elapsed draw).1)
      (if p.window_ends t then 0 else received) := by
  have hbefore : SameBandwidth (p.update_bandwidth_window t) (p.before_update_flush t elapsed) := by
    unfold before_update_flush
    dsimp only
    split
    · exact (sameLimits_enqueue_command _ _).bandwidth
    · exact sameBandwidth_refl _
  have hprobe : ∀ r : Peer, SameBandwidth r (r.handle_pmtu t draw) := by
    intro r
    obtain ⟨n, cq, pm, he⟩ := handle_pmtu_writes r t draw
    rw [he]
    exact ⟨rfl, rfl⟩
  rw [update_eq]
  exact (((h.window t).of_same hbefore).flush hsize).of_same (hprobe _)

/-- What an operation costs, and whether it begins a new window. -/
theorem Spent.perform {op : SessionOp} {actions : List Action} (h : Spent config p sent received)
    (hsize : config.receive_buffer_max_size < 2 ^ 32)
    (hlen : ∀ payload t draw, op = .process_packet payload t draw → payload.length ≤ config.receive_buffer_max_size)
    (hl : ¬ p.ProcessesLimit codecs op) (hp : p.perform codecs op = .ok (actions, q)) :
    Spent config q ((if p.resets_window op then 0 else sent) + sent_bytes actions)
      ((if p.resets_window op then 0 else received) + p.received_bytes op) := by
  cases op with
  | process_packet payload t draw => exact h.process_packet hsize (hlen payload t draw rfl) hl hp
  | process_event event => exact h.process_event hsize hp
  | update t elapsed draw =>
    cases hp
    exact h.update hsize t elapsed draw
  | should_drop t =>
    cases hp
    have hnothing : sent_bytes (p.should_drop t).2 = 0 := by
      unfold Peer.should_drop
      split
      · rfl
      · dsimp only
        split
        · split <;> rfl
        · rfl
    rw [hnothing]
    exact h

/-! ## Windows -/

/-- A step of a run begins a new window. -/
def begins_window (x : Peer × Performed) : Bool := x.1.resets_window x.2.op

/-- The bytes a step sends. -/
def step_sent (x : Peer × Performed) : Nat := sent_bytes x.2.actions

/-- The bytes a step takes in. -/
def step_received (x : Peer × Performed) : Nat := x.1.received_bytes x.2.op

theorem spent_run {addr : SocketAddr} {time : Instant} {draw : PeerDraw} {steps : List (Peer × Performed)}
    (hsize : config.receive_buffer_max_size < 2 ^ 32) (h : SessionRun codecs (.new addr config time draw) steps q)
    (hlen : ∀ x ∈ steps, ∀ payload t d, x.2.op = .process_packet payload t d →
      payload.length ≤ config.receive_buffer_max_size)
    (hl : ∀ x ∈ steps, ¬ x.1.ProcessesLimit codecs x.2.op) :
    Spent config q (since begins_window step_sent steps) (since begins_window step_received steps) := by
  induction h with
  | start => exact spent_new addr config time draw
  | @next steps p e q _ hs ih =>
    obtain ⟨hp, rfl⟩ := hs
    have hp' := ih (fun x hx => hlen x (List.mem_append_left _ hx)) (fun x hx => hl x (List.mem_append_left _ hx))
    have hlast : (p, e) ∈ steps ++ [(p, e)] := List.mem_append_right _ (List.mem_singleton_self _)
    rw [since_snoc, since_snoc]
    exact hp'.perform hsize (hlen (p, e) hlast) (hl (p, e) hlast) hp

/-- Between two resets of the window a session sends less than its limit and
one datagram more, and takes in less than its limit and one datagram more. -/
theorem bandwidth_window_bounded (codecs : Codecs) (addr : SocketAddr) (config : Config) (time : Instant)
    (draw : PeerDraw) (hsize : config.receive_buffer_max_size < 2 ^ 32) {steps : List (Peer × Performed)} {q : Peer}
    (h : SessionRun codecs (.new addr config time draw) steps q)
    (hlen : ∀ x ∈ steps, ∀ payload t d, x.2.op = .process_packet payload t d →
      payload.length ≤ config.receive_buffer_max_size)
    (hl : ∀ x ∈ steps, ¬ x.1.ProcessesLimit codecs x.2.op) {before window after : List (Peer × Performed)}
    (hw : steps = before ++ window ++ after) (hreset : ∀ x ∈ window.tail, begins_window x = false) :
    (0 < config.outgoing_bandwidth_limit →
      (window.map step_sent).sum < config.outgoing_bandwidth_limit.toNat + config.receive_buffer_max_size) ∧
    (0 < config.incoming_bandwidth_limit →
      (window.map step_received).sum < config.incoming_bandwidth_limit.toNat + config.receive_buffer_max_size) := by
  obtain ⟨r, hr⟩ := h.take_prefix hw
  have hmem : ∀ x ∈ before ++ window, x ∈ steps := by
    intro x hx
    rw [hw]
    exact List.mem_append_left _ hx
  have hspent := spent_run hsize hr (fun x hx => hlen x (hmem x hx)) (fun x hx => hl x (hmem x hx))
  have hsent := sum_le_since step_sent before hreset
  have hreceived := sum_le_since step_received before hreset
  exact ⟨fun hpos => Nat.lt_of_le_of_lt hsent (hspent.sent.bound hpos),
    fun hpos => Nat.lt_of_le_of_lt hreceived (hspent.received.bound hpos)⟩

/-- Twenty bytes a second in each direction. -/
def limited_config : Config :=
  { Config.default with outgoing_bandwidth_limit := 20, incoming_bandwidth_limit := 20 }

/-- A ping is taken in and answered in one window. -/
theorem bandwidth_window_bounded_ping :
    ∃ steps q, SessionRun .checked (.new ⟨.V4 0, 0⟩ limited_config 0 ⟨0, 0, 0⟩) steps q ∧
      (∀ x ∈ steps.tail, begins_window x = false) ∧ 0 < (steps.map step_sent).sum ∧
      0 < (steps.map step_received).sum ∧ (steps.map step_sent).sum < 20 + limited_config.receive_buffer_max_size ∧
      (steps.map step_received).sum < 20 + limited_config.receive_buffer_max_size := by
  obtain ⟨⟨actions, p⟩, hp, hout⟩ := exists_ok
    (x := Peer.perform .checked (.new ⟨.V4 0, 0⟩ limited_config 0 ⟨0, 0, 0⟩) (.process_packet (datagram_of (.Ping 5)) 0 0))
    (p := fun out => (Peer.perform .checked out.2 (.update 0 0 ⟨0, fun _ => 0⟩)).toOption.any fun out' =>
      !out.2.resets_window (.update 0 0 ⟨0, fun _ => 0⟩) && 0 < sent_bytes out'.1) (by decide +kernel)
  obtain ⟨⟨sends, q⟩, hq, hout⟩ := exists_ok hout
  rw [Bool.and_eq_true, Bool.not_eq_true', decide_eq_true_eq] at hout
  have hrun : SessionRun .checked (.new ⟨.V4 0, 0⟩ limited_config 0 ⟨0, 0, 0⟩)
      [(.new ⟨.V4 0, 0⟩ limited_config 0 ⟨0, 0, 0⟩, ⟨.process_packet (datagram_of (.Ping 5)) 0 0, actions, p⟩),
        (p, ⟨.update 0 0 ⟨0, fun _ => 0⟩, sends, q⟩)] q := .next (.next .start ⟨hp, rfl⟩) ⟨hq, rfl⟩
  have hreset : ∀ x ∈ [(p, (⟨.update 0 0 ⟨0, fun _ => 0⟩, sends, q⟩ : Performed))], begins_window x = false := by
    intro x hx
    rw [List.mem_singleton.1 hx]
    exact hout.1
  have hbound := bandwidth_window_bounded .checked _ limited_config 0 _ (by decide) hrun ?_ ?_
    (show _ = [] ++ _ ++ [] from (List.append_nil _).symm) hreset
  · refine ⟨_, q, hrun, hreset, ?_, ?_, hbound.1 (by decide), hbound.2 (by decide)⟩
    · exact Nat.lt_of_lt_of_le hout.2 (Nat.le_add_left _ (sent_bytes actions))
    · exact Nat.lt_of_lt_of_le (by decide +kernel : 0 < received_bytes (.new ⟨.V4 0, 0⟩ limited_config 0 ⟨0, 0, 0⟩)
        (.process_packet (datagram_of (.Ping 5)) 0 0)) (Nat.le_add_right _ _)
  · intro x hx payload t d hop
    rcases List.mem_cons.1 hx with rfl | hx
    · cases hop
      decide +kernel
    · rw [List.mem_singleton.1 hx] at hop
      cases hop
  · intro x hx
    rcases List.mem_cons.1 hx with rfl | hx
    · rintro ⟨-, x, hx, hset⟩
      have hnone : (datagram_commands .checked (.new ⟨.V4 0, 0⟩ limited_config 0 ⟨0, 0, 0⟩) (datagram_of (.Ping 5)) 0 0).all
          (fun x => !sets_limits x.2) = true := by decide +kernel
      have hsets := List.all_eq_true.1 hnone x hx
      rw [hset] at hsets
      cases hsets
    · rw [List.mem_singleton.1 hx]
      exact id

end Peer

end Bitfold
