import Bitfold.Messages
import Bitfold.Transmission
/-!
# Sending

A peer with an empty queue and no bandwidth limit sends a user packet as the
commands of its message, after the `Connect` that opens the connection
(`Quiet.send_message`). Every command fits a datagram, and all but the last
fill theirs, so no datagram takes more commands than its header can count.
-/

namespace Bitfold

open Lib CommandEncoder ProtocolCommand

namespace Peer

variable {codecs : Codecs} {p p' q : Peer} {config : Config} {packet : Packet} {cmds : List ProtocolCommand}

/-! ## Sending a packet -/

/-- The command that a send from `Idle` opens the connection with. -/
def opening (p : Peer) : List ProtocolCommand :=
  if p.state = .Idle ∧ p.config.use_connection_handshake = true then
    [.Connect p.config.channel_count 1400 1 p.outgoing_session_id p.connect_id]
  else []

theorem opening_of_not_idle (h : p.state ≠ .Idle) : p.opening = [] := by
  rw [opening, if_neg fun hi => h hi.1]

theorem record_send_eq (p : Peer) : ∃ st, st ≠ .Idle ∧ p.record_send.2 = { p with state := st }.queued p.opening := by
  by_cases hs : p.state = .Idle
  · refine ⟨.Connecting, by decide, ?_⟩
    unfold record_send opening
    rw [hs]
    dsimp only
    by_cases hc : p.config.use_connection_handshake = true
    · rw [if_pos hc, if_pos ⟨rfl, hc⟩, initiate_connect, if_pos hs]
      rfl
    · rw [if_neg hc, if_neg (fun h => hc h.2), queued_nil]
  · rw [opening_of_not_idle hs]
    simp only [queued_nil]
    unfold record_send
    dsimp only
    split
    · exact absurd ‹_› hs
    · exact ⟨.Connected, by decide, rfl⟩
    · exact ⟨p.state, hs, rfl⟩

theorem carried_opening (p : Peer) : ∀ c ∈ p.opening, Carried c := by
  unfold opening
  split <;> simp [Carried]

theorem opening_length (p : Peer) : p.opening.length ≤ 1 := by
  unfold opening
  split <;> simp

/-- A sender with nothing in its queue. -/
structure Quiet (config : Config) (p : Peer) : Prop extends Sender config p where
  balanced : Balanced p
  empty : p.commands = []

theorem quiet_new (addr : SocketAddr) (time : Instant) (draw : PeerDraw) (h : config.outgoing_bandwidth_limit = 0) :
    Quiet config (.new addr config time draw) :=
  { sender_new addr time draw h with balanced := balanced_new .., empty := rfl }

/-- The connection is opened on a quiet peer. -/
theorem Quiet.record_send (h : Quiet config p) :
    Sender config p.record_send.2 ∧ p.record_send.2.commands = p.opening ∧ p.record_send.2.state ≠ .Idle ∧
      p.record_send.2.total_waiting_data = 0 := by
  obtain ⟨st, hst, he⟩ := record_send_eq p
  have htotal := h.balanced.total
  rw [h.empty, waiting_nil] at htotal
  have hsize : waiting p.opening = 0 := by
    unfold opening
    split <;> rfl
  rw [he]
  refine ⟨⟨h.fragment_size, h.settings, h.unlimited, h.sequence⟩, ?_, hst, ?_⟩
  · change p.commands ++ p.opening = p.opening
    rw [h.empty, List.nil_append]
  · change p.total_waiting_data + waiting p.opening = 0
    rw [htotal, hsize]

theorem datagrams_connect (b : Bool) (addr : SocketAddr) :
    datagrams (if b then [.Emit (.Connect addr)] else []) = [] := by
  cases b <;> rfl

/-- A quiet peer sends a packet as the commands it queues for it. -/
theorem Quiet.process_event (hc : codecs.Lossless) (ht : codecs.Total) (h : Quiet config p)
    (hq : p.record_send.2.enqueue_packet packet = .ok q) (hcmds : q.commands = p.opening ++ cmds)
    (hcarried : ∀ c ∈ cmds, Carried c)
    (hfits : ∀ c ∈ p.opening ++ cmds, static_overhead config + frame_len c ≤ fresh_cap config)
    (hsmall : cmds.countP (fun c => !Bulky config c) ≤ 1) :
    ∃ actions p', p.process_event codecs packet = .ok (actions, p') ∧
      Transmits codecs config (datagrams actions) (p.opening ++ cmds) ∧ Quiet config p' ∧ p'.state ≠ .Idle := by
  obtain ⟨hs, -, hstate, -⟩ := h.record_send
  obtain ⟨hsq, hsame⟩ : Sender config q ∧ q.state = p.record_send.2.state := by
    obtain ⟨n, cq, u, sq, rfl⟩ := enqueue_packet_writes hq
    exact ⟨⟨hs.fragment_size, hs.settings, hs.unlimited, hs.sequence⟩, rfl⟩
  -- at most the `Connect` and one command of the packet do not fill a datagram
  have hready : Ready config q :=
    { hsq with
      balanced := h.balanced.before_event_flush hq
      carried := by
        rw [hcmds]
        intro c hm
        rcases List.mem_append.1 hm with hm | hm
        · exact p.carried_opening c hm
        · exact hcarried c hm
      fits := by
        rw [hcmds]
        exact hfits
      small := by
        have := p.opening_length
        have := List.countP_le_length (p := fun c => !Bulky config c) (l := p.opening)
        rw [hcmds, List.countP_append]
        omega }
  obtain ⟨htrans, hend, hdone⟩ := hready.flush hc ht
  refine ⟨(if p.record_send.1 then [.Emit (.Connect p.remote_address)] else []) ++ (q.flush codecs).1,
    (q.flush codecs).2, ?_, ?_, { hdone.toSender with balanced := hdone.balanced, empty := hend }, ?_⟩
  · unfold Peer.process_event
    simp only [hq, bind, Except.bind]
    rfl
  · rw [datagrams_append, datagrams_connect, List.nil_append, ← hcmds]
    exact htrans
  · obtain ⟨n, cq, st, b, he⟩ := flush_writes codecs q
    rw [he]
    exact hsame ▸ hstate

/-! ## The commands of a message -/

variable {mode : Mode} {ch : UInt8} {data : Bytes}

/-- A fragment with at least one byte fits a datagram. -/
def CapCarriesFragment (config : Config) : Prop := static_overhead config + 2 + 9 + 1 ≤ fresh_cap config

/-- The message fits one command, or `max_fragments` fragments. -/
def MessageFits (config : Config) (mode : Mode) (data : Bytes) : Prop :=
  data.length ≤ budget config mode.header ∨
    div_ceil data.length (budget config mode.fragment_header) ≤ config.max_fragments.toNat

theorem encode_whole_length (mode : Mode) (ch : UInt8) (s : UInt16) (d : SharedBytes) :
    (encode_command (mode.whole ch s d)).length = mode.header + d.len := by
  cases mode <;>
    simp only [Mode.whole, Mode.header, encode_command, write_u8, write_u16, write_all, List.length_append,
      List.length_cons, List.length_nil, be16_length, SharedBytes.as_slice_length]

theorem encode_fragment_length (g : Group) (j : UInt8) (d : SharedBytes) :
    (encode_command (g.command j d)).length = g.mode.fragment_header + d.len := by
  unfold Group.command
  cases g.mode <;>
    simp only [Mode.fragment, Mode.fragment_header, encode_command, write_u8, write_u16, write_all,
      List.length_append, List.length_cons, List.length_nil, be16_length, SharedBytes.as_slice_length]

theorem carried_whole (mode : Mode) (ch : UInt8) (s : UInt16) (d : SharedBytes) : Carried (mode.whole ch s d) := by
  cases mode <;> trivial

theorem carried_fragment (g : Group) (j : UInt8) (d : SharedBytes) : Carried (g.command j d) := by
  unfold Group.command
  cases g.mode <;> trivial

theorem header_le (mode : Mode) : mode.header < mode.fragment_header ∧ mode.fragment_header ≤ 9 := by
  cases mode <;> simp [Mode.header, Mode.fragment_header]

/-- A message that fits is sent whole, or split. -/
theorem Sender.message_cases (h : Sender config p) (hcap : CapCarriesFragment config)
    (hfit : MessageFits config mode data) (ch : UInt8) :
    (data.length ≤ budget config mode.header ∧
      p.message_commands mode ch data = [mode.whole ch (mode.sequence p) (.from_arc data)]) ∨
    (budget config mode.header < data.length ∧ p.Splits mode data) := by
  have hle := header_le mode
  unfold CapCarriesFragment at hcap
  by_cases hlen : data.length ≤ budget config mode.header
  · refine .inl ⟨hlen, ?_⟩
    unfold message_commands data_commands
    rw [h.payload_budget, if_neg, if_pos hlen]
    unfold budget
    omega
  · have hmax := hfit.resolve_left hlen
    have h255 := config.max_fragments.toNat_lt
    refine .inr ⟨Nat.not_le.1 hlen, ?_, ?_, ?_, ?_, ?_⟩
    · rw [h.payload_budget]
      unfold budget
      omega
    · rw [h.payload_budget]
      exact Nat.not_le.1 hlen
    · unfold fragment_payload
      rw [h.payload_budget]
      unfold budget
      omega
    · unfold total_fragments fragment_payload
      rw [h.payload_budget]
      omega
    · unfold total_fragments fragment_payload
      rw [h.payload_budget, h.settings]
      exact hmax

/-- What sending needs of the commands of a packet: they fit datagrams, and
all but one fill them. -/
structure Packs (config : Config) (cmds : List ProtocolCommand) : Prop where
  carried : ∀ c ∈ cmds, Carried c
  fits : ∀ c ∈ cmds, static_overhead config + frame_len c ≤ fresh_cap config
  small : cmds.countP (fun c => !Bulky config c) ≤ 1

/-- Of commands that fill their datagrams up to the last one, at most the last
is small. -/
theorem countP_le_one_of_full {n : Nat} {f : Nat → ProtocolCommand} (hcap : static_overhead config < fresh_cap config)
    (h : ∀ i, i + 1 < n → static_overhead config + frame_len (f i) = fresh_cap config) :
    ((List.range n).map f).countP (fun c => !Bulky config c) ≤ 1 := by
  cases n with
  | zero => simp
  | succ n =>
    rw [List.range_succ, List.map_append, List.countP_append]
    have hzero : ((List.range n).map f).countP (fun c => !Bulky config c) = 0 := by
      rw [List.countP_eq_zero]
      intro c hc
      obtain ⟨i, hi, rfl⟩ := List.mem_map.1 hc
      have hfull := h i (Nat.succ_lt_succ (List.mem_range.1 hi))
      have hbulky : Bulky config (f i) = true := by
        unfold Bulky
        exact decide_eq_true (by omega)
      simp [hbulky]
    have hone := List.countP_le_length (p := fun c => !Bulky config c) (l := [n].map f)
    simp only [List.length_map, List.length_cons, List.length_nil] at hone
    omega

/-- Slices of data, each in a command with the same header, pack: all but the
last fill their datagrams. -/
theorem packs_slices {f : Nat → ProtocolCommand} (header : Nat) {payload : Nat} (hp : 0 < payload) (hpos : 0 < data.length)
    (hroom : static_overhead config + 2 + header + payload = fresh_cap config) (hcarried : ∀ i, Carried (f i))
    (hf : ∀ i, (encode_command (f i)).length = header + (fragment_data data payload i).len) :
    Packs config ((List.range (div_ceil data.length payload)).map f) := by
  have hframe : ∀ i < div_ceil data.length payload,
      frame_len (f i) = 2 + header + min payload (data.length - i * payload) := by
    intro i hi
    rw [frame_len, hf, fragment_data_len hp hpos hi, Nat.add_assoc]
  refine ⟨?_, ?_, countP_le_one_of_full (by omega) fun i hi => ?_⟩
  · intro c hc
    obtain ⟨i, -, rfl⟩ := List.mem_map.1 hc
    exact hcarried i
  · intro c hc
    obtain ⟨i, hi, rfl⟩ := List.mem_map.1 hc
    rw [hframe i (List.mem_range.1 hi)]
    omega
  · obtain ⟨hlt, -, -⟩ := div_ceil_bounds hp hpos
    have hmul : (i + 1) * payload ≤ (div_ceil data.length payload - 1) * payload := Nat.mul_le_mul_right _ (by omega)
    have hfull : payload ≤ data.length - i * payload := by
      rw [Nat.add_mul, Nat.one_mul] at hmul
      omega
    rw [hframe i (by omega)]
    omega

theorem Sender.message_packs (h : Sender config p) (hcap : CapCarriesFragment config)
    (hfit : MessageFits config mode data) (ch : UInt8) :
    Packs config (p.message_commands mode ch data) ∧ waiting (p.message_commands mode ch data) = data.length := by
  have hle := header_le mode
  have hcap' := hcap
  unfold CapCarriesFragment at hcap'
  rcases h.message_cases hcap hfit ch with ⟨hlen, he⟩ | ⟨-, hs⟩
  · -- one command, and the datagram has room for it
    rw [he]
    refine ⟨⟨?_, ?_, ?_⟩, ?_⟩
    · simpa using carried_whole ..
    · simp only [List.mem_singleton, forall_eq, frame_len, encode_whole_length, SharedBytes.len_from_arc]
      unfold budget at hlen
      omega
    · exact List.countP_le_length
    · rw [waiting_cons, waiting_nil]
      cases mode <;> rfl
  · refine ⟨?_, hs.waiting ch⟩
    rw [hs.message_commands]
    have hpos : 0 < data.length := by
      have := hs.long
      omega
    have hroom : static_overhead config + 2 + mode.fragment_header + p.fragment_payload mode = fresh_cap config := by
      unfold fragment_payload
      rw [h.payload_budget]
      unfold budget
      omega
    exact packs_slices _ hs.payload hpos hroom (fun i => carried_fragment ..) fun i => encode_fragment_length ..

/-- How a packet is sent: unsequenced ones are no messages. -/
def packet_mode (packet : Packet) : Option Mode :=
  match packet.delivery, packet.ordering with
  | .Reliable, ordering => some (.Reliable (ordering != .None))
  | .Unreliable, .Unsequenced => none
  | .Unreliable, _ => some .Unreliable

theorem enqueue_packet_mode (h : packet_mode packet = some mode) :
    p.enqueue_packet packet =
      .ok ((p.numbered mode).requeue (p.message_commands mode packet.channel_id packet.payload)) := by
  unfold packet_mode at h
  unfold enqueue_packet
  split at h
  · rename_i hd
    cases h
    have he : p.enqueue_reliable_data packet.channel_id packet.payload (packet.ordering != .None) = _ :=
      enqueue_eq p (.Reliable (packet.ordering != .None)) packet.channel_id packet.payload
    rw [hd]
    dsimp only
    rw [he]
    rfl
  · cases h
  · rename_i hd hne
    cases h
    have he : p.enqueue_unreliable_data packet.channel_id packet.payload = _ :=
      enqueue_eq p .Unreliable packet.channel_id packet.payload
    rw [hd]
    dsimp only
    split
    · exact absurd ‹_› hne
    · rw [he]
      rfl

/-- A packet that nothing keeps from being sent. -/
structure Sendable (config : Config) (packet : Packet) : Prop where
  fits : ∀ mode, packet_mode packet = some mode → MessageFits config mode packet.payload
  waiting : config.max_waiting_data = 0 ∨ packet.payload.length ≤ config.max_waiting_data

/-- Everything the peer has to open its connection with fits a datagram. -/
def OpeningFits (config : Config) (p : Peer) : Prop :=
  ∀ c ∈ p.opening, static_overhead config + frame_len c ≤ fresh_cap config

/-- A quiet peer sends a message as its commands. -/
theorem Quiet.send_message (hc : codecs.Lossless) (ht : codecs.Total) (hcap : CapCarriesFragment config)
    (h : Quiet config p) (hopen : OpeningFits config p) (hm : packet_mode packet = some mode)
    (hs : Sendable config packet) :
    ∃ actions p', p.process_event codecs packet = .ok (actions, p') ∧
      Transmits codecs config (datagrams actions)
        (p.opening ++ p.record_send.2.message_commands mode packet.channel_id packet.payload) ∧
      Quiet config p' ∧ p'.state ≠ .Idle := by
  obtain ⟨hsend, hcmds, -, htotal⟩ := h.record_send
  obtain ⟨hpacks, hwaiting⟩ := hsend.message_packs hcap (hs.fits mode hm) packet.channel_id
  have hadmits : (p.record_send.2.numbered mode).Admits
      (waiting (p.record_send.2.message_commands mode packet.channel_id packet.payload)) := by
    rw [hwaiting]
    have hlimit : (p.record_send.2.numbered mode).config = config ∧
        (p.record_send.2.numbered mode).total_waiting_data = 0 := by
      cases mode <;> exact ⟨hsend.settings, htotal⟩
    unfold Admits
    rw [hlimit.1, hlimit.2, Nat.zero_add]
    exact hs.waiting
  refine h.process_event hc ht (enqueue_packet_mode hm) ?_ hpacks.carried ?_ hpacks.small
  · rw [requeue_of_admits hadmits, ← hcmds]
    cases mode <;> rfl
  · intro c hm
    rcases List.mem_append.1 hm with hm | hm
    · exact hopen c hm
    · exact hpacks.fits c hm

end Peer

end Bitfold
