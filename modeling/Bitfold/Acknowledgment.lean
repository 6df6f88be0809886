import Bitfold.Command
/-!
# Sequence buffer, congestion control and acknowledgments

`sequence_buffer.rs`, `congestion.rs` and `acknowledgment.rs`. `f32` is
`Float32`. The counters of packets sent and lost are `u32` and are taken to wrap
at their end, where a build with overflow checks would stop.
-/

namespace Bitfold

/-- Is `s1` ahead of `s2` on the circle of 16-bit sequences? -/
def sequence_greater_than (s1 s2 : UInt16) : Bool :=
  (decide (s1 > s2) && decide (s1 - s2 ≤ 32768)) || (decide (s1 < s2) && decide (s2 - s1 > 32768))

def sequence_less_than (s1 s2 : UInt16) : Bool := sequence_greater_than s2 s1

/-! ## Sequence buffer -/

/-- `SequenceBuffer<T>` of a given capacity. -/
structure SequenceBuffer (T : Type) (capacity : Nat) where
  sequence_num : UInt16
  entry_sequences : Vector (Option UInt16) capacity
  entries : Vector T capacity
  capacity_pos : 0 < capacity

namespace SequenceBuffer

variable {T : Type} [Inhabited T] {capacity : Nat}

def with_capacity (capacity : Nat) (h : 0 < capacity) : SequenceBuffer T capacity where
  sequence_num := 0
  entry_sequences := .replicate capacity none
  entries := .replicate capacity default
  capacity_pos := h

def index (self : SequenceBuffer T capacity) (sequence : UInt16) : Fin capacity :=
  ⟨sequence.toNat % capacity, Nat.mod_lt _ self.capacity_pos⟩

/-- `exists`. -/
def exists_at (self : SequenceBuffer T capacity) (sequence_num : UInt16) : Bool :=
  match self.entry_sequences.get (self.index sequence_num) with
  | some s => s == sequence_num
  | none => false

def remove (self : SequenceBuffer T capacity) (sequence_num : UInt16) : Option T × SequenceBuffer T capacity :=
  if self.exists_at sequence_num then
    let index := self.index sequence_num
    let value := self.entries.get index
    (some value,
      { self with
        entries := self.entries.set index default
        entry_sequences := self.entry_sequences.set index none })
  else (none, self)

def remove_entries (self : SequenceBuffer T capacity) (finish_sequence : Nat) : SequenceBuffer T capacity :=
  let start_sequence := self.sequence_num.toNat
  let finish_sequence := if finish_sequence < start_sequence then finish_sequence + 65536 else finish_sequence
  if finish_sequence - start_sequence < capacity then
    (List.range' start_sequence (finish_sequence + 1 - start_sequence)).foldl
      (fun self sequence => (self.remove (.ofNat sequence)).2) self
  else
    { self with
      entries := .replicate capacity default
      entry_sequences := .replicate capacity none }

def advance_sequence (self : SequenceBuffer T capacity) (sequence_num : UInt16) : SequenceBuffer T capacity :=
  if sequence_greater_than (sequence_num + 1) self.sequence_num then
    { self.remove_entries sequence_num.toNat with sequence_num := sequence_num + 1 }
  else self

/-- Is the sequence too far behind the buffer to be inserted? -/
def too_old (self : SequenceBuffer T capacity) (sequence_num : UInt16) : Bool :=
  sequence_less_than sequence_num (self.sequence_num - .ofNat capacity)

def insert (self : SequenceBuffer T capacity) (sequence_num : UInt16) (entry : T) : SequenceBuffer T capacity :=
  if self.too_old sequence_num then self
  else
    let self := self.advance_sequence sequence_num
    let index := self.index sequence_num
    { self with
      entry_sequences := self.entry_sequences.set index (some sequence_num)
      entries := self.entries.set index entry }

end SequenceBuffer

/-! ## Congestion control -/

/-- `CongestionControl`. -/
structure CongestionControl where
  rtt : Duration
  rtt_variance : Duration
  rtt_alpha : Float32
  rtt_beta : Float32
  packets_lost : UInt32
  packets_sent : UInt32
  throttle : Float32
  min_throttle : Float32
  max_throttle : Float32
  last_throttle_update : Instant
  throttle_interval : Duration
  use_advanced_throttling : Bool
  throttle_scale : UInt32
  packet_throttle : UInt32
  throttle_acceleration : UInt32
  throttle_deceleration : UInt32

namespace CongestionControl

/-- `now` is the clock at the time of the call. -/
def new (rtt_alpha rtt_beta : Float32) (now : Instant) : CongestionControl where
  rtt := from_millis 50
  rtt_variance := from_millis 25
  rtt_alpha := rtt_alpha
  rtt_beta := rtt_beta
  packets_lost := 0
  packets_sent := 0
  throttle := 0.0
  min_throttle := 0.0
  max_throttle := 1.0
  last_throttle_update := now
  throttle_interval := from_secs 1
  use_advanced_throttling := false
  throttle_scale := 32
  packet_throttle := 32
  throttle_acceleration := 2
  throttle_deceleration := 2

def default (now : Instant) : CongestionControl := new 0.1 0.25 now

def enable_advanced_throttling (self : CongestionControl) (scale acceleration deceleration interval_ms : UInt32) :
    CongestionControl :=
  { self with
    use_advanced_throttling := true
    throttle_scale := scale
    packet_throttle := scale
    throttle_acceleration := acceleration
    throttle_deceleration := deceleration
    throttle_interval := from_millis interval_ms.toNat }

def update_rtt (self : CongestionControl) (sample : Duration) : CongestionControl :=
  let sample_ms := Float32.ofNat (as_millis sample)
  let rtt_ms := Float32.ofNat (as_millis self.rtt)
  let new_rtt_ms := (1.0 - self.rtt_alpha) * rtt_ms + self.rtt_alpha * sample_ms
  let diff := (rtt_ms - sample_ms).abs
  let var_ms := Float32.ofNat (as_millis self.rtt_variance)
  let new_var_ms := (1.0 - self.rtt_beta) * var_ms + self.rtt_beta * diff
  { self with
    rtt := from_millis new_rtt_ms.toUInt64.toNat
    rtt_variance := from_millis new_var_ms.toUInt64.toNat }

def rto (self : CongestionControl) : Duration := self.rtt + from_millis (4 * as_millis self.rtt_variance)

def record_loss (self : CongestionControl) : CongestionControl :=
  { self with packets_lost := self.packets_lost + 1 }

def record_sent (self : CongestionControl) : CongestionControl :=
  { self with packets_sent := self.packets_sent + 1 }

def loss_rate (self : CongestionControl) : Float32 :=
  if self.packets_sent == 0 then 0.0
  else Float32.ofNat self.packets_lost.toNat / Float32.ofNat self.packets_sent.toNat

/-- `a.min(b)` on `f32` values that are numbers. -/
def fmin (a b : Float32) : Float32 := if a ≤ b then a else b

def fmax (a b : Float32) : Float32 := if b ≤ a then a else b

def update_simple_throttle (self : CongestionControl) (loss_rate : Float32) : CongestionControl :=
  if loss_rate > 0.05 then { self with throttle := fmin (self.throttle + 0.1) self.max_throttle }
  else if loss_rate < 0.01 ∧ self.throttle > self.min_throttle then
    { self with throttle := fmax (self.throttle - 0.05) self.min_throttle }
  else self

def update_advanced_throttle (self : CongestionControl) (loss_rate : Float32) : CongestionControl :=
  let packet_throttle :=
    if loss_rate > 0.01 then
      if self.packet_throttle > self.throttle_deceleration then self.packet_throttle - self.throttle_deceleration
      else 0
    else if loss_rate < 0.005 ∧ self.packet_throttle < self.throttle_scale then
      min (self.packet_throttle + self.throttle_acceleration) self.throttle_scale
    else self.packet_throttle
  { self with
    packet_throttle
    throttle := 1.0 - Float32.ofNat packet_throttle.toNat / Float32.ofNat self.throttle_scale.toNat }

def update_throttle (self : CongestionControl) (now : Instant) : Bool × CongestionControl :=
  if now - self.last_throttle_update < self.throttle_interval then (false, self)
  else
    let loss_rate := self.loss_rate
    let self :=
      if self.use_advanced_throttling then self.update_advanced_throttle loss_rate
      else self.update_simple_throttle loss_rate
    (true, { self with packets_lost := 0, packets_sent := 0, last_throttle_update := now })

def configure_throttle (self : CongestionControl) (interval_ms acceleration deceleration : UInt32) :
    CongestionControl :=
  { self with
    throttle_interval := from_millis interval_ms.toNat
    throttle_acceleration := acceleration
    throttle_deceleration := deceleration }

end CongestionControl

/-! ## Acknowledgment handler -/

/-- `ReceivedPacket`: a marker. -/
structure ReceivedPacket where
deriving DecidableEq, Repr, Inhabited

/-- `SentPacket`. -/
structure SentPacket where
  packet_type : PacketType
  payload : Bytes
  ordering_guarantee : OrderingGuarantee
  item_identifier : Option UInt16
  sent_time : Instant
deriving DecidableEq, Repr

/-- `REDUNDANT_PACKET_ACKS_SIZE`. -/
def redundant_packet_acks_size : Nat := 32

/-- `AcknowledgmentHandler`. -/
structure AcknowledgmentHandler where
  sequence_number : UInt16
  remote_ack_sequence_num : UInt16
  sent_packets : Std.ExtTreeMap UInt16 SentPacket
  received_packets : SequenceBuffer ReceivedPacket 33
  congestion : CongestionControl

namespace AcknowledgmentHandler

def with_congestion (congestion : CongestionControl) : AcknowledgmentHandler where
  sequence_number := 0
  remote_ack_sequence_num := 65535
  sent_packets := ∅
  received_packets := .with_capacity 33 (by decide)
  congestion := congestion

def new (now : Instant) : AcknowledgmentHandler := with_congestion (.default now)

def packets_in_flight (self : AcknowledgmentHandler) : UInt16 := .ofNat self.sent_packets.size

def local_sequence_num (self : AcknowledgmentHandler) : UInt16 := self.sequence_number

def remote_sequence_num (self : AcknowledgmentHandler) : UInt16 := self.received_packets.sequence_num - 1

/-- Bit `i - 1` says whether `remote_sequence_num - i` was received. -/
def ack_bitfield (self : AcknowledgmentHandler) : UInt32 :=
  let most_recent_remote_seq_num := self.remote_sequence_num
  ((List.range' 1 redundant_packet_acks_size).foldl
    (fun (acc : UInt32 × UInt32) i =>
      let (ack_bitfield, mask) := acc
      let sequence := most_recent_remote_seq_num - .ofNat i
      let ack_bitfield :=
        if self.received_packets.exists_at sequence then ack_bitfield ||| mask else ack_bitfield
      (ack_bitfield, mask <<< 1))
    (0, 1)).1

/-- Does an acknowledgment of `sequence` with this mask name `x`? -/
def names (sequence : UInt16) (received_mask : UInt32) (x : UInt16) : Bool :=
  x == sequence || (List.range' 1 redundant_packet_acks_size).any fun i =>
    received_mask.toNat.testBit (i - 1) && x == sequence - .ofNat i

/-- A sent packet is acknowledged: it is forgotten and its round trip measured. -/
def acknowledge_sent (self : AcknowledgmentHandler) (ack_sequence : UInt16) (now : Instant) :
    AcknowledgmentHandler :=
  match self.sent_packets[ack_sequence]? with
  | some sent_packet =>
    { self with
      sent_packets := self.sent_packets.erase ack_sequence
      congestion := self.congestion.update_rtt (now - sent_packet.sent_time) }
  | none => self

def process_incoming (self : AcknowledgmentHandler) (remote_seq_num remote_ack_seq : UInt16)
    (remote_ack_field : UInt32) (now : Instant) : AcknowledgmentHandler :=
  let self :=
    if sequence_greater_than remote_ack_seq self.remote_ack_sequence_num then
      { self with remote_ack_sequence_num := remote_ack_seq }
    else self
  let self := { self with received_packets := self.received_packets.insert remote_seq_num {} }
  let self := self.acknowledge_sent remote_ack_seq now
  ((List.range' 1 redundant_packet_acks_size).foldl
    (fun (acc : AcknowledgmentHandler × UInt32) i =>
      let (self, remote_ack_field) := acc
      let ack_sequence := remote_ack_seq - .ofNat i
      let self := if remote_ack_field &&& 1 == 1 then self.acknowledge_sent ack_sequence now else self
      (self, remote_ack_field >>> 1))
    (self, remote_ack_field)).1

def process_outgoing (self : AcknowledgmentHandler) (packet_type : PacketType) (payload : Bytes)
    (ordering_guarantee : OrderingGuarantee) (item_identifier : Option UInt16) (now : Instant) :
    AcknowledgmentHandler :=
  { self with
    sent_packets := self.sent_packets.insert self.sequence_number
      { packet_type, payload, ordering_guarantee, item_identifier, sent_time := now }
    congestion := self.congestion.record_sent
    sequence_number := self.sequence_number + 1 }

/-- Is the sent sequence too far behind the latest acknowledged one? -/
def is_dropped (self : AcknowledgmentHandler) (s : UInt16) : Bool :=
  if sequence_less_than s self.remote_ack_sequence_num then
    let distance := self.remote_ack_sequence_num - s
    decide (distance > .ofNat redundant_packet_acks_size)
  else false

/-- The sent packets given up, in the order of their sequences. -/
def dropped_packets (self : AcknowledgmentHandler) : List SentPacket × AcknowledgmentHandler :=
  let sent_sequences := self.sent_packets.keys
  let gone := sent_sequences.filter self.is_dropped
  let dropped := gone.filterMap (self.sent_packets[·]?)
  (dropped,
    { self with
      sent_packets := gone.foldl (fun sent s => sent.erase s) self.sent_packets
      congestion := dropped.foldl (fun congestion _ => congestion.record_loss) self.congestion })

end AcknowledgmentHandler

end Bitfold
