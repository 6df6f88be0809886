import Bitfold.Command
/-!
# The parts of a peer

`flow_control.rs`, `bandwidth_throttle.rs`, `pmtu_discovery.rs`,
`fragment_buffer.rs`, `command_queue.rs`, `peer_state.rs` and
`statistics.rs`.
-/

namespace Bitfold

/-! ## Flow control -/

/-- `FlowControl`. -/
structure FlowControl where
  window_size : UInt32
  reliable_data_in_transit : UInt32
deriving DecidableEq, Repr

namespace FlowControl

def new (config : Config) : FlowControl where
  window_size := config.initial_window_size
  reliable_data_in_transit := 0

/-- `x.clamp(min, max)`, which asserts that the bounds are in order. -/
def clamp (x low high : UInt32) : Outcome UInt32 :=
  if low ≤ high then .ok (if x < low then low else if x > high then high else x)
  else panic "assertion failed: min <= max"

def set_window_size (self : FlowControl) (config : Config) (window_size : UInt32) : Outcome FlowControl := do
  let window_size ← clamp window_size config.min_window_size config.max_window_size
  pure { self with window_size }

def record_reliable_data_sent (self : FlowControl) (data_size : UInt32) : FlowControl :=
  { self with reliable_data_in_transit := saturating_add32 self.reliable_data_in_transit data_size }

def record_reliable_data_acked (self : FlowControl) (data_size : UInt32) : FlowControl :=
  { self with reliable_data_in_transit := saturating_sub32 self.reliable_data_in_transit data_size }

def can_send_reliable (self : FlowControl) (config : Config) (packets_in_flight : UInt16) : Bool :=
  if !config.use_window_flow_control then decide (packets_in_flight < config.max_packets_in_flight)
  else
    let approx_packet_size := config.fragment_size.toUInt32
    let window_bytes := self.window_size * approx_packet_size
    decide (self.reliable_data_in_transit < window_bytes)

def adjust_window_size (self : FlowControl) (config : Config) (loss_rate : Float32) (rtt_ms : UInt32) :
    FlowControl :=
  if !config.use_window_flow_control then self
  else if loss_rate < 0.01 ∧ rtt_ms < 200 then
    { self with window_size := min (self.window_size + max (self.window_size / 32) 1) config.max_window_size }
  else if loss_rate > 0.05 ∨ rtt_ms > 500 then
    { self with window_size := max (self.window_size - max (self.window_size / 16) 1) config.min_window_size }
  else self

end FlowControl

/-! ## Bandwidth -/

/-- `BANDWIDTH_WINDOW`. -/
def bandwidth_window : Duration := from_secs 1

/-- `BandwidthThrottle`. -/
structure BandwidthThrottle where
  bytes_sent_this_window : UInt32
  bytes_received_this_window : UInt32
  bandwidth_window_start : Instant
  outgoing_bandwidth_limit : UInt32
  incoming_bandwidth_limit : UInt32
deriving DecidableEq, Repr

namespace BandwidthThrottle

def new (outgoing_limit incoming_limit : UInt32) (start_time : Instant) : BandwidthThrottle where
  bytes_sent_this_window := 0
  bytes_received_this_window := 0
  bandwidth_window_start := start_time
  outgoing_bandwidth_limit := outgoing_limit
  incoming_bandwidth_limit := incoming_limit

def update_bandwidth_window (self : BandwidthThrottle) (time : Instant) : Bool × BandwidthThrottle :=
  if time - self.bandwidth_window_start ≥ bandwidth_window then
    (true,
      { self with
        bytes_sent_this_window := 0
        bytes_received_this_window := 0
        bandwidth_window_start := time })
  else (false, self)

def record_bytes_sent (self : BandwidthThrottle) (bytes : UInt32) : BandwidthThrottle :=
  { self with bytes_sent_this_window := saturating_add32 self.bytes_sent_this_window bytes }

def record_bytes_received (self : BandwidthThrottle) (bytes : UInt32) : BandwidthThrottle :=
  { self with bytes_received_this_window := saturating_add32 self.bytes_received_this_window bytes }

def can_send_within_bandwidth (self : BandwidthThrottle) : Bool :=
  self.outgoing_bandwidth_limit == 0 || decide (self.bytes_sent_this_window < self.outgoing_bandwidth_limit)

def can_receive_within_bandwidth (self : BandwidthThrottle) : Bool :=
  self.incoming_bandwidth_limit == 0 || decide (self.bytes_received_this_window < self.incoming_bandwidth_limit)

def set_outgoing_bandwidth_limit (self : BandwidthThrottle) (limit : UInt32) : BandwidthThrottle :=
  { self with outgoing_bandwidth_limit := limit }

def set_incoming_bandwidth_limit (self : BandwidthThrottle) (limit : UInt32) : BandwidthThrottle :=
  { self with incoming_bandwidth_limit := limit }

end BandwidthThrottle

/-! ## Datagram overhead -/

/-- Bytes the compression header may take. -/
def compression_overhead (config : Config) : Nat :=
  match config.compression with
  | .Lz4 => 5
  | _ => 1

def checksum_overhead (config : Config) : Nat := if config.use_checksums then 4 else 0

/-- Bytes of a datagram that are not command bytes: the command count, the
compression header and the checksum. -/
def static_overhead (config : Config) : Nat := 1 + compression_overhead config + checksum_overhead config

/-! ## Path MTU discovery -/

/-- An outstanding probe: its size, its token and when it was sent. -/
abbrev Probe := UInt16 × UInt32 × Instant

/-- `PmtuDiscovery`. -/
structure PmtuDiscovery where
  config : Config
  fragment_size : UInt16
  low : UInt16
  high : UInt16
  last_probe : Instant
  outstanding : Option Probe
deriving DecidableEq, Repr

/-- What `rand` supplies for one probe: the token and the payload bytes. -/
structure ProbeDraw where
  token : UInt32
  noise : Nat → UInt8

namespace PmtuDiscovery

def new (config : Config) (time : Instant) : PmtuDiscovery where
  config := config
  fragment_size := config.fragment_size
  low := config.pmtu_min
  high := config.pmtu_max
  last_probe := time
  outstanding := none

def current_fragment_size (self : PmtuDiscovery) : UInt16 := self.fragment_size

def low_bound (self : PmtuDiscovery) : UInt16 := self.low

def high_bound (self : PmtuDiscovery) : UInt16 := self.high

/-- Bytes of a datagram with one probe in it that are not its payload. -/
def probe_overhead (config : Config) : UInt16 := .ofNat (static_overhead config + (2 + (1 + 2 + 4 + 2)))

/-- The largest datagram the remote peer can receive. -/
def datagram_cap (config : Config) : UInt16 := .ofNat (min config.receive_buffer_max_size 65535)

def clamp_high (self : PmtuDiscovery) : PmtuDiscovery :=
  if self.high > datagram_cap self.config then { self with high := datagram_cap self.config } else self

def handle_pmtu (self : PmtuDiscovery) (time : Instant) (rto : Duration) (draw : ProbeDraw) :
    Option ProtocolCommand × PmtuDiscovery :=
  if !self.config.use_pmtu_discovery then (none, self)
  else
    match self.outstanding with
    | some (size, _, sent) =>
      let timeout := max rto (from_millis 200)
      if time - sent > timeout then
        let high := if size > 0 then min self.high (size - 1) else self.high
        (none, { self with high, outstanding := none, last_probe := time })
      else (none, self)
    | none =>
      let self := self.clamp_high
      if saturating_sub16 self.high self.low ≤ self.config.pmtu_converge_threshold then
        (none, { self with fragment_size := self.low })
      else
        let interval := from_millis self.config.pmtu_interval_ms.toNat
        if time - self.last_probe < interval then (none, self)
        else
          let mid : UInt16 := .ofNat ((self.low.toNat + self.high.toNat) / 2)
          let target := min mid (datagram_cap self.config)
          let total_overhead := probe_overhead self.config
          let payload_len := if target > total_overhead then max (target - total_overhead).toNat 1 else 1
          let payload := SharedBytes.from_vec ((List.range payload_len).map draw.noise)
          (some (.PMTUProbe target draw.token payload),
            { self with outstanding := some (mid, draw.token, time), last_probe := time })

def process_reply (self : PmtuDiscovery) (size : UInt16) (token : UInt32) (time : Instant) :
    Bool × PmtuDiscovery :=
  match self.outstanding with
  | some (_, pending_token, _) =>
    if pending_token == token then
      let low := max self.low size
      (true, { self with low, fragment_size := low, outstanding := none, last_probe := time })
    else (false, self)
  | none => (false, self)

def create_reply (size : UInt16) (token : UInt32) : ProtocolCommand := .PMTUReply size token

end PmtuDiscovery

/-! ## Fragment reassembly -/

/-- `CommandFragmentBuffer`. -/
structure CommandFragmentBuffer where
  channel_id : UInt8
  fragment_count : UInt8
  ordered : Bool
  fragments : Std.ExtTreeMap UInt8 Bytes
  created_at : Instant

namespace CommandFragmentBuffer

def new (channel_id fragment_count : UInt8) (ordered : Bool) (created_at : Instant) : CommandFragmentBuffer where
  channel_id := channel_id
  fragment_count := fragment_count
  ordered := ordered
  fragments := ∅
  created_at := created_at

def add_fragment (self : CommandFragmentBuffer) (fragment_id : UInt8) (data : Bytes) : CommandFragmentBuffer :=
  { self with fragments := self.fragments.insert fragment_id data }

def is_complete (self : CommandFragmentBuffer) : Bool :=
  self.fragments.size == self.fragment_count.toNat

/-- The fragments of the given ids, one after the other. -/
def collect (fragments : Std.ExtTreeMap UInt8 Bytes) : List UInt8 → Option Bytes
  | [] => some []
  | fragment_id :: ids =>
    match fragments[fragment_id]? with
    | some data => (collect (fragments.erase fragment_id) ids).map (data ++ ·)
    | none => none

def reassemble (self : CommandFragmentBuffer) : Option Bytes :=
  if !self.is_complete then none
  else collect self.fragments ((List.range self.fragment_count.toNat).map .ofNat)

end CommandFragmentBuffer

/-- `FRAGMENT_TIMEOUT`. -/
def fragment_timeout : Duration := from_secs 5

def cleanup_stale_fragments (command_fragments : Std.ExtTreeMap UInt16 CommandFragmentBuffer) (time : Instant) :
    Std.ExtTreeMap UInt16 CommandFragmentBuffer :=
  command_fragments.filter fun _ buffer => !decide (time - buffer.created_at > fragment_timeout)

/-! ## Queue, state and statistics -/

/-- `CommandQueue`. -/
structure CommandQueue where
  commands : List ProtocolCommand
  max_queue_size : Nat
deriving DecidableEq, Repr

namespace CommandQueue

def new (capacity : Nat) : CommandQueue := ⟨[], capacity⟩

def default : CommandQueue := new 256

/-- Returns whether the queue should be flushed. -/
def enqueue (self : CommandQueue) (command : ProtocolCommand) : Bool × CommandQueue :=
  let self := { self with commands := self.commands ++ [command] }
  (decide (self.commands.length ≥ self.max_queue_size), self)

def drain (self : CommandQueue) : List ProtocolCommand × CommandQueue :=
  (self.commands, { self with commands := [] })

end CommandQueue

/-- `PeerState`. -/
inductive PeerState where
  | Idle
  | Connecting
  | AcknowledgingConnect
  | ConnectionSucceeded
  | Connected
  | Disconnecting
  | Zombie
deriving DecidableEq, Repr

namespace PeerState

def is_established : PeerState → Bool
  | Connected | ConnectionSucceeded => true
  | _ => false

def is_disconnecting : PeerState → Bool
  | Disconnecting | Zombie => true
  | _ => false

end PeerState

/-- `PeerStatistics`. -/
structure PeerStatistics where
  packets_sent : Nat
  packets_received : Nat
  packets_lost : Nat
  bytes_sent : Nat
  bytes_received : Nat
deriving DecidableEq, Repr

def PeerStatistics.default : PeerStatistics := ⟨0, 0, 0, 0, 0⟩

end Bitfold
