import Bitfold.Acknowledgment
import Bitfold.Channel
import Bitfold.PeerParts
import Bitfold.Unsequenced
/-!
# Peers

`peer/mod.rs`: the state of a connection to a remote peer and the operations
on it. What `rand` and the clock supply is passed in. The buffer pools and
the four sequence fields that nothing reads are left out.
-/

namespace Bitfold

/-- `Peer`. -/
structure Peer where
  last_heard : Instant
  last_sent : Instant
  remote_address : SocketAddr
  state : PeerState
  peer_id : UInt16
  incoming_session_id : UInt16
  outgoing_session_id : UInt16
  connect_id : UInt32
  next_unreliable_sequence : UInt16
  unsequenced_state : UnsequencedState
  acknowledge_handler : AcknowledgmentHandler
  config : Config
  command_queue : CommandQueue
  total_waiting_data : Nat
  command_fragments : Std.ExtTreeMap UInt16 CommandFragmentBuffer
  channel_states : Std.ExtTreeMap UInt8 ChannelState
  flow_control : FlowControl
  bandwidth_throttle : BandwidthThrottle
  statistics : PeerStatistics
  pmtu : PmtuDiscovery

/-- What a new peer takes from outside: two random ids and the clock. -/
structure PeerDraw where
  outgoing_session_id : UInt16
  connect_id : UInt32
  now : Instant
deriving DecidableEq, Repr

namespace Peer

/-- The acknowledgment handler of a new peer. -/
def new_handler (config : Config) (now : Instant) : AcknowledgmentHandler :=
  let handler := AcknowledgmentHandler.new now
  if config.use_advanced_throttling then
    { handler with
      congestion := handler.congestion.enable_advanced_throttling config.throttle_scale
        config.throttle_acceleration config.throttle_deceleration config.throttle_interval }
  else handler

def new (addr : SocketAddr) (config : Config) (time : Instant) (draw : PeerDraw) : Peer where
  last_heard := time
  last_sent := time
  remote_address := addr
  state := .Idle
  peer_id := 0
  incoming_session_id := 0
  outgoing_session_id := draw.outgoing_session_id
  connect_id := draw.connect_id
  next_unreliable_sequence := 0
  unsequenced_state := .new
  acknowledge_handler := new_handler config draw.now
  config := config
  command_queue := .default
  total_waiting_data := 0
  command_fragments := ∅
  channel_states := ∅
  flow_control := .new config
  bandwidth_throttle := .new config.outgoing_bandwidth_limit config.incoming_bandwidth_limit time
  statistics := .default
  pmtu := .new config time

def is_established (self : Peer) : Bool := self.state.is_established

/-- Queues a command past the admission check. -/
def push_command (self : Peer) (command : ProtocolCommand) : Peer :=
  { self with command_queue := (self.command_queue.enqueue command).2 }

def initiate_connect (self : Peer) : Peer :=
  if self.state = .Idle then
    { self with state := .Connecting }.push_command
      (.Connect self.config.channel_count 1400 1 self.outgoing_session_id self.connect_id)
  else self

/-- Returns whether the connection became established by this send. -/
def record_send (self : Peer) : Bool × Peer :=
  let was_est := self.is_established
  let self :=
    match self.state with
    | .Idle =>
      if self.config.use_connection_handshake then self.initiate_connect
      else { self with state := .Connecting }
    | .ConnectionSucceeded => { self with state := .Connected }
    | _ => self
  (!was_est && self.is_established, self)

/-- Returns whether the connection became established by this receive. -/
def record_recv (self : Peer) : Bool × Peer :=
  let was_est := self.is_established
  let self :=
    match self.state with
    | .Idle => if !self.config.use_connection_handshake then { self with state := .Connected } else self
    | .Connecting => if !self.config.use_connection_handshake then { self with state := .Connected } else self
    | .AcknowledgingConnect => { self with state := .Connected }
    | _ => self
  (!was_est && self.is_established, self)

def disconnect (self : Peer) : Peer :=
  if !self.state.is_disconnecting then { self with state := .Disconnecting }.push_command (.Disconnect 0)
  else self

def packets_in_flight (self : Peer) : UInt16 := self.acknowledge_handler.packets_in_flight

def rtt (self : Peer) : Duration := self.acknowledge_handler.congestion.rtt

def rto (self : Peer) : Duration := self.acknowledge_handler.congestion.rto

def loss_rate (self : Peer) : Float32 := self.acknowledge_handler.congestion.loss_rate

def update_throttle (self : Peer) (time : Instant) : Bool × Peer :=
  let (updated, congestion) := self.acknowledge_handler.congestion.update_throttle time
  (updated, { self with acknowledge_handler := { self.acknowledge_handler with congestion } })

def record_packet_lost (self : Peer) : Peer :=
  { self with statistics := { self.statistics with packets_lost := self.statistics.packets_lost + 1 } }

def gather_dropped_packets (self : Peer) : List SentPacket × Peer :=
  let (dropped, acknowledge_handler) := self.acknowledge_handler.dropped_packets
  (dropped, dropped.foldl (fun self _ => self.record_packet_lost) { self with acknowledge_handler })

def record_packet_sent (self : Peer) : Peer :=
  { self with statistics := { self.statistics with packets_sent := self.statistics.packets_sent + 1 } }

def record_packet_received (self : Peer) : Peer :=
  { self with statistics := { self.statistics with packets_received := self.statistics.packets_received + 1 } }

def record_data_sent (self : Peer) (bytes : Nat) : Peer :=
  { self with statistics := { self.statistics with bytes_sent := self.statistics.bytes_sent + bytes } }

def record_data_received (self : Peer) (bytes : Nat) : Peer :=
  { self with statistics := { self.statistics with bytes_received := self.statistics.bytes_received + bytes } }

def current_fragment_size (self : Peer) : UInt16 := self.pmtu.current_fragment_size

def window_size (self : Peer) : UInt32 := self.flow_control.window_size

def set_window_size (self : Peer) (window_size : UInt32) : Outcome Peer := do
  let flow_control ← self.flow_control.set_window_size self.config window_size
  pure { self with flow_control }

def record_reliable_data_sent (self : Peer) (data_size : UInt32) : Peer :=
  { self with flow_control := self.flow_control.record_reliable_data_sent data_size }

def record_reliable_data_acked (self : Peer) (data_size : UInt32) : Peer :=
  { self with flow_control := self.flow_control.record_reliable_data_acked data_size }

def can_send_reliable (self : Peer) : Bool :=
  self.flow_control.can_send_reliable self.config self.packets_in_flight

def adjust_window_size (self : Peer) : Peer :=
  { self with
    flow_control := self.flow_control.adjust_window_size self.config self.loss_rate (.ofNat (as_millis self.rtt)) }

def update_bandwidth_window (self : Peer) (time : Instant) : Peer :=
  { self with bandwidth_throttle := (self.bandwidth_throttle.update_bandwidth_window time).2 }

def record_bytes_sent (self : Peer) (bytes : UInt32) : Peer :=
  { self with bandwidth_throttle := self.bandwidth_throttle.record_bytes_sent bytes }

def record_bytes_received (self : Peer) (bytes : UInt32) : Peer :=
  { self with bandwidth_throttle := self.bandwidth_throttle.record_bytes_received bytes }

def can_send_within_bandwidth (self : Peer) : Bool := self.bandwidth_throttle.can_send_within_bandwidth

def can_receive_within_bandwidth (self : Peer) : Bool := self.bandwidth_throttle.can_receive_within_bandwidth

def next_unsequenced_group (self : Peer) : UInt16 × Peer :=
  let (group, unsequenced_state) := self.unsequenced_state.next_outgoing_group
  (group, { self with unsequenced_state })

def is_unsequenced_duplicate (self : Peer) (group : UInt16) : Bool := self.unsequenced_state.is_duplicate group

def mark_unsequenced_received (self : Peer) (group : UInt16) : Peer :=
  { self with unsequenced_state := self.unsequenced_state.mark_received group }

def cleanup_stale_fragments (self : Peer) (time : Instant) : Peer :=
  { self with command_fragments := Bitfold.cleanup_stale_fragments self.command_fragments time }

/-! ## The command queue -/

/-- The payload bytes a command carries; a probe's padding does not count. -/
def command_data_size : ProtocolCommand → Nat
  | .SendReliable _ _ _ data => data.len
  | .SendUnreliable _ data => data.len
  | .SendUnreliableSequenced _ _ data => data.len
  | .SendUnsequenced _ _ data => data.len
  | .SendFragment _ _ _ _ _ data => data.len
  | .SendUnreliableFragment _ _ _ _ data => data.len
  | _ => 0

/-- Queues a command, or drops it if it would exceed `max_waiting_data`.
Returns whether the queue should be flushed. -/
def enqueue_command (self : Peer) (command : ProtocolCommand) : Bool × Peer :=
  let data_size := command_data_size command
  if self.config.max_waiting_data > 0 ∧ self.total_waiting_data + data_size > self.config.max_waiting_data then
    (false, self)
  else
    let (flush, command_queue) := self.command_queue.enqueue command
    (flush, { self with total_waiting_data := self.total_waiting_data + data_size, command_queue })

def enqueue_ack_command (self : Peer) (sent_time : Option UInt32) : Peer :=
  (self.enqueue_command (.Acknowledge self.acknowledge_handler.remote_sequence_num
    self.acknowledge_handler.ack_bitfield sent_time)).2

def enqueue_ping_command (self : Peer) (timestamp : UInt32) : Peer := (self.enqueue_command (.Ping timestamp)).2

def enqueue_pong_command (self : Peer) (timestamp : UInt32) : Peer := (self.enqueue_command (.Pong timestamp)).2

def drain_commands (self : Peer) : List ProtocolCommand × Peer :=
  let (commands, command_queue) := self.command_queue.drain
  (commands, { self with total_waiting_data := 0, command_queue })

def has_queued_commands (self : Peer) : Bool := !self.command_queue.commands.isEmpty

def handle_pmtu (self : Peer) (time : Instant) (draw : ProbeDraw) : Peer :=
  let (probe_cmd, pmtu) := self.pmtu.handle_pmtu time self.rto draw
  let self := { self with pmtu }
  match probe_cmd with
  | some probe_cmd => (self.enqueue_command probe_cmd).2
  | none => self

end Peer

end Bitfold
