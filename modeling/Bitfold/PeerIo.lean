import Bitfold.Envelope
import Bitfold.Peer
/-!
# Fragmenting, encoding and processing

`peer/fragmenter.rs`, `peer/encoder.rs` and `peer/command_processor.rs`. A
function that returns a `Result` returns the peer beside it: what was done
before an error stays done.
-/

namespace Bitfold

open Lib CommandEncoder CommandDecoder

namespace Peer

/-! ## Fragmenter -/

/-- The largest datagram to build. -/
def datagram_cap (self : Peer) : Nat :=
  min self.current_fragment_size.toNat self.config.receive_buffer_max_size

/-- Payload bytes left in a datagram for one command with this header. -/
def payload_budget (self : Peer) (header : Nat) : Nat :=
  self.datagram_cap - static_overhead self.config - 2 - header

/-- `a.div_ceil(b)`. -/
def div_ceil (a b : Nat) : Nat := (a + b - 1) / b

/-- The bounds of a fragment: where it starts and how long it is. -/
def fragment_range (len fragment_payload fragment_id : Nat) : Nat × Nat :=
  let start := fragment_id * fragment_payload
  let stop := min ((fragment_id + 1) * fragment_payload) len
  (start, stop - start)

/-- Queues data as one command, or as fragments when it does not fit one
datagram. The two kinds of data differ in their headers and commands. -/
def enqueue_data (self : Peer) (data : Bytes) (header fragment_header : Nat)
    (whole : SharedBytes → ProtocolCommand) (fragment : UInt8 → UInt8 → SharedBytes → ProtocolCommand) :
    Outcome Peer := do
  if self.payload_budget header < 1 then return self
  if data.length ≤ self.payload_budget header then
    return (self.enqueue_command (whole (.from_arc data))).2
  let fragment_payload := self.payload_budget fragment_header
  if fragment_payload < 1 then return self
  let total_fragments := div_ceil data.length fragment_payload
  if total_fragments > 255 then return self
  if UInt8.ofNat total_fragments > self.config.max_fragments then
    -- too many: the first fragment goes out alone
    let base := SharedBytes.from_arc data
    let fragment_data ← base.slice 0 (min fragment_payload base.len)
    return (self.enqueue_command (fragment 0 1 fragment_data)).2
  (List.range total_fragments).foldlM
    (fun self fragment_id => do
      let (start, len) := fragment_range data.length fragment_payload fragment_id
      let fragment_data ← (SharedBytes.from_arc data).slice start len
      return (self.enqueue_command (fragment (.ofNat fragment_id) (.ofNat total_fragments) fragment_data)).2)
    self

/-- Returns the sequence number used for the packet. -/
def enqueue_reliable_data (self : Peer) (channel_id : UInt8) (data : Bytes) (ordered : Bool) :
    Outcome (UInt16 × Peer) := do
  let sequence := self.acknowledge_handler.local_sequence_num
  let self ← self.enqueue_data data (1 + 1 + 2 + 1 + 2) (1 + 1 + 2 + 1 + 1 + 1 + 2)
    (.SendReliable channel_id sequence ordered) (.SendFragment channel_id sequence ordered)
  return (sequence, self)

/-- Returns the sequence number used for reassembly. -/
def enqueue_unreliable_data (self : Peer) (channel_id : UInt8) (data : Bytes) : Outcome (UInt16 × Peer) := do
  let sequence := self.next_unreliable_sequence
  let self := { self with next_unreliable_sequence := self.next_unreliable_sequence + 1 }
  let self ← self.enqueue_data data (1 + 1 + 2) (1 + 1 + 2 + 1 + 1 + 2)
    (.SendUnreliable channel_id) (.SendUnreliableFragment channel_id sequence)
  return (sequence, self)

/-! ## Encoder -/

/-- Encodes, compresses and signs a packet, and counts it as sent. -/
def finish_packet (codecs : Codecs) (self : Peer) (packet : CommandPacket) : Peer × Except IoError Bytes :=
  let scratch := encode_packet_into [] packet
  -- nothing is ever put back into the pool of compression buffers
  let compression_buffer : Bytes := []
  match codecs.compress_with_buffer scratch self.config.compression self.config.compression_threshold
      compression_buffer with
  | .error e => (self, .error e)
  | .ok final_data =>
    let self := self.record_packet_sent
    let final_data := if self.config.use_checksums then codecs.append_checksum_in_place final_data else final_data
    (self.record_data_sent final_data.length, .ok final_data)

def encode_queued_commands (codecs : Codecs) (self : Peer) : Peer × Except IoError Bytes :=
  let (commands, self) := self.drain_commands
  let packet := commands.foldl CommandPacket.add_command .new
  self.finish_packet codecs packet

/-- How many of the commands fit, the bytes of those before them given. -/
def select_count (static_overhead max_size : Nat) : Nat → List ProtocolCommand → Nat
  | _, [] => 0
  | aggregated_len, cmd :: cmds =>
    let cmd_total := 2 + (encode_command cmd).length
    if static_overhead + aggregated_len + cmd_total > max_size then 0
    else select_count static_overhead max_size (aggregated_len + cmd_total) cmds + 1

/-- Is a PMTU probe the next command? It may exceed the fragment size. -/
def first_is_pmtu_probe (self : Peer) : Bool :=
  match self.command_queue.commands with
  | .PMTUProbe .. :: _ => true
  | _ => false

/-- The size limit in force for the next datagram. -/
def effective_max_size (self : Peer) (max_size : Nat) : Nat :=
  if self.first_is_pmtu_probe then self.config.receive_buffer_max_size else max_size

/-- How many queued commands the next datagram takes. -/
def selected_count (self : Peer) (max_size : Nat) : Nat :=
  select_count (static_overhead self.config) (self.effective_max_size max_size) 0 self.command_queue.commands

/-- Puts drained commands back through the admission check. -/
def requeue (self : Peer) (commands : List ProtocolCommand) : Peer :=
  commands.foldl (fun self cmd => (self.enqueue_command cmd).2) self

def encode_queued_commands_bounded (codecs : Codecs) (self : Peer) (max_size : Nat) :
    Peer × Except IoError (Option Bytes) :=
  if !self.has_queued_commands then (self, .ok none)
  else
    let selected_count := self.selected_count max_size
    let max_size := self.effective_max_size max_size
    if selected_count = 0 then (self, .ok none)
    else
      let (drained, self) := self.drain_commands
      let packet := (drained.take selected_count).foldl CommandPacket.add_command .new
      let self := self.requeue (drained.drop selected_count)
      match self.finish_packet codecs packet with
      | (self, .error e) => (self, .error e)
      | (self, .ok final_data) =>
        if final_data.length > max_size then (self, .ok none) else (self, .ok (some final_data))

/-! ## Command processor -/

/-- What `process_command` returns. -/
abbrev Processed := Except ErrorKind IncomingPackets

/-- A packet from the remote peer. -/
def packet (self : Peer) (payload : Bytes) (delivery : DeliveryGuarantee) (ordering : OrderingGuarantee)
    (channel_id : UInt8) : Packet :=
  ⟨self.remote_address, payload, delivery, ordering, channel_id⟩

/-- The state of a channel, new if it has none. -/
def channel_state (self : Peer) (channel_id : UInt8) : ChannelState :=
  self.channel_states[channel_id]?.getD .new

/-- Passes ordered data through its channel. -/
def deliver_ordered (self : Peer) (channel_id : UInt8) (sequence : UInt16) (data : SharedBytes) :
    List SharedBytes × Peer :=
  let (ready, channel_state) := (self.channel_state channel_id).process_ordered sequence data
  (ready, { self with channel_states := self.channel_states.insert channel_id channel_state })

/-- An incoming sequence goes to the acknowledgment handler, as received and
as acknowledged at once. -/
def process_acknowledge (self : Peer) (sequence : UInt16) (received_mask : UInt32) (time : Instant) : Peer :=
  { self with
    acknowledge_handler := self.acknowledge_handler.process_incoming sequence sequence received_mask time }

def process_send_reliable (self : Peer) (channel_id : UInt8) (sequence : UInt16) (ordered : Bool)
    (data : SharedBytes) (time : Instant) : Peer × IncomingPackets :=
  let self := self.process_acknowledge sequence 0 time
  let self := self.enqueue_ack_command none
  if ordered then
    let (ordered_packets, self) := self.deliver_ordered channel_id sequence (.from_arc data.to_arc)
    (self, .many (ordered_packets.map fun packet_data =>
      (self.packet packet_data.to_arc .Reliable (.Ordered none) channel_id, .Packet)))
  else (self, .one (self.packet data.to_arc .Reliable .None channel_id) .Packet)

def process_send_unreliable_sequenced (self : Peer) (channel_id : UInt8) (sequence : UInt16) (data : SharedBytes) :
    Peer × IncomingPackets :=
  let (packet_data, channel_state) :=
    (self.channel_state channel_id).process_sequenced sequence (.from_arc data.to_arc)
  let self := { self with channel_states := self.channel_states.insert channel_id channel_state }
  match packet_data with
  | some packet_data => (self, .one (self.packet packet_data.to_arc .Unreliable (.Sequenced none) channel_id) .Packet)
  | none => (self, .zero)

def process_send_unsequenced (self : Peer) (channel_id : UInt8) (unsequenced_group : UInt16) (data : SharedBytes) :
    Peer × IncomingPackets :=
  if self.is_unsequenced_duplicate unsequenced_group then (self, .zero)
  else
    let self := self.mark_unsequenced_received unsequenced_group
    (self, .one (self.packet data.to_arc .Unreliable .Unsequenced channel_id) .Packet)

/-- The buffer of a fragment's sequence with the fragment added. -/
def fragment_buffer (self : Peer) (channel_id : UInt8) (sequence : UInt16) (ordered : Bool)
    (fragment_id fragment_count : UInt8) (data : SharedBytes) (time : Instant) : CommandFragmentBuffer :=
  (self.command_fragments[sequence]?.getD (.new channel_id fragment_count ordered time)).add_fragment fragment_id
    data.to_arc

/-- Adds a fragment to its buffer. A buffer that is complete is taken out. -/
def add_fragment (self : Peer) (channel_id : UInt8) (sequence : UInt16) (ordered : Bool)
    (fragment_id fragment_count : UInt8) (data : SharedBytes) (time : Instant) :
    Option CommandFragmentBuffer × Peer :=
  let buffer := self.fragment_buffer channel_id sequence ordered fragment_id fragment_count data time
  if buffer.is_complete then
    (some buffer, { self with command_fragments := self.command_fragments.erase sequence })
  else (none, { self with command_fragments := self.command_fragments.insert sequence buffer })

def process_send_fragment (self : Peer) (channel_id : UInt8) (sequence : UInt16) (ordered : Bool)
    (fragment_id fragment_count : UInt8) (data : SharedBytes) (time : Instant) : Peer × IncomingPackets :=
  let self := self.process_acknowledge sequence 0 time
  match self.add_fragment channel_id sequence ordered fragment_id fragment_count data time with
  | (none, self) => (self, .zero)
  | (some buffer, self) =>
    let channel_id := buffer.channel_id
    match buffer.reassemble with
    | none => (self, .zero)
    | some reassembled =>
      let self := self.enqueue_ack_command none
      if buffer.ordered then
        let (ready_packets, self) := self.deliver_ordered channel_id sequence (.from_vec reassembled)
        (self, .many (ready_packets.map fun payload =>
          (self.packet payload.to_arc .Reliable .None channel_id, .Packet)))
      else (self, .one (self.packet reassembled .Reliable .None channel_id) .Packet)

def process_send_unreliable_fragment (self : Peer) (channel_id : UInt8) (sequence : UInt16)
    (fragment_id fragment_count : UInt8) (data : SharedBytes) (time : Instant) : Peer × IncomingPackets :=
  match self.add_fragment channel_id sequence false fragment_id fragment_count data time with
  | (none, self) => (self, .zero)
  | (some buffer, self) =>
    match buffer.reassemble with
    | none => (self, .zero)
    | some reassembled => (self, .one (self.packet reassembled .Unreliable .None buffer.channel_id) .Packet)

/-- `draw` is the random peer id the server assigns. -/
def process_connect (self : Peer) (channels : UInt8) (outgoing_session_id : UInt16) (connect_id : UInt32)
    (draw : UInt16) : Peer :=
  if self.state = .Idle then
    let self := { self with
      incoming_session_id := outgoing_session_id
      peer_id := draw
      connect_id := connect_id
      state := .AcknowledgingConnect }
    self.push_command (.VerifyConnect self.peer_id (min channels self.config.channel_count) 1400
      self.incoming_session_id self.outgoing_session_id self.window_size)
  else self

/-- The smaller of our window and the server's, if windows are in use. -/
def negotiate_window (self : Peer) (window_size : UInt32) : Outcome Peer :=
  if self.config.use_window_flow_control then self.set_window_size (min window_size self.window_size)
  else pure self

def process_verify_connect (self : Peer) (peer_id incoming_session_id outgoing_session_id : UInt16)
    (window_size : UInt32) : Outcome (Peer × Processed) := do
  if self.state = .Connecting then
    let self := { self with peer_id := peer_id, incoming_session_id := incoming_session_id }
    let self ← self.negotiate_window window_size
    if outgoing_session_id ≠ self.outgoing_session_id then
      return (self, .error (.CouldNotReadHeader "Session ID mismatch"))
    else return ({ self with state := .ConnectionSucceeded }, .ok .zero)
  else return (self, .ok .zero)

def process_bandwidth_limit (self : Peer) (incoming outgoing : UInt32) : Peer :=
  { self with
    config := { self.config with incoming_bandwidth_limit := incoming, outgoing_bandwidth_limit := outgoing }
    bandwidth_throttle := (self.bandwidth_throttle.set_incoming_bandwidth_limit incoming).set_outgoing_bandwidth_limit
      outgoing }

def process_throttle_configure (self : Peer) (interval acceleration deceleration : UInt32) : Peer :=
  { self with
    acknowledge_handler := { self.acknowledge_handler with
      congestion := self.acknowledge_handler.congestion.configure_throttle interval acceleration deceleration } }

/-- The remote peer was heard from. -/
def heard (self : Peer) (time : Instant) : Peer := { self with last_heard := time }

/-- Processes one incoming command. `draw` supplies the peer id of a
connection that this command opens. -/
def process_command (self : Peer) (command : ProtocolCommand) (time : Instant) (draw : UInt16) :
    Outcome (Peer × Processed) :=
  let self := self.heard time
  match command with
  | .Acknowledge sequence received_mask _ => .ok (self.process_acknowledge sequence received_mask time, .ok .zero)
  | .Ping timestamp => .ok (self.enqueue_pong_command timestamp, .ok .zero)
  | .Pong _ => .ok (self, .ok .zero)
  | .SendReliable channel_id sequence ordered data =>
    let (self, packets) := self.process_send_reliable channel_id sequence ordered data time
    .ok (self, .ok packets)
  | .SendUnreliable channel_id data =>
    .ok (self, .ok (.one (self.packet data.to_arc .Unreliable .None channel_id) .Packet))
  | .SendUnreliableSequenced channel_id sequence data =>
    let (self, packets) := self.process_send_unreliable_sequenced channel_id sequence data
    .ok (self, .ok packets)
  | .SendUnsequenced channel_id unsequenced_group data =>
    let (self, packets) := self.process_send_unsequenced channel_id unsequenced_group data
    .ok (self, .ok packets)
  | .SendFragment channel_id sequence ordered fragment_id fragment_count data =>
    let (self, packets) :=
      self.process_send_fragment channel_id sequence ordered fragment_id fragment_count data time
    .ok (self, .ok packets)
  | .SendUnreliableFragment channel_id sequence fragment_id fragment_count data =>
    let (self, packets) :=
      self.process_send_unreliable_fragment channel_id sequence fragment_id fragment_count data time
    .ok (self, .ok packets)
  | .Disconnect _ => .ok ({ self with state := .Zombie }, .ok .zero)
  | .Connect channels _ _ outgoing_session_id connect_id =>
    .ok (self.process_connect channels outgoing_session_id connect_id draw, .ok .zero)
  | .VerifyConnect peer_id _ _ incoming_session_id outgoing_session_id window_size =>
    self.process_verify_connect peer_id incoming_session_id outgoing_session_id window_size
  | .BandwidthLimit incoming outgoing => .ok (self.process_bandwidth_limit incoming outgoing, .ok .zero)
  | .ThrottleConfigure interval acceleration deceleration =>
    .ok (self.process_throttle_configure interval acceleration deceleration, .ok .zero)
  | .PMTUProbe size token _ => .ok ((self.enqueue_command (PmtuDiscovery.create_reply size token)).2, .ok .zero)
  | .PMTUReply size token =>
    .ok ({ self with pmtu := (self.pmtu.process_reply size token time).2 }, .ok .zero)

/-- The loop of `process_command_packet`. It stops at the first error, and the
packets of the commands before it are lost with it. -/
def process_commands (time : Instant) (draw : UInt16) :
    List ProtocolCommand → Peer → IncomingPackets → Outcome (Peer × Processed)
  | [], self, all_packets => .ok (self, .ok (.many all_packets))
  | command :: commands, self, all_packets =>
    match self.process_command command time draw with
    | .error p => .error p
    | .ok (self, .error e) => .ok (self, .error e)
    | .ok (self, .ok packets) => process_commands time draw commands self (all_packets ++ packets)

/-- The commands of a datagram: the checksum and the compression undone, then
decoded. -/
def open_datagram (codecs : Codecs) (config : Config) (data : Bytes) : Except DecodeFault CommandPacket := do
  let payload ←
    if config.use_checksums then (codecs.validate_and_strip_checksum data).mapError .error else .ok data
  let decompressed ← (codecs.decompress payload).mapError .error
  decode_packet decompressed

/-- `map_err(|e| ErrorKind::CouldNotReadHeader(e.to_string()))`. -/
def header_error (e : IoError) : ErrorKind := .CouldNotReadHeader e.message

/-- `draw` supplies the peer id if the datagram opens a connection, which it
does at most once: the peer leaves `Idle` for good. -/
def process_command_packet (codecs : Codecs) (self : Peer) (data : Bytes) (time : Instant) (draw : UInt16) :
    Outcome (Peer × Processed) :=
  let self := self.record_data_received data.length
  match open_datagram codecs self.config data with
  | .error (.panic p) => .error p
  | .error (.error e) => .ok (self, .error (header_error e))
  | .ok command_packet =>
    let self := self.record_packet_received
    process_commands time draw command_packet.commands self []

end Peer

end Bitfold
