import Bitfold.PeerIo
/-!
# Sessions

`peer_session.rs`: what the host drives a peer with. A user packet goes out
through `process_event`, a datagram comes in through `process_packet`, and
`update` runs from time to time.
-/

namespace Bitfold

open Lib

/-- `SocketEvent`. -/
inductive SocketEvent where
  | Packet (packet : Bitfold.Packet)
  | Connect (addr : SocketAddr)
  | Timeout (addr : SocketAddr)
  | Disconnect (addr : SocketAddr)
deriving DecidableEq, Repr

/-- `Action<SocketEvent>`. -/
inductive Action where
  | Send (bytes : Bytes)
  | Emit (event : SocketEvent)
deriving DecidableEq, Repr

namespace Peer

def should_drop (self : Peer) (time : Instant) : Bool × List Action :=
  if self.state = .Zombie then (true, [.Emit (.Disconnect self.remote_address)])
  else
    let should_drop := decide (self.packets_in_flight > self.config.max_packets_in_flight) ||
      decide (time - self.last_heard ≥ self.config.idle_connection_timeout)
    if should_drop then
      (true, .Emit (.Timeout self.remote_address) ::
        if self.is_established then [.Emit (.Disconnect self.remote_address)] else [])
    else (false, [])

/-- One round of the flush loop, which `process_event` and `update` share. -/
def flush_next (codecs : Codecs) (self : Peer) : Option Action × Peer :=
  if self.has_queued_commands && self.can_send_within_bandwidth then
    match self.encode_queued_commands_bounded codecs self.datagram_cap with
    | (self, .ok (some bytes)) => (some (.Send bytes), self.record_bytes_sent (.ofNat bytes.length))
    | (self, .ok none) => (none, self)
    | (self, .error _) => (none, self)
  else (none, self)

/-- The flush loop. A round takes at least one command out of the queue, so
the queue's length is fuel enough. -/
def flush (codecs : Codecs) (self : Peer) : List Action × Peer :=
  drain (flush_next codecs) self.command_queue.commands.length self

def process_packet (codecs : Codecs) (self : Peer) (payload : Bytes) (time : Instant) (draw : UInt16) :
    Outcome (List Action × Peer) :=
  if payload.isEmpty then .ok ([], self)
  else
    let self := self.update_bandwidth_window time
    if !self.can_receive_within_bandwidth then .ok ([], self)
    else
      let self := self.record_bytes_received (.ofNat payload.length)
      match self.process_command_packet codecs payload time draw with
      | .error p => .error p
      | .ok (self, .ok packets) =>
        let (connected, self) := self.record_recv
        .ok ((if connected then [.Emit (.Connect self.remote_address)] else []) ++
          packets.map (fun incoming => .Emit (.Packet incoming.1)), self)
      | .ok (self, .error _) => .ok ([], self)

/-- Payload bytes of one unsequenced chunk. -/
def max_payload_unseq (self : Peer) : Nat := max 1 (self.payload_budget (1 + 1 + 2 + 2))

/-- `while offset < base.len()`, with fuel for the bytes that remain. -/
def enqueue_chunks (channel_id : UInt8) (base : SharedBytes) (max_payload_unseq : Nat) :
    Nat → Nat → Peer → Outcome Peer
  | 0, _, self => .ok self
  | fuel + 1, offset, self =>
    if offset < base.len then do
      let len := min max_payload_unseq (base.len - offset)
      let chunk ← base.slice offset len
      let (unsequenced_group, self) := self.next_unsequenced_group
      let self := (self.enqueue_command (.SendUnsequenced channel_id unsequenced_group chunk)).2
      enqueue_chunks channel_id base max_payload_unseq fuel (offset + len) self
    else .ok self

def enqueue_unsequenced (self : Peer) (channel_id : UInt8) (data : Bytes) : Outcome Peer :=
  enqueue_chunks channel_id (.from_arc data) self.max_payload_unseq data.length 0 self

/-- Queues the commands of a user packet. -/
def enqueue_packet (self : Peer) (event : Packet) : Outcome Peer :=
  match event.delivery with
  | .Reliable => do
    let ordered := event.ordering != .None
    let (_, self) ← self.enqueue_reliable_data event.channel_id event.payload ordered
    return self
  | .Unreliable =>
    match event.ordering with
    | .Unsequenced => self.enqueue_unsequenced event.channel_id event.payload
    | _ => do
      let (_, self) ← self.enqueue_unreliable_data event.channel_id event.payload
      return self

def process_event (codecs : Codecs) (self : Peer) (event : Packet) : Outcome (List Action × Peer) := do
  let addr := self.remote_address
  let (connected, self) := self.record_send
  let self ← self.enqueue_packet event
  let (sends, self) := self.flush codecs
  return ((if connected then [.Emit (.Connect addr)] else []) ++ sends, self)

/-- Should a keepalive go out? Only when both directions have been idle. -/
def heartbeat_due (self : Peer) (time : Instant) : Bool :=
  self.is_established &&
    match self.config.heartbeat_interval with
    | some heartbeat_interval =>
      decide (time - self.last_sent ≥ heartbeat_interval) && decide (time - self.last_heard ≥ heartbeat_interval)
    | none => false

/-- `elapsed` is the age of `time` when the ping is written, `draw` what a
probe takes from `rand`. -/
def update (codecs : Codecs) (self : Peer) (time : Instant) (elapsed : Duration) (draw : ProbeDraw) :
    List Action × Peer :=
  let self := self.update_bandwidth_window time
  let self := if self.heartbeat_due time then self.enqueue_ping_command (.ofNat (as_millis elapsed)) else self
  let (sends, self) := self.flush codecs
  (sends, self.handle_pmtu time draw)

end Peer

end Bitfold
