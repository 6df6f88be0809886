import Bitfold.Core
/-!
# Protocol commands and user packets

`command.rs` and `packet.rs`: the sixteen commands that travel in datagrams,
and the packets a user sends and receives.
-/

namespace Bitfold

/-- `ProtocolCommand`. -/
inductive ProtocolCommand where
  | SendReliable (channel_id : UInt8) (sequence : UInt16) (ordered : Bool) (data : SharedBytes)
  | SendUnreliable (channel_id : UInt8) (data : SharedBytes)
  | SendUnreliableSequenced (channel_id : UInt8) (sequence : UInt16) (data : SharedBytes)
  | SendUnsequenced (channel_id : UInt8) (unsequenced_group : UInt16) (data : SharedBytes)
  | SendFragment (channel_id : UInt8) (sequence : UInt16) (ordered : Bool) (fragment_id fragment_count : UInt8)
      (data : SharedBytes)
  | SendUnreliableFragment (channel_id : UInt8) (sequence : UInt16) (fragment_id fragment_count : UInt8)
      (data : SharedBytes)
  | Acknowledge (sequence : UInt16) (received_mask : UInt32) (sent_time : Option UInt32)
  | Ping (timestamp : UInt32)
  | Pong (timestamp : UInt32)
  | Connect (channels : UInt8) (mtu protocol_version outgoing_session_id : UInt16) (connect_id : UInt32)
  | VerifyConnect (peer_id : UInt16) (channels : UInt8) (mtu incoming_session_id outgoing_session_id : UInt16)
      (window_size : UInt32)
  | Disconnect (reason : UInt32)
  | BandwidthLimit (incoming outgoing : UInt32)
  | ThrottleConfigure (interval acceleration deceleration : UInt32)
  | PMTUProbe (size : UInt16) (token : UInt32) (payload : SharedBytes)
  | PMTUReply (size : UInt16) (token : UInt32)
deriving DecidableEq, Repr

namespace ProtocolCommand

def command_type : ProtocolCommand → UInt8
  | SendReliable .. => 1
  | SendUnreliable .. => 2
  | SendUnreliableSequenced .. => 3
  | SendUnsequenced .. => 4
  | SendFragment .. => 5
  | SendUnreliableFragment .. => 6
  | Acknowledge .. => 7
  | Ping .. => 8
  | Pong .. => 9
  | Connect .. => 10
  | VerifyConnect .. => 11
  | Disconnect .. => 12
  | BandwidthLimit .. => 13
  | ThrottleConfigure .. => 14
  | PMTUProbe .. => 15
  | PMTUReply .. => 16

/-- The command with its payload in a buffer of its own. Two commands are
equal up to the view that holds their payload iff their `owned` forms are
equal. -/
def owned : ProtocolCommand → ProtocolCommand
  | SendReliable ch s o data => SendReliable ch s o (.from_vec data.as_slice)
  | SendUnreliable ch data => SendUnreliable ch (.from_vec data.as_slice)
  | SendUnreliableSequenced ch s data => SendUnreliableSequenced ch s (.from_vec data.as_slice)
  | SendUnsequenced ch g data => SendUnsequenced ch g (.from_vec data.as_slice)
  | SendFragment ch s o i n data => SendFragment ch s o i n (.from_vec data.as_slice)
  | SendUnreliableFragment ch s i n data => SendUnreliableFragment ch s i n (.from_vec data.as_slice)
  | PMTUProbe size token payload => PMTUProbe size token (.from_vec payload.as_slice)
  | c => c

@[simp] theorem owned_owned (c : ProtocolCommand) : c.owned.owned = c.owned := by
  cases c <;> simp [owned]

end ProtocolCommand

/-- `CommandPacket`, without its creation time, which nothing reads. -/
structure CommandPacket where
  commands : List ProtocolCommand
deriving DecidableEq, Repr

namespace CommandPacket

def new : CommandPacket := ⟨[]⟩

def add_command (self : CommandPacket) (command : ProtocolCommand) : CommandPacket :=
  ⟨self.commands ++ [command]⟩

end CommandPacket

/-! ## User packets -/

inductive DeliveryGuarantee where
  | Unreliable
  | Reliable
deriving DecidableEq, Repr

inductive OrderingGuarantee where
  | None
  | Sequenced (stream : Option UInt8)
  | Ordered (stream : Option UInt8)
  | Unsequenced
deriving DecidableEq, Repr

inductive PacketType where
  | Packet
  | Fragment
  | Heartbeat
deriving DecidableEq, Repr

/-- `Packet`: what a user sends and receives. -/
structure Packet where
  addr : SocketAddr
  payload : Bytes
  delivery : DeliveryGuarantee
  ordering : OrderingGuarantee
  channel_id : UInt8
deriving DecidableEq, Repr

/-- `IncomingPackets`: zero, one or many packets with their types. -/
abbrev IncomingPackets := List (Packet × PacketType)

namespace IncomingPackets

def zero : IncomingPackets := []

def one (packet : Packet) (packet_type : PacketType) : IncomingPackets := [(packet, packet_type)]

def many (packets : List (Packet × PacketType)) : IncomingPackets := packets

end IncomingPackets

end Bitfold
