import Bitfold.Command
/-!
# Command codec

`command_codec/encoder.rs` and `command_codec/decoder.rs`. Writing to a
`Vec<u8>` never fails, so the encoders return bytes; the decoders return an
`IoError` where the source does. The one slice the decoder takes is checked
(`slice_bytes`), so an out-of-bounds slice would show as a panic.
-/

namespace Bitfold

open Lib

/-! ## Writers -/

@[simp] def write_u8 (n : UInt8) (buffer : Bytes) : Bytes := buffer ++ [n]

@[simp] def write_u16 (n : UInt16) (buffer : Bytes) : Bytes := buffer ++ be16 n

@[simp] def write_u32 (n : UInt32) (buffer : Bytes) : Bytes := buffer ++ be32 n

@[simp] def write_all (bs : Bytes) (buffer : Bytes) : Bytes := buffer ++ bs

/-- The byte of the `ordered` flag. -/
def flag_byte (ordered : Bool) : UInt8 := if ordered then 1 else 0

namespace CommandEncoder

open ProtocolCommand

def encode_command_into (buffer : Bytes) (command : ProtocolCommand) : Bytes :=
  let buffer := buffer |> write_u8 command.command_type
  match command with
  | SendReliable channel_id sequence ordered data =>
    buffer |> write_u8 channel_id |> write_u16 sequence |> write_u8 (flag_byte ordered)
      |> write_u16 (.ofNat data.len) |> write_all data.as_slice
  | SendUnreliable channel_id data =>
    buffer |> write_u8 channel_id |> write_u16 (.ofNat data.len) |> write_all data.as_slice
  | SendUnreliableSequenced channel_id sequence data =>
    buffer |> write_u8 channel_id |> write_u16 sequence |> write_u16 (.ofNat data.len)
      |> write_all data.as_slice
  | SendUnsequenced channel_id unsequenced_group data =>
    buffer |> write_u8 channel_id |> write_u16 unsequenced_group |> write_u16 (.ofNat data.len)
      |> write_all data.as_slice
  | SendFragment channel_id sequence ordered fragment_id fragment_count data =>
    buffer |> write_u8 channel_id |> write_u16 sequence |> write_u8 (flag_byte ordered)
      |> write_u8 fragment_id |> write_u8 fragment_count |> write_u16 (.ofNat data.len)
      |> write_all data.as_slice
  | SendUnreliableFragment channel_id sequence fragment_id fragment_count data =>
    buffer |> write_u8 channel_id |> write_u16 sequence |> write_u8 fragment_id
      |> write_u8 fragment_count |> write_u16 (.ofNat data.len) |> write_all data.as_slice
  | Acknowledge sequence received_mask sent_time =>
    let buffer := buffer |> write_u16 sequence |> write_u32 received_mask
    match sent_time with
    | some time => buffer |> write_u32 time
    | none => buffer
  | Ping timestamp => buffer |> write_u32 timestamp
  | Pong timestamp => buffer |> write_u32 timestamp
  | Connect channels mtu protocol_version outgoing_session_id connect_id =>
    buffer |> write_u8 channels |> write_u16 mtu |> write_u16 protocol_version
      |> write_u16 outgoing_session_id |> write_u32 connect_id
  | VerifyConnect peer_id channels mtu incoming_session_id outgoing_session_id window_size =>
    buffer |> write_u16 peer_id |> write_u8 channels |> write_u16 mtu |> write_u16 incoming_session_id
      |> write_u16 outgoing_session_id |> write_u32 window_size
  | Disconnect reason => buffer |> write_u32 reason
  | BandwidthLimit incoming outgoing => buffer |> write_u32 incoming |> write_u32 outgoing
  | ThrottleConfigure interval acceleration deceleration =>
    buffer |> write_u32 interval |> write_u32 acceleration |> write_u32 deceleration
  | PMTUProbe size token payload =>
    buffer |> write_u16 size |> write_u32 token |> write_u16 (.ofNat payload.len)
      |> write_all payload.as_slice
  | PMTUReply size token => buffer |> write_u16 size |> write_u32 token

/-- One round of the loop of `encode_packet_into`: two placeholder bytes, the
command, then the placeholder patched with the length. -/
def encode_framed_into (buffer : Bytes) (command : ProtocolCommand) : Bytes :=
  let len_pos := buffer.length
  let buffer := buffer |> write_u16 0
  let start := buffer.length
  let buffer := encode_command_into buffer command
  let cmd_len := buffer.length - start
  (buffer.set len_pos (.ofNat ((cmd_len >>> 8) &&& 0xFF))).set (len_pos + 1) (.ofNat (cmd_len &&& 0xFF))

def encode_packet_into (buffer : Bytes) (packet : CommandPacket) : Bytes :=
  packet.commands.foldl encode_framed_into (buffer |> write_u8 (.ofNat packet.commands.length))

def encode_command (command : ProtocolCommand) : Bytes :=
  let buffer : Bytes := []
  let buffer := buffer |> write_u8 command.command_type
  match command with
  | SendReliable channel_id sequence ordered data =>
    buffer |> write_u8 channel_id |> write_u16 sequence |> write_u8 (flag_byte ordered)
      |> write_u16 (.ofNat data.len) |> write_all data.as_slice
  | SendUnreliable channel_id data =>
    buffer |> write_u8 channel_id |> write_u16 (.ofNat data.len) |> write_all data.as_slice
  | SendUnreliableSequenced channel_id sequence data =>
    buffer |> write_u8 channel_id |> write_u16 sequence |> write_u16 (.ofNat data.len)
      |> write_all data.as_slice
  | SendUnsequenced channel_id unsequenced_group data =>
    buffer |> write_u8 channel_id |> write_u16 unsequenced_group |> write_u16 (.ofNat data.len)
      |> write_all data.as_slice
  | SendFragment channel_id sequence ordered fragment_id fragment_count data =>
    buffer |> write_u8 channel_id |> write_u16 sequence |> write_u8 (flag_byte ordered)
      |> write_u8 fragment_id |> write_u8 fragment_count |> write_u16 (.ofNat data.len)
      |> write_all data.as_slice
  | SendUnreliableFragment channel_id sequence fragment_id fragment_count data =>
    buffer |> write_u8 channel_id |> write_u16 sequence |> write_u8 fragment_id
      |> write_u8 fragment_count |> write_u16 (.ofNat data.len) |> write_all data.as_slice
  | Acknowledge sequence received_mask sent_time =>
    let buffer := buffer |> write_u16 sequence |> write_u32 received_mask
    match sent_time with
    | some time => buffer |> write_u32 time
    | none => buffer
  | Ping timestamp => buffer |> write_u32 timestamp
  | Pong timestamp => buffer |> write_u32 timestamp
  | Connect channels mtu protocol_version outgoing_session_id connect_id =>
    buffer |> write_u8 channels |> write_u16 mtu |> write_u16 protocol_version
      |> write_u16 outgoing_session_id |> write_u32 connect_id
  | VerifyConnect peer_id channels mtu incoming_session_id outgoing_session_id window_size =>
    buffer |> write_u16 peer_id |> write_u8 channels |> write_u16 mtu |> write_u16 incoming_session_id
      |> write_u16 outgoing_session_id |> write_u32 window_size
  | Disconnect reason => buffer |> write_u32 reason
  | BandwidthLimit incoming outgoing => buffer |> write_u32 incoming |> write_u32 outgoing
  | ThrottleConfigure interval acceleration deceleration =>
    buffer |> write_u32 interval |> write_u32 acceleration |> write_u32 deceleration
  | PMTUProbe size token payload =>
    buffer |> write_u16 size |> write_u32 token |> write_u16 (.ofNat payload.len)
      |> write_all payload.as_slice
  | PMTUReply size token => buffer |> write_u16 size |> write_u32 token

/-- One round of the loop of `encode_packet`. -/
def encode_framed (buffer : Bytes) (command : ProtocolCommand) : Bytes :=
  let cmd_bytes := encode_command command
  buffer |> write_u16 (.ofNat cmd_bytes.length) |> write_all cmd_bytes

def encode_packet (packet : CommandPacket) : Bytes :=
  packet.commands.foldl encode_framed ([] |> write_u8 (.ofNat packet.commands.length))

end CommandEncoder

/-! ## Decoder -/

/-- A `u16` length, then that many bytes in a buffer of their own. -/
def read_data : Reader SharedBytes := do
  let data_len ← read_u16
  let data_vec ← read_exact data_len.toNat
  pure (.from_vec data_vec)

/-- A byte read as a flag: `read_u8()? != 0`. -/
def read_flag : Reader Bool := do
  let b ← read_u8
  pure (b != 0)

/-- What a decoder does besides returning a value: the errors the source
returns, and a panic of its own slicing. -/
inductive DecodeFault where
  | error (e : IoError)
  | panic (p : Panic)
deriving DecidableEq, Repr

/-- `&data[from..to]`. -/
def slice_bytes (data : Bytes) (start stop : Nat) : Outcome Bytes :=
  if start ≤ stop ∧ stop ≤ data.length then .ok ((data.drop start).take (stop - start))
  else panic "range end index out of range for slice"

namespace CommandDecoder

open ProtocolCommand

def unknown_command (cmd_type : UInt8) : IoError :=
  ⟨.InvalidData, s!"Unknown command type: {cmd_type}"⟩

/-- The fields of a command of type `cmd_type`: the `match` of `decode_command`. -/
def decode_body (cmd_type : UInt8) : Reader ProtocolCommand :=
  match cmd_type with
  | 1 => do
    let channel_id ← read_u8
    let sequence ← read_u16
    let ordered ← read_flag
    let data ← read_data
    pure (SendReliable channel_id sequence ordered data)
  | 2 => do
    let channel_id ← read_u8
    let data ← read_data
    pure (SendUnreliable channel_id data)
  | 3 => do
    let channel_id ← read_u8
    let sequence ← read_u16
    let data ← read_data
    pure (SendUnreliableSequenced channel_id sequence data)
  | 4 => do
    let channel_id ← read_u8
    let unsequenced_group ← read_u16
    let data ← read_data
    pure (SendUnsequenced channel_id unsequenced_group data)
  | 5 => do
    let channel_id ← read_u8
    let sequence ← read_u16
    let ordered ← read_flag
    let fragment_id ← read_u8
    let fragment_count ← read_u8
    let data ← read_data
    pure (SendFragment channel_id sequence ordered fragment_id fragment_count data)
  | 6 => do
    let channel_id ← read_u8
    let sequence ← read_u16
    let fragment_id ← read_u8
    let fragment_count ← read_u8
    let data ← read_data
    pure (SendUnreliableFragment channel_id sequence fragment_id fragment_count data)
  | 7 => do
    let sequence ← read_u16
    let received_mask ← read_u32
    -- `sent_time` is there iff the frame goes on
    if ← more then
      let time ← read_u32
      pure (Acknowledge sequence received_mask (some time))
    else
      pure (Acknowledge sequence received_mask none)
  | 8 => do
    let timestamp ← read_u32
    pure (Ping timestamp)
  | 9 => do
    let timestamp ← read_u32
    pure (Pong timestamp)
  | 10 => do
    let channels ← read_u8
    let mtu ← read_u16
    let protocol_version ← read_u16
    let outgoing_session_id ← read_u16
    let connect_id ← read_u32
    pure (Connect channels mtu protocol_version outgoing_session_id connect_id)
  | 11 => do
    let peer_id ← read_u16
    let channels ← read_u8
    let mtu ← read_u16
    let incoming_session_id ← read_u16
    let outgoing_session_id ← read_u16
    let window_size ← read_u32
    pure (VerifyConnect peer_id channels mtu incoming_session_id outgoing_session_id window_size)
  | 12 => do
    let reason ← read_u32
    pure (Disconnect reason)
  | 13 => do
    let incoming ← read_u32
    let outgoing ← read_u32
    pure (BandwidthLimit incoming outgoing)
  | 14 => do
    let interval ← read_u32
    let acceleration ← read_u32
    let deceleration ← read_u32
    pure (ThrottleConfigure interval acceleration deceleration)
  | 15 => do
    let size ← read_u16
    let token ← read_u32
    let payload ← read_data
    pure (PMTUProbe size token payload)
  | 16 => do
    let size ← read_u16
    let token ← read_u32
    pure (PMTUReply size token)
  | cmd_type => throw (unknown_command cmd_type)

def decode_command : Reader ProtocolCommand := do
  let cmd_type ← read_u8
  decode_body cmd_type

/-- One round of the loop of `decode_packet`: a length, the bounds check, the
slice and the command in it. -/
def decode_framed (data : Bytes) (cursor : Cursor) : Except DecodeFault (ProtocolCommand × Cursor) :=
  match read_u16 cursor with
  | .error e => .error (.error e)
  | .ok (cmd_len, cursor) =>
    let cmd_len := cmd_len.toNat
    let pos := cursor.position
    if pos + cmd_len > data.length then
      .error (.error ⟨.UnexpectedEof, "Command length exceeds buffer"⟩)
    else
      match slice_bytes data pos (pos + cmd_len) with
      | .error p => .error (.panic p)
      | .ok cmd_data =>
        match decode_command (Cursor.new cmd_data) with
        | .error e => .error (.error e)
        | .ok (command, _) => .ok (command, cursor.set_position (pos + cmd_len))

/-- `for _ in 0..cmd_count`. -/
def decode_frames (data : Bytes) : Nat → Cursor → CommandPacket → Except DecodeFault CommandPacket
  | 0, _, packet => .ok packet
  | n + 1, cursor, packet =>
    match decode_framed data cursor with
    | .error e => .error e
    | .ok (command, cursor) => decode_frames data n cursor (packet.add_command command)

def decode_packet (data : Bytes) : Except DecodeFault CommandPacket :=
  match read_u8 (Cursor.new data) with
  | .error e => .error (.error e)
  | .ok (cmd_count, cursor) => decode_frames data cmd_count.toNat cursor .new

end CommandDecoder

end Bitfold
