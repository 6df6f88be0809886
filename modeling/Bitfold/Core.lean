import Bitfold.Lib.Io
/-!
# Core types

What `bitfold-core` gives the other crates: shared byte views, the
configuration and the errors. A function that may panic returns an `Outcome`
(the build aborts on a panic); `usize` and `u64` are natural numbers, a byte
string in memory being far shorter than `usize::MAX`.
-/

namespace Bitfold

open Lib

/-- A Rust panic, with its message. -/
structure Panic where
  message : String
deriving DecidableEq, Repr

abbrev Outcome (α : Type) := Except Panic α

def panic {α : Type} (message : String) : Outcome α := .error ⟨message⟩

theorem bind_eq_ok {α β : Type} {x : Outcome α} {f : α → Outcome β} {b : β} (h : x >>= f = .ok b) :
    ∃ a, x = .ok a ∧ f a = .ok b := by
  cases x with
  | error e => cases h
  | ok a => exact ⟨a, rfl, h⟩

theorem exists_ok {α : Type} {x : Outcome α} {p : α → Bool} (h : x.toOption.any p = true) :
    ∃ a, x = .ok a ∧ p a = true := by
  cases x with
  | error e => cases h
  | ok a => exact ⟨a, rfl, h⟩

abbrev Bytes := List UInt8

/-- `x.saturating_sub(y)` on `u16`. -/
def saturating_sub16 (x y : UInt16) : UInt16 := if x < y then 0 else x - y

/-- `x.saturating_add(y)` on `u32`. -/
def saturating_add32 (x y : UInt32) : UInt32 := if x.toNat + y.toNat < 2 ^ 32 then x + y else 0xFFFFFFFF

/-- `x.saturating_sub(y)` on `u32`. -/
def saturating_sub32 (x y : UInt32) : UInt32 := if x < y then 0 else x - y

theorem saturating_sub16_toNat (x y : UInt16) : (saturating_sub16 x y).toNat = x.toNat - y.toNat := by
  unfold saturating_sub16
  split
  · rename_i h
    have hlt : x.toNat < y.toNat := h
    change 0 = _
    omega
  · rename_i h
    exact UInt16.toNat_sub_of_le _ _ (UInt16.not_lt.1 h)

section Order

variable {α : Type} [LE α] [DecidableLE α] (value : α → Nat) (h : ∀ x y, x ≤ y ↔ value x ≤ value y)

include h

/-- The smaller of two numbers of some width has the smaller value. -/
theorem value_min (x y : α) : value (if x ≤ y then x else y) = min (value x) (value y) := by
  split
  · rename_i hle
    exact (Nat.min_eq_left ((h x y).1 hle)).symm
  · rename_i hlt
    rw [h] at hlt
    exact (Nat.min_eq_right (by omega)).symm

theorem value_max (x y : α) : value (if x ≤ y then y else x) = max (value x) (value y) := by
  split
  · rename_i hle
    exact (Nat.max_eq_right ((h x y).1 hle)).symm
  · rename_i hlt
    rw [h] at hlt
    exact (Nat.max_eq_left (by omega)).symm

end Order

theorem min16_toNat (x y : UInt16) : (min x y).toNat = min x.toNat y.toNat :=
  value_min UInt16.toNat (fun _ _ => UInt16.le_iff_toNat_le) x y

theorem max16_toNat (x y : UInt16) : (max x y).toNat = max x.toNat y.toNat :=
  value_max UInt16.toNat (fun _ _ => UInt16.le_iff_toNat_le) x y

theorem min32_toNat (x y : UInt32) : (min x y).toNat = min x.toNat y.toNat :=
  value_min UInt32.toNat (fun _ _ => UInt32.le_iff_toNat_le) x y

theorem max32_toNat (x y : UInt32) : (max x y).toNat = max x.toNat y.toNat :=
  value_max UInt32.toNat (fun _ _ => UInt32.le_iff_toNat_le) x y

/-- Nanoseconds on the monotonic clock. `duration_since` saturates at zero, as
subtraction of natural numbers does. -/
abbrev Instant := Nat

/-- Nanoseconds. -/
abbrev Duration := Nat

def from_millis (ms : Nat) : Duration := ms * 1000000

def as_millis (d : Duration) : Nat := d / 1000000

def from_secs (s : Nat) : Duration := s * 1000000000

/-- `std::net::IpAddr`. -/
inductive IpAddr where
  | V4 (octets : UInt32)
  | V6 (segments : BitVec 128)
deriving DecidableEq, Repr

structure SocketAddr where
  ip : IpAddr
  port : UInt16
deriving DecidableEq, Repr

/-- `ErrorKind`: command processing raises this variant only. -/
inductive ErrorKind where
  | CouldNotReadHeader (header : String)
deriving DecidableEq, Repr

/-! ## Shared bytes -/

/-- A view of `len` bytes of a shared buffer from `start` on. -/
structure SharedBytes where
  data : Bytes
  start : Nat
  len : Nat
  in_bounds : start + len ≤ data.length
deriving DecidableEq, Repr

namespace SharedBytes

def from_arc (data : Bytes) : SharedBytes := ⟨data, 0, data.length, by simp⟩

def from_vec (vec : Bytes) : SharedBytes := from_arc vec

def slice (self : SharedBytes) (start len : Nat) : Outcome SharedBytes :=
  if h : start ≤ self.len then
    if h' : start + len ≤ self.len then
      .ok ⟨self.data, self.start + start, len, by have := self.in_bounds; omega⟩
    else panic "slice end out of bounds"
  else panic "slice start out of bounds"

def as_slice (self : SharedBytes) : Bytes := (self.data.drop self.start).take self.len

def into_full_arc (self : SharedBytes) : Option Bytes :=
  if self.start = 0 ∧ self.len = self.data.length then some self.data else none

/-- `into_full_arc().unwrap_or_else(|| copy of as_slice())`, which the command
processor applies to every payload it takes out of a command. -/
def to_arc (self : SharedBytes) : Bytes := self.into_full_arc.getD self.as_slice

@[simp] theorem as_slice_from_arc (bs : Bytes) : (from_arc bs).as_slice = bs := by
  simp [from_arc, as_slice]

@[simp] theorem as_slice_from_vec (bs : Bytes) : (from_vec bs).as_slice = bs := as_slice_from_arc bs

@[simp] theorem len_from_arc (bs : Bytes) : (from_arc bs).len = bs.length := rfl

@[simp] theorem len_from_vec (bs : Bytes) : (from_vec bs).len = bs.length := rfl

@[simp] theorem as_slice_length (b : SharedBytes) : b.as_slice.length = b.len := by
  have := b.in_bounds
  simp only [as_slice, List.length_take, List.length_drop]
  omega

/-- Taking a payload out of a command yields the bytes of its view. -/
@[simp] theorem to_arc_eq (b : SharedBytes) : b.to_arc = b.as_slice := by
  unfold to_arc into_full_arc
  split
  · rename_i h
    simp [as_slice, h.1, h.2]
  · rfl

/-- A slice inside the view does not panic and shows the bytes asked for. -/
theorem slice_spec (b : SharedBytes) {start len : Nat} (h : start + len ≤ b.len) :
    ∃ s, b.slice start len = .ok s ∧ s.len = len ∧ s.as_slice = (b.as_slice.drop start).take len := by
  have hs : start ≤ b.len := by omega
  unfold slice
  rw [dif_pos hs, dif_pos h]
  refine ⟨_, rfl, rfl, ?_⟩
  simp only [as_slice, List.drop_take, List.drop_drop, List.take_take]
  congr 1
  omega

end SharedBytes

/-! ## Configuration -/

/-- `CompressionAlgorithm`. -/
inductive CompressionAlgorithm where
  | None
  | Zlib
  | Lz4
deriving DecidableEq, Repr

/-- `Config`: the options the protocol, peer and host crates read. -/
structure Config where
  idle_connection_timeout : Duration
  heartbeat_interval : Option Duration
  max_fragments : UInt8
  fragment_size : UInt16
  receive_buffer_max_size : Nat
  max_packets_in_flight : UInt16
  max_unestablished_connections : UInt16
  channel_count : UInt8
  incoming_bandwidth_limit : UInt32
  outgoing_bandwidth_limit : UInt32
  use_checksums : Bool
  compression : CompressionAlgorithm
  compression_threshold : Nat
  use_connection_handshake : Bool
  max_waiting_data : Nat
  use_advanced_throttling : Bool
  throttle_scale : UInt32
  throttle_acceleration : UInt32
  throttle_deceleration : UInt32
  throttle_interval : UInt32
  use_window_flow_control : Bool
  initial_window_size : UInt32
  min_window_size : UInt32
  max_window_size : UInt32
  max_duplicate_peers : UInt16
  use_pmtu_discovery : Bool
  pmtu_min : UInt16
  pmtu_max : UInt16
  pmtu_interval_ms : UInt32
  pmtu_converge_threshold : UInt16
deriving DecidableEq, Repr

/-- `impl Default for Config`. -/
def Config.default : Config where
  idle_connection_timeout := from_secs 5
  heartbeat_interval := none
  max_fragments := 16
  fragment_size := 1024
  receive_buffer_max_size := 1452
  max_packets_in_flight := 512
  max_unestablished_connections := 50
  channel_count := 1
  incoming_bandwidth_limit := 2097152
  outgoing_bandwidth_limit := 2097152
  use_checksums := true
  compression := .None
  compression_threshold := 128
  use_connection_handshake := true
  max_waiting_data := 32 * 1024 * 1024
  use_advanced_throttling := false
  throttle_scale := 32
  throttle_acceleration := 2
  throttle_deceleration := 2
  throttle_interval := 5000
  use_window_flow_control := false
  initial_window_size := 512
  min_window_size := 64
  max_window_size := 4096
  max_duplicate_peers := 0
  use_pmtu_discovery := true
  pmtu_min := 576
  pmtu_max := 1400
  pmtu_interval_ms := 5000
  pmtu_converge_threshold := 64

end Bitfold
