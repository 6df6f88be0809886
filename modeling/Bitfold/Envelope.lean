import Bitfold.CodecTheorems
/-!
# Compression and checksum

`command_codec/compression.rs` and `command_codec/checksum.rs`: what stands
around the encoded commands of a datagram. The three libraries behind them
are parameters (`Codecs`); `Codecs.Lossless` is what the code relies on.
-/

namespace Bitfold

open Lib

/-- The libraries `crc32fast`, `flate2` and `lz4`. -/
structure Codecs where
  crc32 : Bytes → UInt32
  zlib_compress : Bytes → Except IoError Bytes
  zlib_decompress : Bytes → Except IoError Bytes
  lz4_compress : Bytes → Except IoError Bytes
  lz4_decompress : Bytes → Int → Except IoError Bytes

/-- What is compressed can be restored. LZ4 takes at most
`LZ4_MAX_INPUT_SIZE` bytes and is told the original size. -/
structure Codecs.Lossless (codecs : Codecs) : Prop where
  zlib : ∀ data compressed, codecs.zlib_compress data = .ok compressed →
    codecs.zlib_decompress compressed = .ok data
  lz4 : ∀ data compressed, codecs.lz4_compress data = .ok compressed →
    data.length ≤ 0x7E000000 ∧ codecs.lz4_decompress compressed data.length = .ok data

/-- Compression fails only where LZ4 is given too much. -/
structure Codecs.Total (codecs : Codecs) : Prop where
  zlib : ∀ data, ∃ compressed, codecs.zlib_compress data = .ok compressed
  lz4 : ∀ data, data.length ≤ 0x7E000000 → ∃ compressed, codecs.lz4_compress data = .ok compressed

/-- Decompression undoes compression, of what an `i32` can count. -/
structure Codecs.Undoes (codecs : Codecs) : Prop where
  zlib : ∀ data compressed, codecs.zlib_compress data = .ok compressed →
    codecs.zlib_decompress compressed = .ok data
  lz4 : ∀ data compressed, data.length < 2 ^ 31 → codecs.lz4_compress data = .ok compressed →
    codecs.lz4_decompress compressed data.length = .ok data

namespace Codecs

variable (codecs : Codecs)

/-! ## Checksum -/

def append_checksum_in_place (data : Bytes) : Bytes := data ++ be32 (codecs.crc32 data)

def checksum_mismatch (computed received : UInt32) : IoError :=
  ⟨.InvalidData, s!"CRC32 checksum mismatch: expected {computed}, got {received}"⟩

def validate_and_strip_checksum (data : Bytes) : Except IoError Bytes :=
  if data.length < 4 then .error ⟨.InvalidData, "Data too short for checksum"⟩
  else
    let payload := data.take (data.length - 4)
    match data.drop (data.length - 4) with
    | [a, b, c, d] =>
      let received_checksum := fromBe32 a b c d
      let computed_checksum := codecs.crc32 payload
      if received_checksum ≠ computed_checksum then
        .error (checksum_mismatch computed_checksum received_checksum)
      else .ok payload
    | _ => .error ⟨.InvalidData, "Data too short for checksum"⟩

/-! ## Compression -/

/-- The data behind the marker of uncompressed data. -/
def stored (data : Bytes) : Bytes := 0 :: data

/-- `output.clear()`. -/
def clear (_output : Bytes) : Bytes := []

def compress_with_buffer (data : Bytes) (algorithm : CompressionAlgorithm) (threshold : Nat) (output : Bytes) :
    Except IoError Bytes :=
  let output := clear output
  if data.length < threshold then .ok (output ++ stored data)
  else
    match algorithm with
    | .None => .ok (output ++ stored data)
    | .Zlib => do
      let compressed ← codecs.zlib_compress data
      if compressed.length < data.length then pure (output ++ 1 :: compressed) else pure (output ++ stored data)
    | .Lz4 => do
      let compressed ← codecs.lz4_compress data
      if compressed.length + 4 < data.length then
        pure (output ++ 2 :: (be32 (.ofNat data.length) ++ compressed))
      else pure (output ++ stored data)

/-- `n as i32`. -/
def as_i32 (n : UInt32) : Int := if n.toNat < 2 ^ 31 then n.toNat else (n.toNat : Int) - 2 ^ 32

def decompress (data : Bytes) : Except IoError Bytes :=
  match data with
  | [] => .error ⟨.InvalidData, "Empty data for decompression"⟩
  | algorithm_id :: payload =>
    match algorithm_id with
    | 0 => .ok payload
    | 1 => codecs.zlib_decompress payload
    | 2 =>
      match payload with
      | a :: b :: c :: d :: compressed_data =>
        codecs.lz4_decompress compressed_data (as_i32 (fromBe32 a b c d))
      | _ => .error ⟨.InvalidData, "LZ4 payload too short"⟩
    | algorithm_id => .error ⟨.InvalidData, s!"Unknown compression algorithm: {algorithm_id}"⟩

/-! ## Round trips -/

theorem validate_append_checksum (data : Bytes) :
    codecs.validate_and_strip_checksum (codecs.append_checksum_in_place data) = .ok data := by
  have hlen : (codecs.append_checksum_in_place data).length - 4 = data.length := by
    simp [append_checksum_in_place]
  have htake : (codecs.append_checksum_in_place data).take data.length = data := List.take_left
  have hdrop : (codecs.append_checksum_in_place data).drop data.length = be32 (codecs.crc32 data) :=
    List.drop_left
  have hcrc := (be32_eq_iff (codecs.crc32 data) _ _ _ _).1 rfl
  unfold validate_and_strip_checksum
  rw [if_neg (by simp [append_checksum_in_place])]
  simp only [hlen, htake, hdrop, be32, ← hcrc, ne_eq, not_true_eq_false, if_false]

variable {codecs}

theorem as_i32_of_lt {n : Nat} (h : n < 2 ^ 31) : as_i32 (.ofNat n) = n := by
  have : (UInt32.ofNat n).toNat = n := by rw [UInt32.toNat_ofNat']; omega
  rw [as_i32, this, if_pos h]

/-- The three forms of compressed data. -/
theorem compress_cases {data output out : Bytes} {algorithm : CompressionAlgorithm} {threshold : Nat}
    (h : codecs.compress_with_buffer data algorithm threshold output = .ok out) :
    out = stored data ∨
      (∃ compressed, codecs.zlib_compress data = .ok compressed ∧ compressed.length < data.length ∧
        out = 1 :: compressed) ∨
      ∃ compressed, codecs.lz4_compress data = .ok compressed ∧ compressed.length + 4 < data.length ∧
        out = 2 :: (be32 (.ofNat data.length) ++ compressed) := by
  unfold compress_with_buffer at h
  split at h
  · cases h
    exact .inl rfl
  · cases algorithm with
    | None =>
      cases h
      exact .inl rfl
    | Zlib =>
      simp only at h
      cases hz : codecs.zlib_compress data with
      | error e => simp [hz, Bind.bind, Except.bind] at h
      | ok compressed =>
        simp only [hz, Bind.bind, Except.bind] at h
        split at h
        · rename_i hlt
          cases h
          exact .inr (.inl ⟨compressed, rfl, hlt, rfl⟩)
        · cases h
          exact .inl rfl
    | Lz4 =>
      simp only at h
      cases hz : codecs.lz4_compress data with
      | error e => simp [hz, Bind.bind, Except.bind] at h
      | ok compressed =>
        simp only [hz, Bind.bind, Except.bind] at h
        split at h
        · rename_i hlt
          cases h
          exact .inr (.inr ⟨compressed, rfl, hlt, rfl⟩)
        · cases h
          exact .inl rfl

/-- LZ4 is told the size that was written before the compressed data. -/
theorem decompress_lz4 {n : Nat} (h : n < 2 ^ 31) (compressed : Bytes) :
    codecs.decompress (2 :: (be32 (.ofNat n) ++ compressed)) = codecs.lz4_decompress compressed n := by
  simp only [decompress, be32, List.cons_append, List.nil_append]
  rw [← (be32_eq_iff (UInt32.ofNat n) _ _ _ _).1 rfl, as_i32_of_lt h]

theorem decompress_compress (hc : codecs.Lossless) {data output out : Bytes} {algorithm : CompressionAlgorithm}
    {threshold : Nat} (h : codecs.compress_with_buffer data algorithm threshold output = .ok out) :
    codecs.decompress out = .ok data := by
  rcases compress_cases h with rfl | ⟨compressed, hz, -, rfl⟩ | ⟨compressed, hz, -, rfl⟩
  · rfl
  · exact hc.zlib data compressed hz
  · obtain ⟨hle, hd⟩ := hc.lz4 data compressed hz
    rw [decompress_lz4 (by omega), hd]

/-- Compression never adds more than the marker. -/
theorem compress_length {data output out : Bytes} {algorithm : CompressionAlgorithm} {threshold : Nat}
    (h : codecs.compress_with_buffer data algorithm threshold output = .ok out) : out.length ≤ data.length + 1 := by
  rcases compress_cases h with rfl | ⟨compressed, -, hlt, rfl⟩ | ⟨compressed, -, hlt, rfl⟩
  · simp [stored]
  · simp; omega
  · simp; omega

theorem compress_ok (ht : codecs.Total) {data : Bytes} {algorithm : CompressionAlgorithm}
    (hl : algorithm = .Lz4 → data.length ≤ 0x7E000000) (threshold : Nat) (output : Bytes) :
    ∃ out, codecs.compress_with_buffer data algorithm threshold output = .ok out := by
  unfold compress_with_buffer
  split
  · exact ⟨_, rfl⟩
  · cases algorithm with
    | None => exact ⟨_, rfl⟩
    | Zlib =>
      obtain ⟨compressed, hz⟩ := ht.zlib data
      simp only [hz, Bind.bind, Except.bind]
      split <;> exact ⟨_, rfl⟩
    | Lz4 =>
      obtain ⟨compressed, hz⟩ := ht.lz4 data (hl rfl)
      simp only [hz, Bind.bind, Except.bind]
      split <;> exact ⟨_, rfl⟩

/-! ## The envelope -/

/-- What is sent: the data with the checksum, if checksums are used. -/
def signed (codecs : Codecs) (use_checksums : Bool) (data : Bytes) : Bytes :=
  if use_checksums then codecs.append_checksum_in_place data else data

/-- The data without the checksum. -/
def verified (codecs : Codecs) (use_checksums : Bool) (data : Bytes) : Except IoError Bytes :=
  if use_checksums then codecs.validate_and_strip_checksum data else .ok data

theorem verified_signed (codecs : Codecs) (use_checksums : Bool) (data : Bytes) :
    codecs.verified use_checksums (codecs.signed use_checksums data) = .ok data := by
  cases use_checksums with
  | false => rfl
  | true => exact codecs.validate_append_checksum data

theorem signed_length (codecs : Codecs) (use_checksums : Bool) (data : Bytes) :
    (codecs.signed use_checksums data).length = data.length + if use_checksums then 4 else 0 := by
  cases use_checksums <;> simp [signed, append_checksum_in_place]

/-- The buffer is cleared before anything is written to it. -/
theorem compress_with_buffer_clear (codecs : Codecs) (data : Bytes) (algorithm : CompressionAlgorithm)
    (threshold : Nat) (output : Bytes) : codecs.compress_with_buffer data algorithm threshold output =
      codecs.compress_with_buffer data algorithm threshold [] := rfl

/-- What was put into the envelope is taken out of it again, whatever the
buffer held before, and the envelope adds the marker and the checksum at most. -/
theorem envelope_round_trip {codecs : Codecs} (hc : codecs.Undoes) {data output out : Bytes}
    (hlen : data.length < 2 ^ 31) {algorithm : CompressionAlgorithm} {threshold : Nat} (use_checksums : Bool)
    (h : codecs.compress_with_buffer data algorithm threshold output = .ok out) :
    codecs.verified use_checksums (codecs.signed use_checksums out) >>= codecs.decompress = .ok data ∧
      (∀ output', codecs.compress_with_buffer data algorithm threshold output' = .ok out) ∧
      out.length ≤ data.length + 1 ∧
      (codecs.signed use_checksums out).length ≤ data.length + 1 + if use_checksums then 4 else 0 := by
  have hdec : codecs.decompress out = .ok data := by
    rcases compress_cases h with rfl | ⟨compressed, hz, -, rfl⟩ | ⟨compressed, hz, -, rfl⟩
    · rfl
    · exact hc.zlib data compressed hz
    · rw [decompress_lz4 hlen]
      exact hc.lz4 data compressed hlen hz
  have hle := compress_length h
  refine ⟨?_, fun output' => ?_, hle, ?_⟩
  · rw [verified_signed]
    exact hdec
  · rw [compress_with_buffer_clear] at h ⊢
    exact h
  · rw [signed_length]
    omega

/-! ## A stand-in -/

/-- Codecs that store everything as it is. -/
def plain : Codecs where
  crc32 _ := 0
  zlib_compress data := .ok data
  zlib_decompress data := .ok data
  lz4_compress data := if data.length ≤ 0x7E000000 then .ok data else .error ⟨.InvalidInput, "Compression input too long."⟩
  lz4_decompress data _ := .ok data

theorem plain_lossless : plain.Lossless where
  zlib data compressed h := h.symm
  lz4 data compressed h := by
    simp only [plain] at h
    split at h
    · rename_i hle
      exact ⟨hle, h.symm⟩
    · cases h

theorem plain_total : plain.Total where
  zlib data := ⟨data, rfl⟩
  lz4 data h := ⟨data, if_pos h⟩

/-- The checksum of IEEE 802.3, bit by bit. -/
def crc32_ieee (data : Bytes) : UInt32 :=
  let shift (crc : UInt32) (_ : Nat) : UInt32 :=
    if crc &&& 1 = 1 then (crc >>> 1) ^^^ 0xEDB88320 else crc >>> 1
  (data.foldl (fun crc b => (List.range 8).foldl shift (crc ^^^ b.toUInt32)) 0xFFFFFFFF) ^^^ 0xFFFFFFFF

/-- The same with real checksums. -/
def checked : Codecs := { plain with crc32 := crc32_ieee }

theorem checked_undoes : checked.Undoes where
  zlib _ _ h := h.symm
  lz4 data compressed _ h := (plain_lossless.lz4 data compressed h).2

theorem checked_lossless : checked.Lossless where
  zlib _ _ h := h.symm
  lz4 := plain_lossless.lz4

theorem checked_total : checked.Total where
  zlib := plain_total.zlib
  lz4 := plain_total.lz4

/-- Three bytes below the threshold, in a buffer that was used before. -/
theorem envelope_round_trip_three :
    checked.verified true (checked.signed true [0, 1, 2, 3]) >>= checked.decompress = .ok [1, 2, 3] ∧
      (∀ output', checked.compress_with_buffer [1, 2, 3] .Zlib 128 output' = .ok [0, 1, 2, 3]) ∧
      [0, 1, 2, 3].length ≤ 3 + 1 ∧ (checked.signed true [0, 1, 2, 3]).length ≤ 3 + 1 + 4 :=
  have h : checked.compress_with_buffer [1, 2, 3] .Zlib 128 [9, 9] = .ok [0, 1, 2, 3] := rfl
  envelope_round_trip checked_undoes (by decide) true h

end Codecs

end Bitfold
