import Bitfold.Grammar
/-!
# Theorems of the codec

The encoder and the decoder meet in the grammar: `decode_packet` accepts
exactly the datagrams of a list of commands, and `encode_packet` writes one of
them, as long as the count fits its byte and every length its two.
-/

namespace Bitfold

open Lib CommandEncoder CommandDecoder ProtocolCommand

/-! ## Decoding -/

theorem slice_bytes_eq {data : Bytes} {start stop : Nat} (h : start ≤ stop) (h' : stop ≤ data.length) :
    slice_bytes data start stop = .ok ((data.drop start).take (stop - start)) := by
  rw [slice_bytes, if_pos ⟨h, h'⟩]

/-- The slice of a frame is always inside the datagram. -/
theorem decode_framed_no_panic (data : Bytes) (c : Cursor) (p : Panic) :
    decode_framed data c ≠ .error (.panic p) := by
  intro h
  unfold decode_framed at h
  dsimp only at h
  split at h
  · cases h
  · split at h
    · cases h
    · rename_i hle
      rw [slice_bytes_eq (by omega) (by omega)] at h
      simp only at h
      split at h <;> cases h

/-- One round of the decoder reads one frame. -/
theorem decode_framed_ok_iff {data : Bytes} {c c' : Cursor} (hc : c.inner = data) {cmd : ProtocolCommand} :
    decode_framed data c = .ok (cmd, c') ↔ cmd.owned = cmd ∧ ∃ bs, Frame cmd bs ∧ c.Reads bs c' := by
  unfold decode_framed
  dsimp only
  constructor
  · intro h
    split at h
    · cases h
    · rename_i len c₁ h₁
      obtain ⟨_, rfl, r₁⟩ := (read_u16_parses ..).1 h₁
      split at h
      · cases h
      · -- the length is within the data: the slice is the rest of the frame
        rename_i hle
        rw [slice_bytes_eq (by omega) (by omega), Nat.add_sub_cancel_left] at h
        simp only at h
        have hd : data.drop c₁.position = c₁.remaining := by rw [Cursor.remaining, r₁.inner, hc]
        have hlen : (c₁.remaining.take len.toNat).length = len.toNat := by
          rw [List.length_take, ← hd, List.length_drop]; omega
        split at h
        · cases h
        · rename_i cmd' c₂ h₂
          simp only [Except.ok.injEq, Prod.mk.injEq] at h
          obtain ⟨rfl, rfl⟩ := h
          rw [hd] at h₂
          obtain ⟨ho, enc, rest, hsp, hs, he⟩ :=
            (decode_command_ok_iff (by rw [hlen]; exact len.toNat_lt)).1 ⟨_, h₂⟩
          refine ⟨ho, _, ⟨len, enc, rest, hsp, hs, by rw [← he, hlen], rfl⟩, r₁.append ?_⟩
          rw [← he]
          have := Cursor.reads_of_remaining (List.take_append_drop len.toNat c₁.remaining).symm
          rwa [hlen] at this
  · rintro ⟨ho, _, ⟨len, enc, rest, hsp, hs, hlen, rfl⟩, hr⟩
    obtain ⟨c₁, r₁, r₂⟩ := Cursor.reads_append_iff.1 hr
    have hd : data.drop c₁.position = (enc ++ rest) ++ c'.remaining := by
      rw [← r₂.remaining, Cursor.remaining, r₁.inner, hc]
    have hle : c₁.position + len.toNat ≤ data.length := by
      have := congrArg List.length hd
      rw [List.length_drop, List.length_append, ← hlen] at this
      by_cases h0 : len.toNat = 0
      · -- a frame is never empty
        have : enc = [] := by rw [h0] at hlen; exact (List.append_eq_nil_iff.1 (List.length_eq_zero_iff.1 hlen.symm)).1
        obtain ⟨bs, hb, -⟩ := body_of_spelling hsp (by rw [this]; simp)
        rw [this] at hb
        cases hb
      · omega
    rw [(read_u16_parses ..).2 ⟨_, rfl, r₁⟩]
    simp only
    rw [if_neg (by omega), slice_bytes_eq (by omega) hle, Nat.add_sub_cancel_left, hd, hlen, List.take_left]
    obtain ⟨c₂, hdec⟩ :=
      (decode_command_ok_iff (by rw [← hlen]; exact len.toNat_lt)).2 ⟨ho, enc, rest, hsp, hs, rfl⟩
    simp only [hdec, Except.ok.injEq, Prod.mk.injEq, true_and]
    exact (Cursor.reads_of_remaining r₂.remaining).unique r₂

/-- The loop of `decode_packet` reads as many frames as it is told to. -/
theorem decode_frames_ok_iff {data : Bytes} (n : Nat) {c : Cursor} (hc : c.inner = data)
    {packet packet' : CommandPacket} :
    decode_frames data n c packet = .ok packet' ↔
      ∃ cmds bs c', cmds.length = n ∧ cmds.map owned = cmds ∧ Frames cmds bs ∧ c.Reads bs c' ∧
        packet'.commands = packet.commands ++ cmds := by
  induction n generalizing c packet with
  | zero =>
    constructor
    · intro h
      cases h
      exact ⟨[], [], c, rfl, rfl, .nil, .nil c, by simp⟩
    · rintro ⟨cmds, bs, c', hn, -, -, -, hp⟩
      obtain rfl := List.length_eq_zero_iff.1 hn
      cases packet; cases packet'
      simp_all [decode_frames]
  | succ n ih =>
    unfold decode_frames
    constructor
    · intro h
      split at h
      · cases h
      · rename_i cmd c₁ h₁
        obtain ⟨ho, u, hu, r₁⟩ := (decode_framed_ok_iff hc).1 h₁
        obtain ⟨cmds, v, c', hn, hos, hv, r₂, hp⟩ := (ih (r₁.inner.trans hc)).1 h
        refine ⟨cmd :: cmds, u ++ v, c', by simp [hn], by simp [ho, hos], .cons hu hv, r₁.append r₂, ?_⟩
        rw [hp, CommandPacket.add_command]
        simp
    · rintro ⟨cmds, bs, c', hn, hos, hf, hr, hp⟩
      cases hf with
      | nil => simp at hn
      | @cons cmd cmds u v hu hv =>
        simp only [List.map_cons, List.cons.injEq] at hos
        obtain ⟨c₁, r₁, r₂⟩ := Cursor.reads_append_iff.1 hr
        rw [(decode_framed_ok_iff hc).2 ⟨hos.1, u, hu, r₁⟩]
        refine (ih (r₁.inner.trans hc)).2 ⟨cmds, v, c', by simpa using hn, hos.2, hv, r₂, ?_⟩
        rw [hp, CommandPacket.add_command]
        simp

theorem decode_frames_no_panic (data : Bytes) (p : Panic) (n : Nat) (c : Cursor) (packet : CommandPacket) :
    decode_frames data n c packet ≠ .error (.panic p) := by
  induction n generalizing c packet with
  | zero => simp [decode_frames]
  | succ n ih =>
    unfold decode_frames
    intro h
    split at h
    · rename_i e he
      cases h
      exact decode_framed_no_panic data c p he
    · exact ih _ _ h

/-- The decoder's language, on the commands it can return: those that own
their payload. -/
theorem decode_packet_ok_iff {data : Bytes} {cmds : List ProtocolCommand} :
    decode_packet data = .ok ⟨cmds⟩ ↔ cmds.map owned = cmds ∧ Datagram cmds data := by
  unfold decode_packet
  constructor
  · intro h
    split at h
    · cases h
    · rename_i n c h₁
      obtain ⟨_, rfl, r₁⟩ := (read_u8_parses ..).1 h₁
      obtain ⟨cs, bs, c', hn, hos, hf, r₂, hp⟩ := (decode_frames_ok_iff _ r₁.inner).1 h
      simp only [CommandPacket.new, List.nil_append] at hp
      subst hp
      exact ⟨hos, n, bs, c'.remaining, hn.symm, hf, by simpa using (r₁.append r₂).remaining⟩
  · rintro ⟨hos, n, frames, tail, hn, hf, rfl⟩
    have hr := Cursor.reads_of_remaining (Cursor.remaining_new ([n] ++ frames ++ tail))
    obtain ⟨c₁, r₁, r₂⟩ := Cursor.reads_append_iff.1 hr
    rw [(read_u8_parses ..).2 ⟨_, rfl, r₁⟩]
    exact (decode_frames_ok_iff _ r₁.inner).2 ⟨cmds, frames, _, hn.symm, hos, hf, r₂, rfl⟩

theorem frame_owned {cmd : ProtocolCommand} {bs : Bytes} : Frame cmd.owned bs ↔ Frame cmd bs := by
  unfold Frame
  simp only [spelling_owned, surplus_owned]

theorem frames_owned {cmds : List ProtocolCommand} {bs : Bytes} : Frames (cmds.map owned) bs ↔ Frames cmds bs := by
  induction cmds generalizing bs with
  | nil => rfl
  | cons cmd cmds ih =>
    rw [List.map_cons]
    constructor
    · rintro (_ | ⟨hu, hv⟩)
      exact .cons (frame_owned.1 hu) (ih.1 hv)
    · rintro (_ | ⟨hu, hv⟩)
      exact .cons (frame_owned.2 hu) (ih.2 hv)

theorem datagram_owned {cmds : List ProtocolCommand} {bs : Bytes} :
    Datagram (cmds.map owned) bs ↔ Datagram cmds bs := by
  unfold Datagram
  simp only [List.length_map, frames_owned]

theorem decode_packet_no_panic (data : Bytes) (p : Panic) : decode_packet data ≠ .error (.panic p) := by
  unfold decode_packet
  intro h
  split at h
  · cases h
  · exact decode_frames_no_panic data p _ _ _ h

theorem decode_packet_eq_owned_iff {data : Bytes} {cmds : List ProtocolCommand} :
    decode_packet data = .ok ⟨cmds.map owned⟩ ↔ Datagram cmds data := by
  rw [decode_packet_ok_iff, datagram_owned]
  simp

/-- The decoder accepts exactly its grammar: it returns `cmds`, up to the
views of their payloads, iff the input is a datagram of `cmds`; on every
other input it returns an error, and it never slices out of bounds. -/
theorem decode_packet_accepts_grammar (data : Bytes) :
    (∀ cmds, decode_packet data = .ok ⟨cmds.map owned⟩ ↔ Datagram cmds data) ∧
      (∀ packet, decode_packet data = .ok packet → packet.commands.map owned = packet.commands) ∧
      ((∀ cmds, ¬ Datagram cmds data) → ∃ e, decode_packet data = .error (.error e)) ∧
      ∀ p, decode_packet data ≠ .error (.panic p) := by
  refine ⟨fun cmds => decode_packet_eq_owned_iff, ?_, ?_, decode_packet_no_panic data⟩
  · rintro ⟨cmds⟩ h
    exact (decode_packet_ok_iff.1 h).1
  · intro hno
    match h : decode_packet data with
    | .ok ⟨cmds⟩ => exact absurd (decode_packet_ok_iff.1 h).2 (hno cmds)
    | .error (.error e) => exact ⟨e, rfl⟩
    | .error (.panic p) => exact absurd h (decode_packet_no_panic data p)

/-! ## Encoding -/

/-- The frame the encoder writes for a command. -/
def frame (cmd : ProtocolCommand) : Bytes := be16 (.ofNat (encode_command cmd).length) ++ encode_command cmd

theorem encode_framed_eq (buffer : Bytes) (cmd : ProtocolCommand) :
    encode_framed buffer cmd = buffer ++ frame cmd := by
  simp [encode_framed, frame]

/-- Patching the placeholder writes the length in big-endian order. -/
theorem be16_ofNat (n : Nat) :
    be16 (.ofNat n) = [.ofNat ((n >>> 8) &&& 0xFF), .ofNat (n &&& 0xFF)] := by
  have h8 : n >>> 8 = n / 256 := by rw [Nat.shiftRight_eq_div_pow]
  have hm : ∀ m : Nat, m &&& 0xFF = m % 256 := fun m => Nat.and_two_pow_sub_one_eq_mod m 8
  rw [h8, hm, hm]
  simp only [be16, List.cons.injEq, and_true, ← UInt8.toNat_inj, UInt8.toNat_ofNat', UInt16.toNat_ofNat']
  omega

theorem encode_framed_into_eq (buffer : Bytes) (cmd : ProtocolCommand) :
    encode_framed_into buffer cmd = buffer ++ frame cmd := by
  have hlen : (buffer ++ be16 0 ++ encode_command cmd).length - (buffer ++ be16 0).length =
      (encode_command cmd).length := by
    rw [List.length_append, Nat.add_sub_cancel_left]
  simp only [encode_framed_into, write_u16, encode_command_into_eq, hlen, frame, be16_ofNat]
  rw [show be16 0 = [0, 0] from rfl, List.append_assoc, List.set_append_right _ _ (le_refl _),
    List.set_append_right _ _ (by omega)]
  simp

theorem foldl_append_eq {f : Bytes → ProtocolCommand → Bytes} (hf : ∀ b c, f b c = b ++ frame c)
    (cmds : List ProtocolCommand) (buffer : Bytes) : cmds.foldl f buffer = buffer ++ cmds.flatMap frame := by
  induction cmds generalizing buffer with
  | nil => simp
  | cons cmd cmds ih => rw [List.foldl_cons, ih, hf, List.flatMap_cons, List.append_assoc]

theorem encode_packet_eq (packet : CommandPacket) :
    encode_packet packet = [.ofNat packet.commands.length] ++ packet.commands.flatMap frame := by
  rw [encode_packet, foldl_append_eq encode_framed_eq]
  rfl

/-- The two encoders agree. -/
theorem encode_packet_into_eq (buffer : Bytes) (packet : CommandPacket) :
    encode_packet_into buffer packet = buffer ++ encode_packet packet := by
  rw [encode_packet_into, foldl_append_eq encode_framed_into_eq, encode_packet_eq]
  simp

/-- What the buffer held stays as it is, and the bytes of the plain encoder come
after it, lengths cut to their fields as there. -/
theorem encode_packet_into_appends (buffer : Bytes) (packet : CommandPacket) :
    (encode_packet_into buffer packet).take buffer.length = buffer ∧
      (encode_packet_into buffer packet).drop buffer.length = encode_packet packet := by
  rw [encode_packet_into_eq]
  exact ⟨List.take_left, List.drop_left⟩

theorem frame_of_fits {cmd : ProtocolCommand} (h : (encode_command cmd).length ≤ 65535) : Frame cmd (frame cmd) :=
  ⟨.ofNat (encode_command cmd).length, encode_command cmd, [], .inl rfl, fun _ _ _ => rfl,
    by simp; omega, by simp [frame]⟩

theorem frames_of_fits {cmds : List ProtocolCommand} (h : ∀ cmd ∈ cmds, (encode_command cmd).length ≤ 65535) :
    Frames cmds (cmds.flatMap frame) := by
  induction cmds with
  | nil => exact .nil
  | cons cmd cmds ih =>
    rw [List.flatMap_cons]
    exact .cons (frame_of_fits (h cmd (by simp))) (ih fun c hc => h c (by simp [hc]))

/-- The encoder's bytes are a datagram of the commands encoded. -/
theorem datagram_encode_packet {cmds : List ProtocolCommand} (hn : cmds.length ≤ 255)
    (hl : ∀ cmd ∈ cmds, (encode_command cmd).length ≤ 65535) : Datagram cmds (encode_packet ⟨cmds⟩) :=
  ⟨.ofNat cmds.length, cmds.flatMap frame, [], by simp; omega, frames_of_fits hl, by
    rw [encode_packet_eq, List.append_nil]⟩

/-- Decoding what was encoded gives back the commands, in their order, with
the bytes of their payload views. -/
theorem decode_packet_encode_packet (packet : CommandPacket) (hn : packet.commands.length ≤ 255)
    (hl : ∀ cmd ∈ packet.commands, (encode_command cmd).length ≤ 65535) :
    decode_packet (encode_packet packet) = .ok ⟨packet.commands.map owned⟩ :=
  decode_packet_eq_owned_iff.2 (datagram_encode_packet hn hl)

/-- A packet of three commands, one payload a view into a larger buffer. -/
theorem decode_packet_encode_packet_three :
    decode_packet (encode_packet ⟨[Ping 5, SendReliable 1 7 true ⟨[1, 2, 3], 1, 2, by decide⟩,
      Acknowledge 3 1 none]⟩) =
      .ok ⟨[Ping 5, SendReliable 1 7 true (.from_vec [2, 3]), Acknowledge 3 1 none]⟩ :=
  decode_packet_encode_packet ⟨[Ping 5, SendReliable 1 7 true ⟨[1, 2, 3], 1, 2, by decide⟩,
    Acknowledge 3 1 none]⟩ (by decide) (by decide)

end Bitfold
