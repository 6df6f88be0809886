import Bitfold.Codec
/-!
# The wire grammar

Which bytes the command decoder accepts, and as what. `Body` lists the fields
of each command type; `Frame` and `Datagram` are the framing around it. The
reader of a type accepts its `Body` (`decode_body_ok_iff`), and a `Body` is an
encoding up to the spelling of a flag (`spelling_of_body`,
`body_of_spelling`), which together give the decoder's language.
-/

namespace Bitfold

open Lib CommandEncoder CommandDecoder ProtocolCommand

/-! ## The language of each reader -/

/-- A payload is its length and its bytes, at most `u16::MAX` of them. -/
def Payload (data : SharedBytes) (bs : Bytes) : Prop :=
  ∃ v : Bytes, data = .from_vec v ∧ v.length < 65536 ∧ bs = be16 (.ofNat v.length) ++ v

/-- The bytes after the type byte `t`, and the command they stand for. -/
def Body : UInt8 → ProtocolCommand → Bytes → Prop
  | 1 => fun cmd bs => ∃ ch s f d p, Payload d p ∧ cmd = SendReliable ch s (f != 0) d ∧
      bs = [ch] ++ be16 s ++ [f] ++ p
  | 2 => fun cmd bs => ∃ ch d p, Payload d p ∧ cmd = SendUnreliable ch d ∧ bs = [ch] ++ p
  | 3 => fun cmd bs => ∃ ch s d p, Payload d p ∧ cmd = SendUnreliableSequenced ch s d ∧
      bs = [ch] ++ be16 s ++ p
  | 4 => fun cmd bs => ∃ ch g d p, Payload d p ∧ cmd = SendUnsequenced ch g d ∧ bs = [ch] ++ be16 g ++ p
  | 5 => fun cmd bs => ∃ ch s f i n d p, Payload d p ∧ cmd = SendFragment ch s (f != 0) i n d ∧
      bs = [ch] ++ be16 s ++ [f] ++ [i] ++ [n] ++ p
  | 6 => fun cmd bs => ∃ ch s i n d p, Payload d p ∧ cmd = SendUnreliableFragment ch s i n d ∧
      bs = [ch] ++ be16 s ++ [i] ++ [n] ++ p
  | 7 => fun cmd bs => ∃ s m t, cmd = Acknowledge s m t ∧ bs = be16 s ++ be32 m ++ t.elim [] be32
  | 8 => fun cmd bs => ∃ t, cmd = Ping t ∧ bs = be32 t
  | 9 => fun cmd bs => ∃ t, cmd = Pong t ∧ bs = be32 t
  | 10 => fun cmd bs => ∃ ch m v o i, cmd = Connect ch m v o i ∧
      bs = [ch] ++ be16 m ++ be16 v ++ be16 o ++ be32 i
  | 11 => fun cmd bs => ∃ p ch m i o w, cmd = VerifyConnect p ch m i o w ∧
      bs = be16 p ++ [ch] ++ be16 m ++ be16 i ++ be16 o ++ be32 w
  | 12 => fun cmd bs => ∃ r, cmd = Disconnect r ∧ bs = be32 r
  | 13 => fun cmd bs => ∃ i o, cmd = BandwidthLimit i o ∧ bs = be32 i ++ be32 o
  | 14 => fun cmd bs => ∃ i a d, cmd = ThrottleConfigure i a d ∧ bs = be32 i ++ be32 a ++ be32 d
  | 15 => fun cmd bs => ∃ s t d p, Payload d p ∧ cmd = PMTUProbe s t d ∧ bs = be16 s ++ be32 t ++ p
  | 16 => fun cmd bs => ∃ s t, cmd = PMTUReply s t ∧ bs = be16 s ++ be32 t
  | _ => fun _ _ => False

theorem read_flag_parses : Parses read_flag (fun o bs => ∃ f : UInt8, o = (f != 0) ∧ bs = [f]) :=
  (read_u8_parses.bind fun _ => .pure _).congr fun o bs => by aesop

theorem read_data_parses : Parses read_data Payload :=
  (read_u16_parses.bind fun n => (read_exact_parses n.toNat).bind fun _ => .pure _).congr fun d bs => by
    constructor
    · rintro ⟨n, _, _, rfl, ⟨v, _, _, ⟨rfl, hl⟩, ⟨rfl, rfl⟩, rfl⟩, rfl⟩
      refine ⟨_, rfl, hl ▸ n.toNat_lt, ?_⟩
      rw [hl, UInt16.ofNat_toNat, List.append_nil]
    · rintro ⟨v, rfl, hv, rfl⟩
      have hn : v.length = (UInt16.ofNat v.length).toNat := by simp [Nat.mod_eq_of_lt hv]
      exact ⟨_, _, v, rfl, ⟨v, v, [], ⟨rfl, hn⟩, ⟨rfl, rfl⟩, by simp⟩, rfl⟩

/-- Every type but `Acknowledge` is read by a fixed sequence of readers. -/
theorem decode_body_parses {t : UInt8} (ht : t ≠ 7) : Parses (decode_body t) (Body t) := by
  unfold decode_body Body
  split
  · exact (read_u8_parses.bind fun _ => read_u16_parses.bind fun _ => read_flag_parses.bind fun _ =>
      read_data_parses.bind fun _ => .pure _).congr fun cmd bs => by aesop
  · exact (read_u8_parses.bind fun _ => read_data_parses.bind fun _ => .pure _).congr fun cmd bs => by aesop
  · exact (read_u8_parses.bind fun _ => read_u16_parses.bind fun _ => read_data_parses.bind fun _ =>
      .pure _).congr fun cmd bs => by aesop
  · exact (read_u8_parses.bind fun _ => read_u16_parses.bind fun _ => read_data_parses.bind fun _ =>
      .pure _).congr fun cmd bs => by aesop
  · exact (read_u8_parses.bind fun _ => read_u16_parses.bind fun _ => read_flag_parses.bind fun _ =>
      read_u8_parses.bind fun _ => read_u8_parses.bind fun _ => read_data_parses.bind fun _ =>
      .pure _).congr fun cmd bs => by aesop
  · exact (read_u8_parses.bind fun _ => read_u16_parses.bind fun _ => read_u8_parses.bind fun _ =>
      read_u8_parses.bind fun _ => read_data_parses.bind fun _ => .pure _).congr fun cmd bs => by aesop
  · exact absurd rfl ht
  · exact (read_u32_parses.bind fun _ => .pure _).congr fun cmd bs => by aesop
  · exact (read_u32_parses.bind fun _ => .pure _).congr fun cmd bs => by aesop
  · exact (read_u8_parses.bind fun _ => read_u16_parses.bind fun _ => read_u16_parses.bind fun _ =>
      read_u16_parses.bind fun _ => read_u32_parses.bind fun _ => .pure _).congr fun cmd bs => by aesop
  · exact (read_u16_parses.bind fun _ => read_u8_parses.bind fun _ => read_u16_parses.bind fun _ =>
      read_u16_parses.bind fun _ => read_u16_parses.bind fun _ => read_u32_parses.bind fun _ =>
      .pure _).congr fun cmd bs => by aesop
  · exact (read_u32_parses.bind fun _ => .pure _).congr fun cmd bs => by aesop
  · exact (read_u32_parses.bind fun _ => read_u32_parses.bind fun _ => .pure _).congr fun cmd bs => by aesop
  · exact (read_u32_parses.bind fun _ => read_u32_parses.bind fun _ => read_u32_parses.bind fun _ =>
      .pure _).congr fun cmd bs => by aesop
  · exact (read_u16_parses.bind fun _ => read_u32_parses.bind fun _ => read_data_parses.bind fun _ =>
      .pure _).congr fun cmd bs => by aesop
  · exact (read_u16_parses.bind fun _ => read_u32_parses.bind fun _ => .pure _).congr fun cmd bs => by aesop
  · exact (Parses.fail _).congr fun cmd bs => by simp_all

/-- The readers of an `Acknowledge` look one step past the mask, so they are
not a language of their own: without `sent_time` nothing may follow. -/
theorem decode_acknowledge_ok_iff {c c' : Cursor} {cmd : ProtocolCommand} :
    decode_body 7 c = .ok (cmd, c') ↔
      ∃ s m t, cmd = Acknowledge s m t ∧ c.Reads (be16 s ++ be32 m ++ t.elim [] be32) c' ∧
        (t = none → c'.remaining = []) := by
  unfold decode_body
  constructor
  · intro h
    obtain ⟨s, c₁, h₁, h⟩ := bind_ok_iff.1 h
    obtain ⟨m, c₂, h₂, h⟩ := bind_ok_iff.1 h
    obtain ⟨b, c₃, h₃, h⟩ := bind_ok_iff.1 h
    obtain ⟨_, rfl, r₁⟩ := (read_u16_parses ..).1 h₁
    obtain ⟨_, rfl, r₂⟩ := (read_u32_parses ..).1 h₂
    rw [more_eq] at h₃
    cases h₃
    by_cases hr : c₂.remaining = []
    · simp only [hr, ne_eq, not_true_eq_false, decide_false, Bool.false_eq_true, if_false] at h
      obtain ⟨rfl, rfl⟩ := pure_ok_iff.1 h
      exact ⟨s, m, none, rfl, by simpa using r₁.append r₂, fun _ => hr⟩
    · simp only [ne_eq, hr, not_false_eq_true, decide_true, if_true] at h
      obtain ⟨t, c₄, h₄, h⟩ := bind_ok_iff.1 h
      obtain ⟨_, rfl, r₄⟩ := (read_u32_parses ..).1 h₄
      obtain ⟨rfl, rfl⟩ := pure_ok_iff.1 h
      exact ⟨s, m, some t, rfl, (r₁.append r₂).append r₄, by simp⟩
  · rintro ⟨s, m, t, rfl, hr, ht⟩
    obtain ⟨c₂, hr, r₃⟩ := Cursor.reads_append_iff.1 hr
    obtain ⟨c₁, r₁, r₂⟩ := Cursor.reads_append_iff.1 hr
    refine bind_ok_iff.2 ⟨s, c₁, (read_u16_parses ..).2 ⟨_, rfl, r₁⟩, ?_⟩
    refine bind_ok_iff.2 ⟨m, c₂, (read_u32_parses ..).2 ⟨_, rfl, r₂⟩, ?_⟩
    refine bind_ok_iff.2 ⟨_, c₂, more_eq c₂, ?_⟩
    cases t with
    | none =>
      obtain rfl := Cursor.reads_nil_iff.1 r₃
      simp only [ht rfl, ne_eq, not_true_eq_false, decide_false, Bool.false_eq_true, if_false]
      exact pure_ok_iff.2 ⟨rfl, rfl⟩
    | some t =>
      have hne : c₂.remaining ≠ [] := by rw [r₃.remaining]; simp [be32]
      simp only [hne, ne_eq, not_false_eq_true, decide_true, if_true]
      exact bind_ok_iff.2 ⟨t, c', (read_u32_parses ..).2 ⟨_, rfl, r₃⟩, pure_ok_iff.2 ⟨rfl, rfl⟩⟩

/-- What may follow the fields of `cmd` in its frame: anything, but nothing
after an `Acknowledge` without `sent_time`. -/
def Surplus (cmd : ProtocolCommand) (rest : Bytes) : Prop :=
  ∀ s m, cmd = Acknowledge s m none → rest = []

theorem decode_body_ok_iff {t : UInt8} {c c' : Cursor} {cmd : ProtocolCommand} :
    decode_body t c = .ok (cmd, c') ↔ ∃ bs, Body t cmd bs ∧ c.Reads bs c' ∧ Surplus cmd c'.remaining := by
  by_cases ht : t = 7
  · subst ht
    rw [decode_acknowledge_ok_iff]
    constructor
    · rintro ⟨s, m, t, rfl, hr, hn⟩
      exact ⟨_, ⟨s, m, t, rfl, rfl⟩, hr, fun s' m' h => hn (by cases h; rfl)⟩
    · rintro ⟨_, ⟨s, m, t, rfl, rfl⟩, hr, hn⟩
      exact ⟨s, m, t, rfl, hr, fun h => hn s m (by rw [h])⟩
  · have hs : ∀ bs, Body t cmd bs → Surplus cmd c'.remaining := by
      rintro bs hb s m rfl
      unfold Body at hb
      split at hb <;> simp_all
    rw [decode_body_parses ht]
    exact ⟨fun ⟨bs, hb, hr⟩ => ⟨bs, hb, hr, hs bs hb⟩, fun ⟨bs, hb, hr, _⟩ => ⟨bs, hb, hr⟩⟩

/-! ## Encodings -/

/-- Encoding into a buffer appends the encoding. -/
theorem encode_command_into_eq (buffer : Bytes) (cmd : ProtocolCommand) :
    encode_command_into buffer cmd = buffer ++ encode_command cmd := by
  cases cmd with
  | Acknowledge s m t => cases t <;> simp [encode_command_into, encode_command]
  | _ => simp [encode_command_into, encode_command]

@[simp] theorem encode_command_owned (cmd : ProtocolCommand) :
    encode_command cmd.owned = encode_command cmd := by
  cases cmd <;> simp [encode_command, owned, command_type]

/-- The value of the `ordered` flag, of the commands that have one. -/
def is_ordered : ProtocolCommand → Bool
  | SendReliable _ _ ordered _ => ordered
  | SendFragment _ _ ordered _ _ _ => ordered
  | _ => false

/-- The bytes that stand for `cmd`: its encoding, with any nonzero byte for a
flag that is set. -/
def Spelling (cmd : ProtocolCommand) (enc : Bytes) : Prop :=
  enc = encode_command cmd ∨
    (is_ordered cmd = true ∧ ∃ f : UInt8, f ≠ 0 ∧ enc = (encode_command cmd).set 4 f)

/-- The payload of a command, if it carries one. -/
def payload : ProtocolCommand → Option SharedBytes
  | SendReliable _ _ _ data => some data
  | SendUnreliable _ data => some data
  | SendUnreliableSequenced _ _ data => some data
  | SendUnsequenced _ _ data => some data
  | SendFragment _ _ _ _ _ data => some data
  | SendUnreliableFragment _ _ _ _ data => some data
  | PMTUProbe _ _ payload => some payload
  | _ => none

theorem payload_len_le {cmd : ProtocolCommand} {data : SharedBytes} (h : payload cmd = some data) :
    data.len ≤ (encode_command cmd).length := by
  cases cmd <;> cases h <;> simp [encode_command] <;> omega

theorem Spelling.length_eq {cmd : ProtocolCommand} {enc : Bytes} (h : Spelling cmd enc) :
    enc.length = (encode_command cmd).length := by
  rcases h with rfl | ⟨-, f, -, rfl⟩
  · rfl
  · rw [List.length_set]

theorem payload_of_view {d : SharedBytes} (h : d.len < 65536) :
    Payload (.from_vec d.as_slice) (be16 (.ofNat d.len) ++ d.as_slice) :=
  ⟨d.as_slice, rfl, by simpa using h, by simp⟩

/-- A body, with its type byte, spells the command it stands for. -/
theorem spelling_of_body {t : UInt8} {cmd : ProtocolCommand} {bs : Bytes} (h : Body t cmd bs) :
    cmd.owned = cmd ∧ Spelling cmd (t :: bs) := by
  unfold Body at h
  split at h
  · obtain ⟨ch, s, f, d, p, ⟨v, rfl, hv, rfl⟩, rfl, rfl⟩ := h
    refine ⟨by simp [owned], ?_⟩
    by_cases hf : f = 0
    · exact .inl (by simp [hf, encode_command, command_type, flag_byte])
    · exact .inr ⟨by simp [is_ordered, hf], f, hf, by simp [encode_command, command_type, be16]⟩
  · obtain ⟨ch, d, p, ⟨v, rfl, hv, rfl⟩, rfl, rfl⟩ := h
    exact ⟨by simp [owned], .inl (by simp [encode_command, command_type])⟩
  · obtain ⟨ch, s, d, p, ⟨v, rfl, hv, rfl⟩, rfl, rfl⟩ := h
    exact ⟨by simp [owned], .inl (by simp [encode_command, command_type])⟩
  · obtain ⟨ch, g, d, p, ⟨v, rfl, hv, rfl⟩, rfl, rfl⟩ := h
    exact ⟨by simp [owned], .inl (by simp [encode_command, command_type])⟩
  · obtain ⟨ch, s, f, i, n, d, p, ⟨v, rfl, hv, rfl⟩, rfl, rfl⟩ := h
    refine ⟨by simp [owned], ?_⟩
    by_cases hf : f = 0
    · exact .inl (by simp [hf, encode_command, command_type, flag_byte])
    · exact .inr ⟨by simp [is_ordered, hf], f, hf, by simp [encode_command, command_type, be16]⟩
  · obtain ⟨ch, s, i, n, d, p, ⟨v, rfl, hv, rfl⟩, rfl, rfl⟩ := h
    exact ⟨by simp [owned], .inl (by simp [encode_command, command_type])⟩
  · obtain ⟨s, m, t, rfl, rfl⟩ := h
    exact ⟨rfl, .inl (by cases t <;> rfl)⟩
  · obtain ⟨t, rfl, rfl⟩ := h
    exact ⟨rfl, .inl rfl⟩
  · obtain ⟨t, rfl, rfl⟩ := h
    exact ⟨rfl, .inl rfl⟩
  · obtain ⟨ch, m, v, o, i, rfl, rfl⟩ := h
    exact ⟨rfl, .inl rfl⟩
  · obtain ⟨p, ch, m, i, o, w, rfl, rfl⟩ := h
    exact ⟨rfl, .inl rfl⟩
  · obtain ⟨r, rfl, rfl⟩ := h
    exact ⟨rfl, .inl rfl⟩
  · obtain ⟨i, o, rfl, rfl⟩ := h
    exact ⟨rfl, .inl rfl⟩
  · obtain ⟨i, a, d, rfl, rfl⟩ := h
    exact ⟨rfl, .inl rfl⟩
  · obtain ⟨s, t, d, p, ⟨v, rfl, hv, rfl⟩, rfl, rfl⟩ := h
    exact ⟨by simp [owned], .inl (by simp [encode_command, command_type])⟩
  · obtain ⟨s, t, rfl, rfl⟩ := h
    exact ⟨rfl, .inl rfl⟩
  · exact h.elim

/-- A spelling that fits a frame is a type byte and a body of that type. -/
theorem body_of_spelling {cmd : ProtocolCommand} {enc : Bytes} (h : Spelling cmd enc)
    (hl : enc.length < 65536) :
    ∃ bs, enc = cmd.command_type :: bs ∧ Body cmd.command_type cmd.owned bs := by
  rw [h.length_eq] at hl
  have hp : ∀ {d}, payload cmd = some d → Payload (.from_vec d.as_slice) (be16 (.ofNat d.len) ++ d.as_slice) :=
    fun hd => payload_of_view (lt_of_le_of_lt (payload_len_le hd) hl)
  rcases h with rfl | ⟨ho, f, hf, rfl⟩
  · cases cmd with
    | SendReliable ch s o d =>
      exact ⟨_, rfl, ch, s, flag_byte o, _, _, hp rfl, by cases o <;> rfl, by simp⟩
    | SendUnreliable ch d => exact ⟨_, rfl, ch, _, _, hp rfl, rfl, by simp⟩
    | SendUnreliableSequenced ch s d => exact ⟨_, rfl, ch, s, _, _, hp rfl, rfl, by simp⟩
    | SendUnsequenced ch g d => exact ⟨_, rfl, ch, g, _, _, hp rfl, rfl, by simp⟩
    | SendFragment ch s o i n d =>
      exact ⟨_, rfl, ch, s, flag_byte o, i, n, _, _, hp rfl, by cases o <;> rfl, by simp⟩
    | SendUnreliableFragment ch s i n d => exact ⟨_, rfl, ch, s, i, n, _, _, hp rfl, rfl, by simp⟩
    | Acknowledge s m t => exact ⟨_, by cases t <;> rfl, s, m, t, rfl, rfl⟩
    | Ping t => exact ⟨_, rfl, t, rfl, rfl⟩
    | Pong t => exact ⟨_, rfl, t, rfl, rfl⟩
    | Connect ch m v o i => exact ⟨_, rfl, ch, m, v, o, i, rfl, rfl⟩
    | VerifyConnect p ch m i o w => exact ⟨_, rfl, p, ch, m, i, o, w, rfl, rfl⟩
    | Disconnect r => exact ⟨_, rfl, r, rfl, rfl⟩
    | BandwidthLimit i o => exact ⟨_, rfl, i, o, rfl, rfl⟩
    | ThrottleConfigure i a d => exact ⟨_, rfl, i, a, d, rfl, rfl⟩
    | PMTUProbe s t d => exact ⟨_, rfl, s, t, _, _, hp rfl, rfl, by simp⟩
    | PMTUReply s t => exact ⟨_, rfl, s, t, rfl, rfl⟩
  · -- only two commands have a flag
    cases cmd with
    | SendReliable ch s o d =>
      exact ⟨_, rfl, ch, s, f, _, _, hp rfl, by simp_all [is_ordered, owned], by simp [be16]⟩
    | SendFragment ch s o i n d =>
      exact ⟨_, rfl, ch, s, f, i, n, _, _, hp rfl, by simp_all [is_ordered, owned], by simp [be16]⟩
    | _ => exact absurd ho (by simp [is_ordered])

/-! ## Frames and datagrams -/

/-- One frame: a length, and a body of that length that spells `cmd`. -/
def Frame (cmd : ProtocolCommand) (bs : Bytes) : Prop :=
  ∃ (len : UInt16) (enc rest : Bytes), Spelling cmd enc ∧ Surplus cmd rest ∧
    len.toNat = (enc ++ rest).length ∧ bs = be16 len ++ (enc ++ rest)

inductive Frames : List ProtocolCommand → Bytes → Prop where
  | nil : Frames [] []
  | cons {cmd cmds u v} : Frame cmd u → Frames cmds v → Frames (cmd :: cmds) (u ++ v)

/-- A count byte, that many frames, and a tail nothing reads. -/
def Datagram (cmds : List ProtocolCommand) (bs : Bytes) : Prop :=
  ∃ (n : UInt8) (frames tail : Bytes), n.toNat = cmds.length ∧ Frames cmds frames ∧
    bs = [n] ++ frames ++ tail

theorem is_ordered_owned (cmd : ProtocolCommand) : is_ordered cmd.owned = is_ordered cmd := by
  cases cmd <;> rfl

theorem spelling_owned {cmd : ProtocolCommand} {enc : Bytes} : Spelling cmd.owned enc ↔ Spelling cmd enc := by
  unfold Spelling
  rw [encode_command_owned, is_ordered_owned]

theorem surplus_owned {cmd : ProtocolCommand} {rest : Bytes} : Surplus cmd.owned rest ↔ Surplus cmd rest := by
  unfold Surplus
  cases cmd <;> simp [owned]

/-- `decode_command` on a frame's bytes: it finds `cmd` iff they spell it. -/
theorem decode_command_ok_iff {data : Bytes} (hl : data.length < 65536) {cmd : ProtocolCommand} :
    (∃ c', decode_command (Cursor.new data) = .ok (cmd, c')) ↔
      cmd.owned = cmd ∧ ∃ enc rest, Spelling cmd enc ∧ Surplus cmd rest ∧ data = enc ++ rest := by
  unfold decode_command
  constructor
  · rintro ⟨c', h⟩
    obtain ⟨t, c₁, h₁, h₂⟩ := bind_ok_iff.1 h
    obtain ⟨_, rfl, r₁⟩ := (read_u8_parses ..).1 h₁
    obtain ⟨bs, hb, r₂, hs⟩ := decode_body_ok_iff.1 h₂
    obtain ⟨ho, hsp⟩ := spelling_of_body hb
    refine ⟨ho, t :: bs, c'.remaining, hsp, hs, ?_⟩
    simpa using (r₁.append r₂).remaining
  · rintro ⟨ho, enc, rest, hsp, hs, rfl⟩
    obtain ⟨bs, rfl, hb⟩ := body_of_spelling hsp (by rw [List.length_append] at hl; omega)
    rw [ho] at hb
    have hr : (Cursor.new (cmd.command_type :: bs ++ rest)).remaining = ([cmd.command_type] ++ bs) ++ rest := rfl
    have hr' := Cursor.reads_of_remaining hr
    obtain ⟨c₁, r₁, r₂⟩ := Cursor.reads_append_iff.1 hr'
    refine ⟨_, bind_ok_iff.2 ⟨_, c₁, (read_u8_parses ..).2 ⟨_, rfl, r₁⟩, decode_body_ok_iff.2 ⟨bs, hb, r₂, ?_⟩⟩⟩
    rwa [List.append_cancel_left (hr'.remaining.symm.trans hr)]

end Bitfold
