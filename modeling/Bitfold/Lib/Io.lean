import Mathlib
/-!
# Byte strings read through a cursor

Big-endian words, `std::io::Cursor` and the readers of `byteorder` on it. A
reader is a state computation on a cursor that may fail with an `IoError`.

`Parses r L` says a reader accepts exactly a language: it succeeds with `a`
iff the bytes it consumed are in `L a`. It holds of the primitive readers and
composes through `>>=` (`Parses.bind`), so the language of a format is read
off the reader's own program.
-/

namespace Lib

/-- The kinds of `std::io::Error` a reader raises. -/
inductive IoErrorKind where
  | UnexpectedEof
  | InvalidData
  | InvalidInput
  | Other
deriving DecidableEq, Repr

/-- `std::io::Error`, as far as it is observed: its kind and its text. -/
structure IoError where
  kind : IoErrorKind
  message : String
deriving DecidableEq, Repr

/-- What `read_exact` reports when the input ends too early. -/
def eof : IoError := ⟨.UnexpectedEof, "failed to fill whole buffer"⟩

/-! ## Big-endian words -/

def be16 (n : UInt16) : List UInt8 := [.ofNat (n.toNat / 256), .ofNat n.toNat]

def be32 (n : UInt32) : List UInt8 :=
  [.ofNat (n.toNat / 16777216), .ofNat (n.toNat / 65536), .ofNat (n.toNat / 256), .ofNat n.toNat]

def fromBe16 (a b : UInt8) : UInt16 := .ofNat (a.toNat * 256 + b.toNat)

def fromBe32 (a b c d : UInt8) : UInt32 :=
  .ofNat (((a.toNat * 256 + b.toNat) * 256 + c.toNat) * 256 + d.toNat)

@[simp] theorem be16_length (n : UInt16) : (be16 n).length = 2 := rfl

@[simp] theorem be32_length (n : UInt32) : (be32 n).length = 4 := rfl

theorem be16_eq_iff (n : UInt16) (a b : UInt8) : be16 n = [a, b] ↔ n = fromBe16 a b := by
  have ha := a.toNat_lt; have hb := b.toNat_lt; have hn := n.toNat_lt
  simp only [be16, List.cons.injEq, and_true, ← UInt8.toNat_inj, UInt8.toNat_ofNat', ← UInt16.toNat_inj,
    fromBe16, UInt16.toNat_ofNat']
  omega

theorem be32_eq_iff (n : UInt32) (a b c d : UInt8) : be32 n = [a, b, c, d] ↔ n = fromBe32 a b c d := by
  have ha := a.toNat_lt; have hb := b.toNat_lt; have hc := c.toNat_lt; have hd := d.toNat_lt
  have hn := n.toNat_lt
  simp only [be32, List.cons.injEq, and_true, ← UInt8.toNat_inj, UInt8.toNat_ofNat', ← UInt32.toNat_inj,
    fromBe32, UInt32.toNat_ofNat']
  omega

/-! ## Cursors -/

/-- `std::io::Cursor` over a byte string. -/
structure Cursor where
  inner : List UInt8
  position : Nat
deriving DecidableEq, Repr

namespace Cursor

def new (inner : List UInt8) : Cursor := ⟨inner, 0⟩

/-- The bytes not read yet. -/
def remaining (c : Cursor) : List UInt8 := c.inner.drop c.position

def set_position (c : Cursor) (position : Nat) : Cursor := { c with position }

/-- `c'` is `c` after reading `bs`. -/
structure Reads (c : Cursor) (bs : List UInt8) (c' : Cursor) : Prop where
  inner : c'.inner = c.inner
  position : c'.position = c.position + bs.length
  remaining : c.remaining = bs ++ c'.remaining

@[simp] theorem remaining_new (bs : List UInt8) : (new bs).remaining = bs := rfl

theorem reads_of_remaining {c : Cursor} {bs rest : List UInt8} (h : c.remaining = bs ++ rest) :
    c.Reads bs ⟨c.inner, c.position + bs.length⟩ := by
  refine ⟨rfl, rfl, ?_⟩
  have hd : c.inner.drop (c.position + bs.length) = rest := by
    rw [← List.drop_drop, show c.inner.drop c.position = bs ++ rest from h, List.drop_left]
  rw [h]
  simp [Cursor.remaining, hd]

theorem Reads.unique {c c' c'' : Cursor} {bs : List UInt8} (h : c.Reads bs c') (h' : c.Reads bs c'') :
    c' = c'' := by
  obtain ⟨hi, hp, -⟩ := h
  obtain ⟨hi', hp', -⟩ := h'
  cases c'; cases c''
  simp_all

theorem Reads.nil (c : Cursor) : c.Reads [] c := ⟨rfl, rfl, rfl⟩

theorem reads_nil_iff {c c' : Cursor} : c.Reads [] c' ↔ c' = c :=
  ⟨fun h => h.unique (Reads.nil c), fun h => h ▸ Reads.nil c⟩

theorem Reads.append {c c₁ c₂ : Cursor} {x y : List UInt8} (h₁ : c.Reads x c₁) (h₂ : c₁.Reads y c₂) :
    c.Reads (x ++ y) c₂ where
  inner := h₂.inner.trans h₁.inner
  position := by rw [h₂.position, h₁.position, List.length_append]; omega
  remaining := by rw [h₁.remaining, h₂.remaining, List.append_assoc]

/-- Reading `x ++ y` is reading `x` and then `y`. -/
theorem reads_append_iff {c c' : Cursor} {x y : List UInt8} :
    c.Reads (x ++ y) c' ↔ ∃ c₁, c.Reads x c₁ ∧ c₁.Reads y c' := by
  constructor
  · intro h
    have h₁ : c.Reads x ⟨c.inner, c.position + x.length⟩ :=
      reads_of_remaining (by rw [h.remaining, List.append_assoc])
    refine ⟨_, h₁, h.inner, ?_, ?_⟩
    · rw [h.position, List.length_append]; simp only; omega
    · apply (List.append_right_inj x).1
      rw [← h₁.remaining, h.remaining, List.append_assoc]
  · rintro ⟨c₁, h₁, h₂⟩
    exact h₁.append h₂

end Cursor

/-! ## Readers -/

/-- A computation that reads from a cursor. -/
abbrev Reader (α : Type) := StateT Cursor (Except IoError) α

/-- `cursor.read_exact` into a buffer of `n` bytes. -/
def read_exact (n : Nat) : Reader (List UInt8) := fun c =>
  if n ≤ c.remaining.length then .ok (c.remaining.take n, ⟨c.inner, c.position + n⟩) else .error eof

def read_u8 : Reader UInt8 := do
  match ← read_exact 1 with
  | [a] => pure a
  | _ => throw eof

def read_u16 : Reader UInt16 := do
  match ← read_exact 2 with
  | [a, b] => pure (fromBe16 a b)
  | _ => throw eof

def read_u32 : Reader UInt32 := do
  match ← read_exact 4 with
  | [a, b, c, d] => pure (fromBe32 a b c d)
  | _ => throw eof

/-- `position < get_ref().len()`: is there anything left to read? -/
def more : Reader Bool := fun c => .ok (decide (c.position < c.inner.length), c)

theorem bind_ok_iff {α β : Type} {x : Reader α} {f : α → Reader β} {c : Cursor} {r : β × Cursor} :
    (x >>= f) c = .ok r ↔ ∃ a c₁, x c = .ok (a, c₁) ∧ f a c₁ = .ok r := by
  change (do let (a, s) ← x c; f a s) = Except.ok r ↔ _
  cases h : x c with
  | error e => simp [Bind.bind, Except.bind]
  | ok p => obtain ⟨a, c₁⟩ := p; simp [Bind.bind, Except.bind]

theorem pure_ok_iff {α : Type} {a b : α} {c c' : Cursor} :
    (pure a : Reader α) c = .ok (b, c') ↔ b = a ∧ c' = c := by
  change (Except.ok (a, c) = Except.ok (b, c')) ↔ _
  simp only [Except.ok.injEq, Prod.mk.injEq]
  exact ⟨fun ⟨h, h'⟩ => ⟨h.symm, h'.symm⟩, fun ⟨h, h'⟩ => ⟨h.symm, h'.symm⟩⟩

/-- `r` succeeds with `a` exactly when it consumed bytes of `L a`. -/
def Parses {α : Type} (r : Reader α) (L : α → List UInt8 → Prop) : Prop :=
  ∀ c a c', r c = .ok (a, c') ↔ ∃ bs, L a bs ∧ c.Reads bs c'

theorem Parses.congr {α : Type} {r : Reader α} {L L' : α → List UInt8 → Prop} (h : Parses r L)
    (e : ∀ a bs, L a bs ↔ L' a bs) : Parses r L' := by
  intro c a c'
  rw [h c a c']
  simp only [e]

theorem Parses.pure {α : Type} (a : α) : Parses (pure a) (fun b bs => b = a ∧ bs = []) := by
  intro c b c'
  rw [pure_ok_iff]
  constructor
  · rintro ⟨rfl, rfl⟩
    exact ⟨[], ⟨rfl, rfl⟩, .nil _⟩
  · rintro ⟨_, ⟨rfl, rfl⟩, h⟩
    exact ⟨rfl, Cursor.reads_nil_iff.1 h⟩

theorem Parses.fail {α : Type} (e : IoError) : Parses (throw e : Reader α) (fun _ _ => False) := by
  intro c a c'
  constructor
  · intro h
    cases h
  · rintro ⟨_, h, _⟩
    exact h.elim

theorem Parses.bind {α β : Type} {x : Reader α} {f : α → Reader β} {L : α → List UInt8 → Prop}
    {M : α → β → List UInt8 → Prop} (hx : Parses x L) (hf : ∀ a, Parses (f a) (M a)) :
    Parses (x >>= f) (fun b bs => ∃ a u v, L a u ∧ M a b v ∧ bs = u ++ v) := by
  intro c b c'
  rw [bind_ok_iff]
  constructor
  · rintro ⟨a, c₁, h₁, h₂⟩
    obtain ⟨u, hu, hr⟩ := (hx c a c₁).1 h₁
    obtain ⟨v, hv, hr'⟩ := (hf a c₁ b c').1 h₂
    exact ⟨u ++ v, ⟨a, u, v, hu, hv, rfl⟩, hr.append hr'⟩
  · rintro ⟨_, ⟨a, u, v, hu, hv, rfl⟩, hr⟩
    obtain ⟨c₁, hr₁, hr₂⟩ := Cursor.reads_append_iff.1 hr
    exact ⟨a, c₁, (hx c a c₁).2 ⟨u, hu, hr₁⟩, (hf a c₁ b c').2 ⟨v, hv, hr₂⟩⟩

theorem read_exact_parses (n : Nat) : Parses (read_exact n) (fun d bs => bs = d ∧ d.length = n) := by
  intro c d c'
  unfold read_exact
  constructor
  · intro h
    split at h
    · rename_i hn
      simp only [Except.ok.injEq, Prod.mk.injEq] at h
      obtain ⟨rfl, rfl⟩ := h
      have hl : (c.remaining.take n).length = n := by rw [List.length_take]; omega
      refine ⟨_, ⟨rfl, hl⟩, ?_⟩
      have := Cursor.reads_of_remaining (List.take_append_drop n c.remaining).symm
      rwa [hl] at this
    · cases h
  · rintro ⟨d, ⟨rfl, rfl⟩, hr⟩
    have hn : d.length ≤ c.remaining.length := by rw [hr.remaining, List.length_append]; omega
    rw [if_pos hn, hr.remaining, List.take_left, hr.unique (Cursor.reads_of_remaining hr.remaining)]

theorem read_u8_parses : Parses read_u8 (fun a bs => bs = [a]) := by
  intro c a c'
  unfold read_u8
  rw [bind_ok_iff]
  constructor
  · rintro ⟨d, c₁, h₁, h₂⟩
    obtain ⟨_, ⟨rfl, hl⟩, hr⟩ := (read_exact_parses 1 c d c₁).1 h₁
    obtain ⟨x, rfl⟩ := List.length_eq_one_iff.1 hl
    obtain ⟨rfl, rfl⟩ := pure_ok_iff.1 h₂
    exact ⟨_, rfl, hr⟩
  · rintro ⟨_, rfl, hr⟩
    exact ⟨[a], c', (read_exact_parses 1 c _ c').2 ⟨_, ⟨rfl, rfl⟩, hr⟩, rfl⟩

theorem read_u16_parses : Parses read_u16 (fun n bs => bs = be16 n) := by
  intro c n c'
  unfold read_u16
  rw [bind_ok_iff]
  constructor
  · rintro ⟨d, c₁, h₁, h₂⟩
    obtain ⟨_, ⟨rfl, hl⟩, hr⟩ := (read_exact_parses 2 c d c₁).1 h₁
    obtain ⟨x, y, rfl⟩ := List.length_eq_two.1 hl
    obtain ⟨rfl, rfl⟩ := pure_ok_iff.1 h₂
    exact ⟨_, ((be16_eq_iff _ x y).2 rfl).symm, hr⟩
  · rintro ⟨_, rfl, hr⟩
    refine ⟨be16 n, c', (read_exact_parses 2 c _ c').2 ⟨_, ⟨rfl, rfl⟩, hr⟩, pure_ok_iff.2 ⟨?_, rfl⟩⟩
    exact (be16_eq_iff n _ _).1 rfl

theorem read_u32_parses : Parses read_u32 (fun n bs => bs = be32 n) := by
  intro c n c'
  unfold read_u32
  rw [bind_ok_iff]
  constructor
  · rintro ⟨d, c₁, h₁, h₂⟩
    obtain ⟨d, ⟨rfl, hl⟩, hr⟩ := (read_exact_parses 4 c d c₁).1 h₁
    obtain ⟨w, x, y, z, rfl⟩ : ∃ w x y z, d = [w, x, y, z] := by
      match d, hl with
      | [w, x, y, z], _ => exact ⟨w, x, y, z, rfl⟩
    obtain ⟨rfl, rfl⟩ := pure_ok_iff.1 h₂
    exact ⟨_, ((be32_eq_iff _ w x y z).2 rfl).symm, hr⟩
  · rintro ⟨_, rfl, hr⟩
    refine ⟨be32 n, c', (read_exact_parses 4 c _ c').2 ⟨_, ⟨rfl, rfl⟩, hr⟩, pure_ok_iff.2 ⟨?_, rfl⟩⟩
    exact (be32_eq_iff n _ _ _ _).1 rfl

/-- At the end of the input, and only there, nothing remains. -/
theorem more_eq (c : Cursor) : more c = .ok (decide (c.remaining ≠ []), c) := by
  unfold more
  have : c.position < c.inner.length ↔ c.remaining ≠ [] := by
    rw [Cursor.remaining, ne_eq, List.drop_eq_nil_iff]; omega
  simp only [this]

end Lib
