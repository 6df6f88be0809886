import Mathlib
/-!
# Loops

A `while let Some(x) = ...` loop as a step function on the state that stops by
yielding `none`. `Drains` is the loop itself; `drain` runs it with fuel, and
`drains_drain` says a measure that falls at every step is fuel enough.
`set_range` is a `for` loop that writes every entry of a range of an array.
-/

namespace Lib

section Drain

variable {σ β : Type} (step : σ → Option β × σ)

/-- The loop run from `s` yields `bs` and stops at `t`. -/
inductive Drains : σ → List β → σ → Prop where
  | stop {s t} : step s = (none, t) → Drains s [] t
  | next {s s' t b bs} : step s = (some b, s') → Drains s' bs t → Drains s (b :: bs) t

/-- The loop run for at most `fuel` rounds after the first. -/
def drain : Nat → σ → List β × σ
  | 0, s => ([], (step s).2)
  | fuel + 1, s =>
    match step s with
    | (none, t) => ([], t)
    | (some b, s') =>
      let (bs, t) := drain fuel s'
      (b :: bs, t)

variable {step}

theorem drains_drain {μ : σ → Nat} (hμ : ∀ s b s', step s = (some b, s') → μ s' < μ s) (fuel : Nat) (s : σ)
    (h : μ s ≤ fuel) : Drains step s (drain step fuel s).1 (drain step fuel s).2 := by
  induction fuel generalizing s with
  | zero =>
    match hs : step s with
    | (none, t) => exact .stop (by rw [drain, hs])
    | (some b, s') => exact absurd (hμ s b s' hs) (by omega)
  | succ fuel ih =>
    unfold drain
    match hs : step s with
    | (none, t) => exact .stop hs
    | (some b, s') =>
      have := hμ s b s' hs
      exact .next hs (ih s' (by omega))

/-- A loop whose first step yields nothing is over. -/
theorem Drains.of_none {s t t' : σ} {bs : List β} (h : Drains step s bs t) (hs : step s = (none, t')) :
    bs = [] ∧ t = t' := by
  cases h with
  | stop h' =>
    rw [hs] at h'
    cases h'
    exact ⟨rfl, rfl⟩
  | next h' _ =>
    rw [hs] at h'
    cases h'

theorem Drains.of_some {s s' t : σ} {b : β} {bs : List β} (h : Drains step s bs t) (hs : step s = (some b, s')) :
    ∃ bs', bs = b :: bs' ∧ Drains step s' bs' t := by
  cases h with
  | stop h' =>
    rw [hs] at h'
    cases h'
  | next h' hd =>
    rw [hs] at h'
    cases h'
    exact ⟨_, rfl, hd⟩

/-- A measure that falls at every step bounds the number of rounds. -/
theorem Drains.length_le {μ : σ → Nat} (hμ : ∀ s b s', step s = (some b, s') → μ s' < μ s) {s t : σ}
    {bs : List β} (h : Drains step s bs t) : bs.length ≤ μ s := by
  induction h with
  | stop _ => simp
  | next hs _ ih =>
    have := hμ _ _ _ hs
    rw [List.length_cons]
    omega

/-- What every step preserves, the loop preserves. -/
theorem Drains.invariant {I : σ → Prop} (hI : ∀ s, I s → I (step s).2) {s t : σ} {bs : List β}
    (h : Drains step s bs t) (hs : I s) : I t := by
  induction h with
  | stop h' =>
    have := hI _ hs
    rwa [h'] at this
  | next h' _ ih =>
    have := hI _ hs
    rw [h'] at this
    exact ih this

/-- A loop whose rounds keep `I` and hand out only `P`. -/
theorem Drains.emits {I : σ → Prop} {P : β → Prop} (hI : ∀ s, I s → I (step s).2)
    (hP : ∀ s b s', I s → step s = (some b, s') → P b) {s t : σ} {bs : List β} (h : Drains step s bs t) (hs : I s) :
    ∀ b ∈ bs, P b := by
  induction h with
  | stop _ => simp
  | next h' _ ih =>
    have hnext := hI _ hs
    rw [h'] at hnext
    simp only [List.mem_cons, forall_eq_or_imp]
    exact ⟨hP _ _ _ hs h', ih hnext⟩

end Drain

section SetRange

variable {α : Type} {n : Nat}

/-- `for i in start..stop { w[i] = f(i, w) }`. -/
def set_range (start stop : Nat) (hs : stop ≤ n) (f : (i : Nat) → start ≤ i → i < stop → Vector α n → α)
    (w : Vector α n) : Vector α n :=
  Nat.fold (stop - start)
    (fun k hk w => w.set (start + k) (f (start + k) (by omega) (by omega) w) (by omega)) w

/-- Each entry is written once, from the old array, if round `i` only looks at
entries that are not written yet. -/
theorem getElem_set_range {start stop : Nat} {hs : stop ≤ n}
    {f : (i : Nat) → start ≤ i → i < stop → Vector α n → α} {w : Vector α n}
    (hf : ∀ i h h' (v v' : Vector α n), (∀ j (_ : j < n), i ≤ j → v[j] = v'[j]) → f i h h' v = f i h h' v')
    {j : Nat} (hj : j < n) :
    (set_range start stop hs f w)[j] = if h : start ≤ j ∧ j < stop then f j h.1 h.2 w else w[j] := by
  -- after k rounds the first k entries are written and the others are old
  have key : ∀ (k : Nat) (hk : k ≤ stop - start) (j : Nat) (hj : j < n),
      (Nat.fold k (fun i hi w => w.set (start + i)
        (f (start + i) (by omega) (by omega) w) (by omega)) w)[j] =
        if h : start ≤ j ∧ j < start + k then f j h.1 (by omega) w else w[j] := by
    intro k
    induction k with
    | zero =>
      intro _ j hj
      rw [dif_neg (by omega)]
      rfl
    | succ k ih =>
      intro hk j hj
      rw [Nat.fold_succ, Vector.getElem_set]
      split
      · rename_i he
        subst he
        rw [dif_pos (by omega)]
        apply hf _ _ _ _ _
        intro j hj hle
        rw [ih (by omega) j hj, dif_neg (by omega)]
      · rename_i hne
        rw [ih (by omega) j hj]
        by_cases h : start ≤ j ∧ j < start + k
        · rw [dif_pos h, dif_pos (by omega)]
        · rw [dif_neg h, dif_neg (by omega)]
  unfold set_range
  rw [key _ le_rfl j hj]
  by_cases h : start ≤ j ∧ j < stop
  · rw [dif_pos h, dif_pos (by omega)]
  · rw [dif_neg h, dif_neg (by omega)]

end SetRange

end Lib
