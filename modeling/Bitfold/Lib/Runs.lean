import Mathlib
/-!
# Runs

A run of a step relation with what was done on the way: every action and the
state it was taken in. Invariants may speak of that record. A `for` loop whose
body may fail is a run, too. What the steps of a run add up to is counted from
the last one that resets it.
-/

namespace Lib

variable {σ α : Type}

/-- A run from `s`: the steps, each with the state before it, and the state
reached. -/
inductive Run (step : σ → α → σ → Prop) (s : σ) : List (σ × α) → σ → Prop where
  | start : Run step s [] s
  | next {steps t a u} : Run step s steps t → step t a u → Run step s (steps ++ [(t, a)]) u

/-- The states of a run, the last one included. -/
def states (steps : List (σ × α)) (t : σ) : List σ := steps.map Prod.fst ++ [t]

theorem states_append (steps : List (σ × α)) (t u : σ) (a : α) :
    states (steps ++ [(t, a)]) u = states steps t ++ [u] := by
  simp [states]

namespace Run

variable {step : σ → α → σ → Prop} {s t : σ} {steps : List (σ × α)}

/-- A step, and then a run. -/
theorem cons {a : α} {u : σ} (h : Run step u steps t) (hs : step s a u) : Run step s ((s, a) :: steps) t := by
  induction h with
  | start => exact Run.next .start hs
  | next _ hs' ih => exact .next ih hs'

/-- A run, and then another one. -/
theorem append {steps' : List (σ × α)} {u : σ} (h : Run step s steps t) (h' : Run step t steps' u) :
    Run step s (steps ++ steps') u := by
  induction h' with
  | start =>
    rw [List.append_nil]
    exact h
  | next _ hs ih =>
    rw [← List.append_assoc]
    exact ih.next hs

/-- The first steps of a run are a run. -/
theorem take_prefix (h : Run step s steps t) {before after : List (σ × α)} (hs : steps = before ++ after) :
    ∃ u, Run step s before u := by
  induction h generalizing after with
  | start =>
    rw [List.nil_eq, List.append_eq_nil_iff] at hs
    rw [hs.1]
    exact ⟨s, .start⟩
  | @next steps t a u hr hstep ih =>
    rcases List.eq_nil_or_concat after with rfl | ⟨after', b, rfl⟩
    · rw [List.append_nil] at hs
      rw [← hs]
      exact ⟨u, .next hr hstep⟩
    · rw [List.concat_eq_append, ← List.append_assoc] at hs
      exact ih (List.append_inj_left' hs rfl)

/-- What holds at first and is kept by every step holds in every state. -/
theorem invariant {I : σ → Prop} (h0 : I s) (hI : ∀ t a u, I t → step t a u → I u) (h : Run step s steps t) :
    I t := by
  induction h with
  | start => exact h0
  | next _ hs ih => exact hI _ _ _ ih hs

/-- It is enough that the steps of this run keep it. -/
theorem invariant_on {I : σ → Prop} (h0 : I s) (h : Run step s steps t)
    (hI : ∀ t a u, (t, a) ∈ steps → I t → step t a u → I u) : I t := by
  induction h with
  | start => exact h0
  | next _ hs ih =>
    apply hI _ _ _ (List.mem_append_right _ (List.mem_singleton_self _)) _ hs
    exact ih fun t a u hm => hI t a u (List.mem_append_left _ hm)

/-- So it holds in the states on the way. -/
theorem invariant_mem {I : σ → Prop} (h0 : I s) (hI : ∀ t a u, I t → step t a u → I u) (h : Run step s steps t)
    {u : σ} {a : α} (hm : (u, a) ∈ steps) : I u := by
  induction h with
  | start => cases hm
  | @next steps t b v hr hs ih =>
    rcases List.mem_append.1 hm with hm | hm
    · exact ih hm
    · cases List.mem_singleton.1 hm
      exact hr.invariant h0 hI

theorem step_of_mem (h : Run step s steps t) {u : σ} {a : α} (hm : (u, a) ∈ steps) : ∃ v, step u a v := by
  induction h with
  | start => cases hm
  | @next steps t b v _ hs ih =>
    rcases List.mem_append.1 hm with hm | hm
    · exact ih hm
    · cases List.mem_singleton.1 hm
      exact ⟨v, hs⟩

/-- An order that every step follows orders the states of a run. -/
theorem pairwise {R : σ → σ → Prop} (htrans : ∀ {t u v}, R t u → R u v → R t v)
    (hR : ∀ t a u, step t a u → R t u) (h : Run step s steps t) : (states steps t).Pairwise R := by
  induction h with
  | start => simp [states]
  | @next steps t a u _ hs ih =>
    rw [states_append, List.pairwise_append]
    refine ⟨ih, by simp, fun x hx y hy => ?_⟩
    rw [List.mem_singleton] at hy
    subst hy
    have htu := hR _ _ _ hs
    rcases List.mem_append.1 hx with hx | hx
    · have hxt : R x t := (List.pairwise_append.1 ih).2.2 x hx t (by simp)
      exact htrans hxt htu
    · rw [List.mem_singleton.1 hx]
      exact htu

/-- If a step keeps `P` exactly when `Q` holds of it, then `P` holds in every
state exactly when `Q` holds of every step. -/
theorem forall_states_iff {I P : σ → Prop} {Q : σ × α → Prop} (hI0 : I s) (hI : ∀ t a u, I t → step t a u → I u)
    (h0 : P s) (hP : ∀ t a u, I t → P t → step t a u → (P u ↔ Q (t, a))) (h : Run step s steps t) :
    (∀ u ∈ states steps t, P u) ↔ ∀ x ∈ steps, Q x := by
  induction h with
  | start => simpa [states] using h0
  | @next steps t a u hr hs ih =>
    have hlast : P t → (P u ↔ Q (t, a)) := fun ht => hP t a u (hr.invariant hI0 hI) ht hs
    have hmem : t ∈ states steps t := List.mem_append_right _ (List.mem_singleton_self t)
    rw [states_append, List.forall_mem_append, List.forall_mem_append, List.forall_mem_singleton,
      List.forall_mem_singleton]
    constructor
    · rintro ⟨hall, hu⟩
      exact ⟨ih.1 hall, (hlast (hall t hmem)).1 hu⟩
    · rintro ⟨hsteps, hq⟩
      exact ⟨ih.2 hsteps, (hlast (ih.2 hsteps t hmem)).2 hq⟩

theorem getElem?_snoc {β : Type} {l : List β} {b x : β} {i : Nat} :
    (l ++ [b])[i]? = some x ↔ l[i]? = some x ∨ (i = l.length ∧ x = b) := by
  grind

/-- A place that only certain steps leave, and that nothing comes back to, is
left at most once, and not by a run that ends in it. -/
theorem leaves_once {I P : σ → Prop} {L : σ × α → Prop} (hI0 : I s) (hI : ∀ t a u, I t → step t a u → I u)
    (h0 : P s) (hP : ∀ t a u, I t → step t a u → (P u ↔ P t ∧ ¬ L (t, a))) (hL : ∀ x, L x → P x.1)
    (h : Run step s steps t) : (P t ∧ ∀ x ∈ steps, ¬ L x) ∨ (¬ P t ∧ ∃! i : Nat, ∃ x, steps[i]? = some x ∧ L x) := by
  induction h with
  | start => exact .inl ⟨h0, by simp⟩
  | @next steps t a u hr hs ih =>
    have hstep := hP t a u (hr.invariant hI0 hI) hs
    rcases ih with ⟨ht, hstay⟩ | ⟨ht, i, ⟨x, hx, hLx⟩, huniq⟩
    · by_cases hl : L (t, a)
      · -- the last step leaves, and none before it did
        refine .inr ⟨fun hu => (hstep.1 hu).2 hl, steps.length, ⟨(t, a), by simp, hl⟩, ?_⟩
        rintro j ⟨y, hy, hly⟩
        rcases getElem?_snoc.1 hy with hy | ⟨hj, -⟩
        · exact absurd hly (hstay y (List.mem_of_getElem? hy))
        · exact hj
      · refine .inl ⟨hstep.2 ⟨ht, hl⟩, fun y hy => ?_⟩
        rcases List.mem_append.1 hy with hy | hy
        · exact hstay y hy
        · rw [List.mem_singleton.1 hy]
          exact hl
    · refine .inr ⟨fun hu => ht (hstep.1 hu).1, i, ⟨x, ?_, hLx⟩, ?_⟩
      · exact getElem?_snoc.2 (.inl hx)
      · rintro j ⟨y, hy, hly⟩
        rcases getElem?_snoc.1 hy with hy | ⟨-, rfl⟩
        · exact huniq j ⟨y, hy, hly⟩
        · exact absurd (hL _ hly) ht

end Run

/-- What every round of a loop keeps, the loop keeps. -/
theorem foldlM_invariant {ε : Type} {f : σ → α → Except ε σ} {I : σ → Prop}
    (hI : ∀ s a t, I s → f s a = .ok t → I t) {l : List α} {s t : σ} (h : l.foldlM f s = .ok t) (hs : I s) : I t := by
  induction l generalizing s with
  | nil =>
    cases h
    exact hs
  | cons a l ih =>
    cases hf : f s a with
    | error e => simp [List.foldlM_cons, hf, bind, Except.bind] at h
    | ok u =>
      simp only [List.foldlM_cons, hf, bind, Except.bind] at h
      exact ih h (hI s a u hs hf)

/-- The rounds of such a loop: each item with the state it meets. -/
def loop_rounds {ε : Type} (f : σ → α → Except ε σ) : σ → List α → List (σ × α)
  | _, [] => []
  | s, a :: l =>
    (s, a) ::
      match f s a with
      | .ok t => loop_rounds f t l
      | .error _ => []

/-- The rounds before some round are a run that leads up to it. -/
theorem run_of_loop_rounds {ε : Type} {f : σ → α → Except ε σ} {l : List α} {s t : σ} {a : α}
    {before after : List (σ × α)} (h : loop_rounds f s l = before ++ (t, a) :: after) :
    Run (fun t a u => f t a = .ok u) s before t := by
  induction before generalizing s l with
  | nil =>
    cases l with
    | nil => cases h
    | cons b l =>
      rw [loop_rounds] at h
      cases (List.cons.inj h).1
      exact .start
  | cons x before ih =>
    cases l with
    | nil => cases h
    | cons b l =>
      rw [loop_rounds] at h
      obtain ⟨rfl, hrest⟩ := List.cons.inj h
      cases hf : f s b with
      | error e =>
        rw [hf] at hrest
        exact absurd hrest (by simp)
      | ok u =>
        rw [hf] at hrest
        exact (ih hrest).cons hf

/-- A loop gets to its end if no round fails. -/
theorem foldlM_ok_iff {ε : Type} {f : σ → α → Except ε σ} {l : List α} {s : σ} :
    (∃ t, l.foldlM f s = .ok t) ↔ ∀ x ∈ loop_rounds f s l, ∃ t, f x.1 x.2 = .ok t := by
  induction l generalizing s with
  | nil => simp [loop_rounds, pure, Except.pure]
  | cons a l ih =>
    cases hf : f s a with
    | error e => simp [loop_rounds, hf, List.foldlM_cons, bind, Except.bind]
    | ok u => simpa [loop_rounds, hf, List.foldlM_cons, bind, Except.bind] using ih

/-- It is enough that the rounds of this loop keep it. -/
theorem foldlM_invariant_on {ε : Type} {f : σ → α → Except ε σ} {I : σ → Prop} {l : List α} {s t : σ}
    (hI : ∀ x ∈ loop_rounds f s l, ∀ u, I x.1 → f x.1 x.2 = .ok u → I u) (h : l.foldlM f s = .ok t) (hs : I s) :
    I t := by
  induction l generalizing s with
  | nil =>
    cases h
    exact hs
  | cons a l ih =>
    cases hf : f s a with
    | error e => simp [List.foldlM_cons, hf, bind, Except.bind] at h
    | ok u =>
      simp only [List.foldlM_cons, hf, bind, Except.bind] at h
      rw [loop_rounds, hf, List.forall_mem_cons] at hI
      exact ih hI.2 h (hI.1 u hs hf)

theorem mem_of_mem_loop_rounds {ε : Type} {f : σ → α → Except ε σ} {l : List α} {s : σ} {x : σ × α}
    (h : x ∈ loop_rounds f s l) : x.2 ∈ l := by
  induction l generalizing s with
  | nil => cases h
  | cons a l ih =>
    rw [loop_rounds] at h
    rcases List.mem_cons.1 h with rfl | h
    · exact List.mem_cons_self
    · cases hf : f s a with
      | error e =>
        rw [hf] at h
        cases h
      | ok u =>
        rw [hf] at h
        exact List.mem_cons_of_mem _ (ih h)

/-- What every round keeps holds in every round. -/
theorem loop_rounds_invariant {ε : Type} {f : σ → α → Except ε σ} {I : σ → Prop}
    (hI : ∀ s a t, I s → f s a = .ok t → I t) {l : List α} {s : σ} (hs : I s) :
    ∀ x ∈ loop_rounds f s l, I x.1 := by
  induction l generalizing s with
  | nil =>
    intro x hx
    cases hx
  | cons a l ih =>
    intro x hx
    rw [loop_rounds] at hx
    rcases List.mem_cons.1 hx with rfl | hx
    · exact hs
    · cases hf : f s a with
      | error e =>
        rw [hf] at hx
        cases hx
      | ok t =>
        rw [hf] at hx
        exact ih (hI s a t hs hf) x hx

/-- So do the states of a loop that cannot fail. -/
theorem scanl_invariant {f : σ → α → σ} {I : σ → Prop} (hI : ∀ s a, I s → I (f s a)) {l : List α} {s : σ} (hs : I s) :
    ∀ t ∈ l.scanl f s, I t := by
  induction l generalizing s with
  | nil =>
    intro t ht
    rw [List.scanl_nil, List.mem_singleton] at ht
    rw [ht]
    exact hs
  | cons a l ih =>
    intro t ht
    rw [List.scanl_cons] at ht
    rcases List.mem_cons.1 ht with rfl | ht
    · exact hs
    · exact ih (hI s a hs) t ht

theorem foldl_invariant {f : σ → α → σ} {I : σ → Prop} (hI : ∀ s a, I s → I (f s a)) {l : List α} {s : σ} (hs : I s) :
    I (l.foldl f s) := by
  induction l generalizing s with
  | nil => exact hs
  | cons a l ih => exact ih (hI s a hs)

/-! ## Elements and those before them -/

section AtEach

variable {P : List α → α → Prop} {l : List α}

/-- `P` holds of each element and those before it. -/
def AtEach (P : List α → α → Prop) (l : List α) : Prop := ∀ earlier a later, l = earlier ++ a :: later → P earlier a

theorem atEach_nil (P : List α → α → Prop) : AtEach P [] := by
  intro earlier a later h
  simp at h

theorem AtEach.left {l' : List α} (h : AtEach P (l ++ l')) : AtEach P l := by
  intro earlier a later hl
  apply h earlier a (later ++ l')
  rw [hl, List.append_assoc, List.cons_append]

theorem atEach_snoc {a : α} : AtEach P (l ++ [a]) ↔ AtEach P l ∧ P l a := by
  constructor
  · exact fun h => ⟨h.left, h l a [] rfl⟩
  · rintro ⟨hl, ha⟩ earlier b later he
    rcases List.eq_nil_or_concat later with rfl | ⟨later, c, rfl⟩
    · obtain ⟨rfl, hb⟩ := List.append_inj' he rfl
      cases hb
      exact ha
    · rw [List.concat_eq_append, ← List.cons_append, ← List.append_assoc] at he
      exact hl earlier b later (List.append_inj' he rfl).1

end AtEach

/-! ## Totals -/

section Since

variable (reset : α → Bool) (size : α → Nat)

/-- What the steps add up to since the last reset, which its own step follows. -/
def since (steps : List α) : Nat := steps.foldl (fun n x => (if reset x then 0 else n) + size x) 0

theorem since_snoc (steps : List α) (x : α) :
    since reset size (steps ++ [x]) = (if reset x then 0 else since reset size steps) + size x := by
  simp [since]

variable {reset size}

theorem foldl_of_no_reset {steps : List α} (h : ∀ x ∈ steps, reset x = false) (n : Nat) :
    steps.foldl (fun n x => (if reset x then 0 else n) + size x) n = n + (steps.map size).sum := by
  induction steps generalizing n with
  | nil => simp
  | cons x steps ih =>
    rw [List.foldl_cons, h x List.mem_cons_self, ih (fun y hy => h y (List.mem_cons_of_mem _ hy))]
    simp [Nat.add_assoc]

/-- Steps among which only the first resets are part of what is added up. -/
theorem sum_le_since (size : α → Nat) (steps : List α) {window : List α} (h : ∀ x ∈ window.tail, reset x = false) :
    (window.map size).sum ≤ since reset size (steps ++ window) := by
  cases window with
  | nil => simp
  | cons x window =>
    rw [List.tail_cons] at h
    rw [since, List.foldl_append, List.foldl_cons, foldl_of_no_reset h, List.map_cons, List.sum_cons]
    omega

end Since

end Lib
