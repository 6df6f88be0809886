import Bitfold.Lib.Runs
import Bitfold.Lib.Tables
/-!
# Keys apart

A loop that visits the keys of a table, in whatever order: if a visit changes
what there is for its own key and for no other, a loop over distinct keys
changes each of them once. A loop that handles items for many keys: if the
handler keeps the keys apart, each key gets what it would get if its items were
the only ones. And a loop, or a run, that follows another one, of which it may
leave out some rounds. Last, what different places of a list hold.
-/

namespace Lib

section Visits

variable {σ κ β : Type}

/-- In the states with `I`, a visit of a key does `g` to what there is for it,
and nothing to what there is for the others. -/
structure Visits (I : σ → Prop) (view : σ → κ → β) (visit : σ → κ → σ) (g : κ → β → β) : Prop where
  keeps : ∀ s k, I s → I (visit s k)
  here : ∀ s k, I s → view (visit s k) k = g k (view s k)
  there : ∀ s k k', I s → k' ≠ k → view (visit s k) k' = view s k'

namespace Visits

variable {I : σ → Prop} {view : σ → κ → β} {visit : σ → κ → σ} {g : κ → β → β} {s : σ} {order : List κ}

theorem keeps_foldl (h : Visits I view visit g) (hs : I s) : I (order.foldl visit s) := by
  induction order generalizing s with
  | nil => exact hs
  | cons k order ih =>
    rw [List.foldl_cons]
    exact ih (h.keeps s k hs)

theorem foldl_of_notMem (h : Visits I view visit g) (hs : I s) {k : κ} (hk : k ∉ order) :
    view (order.foldl visit s) k = view s k := by
  induction order generalizing s with
  | nil => rfl
  | cons k' order ih =>
    rw [List.mem_cons, not_or] at hk
    rw [List.foldl_cons, ih (h.keeps s k' hs) hk.2]
    exact h.there s k' k hs hk.1

theorem foldl_of_mem (h : Visits I view visit g) (hs : I s) (hn : order.Nodup) {k : κ} (hk : k ∈ order) :
    view (order.foldl visit s) k = g k (view s k) := by
  induction order generalizing s with
  | nil => cases hk
  | cons k' order ih =>
    rw [List.nodup_cons] at hn
    rw [List.foldl_cons]
    by_cases he : k = k'
    · subst he
      rw [h.foldl_of_notMem (h.keeps s k hs) hn.1]
      exact h.here s k hs
    · have hmem : k ∈ order := (List.mem_cons.1 hk).resolve_left he
      rw [ih (h.keeps s k' hs) hn.2 hmem, h.there s k' k hs he]

/-- If there is nothing to do for the keys that are not visited, `g` is done to
every key. -/
theorem foldl (h : Visits I view visit g) (hs : I s) (hn : order.Nodup)
    (hidle : ∀ k, k ∉ order → g k (view s k) = view s k) (k : κ) :
    view (order.foldl visit s) k = g k (view s k) := by
  by_cases hk : k ∈ order
  · exact h.foldl_of_mem hs hn hk
  · rw [h.foldl_of_notMem hs hk, hidle k hk]

end Visits

end Visits

/-! ## Items for many keys -/

section Items

variable {ι κ α β γ : Type}

/-- Every item is handled, with what the handler kept from the ones before. -/
def handle (f : ι → κ → α → List β × ι) : ι → List (κ × α) → List (κ × β) × ι
  | i, [] => ([], i)
  | i, (k, x) :: l => ((f i k x).1.map (fun y => (k, y)) ++ (handle f (f i k x).2 l).1, (handle f (f i k x).2 l).2)

/-- The same for the items of one key. -/
def handle_key (f : ι → κ → α → List β × ι) (k : κ) : ι → List α → List β × ι
  | i, [] => ([], i)
  | i, x :: xs => ((f i k x).1 ++ (handle_key f k (f i k x).2 xs).1, (handle_key f k (f i k x).2 xs).2)

/-- A loop that appends what it hands out is `handle`. -/
theorem foldl_eq_handle {f : ι → κ → α → List β × ι} {step : List (κ × β) × ι → κ × α → List (κ × β) × ι}
    (h : ∀ acc i k x, step (acc, i) (k, x) = (acc ++ (f i k x).1.map (fun y => (k, y)), (f i k x).2))
    (acc : List (κ × β)) (i : ι) (l : List (κ × α)) :
    l.foldl step (acc, i) = (acc ++ (handle f i l).1, (handle f i l).2) := by
  induction l generalizing acc i with
  | nil => rw [List.foldl_nil, handle, List.append_nil]
  | cons x l ih =>
    obtain ⟨k, x⟩ := x
    rw [List.foldl_cons, h, ih, handle, List.append_assoc]

/-- What the handler keeps for a key decides what it does with the items of the
key, and changes with them alone. -/
structure Apart (own : ι → κ → γ) (f : ι → κ → α → List β × ι) : Prop where
  here : ∀ i i' k x, own i k = own i' k → (f i k x).1 = (f i' k x).1 ∧ own (f i k x).2 k = own (f i' k x).2 k
  there : ∀ i k x k', k' ≠ k → own (f i k x).2 k' = own i k'

namespace Apart

variable {own : ι → κ → γ} {f : ι → κ → α → List β × ι}

theorem handle_key_congr (h : Apart own f) {i i' : ι} {k : κ} (hi : own i k = own i' k) (xs : List α) :
    (handle_key f k i xs).1 = (handle_key f k i' xs).1 ∧
      own (handle_key f k i xs).2 k = own (handle_key f k i' xs).2 k := by
  induction xs generalizing i i' with
  | nil => exact ⟨rfl, hi⟩
  | cons x xs ih =>
    obtain ⟨hout, hown⟩ := h.here i i' k x hi
    obtain ⟨hrest, hlast⟩ := ih hown
    refine ⟨?_, hlast⟩
    rw [handle_key, handle_key, hout, hrest]

end Apart

variable [DecidableEq κ]

/-- The items of a key. -/
def items_of (k : κ) (l : List (κ × α)) : List α := (l.filter fun x => x.1 = k).map Prod.snd

@[simp] theorem items_of_nil (k : κ) : items_of k ([] : List (κ × α)) = [] := rfl

@[simp] theorem items_of_append (k : κ) (l l' : List (κ × α)) : items_of k (l ++ l') = items_of k l ++ items_of k l' := by
  simp [items_of]

@[simp] theorem items_of_self (k : κ) (xs : List α) : items_of k (xs.map fun x => (k, x)) = xs := by
  induction xs with
  | nil => rfl
  | cons x xs ih => simpa [items_of] using ih

theorem items_of_other {k k' : κ} (h : k' ≠ k) (xs : List α) : items_of k' (xs.map fun x => (k, x)) = [] := by
  simp [items_of, Ne.symm h]

/-- A key gets what it would get if its items were the only ones. -/
theorem Apart.handle_items {own : ι → κ → γ} {f : ι → κ → α → List β × ι} (h : Apart own f) (k : κ) (i : ι)
    (l : List (κ × α)) :
    items_of k (handle f i l).1 = (handle_key f k i (items_of k l)).1 ∧
      own (handle f i l).2 k = own (handle_key f k i (items_of k l)).2 k := by
  induction l generalizing i with
  | nil => exact ⟨rfl, rfl⟩
  | cons x l ih =>
    obtain ⟨k', x⟩ := x
    obtain ⟨hrest, hlast⟩ := ih (f i k' x).2
    rw [handle, items_of_append]
    by_cases hk : k' = k
    · subst hk
      have hitems : items_of k' ((k', x) :: l) = x :: items_of k' l := by
        simp [items_of]
      rw [hitems, handle_key, items_of_self, hrest]
      exact ⟨rfl, hlast⟩
    · have hitems : items_of k ((k', x) :: l) = items_of k l := by
        simp [items_of, hk]
      -- the item of another key leaves what is kept for this one
      obtain ⟨hsame, hown⟩ := h.handle_key_congr (h.there i k' x k (Ne.symm hk)) (items_of k l)
      rw [hitems, items_of_other (Ne.symm hk), List.nil_append]
      exact ⟨hrest.trans hsame, hlast.trans hown⟩

end Items

/-! ## Tables with some of the entries of another -/

section Entries

variable {α β : Type} {P Q : α → β → Bool} {t u : AList fun _ : α => β}

/-- The entries with `P` are those with `Q` and those without. -/
theorem count_split (Q P : α → β → Bool) (t : AList fun _ : α => β) :
    count (fun a b => Q a b && P a b) t + count (fun a b => !Q a b && P a b) t = count P t := by
  unfold count
  rw [List.countP_eq_countP_filter_add t.entries (fun e => P e.1 e.2) fun e => Q e.1 e.2]
  simp only [List.countP_filter, Bool.and_comm]

variable [DecidableEq α]

/-- The entries with `P` of one table are entries with `Q` of another. -/
theorem count_le_of_lookup (h : ∀ a b, t.lookup a = some b → P a b = true → u.lookup a = some b ∧ Q a b = true) :
    count P t ≤ count Q u := by
  unfold count
  rw [List.countP_eq_length_filter, List.countP_eq_length_filter]
  have hnodup : t.entries.Nodup := t.nodupKeys.nodup
  refine ((hnodup.filter _).subperm ?_).length_le
  rintro ⟨a, b⟩ hm
  obtain ⟨hm, hP⟩ := List.mem_filter.1 hm
  obtain ⟨hlookup, hQ⟩ := h a b (AList.mem_lookup_iff.2 hm) hP
  exact List.mem_filter.2 ⟨AList.mem_lookup_iff.1 hlookup, hQ⟩

/-- It is enough that the tables agree where `P` may hold. -/
theorem count_congr_on (h : ∀ a b, P a b = true → t.lookup a = u.lookup a) : count P t = count P u := by
  apply Nat.le_antisymm
  · exact count_le_of_lookup fun a b hb hP => ⟨h a b hP ▸ hb, hP⟩
  · exact count_le_of_lookup fun a b hb hP => ⟨(h a b hP).symm ▸ hb, hP⟩

end Entries

/-! ## Following -/

section Follow

variable {σ τ α β γ ε : Type}

/-- A loop over some of the items follows the loop over all of them, if the
other rounds do not matter to it. -/
theorem foldlM_filter_follows {f : σ → α → Except ε σ} {f' : τ → α → Except ε τ} {p : α → Bool} {R : σ → τ → Prop}
    {l : List α} {s t : σ} {s' : τ}
    (hkeep : ∀ x ∈ loop_rounds f s l, ∀ u r, p x.2 = true → R x.1 r → f x.1 x.2 = .ok u →
      ∃ u', f' r x.2 = .ok u' ∧ R u u')
    (hleave : ∀ x ∈ loop_rounds f s l, ∀ u r, p x.2 = false → R x.1 r → f x.1 x.2 = .ok u → R u r)
    (h : l.foldlM f s = .ok t) (hs : R s s') : ∃ t', (l.filter p).foldlM f' s' = .ok t' ∧ R t t' := by
  induction l generalizing s s' with
  | nil =>
    cases h
    exact ⟨s', rfl, hs⟩
  | cons a l ih =>
    cases hf : f s a with
    | error e => simp [List.foldlM_cons, hf, bind, Except.bind] at h
    | ok u =>
      simp only [List.foldlM_cons, hf, bind, Except.bind] at h
      rw [loop_rounds, hf, List.forall_mem_cons] at hkeep hleave
      cases hk : p a with
      | true =>
        obtain ⟨u', hu', hr⟩ := hkeep.1 u s' hk hs hf
        obtain ⟨t', ht', hrest⟩ := ih hkeep.2 hleave.2 h hr
        refine ⟨t', ?_, hrest⟩
        rw [List.filter_cons_of_pos hk, List.foldlM_cons, hu']
        exact ht'
      | false =>
        rw [List.filter_cons_of_neg (by simp [hk])]
        exact ih hkeep.2 hleave.2 h (hleave.1 u s' hk hs hf)

/-- If some rounds of a loop set what is looked at, and the others leave it, then
at the end it is set iff there was such a round. -/
theorem foldlM_sets {f : σ → α → Except ε σ} {T : σ × α → Prop} {v : σ → β} {b : β} {l : List α} {s t : σ}
    (hsets : ∀ x ∈ loop_rounds f s l, ∀ u, f x.1 x.2 = .ok u → T x → v u = b)
    (hleaves : ∀ x ∈ loop_rounds f s l, ∀ u, f x.1 x.2 = .ok u → ¬ T x → v u = v x.1)
    (h : l.foldlM f s = .ok t) :
    ((∃ x ∈ loop_rounds f s l, T x) → v t = b) ∧ ((∀ x ∈ loop_rounds f s l, ¬ T x) → v t = v s) := by
  induction l generalizing s with
  | nil =>
    cases h
    refine ⟨?_, fun _ => rfl⟩
    rintro ⟨x, hx, -⟩
    cases hx
  | cons a l ih =>
    cases hf : f s a with
    | error e => simp [List.foldlM_cons, hf, bind, Except.bind] at h
    | ok u =>
      simp only [List.foldlM_cons, hf, bind, Except.bind] at h
      rw [loop_rounds, hf, List.forall_mem_cons] at hsets hleaves
      obtain ⟨hset, hleft⟩ := ih hsets.2 hleaves.2 h
      rw [loop_rounds, hf]
      constructor
      · rintro ⟨x, hx, hT⟩
        by_cases hlater : ∃ x ∈ loop_rounds f u l, T x
        · exact hset hlater
        · -- the first round is the last that sets it
          push Not at hlater
          rw [hleft hlater]
          rcases List.mem_cons.1 hx with rfl | hx
          · exact hsets.1 u hf hT
          · exact absurd hT (hlater x hx)
      · intro hno
        rw [List.forall_mem_cons] at hno
        rw [hleft hno.2]
        exact hleaves.1 u hf hno.1

theorem forall₂_snoc_left {C : α → β → Prop} {l : List α} {a : α} {bs : List β} (h : List.Forall₂ C (l ++ [a]) bs) :
    ∃ bs' b, bs = bs' ++ [b] ∧ List.Forall₂ C l bs' ∧ C a b := by
  induction l generalizing bs with
  | nil =>
    obtain ⟨b, bs', hb, hnil, rfl⟩ := List.forall₂_cons_left_iff.1 h
    cases hnil
    exact ⟨[], b, rfl, .nil, hb⟩
  | cons x l ih =>
    obtain ⟨y, bs', hy, hrest, rfl⟩ := List.forall₂_cons_left_iff.1 h
    obtain ⟨bs'', b, rfl, hl, hb⟩ := ih hrest
    exact ⟨y :: bs'', b, rfl, .cons hy hl, hb⟩

/-- A run whose steps can be followed, one by one and each as it was chosen, is
followed by a run. -/
theorem Run.follows {step : σ → α → σ → Prop} {step' : τ → β → τ → Prop} {R : σ → τ → Prop} {C : σ × α → γ → Prop}
    {O : σ × α → τ × β → Prop} {choice : β → γ} {s t : σ} {s' : τ} {steps : List (σ × α)} {choices : List γ}
    (h : Run step s steps t)
    (hstep : ∀ x ∈ steps, ∀ u r c, R x.1 r → step x.1 x.2 u → C x c →
      ∃ b u', step' r b u' ∧ choice b = c ∧ O x (r, b) ∧ R u u')
    (hs : R s s') (hc : List.Forall₂ C steps choices) :
    ∃ steps' t', Run step' s' steps' t' ∧ steps'.map (fun x => choice x.2) = choices ∧ List.Forall₂ O steps steps' ∧
      R t t' := by
  induction h generalizing choices with
  | start =>
    cases List.forall₂_nil_left_iff.1 hc
    exact ⟨[], s', .start, rfl, .nil, hs⟩
  | @next steps t a u hr hu ih =>
    obtain ⟨choices', c, rfl, hsteps, hlast⟩ := forall₂_snoc_left hc
    rw [List.forall_mem_append, List.forall_mem_singleton] at hstep
    obtain ⟨steps', t', hrun, hmap, hout, hrel⟩ := ih hstep.1 hsteps
    obtain ⟨b, u', hu', hb, ho, hru⟩ := hstep.2 u t' c hrel hu hlast
    refine ⟨steps' ++ [(t', b)], u', .next hrun hu', ?_, List.rel_append hout (.cons ho .nil), hru⟩
    rw [List.map_append, hmap, List.map_singleton, hb]

end Follow

/-- What is picked from different places is there at least as often. -/
theorem picked_subperm {α : Type} {l xs : List α} {places : List Nat} (hn : places.Nodup)
    (h : places.map (l[·]?) = xs.map some) : xs.Subperm l := by
  have hxs : xs = places.filterMap (l[·]?) := by
    have hpicked := congrArg (List.filterMap id) h
    rw [List.filterMap_map, List.filterMap_map, Function.id_comp, Function.id_comp, List.filterMap_some] at hpicked
    exact hpicked.symm
  have hall : ∀ l : List α, (List.range l.length).filterMap (l[·]?) = l := by
    intro l
    have hget : (List.range l.length).map (l[·]?) = l.map some := by
      apply List.ext_getElem (by simp)
      intro i hi _
      rw [List.length_map, List.length_range] at hi
      simp [List.getElem?_eq_getElem hi]
    have hl := congrArg (List.filterMap id) hget
    rwa [List.filterMap_map, List.filterMap_map, Function.id_comp, Function.id_comp, List.filterMap_some] at hl
  have hin : places ⊆ List.range l.length := by
    intro i hi
    have hsome : l[i]? ∈ xs.map some := h ▸ List.mem_map_of_mem hi
    obtain ⟨x, -, hx⟩ := List.mem_map.1 hsome
    exact List.mem_range.2 (List.getElem?_eq_some_iff.1 hx.symm).1
  obtain ⟨picked, hperm, hsub⟩ := hn.subperm hin
  refine ⟨picked.filterMap (l[·]?), ?_, ?_⟩
  · rw [hxs]
    exact hperm.filterMap _
  · have hfilter := hsub.filterMap (l[·]?)
    rwa [hall l] at hfilter

end Lib
