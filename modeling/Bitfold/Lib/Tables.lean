import Mathlib
/-!
# Counting in tables

How many entries of a table have a property, and how inserting and erasing
change that number: by what the old entry under the key counted and by what the
new one does.
-/

namespace Lib

variable {α β : Type} {P : α → β → Bool}

/-- The number of entries with `P`. -/
def count (P : α → β → Bool) (t : AList fun _ : α => β) : Nat := t.entries.countP fun e => P e.1 e.2

/-- A property of less entries counts less. -/
theorem count_le_count {Q : α → β → Bool} (h : ∀ a b, P a b = true → Q a b = true) (t : AList fun _ : α => β) :
    count P t ≤ count Q t :=
  List.countP_mono_left fun e _ he => h e.1 e.2 he

variable [DecidableEq α]

/-- What the entry under a key counts. -/
def weight (P : α → β → Bool) (t : AList fun _ : α => β) (a : α) : Nat :=
  (t.lookup a).elim 0 fun b => (P a b).toNat

variable {t : AList fun _ : α => β} {a : α} {b : β}

theorem weight_of_none (h : t.lookup a = none) : weight P t a = 0 := by
  rw [weight, h]
  rfl

theorem weight_of_some (h : t.lookup a = some b) : weight P t a = (P a b).toNat := by
  rw [weight, h]
  rfl

/-- The entries other than the one under a key. -/
theorem countP_kerase (P : α → β → Bool) (t : AList fun _ : α => β) (a : α) :
    (t.entries.kerase a).countP (fun e => P e.1 e.2) + weight P t a = count P t := by
  by_cases ha : a ∈ t
  · obtain ⟨b, l₁, l₂, -, hentries, hkerase⟩ := List.exists_of_kerase (AList.mem_keys.1 ha)
    have hlookup : t.lookup a = some b := by
      apply AList.mem_lookup_iff.2
      rw [hentries]
      simp
    rw [weight_of_some hlookup, count, hkerase, hentries, List.countP_append, List.countP_append, List.countP_cons]
    cases P a b <;> simp
    omega
  · rw [weight_of_none (AList.lookup_eq_none.2 ha), List.kerase_of_notMem_keys (mt AList.mem_keys.2 ha)]
    rfl

theorem count_insert (P : α → β → Bool) (t : AList fun _ : α => β) (a : α) (b : β) :
    count P (t.insert a b) + weight P t a = count P t + (P a b).toNat := by
  rw [← countP_kerase P t a, count, AList.entries_insert, List.countP_cons]
  cases P a b <;> simp
  omega

theorem count_erase (P : α → β → Bool) (t : AList fun _ : α => β) (a : α) :
    count P (t.erase a) + weight P t a = count P t :=
  countP_kerase P t a

theorem weight_le_count (P : α → β → Bool) (t : AList fun _ : α => β) (a : α) : weight P t a ≤ count P t := by
  have h := countP_kerase P t a
  omega

end Lib
