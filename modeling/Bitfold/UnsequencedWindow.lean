import Bitfold.Lib.Runs
import Bitfold.UnsequencedTheorems
/-!
# The unsequenced window is the set of marked groups

A group that is marked gets a number without wrap-around: the window base,
counted the same way, plus its offset. The 32 words of the window then say
which of the 1024 numbers from the base on have been marked, whatever slides
there were.
-/

namespace Bitfold

open Lib

namespace UnsequencedState

/-- A state with its base counted without wrap-around and the numbers of the
groups marked so far. -/
structure Tracked where
  state : UnsequencedState
  base : Nat
  marked : List Nat

namespace Tracked

/-- Marks a group. One that is more than 32768 past the base is behind it and
gets no number. -/
def mark_received (x : Tracked) (group : UInt16) : Tracked where
  state := x.state.mark_received group
  base := x.base + ((x.state.mark_received group).incoming_group - x.state.incoming_group).toNat
  marked := if x.state.offset group ≤ 32768 then (x.base + x.state.offset group) :: x.marked else x.marked

/-- A fresh state after the groups have been marked. -/
def run (groups : List UInt16) : Tracked := groups.foldl mark_received ⟨new, 0, []⟩

/-- The base agrees with its number, and the bits with the numbers marked. -/
structure Exact (x : Tracked) : Prop where
  counts : x.state.Counts x.base
  bits : ∀ j, bit x.state.unsequenced_window j = true ↔ x.base + j ∈ x.marked

variable {x : Tracked}

theorem base_mark_received (x : Tracked) (group : UInt16) :
    (x.mark_received group).base = x.base + advance (x.state.offset group) := by
  unfold mark_received
  dsimp only
  rw [mark_received_base]

/-- Marking a group sets the bit of its number, and a slide moves the bits
exactly as far as the base. -/
theorem Exact.mark_received (h : Exact x) (group : UInt16) : Exact (x.mark_received group) := by
  have hbase := base_mark_received x group
  refine ⟨h.counts.moved _, ?_⟩
  intro j
  have hbit := (mark_received_spec x.state group).2 j
  have hold := h.bits (j + advance (x.state.offset group))
  have hnumber : (x.mark_received group).base + j = x.base + (j + advance (x.state.offset group)) := by
    rw [hbase]
    ring
  rw [hnumber]
  change bit (x.state.mark_received group).unsequenced_window j = true ↔ _ ∈ ite _ _ _
  rw [hbit, Bool.or_eq_true, hold, decide_eq_true_iff]
  by_cases ho : x.state.offset group ≤ 32768
  · rw [if_pos ho, List.mem_cons, Nat.add_left_cancel_iff, and_iff_right ho, or_comm]
  · rw [if_neg ho]
    simp [ho]

theorem exact_run (groups : List UInt16) : Exact (run groups) := by
  refine foldl_invariant (fun x group h => h.mark_received group) ⟨rfl, ?_⟩
  intro j
  simp [new, bit_replicate]

/-- In every state of every run a bit is set iff the group of its number has
been marked. So a window with a bit set takes a group in the window for a
duplicate iff it was marked, every group behind the base for one, and no group
ahead of the window. -/
theorem window_is_marked (groups : List UInt16) :
    (run groups).state.Counts (run groups).base ∧
    (∀ o < 1024, bit (run groups).state.unsequenced_window o = true ↔ (run groups).base + o ∈ (run groups).marked) ∧
    (¬ (run groups).state.Empty → ∀ group : UInt16,
      ((run groups).state.offset group < 1024 →
        ((run groups).state.is_duplicate group = true ↔
          (run groups).base + (run groups).state.offset group ∈ (run groups).marked)) ∧
      (32768 < (run groups).state.offset group → (run groups).state.is_duplicate group = true) ∧
      (1024 ≤ (run groups).state.offset group → (run groups).state.offset group ≤ 32768 →
        (run groups).state.is_duplicate group = false)) := by
  have h := exact_run groups
  refine ⟨h.counts, fun o _ => h.bits o, ?_⟩
  intro hne group
  have hdup := is_duplicate_iff (run groups).state group
  rw [and_iff_right hne] at hdup
  refine ⟨?_, ?_, ?_⟩
  · intro hin
    rw [hdup, ← h.bits, and_iff_right hin]
    apply or_iff_left
    omega
  · intro hbehind
    exact hdup.2 (.inr hbehind)
  · intro hpast hahead
    rw [← Bool.not_eq_true, hdup]
    omega

end Tracked

end UnsequencedState

end Bitfold
