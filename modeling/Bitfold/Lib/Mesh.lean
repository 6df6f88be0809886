import Bitfold.Lib.Runs
/-!
# Meshes

Any number of nodes that send each other messages. Some are honest and take
only the steps of their kind; the others do not appear but for what they send,
which is anything. As in a network of two, messages may be lost, repeated and
reordered. `Mesh.guarantees` is the rule for what honest nodes promise each
other.
-/

namespace Lib

/-- A kind of node: the messages that an operation reads, each with the node it
comes from, and the steps, with what they send to whom. -/
structure Node (ι σ ω μ : Type) where
  reads : ω → List (ι × μ)
  step : σ → ω → List (ι × μ) → σ → Prop

/-- The nodes, and all that each has sent so far. -/
structure Mesh (ι σ μ : Type) where
  state : ι → σ
  sent : ι → List (ι × μ)

namespace Mesh

variable {ι σ ω μ : Type} [DecidableEq ι] {node : Node ι σ ω μ} {honest : ι → Prop}

/-- All nodes at the start, with nothing sent. -/
def start (state : ι → σ) : Mesh ι σ μ := ⟨state, fun _ => []⟩

/-- An honest node takes a step. What it reads from an honest node has been
sent to it. -/
def Step (node : Node ι σ ω μ) (honest : ι → Prop) (m : Mesh ι σ μ) (x : ι × ω) (m' : Mesh ι σ μ) : Prop :=
  honest x.1 ∧ ∃ out t, node.step (m.state x.1) x.2 out t ∧
    (∀ y ∈ node.reads x.2, honest y.1 → (x.1, y.2) ∈ m.sent y.1) ∧
    m' = ⟨Function.update m.state x.1 t, Function.update m.sent x.1 (m.sent x.1 ++ out)⟩

/-- Honest nodes keep their word to each other as long as all of them do,
whatever the others send. -/
theorem guarantees (Good : ι → σ → Prop) (MaySend : ι → ι → μ → Prop) {state : ι → σ} {m : Mesh ι σ μ}
    {steps : List (Mesh ι σ μ × (ι × ω))} (hstart : ∀ i, honest i → Good i (state i))
    (hk : ∀ m i op out t, (m, (i, op)) ∈ steps → honest i → Good i (m.state i) →
      (∀ y ∈ node.reads op, honest y.1 → MaySend y.1 i y.2) → node.step (m.state i) op out t →
      Good i t ∧ ∀ y ∈ out, MaySend i y.1 y.2)
    (hr : Run (Step node honest) (start state) steps m) (i : ι) (hi : honest i) :
    Good i (m.state i) ∧ ∀ y ∈ m.sent i, MaySend i y.1 y.2 := by
  refine hr.invariant_on (I := fun m => ∀ i, honest i → Good i (m.state i) ∧ ∀ y ∈ m.sent i, MaySend i y.1 y.2)
    (fun i hi => ⟨hstart i hi, fun y hy => by cases hy⟩) ?_ i hi
  rintro m ⟨i, op⟩ _ hm hall ⟨hi, out, t, hstep, hreads, rfl⟩
  obtain ⟨hgood, hsaid⟩ := hall i hi
  obtain ⟨ht, hout⟩ := hk m i op out t hm hi hgood (fun y hy hh => (hall y.1 hh).2 _ (hreads y hy hh)) hstep
  intro j hj
  by_cases he : j = i
  · subst he
    simp only [Function.update_self]
    refine ⟨ht, fun y hy => ?_⟩
    rcases List.mem_append.1 hy with hy | hy
    · exact hsaid y hy
    · exact hout y hy
  · simp only [Function.update_of_ne he]
    exact hall j hj

end Mesh

end Lib
