import Bitfold.Lib.Runs
/-!
# Networks

Two parties that send each other messages. The network owes them nothing: a
message may be lost, come many times, and overtake others. So what a party
reads is any message that the other one has ever sent. `Keeps` is what a step
of one party has to do for an invariant of the two; every run then keeps it.
`Refinement` compares two kinds of party: where one step of the one is some
steps of the other, every network of the one does what a network of the other
can do.
-/

namespace Lib

/-- One of two parties. -/
inductive Side where
  | left
  | right
deriving DecidableEq, Repr

namespace Side

def other : Side → Side
  | left => right
  | right => left

@[simp] theorem other_other (s : Side) : s.other.other = s := by
  cases s <;> rfl

theorem other_ne (s : Side) : s.other ≠ s := by
  cases s <;> decide

theorem eq_or_eq_other (s t : Side) : t = s ∨ t = s.other := by
  cases s <;> cases t <;> decide

end Side

/-- The operations of a party: the message an operation reads, if any, and the
steps it may take, with what they send. -/
structure Party (σ ω μ : Type) where
  reads : ω → Option μ
  step : σ → ω → List μ → σ → Prop

/-- Two parties, and all that each has sent so far. -/
structure Network (σ μ : Type) where
  state : Side → σ
  sent : Side → List μ

namespace Network

variable {σ ω μ : Type} {party : Party σ ω μ} {Good : σ → σ → Prop} {MaySend : σ → σ → μ → Prop}

/-- Both parties at the start, with nothing sent. -/
def start (state : Side → σ) : Network σ μ := ⟨state, fun _ => []⟩

/-- One party takes a step. What it reads has been sent by the other one. -/
def Step (party : Party σ ω μ) (n : Network σ μ) (x : Side × ω) (n' : Network σ μ) : Prop :=
  ∃ out t, party.step (n.state x.1) x.2 out t ∧ (∀ m, party.reads x.2 = some m → m ∈ n.sent x.1.other) ∧
    n' = ⟨Function.update n.state x.1 t, Function.update n.sent x.1 (n.sent x.1 ++ out)⟩

/-- What a step of one party from `s` to `t` leaves true, seen from both sides:
`o` is the other party. -/
structure Kept (Good : σ → σ → Prop) (MaySend : σ → σ → μ → Prop) (s t o : σ) (out : List μ) : Prop where
  good : Good t o
  good_other : Good o t
  sends : ∀ m ∈ out, MaySend t o m
  still_may : ∀ m, MaySend s o m → MaySend t o m
  other_may : ∀ m, MaySend o s m → MaySend o t m

/-- Each step of a party keeps the invariant, if what it reads is what the
other may send. -/
def Keeps (party : Party σ ω μ) (Good : σ → σ → Prop) (MaySend : σ → σ → μ → Prop) : Prop :=
  ∀ {s o t : σ} {op : ω} {out : List μ}, Good s o → Good o s → (∀ m, party.reads op = some m → MaySend o s m) →
    party.step s op out t → Kept Good MaySend s t o out

/-- The invariant: each party is in order beside the other, and whatever it
has sent it may still send. -/
def Holds (Good : σ → σ → Prop) (MaySend : σ → σ → μ → Prop) (n : Network σ μ) : Prop :=
  ∀ side, Good (n.state side) (n.state side.other) ∧
    ∀ m ∈ n.sent side, MaySend (n.state side) (n.state side.other) m

theorem Holds.start {state : Side → σ} (h : ∀ side, Good (state side) (state side.other)) :
    Holds Good MaySend (Network.start state) := by
  intro side
  refine ⟨h side, fun m hm => ?_⟩
  cases hm

theorem Holds.step {n n' : Network σ μ} {x : Side × ω} (h : Holds Good MaySend n) (hk : Keeps party Good MaySend)
    (hs : Step party n x n') : Holds Good MaySend n' := by
  obtain ⟨side, op⟩ := x
  obtain ⟨out, t, hstep, hreads, rfl⟩ := hs
  obtain ⟨hgood, hsaid⟩ := h side
  obtain ⟨hgood', hsaid'⟩ := h side.other
  rw [Side.other_other] at hgood' hsaid'
  have hkept := hk hgood hgood' (fun m hm => hsaid' m (hreads m hm)) hstep
  have hne := side.other_ne
  intro side'
  rcases side.eq_or_eq_other side' with rfl | rfl
  · -- the party that took the step
    simp only [Function.update_self, Function.update_of_ne hne]
    refine ⟨hkept.good, fun m hm => ?_⟩
    rcases List.mem_append.1 hm with hm | hm
    · exact hkept.still_may m (hsaid m hm)
    · exact hkept.sends m hm
  · simp only [Side.other_other, Function.update_self, Function.update_of_ne hne]
    exact ⟨hkept.good_other, fun m hm => hkept.other_may m (hsaid' m hm)⟩

/-- A run keeps what each step of a party keeps. -/
theorem Holds.run {n n' : Network σ μ} {steps : List (Network σ μ × (Side × ω))} (h : Holds Good MaySend n)
    (hk : Keeps party Good MaySend) (hr : Run (Step party) n steps n') : Holds Good MaySend n' :=
  hr.invariant h fun _ _ _ hn hs => hn.step hk hs

/-- Each side keeps its word as long as the other one does: if every step of
the run that reads only what the other side may send sends only what its own
side may, then that is all that is ever sent. -/
theorem guarantees (Good : Side → σ → Prop) (MaySend : Side → μ → Prop) {state : Side → σ} {n : Network σ μ}
    {steps : List (Network σ μ × (Side × ω))} (hstart : ∀ side, Good side (state side))
    (hk : ∀ m side op out t, (m, (side, op)) ∈ steps → Good side (m.state side) →
      (∀ x, party.reads op = some x → MaySend side.other x) → party.step (m.state side) op out t →
      Good side t ∧ ∀ x ∈ out, MaySend side x)
    (hr : Run (Step party) (start state) steps n) (side : Side) :
    Good side (n.state side) ∧ ∀ x ∈ n.sent side, MaySend side x := by
  refine hr.invariant_on (I := fun n => ∀ side, Good side (n.state side) ∧ ∀ x ∈ n.sent side, MaySend side x)
    (fun side => ⟨hstart side, fun x hx => by cases hx⟩) ?_ side
  rintro m ⟨side, op⟩ _ hm hall ⟨out, t, hstep, hreads, rfl⟩
  obtain ⟨ht, hout⟩ := hk m side op out t hm (hall side).1 (fun x hx => (hall side.other).2 x (hreads x hx)) hstep
  intro side'
  rcases side.eq_or_eq_other side' with rfl | rfl
  · simp only [Function.update_self]
    refine ⟨ht, fun x hx => ?_⟩
    rcases List.mem_append.1 hx with hx | hx
    · exact (hall _).2 x hx
    · exact hout x hx
  · simp only [Function.update_of_ne (Side.other_ne _)]
    exact hall _

end Network

/-! ## Refinement -/

namespace Party

variable {σ ω μ : Type}

/-- Some steps of a party that reads only messages of the inbox, with all they
send. -/
inductive Steps (party : Party σ ω μ) (inbox : List μ) : σ → List μ → σ → Prop where
  | stay {s} : Steps party inbox s [] s
  | next {s t u op out out'} : Steps party inbox s out t → (∀ m, party.reads op = some m → m ∈ inbox) →
      party.step t op out' u → Steps party inbox s (out ++ out') u

variable {party : Party σ ω μ} {inbox : List μ} {s t u : σ} {out out' : List μ}

theorem Steps.one (op : ω) (hreads : ∀ m, party.reads op = some m → m ∈ inbox) (h : party.step s op out t) :
    Steps party inbox s out t := .next .stay hreads h

theorem Steps.trans (h : Steps party inbox s out t) (h' : Steps party inbox t out' u) :
    Steps party inbox s (out ++ out') u := by
  induction h' with
  | stay =>
    rw [List.append_nil]
    exact h
  | next _ hreads hstep ih =>
    rw [← List.append_assoc]
    exact .next ih hreads hstep

/-- Steps of one party are a run of the network. -/
theorem Steps.run {n : Network σ μ} {side : Side} (h : Steps party (n.sent side.other) (n.state side) out t) :
    ∃ steps, Run (Network.Step party) n steps
      ⟨Function.update n.state side t, Function.update n.sent side (n.sent side ++ out)⟩ := by
  generalize hinbox : n.sent side.other = inbox at h
  generalize hs : n.state side = s at h
  induction h with
  | stay =>
    refine ⟨[], ?_⟩
    rw [← hs, List.append_nil, Function.update_eq_self, Function.update_eq_self]
    exact .start
  | @next t u op out out' _ hreads hstep ih =>
    obtain ⟨steps, hrun⟩ := ih
    refine ⟨_, hrun.next (a := (side, op)) ⟨out', u, ?_, fun m hm => ?_, ?_⟩⟩
    · simpa using hstep
    · dsimp only
      rw [Function.update_of_ne side.other_ne, hinbox]
      exact hreads m hm
    · simp [List.append_assoc]

end Party

/-- How a party stands for one of another kind: `R` relates its state to the
other's state and what that one has sent, and `M` says that a message holds no
more than was sent there. -/
structure Refinement {σ ω μ σ' ω' μ' : Type} (party : Party σ ω μ) (spec : Party σ' ω' μ') where
  R : σ → σ' → List μ' → Prop
  M : μ → List μ' → Prop
  mono : ∀ {m sent more}, M m sent → M m (sent ++ more)
  step : ∀ {s s' t op out sent inbox}, R s s' sent → (∀ m, party.reads op = some m → M m inbox) →
    party.step s op out t → ∃ out' t', spec.Steps inbox s' out' t' ∧ R t t' (sent ++ out') ∧
      ∀ m ∈ out, M m (sent ++ out')

namespace Refinement

variable {σ ω μ σ' ω' μ' : Type} {party : Party σ ω μ} {spec : Party σ' ω' μ'} {n n₁ : Network σ μ}
  {m : Network σ' μ'}

/-- Both sides of one network stand for those of the other. -/
def Rel (r : Refinement party spec) (n : Network σ μ) (m : Network σ' μ') : Prop :=
  ∀ side, r.R (n.state side) (m.state side) (m.sent side) ∧ ∀ x ∈ n.sent side, r.M x (m.sent side)

theorem step_network (r : Refinement party spec) {x : Side × ω} (h : r.Rel n m) (hs : Network.Step party n x n₁) :
    ∃ steps m₁, Run (Network.Step spec) m steps m₁ ∧ r.Rel n₁ m₁ := by
  obtain ⟨side, op⟩ := x
  obtain ⟨out, t, hstep, hreads, rfl⟩ := hs
  obtain ⟨hR, hM⟩ := h side
  obtain ⟨hR', hM'⟩ := h side.other
  have hne := side.other_ne
  obtain ⟨out', t', hsteps, ht, hout⟩ := r.step hR (fun x hx => hM' x (hreads x hx)) hstep
  obtain ⟨steps, hrun⟩ := hsteps.run
  refine ⟨steps, _, hrun, fun side' => ?_⟩
  rcases side.eq_or_eq_other side' with rfl | rfl
  · simp only [Function.update_self]
    refine ⟨ht, fun x hx => ?_⟩
    rcases List.mem_append.1 hx with hx | hx
    · exact r.mono (hM x hx)
    · exact hout x hx
  · simp only [Function.update_of_ne hne]
    exact ⟨hR', hM'⟩

/-- Whatever a network does, the other one can do, too. -/
theorem run (r : Refinement party spec) (h : r.Rel n m) {steps : List (Network σ μ × (Side × ω))}
    (hr : Run (Network.Step party) n steps n₁) : ∃ steps' m₁, Run (Network.Step spec) m steps' m₁ ∧ r.Rel n₁ m₁ := by
  induction hr with
  | start => exact ⟨[], m, .start, h⟩
  | next _ hs ih =>
    obtain ⟨steps₁, m₁, hrun₁, hrel₁⟩ := ih
    obtain ⟨steps₂, m₂, hrun₂, hrel₂⟩ := r.step_network hrel₁ hs
    exact ⟨steps₁ ++ steps₂, m₂, hrun₁.append hrun₂, hrel₂⟩

end Refinement

end Lib
