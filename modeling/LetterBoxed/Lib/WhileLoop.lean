/-
`while` loops as partial fixpoints.

A loop is given by its body, a function that takes the loop state at the loop
test and answers one of three things: an error, the result the loop leaves
with, or the state at the next test. `loop` iterates it. It is a partial
fixpoint, so a loop that never leaves is `none` and no fuel appears in any
statement about it.

Two notions carry the proofs. `Reaches` is the reflexive-transitive closure of
one turn of the loop, and invariants are proved along it. `Terminates` is
accessibility under one turn, so a proof about a loop that is known to end can
go by induction on the turns still to come.
-/
import Mathlib

set_option autoImplicit false

namespace WhileLoop

variable {α ε β : Type*} {body : α → Except ε (α ⊕ β)}

/-- `while(true) f`: `inl` goes on with the next state, `inr` leaves. -/
def loop (x : α) (f : α → Except ε (α ⊕ β)) : Option (Except ε β) :=
  match f x with
  | .error e => some (.error e)
  | .ok (.inr y) => some (.ok y)
  | .ok (.inl x') => (loop (f := f)) x'
partial_fixpoint

/-- One turn of the loop leads from the test at `x` to the test at `y`. -/
def Turn (body : α → Except ε (α ⊕ β)) (x y : α) : Prop := body x = .ok (.inl y)

/-- Some number of turns leads from `x` to `y`. -/
abbrev Reaches (body : α → Except ε (α ⊕ β)) : α → α → Prop :=
  Relation.ReflTransGen (Turn body)

/-- Only finitely many turns can be taken from `x`. -/
def Terminates (body : α → Except ε (α ⊕ β)) (x : α) : Prop :=
  Acc (fun y x => Turn body x y) x

/-! ## Running a loop -/

theorem loop_turn {x y : α} (h : Turn body x y) : loop x body = loop y body := by
  rw [loop, h]

theorem loop_leave {x : α} {y : β} (h : body x = .ok (.inr y)) :
    loop x body = some (.ok y) := by
  rw [loop, h]

theorem loop_reaches {x y : α} (h : Reaches body x y) : loop x body = loop y body := by
  induction h with
  | refl => rfl
  | tail _ hturn ih => rw [ih, loop_turn hturn]

/-! ## Leaving a loop -/

/-- How a loop that ends got to its end: some turns, then a body that leaves
or fails. -/
theorem loop_eq_some {x : α} {out : Except ε β} (h : loop x body = some out) :
    ∃ y, Reaches body x y ∧ body y = out.map Sum.inr := by
  refine loop.partial_correctness body
    (motive := fun x out => ∃ y, Reaches body x y ∧ body y = out.map Sum.inr) ?_ x out h
  -- `rec` is the loop as far as it was approximated, and `x` takes one more turn
  intro rec ih x out hrec
  cases hbody : body x with
  | error e =>
      simp only [hbody, Option.some.injEq] at hrec
      exact ⟨x, .refl, by rw [hbody, ← hrec]; rfl⟩
  | ok next =>
      cases next with
      | inr y =>
          simp only [hbody, Option.some.injEq] at hrec
          exact ⟨x, .refl, by rw [hbody, ← hrec]; rfl⟩
      | inl x' =>
          simp only [hbody] at hrec
          obtain ⟨y, hreach, hy⟩ := ih x' out hrec
          exact ⟨y, hreach.head hbody, hy⟩

/-- The state a body leaves from has no next turn. -/
theorem terminates_of_leave {x : α} {out : Except ε β} (h : body x = out.map Sum.inr) :
    Terminates body x := by
  refine ⟨x, fun y hy => ?_⟩
  rw [Turn, h] at hy
  cases out <;> simp [Except.map] at hy

theorem terminates_of_turn {x y : α} (h : Turn body x y) (hy : Terminates body y) :
    Terminates body x := by
  refine ⟨x, fun z hz => ?_⟩
  rw [Turn, h] at hz
  cases hz
  exact hy

/-- A loop that returns takes finitely many turns. -/
theorem terminates_of_loop {x : α} {out : Except ε β} (h : loop x body = some out) :
    Terminates body x := by
  obtain ⟨y, hreach, hy⟩ := loop_eq_some h
  clear h
  -- from the last test backwards to the first
  induction hreach using Relation.ReflTransGen.head_induction_on with
  | refl => exact terminates_of_leave hy
  | head hturn _ ih => exact terminates_of_turn hturn ih

/-! ## The two induction rules -/

/-- **Invariant rule.** What holds at the first loop test and is kept by one
turn holds at every loop test. -/
theorem invariant_reaches {I : α → Prop} {x y : α} (hinit : I x)
    (hturn : ∀ a b, I a → Turn body a b → I b) (h : Reaches body x y) : I y := by
  induction h with
  | refl => exact hinit
  | tail _ hab ih => exact hturn _ _ ih hab

/-- **Divergence rule.** A loop that can take a turn at every test it gets to is
never left. -/
theorem loop_eq_none {I : α → Prop} {x : α} (hinit : I x)
    (hturn : ∀ a, I a → ∃ b, Turn body a b ∧ I b) : loop x body = none := by
  by_contra hsome
  obtain ⟨out, hout⟩ := Option.ne_none_iff_exists'.mp hsome
  obtain ⟨y, hreach, hy⟩ := loop_eq_some hout
  have hkept : ∀ a b, I a → Turn body a b → I b := by
    intro a b ha hab
    obtain ⟨b', hab', hb'⟩ := hturn a ha
    -- there is one next test only
    rw [Turn, hab] at hab'
    cases hab'
    exact hb'
  obtain ⟨b, hturn, _⟩ := hturn y (invariant_reaches hinit hkept hreach)
  rw [Turn, hy] at hturn
  cases out <;> simp [Except.map] at hturn

/-- Every later state of a loop that ends is the start of a loop that ends. -/
theorem Terminates.later {x y : α} (h : Terminates body x)
    (hlater : Relation.TransGen (Turn body) x y) : Terminates body y :=
  Acc.inv_of_transGen h (Relation.transGen_swap.mp hlater)

/-- **Induction on the rest of the run.** For a loop known to end from `x`, a
property of `x` may be proved from the same property of every state at least
one turn later. -/
theorem Terminates.induction {motive : (x : α) → Terminates body x → Prop}
    (step : ∀ a (ha : Terminates body a),
      (∀ b (hlater : Relation.TransGen (Turn body) a b), motive b (ha.later hlater)) →
      motive a ha)
    (x : α) (h : Terminates body x) : motive x h := by
  have hacc : Acc (Relation.TransGen fun y x => Turn body x y) x := Acc.transGen h
  induction hacc with
  | intro x _ ih =>
      exact step x h fun b hlater => ih b (Relation.transGen_swap.mp hlater) (h.later hlater)

end WhileLoop
