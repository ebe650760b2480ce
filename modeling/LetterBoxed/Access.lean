/-
Checked container access.

The solver indexes its containers without checks: `operator[]`, `back()`,
`front()` and the table lookups by `idx` are undefined out of range. Here every
such access is a function into `Except Fault`, so "no access is out of range"
is the statement that a run does not end in a fault, and a fault says which
container was indexed and where.

`size_t` values are natural numbers. The one operation on them that can leave
the naturals is subtraction, and `size_sub` wraps it the way `size_t` does.
-/
import Mathlib

set_option autoImplicit false

namespace LetterBoxed

/-- The containers the modelled functions index. -/
inductive Container
  | nodes
  | stateDepthCache
  | words
  | wordHashes
  | compressionIndex
  | charFilterMasks
  | sideMasks
  | separatorIdxs
  | csv
  | word
  | stack
  | states
  | path
  deriving DecidableEq, Repr

/-- Why a run has no defined continuation. -/
inductive Fault
  /-- container `c` was indexed at `i`, past its end -/
  | outOfRange (c : Container) (i : Nat)
  /-- integer division by zero -/
  | divisionByZero
  /-- a `CTH_CRITICAL` check failed -/
  | critical
  /-- a left shift by at least the width of its type -/
  | oversizedShift (amount : Nat)
  deriving DecidableEq, Repr

/-- A computation that may fault or run forever. -/
abbrev Run (α : Type) := ExceptT Fault Option α

/-- `xs[i]` for reading. -/
def read {α : Type} (c : Container) (xs : List α) (i : Nat) : Except Fault α :=
  match xs[i]? with
  | some x => .ok x
  | none => .error (.outOfRange c i)

/-- `xs[i] = x`. -/
def write {α : Type} (c : Container) (xs : List α) (i : Nat) (x : α) : Except Fault (List α) :=
  if i < xs.length then .ok (xs.set i x) else .error (.outOfRange c i)

/-- The first `n` elements of `xs` as a span. -/
def first {α : Type} (c : Container) (xs : List α) (n : Nat) : Except Fault (List α) :=
  if n ≤ xs.length then .ok (xs.take n) else .error (.outOfRange c n)

/-- `a - b` on 64-bit `size_t`. -/
def size_sub (a b : Nat) : Nat := if b ≤ a then a - b else a + 2 ^ 64 - b

section Lemmas

variable {α : Type} {c : Container} {xs : List α}

@[simp] theorem read_getElem {i : Nat} {x : α} (h : xs[i]? = some x) : read c xs i = .ok x := by
  simp [read, h]

theorem read_lt {i : Nat} (h : i < xs.length) : read c xs i = .ok xs[i] :=
  read_getElem (List.getElem?_eq_getElem h)

/-- `back()` of a container whose last element is known. -/
@[simp] theorem read_concat_back (x : α) :
    read c (xs ++ [x]) (size_sub (xs ++ [x]).length 1) = .ok x := by
  simp [read, size_sub]

theorem read_ge {i : Nat} (h : xs.length ≤ i) : read c xs i = .error (.outOfRange c i) := by
  rw [read, List.getElem?_eq_none h]

theorem write_lt {i : Nat} (h : i < xs.length) (x : α) : write c xs i x = .ok (xs.set i x) :=
  if_pos h

theorem first_le {n : Nat} (h : n ≤ xs.length) : first c xs n = .ok (xs.take n) :=
  if_pos h

theorem size_sub_le {a b : Nat} (h : b ≤ a) : size_sub a b = a - b := if_pos h

end Lemmas

/-! ## Arrays

An `std::array` is a `Vector`, read and written at a `Fin`, so an access that
is written this way is in range. -/

section Arrays

variable {α : Type} {n : Nat} (xs : Vector α n) {i j : Fin n}

theorem get_set_self (x : α) : (xs.set i.val x i.isLt).get i = x :=
  Vector.getElem_set_self i.isLt

theorem get_set_ne (h : i ≠ j) (x : α) : (xs.set i.val x i.isLt).get j = xs.get j :=
  Vector.getElem_set_ne i.isLt j.isLt fun heq => h (Fin.ext heq)

end Arrays

/-! ## Paired lists -/

section Pairs

variable {α β : Type} {T : α → β → Prop} {xs : List α} {ys : List β}

theorem exists_left_of_forall₂ (hpairs : List.Forall₂ T xs ys) {y : β} (hy : y ∈ ys) :
    ∃ x ∈ xs, T x y := by
  induction hpairs with
  | nil => exact absurd hy List.not_mem_nil
  | cons hxy _ ih =>
      rcases List.mem_cons.mp hy with rfl | hy
      · exact ⟨_, List.mem_cons_self, hxy⟩
      · obtain ⟨x, hx, hT⟩ := ih hy
        exact ⟨x, List.mem_cons_of_mem _ hx, hT⟩

theorem exists_right_of_forall₂ (hpairs : List.Forall₂ T xs ys) {x : α} (hx : x ∈ xs) :
    ∃ y ∈ ys, T x y :=
  exists_left_of_forall₂ hpairs.flip hx

theorem pairwise_of_forall₂ {R : α → α → Prop} {S : β → β → Prop} (hpairs : List.Forall₂ T xs ys)
    (hR : xs.Pairwise R) (hS : ∀ x x' y y', T x y → T x' y' → R x x' → S y y') : ys.Pairwise S := by
  induction hpairs with
  | nil => exact .nil
  | @cons x y xs ys hxy hrest ih =>
      rw [List.pairwise_cons] at hR ⊢
      refine ⟨fun y' hy' => ?_, ih hR.2⟩
      obtain ⟨x', hx', hT⟩ := exists_left_of_forall₂ hrest hy'
      exact hS x x' y y' hxy hT (hR.1 x' hx')

end Pairs

section Loops

variable {α β : Type} {P : Nat → β → Prop} {f : β → α → Except Fault β}

/-- **Invariant rule for counted loops.** If the body, run on element `j` with
what holds before turn `j`, returns with what holds before turn `j + 1`, then
the loop returns with what holds after its last turn. -/
theorem foldlM_invariant {xs : List α} {b : β} (hinit : P 0 b)
    (hstep : ∀ j b x, xs[j]? = some x → P j b → ∃ b', f b x = .ok b' ∧ P (j + 1) b') :
    ∃ b', xs.foldlM f b = .ok b' ∧ P xs.length b' := by
  induction xs generalizing b P with
  | nil => exact ⟨b, rfl, hinit⟩
  | cons x xs ih =>
      obtain ⟨b₁, hbody, hb₁⟩ := hstep 0 b x rfl hinit
      -- the rest of the loop counts from the second turn
      have hrest := ih (P := fun j => P (j + 1)) hb₁ fun j b x hx => hstep (j + 1) b x (by simpa using hx)
      obtain ⟨b', hloop, hb'⟩ := hrest
      refine ⟨b', ?_, hb'⟩
      rw [List.foldlM_cons, hbody]
      exact hloop

/-- A loop in which turns return or fail with one error, and one always fails. -/
theorem foldlM_error {f : β → α → Except Fault β} {fault : Fault} {xs : List α}
    (hstep : ∀ x ∈ xs, ∀ b, (∃ b', f b x = .ok b') ∨ f b x = .error fault)
    (hfails : ∃ x ∈ xs, ∀ b, f b x = .error fault) (b : β) : xs.foldlM f b = .error fault := by
  induction xs generalizing b with
  | nil =>
      obtain ⟨x, hx, _⟩ := hfails
      exact absurd hx List.not_mem_nil
  | cons x xs ih =>
      rw [List.forall_mem_cons] at hstep
      rw [List.foldlM_cons]
      rcases hstep.1 b with ⟨b', hb'⟩ | hfault
      · -- this turn returned, so one of the later turns is the one that fails
        rw [hb']
        obtain ⟨y, hy, hfails⟩ := hfails
        rcases List.mem_cons.mp hy with rfl | hy
        · rw [hfails b] at hb'
          cases hb'
        · exact ih hstep.2 ⟨y, hy, hfails⟩ b'
      · rw [hfault]
        rfl

/-- A map whose calls all return, with what is known of each of them. -/
theorem exists_mapM {f : α → Except Fault β} {R : α → β → Prop} {xs : List α}
    (h : ∀ x ∈ xs, ∃ y, f x = .ok y ∧ R x y) :
    ∃ ys, xs.mapM f = .ok ys ∧ List.Forall₂ R xs ys := by
  induction xs with
  | nil => exact ⟨[], rfl, .nil⟩
  | cons x xs ih =>
      rw [List.forall_mem_cons] at h
      obtain ⟨y, hy, hxy⟩ := h.1
      obtain ⟨ys, hys, hrest⟩ := ih h.2
      refine ⟨y :: ys, ?_, .cons hxy hrest⟩
      rw [List.mapM_cons, hy]
      simp only [bind, Except.bind, hys]
      rfl

/-- A map whose results are known. -/
theorem mapM_of_forall₂ {f : α → Except Fault β} {xs : List α} {ys : List β}
    (h : List.Forall₂ (fun x y => f x = .ok y) xs ys) : xs.mapM f = .ok ys := by
  induction h with
  | nil => rfl
  | cons hy _ ih =>
      rw [List.mapM_cons, hy]
      simp only [bind, Except.bind, ih]
      rfl

end Loops

section Run

variable {α β : Type}

/-- Sequencing after a run that returns. -/
theorem run_bind_ok {x : Run α} {a : α} (h : x = some (.ok a)) (f : α → Run β) :
    x >>= f = f a := by
  rw [h]
  rfl

/-- Sequencing after a computation that returns. -/
theorem run_lift_ok {x : Except Fault α} {a : α} (h : x = .ok a) (f : α → Run β) :
    (liftM x : Run α) >>= f = f a := by
  rw [h]
  rfl

/-- Sequencing after a computation that fails. -/
theorem run_lift_error {x : Except Fault α} {fault : Fault} (h : x = .error fault)
    (f : α → Run β) : (liftM x : Run α) >>= f = some (.error fault) := by
  rw [h]
  rfl

/-- A sequence ends if its parts do. -/
theorem run_bind_ne_none {x : Run α} {f : α → Run β} (hx : x ≠ none) (hf : ∀ a, f a ≠ none) :
    x >>= f ≠ none := by
  obtain ⟨out, rfl⟩ := Option.ne_none_iff_exists'.mp hx
  cases out with
  | error fault => exact fun h => nomatch h
  | ok a => exact hf a

end Run

end LetterBoxed
