/-
Paths in a state space and the least number of moves to a state.

A space says which moves are enabled in a state and which state a move leads
to. `ReachesIn` counts the moves of a path from a set of start states, and
`IsDist` is the least such count that is not zero: a start state reached again
by moves is at the length of its shortest cycle, not at zero.

The facts that searches with a table of distances rest on are at the end: a
state at distance `k + 2` has a predecessor at distance `k + 1`, and the last
state before a nearest goal is at the level of its path.
-/
import Mathlib

set_option autoImplicit false

namespace Paths

/-- Enabled moves and their effect. -/
structure Space (S E : Type*) where
  enabled : S → E → Prop
  next : S → E → S

variable {S E : Type*} (sp : Space S E)

/-- The state after a list of moves. -/
def Space.run (s : S) (es : List E) : S := es.foldl sp.next s

/-- Every move is enabled where it is made. -/
def Space.IsPath : S → List E → Prop
  | _, [] => True
  | s, e :: es => sp.enabled s e ∧ Space.IsPath (sp.next s e) es

section Run

variable {sp}

@[simp] theorem run_nil (s : S) : sp.run s [] = s := rfl

@[simp] theorem run_cons (s : S) (e : E) (es : List E) :
    sp.run s (e :: es) = sp.run (sp.next s e) es := rfl

@[simp] theorem run_append (s : S) (es fs : List E) :
    sp.run s (es ++ fs) = sp.run (sp.run s es) fs := List.foldl_append

@[simp] theorem isPath_nil (s : S) : sp.IsPath s [] := trivial

@[simp] theorem isPath_cons (s : S) (e : E) (es : List E) :
    sp.IsPath s (e :: es) ↔ sp.enabled s e ∧ sp.IsPath (sp.next s e) es := Iff.rfl

@[simp] theorem isPath_append (s : S) (es fs : List E) :
    sp.IsPath s (es ++ fs) ↔ sp.IsPath s es ∧ sp.IsPath (sp.run s es) fs := by
  induction es generalizing s with
  | nil => simp
  | cons e es ih => simp [ih, and_assoc]

end Run

/-- `s` is the end of a path of `k` moves from a start state. -/
def Space.ReachesIn (init : Set S) (k : ℕ) (s : S) : Prop :=
  ∃ s₀ ∈ init, ∃ es : List E, es.length = k ∧ sp.IsPath s₀ es ∧ sp.run s₀ es = s

/-- `k` is the least positive number of moves to `s`. -/
def Space.IsDist (init : Set S) (k : ℕ) (s : S) : Prop :=
  IsLeast {k | 1 ≤ k ∧ sp.ReachesIn init k s} k

variable {sp} {init : Set S}

theorem reachesIn_zero {s : S} : sp.ReachesIn init 0 s ↔ s ∈ init := by
  constructor
  · rintro ⟨s₀, hs₀, es, hlen, _, rfl⟩
    rw [List.eq_nil_of_length_eq_zero hlen]
    exact hs₀
  · intro hs
    exact ⟨s, hs, [], rfl, trivial, rfl⟩

theorem reachesIn_succ {k : ℕ} {s : S} :
    sp.ReachesIn init (k + 1) s ↔
      ∃ t e, sp.ReachesIn init k t ∧ sp.enabled t e ∧ sp.next t e = s := by
  constructor
  · rintro ⟨s₀, hs₀, es, hlen, hpath, rfl⟩
    have hne : es ≠ [] := List.ne_nil_of_length_eq_add_one hlen
    obtain ⟨fs, e, rfl⟩ := es.eq_nil_or_concat'.resolve_left hne
    rw [isPath_append, isPath_cons] at hpath
    simp only [List.length_append, List.length_singleton, Nat.add_right_cancel_iff] at hlen
    exact ⟨_, e, ⟨s₀, hs₀, fs, hlen, hpath.1, rfl⟩, hpath.2.1, by simp⟩
  · rintro ⟨t, e, ⟨s₀, hs₀, es, hlen, hpath, rfl⟩, henabled, rfl⟩
    refine ⟨s₀, hs₀, es ++ [e], by simp [hlen], ?_, by simp⟩
    rw [isPath_append]
    exact ⟨hpath, henabled, trivial⟩

theorem Space.ReachesIn.move {k : ℕ} {t : S} {e : E} (h : sp.ReachesIn init k t)
    (henabled : sp.enabled t e) : sp.ReachesIn init (k + 1) (sp.next t e) :=
  reachesIn_succ.mpr ⟨t, e, h, henabled, rfl⟩

/-- A state that is reached has a distance, at most the number of moves. -/
theorem exists_isDist {k : ℕ} {s : S} (hk : 1 ≤ k) (h : sp.ReachesIn init k s) :
    ∃ d ≤ k, sp.IsDist init d s := by
  classical
  have hex : ∃ k, 1 ≤ k ∧ sp.ReachesIn init k s := ⟨k, hk, h⟩
  exact ⟨Nat.find hex, Nat.find_min' hex ⟨hk, h⟩, Nat.find_spec hex,
    fun j hj => Nat.find_min' hex hj⟩

theorem Space.IsDist.unique {j k : ℕ} {s : S} (hj : sp.IsDist init j s) (hk : sp.IsDist init k s) :
    j = k :=
  IsLeast.unique hj hk

/-- **Shortest paths end in shortest paths**, one move further back. -/
theorem Space.IsDist.pred {k : ℕ} {s : S} (h : sp.IsDist init (k + 2) s) :
    ∃ t e, sp.IsDist init (k + 1) t ∧ sp.enabled t e ∧ sp.next t e = s := by
  obtain ⟨t, e, ht, henabled, rfl⟩ := reachesIn_succ.mp h.1.2
  refine ⟨t, e, ⟨⟨by omega, ht⟩, ?_⟩, henabled, rfl⟩
  -- a shorter path to `t` would make the path to `s` shorter
  rintro j ⟨_, hj⟩
  have hle := h.2 ⟨by omega, Space.ReachesIn.move hj henabled⟩
  omega

/-- The states at level `k`: the start states, and above them the states at
distance `k`. -/
def Space.Level (sp : Space S E) (init : Set S) : ℕ → Set S
  | 0 => init
  | k + 1 => {s | sp.IsDist init (k + 1) s}

/-- A state at a distance has a predecessor at the level below. -/
theorem Space.IsDist.exists_level {k : ℕ} {s : S} (h : sp.IsDist init (k + 1) s) :
    ∃ t e, t ∈ sp.Level init k ∧ sp.enabled t e ∧ sp.next t e = s := by
  cases k with
  | zero =>
      obtain ⟨t, e, ht, he, hs⟩ := reachesIn_succ.mp h.1.2
      exact ⟨t, e, reachesIn_zero.mp ht, he, hs⟩
  | succ k => exact h.pred

theorem level_reachesIn {k : ℕ} {s : S} (h : s ∈ sp.Level init k) : sp.ReachesIn init k s := by
  cases k with
  | zero => exact reachesIn_zero.mpr h
  | succ k => exact h.1.2

/-- The least positive number of moves to a state with `goal`. -/
def Space.IsGoalDist (sp : Space S E) (init : Set S) (goal : S → Prop) (m : ℕ) : Prop :=
  IsLeast {k | 1 ≤ k ∧ ∃ s, goal s ∧ sp.ReachesIn init k s} m

variable {goal : S → Prop}

/-- The last state before a nearest goal is at the level of its path. -/
theorem level_before_goal {k : ℕ} {t : S} {e : E} (h : sp.IsGoalDist init goal (k + 1))
    (ht : sp.ReachesIn init k t) (henabled : sp.enabled t e) (hgoal : goal (sp.next t e)) :
    t ∈ sp.Level init k := by
  cases k with
  | zero => exact reachesIn_zero.mp ht
  | succ k =>
      refine ⟨⟨by omega, ht⟩, ?_⟩
      -- a shorter path to `t` would lead to a nearer goal
      rintro j ⟨_, hj⟩
      have hle := h.2 ⟨by omega, sp.next t e, hgoal, Space.ReachesIn.move hj henabled⟩
      omega

/-- If a goal is reached at all, there is a least number of moves to one. -/
theorem exists_isGoalDist {k : ℕ} {s : S} (hk : 1 ≤ k) (hgoal : goal s)
    (h : sp.ReachesIn init k s) : ∃ m ≤ k, sp.IsGoalDist init goal m := by
  classical
  have hex : ∃ k, 1 ≤ k ∧ ∃ s, goal s ∧ sp.ReachesIn init k s := ⟨k, hk, s, hgoal, h⟩
  exact ⟨Nat.find hex, Nat.find_min' hex ⟨hk, s, hgoal, h⟩, Nat.find_spec hex,
    fun j hj => Nat.find_min' hex hj⟩

end Paths
