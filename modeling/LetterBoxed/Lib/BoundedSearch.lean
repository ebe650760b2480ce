/-
Depth-first search under a bound, and the same under one bound after another.

`seek` follows the moves of a state in the order they are listed and returns
the first path to a goal, of no more moves than its bound. It stops where a
goal is reached, so it finds some path to a goal whenever there is one within
the bound. `deepen` raises the bound until `seek` finds one, and what it finds
is a path with the least number of moves.
-/
import LetterBoxed.Lib.Paths

set_option autoImplicit false

namespace Paths

/-- Moves in the order they are tried, their effect, and what is looked for. -/
structure Listed (S E : Type*) where
  moves : S → List E
  next : S → E → S
  goal : S → Bool

variable {S E : Type*}

/-- The listed moves are the enabled ones. -/
def Listed.space (p : Listed S E) : Space S E where
  enabled s e := e ∈ p.moves s
  next := p.next

/-- A path to a goal. -/
structure Listed.Solves (p : Listed S E) (s : S) (es : List E) : Prop where
  path : p.space.IsPath s es
  goal : p.goal (p.space.run s es) = true

/-- The first path to a goal of at most `bound` moves. -/
def Listed.seek (p : Listed S E) : ℕ → S → Option (List E)
  | 0, s => if p.goal s then some [] else none
  | bound + 1, s =>
    if p.goal s then some []
    else (p.moves s).findSome? fun e => (p.seek bound (p.next s e)).map (e :: ·)

/-- The first path found when the bound grows from 1 to `bound`. -/
def Listed.deepen (p : Listed S E) (bound : ℕ) (s : S) : Option (List E) :=
  (List.range' 1 bound).findSome? fun bound => p.seek bound s

variable {p : Listed S E}

theorem solves_nil {s : S} : p.Solves s [] ↔ p.goal s = true :=
  ⟨fun h => h.goal, fun h => ⟨trivial, h⟩⟩

theorem solves_cons {s : S} {e : E} {es : List E} :
    p.Solves s (e :: es) ↔ e ∈ p.moves s ∧ p.Solves (p.next s e) es := by
  constructor
  · rintro ⟨⟨he, hpath⟩, hgoal⟩
    exact ⟨he, hpath, hgoal⟩
  · rintro ⟨he, hpath, hgoal⟩
    exact ⟨⟨he, hpath⟩, hgoal⟩

/-- At a goal the search ends. -/
theorem seek_goal {s : S} (hgoal : p.goal s = true) (bound : ℕ) : p.seek bound s = some [] := by
  cases bound with
  | zero => rw [Listed.seek, if_pos hgoal]
  | succ bound => rw [Listed.seek, if_pos hgoal]

/-- **What is found solves**, within the bound. -/
theorem seek_sound (bound : ℕ) :
    ∀ {s : S} {es : List E}, p.seek bound s = some es → p.Solves s es ∧ es.length ≤ bound := by
  induction bound with
  | zero =>
      intro s es h
      unfold Listed.seek at h
      split_ifs at h with hgoal
      cases h
      exact ⟨solves_nil.mpr hgoal, Nat.le_refl 0⟩
  | succ bound ih =>
      intro s es h
      unfold Listed.seek at h
      split_ifs at h with hgoal
      · cases h
        exact ⟨solves_nil.mpr hgoal, Nat.zero_le _⟩
      · obtain ⟨e, he, hfound⟩ := List.exists_of_findSome?_eq_some h
        rw [Option.map_eq_some_iff] at hfound
        obtain ⟨rest, hrest, rfl⟩ := hfound
        obtain ⟨hsolves, hlen⟩ := ih hrest
        exact ⟨solves_cons.mpr ⟨he, hsolves⟩, Nat.succ_le_succ hlen⟩

/-- **Within the bound a solution is found**, if there is one. -/
theorem seek_complete (bound : ℕ) :
    ∀ {s : S} {es : List E}, p.Solves s es → es.length ≤ bound → p.seek bound s ≠ none := by
  induction bound with
  | zero =>
      intro s es h hlen
      rw [List.eq_nil_of_length_eq_zero (Nat.le_zero.mp hlen), solves_nil] at h
      rw [seek_goal h]
      exact Option.some_ne_none _
  | succ bound ih =>
      intro s es h hlen
      by_cases hgoal : p.goal s = true
      · rw [seek_goal hgoal]
        exact Option.some_ne_none _
      · rw [Listed.seek, if_neg hgoal]
        cases es with
        | nil => exact absurd (solves_nil.mp h) hgoal
        | cons e es =>
            rw [solves_cons] at h
            rw [Ne, List.findSome?_eq_none_iff]
            intro hnone
            have hrest := hnone e h.1
            rw [Option.map_eq_none_iff] at hrest
            exact ih h.2 (Nat.le_of_succ_le_succ hlen) hrest

/-- **What deepening finds is a shortest solution.** -/
theorem deepen_sound {bound : ℕ} {s : S} {es : List E} (h : p.deepen bound s = some es) :
    p.Solves s es ∧ es.length ≤ bound ∧ ∀ es', p.Solves s es' → es.length ≤ es'.length := by
  unfold Listed.deepen at h
  rw [List.findSome?_eq_some_iff] at h
  obtain ⟨before, d, after, hbounds, hfound, hnone⟩ := h
  obtain ⟨hsolves, hlen⟩ := seek_sound d hfound
  have hd : d ∈ List.range' 1 bound := by
    rw [hbounds]
    exact List.mem_append_right _ List.mem_cons_self
  rw [List.mem_range'_1] at hd
  refine ⟨hsolves, by omega, fun es' hsolves' => ?_⟩
  by_contra hlt
  cases es' with
  | nil =>
      -- a goal at the start is found at once
      rw [seek_goal (solves_nil.mp hsolves')] at hfound
      cases hfound
      exact hlt (Nat.le_refl 0)
  | cons e es' =>
      -- a shorter solution would have been found under its own bound
      have hmem : (e :: es').length ∈ List.range' 1 bound := by
        rw [List.mem_range'_1, List.length_cons]
        rw [List.length_cons] at hlt
        omega
      have hsorted : (List.range' 1 bound).Pairwise (· < ·) := List.pairwise_lt_range'
      rw [hbounds, List.pairwise_append] at hsorted
      rw [hbounds, List.mem_append, List.mem_cons] at hmem
      rcases hmem with hmem | heq | hmem
      · exact seek_complete _ hsolves' (Nat.le_refl _) (hnone _ hmem)
      · omega
      · have hgt := (List.pairwise_cons.mp hsorted.2.1).1 _ hmem
        omega

/-- **Deepening finds a solution**, if there is one within the last bound. -/
theorem deepen_complete {bound : ℕ} {s : S} {es : List E} (hbound : 1 ≤ bound)
    (h : p.Solves s es) (hlen : es.length ≤ bound) : p.deepen bound s ≠ none := by
  unfold Listed.deepen
  rw [Ne, List.findSome?_eq_none_iff]
  intro hnone
  refine seek_complete bound h hlen (hnone bound ?_)
  rw [List.mem_range'_1]
  omega

end Paths
