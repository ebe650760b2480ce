/-
The recursive depth-first search that `dfs` implements with explicit stacks.

`Explore g cb edges path state w b calls w'` is the big-step reading of "try
`edges` in order at the end of `path`, where `state` was returned for `path`":
from captured variables `w` it makes exactly the callback calls `calls`, ends
in `w'`, and answers `true` if the subtree was exhausted and `false` if
`stop_fn` answered true. There is no stack and no path buffer in it; the path
of a call is its argument.

Every step of the search, including the one that leaves an exhausted node, is
preceded by a call of `stop_fn`, so each constructor starts with one.
-/
import LetterBoxed.Algorithm

set_option autoImplicit false

namespace LetterBoxed

/-- A call of one of the three callbacks with its arguments and its answer. -/
inductive Call (Edge State : Type)
  | stop (answer : Bool)
  | next (prev : State) (path : List Edge) (answer : Option State)
  | backtrack (parent popped : State) (path : List Edge)
  deriving DecidableEq, Repr

section Reference

variable {Node Edge State World : Type}

/-- Recursive pre-order search below `path`. -/
inductive Explore (g : Graph Node Edge) (cb : Callbacks Edge State World) :
    List Edge → List Edge → State → World → Bool → List (Call Edge State) → World → Prop
  /-- `stop_fn` answers true: nothing else happens -/
  | stopped {edges path state w w'} (hstop : cb.stop_fn w = (true, w')) :
      Explore g cb edges path state w false [.stop true] w'
  /-- no edge is left -/
  | exhausted {path state w w'} (hstop : cb.stop_fn w = (false, w')) :
      Explore g cb [] path state w true [.stop false] w'
  /-- `next_state_fn` returns empty for the next edge, which is skipped -/
  | pruned {e edges path state w w₁ w₂ b calls w'} (hstop : cb.stop_fn w = (false, w₁))
      (hnext : cb.next_state_fn state (path ++ [e]) w₁ = (none, w₂))
      (hrest : Explore g cb edges path state w₂ b calls w') :
      Explore g cb (e :: edges) path state w b
        (.stop false :: .next state (path ++ [e]) none :: calls) w'
  /-- the next edge is followed, and the search is stopped below it -/
  | cut {e edges path state state' w w₁ w₂ calls w'} (hstop : cb.stop_fn w = (false, w₁))
      (hnext : cb.next_state_fn state (path ++ [e]) w₁ = (some state', w₂))
      (hchild : Explore g cb (g.edges_view_of_fn (g.destination_of_fn e)) (path ++ [e]) state'
        w₂ false calls w') :
      Explore g cb (e :: edges) path state w false
        (.stop false :: .next state (path ++ [e]) (some state') :: calls) w'
  /-- the next edge is followed, its subtree exhausted and left, and the search
  goes on with the edges after it -/
  | descend {e edges path state state' w w₁ w₂ w₃ b calls₁ calls₂ w'}
      (hstop : cb.stop_fn w = (false, w₁))
      (hnext : cb.next_state_fn state (path ++ [e]) w₁ = (some state', w₂))
      (hchild : Explore g cb (g.edges_view_of_fn (g.destination_of_fn e)) (path ++ [e]) state'
        w₂ true calls₁ w₃)
      (hrest : Explore g cb edges path state
        (cb.backtrack_fn state state' (path ++ [e]) w₃) b calls₂ w') :
      Explore g cb (e :: edges) path state w b
        (.stop false :: .next state (path ++ [e]) (some state') ::
          (calls₁ ++ .backtrack state state' (path ++ [e]) :: calls₂)) w'

/-- The whole search from `root`. -/
def Search (g : Graph Node Edge) (cb : Callbacks Edge State World) (root : Node)
    (initial_state : State) : World → Bool → List (Call Edge State) → World → Prop :=
  Explore g cb (g.edges_view_of_fn root) [] initial_state

variable {g : Graph Node Edge} {cb : Callbacks Edge State World}

/-- The search answers false exactly when `stop_fn` answered true in one of
the calls it made. -/
theorem Explore.result_eq_false_iff {edges path : List Edge} {state : State} {w w' : World}
    {b : Bool} {calls : List (Call Edge State)}
    (h : Explore g cb edges path state w b calls w') :
    b = false ↔ Call.stop true ∈ calls := by
  induction h with
  | stopped _ => simp
  | exhausted _ => simp
  | pruned _ _ _ ih => simp [ih]
  | cut _ _ _ ih => simpa using ih
  | descend _ _ _ _ ih₁ ih₂ =>
      -- the child was exhausted, so the answer came from the edges after it
      have hchild : Call.stop true ∉ _ := fun hmem => by simpa using ih₁.mpr hmem
      simp [ih₂, hchild]

/-- **Invariant rule.** What every callback keeps, a search keeps. -/
theorem Explore.invariant {I : World → Prop} (hstop : ∀ w, I w → I (cb.stop_fn w).2)
    (hnext : ∀ state path w, I w → I (cb.next_state_fn state path w).2)
    (hback : ∀ parent popped path w, I w → I (cb.backtrack_fn parent popped path w))
    {edges path : List Edge} {state : State} {w w' : World} {b : Bool}
    {calls : List (Call Edge State)} (h : Explore g cb edges path state w b calls w') (hw : I w) :
    I w' := by
  have hasked : ∀ {w w₁ b}, cb.stop_fn w = (b, w₁) → I w → I w₁ := by
    intro w w₁ b heq hw
    have hw₁ := hstop w hw
    rwa [heq] at hw₁
  have htried : ∀ {w w₁ w₂ b state path answer}, cb.stop_fn w = (b, w₁) →
      cb.next_state_fn state path w₁ = (answer, w₂) → I w → I w₂ := by
    intro w w₁ w₂ b state path answer heq heq' hw
    have hw₂ := hnext state path w₁ (hasked heq hw)
    rwa [heq'] at hw₂
  induction h with
  | stopped hstop => exact hasked hstop hw
  | exhausted hstop => exact hasked hstop hw
  | pruned hstop hnext _ ih => exact ih (htried hstop hnext hw)
  | cut hstop hnext _ ih => exact ih (htried hstop hnext hw)
  | descend hstop hnext _ _ ih₁ ih₂ =>
      -- the child is left before the edges after it are tried
      apply ih₂
      apply hback
      exact ih₁ (htried hstop hnext hw)

/-! ## Logging callbacks

The same callbacks, with a log of the calls made of them among the captured
variables. Running any search with them makes its calls observable. -/

/-- Callbacks that append every call to a log. -/
def Callbacks.logged (cb : Callbacks Edge State World) :
    Callbacks Edge State (World × List (Call Edge State)) where
  next_state_fn prev path wl :=
    let (answer, w) := cb.next_state_fn prev path wl.1
    (answer, w, wl.2 ++ [.next prev path answer])
  backtrack_fn parent popped path wl :=
    (cb.backtrack_fn parent popped path wl.1, wl.2 ++ [.backtrack parent popped path])
  stop_fn wl :=
    let (answer, w) := cb.stop_fn wl.1
    (answer, w, wl.2 ++ [.stop answer])

theorem logged_stop_eq {wl wl' : World × List (Call Edge State)} {b : Bool} :
    cb.logged.stop_fn wl = (b, wl') ↔
      cb.stop_fn wl.1 = (b, wl'.1) ∧ wl'.2 = wl.2 ++ [.stop b] := by
  obtain ⟨w', l'⟩ := wl'
  cases hstop : cb.stop_fn wl.1 with
  | mk answer w =>
      simp only [Callbacks.logged, hstop, Prod.mk.injEq]
      constructor
      · rintro ⟨rfl, rfl, rfl⟩
        exact ⟨⟨rfl, rfl⟩, rfl⟩
      · rintro ⟨⟨rfl, rfl⟩, rfl⟩
        exact ⟨rfl, rfl, rfl⟩

theorem logged_next_eq {prev : State} {path : List Edge}
    {wl wl' : World × List (Call Edge State)} {o : Option State} :
    cb.logged.next_state_fn prev path wl = (o, wl') ↔
      cb.next_state_fn prev path wl.1 = (o, wl'.1) ∧ wl'.2 = wl.2 ++ [.next prev path o] := by
  obtain ⟨w', l'⟩ := wl'
  cases hnext : cb.next_state_fn prev path wl.1 with
  | mk answer w =>
      simp only [Callbacks.logged, hnext, Prod.mk.injEq]
      constructor
      · rintro ⟨rfl, rfl, rfl⟩
        exact ⟨⟨rfl, rfl⟩, rfl⟩
      · rintro ⟨⟨rfl, rfl⟩, rfl⟩
        exact ⟨rfl, rfl, rfl⟩

/-- The calls of a logged search are the ones its log gains. -/
theorem Explore.unlog {edges path : List Edge} {state : State}
    {wl wl' : World × List (Call Edge State)} {b : Bool} {calls : List (Call Edge State)}
    (h : Explore g cb.logged edges path state wl b calls wl') :
    Explore g cb edges path state wl.1 b calls wl'.1 ∧ wl'.2 = wl.2 ++ calls := by
  induction h with
  | stopped hstop =>
      obtain ⟨hstop, hlog⟩ := logged_stop_eq.mp hstop
      exact ⟨.stopped hstop, hlog⟩
  | exhausted hstop =>
      obtain ⟨hstop, hlog⟩ := logged_stop_eq.mp hstop
      exact ⟨.exhausted hstop, hlog⟩
  | pruned hstop hnext _ ih =>
      obtain ⟨hstop, hlog₁⟩ := logged_stop_eq.mp hstop
      obtain ⟨hnext, hlog₂⟩ := logged_next_eq.mp hnext
      exact ⟨.pruned hstop hnext ih.1, by simp [ih.2, hlog₂, hlog₁]⟩
  | cut hstop hnext _ ih =>
      obtain ⟨hstop, hlog₁⟩ := logged_stop_eq.mp hstop
      obtain ⟨hnext, hlog₂⟩ := logged_next_eq.mp hnext
      exact ⟨.cut hstop hnext ih.1, by simp [ih.2, hlog₂, hlog₁]⟩
  | descend hstop hnext _ _ ih₁ ih₂ =>
      obtain ⟨hstop, hlog₁⟩ := logged_stop_eq.mp hstop
      obtain ⟨hnext, hlog₂⟩ := logged_next_eq.mp hnext
      refine ⟨.descend hstop hnext ih₁.1 ih₂.1, ?_⟩
      simp [ih₂.2, Callbacks.logged, ih₁.2, hlog₂, hlog₁]

theorem logged_stop {w w' : World} {b : Bool} (h : cb.stop_fn w = (b, w'))
    (l : List (Call Edge State)) :
    cb.logged.stop_fn (w, l) = (b, w', l ++ [.stop b]) :=
  logged_stop_eq.mpr ⟨h, rfl⟩

theorem logged_next {prev : State} {path : List Edge} {w w' : World} {o : Option State}
    (h : cb.next_state_fn prev path w = (o, w')) (l : List (Call Edge State)) :
    cb.logged.next_state_fn prev path (w, l) = (o, w', l ++ [.next prev path o]) :=
  logged_next_eq.mpr ⟨h, rfl⟩

/-- A search can be replayed with logging callbacks, from any log. -/
theorem Explore.log {edges path : List Edge} {state : State} {w w' : World} {b : Bool}
    {calls : List (Call Edge State)} (h : Explore g cb edges path state w b calls w')
    (l : List (Call Edge State)) :
    Explore g cb.logged edges path state (w, l) b calls (w', l ++ calls) := by
  induction h generalizing l with
  | stopped hstop => exact .stopped (logged_stop hstop l)
  | exhausted hstop => exact .exhausted (logged_stop hstop l)
  | pruned hstop hnext _ ih =>
      have h := Explore.pruned (logged_stop hstop l) (logged_next hnext _) (ih _)
      simpa only [List.append_assoc, List.cons_append, List.nil_append] using h
  | @cut e edges _ _ _ _ _ _ _ _ hstop hnext _ ih =>
      have h : Explore g cb.logged (e :: edges) _ _ _ _ _ _ :=
        .cut (logged_stop hstop l) (logged_next hnext _) (ih _)
      simpa only [List.append_assoc, List.cons_append, List.nil_append] using h
  | descend hstop hnext _ _ ih₁ ih₂ =>
      have h := Explore.descend (logged_stop hstop l) (logged_next hnext _) (ih₁ _) (ih₂ _)
      simpa only [List.append_assoc, List.cons_append, List.nil_append] using h

end Reference

end LetterBoxed
