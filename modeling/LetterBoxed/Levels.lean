/-
The calls of a search, level by level.

A search that is not stopped tries all edges behind every path it follows. So
the paths of `n + 1` edges that it tries are the paths of `n` edges that it
followed, each with the edges behind it, in that order: what is searched below
one path comes between them, but has longer paths. How much work a search is
depends only on what it follows.

`Explore.compose` is the rule for statements about a search and its calls that
can be put together from those about single calls.
-/
import LetterBoxed.Reference

set_option autoImplicit false

namespace LetterBoxed

section Levels

variable {Node Edge State World : Type}

/-! ## Reading a log -/

/-- The path that `next_state_fn` was asked about. -/
def Call.tried : Call Edge State → Option (List Edge)
  | .next _ path _ => some path
  | _ => none

/-- The path, if the answer was to follow it. -/
def Call.followed : Call Edge State → Option (List Edge)
  | .next _ path (some _) => some path
  | _ => none

def Call.is_stop : Call Edge State → Bool
  | .stop _ => true
  | _ => false

/-- The paths that were tried. -/
def tried (calls : List (Call Edge State)) : List (List Edge) := calls.filterMap Call.tried

/-- The paths that were followed. -/
def followed (calls : List (Call Edge State)) : List (List Edge) := calls.filterMap Call.followed

/-- The paths of `n` edges that were tried. -/
def tried_at (n : Nat) (calls : List (Call Edge State)) : List (List Edge) :=
  (tried calls).filter fun path => path.length == n

/-- The paths of `n` edges that were followed. -/
def followed_at (n : Nat) (calls : List (Call Edge State)) : List (List Edge) :=
  (followed calls).filter fun path => path.length == n

/-- How often the loop of `dfs` was at its test, where it calls `stop_fn`. -/
def loop_tests (calls : List (Call Edge State)) : Nat := calls.countP Call.is_stop

/-- The path with each of the edges behind it. -/
def extensions (g : Graph Node Edge) (path : List Edge) : List (List Edge) :=
  match path.getLast? with
  | none => []
  | some e => (g.edges_view_of_fn (g.destination_of_fn e)).map fun e' => path ++ [e']

section Calls

variable (n : Nat) (calls calls' : List (Call Edge State)) (b : Bool) (state popped : State)
  (path : List Edge) (answer : Option State)

@[simp] theorem tried_nil : tried ([] : List (Call Edge State)) = [] := rfl

@[simp] theorem tried_append : tried (calls ++ calls') = tried calls ++ tried calls' :=
  List.filterMap_append

@[simp] theorem tried_stop : tried (.stop b :: calls) = tried calls := rfl

@[simp] theorem tried_backtrack : tried (.backtrack state popped path :: calls) = tried calls := rfl

@[simp] theorem tried_next : tried (.next state path answer :: calls) = path :: tried calls := rfl

@[simp] theorem followed_nil : followed ([] : List (Call Edge State)) = [] := rfl

@[simp] theorem followed_append :
    followed (calls ++ calls') = followed calls ++ followed calls' :=
  List.filterMap_append

@[simp] theorem followed_stop : followed (.stop b :: calls) = followed calls := rfl

@[simp] theorem followed_backtrack :
    followed (.backtrack state popped path :: calls) = followed calls := rfl

@[simp] theorem followed_pruned : followed (.next state path none :: calls) = followed calls := rfl

@[simp] theorem followed_next :
    followed (.next state path (some popped) :: calls) = path :: followed calls := rfl

@[simp] theorem tried_at_nil : tried_at n ([] : List (Call Edge State)) = [] := rfl

@[simp] theorem tried_at_append :
    tried_at n (calls ++ calls') = tried_at n calls ++ tried_at n calls' := by
  simp [tried_at]

@[simp] theorem tried_at_stop : tried_at n (.stop b :: calls) = tried_at n calls := rfl

@[simp] theorem tried_at_backtrack :
    tried_at n (.backtrack state popped path :: calls) = tried_at n calls := rfl

@[simp] theorem tried_at_next :
    tried_at n (.next state path answer :: calls) =
      (if path.length = n then [path] else []) ++ tried_at n calls := by
  by_cases hlen : path.length = n
  · simp [tried_at, hlen]
  · simp [tried_at, hlen]

@[simp] theorem followed_at_nil : followed_at n ([] : List (Call Edge State)) = [] := rfl

@[simp] theorem followed_at_append :
    followed_at n (calls ++ calls') = followed_at n calls ++ followed_at n calls' := by
  simp [followed_at]

@[simp] theorem followed_at_stop : followed_at n (.stop b :: calls) = followed_at n calls := rfl

@[simp] theorem followed_at_backtrack :
    followed_at n (.backtrack state popped path :: calls) = followed_at n calls := rfl

@[simp] theorem followed_at_pruned :
    followed_at n (.next state path none :: calls) = followed_at n calls := rfl

@[simp] theorem followed_at_next :
    followed_at n (.next state path (some popped) :: calls) =
      (if path.length = n then [path] else []) ++ followed_at n calls := by
  by_cases hlen : path.length = n
  · simp [followed_at, hlen]
  · simp [followed_at, hlen]

@[simp] theorem loop_tests_append :
    loop_tests (calls ++ calls') = loop_tests calls + loop_tests calls' :=
  List.countP_append

@[simp] theorem loop_tests_stop : loop_tests (.stop b :: calls) = loop_tests calls + 1 :=
  List.countP_cons_of_pos rfl

@[simp] theorem loop_tests_next :
    loop_tests (.next state path answer :: calls) = loop_tests calls :=
  List.countP_cons_of_neg (by simp [Call.is_stop])

@[simp] theorem loop_tests_backtrack :
    loop_tests (.backtrack state popped path :: calls) = loop_tests calls :=
  List.countP_cons_of_neg (by simp [Call.is_stop])

@[simp] theorem loop_tests_nil : loop_tests ([] : List (Call Edge State)) = 0 := rfl

end Calls

theorem extensions_concat (g : Graph Node Edge) (path : List Edge) (e : Edge) :
    extensions g (path ++ [e]) =
      (g.edges_view_of_fn (g.destination_of_fn e)).map fun e' => path ++ [e] ++ [e'] := by
  simp [extensions]

/-! ## Composing calls -/

variable {g : Graph Node Edge} {cb : Callbacks Edge State World} {edges path : List Edge}
  {state : State} {w w' : World} {b : Bool} {calls : List (Call Edge State)}

/-- **Composition rule.** What holds of every single call, made where `F` holds,
and of two runs of calls together if of both, holds of a search. -/
theorem Explore.compose {R : World → List (Call Edge State) → World → Prop}
    {F : List Edge → List Edge → State → Prop}
    (happend : ∀ {w₁ w₂ w₃ calls₁ calls₂}, R w₁ calls₁ w₂ → R w₂ calls₂ w₃ →
      R w₁ (calls₁ ++ calls₂) w₃)
    (hstop : ∀ {w w' b}, cb.stop_fn w = (b, w') → R w [.stop b] w')
    (hback : ∀ parent popped path w,
      R w [.backtrack parent popped path] (cb.backtrack_fn parent popped path w))
    (hnext : ∀ {e edges path state w w' answer}, F (e :: edges) path state →
      cb.next_state_fn state (path ++ [e]) w = (answer, w') →
      R w [.next state (path ++ [e]) answer] w')
    (htail : ∀ {e edges path state}, F (e :: edges) path state → F edges path state)
    (henter : ∀ {e edges path state state' w w'}, F (e :: edges) path state →
      cb.next_state_fn state (path ++ [e]) w = (some state', w') →
      F (g.edges_view_of_fn (g.destination_of_fn e)) (path ++ [e]) state')
    (h : Explore g cb edges path state w b calls w') (hF : F edges path state) :
    R w calls w' := by
  induction h with
  | stopped hs => exact hstop hs
  | exhausted hs => exact hstop hs
  | pruned hs hn _ ih =>
      exact happend (hstop hs) (happend (hnext hF hn) (ih (htail hF)))
  | cut hs hn _ ih =>
      exact happend (hstop hs) (happend (hnext hF hn) (ih (henter hF hn)))
  | descend hs hn _ _ ih₁ ih₂ =>
      have hchild := happend (hnext hF hn) (ih₁ (henter hF hn))
      exact happend (hstop hs) (happend hchild (happend (hback _ _ _ _) (ih₂ (htail hF))))

/-! ## Levels -/

/-- Below a path only longer ones are tried. -/
theorem Explore.tried_at_eq_nil (h : Explore g cb edges path state w b calls w') :
    ∀ n ≤ path.length, tried_at n calls = [] ∧ followed_at n calls = [] := by
  induction h with
  | stopped _ => exact fun n _ => ⟨rfl, rfl⟩
  | exhausted _ => exact fun n _ => ⟨rfl, rfl⟩
  | @pruned e edges path state w w₁ w₂ b calls w' _ _ _ ih =>
      intro n hn
      have hlen : ¬path.length + 1 = n := by omega
      simp [ih n hn, hlen]
  | @cut e edges path state state' w w₁ w₂ calls w' _ _ _ ih =>
      intro n hn
      have hlen : ¬path.length + 1 = n := by omega
      have hchild := ih n (by rw [List.length_append]; omega)
      simp [hchild, hlen]
  | @descend e edges path state state' w w₁ w₂ w₃ b calls₁ calls₂ w' _ _ _ _ ih₁ ih₂ =>
      intro n hn
      have hlen : ¬path.length + 1 = n := by omega
      have hchild := ih₁ n (by rw [List.length_append]; omega)
      simp [hchild, ih₂ n hn, hlen]

/-- **A search that is not stopped tries the edges it is given**, and the edges
behind every path it follows. -/
theorem Explore.levels (h : Explore g cb edges path state w b calls w') (hb : b = true) :
    tried_at (path.length + 1) calls = edges.map (fun e => path ++ [e]) ∧
      ∀ n, path.length < n →
        tried_at (n + 1) calls = (followed_at n calls).flatMap (extensions g) := by
  induction h with
  | stopped _ => cases hb
  | exhausted _ => exact ⟨rfl, fun n _ => rfl⟩
  | @pruned e edges path state w w₁ w₂ b calls w' _ _ _ ih =>
      obtain ⟨hfirst, hrest⟩ := ih hb
      refine ⟨by simp [hfirst], fun n hn => ?_⟩
      have hlen : ¬path.length = n := by omega
      simp [hrest n hn, hlen]
  | cut _ _ _ _ => cases hb
  | @descend e edges path state state' w w₁ w₂ w₃ b calls₁ calls₂ w' _ _ hchild _ ih₁ ih₂ =>
      obtain ⟨hfirst₁, hrest₁⟩ := ih₁ rfl
      obtain ⟨hfirst₂, hrest₂⟩ := ih₂ hb
      have hlen : (path ++ [e]).length = path.length + 1 := by simp
      rw [hlen] at hfirst₁ hrest₁
      obtain ⟨hnone, _⟩ := hchild.tried_at_eq_nil (path.length + 1) (by rw [hlen])
      refine ⟨by simp [hnone, hfirst₂], fun n hn => ?_⟩
      have hnext : ¬path.length = n := by omega
      by_cases hown : path.length + 1 = n
      · -- the edges behind the path that was just followed
        subst hown
        obtain ⟨_, hnone⟩ := hchild.tried_at_eq_nil (path.length + 1) (by rw [hlen])
        simp [hfirst₁, hrest₂ _ hn, hnone, extensions_concat]
      · simp [hrest₁ n (by omega), hrest₂ n hn, hown, hnext]

/-- Of the edges it is given, a stopped search has tried some, in order. -/
theorem Explore.tried_at_sublist (h : Explore g cb edges path state w b calls w') :
    List.Sublist (tried_at (path.length + 1) calls) (edges.map fun e => path ++ [e]) := by
  induction h with
  | stopped _ => exact List.nil_sublist _
  | exhausted _ => exact List.nil_sublist _
  | pruned _ _ _ ih =>
      simpa using ih
  | @cut e edges path state state' w w₁ w₂ calls w' _ _ hchild _ =>
      have hlen : (path ++ [e]).length = path.length + 1 := by simp
      obtain ⟨hnone, _⟩ := hchild.tried_at_eq_nil (path.length + 1) (by rw [hlen])
      simp [hnone]
  | @descend e edges path state state' w w₁ w₂ w₃ b calls₁ calls₂ w' _ _ hchild _ _ ih₂ =>
      have hlen : (path ++ [e]).length = path.length + 1 := by simp
      obtain ⟨hnone, _⟩ := hchild.tried_at_eq_nil (path.length + 1) (by rw [hlen])
      simpa [hnone] using ih₂

/-! ## Work -/

/-- **What a search tries** is the edges it is given and those behind what it
follows; stopped, it tries no more. -/
theorem Explore.tried_length_le (h : Explore g cb edges path state w b calls w') :
    (tried calls).length ≤
      edges.length + ((followed calls).map fun q => (extensions g q).length).sum := by
  induction h with
  | stopped _ => exact Nat.zero_le _
  | exhausted _ => exact Nat.zero_le _
  | pruned _ _ _ ih =>
      simp only [tried_stop, tried_next, followed_stop, followed_pruned, List.length_cons]
      omega
  | cut _ _ _ ih =>
      simp only [tried_stop, tried_next, followed_stop, followed_next, List.length_cons,
        List.map_cons, List.sum_cons, extensions_concat, List.length_map]
      omega
  | descend _ _ _ _ ih₁ ih₂ =>
      simp only [tried_stop, tried_next, tried_append, tried_backtrack, followed_stop,
        followed_next, followed_append, followed_backtrack, List.length_cons, List.length_append,
        List.map_cons, List.map_append, List.sum_cons, List.sum_append, extensions_concat,
        List.length_map]
      omega

/-- **A loop test for each call**: one before each path that is tried, one for
each node that is left, and the last. -/
theorem Explore.loop_tests_le (h : Explore g cb edges path state w b calls w') :
    loop_tests calls ≤ (tried calls).length + (followed calls).length + 1 := by
  induction h with
  | stopped _ => simp
  | exhausted _ => simp
  | pruned _ _ _ ih =>
      simp only [loop_tests_stop, loop_tests_next, tried_stop, tried_next, followed_stop,
        followed_pruned, List.length_cons]
      omega
  | cut _ _ _ ih =>
      simp only [loop_tests_stop, loop_tests_next, tried_stop, tried_next, followed_stop,
        followed_next, List.length_cons]
      omega
  | descend _ _ _ _ ih₁ ih₂ =>
      simp only [loop_tests_stop, loop_tests_next, loop_tests_append, loop_tests_backtrack,
        tried_stop, tried_next, tried_append, tried_backtrack, followed_stop, followed_next,
        followed_append, followed_backtrack, List.length_cons, List.length_append]
      omega

end Levels

end LetterBoxed
