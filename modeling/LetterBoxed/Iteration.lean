/-
One deepening iteration, read as a recursive search.

`dfs` is `Explore`, so a fact about an iteration is an induction over
`Explore` with the callbacks of `solve_raw`. What such an induction needs to
know about the place it is at is a `Frame`: the path is a chain, its hash is
the state of the search, and the edges still to be tried are edges of the node
it ends in.

The iterations differ in what they do with a path that is not final yet:
nothing (`extend_plain`, below the cache threshold and in the plain search) or
the cache test (`extend_cached`). The first half of the results, on what is
collected, holds for both; the second half is the completeness of the plain
iteration.
-/
import LetterBoxed.Chains
import LetterBoxed.DfsRefinement

set_option autoImplicit false

open Paths

namespace LetterBoxed

/-! ## The callbacks of an iteration -/

/-- What an iteration does with a path that is not final. -/
abbrev Extend := Nat → word_edge → char_mask_t → SearchState → Option char_mask_t × SearchState

/-- Every non-final path is extended. -/
def extend_plain : Extend := fun _ _ pathHash s => (some pathHash, s)

/-- The cache decides. -/
def extend_cached (nodes : nodes_t) (depth : Nat) : Extend := fun pathSize lastEdge pathHash s =>
  check_cache depth pathSize (nodes.get lastEdge.to).compressedIdx pathHash s

def iteration_callbacks (extend : Extend) (depth : Nat) (stop : SearchState → Bool) :
    Callbacks word_edge char_mask_t SearchState where
  next_state_fn := next_state_with extend depth
  backtrack_fn := default_backtrack_fn
  stop_fn s := (stop s, s)

/-- The stop test of `solve_raw`. -/
def enough (cfg : Settings) (s : SearchState) : Bool :=
  decide (cfg.MAX_SOLUTIONS ≤ s.solutions.length)

theorem search_callbacks_plain {cfg : Settings} {nodes : nodes_t} {depth : Nat}
    (h : depth ≤ cfg.STATE_CACHE_MIN_DEPTH) :
    search_callbacks cfg nodes depth = iteration_callbacks extend_plain depth (enough cfg) := by
  simp only [search_callbacks, next_state_fn, if_pos h]
  rfl

theorem search_callbacks_cached {cfg : Settings} {nodes : nodes_t} {depth : Nat}
    (h : ¬depth ≤ cfg.STATE_CACHE_MIN_DEPTH) :
    search_callbacks cfg nodes depth =
      iteration_callbacks (extend_cached nodes depth) depth (enough cfg) := by
  simp only [search_callbacks, next_state_fn, if_neg h]
  rfl

/-- An extension collects nothing, and if it goes on, then with the hash of
the path. -/
def Neutral (extend : Extend) : Prop :=
  ∀ pathSize e pathHash s, (extend pathSize e pathHash s).2.solutions = s.solutions ∧
    ∀ mask, (extend pathSize e pathHash s).1 = some mask → mask = pathHash

theorem neutral_plain : Neutral extend_plain := by
  intro pathSize e pathHash s
  exact ⟨rfl, fun mask h => (Option.some.inj h).symm⟩

theorem neutral_cached (nodes : nodes_t) (depth : Nat) : Neutral (extend_cached nodes depth) := by
  intro pathSize e pathHash s
  simp only [extend_cached, check_cache]
  split
  · exact ⟨rfl, fun mask h => absurd h (Option.some_ne_none mask).symm⟩
  · split
    · exact ⟨rfl, fun mask h => absurd h (Option.some_ne_none mask).symm⟩
    · exact ⟨rfl, fun mask h => (Option.some.inj h).symm⟩

section Step

variable {extend : Extend} {depth : Nat} {stop : SearchState → Bool}

/-- A path of the router edge alone is always extended, with no letters. -/
theorem next_state_router (mask : char_mask_t) (r : word_edge) (w : SearchState) :
    next_state_with extend depth mask ([] ++ [r]) w = (some 0#32, w) := rfl

/-- Every longer path is a solution test at `depth` and is extended before. -/
theorem next_state_node {path : List word_edge} (hne : path ≠ []) (mask : char_mask_t)
    (e : word_edge) (w : SearchState) :
    next_state_with extend depth mask (path ++ [e]) w =
      if path.length + 1 = depth then
        (none, if mask ||| e.wordHash = solution_mask then
          { w with solutions := w.solutions ++ [path ++ [e]] } else w)
      else extend (path.length + 1) e (mask ||| e.wordHash) w := by
  have hpos : 0 < path.length := List.length_pos_iff.mpr hne
  have hsize : ¬path.length + 1 ≤ 1 := by omega
  simp only [next_state_with, List.getLast?_concat, List.length_append, List.length_singleton,
    if_neg hsize]

end Step

/-! ## Frames -/

/-- Where an iteration can be: at the router with no path, or at the end of a
chain with edges of its last node left. -/
inductive Frame (nodes : nodes_t) : List word_edge → List word_edge → char_mask_t → Prop
  | root {edges} (hedges : edges <:+ router_node.outgoing) : Frame nodes edges [] 0#32
  | node {edges r es} (hchain : IsChain nodes r es)
      (hedges : edges <:+ outgoing nodes (path_state nodes (r :: es)).1) :
      Frame nodes edges (r :: es) (path_state nodes (r :: es)).2

section Frame

variable {nodes : nodes_t} {e : word_edge} {edges path : List word_edge} {mask : char_mask_t}

theorem Frame.tail (h : Frame nodes (e :: edges) path mask) : Frame nodes edges path mask := by
  cases h with
  | root hedges => exact .root ((List.suffix_cons e edges).trans hedges)
  | node hchain hedges => exact .node hchain ((List.suffix_cons e edges).trans hedges)

theorem Frame.nodup (hnodes : WellHashed nodes) (h : Frame nodes edges path mask) :
    edges.Nodup := by
  cases h with
  | root hedges => exact router_nodup.sublist hedges.sublist
  | node hchain hedges => exact (hnodes.outgoing_nodup _).sublist hedges.sublist

/-- The frame below the router. -/
theorem Frame.enter_router (h : Frame nodes (e :: edges) [] mask) :
    Frame nodes (outgoing nodes e.to) [e] 0#32 := by
  cases h with
  | root hedges =>
      exact .node ⟨hedges.subset List.mem_cons_self, trivial⟩ (List.suffix_refl _)

/-- At the end of a chain: the state of the frame, its next edge is enabled
there, and following it leads to the state of the longer path. -/
theorem Frame.at_node (hne : path ≠ []) (h : Frame nodes (e :: edges) path mask) :
    mask = (path_state nodes path).2 ∧ (chains nodes).enabled (path_state nodes path) e ∧
      ∃ r es, path = r :: es ∧ IsChain nodes r es := by
  cases h with
  | root hedges => exact absurd rfl hne
  | node hchain hedges =>
      exact ⟨rfl, hedges.subset List.mem_cons_self, _, _, rfl, hchain⟩

/-- The chain with the next edge of a frame at its end. -/
theorem Frame.extended (hne : path ≠ []) (h : Frame nodes (e :: edges) path mask) :
    (∃ r es, path ++ [e] = r :: es ∧ IsChain nodes r es) ∧
      path_state nodes (path ++ [e]) = (e.to, mask ||| e.wordHash) := by
  obtain ⟨hmask, henabled, r, es, rfl, hchain⟩ := h.at_node hne
  refine ⟨⟨r, es ++ [e], rfl, hchain.router, ?_⟩, ?_⟩
  · rw [isPath_append]
    exact ⟨hchain.path, henabled, trivial⟩
  · rw [path_state_concat hne, chains_next, hmask]

/-- The frame below an edge of a chain. -/
theorem Frame.enter_node (hne : path ≠ []) (h : Frame nodes (e :: edges) path mask) :
    Frame nodes (outgoing nodes e.to) (path ++ [e]) (mask ||| e.wordHash) := by
  obtain ⟨⟨r, es, heq, hchain⟩, hstate⟩ := h.extended hne
  have hframe : Frame nodes (outgoing nodes (path_state nodes (r :: es)).1) (r :: es) _ :=
    .node hchain (List.suffix_refl _)
  rw [← heq, hstate] at hframe
  exact hframe

/-- Whatever the extension, the frame below an edge that is followed. -/
theorem Frame.enter {extend : Extend} (hext : Neutral extend) {depth : Nat} {w w' : SearchState}
    {mask' : char_mask_t} (h : Frame nodes (e :: edges) path mask)
    (hnext : next_state_with extend depth mask (path ++ [e]) w = (some mask', w')) :
    Frame nodes (outgoing nodes e.to) (path ++ [e]) mask' := by
  by_cases hne : path = []
  · subst hne
    rw [next_state_router] at hnext
    cases hnext
    exact h.enter_router
  · rw [next_state_node hne] at hnext
    by_cases hdepth : path.length + 1 = depth
    · -- at the final depth no edge is followed
      rw [if_pos hdepth] at hnext
      cases hnext
    · rw [if_neg hdepth] at hnext
      have hmask := (hext (path.length + 1) e (mask ||| e.wordHash) w).2 mask' (by rw [hnext])
      rw [hmask]
      exact h.enter_node hne

/-- What one call of `next_state_fn` collects: nothing, or at `depth` the path
itself if it covers the box. -/
theorem Frame.collects {extend : Extend} (hext : Neutral extend) {depth : Nat}
    {w w' : SearchState} {answer : Option char_mask_t} (h : Frame nodes (e :: edges) path mask)
    (hnext : next_state_with extend depth mask (path ++ [e]) w = (answer, w')) :
    w'.solutions = w.solutions ∨
      (answer = none ∧ w'.solutions = w.solutions ++ [path ++ [e]] ∧
        IsRawSolution nodes depth (path ++ [e])) := by
  by_cases hne : path = []
  · subst hne
    rw [next_state_router] at hnext
    cases hnext
    exact .inl rfl
  · rw [next_state_node hne] at hnext
    by_cases hdepth : path.length + 1 = depth
    · rw [if_pos hdepth] at hnext
      by_cases hcover : mask ||| e.wordHash = solution_mask
      · -- the one place where a path is collected
        rw [if_pos hcover] at hnext
        cases hnext
        obtain ⟨hchain, hstate⟩ := h.extended hne
        refine .inr ⟨rfl, rfl, by simpa using hdepth, hchain, ?_⟩
        rw [Covers, hstate]
        exact hcover
      · rw [if_neg hcover] at hnext
        cases hnext
        exact .inl rfl
    · rw [if_neg hdepth] at hnext
      have hsolutions := (hext (path.length + 1) e (mask ||| e.wordHash) w).1
      rw [hnext] at hsolutions
      exact .inl hsolutions

end Frame

/-- **Every call is made at a frame**: a path that `next_state_fn` is asked
about is the chain of a frame with its next edge. -/
theorem explore_asks {nodes : nodes_t} {extend : Extend} (hext : Neutral extend) {depth : Nat}
    {stop : SearchState → Bool} {edges path : List word_edge} {mask : char_mask_t}
    {w w' : SearchState} {b : Bool} {calls : List (Call word_edge char_mask_t)}
    (h : Explore (word_graph nodes) (iteration_callbacks extend depth stop) edges path mask w b
      calls w') (hframe : Frame nodes edges path mask) {prev : char_mask_t} {q : List word_edge}
    {answer : Option char_mask_t} (hcall : Call.next prev q answer ∈ calls) :
    ∃ e edges' path', q = path' ++ [e] ∧ Frame nodes (e :: edges') path' prev := by
  induction h with
  | stopped _ => simp at hcall
  | exhausted _ => simp at hcall
  | @pruned e edges path mask w w₁ w₂ b calls w' _ _ _ ih =>
      simp only [List.mem_cons, reduceCtorEq, false_or, Call.next.injEq] at hcall
      rcases hcall with ⟨rfl, rfl, rfl⟩ | hcall
      · exact ⟨e, edges, path, rfl, hframe⟩
      · exact ih hframe.tail hcall
  | @cut e edges path mask mask' w w₁ w₂ calls w' _ hnext _ ih =>
      simp only [List.mem_cons, reduceCtorEq, false_or, Call.next.injEq] at hcall
      rcases hcall with ⟨rfl, rfl, rfl⟩ | hcall
      · exact ⟨e, edges, path, rfl, hframe⟩
      · exact ih (hframe.enter hext hnext) hcall
  | @descend e edges path mask mask' w w₁ w₂ w₃ b calls₁ calls₂ w' _ hnext _ _ ih₁ ih₂ =>
      simp only [List.mem_cons, List.mem_append, reduceCtorEq, false_or, Call.next.injEq] at hcall
      rcases hcall with ⟨rfl, rfl, rfl⟩ | hcall | hcall
      · exact ⟨e, edges, path, rfl, hframe⟩
      · exact ih₁ (hframe.enter hext hnext) hcall
      · exact ih₂ hframe.tail hcall

/-! ## What an iteration collects -/

section Collected

variable {nodes : nodes_t} {extend : Extend} {depth : Nat} {stop : SearchState → Bool}
  {edges path : List word_edge} {mask : char_mask_t} {w w' : SearchState} {b : Bool}
  {calls : List (Call word_edge char_mask_t)}

theorem stop_eq {w₁ : SearchState}
    (h : (iteration_callbacks extend depth stop).stop_fn w = (b, w₁)) : stop w = b ∧ w₁ = w := by
  obtain ⟨hb, hw⟩ := Prod.mk.inj h
  exact ⟨hb, hw.symm⟩

/-- A list that extends two paths by one edge extends them by the same. -/
theorem prefix_edge_unique {e e' : word_edge} {q : List word_edge} (h : path ++ [e] <+: q)
    (h' : path ++ [e'] <+: q) : e = e' := by
  have heq := List.prefix_or_prefix_of_prefix h h'
  have hlen : (path ++ [e]).length = (path ++ [e']).length := by simp
  rcases heq with hp | hp
  · simpa using hp.eq_of_length hlen
  · simpa using (hp.eq_of_length hlen.symm).symm

/-- `q` goes on from `path` with one of `edges`. -/
def Through (path edges q : List word_edge) : Prop := ∃ e ∈ edges, path ++ [e] <+: q

theorem Through.later {e : word_edge} {q : List word_edge} (h : Through path edges q) :
    Through path (e :: edges) q := by
  obtain ⟨e', he', hp⟩ := h
  exact ⟨e', List.mem_cons_of_mem e he', hp⟩

theorem Through.first {e : word_edge} {q : List word_edge} (hp : path ++ [e] <+: q) :
    Through path (e :: edges) q :=
  ⟨e, List.mem_cons_self, hp⟩

/-- What goes on from a longer path goes on from it. -/
theorem Through.prefix_path {q : List word_edge} (h : Through path edges q) : path <+: q := by
  obtain ⟨e, _, hp⟩ := h
  exact (List.prefix_append path [e]).trans hp

/-- What is found below one edge and below later ones is found once. -/
theorem nodup_found {e : word_edge} {found₁ found₂ : List (List word_edge)}
    (he : e ∉ edges) (h₁ : found₁.Nodup) (h₂ : found₂.Nodup)
    (hp₁ : ∀ q ∈ found₁, path ++ [e] <+: q) (hp₂ : ∀ q ∈ found₂, Through path edges q) :
    (found₁ ++ found₂).Nodup := by
  refine List.nodup_append.mpr ⟨h₁, h₂, fun q hq q' hq' heq => ?_⟩
  subst heq
  obtain ⟨e', he', hp'⟩ := hp₂ q hq'
  rw [prefix_edge_unique (hp₁ q hq) hp'] at he
  exact he he'

/-- What a search below a frame has found: raw solutions, each once, and each
through one of the frame's edges. -/
structure Found (nodes : nodes_t) (depth : Nat) (path edges : List word_edge)
    (found : List (List word_edge)) : Prop where
  nodup : found.Nodup
  isRaw : ∀ q ∈ found, IsRawSolution nodes depth q
  through : ∀ q ∈ found, Through path edges q

theorem found_nil : Found nodes depth path edges [] := by
  refine ⟨.nil, ?_, ?_⟩
  · simp
  · simp

/-- A solution that is collected at an edge. -/
theorem found_singleton {e : word_edge} (h : IsRawSolution nodes depth (path ++ [e])) :
    Found nodes depth path [e] [path ++ [e]] := by
  refine ⟨List.nodup_singleton _, ?_, ?_⟩
  · simpa using h
  · simpa using Through.first List.prefix_rfl

theorem Found.later {e : word_edge} {found : List (List word_edge)}
    (h : Found nodes depth path edges found) : Found nodes depth path (e :: edges) found :=
  ⟨h.nodup, h.isRaw, fun q hq => (h.through q hq).later⟩

/-- What was found below an edge was found through it. -/
theorem Found.below {e : word_edge} {below : List word_edge} {found : List (List word_edge)}
    (h : Found nodes depth (path ++ [e]) below found) : Found nodes depth path [e] found :=
  ⟨h.nodup, h.isRaw, fun q hq => .first (h.through q hq).prefix_path⟩

/-- What was found through the first edge, and then through the others. -/
theorem Found.append {e : word_edge} {found₁ found₂ : List (List word_edge)} (he : e ∉ edges)
    (h₁ : Found nodes depth path [e] found₁) (h₂ : Found nodes depth path edges found₂) :
    Found nodes depth path (e :: edges) (found₁ ++ found₂) := by
  have hfirst : ∀ q ∈ found₁, path ++ [e] <+: q := by
    intro q hq
    obtain ⟨e', he', hp⟩ := h₁.through q hq
    rwa [List.mem_singleton.mp he'] at hp
  refine ⟨nodup_found he h₁.nodup h₂.nodup hfirst h₂.through, fun q hq => ?_, fun q hq => ?_⟩
  · rcases List.mem_append.mp hq with hq | hq
    · exact h₁.isRaw q hq
    · exact h₂.isRaw q hq
  · rcases List.mem_append.mp hq with hq | hq
    · exact .first (hfirst q hq)
    · exact (h₂.through q hq).later

/-- **What is collected.** A search below a frame appends raw solutions, each
once, and each through one of the frame's edges. -/
theorem explore_solutions (hnodes : WellHashed nodes) (hext : Neutral extend)
    (h : Explore (word_graph nodes) (iteration_callbacks extend depth stop) edges path mask w b
      calls w') (hframe : Frame nodes edges path mask) :
    ∃ found, w'.solutions = w.solutions ++ found ∧ Found nodes depth path edges found := by
  induction h with
  | stopped hstop =>
      obtain ⟨_, rfl⟩ := stop_eq hstop
      exact ⟨[], (List.append_nil _).symm, found_nil⟩
  | exhausted hstop =>
      obtain ⟨_, rfl⟩ := stop_eq hstop
      exact ⟨[], (List.append_nil _).symm, found_nil⟩
  | @pruned e edges path mask w w₁ w₂ b calls w' hstop hnext _ ih =>
      obtain ⟨_, rfl⟩ := stop_eq hstop
      obtain ⟨found, hsol, hfound⟩ := ih hframe.tail
      have he : e ∉ edges := (List.nodup_cons.mp (hframe.nodup hnodes)).1
      -- a pruned edge is where a solution may have been collected
      rcases hframe.collects hext hnext with hsame | ⟨_, hadd, hraw⟩
      · rw [hsame] at hsol
        exact ⟨found, hsol, hfound.later⟩
      · refine ⟨[path ++ [e]] ++ found, ?_, (found_singleton hraw).append he hfound⟩
        rw [hsol, hadd, List.append_assoc]
  | @cut e edges path mask mask' w w₁ w₂ calls w' hstop hnext _ ih =>
      obtain ⟨_, rfl⟩ := stop_eq hstop
      obtain ⟨found, hsol, hfound⟩ := ih (hframe.enter hext hnext)
      rcases hframe.collects hext hnext with hsame | ⟨hnone, _⟩
      · rw [hsame] at hsol
        refine ⟨found, hsol, hfound.nodup, hfound.isRaw, fun q hq => ?_⟩
        exact .first (hfound.through q hq).prefix_path
      · cases hnone
  | @descend e edges path mask mask' w w₁ w₂ w₃ b calls₁ calls₂ w' hstop hnext _ _ ih₁ ih₂ =>
      obtain ⟨_, rfl⟩ := stop_eq hstop
      obtain ⟨found₁, hsol₁, hfound₁⟩ := ih₁ (hframe.enter hext hnext)
      obtain ⟨found₂, hsol₂, hfound₂⟩ := ih₂ hframe.tail
      have he : e ∉ edges := (List.nodup_cons.mp (hframe.nodup hnodes)).1
      -- the solver's `backtrack_fn` does nothing
      have hback : (iteration_callbacks extend depth stop).backtrack_fn mask mask' (path ++ [e]) w₃
          = w₃ := rfl
      rcases hframe.collects hext hnext with hsame | ⟨hnone, _⟩
      · refine ⟨found₁ ++ found₂, ?_, hfound₁.below.append he hfound₂⟩
        rw [hsol₂, hback, hsol₁, hsame, List.append_assoc]
      · cases hnone

/-- If each test of `stop` leaves room for one more solution, the number of
solutions stays within the cap. -/
theorem explore_cap (hext : Neutral extend) {cap : Nat}
    (hcap : ∀ s, stop s = false → s.solutions.length < cap)
    (h : Explore (word_graph nodes) (iteration_callbacks extend depth stop) edges path mask w b
      calls w') (hframe : Frame nodes edges path mask) (hw : w.solutions.length ≤ cap) :
    w'.solutions.length ≤ cap := by
  have hroom : ∀ {e edges path mask w w₂ answer}, Frame nodes (e :: edges) path mask →
      stop w = false →
      next_state_with extend depth mask (path ++ [e]) w = (answer, w₂) →
      w₂.solutions.length ≤ cap := by
    -- a call collects at most one path, and `stop` has just left room for it
    intro e edges path mask w w₂ answer hframe hstop hnext
    have hlt := hcap w hstop
    rcases hframe.collects hext hnext with hsame | ⟨_, hadd, _⟩
    · rw [hsame]
      omega
    · rw [hadd, List.length_append, List.length_singleton]
      omega
  induction h with
  | stopped hstop =>
      obtain ⟨_, rfl⟩ := stop_eq hstop
      exact hw
  | exhausted hstop =>
      obtain ⟨_, rfl⟩ := stop_eq hstop
      exact hw
  | pruned hstop hnext _ ih =>
      obtain ⟨hfalse, rfl⟩ := stop_eq hstop
      exact ih hframe.tail (hroom hframe hfalse hnext)
  | cut hstop hnext _ ih =>
      obtain ⟨hfalse, rfl⟩ := stop_eq hstop
      exact ih (hframe.enter hext hnext) (hroom hframe hfalse hnext)
  | descend hstop hnext _ _ ih₁ ih₂ =>
      obtain ⟨hfalse, rfl⟩ := stop_eq hstop
      exact ih₂ hframe.tail (ih₁ (hframe.enter hext hnext) (hroom hframe hfalse hnext))

/-- A search that was stopped ends with variables at which `stop` is true. -/
theorem explore_stopped
    (h : Explore (word_graph nodes) (iteration_callbacks extend depth stop) edges path mask w b
      calls w') (hb : b = false) : stop w' = true := by
  induction h with
  | stopped hstop =>
      obtain ⟨htrue, rfl⟩ := stop_eq hstop
      exact htrue
  | exhausted _ => cases hb
  | pruned _ _ _ ih => exact ih hb
  | cut _ _ _ ih => exact ih rfl
  | descend _ _ _ _ _ ih₂ => exact ih₂ hb

end Collected

/-! ## The plain iteration finds everything -/

section Plain

variable {nodes : nodes_t} {depth : Nat} {stop : SearchState → Bool}
  {edges path : List word_edge} {mask : char_mask_t} {w w' : SearchState} {b : Bool}
  {calls : List (Call word_edge char_mask_t)}

/-- A path ends in the node its last edge leads to. -/
theorem path_state_concat_node (path : List word_edge) (e : word_edge) :
    (path_state nodes (path ++ [e])).1 = e.to := by
  by_cases hne : path = []
  · subst hne
    rfl
  · rw [path_state_concat hne, chains_next]

/-- A solution longer than a path it extends goes on with an edge of the node
the path ends in. -/
theorem IsRawSolution.next_edge {e : word_edge} {q : List word_edge}
    (h : IsRawSolution nodes depth q) (hp : path ++ [e] <+: q) (hlt : path.length + 1 < depth) :
    ∃ e' ∈ outgoing nodes e.to, path ++ [e] ++ [e'] <+: q := by
  obtain ⟨rest, rfl⟩ := hp
  cases rest with
  | nil =>
      -- the path itself is too short
      have hlen := h.length_eq
      rw [List.append_nil, List.length_append, List.length_singleton] at hlen
      omega
  | cons e' rest =>
      refine ⟨e', ?_, rest, by simp⟩
      obtain ⟨r, es, heq, hchain⟩ := h.chain
      obtain ⟨r', es', hpath⟩ := List.exists_cons_of_ne_nil (List.append_ne_nil_of_right_ne_nil path (List.cons_ne_nil e []))
      rw [hpath, List.cons_append, List.cons.injEq] at heq
      obtain ⟨rfl, rfl⟩ := heq
      have henabled := hchain.path
      rw [isPath_append, isPath_cons] at henabled
      have hnode : (path_state nodes (path ++ [e])).1 = e.to := path_state_concat_node path e
      rw [hpath] at hnode
      exact hnode ▸ henabled.2.1

/-- A plain search prunes a path only at the final depth, and has collected it
by then if it covers the box. -/
theorem plain_pruned {e : word_edge}
    (hnext : next_state_with extend_plain depth mask (path ++ [e]) w = (none, w')) :
    path.length + 1 = depth ∧
      (mask ||| e.wordHash = solution_mask → path ++ [e] ∈ w'.solutions) := by
  by_cases hne : path = []
  · rw [hne, next_state_router] at hnext
    cases hnext
  · rw [next_state_node hne] at hnext
    by_cases hfinal : path.length + 1 = depth
    · rw [if_pos hfinal] at hnext
      refine ⟨hfinal, fun hcover => ?_⟩
      rw [if_pos hcover] at hnext
      cases hnext
      exact List.mem_append_right _ (List.mem_singleton_self _)
    · rw [if_neg hfinal] at hnext
      cases hnext

/-- Any search goes on only before the final depth. -/
theorem next_state_some_lt {extend : Extend} {e : word_edge} {mask' : char_mask_t}
    (hdepth : 2 ≤ depth) (hlen : path.length < depth)
    (hnext : next_state_with extend depth mask (path ++ [e]) w = (some mask', w')) :
    path.length + 1 < depth := by
  by_cases hne : path = []
  · rw [hne, List.length_nil]
    omega
  · rw [next_state_node hne] at hnext
    by_contra hge
    rw [if_pos (by omega)] at hnext
    cases hnext

/-- **Plain search is complete.** Without the cache, a search below a frame
that is not stopped collects every raw solution that goes through the frame. -/
theorem explore_plain_complete (hnodes : WellHashed nodes) (hdepth : 2 ≤ depth)
    (h : Explore (word_graph nodes) (iteration_callbacks extend_plain depth stop) edges path mask w b
      calls w') (hframe : Frame nodes edges path mask) (hlen : path.length < depth)
    (hb : b = true) :
    ∀ e ∈ edges, ∀ q, path ++ [e] <+: q → IsRawSolution nodes depth q → q ∈ w'.solutions := by
  induction h with
  | stopped _ => cases hb
  | exhausted _ => exact fun e he => nomatch he
  | @pruned e edges path mask w w₁ w₂ b calls w' hstop hnext hrest ih =>
      intro e' he' q hp hq
      rcases List.mem_cons.mp he' with rfl | he'
      · -- pruned at the final depth, so the solution is the path itself
        obtain ⟨hfinal, hcollect⟩ := plain_pruned hnext
        have hlast : path ++ [e'] = q := hp.eq_of_length (by
          rw [hq.length_eq, List.length_append, List.length_singleton, hfinal])
        have hne : path ≠ [] := by
          rintro rfl
          rw [List.length_nil] at hfinal
          omega
        have hcover := hq.covers
        rw [← hlast, Covers, (hframe.extended hne).2] at hcover
        obtain ⟨found, hsol, _⟩ := explore_solutions hnodes neutral_plain hrest hframe.tail
        rw [hsol, ← hlast]
        exact List.mem_append_left found (hcollect hcover)
      · exact ih hframe.tail hlen hb e' he' q hp hq
  | cut _ _ _ _ => cases hb
  | @descend e edges path mask mask' w w₁ w₂ w₃ b calls₁ calls₂ w' hstop hnext _ hrest ih₁ ih₂ =>
      intro e' he' q hp hq
      rcases List.mem_cons.mp he' with rfl | he'
      · -- followed, so the solution goes on below and was collected there
        have hdeep := next_state_some_lt hdepth hlen hnext
        obtain ⟨e'', he'', hp'⟩ := hq.next_edge hp hdeep
        have hchild := ih₁ (hframe.enter neutral_plain hnext) (by simpa using hdeep) rfl e'' he''
          q hp' hq
        obtain ⟨found, hsol, _⟩ := explore_solutions hnodes neutral_plain hrest hframe.tail
        rw [hsol]
        exact List.mem_append_left found hchild
      · exact ih₂ hframe.tail hlen hb e' he' q hp hq

end Plain

end LetterBoxed
