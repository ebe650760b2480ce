/-
The search with the cache lists what a breadth-first search lists.

`solve_raw` deepens a depth-first search and keeps a cache from one iteration
to the next. Its result is that of a breadth-first search over the states that
follows one path to each: the first, in the order of the edges, among the
shortest. Iteration by iteration, the paths that are followed are the entries
of the rounds, so what an iteration collects are the paths to a cover by one
move behind the entries of its last round.

The stop at `MAX_SOLUTIONS` cuts the list, and the next iteration would only
add to what is cut off.

The threshold `STATE_CACHE_MIN_DEPTH` is at most 2 here, as in the repository.
A later first iteration with the cache has no distances to go by and may
follow longer paths first.
-/
import LetterBoxed.CacheOrder

set_option autoImplicit false

open Paths

namespace LetterBoxed

/-! ## The abstract search -/

instance : DecidablePred Covers := fun s => inferInstanceAs (Decidable (s.2 = solution_mask))

/-- The chains over a graph, in the order of its edges. -/
def chain_search (nodes : nodes_t) : Listed search_node word_edge where
  moves s := outgoing nodes s.1
  next s e := (e.to, s.2 ||| e.wordHash)
  goal s := decide (Covers s)

/-- No word used yet, at each node. -/
def start_nodes : List search_node := (List.finRange BOX_CHARS).map fun i => (i, 0#32)

/-- The router's edge to a node. -/
def router_edge (i : Fin BOX_CHARS) : word_edge :=
  { wordHash := 0#32, «to» := i, wordVariantIdxs := [] }

/-- A path as `dfs` has it, behind an edge from the router. -/
def raw_path (t : search_node × List word_edge) : List word_edge := router_edge t.1.1 :: t.2

/-- What a breadth-first search of `MAX_SEARCH_SIZE` rounds lists, cut at
`MAX_SOLUTIONS`. -/
def breadth_first (cfg : Settings) (nodes : nodes_t) : List (List word_edge) :=
  (((chain_search nodes).breadth_first start_nodes cfg.MAX_SEARCH_SIZE).map raw_path).take
    cfg.MAX_SOLUTIONS

variable {cfg : Settings} {nodes : nodes_t} {depth : Nat}

theorem mem_start_nodes {s : search_node} : s ∈ start_nodes ↔ s ∈ starts := by
  unfold start_nodes starts
  rw [List.mem_map]
  constructor
  · rintro ⟨i, _, rfl⟩
    rfl
  · intro hs
    refine ⟨s.1, List.mem_finRange s.1, ?_⟩
    rw [← show s.2 = 0#32 from hs]

theorem set_start_nodes : {s | s ∈ start_nodes} = starts := Set.ext fun _ => mem_start_nodes

theorem start_nodes_nodup : start_nodes.Nodup := by
  apply (List.nodup_finRange BOX_CHARS).map
  intro i j h
  exact congrArg Prod.fst h

/-- Edges behind a raw path are the moves behind the entry. -/
theorem extensions_raw_path (t : search_node × List word_edge) :
    extensions (word_graph nodes) (raw_path t) = ((chain_search nodes).extend t).map raw_path := by
  obtain ⟨s, es⟩ := t
  rcases es.eq_nil_or_concat' with rfl | ⟨es, e, rfl⟩
  · unfold Listed.extend
    rw [List.map_map]
    rfl
  · unfold Listed.extend
    rw [leads_to_extended, List.map_map]
    exact extensions_concat _ (router_edge s.1 :: es) e

/-- A raw path ends in the state its entry leads to. -/
theorem path_state_raw_path {t : search_node × List word_edge} (h : t.1 ∈ start_nodes) :
    path_state nodes (raw_path t) = (chain_search nodes).leads_to t := by
  obtain ⟨⟨i, mask⟩, es⟩ := t
  have hmask : mask = 0#32 := mem_start_nodes.mp h
  subst hmask
  rfl

/-! ## What a search collects -/

section Search

variable {extend : Extend} {stop : SearchState → Bool} {edges path : List word_edge}
  {mask : char_mask_t} {w w' : SearchState} {b : Bool}
  {calls : List (Call word_edge char_mask_t)}

/-- A search collects the covering paths among those of the final depth that it
tries, in order. -/
theorem explore_collects (hext : Neutral extend) (hdepth : 2 ≤ depth)
    (h : Explore (word_graph nodes) (iteration_callbacks extend depth stop) edges path mask w b
      calls w') (hframe : Frame nodes edges path mask) :
    w'.solutions =
      w.solutions ++ (tried_at depth calls).filter fun q => decide (Covers (path_state nodes q)) := by
  refine Explore.compose (R := fun w calls w' => w'.solutions = w.solutions ++
      (tried_at depth calls).filter fun q => decide (Covers (path_state nodes q)))
    (F := fun edges path mask => Frame nodes edges path mask) ?_ ?_ ?_ ?_ ?_ ?_ h hframe
  · intro w₁ w₂ w₃ calls₁ calls₂ h₁ h₂
    rw [h₂, h₁, tried_at_append, List.filter_append, List.append_assoc]
  · intro w w' b hstop
    obtain ⟨_, rfl⟩ := stop_eq hstop
    exact (List.append_nil _).symm
  · exact fun _ _ _ w => (List.append_nil w.solutions).symm
  · intro e edges path mask w w' answer hframe hnext
    have hlen : (path ++ [e]).length = path.length + 1 := by simp
    change next_state_with extend depth mask (path ++ [e]) w = (answer, w') at hnext
    rw [tried_at_next, tried_at_nil, List.append_nil, hlen]
    by_cases hne : path = []
    · subst hne
      rw [next_state_router, Prod.mk.injEq] at hnext
      rw [if_neg (by rw [List.length_nil]; omega), ← hnext.2]
      exact (List.append_nil _).symm
    rw [next_state_node hne] at hnext
    by_cases hfinal : path.length + 1 = depth
    · obtain ⟨_, hstate⟩ := hframe.extended hne
      rw [if_pos hfinal, Prod.mk.injEq] at hnext
      rw [if_pos hfinal, List.filter_singleton, hstate, ← hnext.2]
      by_cases hcover : mask ||| e.wordHash = solution_mask
      · have hcovers : decide (Covers (e.to, mask ||| e.wordHash)) = true :=
          decide_eq_true hcover
        rw [hcovers, if_pos hcover]
        rfl
      · have hcovers : decide (Covers (e.to, mask ||| e.wordHash)) = false :=
          decide_eq_false hcover
        rw [hcovers, if_neg hcover]
        exact (List.append_nil _).symm
    · rw [if_neg hfinal] at hnext
      have hsame := (hext (path.length + 1) e (mask ||| e.wordHash) w).1
      rw [hnext] at hsame
      rw [if_neg hfinal, hsame]
      exact (List.append_nil _).symm
  · exact fun hframe => hframe.tail
  · exact fun hframe hnext => hframe.enter hext hnext

/-- Every path of a router edge alone is followed. -/
theorem explore_router
    (h : Explore (word_graph nodes) (iteration_callbacks extend depth stop) edges path mask w b
      calls w') : followed_at 1 calls = tried_at 1 calls := by
  refine Explore.compose (R := fun _ calls _ => followed_at 1 calls = tried_at 1 calls)
    (F := fun _ _ _ => True) ?_ ?_ ?_ ?_ ?_ ?_ h trivial
  · intro _ _ _ calls₁ calls₂ h₁ h₂
    rw [followed_at_append, tried_at_append, h₁, h₂]
  · exact fun _ => rfl
  · exact fun _ _ _ _ => rfl
  · intro e edges path mask w w' answer _ hnext
    by_cases hne : path = []
    · subst hne
      change next_state_with extend depth mask ([] ++ [e]) w = (answer, w') at hnext
      rw [next_state_router, Prod.mk.injEq] at hnext
      rw [← hnext.1]
      rfl
    · have hlong : ¬(path ++ [e]).length = 1 := by
        have hpos := List.length_pos_iff.mpr hne
        rw [List.length_append, List.length_singleton]
        omega
      rw [tried_at_next, if_neg hlong]
      cases answer with
      | none => rfl
      | some mask' => rw [followed_at_next, if_neg hlong]; rfl
  · exact fun _ => trivial
  · exact fun _ _ => trivial

/-! ## Rounds -/

/-- The rule of `CacheOrder` for the paths that a search follows. -/
def FollowsFirst (nodes : nodes_t) (depth : Nat) (calls : List (Call word_edge char_mask_t)) :
    Prop :=
  ∀ n, 2 ≤ n → n < depth → ∃ isDist : search_node → Bool,
    (∀ s, isDist s = true ↔ (chains nodes).IsDist starts (n - 1) s) ∧
      followed_at n calls = first_fresh (path_state nodes) isDist (tried_at n calls)

/-- **The paths followed are the entries of the rounds.** -/
theorem followed_at_round
    (h : Search (word_graph nodes) (iteration_callbacks extend depth stop) router_node 0#32 w true
      calls w') (hfirst : FollowsFirst nodes depth calls) (k : Nat) (hk : k + 2 ≤ depth) :
    followed_at (k + 1) calls = ((chain_search nodes).round start_nodes k).map raw_path := by
  obtain ⟨hroot, hlevels⟩ := h.levels rfl
  induction k with
  | zero =>
      rw [explore_router h]
      exact hroot
  | succ k ih =>
      obtain ⟨isDist, hisDist, hfollowed⟩ := hfirst (k + 2) (by omega) (by omega)
      have htried := hlevels (k + 1) (Nat.succ_pos k)
      -- what is tried are the extended entries of the round before
      rw [ih (by omega), List.flatMap_map] at htried
      simp only [extensions_raw_path] at htried
      rw [← List.map_flatMap] at htried
      rw [← set_start_nodes] at hisDist
      have hround : (chain_search nodes).round start_nodes (k + 1) = _ := round_succ k hisDist
      rw [hfollowed, htried, first_fresh_map, hround]
      congr 1
      apply first_fresh_key_congr
      intro u hu
      obtain ⟨t, ht, hut⟩ := List.mem_flatMap.mp hu
      exact path_state_raw_path ((isEntry_of_mem_round t ht).extended hut).start

/-- What an iteration that is not stopped collects. -/
theorem collected_round (hext : Neutral extend) {k : Nat}
    (h : Search (word_graph nodes) (iteration_callbacks extend (k + 2) stop) router_node 0#32 w true
      calls w') (hfirst : FollowsFirst nodes (k + 2) calls) :
    w'.solutions =
      w.solutions ++ ((chain_search nodes).goal_paths start_nodes k).map raw_path := by
  obtain ⟨_, hlevels⟩ := h.levels rfl
  have htried := hlevels (k + 1) (Nat.succ_pos k)
  rw [followed_at_round h hfirst k (Nat.le_refl _), List.flatMap_map] at htried
  simp only [extensions_raw_path] at htried
  rw [← List.map_flatMap] at htried
  rw [explore_collects hext (by omega) h frame_root, htried, List.filter_map]
  unfold Listed.goal_paths
  congr 2
  apply List.filter_congr
  intro u hu
  obtain ⟨t, ht, hut⟩ := List.mem_flatMap.mp hu
  have hstart := ((isEntry_of_mem_round t ht).extended hut).start
  rw [Function.comp_apply, path_state_raw_path hstart]
  rfl

/-! ## Stopping -/

/-- A search only adds solutions. -/
theorem explore_solutions_isPrefix (hext : Neutral extend)
    (h : Explore (word_graph nodes) (iteration_callbacks extend depth stop) edges path mask w b
      calls w') : w.solutions <+: w'.solutions := by
  refine Explore.invariant (I := fun w' => w.solutions <+: w'.solutions) ?_ ?_ ?_ h List.prefix_rfl
  · exact fun w' hw' => hw'
  · intro mask path w' hw'
    apply hw'.trans
    simp only [iteration_callbacks, next_state_with]
    by_cases hrouter : path.length ≤ 1
    · rw [if_pos hrouter]
    rw [if_neg hrouter]
    cases path.getLast? with
    | none => exact List.prefix_rfl
    | some e =>
        by_cases hfinal : path.length = depth
        · simp only [if_pos hfinal]
          split_ifs
          · exact List.prefix_append _ _
          · exact List.prefix_rfl
        · simp only [if_neg hfinal]
          rw [(hext _ _ _ _).1]
  · exact fun _ _ _ w' hw' => hw'

/-- **A stop cuts.** The same search with a stop test is the search itself, or
has collected the front of what it collects. -/
theorem explore_stopping (hext : Neutral extend) (stop : SearchState → Bool)
    (h : Explore (word_graph nodes) (iteration_callbacks extend depth fun _ => false) edges path
      mask w b calls w') (hb : b = true) :
    ∃ b' calls' w₁, Explore (word_graph nodes) (iteration_callbacks extend depth stop) edges path
      mask w b' calls' w₁ ∧ (b' = true → w₁ = w') ∧ w₁.solutions <+: w'.solutions := by
  have hstopped : ∀ {edges path mask w w'}, stop w = true → w.solutions <+: w'.solutions →
      ∃ b' calls' w₁, Explore (word_graph nodes) (iteration_callbacks extend depth stop) edges path
        mask w b' calls' w₁ ∧ (b' = true → w₁ = w') ∧ w₁.solutions <+: w'.solutions := by
    intro edges path mask w w' hstop hle
    refine ⟨false, _, w, .stopped ?_, (fun hb => nomatch hb), hle⟩
    exact Prod.ext hstop rfl
  have hgoes : ∀ {w}, ¬stop w = true →
      (iteration_callbacks extend depth stop).stop_fn w = (false, w) :=
    fun hstop => Prod.ext (Bool.eq_false_iff.mpr hstop) rfl
  induction h with
  | stopped _ => cases hb
  | @exhausted path mask w w' hgo =>
      obtain ⟨_, rfl⟩ := stop_eq hgo
      by_cases hstop : stop w' = true
      · exact hstopped hstop List.prefix_rfl
      · exact ⟨true, _, w', .exhausted (hgoes hstop), fun _ => rfl, List.prefix_rfl⟩
  | @pruned e edges path mask w w₁ w₂ b calls w' hgo hnext hrest ih =>
      obtain ⟨_, rfl⟩ := stop_eq hgo
      by_cases hstop : stop w₁ = true
      · exact hstopped hstop (explore_solutions_isPrefix hext (.pruned hgo hnext hrest))
      · obtain ⟨b', calls', w₁', hrest', heq, hle⟩ := ih hb
        exact ⟨b', _, w₁', .pruned (hgoes hstop) hnext hrest', heq, hle⟩
  | cut _ _ _ _ => cases hb
  | @descend e edges path mask mask' w w₁ w₂ w₃ b calls₁ calls₂ w' hgo hnext hchild hrest ih₁ ih₂ =>
      obtain ⟨_, rfl⟩ := stop_eq hgo
      by_cases hstop : stop w₁ = true
      · exact hstopped hstop (explore_solutions_isPrefix hext (.descend hgo hnext hchild hrest))
      · obtain ⟨b₁, calls₁', w₃', hchild', heq₁, hle₁⟩ := ih₁ rfl
        cases b₁ with
        | false =>
            -- stopped below
            refine ⟨false, _, w₃', .cut (hgoes hstop) hnext hchild', (fun hb => nomatch hb), ?_⟩
            exact hle₁.trans (explore_solutions_isPrefix hext hrest)
        | true =>
            obtain rfl := heq₁ rfl
            obtain ⟨b', calls₂', w₁', hrest', heq₂, hle₂⟩ := ih₂ hb
            exact ⟨b', _, w₁', .descend (hgoes hstop) hnext hchild' hrest', heq₂, hle₂⟩

end Search

/-! ## One iteration -/

/-- No state has been visited, so what is fresh are the distances. -/
theorem Follows.followsFirst {w w' : SearchState} {calls : List (Call word_edge char_mask_t)}
    (hnodes : WellHashed nodes) (h : Follows nodes depth w calls w')
    (hnew : ∀ s, IsSearchNode s → ¬Visited depth w s) : FollowsFirst nodes depth calls := by
  intro n hn hlt
  refine ⟨fresh nodes depth w n, fun s => ?_, h.first n hn hlt⟩
  rw [fresh_iff]
  constructor
  · exact And.left
  · intro hdist
    refine ⟨hdist, hnew s ?_⟩
    obtain ⟨k, rfl⟩ := Nat.exists_eq_add_of_le' hn
    exact reachesIn_isSearchNode hnodes hdist.1.2

/-- The iteration of `depth`, without the stop. -/
theorem exists_unstopped (hnodes : WellHashed nodes) (hmin : cfg.STATE_CACHE_MIN_DEPTH ≤ 2)
    (hdepth : 2 ≤ depth) (hbyte : depth < 256) {s : SearchState} (hs : Prepared nodes depth s)
    (hnew : ∀ t, IsSearchNode t → ¬Visited depth s t) :
    ∃ extend calls s', Neutral extend ∧
      search_callbacks cfg nodes depth = iteration_callbacks extend depth (enough cfg) ∧
      Search (word_graph nodes) (iteration_callbacks extend depth fun _ => false) router_node
        0#32 s true calls s' ∧ FollowsFirst nodes depth calls := by
  have htrue : ∀ {extend b calls s'}, Search (word_graph nodes)
      (iteration_callbacks extend depth fun _ => false) router_node 0#32 s b calls s' →
      b = true := by
    intro extend b calls s' h
    by_contra hb
    exact nomatch explore_stopped h (Bool.eq_false_iff.mpr hb)
  by_cases hplain : depth ≤ cfg.STATE_CACHE_MIN_DEPTH
  · -- one word is no path below the final depth
    obtain ⟨b, calls, s', h⟩ :=
      exists_iteration_search extend_plain (fun _ => false) nodes hdepth s
    obtain rfl := htrue h
    exact ⟨extend_plain, calls, s', neutral_plain, search_callbacks_plain hplain, h,
      fun n _ _ => by omega⟩
  · obtain ⟨b, calls, s', h⟩ :=
      exists_iteration_search (extend_cached nodes depth) (fun _ => false) nodes hdepth s
    obtain rfl := htrue h
    have hfollows := explore_follows hnodes hdepth hbyte h frame_root
      (by rw [List.length_nil]; omega) hs
    exact ⟨extend_cached nodes depth, calls, s', neutral_cached nodes depth,
      search_callbacks_cached hplain, h, hfollows.followsFirst hnodes hnew⟩

/-- What an iteration adds, cut at `MAX_SOLUTIONS`. -/
theorem iteration_collects (hnodes : WellHashed nodes) (hmin : cfg.STATE_CACHE_MIN_DEPTH ≤ 2)
    {k : Nat} (hbyte : k + 2 < 256) {s s' : SearchState} {b : Bool}
    (hs : Prepared nodes (k + 2) s) (hnew : ∀ t, IsSearchNode t → ¬Visited (k + 2) s t)
    (hwithin : s.solutions.length ≤ cfg.MAX_SOLUTIONS) (hfault : s.fault = none)
    (hrun : search_iteration cfg nodes (k + 2) s = some (.ok (b, s'))) :
    s'.solutions = (s.solutions ++
      ((chain_search nodes).goal_paths start_nodes k).map raw_path).take cfg.MAX_SOLUTIONS := by
  obtain ⟨extend, calls, s₁, hext, hcallbacks, hsearch, hfirst⟩ :=
    exists_unstopped hnodes hmin (by omega) hbyte hs hnew
  obtain ⟨b', calls', s₂, hstopping, heq, hle⟩ := explore_stopping hext (enough cfg) hsearch rfl
  rw [← hcallbacks] at hstopping
  have hiterated := iterated_of_search hnodes (by omega) hbyte hstopping
  -- the run is this search
  have hrun' := search_iteration_eq_some hstopping (hiterated.fault_eq.trans hfault)
  rw [hrun] at hrun'
  cases hrun'
  rw [← collected_round hext hsearch hfirst]
  have hlength := hiterated.within hwithin
  cases b with
  | true =>
      rw [heq rfl] at hlength ⊢
      exact (List.take_of_length_le hlength).symm
  | false =>
      have hfull := hiterated.stopped rfl
      have hsize : s'.solutions.length = cfg.MAX_SOLUTIONS := by omega
      rw [← hsize]
      exact List.prefix_iff_eq_take.mp hle

/-! ## The loop -/

/-- The loop gets to its first test with the initial variables only. -/
theorem Deepens.eq_init {s : SearchState} (hnodes : WellHashed nodes)
    (h : Deepens cfg nodes depth s) (hdepth : depth = 2) : s = .init := by
  cases h with
  | start => rfl
  | next hbefore _ _ _ =>
      have htwo := (hbefore.deepened hnodes).two_le
      omega

/-- An iteration that is not stopped prepares the cache for the next. -/
theorem Deepens.prepared (hnodes : WellHashed nodes) (hmin : cfg.STATE_CACHE_MIN_DEPTH ≤ 2)
    {s s' : SearchState} (h : Deepens cfg nodes depth s) (hle : depth ≤ cfg.MAX_SEARCH_SIZE + 1)
    (hrun : search_iteration cfg nodes depth s = some (.ok (true, s'))) :
    Prepared nodes (depth + 1) s' ∧ ∀ t, IsSearchNode t → ¬Visited (depth + 1) s' t := by
  have hdeepened := h.deepened hnodes
  have hiterated := hdeepened.iterated hnodes hle hrun
  have hrecorded := hiterated.recorded hdeepened.recorded
  have hnew : ∀ t, IsSearchNode t → ¬Visited (depth + 1) s' t := by
    intro t ht hvisited
    have hcreation := hrecorded.creation_le t ht
    unfold Visited at hvisited
    omega
  have hsearch : ∀ {t k}, (chains nodes).IsDist starts k t → IsSearchNode t := by
    intro t k hdist
    obtain ⟨i, rfl⟩ := Nat.exists_eq_add_of_le' hdist.1.1
    exact reachesIn_isSearchNode hnodes hdist.1.2
  refine ⟨⟨fun t ht => ?_, fun t k hdist hk => ?_⟩, hnew⟩
  · exact Nat.le_succ_of_le (hrecorded.creation_le t ht)
  have ht := hsearch hdist
  by_cases hplain : depth ≤ cfg.STATE_CACHE_MIN_DEPTH
  · -- nothing has been written yet
    have hdepth : depth = 2 := by
      have htwo := hdeepened.two_le
      omega
    subst hdepth
    obtain rfl := h.eq_init hnodes rfl
    have hentry : s'.entry t = state_cache_entry.init := by
      obtain ⟨b, calls, s₁, hs₁⟩ :=
        exists_iteration_search extend_plain (enough cfg) nodes (Nat.le_refl 2) .init
      have hunchanged := plain_unchanged hs₁
      rw [← search_callbacks_plain hplain] at hs₁
      have hrun' := search_iteration_eq_some hs₁ hunchanged.2
      rw [hrun] at hrun'
      cases hrun'
      exact congrFun hunchanged.1 (cache_key t)
    have hpos := hdist.1.1
    refine .inr ⟨by omega, ?_, hnew t ht⟩
    rw [hentry]
    rfl
  · have hfinished := hiterated.cached rfl hdeepened.recorded (by omega)
    obtain ⟨hnear, hfar⟩ := hfinished.ceiling hnodes ht
    by_cases hnext : k + 2 ≤ depth
    · exact .inl (hnear k hdist hnext)
    · refine .inr ⟨by omega, hfar fun j hj => ?_, hnew t ht⟩
      have heq := hdist.unique hj
      omega

/-- **Run lemma.** At each test of the deepening loop the solutions are those
of a breadth-first search of the rounds so far. -/
theorem Deepens.breadth_first (hnodes : WellHashed nodes) (hmin : cfg.STATE_CACHE_MIN_DEPTH ≤ 2)
    {s : SearchState} (h : Deepens cfg nodes depth s) :
    s.solutions = (((chain_search nodes).breadth_first start_nodes (depth - 2)).map raw_path).take
        cfg.MAX_SOLUTIONS ∧
      (s.solutions.length < cfg.MAX_SOLUTIONS →
        Prepared nodes depth s ∧ ∀ t, IsSearchNode t → ¬Visited depth s t) := by
  induction h with
  | start =>
      have hnone : ((chain_search nodes).breadth_first start_nodes
          (MIN_SOLUTION_SIZE + 1 - 2)).map raw_path = [] := rfl
      refine ⟨by rw [hnone, List.take_nil]; rfl,
        fun _ => ⟨⟨fun _ _ => Nat.zero_le _, fun t k hdist hle => ?_⟩, ?_⟩⟩
      · have hpos := hdist.1.1
        have hstart : MIN_SOLUTION_SIZE = 1 := rfl
        omega
      · intro t _ hvisited
        exact nomatch hvisited
  | @next depth s b s' hbefore hle hroom hrun ih =>
      obtain ⟨hsolutions, hprepared⟩ := ih
      obtain ⟨hs, hnew⟩ := hprepared hroom
      have hdeepened := hbefore.deepened hnodes
      obtain ⟨k, rfl⟩ := Nat.exists_eq_add_of_le' hdeepened.two_le
      have hmax := cfg.search_le
      have hcollects := iteration_collects hnodes hmin (by omega) hs hnew hdeepened.within
        hdeepened.fault_eq hrun
      refine ⟨?_, fun hroom' => ?_⟩
      · -- below the cap nothing has been cut yet
        have huncut := hroom
        rw [hsolutions, List.length_take] at huncut
        rw [List.take_of_length_le (by omega)] at hsolutions
        rw [hcollects, hsolutions, ← List.map_append]
        congr 2
        rw [show k + 2 + 1 - 2 = k + 1 by omega, Nat.add_sub_cancel]
        unfold Listed.breadth_first
        rw [List.range_succ, List.flatMap_append, List.flatMap_singleton]
      · have hb : b = true := by
          by_contra hb
          have hstopped := (hdeepened.iterated hnodes hle hrun).stopped (Bool.eq_false_iff.mpr hb)
          omega
        subst hb
        exact hbefore.prepared hnodes hmin hle hrun

/-- More rounds only add paths. -/
theorem breadth_first_isPrefix (nodes : nodes_t) {n m : Nat} (h : n ≤ m) :
    (chain_search nodes).breadth_first start_nodes n <+:
      (chain_search nodes).breadth_first start_nodes m := by
  obtain ⟨d, rfl⟩ := Nat.exists_eq_add_of_le h
  rw [breadth_first_add]
  exact List.prefix_append _ _

/-- Where no chain covers, nothing is listed. -/
theorem breadth_first_eq_nil
    (hnone : ∀ k s, (chains nodes).ReachesIn starts k s → ¬Covers s) (n : Nat) :
    (chain_search nodes).breadth_first start_nodes n = [] := by
  unfold Listed.breadth_first Listed.goal_paths
  rw [List.flatMap_eq_nil_iff]
  intro k _
  rw [List.filter_eq_nil_iff]
  intro u hu hgoal
  obtain ⟨t, ht, hut⟩ := List.mem_flatMap.mp hu
  have hreach := ((isEntry_of_mem_round t ht).extended hut).reachesIn
  rw [set_start_nodes] at hreach
  exact hnone _ _ hreach (of_decide_eq_true hgoal)

/-- **`solve_raw` is a breadth-first search**, on every graph with letter-set
hashes. -/
theorem solve_raw_eq_breadth_first (hnodes : WellHashed nodes)
    (hmin : cfg.STATE_CACHE_MIN_DEPTH ≤ 2) :
    solve_raw cfg nodes = some (.ok (breadth_first cfg nodes)) := by
  have hpos := cfg.search_pos
  have hsize : MIN_SOLUTION_SIZE = 1 := rfl
  unfold solve_raw breadth_first
  by_cases hearly : early_terminate_instance nodes = true
  · rw [if_pos hearly, breadth_first_eq_nil fun k s hs => early_terminate_no_cover hnodes hearly hs]
    simp
    rfl
  · have hstart : Deepens cfg nodes (MIN_SOLUTION_SIZE + 1) .init := .start
    obtain ⟨s, depth, hrun, hdeepens, hle, hfull⟩ := deepen_eq_some hnodes
      (cfg.MAX_SEARCH_SIZE + 1 - MIN_SOLUTION_SIZE) _ _ hstart (by omega)
    obtain ⟨hsolutions, _⟩ := hdeepens.breadth_first hnodes hmin
    have heq : s.solutions = (((chain_search nodes).breadth_first start_nodes
        cfg.MAX_SEARCH_SIZE).map raw_path).take cfg.MAX_SOLUTIONS := by
      by_cases hroom : s.solutions.length < cfg.MAX_SOLUTIONS
      · rw [hsolutions, hfull hroom, Nat.add_sub_cancel]
      · -- cut already, and the rounds that are left come behind the cut
        obtain ⟨rest, hrest⟩ := (breadth_first_isPrefix nodes
          (show depth - 2 ≤ cfg.MAX_SEARCH_SIZE by omega)).map raw_path
        rw [hsolutions, List.length_take] at hroom
        rw [hsolutions, ← hrest, List.take_append_of_le_length (by omega)]
    rw [if_neg hearly, run_bind_ok hrun, ← heq]
    rfl

end LetterBoxed
