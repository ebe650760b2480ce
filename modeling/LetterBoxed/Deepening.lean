/-
The deepening loop of `solve_raw`.

`Iterated` is everything the loop needs to know of one iteration, whichever
callbacks it ran with: what it found, that it stayed within the cap, and what
it left in the cache. `Deepened` is the loop invariant, and the result of
`solve_raw` is read off the invariant at the end of the loop.

Solutions are compared by their length, the depth of the iteration that found
them, so the list grows in order of length, and the first one is nearest.
-/
import LetterBoxed.CacheExactness

set_option autoImplicit false

open Paths

namespace LetterBoxed

variable {cfg : Settings} {nodes : nodes_t} {depth : Nat}

/-! ## One iteration -/

/-- An iteration is a search that ends without a fault. -/
theorem search_iteration_eq_some {s s' : SearchState} {b : Bool}
    {calls : List (Call word_edge char_mask_t)}
    (h : Search (word_graph nodes) (search_callbacks cfg nodes depth) router_node 0#32 s b calls s')
    (hfault : s'.fault = none) :
    search_iteration cfg nodes depth s = some (.ok (b, s')) := by
  have hdfs := dfs_eq_some_iff.mpr ⟨calls, h⟩
  unfold search_iteration
  rw [run_bind_ok hdfs]
  simp only [hfault]
  rfl

/-- Every search of an iteration ends: no path is longer than `depth`. -/
theorem exists_iteration_search (extend : Extend) (stop : SearchState → Bool) (nodes : nodes_t)
    (hdepth : 2 ≤ depth) (s : SearchState) :
    ∃ b calls s', Search (word_graph nodes) (iteration_callbacks extend depth stop) router_node
      0#32 s b calls s' := by
  refine exists_explore (D := depth) ?_ (depth - 1) [] ?_ _ _ _
  · -- a path of `depth` edges is a solution test and never followed
    intro prev path w hlen
    have hne : path ≠ [] := by
      apply List.ne_nil_of_length_pos
      omega
    obtain ⟨es, e, rfl⟩ := path.eq_nil_or_concat'.resolve_left hne
    rw [List.length_append, List.length_singleton] at hlen
    have hes : es ≠ [] := by
      apply List.ne_nil_of_length_pos
      omega
    unfold iteration_callbacks
    dsimp only
    rw [next_state_node hes, if_pos hlen]
  · rw [List.length_nil]
    omega

theorem exists_search (cfg : Settings) (nodes : nodes_t) (hdepth : 2 ≤ depth) (s : SearchState) :
    ∃ b calls s', Search (word_graph nodes) (search_callbacks cfg nodes depth) router_node 0#32
      s b calls s' := by
  by_cases hmin : depth ≤ cfg.STATE_CACHE_MIN_DEPTH
  · rw [search_callbacks_plain hmin]
    exact exists_iteration_search extend_plain (enough cfg) nodes hdepth s
  · rw [search_callbacks_cached hmin]
    exact exists_iteration_search (extend_cached nodes depth) (enough cfg) nodes hdepth s

/-- An iteration ends on every graph, whatever the cache holds. -/
theorem search_iteration_ne_none (cfg : Settings) (nodes : nodes_t) (hdepth : 2 ≤ depth)
    (s : SearchState) : search_iteration cfg nodes depth s ≠ none := by
  obtain ⟨b, calls, s', h⟩ := exists_search cfg nodes hdepth s
  have hdfs := dfs_eq_some_iff.mpr ⟨calls, h⟩
  unfold search_iteration
  rw [run_bind_ok hdfs]
  dsimp only
  cases s'.fault with
  | none => exact Option.some_ne_none _
  | some fault => exact Option.some_ne_none _

theorem deepen_ne_none (cfg : Settings) (nodes : nodes_t) (iterations : Nat) :
    ∀ depth s, 2 ≤ depth → deepen cfg nodes iterations depth s ≠ none := by
  induction iterations with
  | zero => exact fun depth s _ h => nomatch h
  | succ iterations ih =>
      intro depth s hdepth
      unfold deepen
      by_cases hroom : s.solutions.length < cfg.MAX_SOLUTIONS
      · rw [if_pos hroom]
        apply run_bind_ne_none (search_iteration_ne_none cfg nodes hdepth s)
        exact fun out => ih (depth + 1) out.2 (by omega)
      · rw [if_neg hroom]
        exact fun h => nomatch h

/-- **The search ends on every graph.** -/
theorem solve_raw_ne_none (cfg : Settings) (nodes : nodes_t) : solve_raw cfg nodes ≠ none := by
  unfold solve_raw
  by_cases hearly : early_terminate_instance nodes = true
  · rw [if_pos hearly]
    exact fun h => nomatch h
  · rw [if_neg hearly]
    apply run_bind_ne_none
    · exact deepen_ne_none cfg nodes _ _ _ (by decide)
    · exact fun s h => nomatch h

/-- What an iteration of `depth` from `s` to `s'` does, `b` being whether it
was not stopped. -/
structure Iterated (cfg : Settings) (nodes : nodes_t) (depth : Nat) (s : SearchState) (b : Bool)
    (s' : SearchState) : Prop where
  fault_eq : s'.fault = s.fault
  found : ∃ found, s'.solutions = s.solutions ++ found ∧ found.Nodup ∧
    ∀ q ∈ found, IsRawSolution nodes depth q
  within : s.solutions.length ≤ cfg.MAX_SOLUTIONS → s'.solutions.length ≤ cfg.MAX_SOLUTIONS
  stopped : b = false → cfg.MAX_SOLUTIONS ≤ s'.solutions.length
  recorded : Recorded nodes (depth - 1) s → Recorded nodes depth s'
  represented : b = true → Recorded nodes (depth - 1) s → ∀ k, k + 2 = depth →
    ∀ t ∈ (chains nodes).Level starts k, ∀ e, (chains nodes).enabled t e →
      Covers ((chains nodes).next t e) → Represented nodes s'.solutions k t e
  cached : b = true → Recorded nodes (depth - 1) s → cfg.STATE_CACHE_MIN_DEPTH < depth →
    Finished nodes depth s s'

theorem enough_eq_false {s : SearchState} (h : enough cfg s = false) :
    s.solutions.length < cfg.MAX_SOLUTIONS := by
  unfold enough at h
  rw [decide_eq_false_iff_not] at h
  omega

section Iteration

variable {extend : Extend} {s s' : SearchState} {b : Bool}
  {calls : List (Call word_edge char_mask_t)}

/-- What is found, kept within the cap, and implied by a stop, for any
extension. -/
theorem collected_of_search (hnodes : WellHashed nodes) (hext : Neutral extend)
    (h : Search (word_graph nodes) (iteration_callbacks extend depth (enough cfg)) router_node
      0#32 s b calls s') :
    (∃ found, s'.solutions = s.solutions ++ found ∧ found.Nodup ∧
        ∀ q ∈ found, IsRawSolution nodes depth q) ∧
      (s.solutions.length ≤ cfg.MAX_SOLUTIONS → s'.solutions.length ≤ cfg.MAX_SOLUTIONS) ∧
      (b = false → cfg.MAX_SOLUTIONS ≤ s'.solutions.length) := by
  refine ⟨?_, fun hle => ?_, fun hb => ?_⟩
  · obtain ⟨found, hsolutions, hfound⟩ := explore_solutions hnodes hext h frame_root
    exact ⟨found, hsolutions, hfound.nodup, hfound.isRaw⟩
  · exact explore_cap hext (fun s hs => enough_eq_false hs) h frame_root hle
  · have hstop := explore_stopped h hb
    unfold enough at hstop
    rwa [decide_eq_true_eq] at hstop

/-- A plain search touches neither the cache nor the fault. -/
theorem plain_unchanged {stop : SearchState → Bool}
    (h : Search (word_graph nodes) (iteration_callbacks extend_plain depth stop) router_node
      0#32 s b calls s') : s'.stateDepthCache = s.stateDepthCache ∧ s'.fault = s.fault := by
  refine Explore.invariant
    (I := fun w => w.stateDepthCache = s.stateDepthCache ∧ w.fault = s.fault) ?_ ?_ ?_ h ⟨rfl, rfl⟩
  · exact fun w hw => hw
  · intro state path w hw
    simp only [iteration_callbacks, next_state_with, extend_plain]
    rcases path.getLast? with _ | e
    · split_ifs <;> exact hw
    · by_cases hrouter : path.length ≤ 1
      · rw [if_pos hrouter]
        exact hw
      · rw [if_neg hrouter]
        dsimp only
        split_ifs <;> exact hw
  · exact fun _ _ _ w hw => hw

/-- A chain to a state with one more word is a raw solution if it covers. -/
theorem isRawSolution_of_reachesIn {k : Nat} {t : search_node} {e : word_edge}
    (ht : (chains nodes).ReachesIn starts k t) (he : (chains nodes).enabled t e)
    (hcovers : Covers ((chains nodes).next t e)) :
    ∃ path, path.length = k + 1 ∧ path_state nodes path = t ∧
      IsRawSolution nodes (k + 2) (path ++ [e]) := by
  obtain ⟨r, es, hlen, hchain, rfl⟩ := exists_isChain ht
  have hne : r :: es ≠ [] := List.cons_ne_nil r es
  refine ⟨r :: es, by simp [hlen], rfl, by simp [hlen], ⟨r, es ++ [e], rfl, hchain.router, ?_⟩,
    ?_⟩
  · rw [isPath_append]
    exact ⟨hchain.path, he, trivial⟩
  · rw [path_state_concat hne]
    exact hcovers

/-- Unchanged entries are still the record of the iterations so far. -/
theorem Recorded.of_entry_eq (h : Recorded nodes (depth - 1) s)
    (hentry : ∀ t, s'.entry t = s.entry t) : Recorded nodes depth s' := by
  have hmono := h.mono (show depth - 1 ≤ depth by omega)
  refine ⟨fun t ht => ?_, fun t ht => ?_⟩
  · rw [hentry]
    exact hmono.creation_le t ht
  · rw [hentry]
    exact hmono.reached t ht

/-- A plain search represents every state by every chain that leads to it. -/
theorem represented_of_plain (hnodes : WellHashed nodes) {k : Nat} {stop : SearchState → Bool}
    (h : Search (word_graph nodes) (iteration_callbacks extend_plain (k + 2) stop) router_node
      0#32 s true calls s') {t : search_node} {e : word_edge}
    (ht : (chains nodes).ReachesIn starts k t) (he : (chains nodes).enabled t e)
    (hcovers : Covers ((chains nodes).next t e)) : Represented nodes s'.solutions k t e := by
  obtain ⟨path, hlen, hstate, hraw⟩ := isRawSolution_of_reachesIn ht he hcovers
  obtain ⟨r, es, heq, hchain⟩ := hraw.chain
  refine ⟨path, hlen, hstate, ?_⟩
  apply explore_plain_complete hnodes (by omega) h frame_root (by simp) rfl r hchain.router
  · rw [heq]
    exact List.prefix_append [r] es
  · exact hraw

/-- An iteration up to the cache threshold. -/
theorem iterated_plain (hnodes : WellHashed nodes) (hdepth : 2 ≤ depth)
    (hmin : depth ≤ cfg.STATE_CACHE_MIN_DEPTH)
    (h : Search (word_graph nodes) (iteration_callbacks extend_plain depth (enough cfg)) router_node
      0#32 s b calls s') : Iterated cfg nodes depth s b s' := by
  obtain ⟨hfound, hwithin, hstopped⟩ := collected_of_search hnodes neutral_plain h
  obtain ⟨hcache, hfault⟩ := plain_unchanged h
  have hentry : ∀ t, s'.entry t = s.entry t := fun t => congrFun hcache (cache_key t)
  refine ⟨hfault, hfound, hwithin, hstopped, fun hrecorded => hrecorded.of_entry_eq hentry, ?_, ?_⟩
  · rintro rfl _ k rfl t ht e he hcovers
    exact represented_of_plain hnodes h (level_reachesIn ht) he hcovers
  · -- the cache is not used yet
    intro _ _ hlt
    omega

/-- An iteration above the cache threshold. -/
theorem iterated_cached (hnodes : WellHashed nodes) (hdepth : 2 ≤ depth) (hbyte : depth < 256)
    (h : Search (word_graph nodes) (iteration_callbacks (extend_cached nodes depth) depth
      (enough cfg)) router_node 0#32 s b calls s') : Iterated cfg nodes depth s b s' := by
  have hroot : ([] : List word_edge).length < depth := by
    rw [List.length_nil]
    omega
  obtain ⟨hfound, hwithin, hstopped⟩ := collected_of_search hnodes (neutral_cached nodes depth) h
  obtain ⟨hgrows, _⟩ := explore_cached hnodes hdepth hbyte h frame_root hroot
  have hfinished : b = true → Recorded nodes (depth - 1) s → Finished nodes depth s s' := by
    rintro rfl hrecorded
    exact finished_of_search hnodes hdepth hbyte hrecorded h
  refine ⟨hgrows.fault_eq, hfound, hwithin, hstopped, ?_, ?_,
    fun hb hrecorded _ => hfinished hb hrecorded⟩
  · intro hrecorded
    exact hrecorded.grows (by omega) hgrows
  · rintro hb hrecorded k rfl t ht e he hcovers
    exact (hfinished hb hrecorded).represented hnodes ht he hcovers

theorem iterated_of_search (hnodes : WellHashed nodes) (hdepth : 2 ≤ depth) (hbyte : depth < 256)
    (h : Search (word_graph nodes) (search_callbacks cfg nodes depth) router_node 0#32 s b calls
      s') : Iterated cfg nodes depth s b s' := by
  by_cases hmin : depth ≤ cfg.STATE_CACHE_MIN_DEPTH
  · rw [search_callbacks_plain hmin] at h
    exact iterated_plain hnodes hdepth hmin h
  · rw [search_callbacks_cached hmin] at h
    exact iterated_cached hnodes hdepth hbyte h

end Iteration

/-! ## The loop invariant -/

/-- The deepening loop gets to its test at `depth` with the variables `s`. -/
inductive Deepens (cfg : Settings) (nodes : nodes_t) : Nat → SearchState → Prop
  | start : Deepens cfg nodes (MIN_SOLUTION_SIZE + 1) .init
  | next {depth s b s'} (h : Deepens cfg nodes depth s) (hdepth : depth ≤ cfg.MAX_SEARCH_SIZE + 1)
      (hroom : s.solutions.length < cfg.MAX_SOLUTIONS)
      (hrun : search_iteration cfg nodes depth s = some (.ok (b, s'))) :
      Deepens cfg nodes (depth + 1) s'

/-- The loop invariant: what all iterations before `depth` have found. -/
structure Deepened (cfg : Settings) (nodes : nodes_t) (depth : Nat) (s : SearchState) : Prop where
  two_le : 2 ≤ depth
  fault_eq : s.fault = none
  raw : ∀ q ∈ s.solutions, 2 ≤ q.length ∧ q.length < depth ∧ IsRawSolution nodes q.length q
  sorted : s.solutions.Pairwise fun p q => p.length ≤ q.length
  nodup : s.solutions.Nodup
  within : s.solutions.length ≤ cfg.MAX_SOLUTIONS
  recorded : Recorded nodes (depth - 1) s
  represented : s.solutions.length < cfg.MAX_SOLUTIONS → ∀ k, k + 2 < depth →
    ∀ t ∈ (chains nodes).Level starts k, ∀ e, (chains nodes).enabled t e →
      Covers ((chains nodes).next t e) → Represented nodes s.solutions k t e
  nearest : ∀ m, (chains nodes).IsGoalDist starts Covers m → m + 1 < depth →
    ∃ q ∈ s.solutions, q.length = m + 1

theorem deepened_init (cfg : Settings) (nodes : nodes_t) :
    Deepened cfg nodes (MIN_SOLUTION_SIZE + 1) .init := by
  have hmin : MIN_SOLUTION_SIZE = 1 := rfl
  refine ⟨by omega, rfl, fun q hq => ?_, .nil, .nil, Nat.zero_le _, recorded_init nodes _,
    fun _ k hk => ?_, fun m hm hlt => ?_⟩
  · exact absurd hq List.not_mem_nil
  · omega
  · have hpos := hm.1.1
    omega

theorem Represented.mono {solutions solutions' : List (List word_edge)} {k : Nat}
    {t : search_node} {e : word_edge} (hle : solutions <+: solutions')
    (h : Represented nodes solutions k t e) : Represented nodes solutions' k t e := by
  obtain ⟨path, hlen, hstate, hmem⟩ := h
  exact ⟨path, hlen, hstate, hle.subset hmem⟩

/-- No raw solution is shorter than the nearest. -/
theorem IsRawSolution.nearest_le {q : List word_edge} {m : Nat} (htwo : 2 ≤ depth)
    (hq : IsRawSolution nodes depth q) (hm : (chains nodes).IsGoalDist starts Covers m) :
    m + 1 ≤ depth := by
  have hle := hm.2 ⟨by omega, path_state nodes q, hq.covers, hq.reachesIn⟩
  omega

section Invariant

variable {s s' : SearchState} {b : Bool}

/-- Every iteration of the loop runs to its end. -/
theorem Deepened.exists_iteration (hnodes : WellHashed nodes) (h : Deepened cfg nodes depth s)
    (hle : depth ≤ cfg.MAX_SEARCH_SIZE + 1) :
    ∃ b s', search_iteration cfg nodes depth s = some (.ok (b, s')) ∧
      Iterated cfg nodes depth s b s' := by
  obtain ⟨b, calls, s', hsearch⟩ := exists_search cfg nodes h.two_le s
  have hmax := cfg.search_le
  have hiterated := iterated_of_search hnodes h.two_le (by omega) hsearch
  refine ⟨b, s', search_iteration_eq_some hsearch ?_, hiterated⟩
  rw [hiterated.fault_eq, h.fault_eq]

/-- An iteration that returned did what iterations do. -/
theorem Deepened.iterated (hnodes : WellHashed nodes) (h : Deepened cfg nodes depth s)
    (hle : depth ≤ cfg.MAX_SEARCH_SIZE + 1)
    (hrun : search_iteration cfg nodes depth s = some (.ok (b, s'))) :
    Iterated cfg nodes depth s b s' := by
  obtain ⟨b₁, s₁, hrun₁, hiterated⟩ := h.exists_iteration hnodes hle
  rw [hrun] at hrun₁
  cases hrun₁
  exact hiterated

theorem Iterated.solutions_prefix (h : Iterated cfg nodes depth s b s') :
    s.solutions <+: s'.solutions := by
  obtain ⟨found, hsolutions, _⟩ := h.found
  rw [hsolutions]
  exact List.prefix_append _ _

/-- The iteration of the nearest solutions finds one, stopped or not. -/
theorem Iterated.exists_nearest {m : Nat} (hiterated : Iterated cfg nodes (m + 1) s b s')
    (hrecorded : Recorded nodes m s) (hm : (chains nodes).IsGoalDist starts Covers m) :
    s'.solutions ≠ [] := by
  obtain ⟨k, rfl⟩ := Nat.exists_eq_add_of_le' hm.1.1
  cases b with
  | false =>
      -- stopped, so the cap is reached, and it is not zero
      have hstopped := hiterated.stopped rfl
      have hpos := cfg.solutions_pos
      apply List.ne_nil_of_length_pos
      omega
  | true =>
      obtain ⟨u, hcovers, hreach⟩ := hm.1.2
      obtain ⟨t, e, ht, he, rfl⟩ := reachesIn_succ.mp hreach
      have hlevel := level_before_goal hm ht he hcovers
      obtain ⟨path, _, _, hmem⟩ :=
        hiterated.represented rfl hrecorded k rfl t hlevel e he hcovers
      exact List.ne_nil_of_mem hmem

theorem Deepened.raw_next (h : Deepened cfg nodes depth s)
    (hiterated : Iterated cfg nodes depth s b s') :
    ∀ q ∈ s'.solutions, 2 ≤ q.length ∧ q.length < depth + 1 ∧ IsRawSolution nodes q.length q := by
  obtain ⟨found, hsolutions, _, hraw⟩ := hiterated.found
  have htwo := h.two_le
  intro q hq
  rw [hsolutions, List.mem_append] at hq
  rcases hq with hq | hq
  · obtain ⟨hpos, hlt, hq⟩ := h.raw q hq
    exact ⟨hpos, by omega, hq⟩
  · have hq := hraw q hq
    rw [hq.length_eq]
    exact ⟨htwo, by omega, hq⟩

theorem Deepened.sorted_next (h : Deepened cfg nodes depth s)
    (hiterated : Iterated cfg nodes depth s b s') :
    s'.solutions.Pairwise fun p q => p.length ≤ q.length := by
  obtain ⟨found, hsolutions, _, hraw⟩ := hiterated.found
  rw [hsolutions, List.pairwise_append]
  refine ⟨h.sorted, ?_, fun p hp q hq => ?_⟩
  · -- all of this iteration's chains have its depth
    apply List.pairwise_of_forall_mem_list
    intro p hp q hq
    rw [(hraw p hp).length_eq, (hraw q hq).length_eq]
  · have hlt := (h.raw p hp).2.1
    rw [(hraw q hq).length_eq]
    omega

theorem Deepened.nodup_next (h : Deepened cfg nodes depth s)
    (hiterated : Iterated cfg nodes depth s b s') : s'.solutions.Nodup := by
  obtain ⟨found, hsolutions, hnodup, hraw⟩ := hiterated.found
  rw [hsolutions, List.nodup_append]
  refine ⟨h.nodup, hnodup, ?_⟩
  -- the chains found before are shorter
  rintro p hp q hq rfl
  have hlt := (h.raw p hp).2.1
  rw [(hraw p hq).length_eq] at hlt
  omega

theorem Deepened.represented_next (h : Deepened cfg nodes depth s)
    (hiterated : Iterated cfg nodes depth s b s')
    (hroom : s'.solutions.length < cfg.MAX_SOLUTIONS) {k : Nat} (hk : k + 2 < depth + 1)
    {t : search_node} (ht : t ∈ (chains nodes).Level starts k) {e : word_edge}
    (he : (chains nodes).enabled t e) (hcovers : Covers ((chains nodes).next t e)) :
    Represented nodes s'.solutions k t e := by
  by_cases hlast : k + 2 = depth
  · refine hiterated.represented ?_ h.recorded k hlast t ht e he hcovers
    -- it was not stopped: there is room
    by_contra hb
    have hstopped := hiterated.stopped (Bool.eq_false_iff.mpr hb)
    omega
  · have hprefix := hiterated.solutions_prefix
    have hlen := hprefix.length_le
    exact (h.represented (by omega) k (by omega) t ht e he hcovers).mono hprefix

theorem Deepened.nearest_next (h : Deepened cfg nodes depth s)
    (hiterated : Iterated cfg nodes depth s b s') {m : Nat}
    (hm : (chains nodes).IsGoalDist starts Covers m) (hlt : m + 1 < depth + 1) :
    ∃ q ∈ s'.solutions, q.length = m + 1 := by
  by_cases hlast : m + 1 = depth
  · subst hlast
    obtain ⟨q, hq⟩ := List.exists_mem_of_ne_nil _ (hiterated.exists_nearest h.recorded hm)
    obtain ⟨hpos, hle, hraw⟩ := h.raw_next hiterated q hq
    have hge := hraw.nearest_le hpos hm
    exact ⟨q, hq, by omega⟩
  · obtain ⟨q, hq, hlen⟩ := h.nearest m hm (by omega)
    exact ⟨q, hiterated.solutions_prefix.subset hq, hlen⟩

/-- **Step lemma.** An iteration keeps the invariant. -/
theorem Deepened.next (h : Deepened cfg nodes depth s) (hiterated : Iterated cfg nodes depth s b s') :
    Deepened cfg nodes (depth + 1) s' where
  two_le := Nat.le_succ_of_le h.two_le
  fault_eq := hiterated.fault_eq.trans h.fault_eq
  raw := h.raw_next hiterated
  sorted := h.sorted_next hiterated
  nodup := h.nodup_next hiterated
  within := hiterated.within h.within
  recorded := hiterated.recorded h.recorded
  represented hroom _ hk _ ht _ he hcovers := h.represented_next hiterated hroom hk ht he hcovers
  nearest _ hm hlt := h.nearest_next hiterated hm hlt

/-- **Run lemma.** The invariant holds whenever the loop is at its test. -/
theorem Deepens.deepened (hnodes : WellHashed nodes) (h : Deepens cfg nodes depth s) :
    Deepened cfg nodes depth s := by
  induction h with
  | start => exact deepened_init cfg nodes
  | next _ hdepth _ hrun ih => exact ih.next (ih.iterated hnodes hdepth hrun)

end Invariant

/-! ## The result -/

/-- The loop ends, and where it does the invariant holds: it has run all its
iterations, or there is no room for another solution. -/
theorem deepen_eq_some (hnodes : WellHashed nodes) (iterations : Nat) :
    ∀ depth s, Deepens cfg nodes depth s → depth + iterations = cfg.MAX_SEARCH_SIZE + 2 →
      ∃ s' depth', deepen cfg nodes iterations depth s = some (.ok s') ∧
        Deepens cfg nodes depth' s' ∧ depth' ≤ cfg.MAX_SEARCH_SIZE + 2 ∧
        (s'.solutions.length < cfg.MAX_SOLUTIONS → depth' = cfg.MAX_SEARCH_SIZE + 2) := by
  induction iterations with
  | zero =>
      intro depth s h hdepth
      exact ⟨s, depth, rfl, h, by omega, fun _ => by omega⟩
  | succ iterations ih =>
      intro depth s h hdepth
      unfold deepen
      by_cases hroom : s.solutions.length < cfg.MAX_SOLUTIONS
      · have hle : depth ≤ cfg.MAX_SEARCH_SIZE + 1 := by omega
        obtain ⟨b, s₁, hrun, _⟩ := (h.deepened hnodes).exists_iteration hnodes hle
        rw [if_pos hroom, run_bind_ok hrun]
        exact ih (depth + 1) s₁ (h.next hle hroom hrun) (by omega)
      · rw [if_neg hroom]
        exact ⟨s, depth, rfl, h, by omega, fun hlt => absurd hlt hroom⟩

/-- The letters of all edges together. -/
theorem early_terminate_covered (nodes : nodes_t) (j : Nat) :
    ((nodes.toList.foldl (fun covered node =>
        node.outgoing.foldl (fun covered edge => covered ||| edge.wordHash) covered)
        0#32 : char_mask_t).getLsbD j = true) ↔
      ∃ i : Fin BOX_CHARS, ∃ e ∈ outgoing nodes i, e.wordHash.getLsbD j = true := by
  rw [← List.foldl_flatMap, Bits.getLsbD_foldl_or]
  simp only [BitVec.getLsbD_zero, Bool.false_or, List.any_eq_true, List.mem_flatMap]
  constructor
  · rintro ⟨e, ⟨node, hnode, he⟩, hbit⟩
    rw [Vector.mem_toList_iff] at hnode
    obtain ⟨i, hi, rfl⟩ := Vector.getElem_of_mem hnode
    exact ⟨⟨i, hi⟩, e, he, hbit⟩
  · rintro ⟨i, e, he, hbit⟩
    have hmem : nodes.get i ∈ nodes.toList := by
      rw [Vector.mem_toList_iff]
      exact Vector.getElem_mem i.isLt
    exact ⟨e, ⟨nodes.get i, hmem, he⟩, hbit⟩

/-- A bit that a path has set was set by one of its edges. -/
theorem exists_edge_of_bit {k j : Nat} :
    ∀ s : search_node, (chains nodes).ReachesIn starts k s → s.2.getLsbD j = true →
      ∃ i : Fin BOX_CHARS, ∃ e ∈ outgoing nodes i, e.wordHash.getLsbD j = true := by
  induction k with
  | zero =>
      intro s hs hbit
      have hstart : s ∈ starts := reachesIn_zero.mp hs
      rw [show s.2 = 0#32 from hstart, BitVec.getLsbD_zero] at hbit
      cases hbit
  | succ k ih =>
      intro s hs hbit
      obtain ⟨t, e, ht, he, rfl⟩ := reachesIn_succ.mp hs
      rw [chains_next, BitVec.getLsbD_or, Bool.or_eq_true] at hbit
      rcases hbit with hbit | hbit
      · exact ih t ht hbit
      · exact ⟨t.1, e, he, hbit⟩

/-- **Early termination is right.** It gives up only where no chain covers. -/
theorem early_terminate_no_cover (hnodes : WellHashed nodes)
    (h : early_terminate_instance nodes = true) {k : Nat} {s : search_node}
    (hs : (chains nodes).ReachesIn starts k s) : ¬Covers s := by
  intro hcovers
  unfold early_terminate_instance at h
  rw [bne_iff_ne] at h
  apply h
  apply BitVec.eq_of_getLsbD_eq
  intro j _
  rw [Bool.eq_iff_iff, early_terminate_covered, ← show s.2 = solution_mask from hcovers]
  constructor
  · rintro ⟨i, e, he, hbit⟩
    -- every hash lies in the box bits, and those are what a cover has set
    have hlt : j < BOX_CHARS := by
      by_contra hge
      rw [Bits.lt_two_pow_iff.mp (hnodes.hash_lt i e he) j (by omega)] at hbit
      cases hbit
    rw [show s.2 = solution_mask from hcovers]
    exact getLsbD_solution_mask ⟨j, hlt⟩
  · exact exists_edge_of_bit s hs

/-- What `solve_raw` returns. -/
structure RawResult (cfg : Settings) (nodes : nodes_t) (raw : List (List word_edge)) : Prop where
  isRaw : ∀ q ∈ raw, 2 ≤ q.length ∧ q.length ≤ cfg.MAX_SEARCH_SIZE + 1 ∧
    IsRawSolution nodes q.length q
  sorted : raw.Pairwise fun p q => p.length ≤ q.length
  nodup : raw.Nodup
  within : raw.length ≤ cfg.MAX_SOLUTIONS
  represented : raw.length < cfg.MAX_SOLUTIONS → ∀ k, k + 1 ≤ cfg.MAX_SEARCH_SIZE →
    ∀ t ∈ (chains nodes).Level starts k, ∀ e, (chains nodes).enabled t e →
      Covers ((chains nodes).next t e) → Represented nodes raw k t e
  nearest : ∀ m, (chains nodes).IsGoalDist starts Covers m → m ≤ cfg.MAX_SEARCH_SIZE →
    ∃ q ∈ raw, q.length = m + 1

/-- Where no chain covers, there is nothing to return. -/
theorem rawResult_nil (cfg : Settings)
    (hnone : ∀ k s, (chains nodes).ReachesIn starts k s → ¬Covers s) : RawResult cfg nodes [] := by
  refine ⟨fun q hq => ?_, .nil, .nil, Nat.zero_le _, ?_, ?_⟩
  · exact absurd hq List.not_mem_nil
  · intro _ k _ t ht e he hcovers
    exact absurd hcovers (hnone _ _ ((level_reachesIn ht).move he))
  · intro m hm _
    obtain ⟨s, hcovers, hs⟩ := hm.1.2
    exact absurd hcovers (hnone _ _ hs)

/-- What the loop has collected where it ends. -/
theorem Deepened.rawResult {s : SearchState} (h : Deepened cfg nodes depth s)
    (hle : depth ≤ cfg.MAX_SEARCH_SIZE + 2)
    (hfull : s.solutions.length < cfg.MAX_SOLUTIONS → depth = cfg.MAX_SEARCH_SIZE + 2) :
    RawResult cfg nodes s.solutions := by
  refine ⟨fun q hq => ?_, h.sorted, h.nodup, h.within, fun hroom k hk => ?_, fun m hm hlt => ?_⟩
  · obtain ⟨htwo, hlt, hq⟩ := h.raw q hq
    exact ⟨htwo, by omega, hq⟩
  · have hdepth := hfull hroom
    exact h.represented hroom k (by omega)
  · by_cases hroom : m + 1 < depth
    · exact h.nearest m hm hroom
    · -- the loop was left early, so it holds solutions, and none is this near
      exfalso
      have hfew : ¬s.solutions.length < cfg.MAX_SOLUTIONS := fun hlt => by
        have hdepth := hfull hlt
        omega
      have hpos := cfg.solutions_pos
      obtain ⟨q, hq⟩ := List.exists_mem_of_length_pos (show 0 < s.solutions.length by omega)
      obtain ⟨htwo, hlen, hraw⟩ := h.raw q hq
      have hge := hraw.nearest_le htwo hm
      omega

/-- **`solve_raw` meets its specification.** -/
theorem solve_raw_result (cfg : Settings) (hnodes : WellHashed nodes) :
    ∃ raw, solve_raw cfg nodes = some (.ok raw) ∧ RawResult cfg nodes raw := by
  have hpos := cfg.search_pos
  have hmin : MIN_SOLUTION_SIZE = 1 := rfl
  unfold solve_raw
  by_cases hearly : early_terminate_instance nodes = true
  · rw [if_pos hearly]
    exact ⟨[], rfl, rawResult_nil cfg fun k s hs => early_terminate_no_cover hnodes hearly hs⟩
  · have hstart : Deepens cfg nodes (MIN_SOLUTION_SIZE + 1) .init := .start
    obtain ⟨s, depth, hrun, hdeepens, hle, hfull⟩ := deepen_eq_some hnodes
      (cfg.MAX_SEARCH_SIZE + 1 - MIN_SOLUTION_SIZE) _ _ hstart (by omega)
    rw [if_neg hearly, run_bind_ok hrun]
    exact ⟨s.solutions, rfl, (hdeepens.deepened hnodes).rawResult hle hfull⟩

end LetterBoxed
