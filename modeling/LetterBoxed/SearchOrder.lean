/-
Which chains `solve` returns, and in which order.

The word graph of a box has letter-set hashes, so the result of the search is
the list of `breadth_first`. Behind one state, a node with the letters used so
far, the list has one chain for each edge that completes the cover, and the
words before that edge are a shortest way to the state.
-/
import LetterBoxed.BreadthFirst
import LetterBoxed.WordChains

set_option autoImplicit false

open Paths

namespace LetterBoxed

variable {nodes : nodes_t}

/-- `solve` returns the traces of the list. -/
theorem solve_traces {box : Box} {bw : BoxWords box} {compressionIndex : compression_index_t}
    (cfg : Settings) (hmin : cfg.STATE_CACHE_MIN_DEPTH ≤ 2)
    (hbuild : build_graph compressionIndex bw.words bw.hashes init_nodes = .ok nodes)
    (hbuilt : Built box bw.words bw.hashes bw.words.length nodes) :
    ∃ sols, trace_solutions bw.words (breadth_first cfg nodes) = .ok sols ∧
      List.Forall₂ (Traced bw.words) (breadth_first cfg nodes) sols ∧
      solve cfg compressionIndex bw.words bw.hashes = some (.ok sols) := by
  have hsearch := solve_raw_eq_breadth_first hbuilt.wellHashed hmin
  obtain ⟨raw, hraw, hresult⟩ := solve_raw_result cfg hbuilt.wellHashed
  rw [hsearch] at hraw
  cases hraw
  obtain ⟨sols, htrace, htraced⟩ := exists_mapM fun q hq =>
    exists_traced hbuilt (hresult.isRaw q hq).2.2
  refine ⟨sols, htrace, htraced, ?_⟩
  have hlength : ¬bw.words.length ≠ bw.hashes.length := by
    rw [bw.buildable.length_eq]
    exact not_not.mpr rfl
  unfold solve
  rw [if_neg hlength]
  dsimp only
  rw [run_lift_ok hbuild, run_bind_ok hsearch]
  unfold trace_solutions
  rw [htrace]
  rfl

/-- **The list of the search.** With the threshold of the repository, or a lower
one, `solve_raw` returns what breadth-first search with one path to each state
lists, and `solve` returns its traces. -/
theorem solve_lists_breadth_first (box : Box) (bw : BoxWords box) (cfg : Settings)
    (hmin : cfg.STATE_CACHE_MIN_DEPTH ≤ 2) :
    ∃ compressionIndex nodes sols,
      gen_compression_index box.characters = .ok compressionIndex ∧
      build_graph compressionIndex bw.words bw.hashes init_nodes = .ok nodes ∧
      solve_raw cfg nodes = some (.ok (breadth_first cfg nodes)) ∧
      trace_solutions bw.words (breadth_first cfg nodes) = .ok sols ∧
      solve cfg compressionIndex bw.words bw.hashes = some (.ok sols) := by
  obtain ⟨compressionIndex, hindexed, hindex⟩ := gen_compression_index_box box
  obtain ⟨nodes, hbuild, hbuilt⟩ := build_graph_built hindex bw.buildable
  obtain ⟨sols, htrace, _, hsolve⟩ := solve_traces cfg hmin hbuild hbuilt
  exact ⟨compressionIndex, nodes, sols, hindexed, hbuild,
    solve_raw_eq_breadth_first hbuilt.wellHashed hmin, htrace, hsolve⟩

/-- The words `adbecf` and `fgjhkil` over the first box. -/
def two_words : BoxWords first_box where
  words := [[97, 100, 98, 101, 99, 102], [102, 103, 106, 104, 107, 105, 108]]
  ne_nil := by decide
  letters := by decide +kernel

/-- With the settings of the repository. -/
theorem solve_lists_breadth_first_two_words : settings.STATE_CACHE_MIN_DEPTH ≤ 2 ∧
    ∃ compressionIndex nodes,
      gen_compression_index first_box.characters = .ok compressionIndex ∧
      build_graph compressionIndex two_words.words two_words.hashes init_nodes = .ok nodes ∧
      solve_raw settings nodes = some (.ok (breadth_first settings nodes)) := by
  obtain ⟨compressionIndex, nodes, _, hindex, hbuild, hraw, _⟩ :=
    solve_lists_breadth_first first_box two_words settings (by decide)
  exact ⟨by decide, compressionIndex, nodes, hindex, hbuild, hraw⟩

/-! ## The settings -/

/-- One word deep, for one solution. -/
def least_settings : Settings where
  MAX_SEARCH_SIZE := 1
  MAX_SOLUTIONS := 1
  STATE_CACHE_MIN_DEPTH := 0
  search_pos := by decide
  search_le := by decide
  solutions_pos := by decide

/-- With larger bounds the list goes on behind what it had, and unless the cap
has cut it, only by chains of more words than were searched. -/
theorem breadth_first_extends (nodes : nodes_t) {cfg cfg' : Settings}
    (hsize : cfg.MAX_SEARCH_SIZE ≤ cfg'.MAX_SEARCH_SIZE)
    (hcap : cfg.MAX_SOLUTIONS ≤ cfg'.MAX_SOLUTIONS) :
    ∃ more, breadth_first cfg' nodes = breadth_first cfg nodes ++ more ∧
      ((breadth_first cfg nodes).length < cfg.MAX_SOLUTIONS →
        ∀ q ∈ more, cfg.MAX_SEARCH_SIZE + 1 < q.length) := by
  obtain ⟨d, hd⟩ := Nat.exists_eq_add_of_le hsize
  unfold breadth_first
  rw [hd, breadth_first_add, List.map_append]
  generalize hfound : ((chain_search nodes).breadth_first start_nodes
    cfg.MAX_SEARCH_SIZE).map raw_path = found
  by_cases hroom : found.length < cfg.MAX_SOLUTIONS
  · -- nothing is cut off
    rw [List.take_of_length_le (Nat.le_of_lt hroom), List.take_append,
      List.take_of_length_le (by omega)]
    refine ⟨_, rfl, fun _ q hq => ?_⟩
    obtain ⟨u, hu, rfl⟩ := List.mem_map.mp (List.mem_of_mem_take hq)
    obtain ⟨k, _, hk⟩ := List.mem_flatMap.mp hu
    rw [raw_path, List.length_cons, length_of_mem_goal_paths hk]
    omega
  · obtain ⟨more, hmore⟩ : found.take cfg.MAX_SOLUTIONS <+: _ :=
      (List.take_prefix_take_left hcap).trans ((List.prefix_append found _).take _)
    refine ⟨more, hmore.symm, fun hlen => ?_⟩
    rw [List.length_take] at hlen
    omega

/-- **Larger bounds only add solutions.** If `MAX_SEARCH_SIZE` and
`MAX_SOLUTIONS` grow, the solutions stay, in their order, and others come behind
them. If the smaller cap was not met, these have more words than were searched
before. -/
theorem larger_bounds_extend (box : Box) (bw : BoxWords box) (cfg cfg' : Settings)
    (hmin : cfg.STATE_CACHE_MIN_DEPTH ≤ 2) (hmin' : cfg'.STATE_CACHE_MIN_DEPTH ≤ 2)
    (hsize : cfg.MAX_SEARCH_SIZE ≤ cfg'.MAX_SEARCH_SIZE)
    (hcap : cfg.MAX_SOLUTIONS ≤ cfg'.MAX_SOLUTIONS) :
    ∃ compressionIndex sols more,
      gen_compression_index box.characters = .ok compressionIndex ∧
      solve cfg compressionIndex bw.words bw.hashes = some (.ok sols) ∧
      solve cfg' compressionIndex bw.words bw.hashes = some (.ok (sols ++ more)) ∧
      (sols.length < cfg.MAX_SOLUTIONS →
        ∀ sol ∈ more, cfg.MAX_SEARCH_SIZE < sol.chain.length) := by
  obtain ⟨compressionIndex, hindexed, hindex⟩ := gen_compression_index_box box
  obtain ⟨nodes, hbuild, hbuilt⟩ := build_graph_built hindex bw.buildable
  obtain ⟨sols, htrace, htraced, hsolve⟩ := solve_traces cfg hmin hbuild hbuilt
  obtain ⟨sols', htrace', htraced', hsolve'⟩ := solve_traces cfg' hmin' hbuild hbuilt
  obtain ⟨rest, hrest, hlonger⟩ := breadth_first_extends nodes hsize hcap
  -- what is traced first is what the smaller bounds return
  rw [hrest] at htrace' htraced'
  unfold trace_solutions at htrace htrace'
  rw [List.mapM_append, htrace] at htrace'
  obtain ⟨more, hmore, hsols'⟩ : ∃ more, rest.mapM (trace_solution bw.words) = .ok more ∧
      sols' = sols ++ more := by
    cases hcase : rest.mapM (trace_solution bw.words) with
    | error fault =>
        rw [hcase] at htrace'
        cases htrace'
    | ok more =>
        rw [hcase] at htrace'
        cases htrace'
        exact ⟨more, rfl, rfl⟩
  subst hsols'
  refine ⟨compressionIndex, sols, more, hindexed, hsolve, hsolve', fun hroom sol hsol => ?_⟩
  have hbehind := List.forall₂_drop_append _ _ _ htraced'
  rw [← htraced.length_eq, List.drop_left] at hbehind
  rw [← htraced.length_eq] at hroom
  obtain ⟨q, hq, hqsol⟩ := exists_left_of_forall₂ hbehind hsol
  have hlen := hlonger hroom q hq
  have hsol_len := hqsol.length_eq
  omega

/-- From the least settings to those of the repository. -/
theorem larger_bounds_extend_two_words :
    (least_settings.STATE_CACHE_MIN_DEPTH ≤ 2 ∧ settings.STATE_CACHE_MIN_DEPTH ≤ 2 ∧
      least_settings.MAX_SEARCH_SIZE ≤ settings.MAX_SEARCH_SIZE ∧
      least_settings.MAX_SOLUTIONS ≤ settings.MAX_SOLUTIONS) ∧
    ∃ compressionIndex sols more,
      gen_compression_index first_box.characters = .ok compressionIndex ∧
      solve least_settings compressionIndex two_words.words two_words.hashes = some (.ok sols) ∧
      solve settings compressionIndex two_words.words two_words.hashes =
        some (.ok (sols ++ more)) := by
  obtain ⟨compressionIndex, sols, more, hindex, hsolve, hsolve', _⟩ :=
    larger_bounds_extend first_box two_words least_settings settings (by decide) (by decide)
      (by decide) (by decide)
  exact ⟨by decide, compressionIndex, sols, more, hindex, hsolve, hsolve'⟩

/-! ## One chain for each end -/

/-- A state has one level: no chain comes back to a start, as its letters are
not unused again. -/
theorem level_unique (hnodes : WellHashed nodes) {j k : Nat} {t : search_node}
    (hj : t ∈ (chains nodes).Level starts j) (hk : t ∈ (chains nodes).Level starts k) : j = k := by
  have hstart : ∀ {i}, t ∈ (chains nodes).Level starts (i + 1) → t ∉ starts := by
    intro i hi hstart
    have hbit := (reachesIn_isSearchNode hnodes (level_reachesIn hi)).own_bit
    rw [show t.2 = 0#32 from hstart, BitVec.getLsbD_zero] at hbit
    cases hbit
  cases j with
  | zero =>
      cases k with
      | zero => rfl
      | succ k => exact absurd hj (hstart hk)
  | succ j =>
      cases k with
      | zero => exact absurd hk (hstart hj)
      | succ k => exact Space.IsDist.unique hj hk

/-- What the list holds. -/
theorem mem_chain_list {n : Nat} {q : List word_edge} :
    q ∈ ((chain_search nodes).breadth_first start_nodes n).map raw_path ↔
      ∃ k < n, ∃ t ∈ (chain_search nodes).round start_nodes k, ∃ e,
        (chains nodes).enabled (path_state nodes (raw_path t)) e ∧
        Covers ((chains nodes).next (path_state nodes (raw_path t)) e) ∧ q = raw_path t ++ [e] := by
  rw [List.mem_map]
  constructor
  · rintro ⟨u, hu, rfl⟩
    obtain ⟨k, hk, t, ht, e, he, rfl, hgoal⟩ := mem_breadth_first.mp hu
    refine ⟨k, hk, t, ht, e, ?_⟩
    rw [path_state_raw_path (isEntry_of_mem_round t ht).start]
    exact ⟨he, of_decide_eq_true hgoal, rfl⟩
  · rintro ⟨k, hk, t, ht, e, he, hcovers, rfl⟩
    rw [path_state_raw_path (isEntry_of_mem_round t ht).start] at he hcovers
    exact ⟨(t.1, t.2 ++ [e]),
      mem_breadth_first.mpr ⟨k, hk, t, ht, e, he, rfl, decide_eq_true hcovers⟩, rfl⟩

/-- An entry of round `k` leads to a state of level `k`. -/
theorem raw_path_level {k : Nat} {t : search_node × List word_edge}
    (ht : t ∈ (chain_search nodes).round start_nodes k) :
    (raw_path t).length = k + 1 ∧
      path_state nodes (raw_path t) ∈ (chains nodes).Level starts k := by
  have hentry := isEntry_of_mem_round t ht
  refine ⟨by simp [raw_path, hentry.length_eq], ?_⟩
  rw [path_state_raw_path hentry.start, ← set_start_nodes]
  exact mem_round_states.mp (List.mem_map_of_mem ht)

/-- **One chain for each end.** The words before the last of a returned chain
are a shortest way to the node they end in with the letters they use. No two
returned chains have the same last edge behind the same state. If fewer than
`MAX_SOLUTIONS` chains are returned, then behind every state of fewer than
`MAX_SEARCH_SIZE` words, every edge that completes the cover ends exactly one. -/
theorem one_chain_for_each_end (box : Box) (bw : BoxWords box) (cfg : Settings)
    (hmin : cfg.STATE_CACHE_MIN_DEPTH ≤ 2) :
    ∃ compressionIndex nodes raw,
      gen_compression_index box.characters = .ok compressionIndex ∧
      build_graph compressionIndex bw.words bw.hashes init_nodes = .ok nodes ∧
      solve_raw cfg nodes = some (.ok raw) ∧
      (∀ q ∈ raw, ∃ k < cfg.MAX_SEARCH_SIZE, ∃ path e, q = path ++ [e] ∧ path.length = k + 1 ∧
        path_state nodes path ∈ (chains nodes).Level starts k) ∧
      (∀ path path' e, path ++ [e] ∈ raw → path' ++ [e] ∈ raw →
        path_state nodes path = path_state nodes path' → path = path') ∧
      (raw.length < cfg.MAX_SOLUTIONS → ∀ k < cfg.MAX_SEARCH_SIZE,
        ∀ t ∈ (chains nodes).Level starts k, ∀ e, (chains nodes).enabled t e →
          Covers ((chains nodes).next t e) →
          ∃! path, path.length = k + 1 ∧ path_state nodes path = t ∧ path ++ [e] ∈ raw) := by
  obtain ⟨compressionIndex, hindexed, hindex⟩ := gen_compression_index_box box
  obtain ⟨nodes, hbuild, hbuilt⟩ := build_graph_built hindex bw.buildable
  have hnodes := hbuilt.wellHashed
  have hsearch := solve_raw_eq_breadth_first hnodes hmin
  have hlisted : ∀ q ∈ breadth_first cfg nodes, ∃ k < cfg.MAX_SEARCH_SIZE,
      ∃ t ∈ (chain_search nodes).round start_nodes k, ∃ e, q = raw_path t ++ [e] := by
    intro q hq
    obtain ⟨k, hk, t, ht, e, _, _, heq⟩ := mem_chain_list.mp (List.mem_of_mem_take hq)
    exact ⟨k, hk, t, ht, e, heq⟩
  have hunique : ∀ path path' e, path ++ [e] ∈ breadth_first cfg nodes →
      path' ++ [e] ∈ breadth_first cfg nodes →
      path_state nodes path = path_state nodes path' → path = path' := by
    intro path path' e hpath hpath' hstate
    obtain ⟨k, _, t, ht, _, heq⟩ := hlisted _ hpath
    obtain ⟨k', _, t', ht', _, heq'⟩ := hlisted _ hpath'
    obtain ⟨rfl, _⟩ := List.append_inj' heq rfl
    obtain ⟨rfl, _⟩ := List.append_inj' heq' rfl
    -- one state has one level, and one entry of the round
    have hlevel := (raw_path_level ht).2
    rw [hstate] at hlevel
    obtain rfl := level_unique hnodes hlevel (raw_path_level ht').2
    rw [path_state_raw_path (isEntry_of_mem_round t ht).start,
      path_state_raw_path (isEntry_of_mem_round t' ht').start] at hstate
    rw [round_unique start_nodes_nodup ht ht' hstate]
  refine ⟨compressionIndex, nodes, breadth_first cfg nodes, hindexed, hbuild, hsearch,
    fun q hq => ?_, hunique, fun hroom k hk t ht e he hcovers => ?_⟩
  · obtain ⟨k, hk, t, ht, e, rfl⟩ := hlisted q hq
    obtain ⟨hlen, hlevel⟩ := raw_path_level ht
    exact ⟨k, hk, raw_path t, e, rfl, hlen, hlevel⟩
  · obtain ⟨raw, hsearch', hresult⟩ := solve_raw_result cfg hnodes
    rw [hsearch] at hsearch'
    cases hsearch'
    obtain ⟨path, hlen, hstate, hmem⟩ := hresult.represented hroom k hk t ht e he hcovers
    refine ⟨path, ⟨hlen, hstate, hmem⟩, ?_⟩
    rintro path' ⟨_, hstate', hmem'⟩
    exact hunique path' path e hmem' hmem (hstate'.trans hstate.symm)

/-- With the settings of the repository. -/
theorem one_chain_for_each_end_two_words : settings.STATE_CACHE_MIN_DEPTH ≤ 2 ∧
    ∃ compressionIndex nodes raw,
      gen_compression_index first_box.characters = .ok compressionIndex ∧
      build_graph compressionIndex two_words.words two_words.hashes init_nodes = .ok nodes ∧
      solve_raw settings nodes = some (.ok raw) ∧
      ∀ path path' e, path ++ [e] ∈ raw → path' ++ [e] ∈ raw →
        path_state nodes path = path_state nodes path' → path = path' := by
  obtain ⟨compressionIndex, nodes, raw, hindex, hbuild, hraw, _, hunique, _⟩ :=
    one_chain_for_each_end first_box two_words settings (by decide)
  exact ⟨by decide, compressionIndex, nodes, raw, hindex, hbuild, hraw, hunique⟩

end LetterBoxed
