/-
What the search guarantees on every word list over a box.

Termination needs nothing of the input; the exactness of the cache and the
shape of the result are stated for the graphs that `build_graph` makes of
words over the box with their letter-set hashes. On those graphs every state
the search asks the cache about is a search node, so its key stands for it
alone.
-/
import LetterBoxed.Solutions

set_option autoImplicit false

open Paths

namespace LetterBoxed

/-! ## Termination -/

theorem solve_ne_none (cfg : Settings) (compression_index : compression_index_t)
    (words : List (List UInt8)) (word_hashes : List char_mask_t) :
    solve cfg compression_index words word_hashes ≠ none := by
  unfold solve
  by_cases hlen : words.length ≠ word_hashes.length
  · rw [if_pos hlen]
    exact Option.some_ne_none _
  · rw [if_neg hlen]
    cases hbuild : build_graph compression_index words word_hashes init_nodes with
    | error fault => exact Option.some_ne_none _
    | ok nodes =>
        dsimp only
        rw [run_lift_ok rfl]
        apply run_bind_ne_none (solve_raw_ne_none cfg nodes)
        exact fun raw => Option.some_ne_none _

/-- **`dfs` terminates when paths are bounded**, on every graph: if
`next_state_fn` returns empty on every path of at least `D` edges, whatever it
has captured, the loop is left. So every iteration of the deepening loop
terminates, and so does `solve`. -/
theorem bounded_dfs_terminates :
    (∀ (Node Edge State World : Type) (g : Graph Node Edge) (cb : Callbacks Edge State World)
        (D : Nat), (∀ prev path w, D ≤ path.length → (cb.next_state_fn prev path w).1 = none) →
        ∀ root initial_state w, ∃ b w', dfs g cb root initial_state w = some (.ok (b, w'))) ∧
      (∀ (cfg : Settings) (nodes : nodes_t) (depth : Nat) (s : SearchState), 2 ≤ depth →
        search_iteration cfg nodes depth s ≠ none) ∧
      ∀ (cfg : Settings) (compression_index : compression_index_t) (words : List (List UInt8))
        (word_hashes : List char_mask_t),
        solve cfg compression_index words word_hashes ≠ none := by
  refine ⟨?_, fun cfg nodes depth s hdepth => search_iteration_ne_none cfg nodes hdepth s,
    solve_ne_none⟩
  intro Node Edge State World g cb D hbound root initial_state w
  -- the empty path is never asked about, so a bound of zero is a bound of one
  have hpos : 0 < max D 1 := by omega
  refine dfs_terminates hpos (fun prev path w hlen => hbound prev path w ?_) root initial_state w
  omega

/-! ## The state cache -/

/-- A write of `next_state_fn` never raises a depth ceiling. -/
theorem next_state_ceiling_le (cfg : Settings) (nodes : nodes_t) (depth : Nat)
    (prev : char_mask_t) (path : List word_edge) (s : SearchState) (key : Nat) :
    ((next_state_fn cfg nodes depth prev path s).2.stateDepthCache key).depthCeiling.toNat ≤
      (s.stateDepthCache key).depthCeiling.toNat := by
  simp only [next_state_fn, next_state_with]
  by_cases hrouter : path.length ≤ 1
  · rw [if_pos hrouter]
  · rw [if_neg hrouter]
    rcases path.getLast? with _ | e
    · exact Nat.le_refl _
    · dsimp only
      by_cases hfinal : path.length = depth
      · -- the solution test does not touch the cache
        rw [if_pos hfinal]
        dsimp only
        split_ifs <;> exact Nat.le_refl _
      · rw [if_neg hfinal]
        by_cases hmin : depth ≤ cfg.STATE_CACHE_MIN_DEPTH
        · rw [if_pos hmin]
        · rw [if_neg hmin]
          exact check_cache_ceiling_le _ _ _ _ s key

/-- **The state cache holds exact shortest distances.** No call raises a depth
ceiling. When the deepening loop has run the iteration of a `depth` that uses
the cache, and the iteration was not stopped, the entry of node `n` and letters
`mask` has ceiling `k + 1` if `k`, the least positive number of edges to that
state, is at most `depth - 2`, and is 255 otherwise. -/
theorem cache_holds_distances (box : Box) (bw : BoxWords box) (cfg : Settings) :
    ∃ compressionIndex nodes,
      gen_compression_index box.characters = .ok compressionIndex ∧
      build_graph compressionIndex bw.words bw.hashes init_nodes = .ok nodes ∧
      (∀ depth prev path s key,
        ((next_state_fn cfg nodes depth prev path s).2.stateDepthCache key).depthCeiling.toNat ≤
          (s.stateDepthCache key).depthCeiling.toNat) ∧
      ∀ depth s s', Deepens cfg nodes depth s → depth ≤ cfg.MAX_SEARCH_SIZE + 1 →
        s.solutions.length < cfg.MAX_SOLUTIONS →
        search_iteration cfg nodes depth s = some (.ok (true, s')) →
        cfg.STATE_CACHE_MIN_DEPTH < depth →
        ∀ (n : Fin BOX_CHARS) (mask : char_mask_t), mask.toNat < 2 ^ BOX_CHARS →
          mask.getLsbD n = true →
          (∀ k, (chains nodes).IsDist starts k (n, mask) → k + 2 ≤ depth →
            (s'.stateDepthCache (cache_hash n mask)).depthCeiling.toNat = k + 1) ∧
          ((∀ k, (chains nodes).IsDist starts k (n, mask) → depth < k + 2) →
            (s'.stateDepthCache (cache_hash n mask)).depthCeiling.toNat = 255) := by
  obtain ⟨compressionIndex, hindexed, hindex⟩ := gen_compression_index_box box
  obtain ⟨nodes, hbuild, hbuilt⟩ := build_graph_built hindex bw.buildable
  have hnodes := hbuilt.wellHashed
  refine ⟨compressionIndex, nodes, hindexed, hbuild, next_state_ceiling_le cfg nodes, ?_⟩
  intro depth s s' hdeepens hdepth _ hrun hmin n mask hmask hbit
  have hdeepened := hdeepens.deepened hnodes
  -- the iteration ran on what the iterations before it had recorded
  have hfinished := (hdeepened.iterated hnodes hdepth hrun).cached rfl hdeepened.recorded hmin
  exact hfinished.ceiling hnodes ⟨hmask, hbit⟩

/-- In some iteration of `solve_raw`, `next_state_fn` is asked about a path of
at least two edges, whose last edge leads to `nextIdx`, with letters `pathHash`.
The calls of an iteration are those of `dfs` with callbacks that log them. -/
def Asked (cfg : Settings) (nodes : nodes_t) (nextIdx : Nat) (pathHash : char_mask_t) : Prop :=
  ∃ depth s b s' calls, ∃ (prev : char_mask_t) (ptr_rng : List word_edge) (lastEdge : word_edge)
      (answer : Option char_mask_t),
    Deepens cfg nodes depth s ∧ depth ≤ cfg.MAX_SEARCH_SIZE + 1 ∧
    s.solutions.length < cfg.MAX_SOLUTIONS ∧
    dfs (word_graph nodes) (search_callbacks cfg nodes depth).logged router_node 0#32 (s, []) =
      some (.ok (b, s', calls)) ∧
    .next prev ptr_rng answer ∈ calls ∧ 2 ≤ ptr_rng.length ∧
    ptr_rng.getLast? = some lastEdge ∧ nextIdx = (nodes.get lastEdge.to).compressedIdx ∧
    pathHash = prev ||| lastEdge.wordHash

/-- What is asked about is a search state. -/
theorem Asked.isSearchNode {cfg : Settings} {nodes : nodes_t} (hnodes : WellHashed nodes)
    {nextIdx : Nat} {pathHash : char_mask_t} (h : Asked cfg nodes nextIdx pathHash) :
    ∃ i : Fin BOX_CHARS, nextIdx = i ∧ IsSearchNode (i, pathHash) := by
  obtain ⟨depth, s, b, s', calls, prev, ptr_rng, lastEdge, answer, _, _, _, hrun, hcall, hlen,
    hlast, rfl, rfl⟩ := h
  obtain ⟨log, hsearch⟩ := dfs_eq_some_iff.mp hrun
  obtain ⟨hsearch, hlog⟩ := hsearch.unlog
  rw [List.nil_append] at hlog
  dsimp only at hlog
  subst hlog
  -- the callbacks of either kind ask at frames only
  obtain ⟨e, edges, path, rfl, hframe⟩ : ∃ e edges path, ptr_rng = path ++ [e] ∧
      Frame nodes (e :: edges) path prev := by
    by_cases hmin : depth ≤ cfg.STATE_CACHE_MIN_DEPTH
    · rw [search_callbacks_plain hmin] at hsearch
      exact explore_asks neutral_plain hsearch frame_root hcall
    · rw [search_callbacks_cached hmin] at hsearch
      exact explore_asks (neutral_cached nodes depth) hsearch frame_root hcall
  rw [List.getLast?_concat, Option.some.injEq] at hlast
  subst hlast
  have hne : path ≠ [] := by
    rintro rfl
    simp at hlen
  obtain ⟨hstate, _, heq⟩ := hframe.next_state hnodes hne
  rw [heq] at hstate
  exact ⟨e.to, hnodes.compressedIdx_eq e.to, hstate⟩

/-- **The cache key is free of collisions.** Whatever path of at least two edges
`next_state_fn` is asked about, its letters are letters of the box and include
that of its last node, and its key is below the size of the cache. Two such
paths have one key if and only if they agree on the node and on the letters. -/
theorem cache_keys_collision_free (box : Box) (bw : BoxWords box) (cfg : Settings) :
    ∃ compressionIndex nodes,
      gen_compression_index box.characters = .ok compressionIndex ∧
      build_graph compressionIndex bw.words bw.hashes init_nodes = .ok nodes ∧
      (∀ nextIdx pathHash, Asked cfg nodes nextIdx pathHash →
        pathHash.toNat < 2 ^ BOX_CHARS ∧ pathHash.getLsbD nextIdx = true ∧
          cache_hash nextIdx pathHash < CACHE_SIZE) ∧
      ∀ nextIdx pathHash nextIdx' pathHash', Asked cfg nodes nextIdx pathHash →
        Asked cfg nodes nextIdx' pathHash' →
          (cache_hash nextIdx pathHash = cache_hash nextIdx' pathHash' ↔
            nextIdx = nextIdx' ∧ pathHash = pathHash') := by
  obtain ⟨compressionIndex, hindexed, hindex⟩ := gen_compression_index_box box
  obtain ⟨nodes, hbuild, hbuilt⟩ := build_graph_built hindex bw.buildable
  have hnodes := hbuilt.wellHashed
  refine ⟨compressionIndex, nodes, hindexed, hbuild, fun nextIdx pathHash hasked => ?_,
    fun nextIdx pathHash nextIdx' pathHash' hasked hasked' => ?_⟩
  · obtain ⟨i, rfl, hstate⟩ := hasked.isSearchNode hnodes
    have hlt := cache_key_lt hstate
    unfold cache_key at hlt
    exact ⟨hstate.mask_lt, hstate.own_bit, hlt⟩
  · obtain ⟨i, rfl, hstate⟩ := hasked.isSearchNode hnodes
    obtain ⟨j, rfl, hstate'⟩ := hasked'.isSearchNode hnodes
    have hinj := cache_key_inj hstate hstate'
    unfold cache_key at hinj
    rw [hinj, Prod.mk.injEq, Fin.ext_iff]

/-! ## The result list -/

/-- **The shape of the result.** At most `MAX_SOLUTIONS` entries, never shorter
than the one before, and no chain of words can be read off two of them. -/
theorem result_list_shape (box : Box) (bw : BoxWords box) (cfg : Settings) :
    ∃ compressionIndex sols,
      gen_compression_index box.characters = .ok compressionIndex ∧
      solve cfg compressionIndex bw.words bw.hashes = some (.ok sols) ∧
      sols.length ≤ cfg.MAX_SOLUTIONS ∧
      (sols.Pairwise fun sol sol' => sol.chain.length ≤ sol'.chain.length) ∧
      sols.Pairwise fun sol sol' => ∀ chain, sol.Reads chain → ¬sol'.Reads chain := by
  obtain ⟨compressionIndex, hindexed, hindex⟩ := gen_compression_index_box box
  obtain ⟨sols, hrun, ⟨hsolved⟩⟩ := exists_solved cfg hindex bw
  exact ⟨compressionIndex, sols, hindexed, hrun, hsolved.length_le, hsolved.sorted,
    hsolved.disjoint⟩

end LetterBoxed
