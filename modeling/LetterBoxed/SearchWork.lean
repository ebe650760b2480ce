/-
How much work an iteration of the search is.

A plain iteration of depth `d` would try every chain of up to `d - 1` words.
With the cache an iteration follows a path to each state at most once, and it
tries the edges behind the paths it follows. There are twelve nodes with two
to the eleven masks each, so the work is linear in the number of edges, and in
that of the words, whatever the depth.

There is no work at all if the words leave a letter out, as
`early_terminate_instance` finds by one pass over the edges. The loop would then
find nothing.
-/
import LetterBoxed.SearchOrder

set_option autoImplicit false

open Paths

namespace LetterBoxed

variable {nodes : nodes_t} {depth : Nat}

/-- The edges of the graph. -/
def edge_count (nodes : nodes_t) : Nat :=
  ((List.finRange BOX_CHARS).map fun i => (outgoing nodes i).length).sum

/-! ## Counting states -/

/-- Each node has as many search states as there are masks with its bit. -/
theorem card_states_le {states : Finset search_node} (hstates : ∀ s ∈ states, IsSearchNode s)
    (i : Fin BOX_CHARS) : (states.filter fun s => s.1 = i).card ≤ MAX_STATES := by
  calc (states.filter fun s => s.1 = i).card ≤ (Finset.range MAX_STATES).card := by
        refine Finset.card_le_card_of_injOn (fun s => (compress_hash s.2 s.1).toNat)
          (fun s hs => ?_) fun s hs t ht heq => ?_
        · obtain ⟨hs, _⟩ := Finset.mem_filter.mp hs
          exact Finset.mem_coe.mpr (Finset.mem_range.mpr (compress_hash_lt (hstates s hs)))
        · -- states of one node with one compressed hash have one key
          obtain ⟨hs, hsi⟩ := Finset.mem_filter.mp hs
          obtain ⟨ht, hti⟩ := Finset.mem_filter.mp ht
          apply (cache_key_inj (hstates s hs) (hstates t ht)).mp
          dsimp only at heq
          rw [cache_key, cache_key, cache_hash, cache_hash, heq, hsi, hti]
    _ = MAX_STATES := Finset.card_range MAX_STATES

/-- Summed over states, a number that each node has counts at most
`MAX_STATES` times. -/
theorem sum_states_le {states : List search_node} (hnodup : states.Nodup)
    (hstates : ∀ s ∈ states, IsSearchNode s) (f : Fin BOX_CHARS → Nat) :
    (states.map fun s => f s.1).sum ≤ MAX_STATES * ((List.finRange BOX_CHARS).map f).sum := by
  have hmem : ∀ s ∈ states.toFinset, IsSearchNode s := fun s hs =>
    hstates s (List.mem_toFinset.mp hs)
  calc (states.map fun s => f s.1).sum = ∑ s ∈ states.toFinset, f s.1 :=
        (List.sum_toFinset _ hnodup).symm
    _ = ∑ i : Fin BOX_CHARS, ∑ s ∈ states.toFinset with s.1 = i, f s.1 :=
        (Finset.sum_fiberwise states.toFinset (fun s => s.1) _).symm
    _ ≤ ∑ i : Fin BOX_CHARS, MAX_STATES * f i := by
        apply Finset.sum_le_sum
        intro i _
        rw [Finset.sum_congr rfl fun s hs => congrArg f (Finset.mem_filter.mp hs).2,
          Finset.sum_const, smul_eq_mul]
        exact Nat.mul_le_mul_right _ (card_states_le hmem i)
    _ = MAX_STATES * ∑ i : Fin BOX_CHARS, f i := (Finset.mul_sum _ _ _).symm
    _ = MAX_STATES * ((List.finRange BOX_CHARS).map f).sum := by
        rw [← List.sum_ofFn, List.ofFn_eq_map]

/-! ## What an iteration follows -/

/-- What is followed is not final. -/
theorem explore_followed_lt {extend : Extend} {stop : SearchState → Bool} (hdepth : 2 ≤ depth)
    {edges path : List word_edge} {mask : char_mask_t} {w w' : SearchState} {b : Bool}
    {calls : List (Call word_edge char_mask_t)}
    (h : Explore (word_graph nodes) (iteration_callbacks extend depth stop) edges path mask w b
      calls w') (hlen : path.length < depth) : ∀ q ∈ followed calls, q.length < depth := by
  refine Explore.compose (R := fun _ calls _ => ∀ q ∈ followed calls, q.length < depth)
    (F := fun _ path _ => path.length < depth) ?_ ?_ ?_ ?_ ?_ ?_ h hlen
  · intro _ _ _ calls₁ calls₂ h₁ h₂ q hq
    rw [followed_append, List.mem_append] at hq
    exact hq.elim (h₁ q) (h₂ q)
  · exact fun _ q hq => absurd hq List.not_mem_nil
  · exact fun _ _ _ _ q hq => absurd hq List.not_mem_nil
  · intro e edges path mask w w' answer hlen hnext q hq
    cases answer with
    | none => exact absurd hq List.not_mem_nil
    | some mask' =>
        rw [followed_next, followed_nil, List.mem_singleton] at hq
        rw [hq, List.length_append, List.length_singleton]
        exact next_state_some_lt hdepth hlen hnext
  · exact fun hlen => hlen
  · intro e edges path mask mask' w w' hlen hnext
    rw [List.length_append, List.length_singleton]
    exact next_state_some_lt hdepth hlen hnext

/-- **No state twice.** The paths of words that an iteration follows lead to
different search states. -/
theorem iteration_states {cfg : Settings} (hnodes : WellHashed nodes)
    (hmin : cfg.STATE_CACHE_MIN_DEPTH ≤ 2) (hdepth : 2 ≤ depth) (hbyte : depth < 256)
    {s s' : SearchState} {b : Bool} {calls : List (Call word_edge char_mask_t)}
    (hs : Prepared nodes depth s)
    (h : Search (word_graph nodes) (search_callbacks cfg nodes depth) router_node 0#32 s b calls
      s') :
    ((followed_words calls).map (path_state nodes)).Nodup ∧
      ∀ t ∈ (followed_words calls).map (path_state nodes), IsSearchNode t := by
  have hroot : ([] : List word_edge).length < depth := by
    rw [List.length_nil]
    omega
  by_cases hplain : depth ≤ cfg.STATE_CACHE_MIN_DEPTH
  · -- one word is final
    rw [search_callbacks_plain hplain] at h
    have hnone : followed_words calls = [] := by
      unfold followed_words
      rw [List.filter_eq_nil_iff]
      intro q hq
      have hlt := explore_followed_lt hdepth h hroot q hq
      rw [decide_eq_true_eq]
      omega
    rw [hnone]
    exact ⟨.nil, fun t ht => absurd ht List.not_mem_nil⟩
  · rw [search_callbacks_cached hplain] at h
    have hfollows := explore_follows hnodes hdepth hbyte h frame_root hroot hs
    refine ⟨hfollows.nodup, fun t ht => ?_⟩
    obtain ⟨q, hq, rfl⟩ := List.mem_map.mp ht
    have hdist := hfollows.isDist q hq
    obtain ⟨k, hk⟩ := Nat.exists_eq_add_of_le' hdist.1.1
    have hreach := hdist.1.2
    rw [hk] at hreach
    exact reachesIn_isSearchNode hnodes hreach

/-- Followed paths are those of a router edge alone and those of words. -/
theorem sum_followed {calls : List (Call word_edge char_mask_t)} (f : List word_edge → Nat)
    (hempty : ∀ q ∈ followed calls, q ≠ []) :
    ((followed calls).map f).sum =
      ((followed_at 1 calls).map f).sum + ((followed_words calls).map f).sum := by
  unfold followed_at followed_words
  generalize followed calls = paths at hempty
  induction paths with
  | nil => rfl
  | cons q paths ih =>
      rw [List.forall_mem_cons] at hempty
      have hpos := List.length_pos_iff.mpr hempty.1
      by_cases hone : q.length = 1
      · simp only [List.filter_cons, hone, beq_self_eq_true, if_true, List.map_cons,
          List.sum_cons, ih hempty.2, show ¬2 ≤ 1 by omega, decide_false, Bool.false_eq_true,
          if_false]
        omega
      · have htwo : 2 ≤ q.length := by omega
        simp only [List.filter_cons, beq_iff_eq, hone, if_false, List.map_cons, List.sum_cons,
          ih hempty.2, htwo, decide_true, if_true]
        omega

/-- No call is about the empty path. -/
theorem explore_followed_ne_nil {Node Edge State World : Type} {g : Graph Node Edge}
    {cb : Callbacks Edge State World} {edges path : List Edge} {state : State} {w w' : World}
    {b : Bool} {calls : List (Call Edge State)}
    (h : Explore g cb edges path state w b calls w') : ∀ q ∈ followed calls, q ≠ [] := by
  intro q hq hnil
  subst hnil
  have hnone := (h.tried_at_eq_nil 0 (Nat.zero_le _)).2
  have hmem : [] ∈ followed_at 0 calls := by
    unfold followed_at
    exact List.mem_filter.mpr ⟨hq, rfl⟩
  rw [hnone] at hmem
  exact absurd hmem List.not_mem_nil

/-! ## The bound -/

/-- The edges behind a path are those of the node it ends in. -/
theorem length_extensions (nodes : nodes_t) {q : List word_edge} (hne : q ≠ []) :
    (extensions (word_graph nodes) q).length = (outgoing nodes (path_state nodes q).1).length := by
  obtain ⟨path, e, rfl⟩ := q.eq_nil_or_concat'.resolve_left hne
  rw [extensions_concat, List.length_map, path_state_concat_node]
  rfl

/-- Of the router's edges no more are followed than there are. -/
theorem sum_router_followed {extend : Extend} {stop : SearchState → Bool} {w w' : SearchState}
    {b : Bool} {calls : List (Call word_edge char_mask_t)}
    (h : Search (word_graph nodes) (iteration_callbacks extend depth stop) router_node 0#32 w b
      calls w') (f : Fin BOX_CHARS → Nat) :
    ((followed_at 1 calls).map fun q => f (path_state nodes q).1).sum ≤
      ((List.finRange BOX_CHARS).map f).sum := by
  rw [explore_router h]
  have hsublist := h.tried_at_sublist
  have hrouter : (word_graph nodes).edges_view_of_fn router_node =
      (List.finRange BOX_CHARS).map router_edge := rfl
  rw [hrouter, List.map_map] at hsublist
  have hsum := (hsublist.map fun q => f (path_state nodes q).1).sum_le_sum fun _ _ => Nat.zero_le _
  rw [List.map_map] at hsum
  exact hsum

/-- **One iteration.** -/
theorem iteration_work {cfg : Settings} (hnodes : WellHashed nodes)
    (hmin : cfg.STATE_CACHE_MIN_DEPTH ≤ 2) (hdepth : 2 ≤ depth) (hbyte : depth < 256)
    {s s' : SearchState} {b : Bool} {calls : List (Call word_edge char_mask_t)}
    (hs : Prepared nodes depth s)
    (h : Search (word_graph nodes) (search_callbacks cfg nodes depth) router_node 0#32 s b calls
      s') :
    (tried calls).length ≤ BOX_CHARS + (MAX_STATES + 1) * edge_count nodes ∧
      loop_tests calls ≤ (MAX_STATES + 1) * edge_count nodes + (MAX_STATES + 2) * BOX_CHARS + 1 := by
  obtain ⟨hnodup, hstates⟩ := iteration_states hnodes hmin hdepth hbyte hs h
  have hne := explore_followed_ne_nil h
  -- the sum of a number of the nodes over what is followed
  have hfollowed : ∀ f : Fin BOX_CHARS → Nat,
      ((followed calls).map fun q => f (path_state nodes q).1).sum ≤
        (MAX_STATES + 1) * ((List.finRange BOX_CHARS).map f).sum := by
    intro f
    have hrouter : ((followed_at 1 calls).map fun q => f (path_state nodes q).1).sum ≤
        ((List.finRange BOX_CHARS).map f).sum := by
      by_cases hplain : depth ≤ cfg.STATE_CACHE_MIN_DEPTH
      · rw [search_callbacks_plain hplain] at h
        exact sum_router_followed h f
      · rw [search_callbacks_cached hplain] at h
        exact sum_router_followed h f
    have hwords := sum_states_le hnodup hstates f
    rw [List.map_map] at hwords
    rw [sum_followed _ hne, Nat.succ_mul, Nat.add_comm]
    exact Nat.add_le_add hwords hrouter
  have hlength := hfollowed fun _ => 1
  have hextensions := hfollowed fun i => (outgoing nodes i).length
  rw [List.map_congr_left fun q hq => (length_extensions nodes (hne q hq)).symm]
    at hextensions
  have htried := h.tried_length_le
  have htests := h.loop_tests_le
  have hroot : ((word_graph nodes).edges_view_of_fn router_node).length = BOX_CHARS := by
    rfl
  simp only [List.map_const', List.sum_replicate, smul_eq_mul, mul_one, List.length_finRange]
    at hlength
  rw [hroot] at htried
  change _ ≤ (MAX_STATES + 1) * edge_count nodes at hextensions
  refine ⟨by omega, ?_⟩
  have hsplit : (MAX_STATES + 2) * BOX_CHARS = (MAX_STATES + 1) * BOX_CHARS + BOX_CHARS :=
    Nat.succ_mul _ _
  omega

/-- Every edge stands for a word of its own. -/
theorem edge_count_le {box : Box} {bw : BoxWords box}
    (hbuilt : Built box bw.words bw.hashes bw.words.length nodes) :
    edge_count nodes ≤ bw.words.length := by
  have hperm := hbuilt.perm_range bw.buildable
  have hlength := hperm.length_eq
  rw [List.length_range, List.length_flatMap] at hlength
  rw [← hlength]
  unfold edge_count
  apply List.sum_le_sum
  intro i _
  unfold node_word_idxs
  rw [List.length_flatMap]
  calc (outgoing nodes i).length = ((outgoing nodes i).map fun _ => 1).sum := by simp
    _ ≤ _ := by
        apply List.sum_le_sum
        intro e he
        exact List.length_pos_iff.mpr (hbuilt.variants_ne_nil he)

/-- **The work of an iteration is linear in the number of words.** Every
iteration of the deepening loop ends, stopped or not, and it has asked
`next_state_fn` at most once for each edge of the router and `MAX_STATES + 1`
times for each edge of the graph, of which there are no more than words. The
loop of `dfs` makes little more turns. -/
theorem iteration_work_bounded (box : Box) (bw : BoxWords box) (cfg : Settings)
    (hmin : cfg.STATE_CACHE_MIN_DEPTH ≤ 2) :
    ∃ compressionIndex nodes,
      gen_compression_index box.characters = .ok compressionIndex ∧
      build_graph compressionIndex bw.words bw.hashes init_nodes = .ok nodes ∧
      edge_count nodes ≤ bw.words.length ∧
      ∀ depth s, Deepens cfg nodes depth s → depth ≤ cfg.MAX_SEARCH_SIZE + 1 →
        s.solutions.length < cfg.MAX_SOLUTIONS →
        ∃ b s' calls,
          dfs (word_graph nodes) (search_callbacks cfg nodes depth).logged router_node 0#32
            (s, []) = some (.ok (b, s', calls)) ∧
          (tried calls).length ≤ BOX_CHARS + (MAX_STATES + 1) * edge_count nodes ∧
          loop_tests calls ≤
            (MAX_STATES + 1) * edge_count nodes + (MAX_STATES + 2) * BOX_CHARS + 1 := by
  obtain ⟨compressionIndex, hindexed, hindex⟩ := gen_compression_index_box box
  obtain ⟨nodes, hbuild, hbuilt⟩ := build_graph_built hindex bw.buildable
  have hnodes := hbuilt.wellHashed
  refine ⟨compressionIndex, nodes, hindexed, hbuild, edge_count_le hbuilt, ?_⟩
  intro depth s hdeepens hle hroom
  have hdepth := (hdeepens.deepened hnodes).two_le
  obtain ⟨b, calls, s', hsearch⟩ := exists_search cfg nodes hdepth s
  have hprepared := ((hdeepens.breadth_first hnodes hmin).2 hroom).1
  have hmax := cfg.search_le
  exact ⟨b, s', calls, dfs_eq_some_iff.mpr ⟨calls, hsearch.log []⟩,
    iteration_work hnodes hmin hdepth (by omega) hprepared hsearch⟩

/-- The first iteration over two words, with the settings of the repository. -/
theorem iteration_work_bounded_two_words : settings.STATE_CACHE_MIN_DEPTH ≤ 2 ∧
    ∃ compressionIndex nodes b s' calls,
      gen_compression_index first_box.characters = .ok compressionIndex ∧
      build_graph compressionIndex two_words.words two_words.hashes init_nodes = .ok nodes ∧
      edge_count nodes ≤ 2 ∧
      dfs (word_graph nodes) (search_callbacks settings nodes 2).logged router_node 0#32
        (.init, []) = some (.ok (b, s', calls)) ∧
      (tried calls).length ≤ BOX_CHARS + (MAX_STATES + 1) * edge_count nodes := by
  obtain ⟨compressionIndex, nodes, hindex, hbuild, hcount, hwork⟩ :=
    iteration_work_bounded first_box two_words settings (by decide)
  obtain ⟨b, s', calls, hrun, htried, _⟩ := hwork 2 .init .start (by decide) (by decide)
  exact ⟨by decide, compressionIndex, nodes, b, s', calls, hindex, hbuild, hcount, hrun, htried⟩

/-! ## Early termination -/

/-- A bit is set by an edge if its letter is in a word. -/
theorem exists_edge_of_letter {box : Box} {bw : BoxWords box}
    (hbuilt : Built box bw.words bw.hashes bw.words.length nodes) (j : Fin BOX_CHARS) :
    (∃ i : Fin BOX_CHARS, ∃ e ∈ outgoing nodes i, e.wordHash.getLsbD j = true) ↔
      ∃ w ∈ bw.words, box.letter j ∈ w := by
  constructor
  · rintro ⟨i, e, he, hbit⟩
    obtain ⟨w, hw⟩ := hbuilt.exists_spells he
    obtain ⟨hmem, hhash, _⟩ := hbuilt.spells he hw
    rw [hhash, Box.getLsbD_letter_mask] at hbit
    exact ⟨w, hmem, hbit⟩
  · rintro ⟨w, hw, hletter⟩
    obtain ⟨i, hfront⟩ := bw.buildable.front w hw
    obtain ⟨e, he, hspells⟩ := hbuilt.edge_of_word hw hfront
    obtain ⟨_, hhash, _⟩ := hbuilt.spells he hspells
    refine ⟨i, e, he, ?_⟩
    rw [hhash, Box.getLsbD_letter_mask]
    exact hletter

/-- It gives up if and only if a letter is in no word. -/
theorem early_terminate_iff {box : Box} {bw : BoxWords box}
    (hbuilt : Built box bw.words bw.hashes bw.words.length nodes) :
    early_terminate_instance nodes = true ↔ ∃ c ∈ box.characters, ∀ w ∈ bw.words, c ∉ w := by
  unfold early_terminate_instance
  dsimp only
  have hcovered := early_terminate_covered nodes
  generalize nodes.toList.foldl (fun covered node => node.outgoing.foldl (fun covered edge =>
    covered ||| edge.wordHash) covered) 0#32 = covered at hcovered
  have hlt : covered.toNat < 2 ^ BOX_CHARS := by
    rw [Bits.lt_two_pow_iff]
    intro j hj
    rw [Bool.eq_false_iff]
    intro hbit
    obtain ⟨i, e, he, hset⟩ := (hcovered j).mp hbit
    rw [Bits.lt_two_pow_iff.mp (hbuilt.wellHashed.hash_lt i e he) j hj] at hset
    cases hset
  rw [bne_iff_ne, ne_eq, eq_solution_mask_iff hlt, not_forall]
  constructor
  · rintro ⟨j, hbit⟩
    rw [hcovered, exists_edge_of_letter hbuilt] at hbit
    exact ⟨_, Box.letter_mem j, fun w hw hletter => hbit ⟨w, hw, hletter⟩⟩
  · rintro ⟨c, hc, hnone⟩
    obtain ⟨j, rfl⟩ := Box.exists_letter hc
    refine ⟨j, fun hbit => ?_⟩
    rw [hcovered, exists_edge_of_letter hbuilt] at hbit
    obtain ⟨w, hw, hletter⟩ := hbit
    exact hnone w hw hletter

/-- **Early termination only saves work.** It ends the search if and only if a
letter of the box is in no word, and the loop without it returns the same
solutions, whatever the settings are. -/
theorem early_termination_saves_work (box : Box) (bw : BoxWords box) (cfg : Settings) :
    ∃ compressionIndex nodes s,
      gen_compression_index box.characters = .ok compressionIndex ∧
      build_graph compressionIndex bw.words bw.hashes init_nodes = .ok nodes ∧
      (early_terminate_instance nodes = true ↔ ∃ c ∈ box.characters, ∀ w ∈ bw.words, c ∉ w) ∧
      deepen cfg nodes (cfg.MAX_SEARCH_SIZE + 1 - MIN_SOLUTION_SIZE) (MIN_SOLUTION_SIZE + 1) .init =
        some (.ok s) ∧
      solve_raw cfg nodes = some (.ok s.solutions) := by
  obtain ⟨compressionIndex, hindexed, hindex⟩ := gen_compression_index_box box
  obtain ⟨nodes, hbuild, hbuilt⟩ := build_graph_built hindex bw.buildable
  have hnodes := hbuilt.wellHashed
  have hpos := cfg.search_pos
  have hsize : MIN_SOLUTION_SIZE = 1 := rfl
  have hstart : Deepens cfg nodes (MIN_SOLUTION_SIZE + 1) .init := .start
  obtain ⟨s, depth, hrun, hdeepens, _⟩ := deepen_eq_some hnodes
    (cfg.MAX_SEARCH_SIZE + 1 - MIN_SOLUTION_SIZE) _ _ hstart (by omega)
  refine ⟨compressionIndex, nodes, s, hindexed, hbuild, early_terminate_iff hbuilt, hrun, ?_⟩
  unfold solve_raw
  by_cases hearly : early_terminate_instance nodes = true
  · -- what the loop has collected covers, and nothing does
    have hnil : s.solutions = [] := by
      rw [List.eq_nil_iff_forall_not_mem]
      intro q hq
      obtain ⟨_, _, hraw⟩ := (hdeepens.deepened hnodes).raw q hq
      exact early_terminate_no_cover hnodes hearly hraw.reachesIn hraw.covers
    rw [if_pos hearly, hnil]
    rfl
  · rw [if_neg hearly, run_bind_ok hrun]
    rfl

end LetterBoxed
