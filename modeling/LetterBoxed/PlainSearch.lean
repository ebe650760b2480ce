/-
Plain search, and what the cache loses against it.

Plain search is the deepening of `solve_raw` without the cache test and
without the stop: every iteration extends every path. It finds every raw
solution within the search size, so it is the measure for the search with the
cache: that one may leave out a nearest solution only if it returns another
with the same last word, behind a chain to the same node with the same letters.
-/
import LetterBoxed.WordChains

set_option autoImplicit false

open Paths

namespace LetterBoxed

/-- One iteration of plain search. -/
def plain_iteration (nodes : nodes_t) (depth : Nat) (s : SearchState) : Run SearchState := do
  let (_, s) ← dfs (word_graph nodes) (iteration_callbacks extend_plain depth fun _ => false)
    router_node 0#32 s
  return s

def plain_deepen (nodes : nodes_t) : (iterations depth : Nat) → SearchState → Run SearchState
  | 0, _, s => pure s
  | iterations + 1, depth, s => do
    let s ← plain_iteration nodes depth s
    plain_deepen nodes iterations (depth + 1) s

/-- `solve_raw` without the cache and without the stop. -/
def plain_search (cfg : Settings) (nodes : nodes_t) : Run (List (List word_edge)) :=
  if early_terminate_instance nodes then pure []
  else do
    let s ← plain_deepen nodes (cfg.MAX_SEARCH_SIZE + 1 - MIN_SOLUTION_SIZE)
      (MIN_SOLUTION_SIZE + 1) .init
    return s.solutions

variable {nodes : nodes_t} {depth : Nat}

/-- **One iteration** finds exactly the raw solutions of its depth. -/
theorem plain_iteration_result (hnodes : WellHashed nodes) (hdepth : 2 ≤ depth) (s : SearchState) :
    ∃ s', plain_iteration nodes depth s = some (.ok s') ∧
      ∀ q, q ∈ s'.solutions ↔ q ∈ s.solutions ∨ IsRawSolution nodes depth q := by
  obtain ⟨b, calls, s', h⟩ :=
    exists_iteration_search extend_plain (fun _ => false) nodes hdepth s
  -- `stop_fn` never answers true
  have hb : b = true := by
    by_contra hb
    have hstopped := explore_stopped h (Bool.eq_false_iff.mpr hb)
    cases hstopped
  obtain ⟨found, hsolutions, hfound⟩ := explore_solutions hnodes neutral_plain h frame_root
  refine ⟨s', ?_, fun q => ?_⟩
  · unfold plain_iteration
    rw [run_bind_ok (dfs_eq_some_iff.mpr ⟨calls, h⟩)]
    rfl
  · constructor
    · intro hq
      rw [hsolutions, List.mem_append] at hq
      exact hq.imp id (hfound.isRaw q)
    · rintro (hq | hq)
      · rw [hsolutions]
        exact List.mem_append_left _ hq
      · obtain ⟨r, es, rfl, hchain⟩ := hq.chain
        apply explore_plain_complete hnodes hdepth h frame_root _ hb r hchain.router (r :: es)
          (List.prefix_append [r] es) hq
        rw [List.length_nil]
        omega

theorem plain_deepen_result (hnodes : WellHashed nodes) (iterations : Nat) :
    ∀ depth s, 2 ≤ depth → ∃ s', plain_deepen nodes iterations depth s = some (.ok s') ∧
      ∀ q, q ∈ s'.solutions ↔ q ∈ s.solutions ∨
        ∃ d, depth ≤ d ∧ d < depth + iterations ∧ IsRawSolution nodes d q := by
  induction iterations with
  | zero =>
      intro depth s _
      refine ⟨s, rfl, fun q => ?_⟩
      constructor
      · exact .inl
      · rintro (hq | ⟨d, _, _, _⟩)
        · exact hq
        · omega
  | succ iterations ih =>
      intro depth s hdepth
      obtain ⟨s₁, hrun, hfound⟩ := plain_iteration_result hnodes hdepth s
      obtain ⟨s', hrest, hall⟩ := ih (depth + 1) s₁ (by omega)
      refine ⟨s', ?_, fun q => ?_⟩
      · unfold plain_deepen
        rw [run_bind_ok hrun, hrest]
      · -- a solution of this iteration's depth, or of a later one
        rw [hall, hfound]
        constructor
        · rintro ((hq | hq) | ⟨d, hge, hlt, hq⟩)
          · exact .inl hq
          · exact .inr ⟨depth, Nat.le_refl _, by omega, hq⟩
          · exact .inr ⟨d, by omega, by omega, hq⟩
        · rintro (hq | ⟨d, hge, hlt, hq⟩)
          · exact .inl (.inl hq)
          · by_cases hfirst : d = depth
            · exact .inl (.inr (hfirst ▸ hq))
            · exact .inr ⟨d, by omega, by omega, hq⟩

/-- **Plain search is complete.** It returns exactly the raw solutions within
the search size. -/
theorem plain_search_result (cfg : Settings) (hnodes : WellHashed nodes) :
    ∃ plain, plain_search cfg nodes = some (.ok plain) ∧
      ∀ q, q ∈ plain ↔
        2 ≤ q.length ∧ q.length ≤ cfg.MAX_SEARCH_SIZE + 1 ∧ IsRawSolution nodes q.length q := by
  have hmin : MIN_SOLUTION_SIZE = 1 := rfl
  have hpos := cfg.search_pos
  unfold plain_search
  by_cases hearly : early_terminate_instance nodes = true
  · rw [if_pos hearly]
    refine ⟨[], rfl, fun q => ?_⟩
    constructor
    · exact fun hq => absurd hq List.not_mem_nil
    · -- early termination was right
      rintro ⟨_, _, hq⟩
      exact absurd hq.covers (early_terminate_no_cover hnodes hearly hq.reachesIn)
  · obtain ⟨s, hrun, hall⟩ := plain_deepen_result hnodes
      (cfg.MAX_SEARCH_SIZE + 1 - MIN_SOLUTION_SIZE) (MIN_SOLUTION_SIZE + 1) .init (by omega)
    rw [if_neg hearly, run_bind_ok hrun]
    refine ⟨s.solutions, rfl, fun q => ?_⟩
    rw [hall]
    constructor
    · rintro (hq | ⟨d, hge, hlt, hq⟩)
      · exact absurd hq List.not_mem_nil
      · rw [hq.length_eq]
        exact ⟨by omega, by omega, hq⟩
    · rintro ⟨htwo, hle, hq⟩
      exact .inr ⟨q.length, by omega, by omega, hq⟩

/-- **The cache loses only equivalent nearest solutions.** An entry of either
list is a router edge and a chain of edges; `m` edges is one entry less than
the length. If fewer than `MAX_SOLUTIONS` chains are returned, then for every
nearest solution of plain search there is one with the same last edge behind
an equally long path to the same node with the same letters; and all nearest
solutions returned are those of plain search. -/
theorem cache_loses_only_equivalent (box : Box) (bw : BoxWords box) (cfg : Settings) :
    ∃ compressionIndex nodes raw plain,
      gen_compression_index box.characters = .ok compressionIndex ∧
      build_graph compressionIndex bw.words bw.hashes init_nodes = .ok nodes ∧
      solve_raw cfg nodes = some (.ok raw) ∧ plain_search cfg nodes = some (.ok plain) ∧
      ∀ m, (chains nodes).IsGoalDist starts Covers m → m ≤ cfg.MAX_SEARCH_SIZE →
        (raw.length < cfg.MAX_SOLUTIONS → ∀ path e, path ++ [e] ∈ plain →
          (path ++ [e]).length = m + 1 → ∃ path', path' ++ [e] ∈ raw ∧
            path'.length = path.length ∧ path_state nodes path' = path_state nodes path) ∧
        ∀ q ∈ raw, q.length = m + 1 → q ∈ plain := by
  obtain ⟨compressionIndex, hindexed, hindex⟩ := gen_compression_index_box box
  obtain ⟨nodes, hbuild, hbuilt⟩ := build_graph_built hindex bw.buildable
  have hnodes := hbuilt.wellHashed
  obtain ⟨raw, hsearch, hresult⟩ := solve_raw_result cfg hnodes
  obtain ⟨plain, hplain, hall⟩ := plain_search_result cfg hnodes
  refine ⟨compressionIndex, nodes, raw, plain, hindexed, hbuild, hsearch, hplain,
    fun m hm hle => ⟨fun hroom path e hmem hlen => ?_, fun q hq _ => ?_⟩⟩
  · obtain ⟨k, rfl⟩ := Nat.exists_eq_add_of_le' hm.1.1
    obtain ⟨_, _, hraw⟩ := (hall _).mp hmem
    have hpath : path ≠ [] := by
      rintro rfl
      rw [List.nil_append, List.length_singleton] at hlen
      omega
    -- a nearest solution has a nearest state before its last word
    obtain ⟨ht, he, hcovers⟩ := hraw.before_last hpath
    have hsize : path.length = k + 1 := by
      rw [List.length_append, List.length_singleton] at hlen
      omega
    rw [hsize, Nat.add_sub_cancel] at ht
    have hlevel := level_before_goal hm ht he hcovers
    obtain ⟨path', hsize', hstate, hmem'⟩ := hresult.represented hroom k hle _ hlevel e he hcovers
    exact ⟨path', hmem', by rw [hsize', hsize], hstate⟩
  · exact (hall q).mpr (hresult.isRaw q hq)

end LetterBoxed
