/-
After an iteration with the cache, the cache is a table of distances.

An entry that the iteration of `depth` leaves at ceiling `c` promises a chain
of `c - 1` words, so it is never below the distance. That it is not above it
either is an induction along a shortest chain: the state before the last one
has the exact entry, was written in this iteration and is done, so its edge to
the last state is settled, and a settled edge has a pruning entry behind it.
What an equally deep path to the same state finds pruned is therefore exactly
what has been searched.

What an iteration with the cache finds is read off the same facts: behind a
state at its distance every covering edge is in some collected chain.
-/
import LetterBoxed.CachedIteration

set_option autoImplicit false

open Paths

namespace LetterBoxed

variable {nodes : nodes_t} {depth : Nat}

/-! ## Entries before and after an iteration -/

theorem Reached.mono {depth' : Nat} {entry : state_cache_entry} {s : search_node}
    (hle : depth ≤ depth') (h : Reached nodes depth entry s) : Reached nodes depth' entry s :=
  ⟨h.two_le, Nat.lt_of_lt_of_le h.lt_depth hle, h.reachesIn⟩

/-- The cache when all iterations up to `depth` have written it: an entry is
unused, or promises a chain. -/
structure Recorded (nodes : nodes_t) (depth : Nat) (w : SearchState) : Prop where
  creation_le : ∀ s, IsSearchNode s → (w.entry s).creationDepth.toNat ≤ depth
  reached : ∀ s, IsSearchNode s →
    (w.entry s).depthCeiling.toNat = 255 ∨ Reached nodes depth (w.entry s) s

theorem recorded_init (nodes : nodes_t) (depth : Nat) : Recorded nodes depth .init :=
  ⟨fun _ _ => Nat.zero_le depth, fun _ _ => .inl rfl⟩

theorem Recorded.mono {depth' : Nat} {w : SearchState} (hle : depth ≤ depth')
    (h : Recorded nodes depth w) : Recorded nodes depth' w :=
  ⟨fun s hs => Nat.le_trans (h.creation_le s hs) hle,
    fun s hs => (h.reached s hs).imp id (Reached.mono hle)⟩

theorem Recorded.grows {depth' : Nat} {w w' : SearchState} (hle : depth' ≤ depth)
    (h : Recorded nodes depth' w) (hgrows : Grows nodes depth w w') : Recorded nodes depth w' := by
  have hmono := h.mono hle
  refine ⟨fun s hs => ?_, fun s hs => ?_⟩
  · rcases hgrows.entry s hs with hsame | ⟨himproved, _⟩
    · rw [hsame]
      exact hmono.creation_le s hs
    · exact Nat.le_of_eq himproved.creation_eq
  · rcases hgrows.entry s hs with hsame | ⟨_, hreached⟩
    · rw [hsame]
      exact hmono.reached s hs
    · exact .inr hreached

/-- An entry that prunes a shortest path is exact, and of this iteration. -/
theorem Recorded.exact {w : SearchState} (h : Recorded nodes depth w) (hbyte : depth < 256)
    {k : Nat} {s : search_node} (hs : IsSearchNode s) (hdist : (chains nodes).IsDist starts k s)
    (hk : k + 1 < depth) (hprunes : (w.entry s).Prunes (k + 1) depth) :
    (w.entry s).depthCeiling.toNat = k + 1 ∧ (w.entry s).creationDepth.toNat = depth := by
  have hcreation := h.creation_le s hs
  -- what an entry promises is no shorter than the shortest
  have hceiling : k + 1 ≤ (w.entry s).depthCeiling.toNat := by
    rcases h.reached s hs with hunused | hreached
    · omega
    · have htwo := hreached.two_le
      have hmin := hdist.2 ⟨by omega, hreached.reachesIn⟩
      omega
  rw [state_cache_entry.Prunes] at hprunes
  omega

/-! ## A finished iteration -/

/-- What is known of an iteration of `depth` with the cache that started from
`w` and was not stopped. -/
structure Finished (nodes : nodes_t) (depth : Nat) (w w' : SearchState) : Prop where
  two_le : 2 ≤ depth
  byte : depth < 256
  before : Recorded nodes (depth - 1) w
  after : Recorded nodes depth w'
  tried : ∀ r ∈ router_node.outgoing, Tried nodes depth w' [] r
  done : ∀ s, IsSearchNode s → w'.entry s ≠ w.entry s → Done nodes depth w' s

theorem frame_root : Frame nodes router_node.outgoing [] 0#32 := .root (List.suffix_refl _)

theorem finished_of_search (hnodes : WellHashed nodes) (hdepth : 2 ≤ depth) (hbyte : depth < 256)
    {stop : SearchState → Bool} {w w' : SearchState} {calls : List (Call word_edge char_mask_t)}
    (hbefore : Recorded nodes (depth - 1) w)
    (h : Search (word_graph nodes) (iteration_callbacks (extend_cached nodes depth) depth stop)
      router_node 0#32 w true calls w') : Finished nodes depth w w' := by
  obtain ⟨hgrows, hdone⟩ := explore_cached hnodes hdepth hbyte h frame_root
    (by rw [List.length_nil]; omega)
  obtain ⟨htried, hdone⟩ := hdone rfl
  exact ⟨hdepth, hbyte, hbefore, hbefore.grows (by omega) hgrows, htried, hdone⟩

section Finished

variable {w w' : SearchState} (h : Finished nodes depth w w')
include h

/-- A start state's edges are settled at path size one. -/
theorem Finished.tried_start {t : search_node} (ht : t ∈ starts) {e : word_edge}
    (he : e ∈ outgoing nodes t.1) : TriedAt nodes depth w' t 1 e := by
  obtain ⟨i, mask⟩ := t
  have hmask : mask = 0#32 := ht
  subst hmask
  exact h.tried _ (router_mem i) e he

/-- An exact entry was written in this iteration, so its state is done. -/
theorem Finished.done_of_exact {s : search_node} (hs : IsSearchNode s)
    (hcreation : (w'.entry s).creationDepth.toNat = depth) : Done nodes depth w' s := by
  apply h.done s hs
  -- unchanged, it would be older than this iteration
  intro hsame
  have hle := h.before.creation_le s hs
  have htwo := h.two_le
  rw [← hsame] at hle
  omega

/-- **Distances are found.** The induction is along a shortest chain. -/
theorem Finished.exact (hnodes : WellHashed nodes) (k : Nat) :
    ∀ s, (chains nodes).IsDist starts (k + 1) s → k + 2 < depth →
      (w'.entry s).depthCeiling.toNat = k + 2 ∧ (w'.entry s).creationDepth.toNat = depth := by
  induction k with
  | zero =>
      intro s hdist hlt
      have hs := reachesIn_isSearchNode hnodes hdist.1.2
      apply h.after.exact h.byte hs hdist hlt
      obtain ⟨t, e, ht, he, rfl⟩ := reachesIn_succ.mp hdist.1.2
      have htried := h.tried_start (reachesIn_zero.mp ht) he
      rwa [TriedAt, if_neg (by omega)] at htried
  | succ k ih =>
      intro s hdist hlt
      have hs := reachesIn_isSearchNode hnodes hdist.1.2
      apply h.after.exact h.byte hs hdist hlt
      -- the state before it on a shortest chain has an exact entry and is done
      obtain ⟨t, e, htdist, he, rfl⟩ := hdist.pred
      have ht := reachesIn_isSearchNode hnodes htdist.1.2
      obtain ⟨hceiling, hcreation⟩ := ih t htdist (by omega)
      have htried := h.done_of_exact ht hcreation e he
      rwa [hceiling, TriedAt, if_neg (by omega)] at htried

/-- **The cache is exact.** The entry of a state at distance `k` has ceiling
`k + 1` if the iteration can get there before its final depth, and is unused
otherwise. -/
theorem Finished.ceiling (hnodes : WellHashed nodes) {s : search_node} (hs : IsSearchNode s) :
    (∀ k, (chains nodes).IsDist starts k s → k + 2 ≤ depth →
        (w'.entry s).depthCeiling.toNat = k + 1) ∧
      ((∀ k, (chains nodes).IsDist starts k s → depth < k + 2) →
        (w'.entry s).depthCeiling.toNat = 255) := by
  constructor
  · intro k hdist hle
    obtain ⟨j, rfl⟩ := Nat.exists_eq_add_of_le' hdist.1.1
    exact (h.exact hnodes j s hdist (by omega)).1
  · intro hfar
    rcases h.after.reached s hs with hunused | hreached
    · exact hunused
    · -- a written entry promises a chain, so the state is not that far
      have htwo := hreached.two_le
      have hlt := hreached.lt_depth
      obtain ⟨k, hk, hdist⟩ := exists_isDist (by omega) hreached.reachesIn
      have hfar' := hfar k hdist
      omega

end Finished

/-! ## What a finished iteration has collected -/

/-- Some collected chain ends with `e`, followed from state `t` after `k`
words. -/
def Represented (nodes : nodes_t) (solutions : List (List word_edge)) (k : Nat) (t : search_node)
    (e : word_edge) : Prop :=
  ∃ path, path.length = k + 1 ∧ path_state nodes path = t ∧ path ++ [e] ∈ solutions

/-- **Solutions behind shortest paths survive the cache**, up to the path that
leads to the state before their last word. -/
theorem Finished.represented (hnodes : WellHashed nodes) {w w' : SearchState} {k : Nat}
    (h : Finished nodes (k + 2) w w') {t : search_node} {e : word_edge}
    (ht : t ∈ (chains nodes).Level starts k) (he : (chains nodes).enabled t e)
    (hcovers : Covers ((chains nodes).next t e)) : Represented nodes w'.solutions k t e := by
  cases k with
  | zero =>
      have htried := h.tried_start ht he
      rw [TriedAt, if_pos rfl] at htried
      exact htried hcovers
  | succ k =>
      -- the entry has the path size of a shortest chain, where the edge is final
      obtain ⟨hceiling, hcreation⟩ := h.exact hnodes k t ht (by omega)
      have hsearch := reachesIn_isSearchNode hnodes (level_reachesIn ht)
      have htried := h.done_of_exact hsearch hcreation e he
      rw [hceiling, TriedAt, if_pos rfl] at htried
      exact htried hcovers

end LetterBoxed
