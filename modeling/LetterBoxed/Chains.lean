/-
Chains of words as paths in a state space.

The states are the search states of the cache, a node and the letters used so
far; a move is an edge of the node, leads to the edge's destination and adds
the edge's letters. A chain that solves the box is a path from a start state,
a node with no letters used, to a state in which all twelve are.

`WellHashed` is what the search relies on in the graph it is given. It is what
`build_graph` establishes for words over the box with their letter-set hashes.
-/
import LetterBoxed.StateCache
import LetterBoxed.Lib.Paths

set_option autoImplicit false

open Paths

namespace LetterBoxed

/-- The edges of node `i`. -/
def outgoing (nodes : nodes_t) (i : Fin BOX_CHARS) : List word_edge := (nodes.get i).outgoing

/-- The state space of the chains over a graph. -/
def chains (nodes : nodes_t) : Space search_node word_edge where
  enabled s e := e ∈ outgoing nodes s.1
  next s e := (e.to, s.2 ||| e.wordHash)

/-- No word used yet. -/
def starts : Set search_node := {s | s.2 = 0#32}

/-- All twelve letters used. -/
def Covers (s : search_node) : Prop := s.2 = solution_mask

/-- What the search relies on: nodes know their index, hashes have only box
bits and include the destination's, and no node has the same edge twice. -/
structure WellHashed (nodes : nodes_t) : Prop where
  compressedIdx_eq : ∀ i : Fin BOX_CHARS, (nodes.get i).compressedIdx = i
  hash_lt : ∀ i : Fin BOX_CHARS, ∀ e ∈ outgoing nodes i, e.wordHash.toNat < 2 ^ BOX_CHARS
  to_bit : ∀ i : Fin BOX_CHARS, ∀ e ∈ outgoing nodes i, e.wordHash.getLsbD e.to = true
  outgoing_nodup : ∀ i : Fin BOX_CHARS, (outgoing nodes i).Nodup

section Chains

variable {nodes : nodes_t}

@[simp] theorem chains_next (s : search_node) (e : word_edge) :
    (chains nodes).next s e = (e.to, s.2 ||| e.wordHash) := rfl

theorem or_lt {n : ℕ} {x y : char_mask_t} (hx : x.toNat < 2 ^ n) (hy : y.toNat < 2 ^ n) :
    (x ||| y).toNat < 2 ^ n := by
  rw [BitVec.toNat_or]
  exact Nat.or_lt_two_pow hx hy

/-- Following an edge from a state with box letters only leads to a search
state: the edge brings the bit of the node it leads to. -/
theorem isSearchNode_next (hnodes : WellHashed nodes) {s : search_node} {e : word_edge}
    (hs : s.2.toNat < 2 ^ BOX_CHARS) (he : (chains nodes).enabled s e) :
    IsSearchNode ((chains nodes).next s e) := by
  refine ⟨or_lt hs (hnodes.hash_lt s.1 e he), ?_⟩
  rw [chains_next, BitVec.getLsbD_or, hnodes.to_bit s.1 e he, Bool.or_true]

/-- On every path only box letters are used. -/
theorem run_mask_lt (hnodes : WellHashed nodes) :
    ∀ (es : List word_edge) (s : search_node), s.2.toNat < 2 ^ BOX_CHARS →
      (chains nodes).IsPath s es → ((chains nodes).run s es).2.toNat < 2 ^ BOX_CHARS := by
  intro es
  induction es with
  | nil =>
      intro s hs _
      exact hs
  | cons e es ih =>
      intro s hs hpath
      rw [isPath_cons] at hpath
      exact ih _ (isSearchNode_next hnodes hs hpath.1).mask_lt hpath.2

/-- The edges of a path are edges of the graph. -/
theorem exists_outgoing : ∀ (es : List word_edge) (s : search_node), (chains nodes).IsPath s es →
    ∀ e ∈ es, ∃ i, e ∈ outgoing nodes i := by
  intro es
  induction es with
  | nil => simp
  | cons e es ih =>
      intro s hpath
      rw [isPath_cons] at hpath
      rw [List.forall_mem_cons]
      exact ⟨⟨s.1, hpath.1⟩, ih _ hpath.2⟩

theorem reachesIn_mask_lt (hnodes : WellHashed nodes) {k : ℕ} {s : search_node}
    (h : (chains nodes).ReachesIn starts k s) : s.2.toNat < 2 ^ BOX_CHARS := by
  obtain ⟨s₀, hs₀, es, _, hpath, rfl⟩ := h
  apply run_mask_lt hnodes es s₀ _ hpath
  rw [show s₀.2 = 0#32 from hs₀]
  exact zero_mask_lt

/-- A state reached by at least one word is a search state. -/
theorem reachesIn_isSearchNode (hnodes : WellHashed nodes) {k : ℕ} {s : search_node}
    (h : (chains nodes).ReachesIn starts (k + 1) s) : IsSearchNode s := by
  obtain ⟨t, e, ht, he, rfl⟩ := reachesIn_succ.mp h
  exact isSearchNode_next hnodes (reachesIn_mask_lt hnodes ht) he

end Chains

/-! ## Raw solutions -/

/-- A path of `dfs` as a chain: an edge from the router and a path from the
node it leads to. -/
structure IsChain (nodes : nodes_t) (r : word_edge) (es : List word_edge) : Prop where
  router : r ∈ router_node.outgoing
  path : (chains nodes).IsPath (r.to, 0#32) es

/-- The state a raw path ends in. -/
def path_state (nodes : nodes_t) : List word_edge → search_node
  | [] => (⟨0, by decide⟩, 0#32)
  | r :: es => (chains nodes).run (r.to, 0#32) es

/-- What `solve_raw` collects at `depth`: a chain of `depth - 1` words, behind
an edge from the router, that covers the box. -/
structure IsRawSolution (nodes : nodes_t) (depth : ℕ) (q : List word_edge) : Prop where
  length_eq : q.length = depth
  chain : ∃ r es, q = r :: es ∧ IsChain nodes r es
  covers : Covers (path_state nodes q)

section Raw

variable {nodes : nodes_t}

theorem router_nodup : router_node.outgoing.Nodup := by decide

/-- The router has one edge to each node, and it carries no letters. -/
theorem mem_router {r : word_edge} (h : r ∈ router_node.outgoing) :
    r = { wordHash := 0#32, «to» := r.to, wordVariantIdxs := [] } := by
  simp only [router_node, List.mem_map] at h
  obtain ⟨i, _, rfl⟩ := h
  rfl

theorem router_mem (i : Fin BOX_CHARS) :
    { wordHash := 0#32, «to» := i, wordVariantIdxs := [] } ∈ router_node.outgoing :=
  List.mem_map.mpr ⟨i, List.mem_finRange i, rfl⟩

theorem path_state_concat {path : List word_edge} (hne : path ≠ []) (e : word_edge) :
    path_state nodes (path ++ [e]) = (chains nodes).next (path_state nodes path) e := by
  obtain ⟨r, es, rfl⟩ := List.exists_cons_of_ne_nil hne
  simp [path_state]

theorem IsChain.reachesIn {r : word_edge} {es : List word_edge} (h : IsChain nodes r es) :
    (chains nodes).ReachesIn starts es.length (path_state nodes (r :: es)) :=
  ⟨(r.to, 0#32), rfl, es, rfl, h.path, rfl⟩

/-- Every path from a start state is the chain of some router edge. -/
theorem exists_isChain {k : ℕ} {s : search_node} (h : (chains nodes).ReachesIn starts k s) :
    ∃ r es, es.length = k ∧ IsChain nodes r es ∧ path_state nodes (r :: es) = s := by
  obtain ⟨⟨i, mask⟩, hstart, es, hlen, hpath, hrun⟩ := h
  have hmask : mask = 0#32 := hstart
  subst hmask
  exact ⟨_, es, hlen, ⟨router_mem i, hpath⟩, hrun⟩

/-- A raw solution of `depth` reaches a covering state in `depth - 1` words. -/
theorem IsRawSolution.reachesIn {depth : ℕ} {q : List word_edge}
    (h : IsRawSolution nodes depth q) :
    (chains nodes).ReachesIn starts (depth - 1) (path_state nodes q) := by
  obtain ⟨r, es, rfl, hchain⟩ := h.chain
  rw [← h.length_eq, List.length_cons, Nat.add_sub_cancel]
  exact hchain.reachesIn

/-- A raw solution before its last word. -/
theorem IsRawSolution.before_last {depth : ℕ} {path : List word_edge} {e : word_edge}
    (h : IsRawSolution nodes depth (path ++ [e])) (hne : path ≠ []) :
    (chains nodes).ReachesIn starts (path.length - 1) (path_state nodes path) ∧
      (chains nodes).enabled (path_state nodes path) e ∧
      Covers ((chains nodes).next (path_state nodes path) e) := by
  have hcovers := h.covers
  obtain ⟨r, es, heq, hchain⟩ := h.chain
  obtain ⟨r', es', rfl⟩ := List.exists_cons_of_ne_nil hne
  rw [List.cons_append, List.cons.injEq] at heq
  obtain ⟨rfl, rfl⟩ := heq
  have hpath := hchain.path
  -- the words but the last, and the last one from where they lead
  rw [isPath_append, isPath_cons] at hpath
  refine ⟨?_, hpath.2.1, ?_⟩
  · rw [List.length_cons, Nat.add_sub_cancel]
    exact IsChain.reachesIn ⟨hchain.router, hpath.1⟩
  · rwa [path_state_concat hne] at hcovers

end Raw

end LetterBoxed
