/-
`solver.hpp`: the word graph and the search for chains that cover the box.

The nodes are an array with one entry for each letter of the box. A
`node const*` into it is its index, a `Fin BOX_CHARS`; `&nodes[i]` for any
other `i` is a fault where it is formed. A `word_edge const*` is the edge
itself: no two edges of the graph are equal.

`stateDepthCache` is a vector of `CACHE_SIZE` entries, held as a function of
the index. An index outside the vector is recorded in the variables of the
search, and `solve_raw` ends in that fault.
-/
import LetterBoxed.Algorithm
import LetterBoxed.Index

set_option autoImplicit false

namespace LetterBoxed

/-! ## The graph -/

structure word_edge where
  wordHash : char_mask_t
  «to» : Fin BOX_CHARS
  wordVariantIdxs : List Nat
  deriving DecidableEq, Repr

structure node where
  compressedIdx : Nat
  outgoing : List word_edge
  deriving DecidableEq, Repr

/-- `std::array<node, BOX_CHARS>` -/
abbrev nodes_t := Vector node BOX_CHARS

/-- For each word of a chain, the words that can stand in its place. -/
structure solution_t where
  chain : List (List (List UInt8))
  deriving DecidableEq, Repr

/-- A node with an empty-hash edge to every node of the graph. -/
def router_node : node where
  compressedIdx := 0
  outgoing := (List.finRange BOX_CHARS).map fun i =>
    { wordHash := 0#32, «to» := i, wordVariantIdxs := [] }

/-- Checks if the words can cover the solution: `true` if no solution. -/
def early_terminate_instance (nodes : nodes_t) : Bool :=
  let covered := nodes.toList.foldl
    (fun covered node => node.outgoing.foldl (fun covered edge => covered ||| edge.wordHash) covered)
    0#32
  covered != solution_mask

/-! ## The state cache -/

structure state_cache_entry where
  depthCeiling : UInt8
  creationDepth : UInt8
  deriving DecidableEq, Repr

/-- `state_cache_entry{}` -/
def state_cache_entry.init : state_cache_entry := { depthCeiling := 255, creationDepth := 0 }

def compress_hash (hash : char_mask_t) (idx : Nat) : char_mask_t := delete_bit hash idx

def MAX_STATES : Nat := 1 <<< (BOX_CHARS - 1)

def CACHE_SIZE : Nat := MAX_STATES * BOX_CHARS

/-- The variables captured by the callbacks of `solve_raw`, with the first
index out of range, if there was one. -/
structure SearchState where
  stateDepthCache : Nat → state_cache_entry
  solutions : List (List word_edge)
  fault : Option Fault

/-- The variables before the first iteration. -/
def SearchState.init : SearchState where
  stateDepthCache := fun _ => .init
  solutions := []
  fault := none

/-! ## The search -/

/-- The graph as `dfs` reads it. -/
def word_graph (nodes : nodes_t) : Graph node word_edge where
  edges_view_of_fn node := node.outgoing
  destination_of_fn edge := nodes.get edge.to

/-- The place of a state in the cache. -/
def cache_hash (nextIdx : Nat) (pathHash : char_mask_t) : Nat :=
  nextIdx * MAX_STATES + (compress_hash pathHash nextIdx).toNat

/-- The cache test of `next_state_fn`: a state that was reached by a shorter
path, or by one of equal length in this iteration, is pruned. -/
def check_cache (depth pathSize nextIdx : Nat) (pathHash : char_mask_t) (s : SearchState) :
    Option char_mask_t × SearchState :=
  let cacheHash := cache_hash nextIdx pathHash
  if CACHE_SIZE ≤ cacheHash then
    (none, { s with fault := s.fault <|> some (.outOfRange .stateDepthCache cacheHash) })
  else
    let entry := s.stateDepthCache cacheHash
    if entry.depthCeiling.toNat < pathSize ∨
        (entry.depthCeiling.toNat ≤ pathSize ∧ depth ≤ entry.creationDepth.toNat) then
      (none, s)
    else
      (some pathHash,
        { s with
          stateDepthCache := Function.update s.stateDepthCache cacheHash
            { depthCeiling := UInt8.ofNat pathSize, creationDepth := UInt8.ofNat depth } })

/-- The `next_state_fn` of the iteration that looks for chains of `depth - 1`
words, with what happens to the non-final paths left to `extend`. -/
def next_state_with (extend : Nat → word_edge → char_mask_t → SearchState →
      Option char_mask_t × SearchState)
    (depth : Nat) (prev : char_mask_t) (ptr_rng : List word_edge) (s : SearchState) :
    Option char_mask_t × SearchState :=
  let pathSize := ptr_rng.length
  -- the edge from the router doesn't count
  if pathSize ≤ 1 then (some 0#32, s)
  else match ptr_rng.getLast? with
    | none => (none, s)
    | some lastEdge =>
      let pathHash := prev ||| lastEdge.wordHash
      if pathSize = depth then
        -- prune after solution
        (none, if pathHash = solution_mask then { s with solutions := s.solutions ++ [ptr_rng] } else s)
      else extend pathSize lastEdge pathHash s

/-- The `next_state_fn` of `solve_raw`. -/
def next_state_fn (cfg : Settings) (nodes : nodes_t) (depth : Nat) :
    char_mask_t → List word_edge → SearchState → Option char_mask_t × SearchState :=
  next_state_with (fun pathSize lastEdge pathHash s =>
    if depth ≤ cfg.STATE_CACHE_MIN_DEPTH then (some pathHash, s)
    else check_cache depth pathSize (nodes.get lastEdge.to).compressedIdx pathHash s) depth

/-- The callbacks of `solve_raw`. -/
def search_callbacks (cfg : Settings) (nodes : nodes_t) (depth : Nat) :
    Callbacks word_edge char_mask_t SearchState where
  next_state_fn := next_state_fn cfg nodes depth
  backtrack_fn := default_backtrack_fn
  stop_fn s := (decide (cfg.MAX_SOLUTIONS ≤ s.solutions.length), s)

/-- One deepening iteration: whether it was not stopped, and the variables
after it. -/
def search_iteration (cfg : Settings) (nodes : nodes_t) (depth : Nat) (s : SearchState) :
    Run (Bool × SearchState) := do
  let (explored, s) ← dfs (word_graph nodes) (search_callbacks cfg nodes depth) router_node 0#32 s
  match s.fault with
  | some fault => throw fault
  | none => return (explored, s)

/-- The deepening loop, `iterations` being the depths up to
`MAX_SEARCH_SIZE + 1` that are left. -/
def deepen (cfg : Settings) (nodes : nodes_t) :
    (iterations depth : Nat) → SearchState → Run SearchState
  | 0, _, s => pure s
  | iterations + 1, depth, s =>
    if s.solutions.length < cfg.MAX_SOLUTIONS then do
      let (_, s) ← search_iteration cfg nodes depth s
      deepen cfg nodes iterations (depth + 1) s
    else pure s

def solve_raw (cfg : Settings) (nodes : nodes_t) : Run (List (List word_edge)) :=
  if early_terminate_instance nodes then pure []
  else do
    -- +1 because of the router
    let s ← deepen cfg nodes (cfg.MAX_SEARCH_SIZE + 1 - MIN_SOLUTION_SIZE)
      (MIN_SOLUTION_SIZE + 1) .init
    return s.solutions

/-! ## Tracing and building -/

/-- The words an edge stands for. -/
def trace_edge (words : List (List UInt8)) (edge : word_edge) : Except Fault (List (List UInt8)) :=
  edge.wordVariantIdxs.mapM fun wordIdx => read .words words wordIdx

/-- One solution; its first edge comes from the router and is dropped. -/
def trace_solution (words : List (List UInt8)) (rawSolution : List word_edge) :
    Except Fault solution_t := do
  let chain ← (rawSolution.drop 1).mapM (trace_edge words)
  return { chain := chain }

def trace_solutions (words : List (List UInt8)) (rawSolutions : List (List word_edge)) :
    Except Fault (List solution_t) :=
  rawSolutions.mapM (trace_solution words)

def init_nodes : nodes_t := Vector.ofFn fun i => { compressedIdx := i, outgoing := [] }

/-- `&nodes[compression_index[idx(c)]]` -/
def node_at (compression_index : compression_index_t) (c : UInt8) :
    Except Fault (Fin BOX_CHARS) := do
  let i ← read .compressionIndex compression_index (idx c)
  if h : i.toNat < BOX_CHARS then return ⟨i.toNat, h⟩
  else throw (.outOfRange .nodes i.toNat)

/-- Word `i` joins the first edge with its hash and destination, or gets a new
edge behind the others. -/
def add_word (hash : char_mask_t) (dest : Fin BOX_CHARS) (i : Nat) :
    List word_edge → List word_edge
  | [] => [{ wordHash := hash, «to» := dest, wordVariantIdxs := [i] }]
  | e :: prevOutgoing =>
    if e.wordHash = hash ∧ e.to = dest then
      { e with wordVariantIdxs := e.wordVariantIdxs ++ [i] } :: prevOutgoing
    else e :: add_word hash dest i prevOutgoing

/-- One turn of the loop of `build_graph`. -/
def insert_word (compression_index : compression_index_t) (word_hashes : List char_mask_t)
    (nodes : nodes_t) (w : List UInt8) (i : Nat) : Except Fault nodes_t := do
  let back ← read .word w (size_sub w.length 1)
  let dest ← node_at compression_index back
  let hash ← read .wordHashes word_hashes i
  let front ← read .word w 0
  let start ← node_at compression_index front
  let node := nodes.get start
  return nodes.set start.val { node with outgoing := add_word hash dest i node.outgoing } start.isLt

/-- Builds the graph; equivalent words (equal to, from, mask) share an edge. -/
def build_graph (compression_index : compression_index_t) (words : List (List UInt8))
    (word_hashes : List char_mask_t) (nodes : nodes_t) : Except Fault nodes_t :=
  words.zipIdx.foldlM
    (fun nodes (w, i) => insert_word compression_index word_hashes nodes w i) nodes

/-- Solves the letter boxed problem. -/
def solve (cfg : Settings) (compression_index : compression_index_t) (words : List (List UInt8))
    (word_hashes : List char_mask_t) : Run (List solution_t) := do
  if words.length ≠ word_hashes.length then throw .critical
  let nodes ← build_graph compression_index words word_hashes init_nodes
  let rawSolutions ← solve_raw cfg nodes
  trace_solutions words rawSolutions

/-! ## The runner -/

/-- `print_solutions` of the runner: what it prints for a word list whose ends
are known. -/
def print_solutions (cfg : Settings) (oversized : Nat → Except Fault char_mask_t)
    (characters csv : List UInt8) (wordEnds : List Nat) : Run (List solution_t) := do
  let compressionIndex ← gen_compression_index characters
  let data ← filter_and_hash oversized compressionIndex csv wordEnds
  solve cfg compressionIndex data.words data.wordHashes

end LetterBoxed
