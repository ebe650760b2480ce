/-
`algorithm.hpp`: the explicit-stack depth-first search and `delete_bit`.

`dfs` keeps three vectors. `stack` holds, for every edge on the current path
and for the root, the edges of the node that are still to be tried; `states`
holds the state each of those nodes was entered with; `path` is a buffer whose
first `stack.size() - 1` entries are the edges of the current path. The buffer
only ever grows: what lies behind the current path is left over from earlier,
longer ones.

The callbacks of the search may be stateful. Their captured variables are a
`world` that is passed through every call, and `Callbacks` is generic in it.
-/
import LetterBoxed.Access
import LetterBoxed.Lib.WhileLoop

set_option autoImplicit false

namespace LetterBoxed

/-! ## The search -/

/-- How the search reads a graph: `edges_view_of_fn` and `destination_of_fn`. -/
structure Graph (Node Edge : Type) where
  edges_view_of_fn : Node → List Edge
  destination_of_fn : Edge → Node

/-- The callbacks of the search, each passing on the variables it captures. -/
structure Callbacks (Edge State World : Type) where
  /-- from (prev_state, edges_ptr_path); prunes on empty -/
  next_state_fn : State → List Edge → World → Option State × World
  /-- from (parent_state, popped_state, edges_ptr_path) -/
  backtrack_fn : State → State → List Edge → World → World
  stop_fn : World → Bool × World

/-- The local variables of `dfs` at its loop test. -/
structure DfsState (Edge State World : Type) where
  stack : List (List Edge)
  states : List State
  path : List Edge
  world : World

section Dfs

variable {Node Edge State World : Type}

/-- `stack.back().advance(1)` -/
def advance (s : DfsState Edge State World) :
    Except Fault (DfsState Edge State World ⊕ Bool × World) := do
  let back ← read .stack s.stack (size_sub s.stack.length 1)
  match back with
  | [] => throw (.outOfRange .stack s.stack.length)
  | _ :: edges => return .inl { s with stack := s.stack.dropLast ++ [edges] }

/-- The branch for an exhausted node: leave it and tell `backtrack_fn`. -/
def pop_node (cb : Callbacks Edge State World) (s : DfsState Edge State World) :
    Except Fault (DfsState Edge State World ⊕ Bool × World) := do
  let stack := s.stack.dropLast
  if stack.isEmpty then return .inr (true, s.world)
  let size := s.states.length
  let parent ← read .states s.states (size_sub size 2)
  let popped ← read .states s.states (size_sub size 1)
  let view ← first .path s.path (size_sub size 1)
  let world := cb.backtrack_fn parent popped view s.world
  advance { s with stack := stack, states := s.states.dropLast, world := world }

/-- The branch for a node with an edge left: put the edge on the path and ask
`next_state_fn` whether to follow it. -/
def try_edge (g : Graph Node Edge) (cb : Callbacks Edge State World) (nextEdge : Edge)
    (s : DfsState Edge State World) : Except Fault (DfsState Edge State World ⊕ Bool × World) := do
  let path := if s.path.length < s.stack.length then s.path ++ [nextEdge] else s.path
  let path ← write .path path (size_sub s.stack.length 1) nextEdge
  let back ← read .states s.states (size_sub s.states.length 1)
  let view ← first .path path s.stack.length
  match cb.next_state_fn back view s.world with
  | (some state, world) =>
    return .inl
      { stack := s.stack ++ [g.edges_view_of_fn (g.destination_of_fn nextEdge)]
        states := s.states ++ [state]
        path := path
        world := world }
  | (none, world) => advance { s with path := path, world := world }

/-- One turn of `while(!stop_fn())`. -/
def dfs_body (g : Graph Node Edge) (cb : Callbacks Edge State World)
    (s : DfsState Edge State World) : Except Fault (DfsState Edge State World ⊕ Bool × World) :=
  match cb.stop_fn s.world with
  | (true, world) => .ok (.inr (false, world))
  | (false, world) => do
    let back ← read .stack s.stack (size_sub s.stack.length 1)
    match back with
    | [] => pop_node cb { s with world := world }
    | nextEdge :: _ => try_edge g cb nextEdge { s with world := world }

/-- The variables with which the loop is entered. -/
def dfs_init (g : Graph Node Edge) (root : Node) (initial_state : State) (world : World) :
    DfsState Edge State World :=
  { stack := [g.edges_view_of_fn root], states := [initial_state], path := [], world := world }

/-- Runs a dfs on a directed graph, cycles included: true if fully explored,
false if stopped. -/
def dfs (g : Graph Node Edge) (cb : Callbacks Edge State World) (root : Node)
    (initial_state : State) (world : World) : Run (Bool × World) :=
  WhileLoop.loop (dfs_init g root initial_state world) (dfs_body g cb)

end Dfs

/-- `[](auto&&...) {}` -/
def default_backtrack_fn {Edge State World : Type} :
    State → State → List Edge → World → World :=
  fun _ _ _ world => world

/-! ## Bits -/

/-- Removes bit `idx` of `x` and moves the bits above it down by one. -/
def delete_bit {w : Nat} (x : BitVec w) (idx : Nat) : BitVec w :=
  let mask := (1#w <<< idx) - 1#w
  let lower := x &&& mask
  let upper := (x >>> 1) &&& ~~~mask
  lower ||| upper

end LetterBoxed
