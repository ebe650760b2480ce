/-
`dfs` is the recursive search.

The loop of `dfs` is compared with `Explore` frame by frame. A frame is the
topmost entry of the three vectors together with what lies below it: the
remaining edges and the state of the node at the end of the current path. Two
facts about the path buffer are all that is needed below a frame: it is at
least as long as the path, and it begins with the path.

Forwards, every constructor of `Explore` is a number of turns of the loop.
Backwards, a loop that ends from a frame has explored it: the induction is on
the turns still to come, and the forward direction says where the loop stands
when a child's subtree is exhausted.
-/
import LetterBoxed.Reference

set_option autoImplicit false

open WhileLoop (Turn Reaches Terminates)

namespace LetterBoxed

section Refinement

variable {Node Edge State World : Type}

/-! ## The path buffer -/

/-- The buffer after `nextEdge` was put at the end of a path of `n` edges. -/
def put (buffer : List Edge) (n : Nat) (nextEdge : Edge) : List Edge :=
  (if buffer.length < n + 1 then buffer ++ [nextEdge] else buffer).set n nextEdge

theorem lt_length_grown {buffer : List Edge} {n : Nat} (nextEdge : Edge) (h : n ≤ buffer.length) :
    n < (if buffer.length < n + 1 then buffer ++ [nextEdge] else buffer).length := by
  split
  · simp only [List.length_append, List.length_singleton]
    omega
  · omega

theorem put_take {buffer : List Edge} {n : Nat} (nextEdge : Edge) (h : n ≤ buffer.length) :
    (put buffer n nextEdge).take (n + 1) = buffer.take n ++ [nextEdge] := by
  have hlt := lt_length_grown nextEdge h
  rw [put, List.take_add_one, List.take_set_of_le (Nat.le_refl n), List.getElem?_set_self hlt]
  congr 1
  split
  · exact List.take_append_of_le_length h
  · rfl

theorem length_put {buffer : List Edge} {n : Nat} (nextEdge : Edge) (h : n ≤ buffer.length) :
    n + 1 ≤ (put buffer n nextEdge).length := by
  rw [put, List.length_set]
  exact lt_length_grown nextEdge h

/-! ## Frames -/

/-- The loop state whose topmost entries are `edges` and `state`. -/
def frame (stack : List (List Edge)) (states : List State) (edges : List Edge) (state : State)
    (buffer : List Edge) (world : World) : DfsState Edge State World :=
  { stack := stack ++ [edges], states := states ++ [state], path := buffer, world := world }

/-- The vectors below a frame are as long as its path, and the buffer begins
with the path. -/
structure Below (stack : List (List Edge)) (states : List State) (path buffer : List Edge) :
    Prop where
  stack_length : stack.length = path.length
  states_length : states.length = path.length
  buffer_prefix : path <+: buffer

variable {stack : List (List Edge)} {states : List State} {path buffer : List Edge}

theorem Below.take_eq (h : Below stack states path buffer) : buffer.take path.length = path :=
  (List.prefix_iff_eq_take.mp h.buffer_prefix).symm

theorem Below.path_le (h : Below stack states path buffer) : path.length ≤ buffer.length :=
  h.buffer_prefix.length_le

/-- Putting an edge on the path keeps the frame's surroundings. -/
theorem Below.put (h : Below stack states path buffer) (e : Edge) :
    Below stack states path (put buffer path.length e) := by
  refine ⟨h.stack_length, h.states_length, ?_⟩
  have htake := put_take e h.path_le
  rw [h.take_eq] at htake
  exact (List.prefix_append path [e]).trans (htake ▸ List.take_prefix _ _)

/-- The surroundings of the frame of a child. -/
theorem Below.child (h : Below stack states path buffer) (e : Edge) (edges : List Edge)
    (state : State) :
    Below (stack ++ [edges]) (states ++ [state]) (path ++ [e])
      (LetterBoxed.put buffer path.length e) := by
  refine ⟨by simp [h.stack_length], by simp [h.states_length], ?_⟩
  have htake := put_take e h.path_le
  rw [h.take_eq] at htake
  exact htake ▸ List.take_prefix _ _

/-- Back at the parent, a buffer of the child will do. -/
theorem Below.parent {e : Edge} {edges : List Edge} {state : State}
    (h : Below stack states path buffer) {buffer' : List Edge}
    (h' : Below (stack ++ [edges]) (states ++ [state]) (path ++ [e]) buffer') :
    Below stack states path buffer' :=
  ⟨h.stack_length, h.states_length, (List.prefix_append path [e]).trans h'.buffer_prefix⟩

/-! ## One turn at a frame -/

variable {g : Graph Node Edge} {cb : Callbacks Edge State World}

theorem advance_frame (e : Edge) (edges : List Edge) (state : State) (world : World) :
    advance (frame stack states (e :: edges) state buffer world)
      = .ok (.inl (frame stack states edges state buffer world)) := by
  simp only [advance, frame, read_concat_back, List.dropLast_concat]
  rfl

theorem body_stopped {edges : List Edge} {state : State} {w w' : World}
    (hstop : cb.stop_fn w = (true, w')) :
    dfs_body g cb (frame stack states edges state buffer w) = .ok (.inr (false, w')) := by
  simp only [dfs_body, frame, hstop]

theorem body_empty {state : State} {w w₁ : World} (hstop : cb.stop_fn w = (false, w₁)) :
    dfs_body g cb (frame stack states [] state buffer w)
      = pop_node cb (frame stack states [] state buffer w₁) := by
  simp only [dfs_body, frame, hstop, read_concat_back]
  rfl

theorem body_edge {e : Edge} {edges : List Edge} {state : State} {w w₁ : World}
    (hstop : cb.stop_fn w = (false, w₁)) :
    dfs_body g cb (frame stack states (e :: edges) state buffer w)
      = try_edge g cb e (frame stack states (e :: edges) state buffer w₁) := by
  simp only [dfs_body, frame, hstop, read_concat_back]
  rfl

/-- An exhausted root ends the search. -/
theorem body_root_exhausted {state : State} {w w' : World} (hstop : cb.stop_fn w = (false, w')) :
    dfs_body g cb (frame [] [] [] state buffer w) = .ok (.inr (true, w')) := by
  rw [body_empty hstop]
  rfl

/-- What `try_edge` does at a frame: the callback gets the state of the frame
and the path ending in the new edge. -/
theorem try_edge_frame (hbelow : Below stack states path buffer) (e : Edge) (edges : List Edge)
    (state : State) (w : World) :
    try_edge g cb e (frame stack states (e :: edges) state buffer w) =
      match cb.next_state_fn state (path ++ [e]) w with
      | (some state', w') => .ok (.inl (frame (stack ++ [e :: edges]) (states ++ [state])
          (g.edges_view_of_fn (g.destination_of_fn e)) state' (put buffer path.length e) w'))
      | (none, w') => .ok (.inl (frame stack states edges state (put buffer path.length e) w')) := by
  have hlen : (stack ++ [e :: edges]).length = path.length + 1 := by
    simp [hbelow.stack_length]
  -- the accesses of the branch, in the order of the source
  have hput : write .path (if buffer.length < path.length + 1 then buffer ++ [e] else buffer)
      path.length e = .ok (put buffer path.length e) :=
    write_lt (lt_length_grown e hbelow.path_le) e
  have hview : first .path (put buffer path.length e) (path.length + 1) = .ok (path ++ [e]) := by
    rw [first_le (length_put e hbelow.path_le), put_take e hbelow.path_le, hbelow.take_eq]
  have hsub : size_sub (path.length + 1) 1 = path.length := by
    rw [size_sub_le (by omega)]
    rfl
  rcases hnext : cb.next_state_fn state (path ++ [e]) w with ⟨answer, w'⟩
  simp only [try_edge, frame, hlen, hsub, hput, hview, hnext, read_concat_back, bind, Except.bind]
  -- both branches are a frame: the child's, or this one without the edge
  cases answer with
  | some state' => rfl
  | none => exact advance_frame e edges state w'

theorem turn_pruned (hbelow : Below stack states path buffer) {e : Edge} (edges : List Edge)
    {state : State} {w w₁ w₂ : World} (hstop : cb.stop_fn w = (false, w₁))
    (hnext : cb.next_state_fn state (path ++ [e]) w₁ = (none, w₂)) :
    Turn (dfs_body g cb) (frame stack states (e :: edges) state buffer w)
      (frame stack states edges state (put buffer path.length e) w₂) := by
  rw [Turn, body_edge hstop, try_edge_frame hbelow, hnext]

theorem turn_descend (hbelow : Below stack states path buffer) {e : Edge} (edges : List Edge)
    {state state' : State} {w w₁ w₂ : World} (hstop : cb.stop_fn w = (false, w₁))
    (hnext : cb.next_state_fn state (path ++ [e]) w₁ = (some state', w₂)) :
    Turn (dfs_body g cb) (frame stack states (e :: edges) state buffer w)
      (frame (stack ++ [e :: edges]) (states ++ [state])
        (g.edges_view_of_fn (g.destination_of_fn e)) state' (put buffer path.length e) w₂) := by
  rw [Turn, body_edge hstop, try_edge_frame hbelow, hnext]

/-- Leaving an exhausted child: `backtrack_fn` gets both states and the path
to the child, and the parent's edge is passed. That the parent's next edge
`e'` is the one the path ends in plays no role in what the code does. -/
theorem turn_backtrack {e e' : Edge} {edges : List Edge} {state : State} (state' : State)
    {w w₁ : World}
    (hchild : Below (stack ++ [e' :: edges]) (states ++ [state]) (path ++ [e]) buffer)
    (hstop : cb.stop_fn w = (false, w₁)) :
    Turn (dfs_body g cb) (frame (stack ++ [e' :: edges]) (states ++ [state]) [] state' buffer w)
      (frame stack states edges state buffer
        (cb.backtrack_fn state state' (path ++ [e]) w₁)) := by
  have hlen : (states ++ [state] ++ [state']).length = (path ++ [e]).length + 1 := by
    have := hchild.states_length
    simp only [List.length_append, List.length_singleton] at this ⊢
    omega
  -- `states` is read at its last two places, and `path` up to the child's edge
  have hparent : read .states (states ++ [state] ++ [state'])
      (size_sub ((path ++ [e]).length + 1) 2) = .ok state := by
    have hidx : size_sub ((path ++ [e]).length + 1) 2 = states.length := by
      have := hchild.states_length
      simp only [List.length_append, List.length_singleton] at this ⊢
      rw [size_sub_le (by omega)]
      omega
    rw [hidx]
    exact read_getElem (by simp)
  have hpopped : read .states (states ++ [state] ++ [state'])
      (size_sub ((path ++ [e]).length + 1) 1) = .ok state' := by
    rw [← hlen]
    exact read_concat_back state'
  have hview : first .path buffer (size_sub ((path ++ [e]).length + 1) 1) = .ok (path ++ [e]) := by
    rw [size_sub_le (by omega)]
    exact (first_le hchild.path_le).trans (congrArg _ hchild.take_eq)
  -- there is a node below, so the search does not end here
  have hne : (stack ++ [e' :: edges]).isEmpty = false := by simp
  rw [Turn, body_empty hstop]
  simp only [pop_node, frame, List.dropLast_concat, hne, hlen, hparent, hpopped, hview, bind,
    Except.bind, Bool.false_eq_true, if_false]
  exact advance_frame e' edges state _

/-! ## Forwards: what is explored is run -/

/-- How the loop, standing at `s`, is done with the frame of `path` and
`state`: if the search was stopped it leaves with `w'`, if not it reaches the
test at which the frame is found exhausted and `stop_fn` answers with `w'`. -/
def EndsFrame (g : Graph Node Edge) (cb : Callbacks Edge State World)
    (stack : List (List Edge)) (states : List State) (path : List Edge) (state : State)
    (s : DfsState Edge State World) (b : Bool) (w' : World) : Prop :=
  match b with
  | false => ∃ s', Reaches (dfs_body g cb) s s' ∧ dfs_body g cb s' = .ok (.inr (false, w'))
  | true => ∃ buffer w, Below stack states path buffer ∧ cb.stop_fn w = (false, w') ∧
      Reaches (dfs_body g cb) s (frame stack states [] state buffer w)

theorem EndsFrame.of_reaches {state : State} {s s' : DfsState Edge State World} {b : Bool}
    {w' : World} (hreach : Reaches (dfs_body g cb) s s')
    (h : EndsFrame g cb stack states path state s' b w') :
    EndsFrame g cb stack states path state s b w' := by
  cases b with
  | false =>
      obtain ⟨t, ht, hleave⟩ := h
      exact ⟨t, hreach.trans ht, hleave⟩
  | true =>
      obtain ⟨buffer, w, hbelow, hstop, ht⟩ := h
      exact ⟨buffer, w, hbelow, hstop, hreach.trans ht⟩

/-- **Simulation.** What is explored below a frame is run by turns of the
loop. -/
theorem endsFrame_of_explore {edges : List Edge} {state : State} {w w' : World} {b : Bool}
    {calls : List (Call Edge State)} (h : Explore g cb edges path state w b calls w') :
    ∀ {stack states buffer}, Below stack states path buffer →
      EndsFrame g cb stack states path state (frame stack states edges state buffer w) b w' := by
  induction h with
  | stopped hstop =>
      intro stack states buffer _
      exact ⟨_, .refl, body_stopped hstop⟩
  | exhausted hstop =>
      intro stack states buffer hbelow
      exact ⟨buffer, _, hbelow, hstop, .refl⟩
  | pruned hstop hnext _ ih =>
      intro stack states buffer hbelow
      exact (ih (hbelow.put _)).of_reaches (.single (turn_pruned hbelow _ hstop hnext))
  | @cut e edges path state state' w w₁ w₂ calls w' hstop hnext _ ih =>
      intro stack states buffer hbelow
      have hdown := turn_descend (g := g) hbelow edges hstop hnext
      obtain ⟨s', hreach, hleave⟩ := ih (hbelow.child e (e :: edges) state)
      exact ⟨s', hreach.head hdown, hleave⟩
  | @descend e edges path state state' w w₁ w₂ w₃ b calls₁ calls₂ w' hstop hnext _ _ ih₁ ih₂ =>
      intro stack states buffer hbelow
      have hdown := turn_descend (g := g) hbelow edges hstop hnext
      -- down to the child, through its subtree, and back to the rest of the frame
      obtain ⟨buffer₁, w₀, hbelow₁, hw₀, hreach⟩ := ih₁ (hbelow.child e (e :: edges) state)
      have hback := turn_backtrack (g := g) state' hbelow₁ hw₀
      exact (ih₂ (hbelow.parent hbelow₁)).of_reaches ((hreach.head hdown).tail hback)

/-! ## Backwards: what is run is explored -/

/-- A loop that ends from a frame explores the frame. The induction is on the
turns still to come; below an edge that is followed the loop first explores
the child, and `endsFrame_of_explore` says that it then stands at the rest of
the frame, one or more turns later. -/
theorem explore_of_terminates {s : DfsState Edge State World}
    (h : Terminates (dfs_body g cb) s) :
    ∀ stack states path buffer edges state w, s = frame stack states edges state buffer w →
      Below stack states path buffer →
      ∃ b calls w', Explore g cb edges path state w b calls w' := by
  induction s, h using Terminates.induction with
  | step s _ ih =>
  rintro stack states path buffer edges state w rfl hbelow
  rcases hstop : cb.stop_fn w with ⟨stop, w₁⟩
  cases stop with
  | true => exact ⟨_, _, _, .stopped hstop⟩
  | false =>
      cases edges with
      | nil => exact ⟨_, _, _, .exhausted hstop⟩
      | cons e edges =>
          rcases hnext : cb.next_state_fn state (path ++ [e]) w₁ with ⟨answer, w₂⟩
          cases answer with
          | none =>
              have hturn := turn_pruned (g := g) hbelow edges hstop hnext
              obtain ⟨b, calls, w', hrest⟩ :=
                ih _ (.single hturn) _ _ path _ _ _ _ rfl (hbelow.put e)
              exact ⟨_, _, _, .pruned hstop hnext hrest⟩
          | some state' =>
              -- the child's frame is one turn later
              have hdown := turn_descend (g := g) hbelow edges hstop hnext
              have hbelow₁ := hbelow.child e (e :: edges) state
              obtain ⟨b, calls₁, w₃, hchild⟩ := ih _ (.single hdown) _ _ _ _ _ _ _ rfl hbelow₁
              cases b with
              | false => exact ⟨_, _, _, .cut hstop hnext hchild⟩
              | true =>
                  -- and the rest of this frame at least one turn after that
                  obtain ⟨buffer₁, w₀, hbelow₂, hw₀, hreach⟩ := endsFrame_of_explore hchild hbelow₁
                  have hback := turn_backtrack (g := g) state' hbelow₂ hw₀
                  obtain ⟨b, calls₂, w', hrest⟩ :=
                    ih _ (.tail' (hreach.head hdown) hback) _ _ path _ _ _ _ rfl
                      (hbelow.parent hbelow₂)
                  exact ⟨_, _, _, .descend hstop hnext hchild hrest⟩

theorem below_root : Below ([] : List (List Edge)) ([] : List State) [] [] :=
  ⟨rfl, rfl, List.nil_prefix⟩

/-- `dfs` ends exactly when the recursive search does, and with its answer and
its captured variables. -/
theorem dfs_eq_some_iff {root : Node} {initial_state : State} {w w' : World} {b : Bool} :
    dfs g cb root initial_state w = some (.ok (b, w')) ↔
      ∃ calls, Search g cb root initial_state w b calls w' := by
  have hforward : ∀ {b calls w'}, Search g cb root initial_state w b calls w' →
      dfs g cb root initial_state w = some (.ok (b, w')) := by
    intro b calls w' h
    have hends := endsFrame_of_explore h below_root
    cases b with
    | false =>
        obtain ⟨s, hreach, hleave⟩ := hends
        exact (WhileLoop.loop_reaches hreach).trans (WhileLoop.loop_leave hleave)
    | true =>
        obtain ⟨buffer, w₀, _, hstop, hreach⟩ := hends
        exact (WhileLoop.loop_reaches hreach).trans
          (WhileLoop.loop_leave (body_root_exhausted hstop))
  constructor
  · intro h
    -- some search is what was run, and it ends as the run did
    obtain ⟨b₁, calls, w₁, hsearch⟩ := explore_of_terminates
      (WhileLoop.terminates_of_loop h) [] [] [] [] _ initial_state w rfl below_root
    have heq := (hforward hsearch).symm.trans h
    cases heq
    exact ⟨calls, hsearch⟩
  · rintro ⟨calls, h⟩
    exact hforward h

/-! ## No access is out of range -/

/-- The sizes of the three vectors at a loop test: `stack` and `states` are
equally long and not empty, `path` holds an edge for every entry of `stack`
but the first, and no node below the top is exhausted. -/
structure Sized (s : DfsState Edge State World) : Prop where
  size_eq : s.stack.length = s.states.length
  size_pos : 0 < s.stack.length
  path_size : s.stack.length - 1 ≤ s.path.length
  below_ne_nil : ∀ edges ∈ s.stack.dropLast, edges ≠ []

theorem sized_init (root : Node) (initial_state : State) (w : World) :
    Sized (dfs_init g root initial_state w) :=
  ⟨rfl, Nat.one_pos, Nat.zero_le _, by simp [dfs_init]⟩

theorem sized_frame (hbelow : Below stack states path buffer) (edges : List Edge) (state : State)
    (w : World) (hne : ∀ edges ∈ stack, edges ≠ []) :
    Sized (frame stack states edges state buffer w) := by
  have hlen := hbelow.path_le
  refine ⟨?_, ?_, ?_, by simpa [frame] using hne⟩ <;>
    simp [frame, hbelow.stack_length, hbelow.states_length, hlen]

/-- Sized vectors are a frame: take the path to be what the buffer holds for
the lower entries. -/
theorem Sized.exists_frame {s : DfsState Edge State World} (h : Sized s) :
    ∃ stack states path edges state, Below stack states path s.path ∧
      (∀ edges ∈ stack, edges ≠ []) ∧
      s = frame stack states edges state s.path s.world := by
  obtain ⟨stack, states, buffer, world⟩ := s
  obtain ⟨hsize, hpos, hpath, hne⟩ := h
  change stack.length = states.length at hsize
  change 0 < stack.length at hpos
  change stack.length - 1 ≤ buffer.length at hpath
  change ∀ edges ∈ stack.dropLast, edges ≠ [] at hne
  -- neither vector is empty, so each has a top
  obtain ⟨stack', edges, rfl⟩ := stack.eq_nil_or_concat'.resolve_left (List.ne_nil_of_length_pos hpos)
  obtain ⟨states', state, rfl⟩ :=
    states.eq_nil_or_concat'.resolve_left (List.ne_nil_of_length_pos (hsize ▸ hpos))
  simp only [List.length_append, List.length_singleton, Nat.add_right_cancel_iff] at hsize
  rw [List.length_append, List.length_singleton, Nat.add_sub_cancel] at hpath
  rw [List.dropLast_concat] at hne
  refine ⟨stack', states', buffer.take stack'.length, edges, state, ⟨?_, ?_, ?_⟩, hne, rfl⟩
  · rw [List.length_take, Nat.min_eq_left hpath]
  · rw [List.length_take, Nat.min_eq_left hpath, hsize]
  · exact List.take_prefix _ _

/-- **Step lemma.** With sized vectors a turn does not fault, and the vectors
of the next test are sized. -/
theorem body_sized {s : DfsState Edge State World} (h : Sized s) :
    (∃ out, dfs_body g cb s = .ok (.inr out)) ∨
      ∃ s', Turn (dfs_body g cb) s s' ∧ Sized s' := by
  obtain ⟨stack, states, path, edges, state, hbelow, hne, hs⟩ := h.exists_frame
  -- by the branches of the body, in the order of the source
  rw [hs]
  rcases hstop : cb.stop_fn s.world with ⟨stop, w₁⟩
  cases stop with
  | true => exact .inl ⟨_, body_stopped hstop⟩
  | false =>
      cases edges with
      | cons e edges =>
          right
          rcases hnext : cb.next_state_fn state (path ++ [e]) w₁ with ⟨answer, w₂⟩
          cases answer with
          | none =>
              exact ⟨_, turn_pruned hbelow edges hstop hnext,
                sized_frame (hbelow.put e) _ _ _ hne⟩
          | some state' =>
              refine ⟨_, turn_descend hbelow edges hstop hnext,
                sized_frame (hbelow.child e _ _) _ _ _ ?_⟩
              -- the frame that is now below still has the edge that was followed
              intro x hx
              rcases List.mem_append.mp hx with hx | hx
              · exact hne x hx
              · rw [List.mem_singleton.mp hx]
                exact List.cons_ne_nil e edges
      | nil =>
          rcases stack.eq_nil_or_concat' with rfl | ⟨stack', top, rfl⟩
          · -- the exhausted node is the root
            have hstates : states = [] :=
              List.eq_nil_of_length_eq_zero (hbelow.states_length.trans hbelow.stack_length.symm)
            rw [hstates]
            exact .inl ⟨_, body_root_exhausted hstop⟩
          · -- the parent still has the edge that led here in front of it
            right
            obtain ⟨e', edges, rfl⟩ := List.exists_cons_of_ne_nil (hne top (by simp))
            have hpath : path ≠ [] := by
              intro hnil
              have := hbelow.stack_length
              simp [hnil] at this
            have hstates : states ≠ [] := by
              intro hnil
              have := hbelow.states_length
              rw [hnil, List.length_nil, ← hbelow.stack_length] at this
              simp at this
            obtain ⟨path', e, rfl⟩ := path.eq_nil_or_concat'.resolve_left hpath
            obtain ⟨states', state', rfl⟩ := states.eq_nil_or_concat'.resolve_left hstates
            have hlen₁ := hbelow.stack_length
            have hlen₂ := hbelow.states_length
            simp only [List.length_append, List.length_singleton, Nat.add_right_cancel_iff]
              at hlen₁ hlen₂
            refine ⟨_, turn_backtrack state hbelow hstop,
              sized_frame ⟨hlen₁, hlen₂, ?_⟩ _ _ _ fun x hx => hne x (by simp [hx])⟩
            exact (List.prefix_append path' [e]).trans hbelow.buffer_prefix

/-- **Run lemma.** The vectors are sized at every loop test. -/
theorem sized_of_reaches {root : Node} {initial_state : State} {w : World}
    {s : DfsState Edge State World}
    (h : Reaches (dfs_body g cb) (dfs_init g root initial_state w) s) : Sized s := by
  refine WhileLoop.invariant_reaches (sized_init root initial_state w) ?_ h
  intro a b ha hturn
  have hbody : (∃ out, dfs_body g cb a = .ok (.inr out)) ∨ _ := body_sized ha
  rcases hbody with ⟨out, hout⟩ | ⟨b', hturn', hb'⟩
  · -- a body that leaves has no next turn
    rw [Turn, hout] at hturn
    cases hturn
  · rw [Turn, hturn'] at hturn
    cases hturn
    exact hb'

theorem body_ne_error {s : DfsState Edge State World} (h : Sized s) (fault : Fault) :
    dfs_body g cb s ≠ .error fault := by
  have hbody : (∃ out, dfs_body g cb s = .ok (.inr out)) ∨ _ := body_sized h
  rcases hbody with ⟨out, hout⟩ | ⟨s', hturn, _⟩
  · simp [hout]
  · rw [Turn] at hturn
    simp [hturn]

/-- **`dfs` is the recursive pre-order search.** Run with a log, `dfs` ends
exactly when the recursive search ends, with the same answer, the same
captured variables and the same calls in the same order; the log changes
nothing; the answer is false exactly when `stop_fn` answered true; and at no
loop test are the vectors too short for the accesses of the body. -/
theorem dfs_refines_recursive_search (g : Graph Node Edge) (cb : Callbacks Edge State World)
    (root : Node) (initial_state : State) (w : World) :
    (∀ b calls w', dfs g cb.logged root initial_state (w, []) = some (.ok (b, w', calls)) ↔
        Search g cb root initial_state w b calls w') ∧
      (∀ b w', dfs g cb root initial_state w = some (.ok (b, w')) ↔
        ∃ calls, Search g cb root initial_state w b calls w') ∧
      (∀ b calls w', Search g cb root initial_state w b calls w' →
        (b = false ↔ Call.stop true ∈ calls)) ∧
      ∀ s, Reaches (dfs_body g cb) (dfs_init g root initial_state w) s →
        s.stack.length = s.states.length ∧ 0 < s.stack.length ∧
          s.stack.length - 1 ≤ s.path.length ∧ ∀ fault, dfs_body g cb s ≠ .error fault := by
  refine ⟨fun b calls w' => ?_, fun b w' => dfs_eq_some_iff,
    fun b calls w' h => h.result_eq_false_iff, fun s hs => ?_⟩
  · rw [dfs_eq_some_iff]
    constructor
    · rintro ⟨calls', h⟩
      obtain ⟨hsearch, hlog⟩ := Explore.unlog h
      have hcalls : calls = calls' := hlog
      exact hcalls ▸ hsearch
    · intro h
      exact ⟨calls, h.log []⟩
  · have hsized := sized_of_reaches hs
    exact ⟨hsized.size_eq, hsized.size_pos, hsized.path_size, body_ne_error hsized⟩

/-! ## Bounded paths -/

/-- The search below a path is finite if it is finite below, or pruned at,
each edge that can be put on the path. -/
theorem exists_explore_of_children
    (hchild : ∀ e, (∀ state w, (cb.next_state_fn state (path ++ [e]) w).1 = none) ∨
      ∀ edges state w, ∃ b calls w', Explore g cb edges (path ++ [e]) state w b calls w') :
    ∀ edges state w, ∃ b calls w', Explore g cb edges path state w b calls w' := by
  intro edges
  induction edges with
  | nil =>
      intro state w
      rcases hstop : cb.stop_fn w with ⟨stop, w'⟩
      cases stop with
      | true => exact ⟨_, _, _, .stopped hstop⟩
      | false => exact ⟨_, _, _, .exhausted hstop⟩
  | cons e edges ih =>
      intro state w
      rcases hstop : cb.stop_fn w with ⟨stop, w₁⟩
      cases stop with
      | true => exact ⟨_, _, _, .stopped hstop⟩
      | false =>
          rcases hnext : cb.next_state_fn state (path ++ [e]) w₁ with ⟨answer, w₂⟩
          cases answer with
          | none =>
              obtain ⟨b, calls, w', hrest⟩ := ih state w₂
              exact ⟨_, _, _, .pruned hstop hnext hrest⟩
          | some state' =>
              rcases hchild e with hnone | hfinite
              · simpa [hnext] using hnone state w₁
              · obtain ⟨b, calls₁, w₃, hsub⟩ :=
                  hfinite (g.edges_view_of_fn (g.destination_of_fn e)) state' w₂
                cases b with
                | false => exact ⟨_, _, _, .cut hstop hnext hsub⟩
                | true =>
                    obtain ⟨b, calls₂, w', hrest⟩ :=
                      ih state (cb.backtrack_fn state state' (path ++ [e]) w₃)
                    exact ⟨_, _, _, .descend hstop hnext hsub hrest⟩

/-- If `next_state_fn` prunes every path of `D` edges, the search below any
shorter path is finite. The induction is on the edges the path may still
gain. -/
theorem exists_explore {D : Nat}
    (hbound : ∀ prev path w, path.length = D → (cb.next_state_fn prev path w).1 = none)
    (n : Nat) :
    ∀ path, path.length + n + 1 = D → ∀ edges state w,
      ∃ b calls w', Explore g cb edges path state w b calls w' := by
  induction n with
  | zero =>
      intro path hlen
      -- every edge is pruned
      apply exists_explore_of_children
      intro e
      left
      intro state w
      apply hbound
      simpa using hlen
  | succ n ih =>
      intro path hlen
      apply exists_explore_of_children
      intro e
      right
      apply ih (path ++ [e])
      simp only [List.length_append, List.length_singleton]
      omega

/-- A search whose paths are pruned at `D ≥ 1` edges returns, whatever the
graph. -/
theorem dfs_terminates {D : Nat} (hD : 0 < D)
    (hbound : ∀ prev path w, path.length = D → (cb.next_state_fn prev path w).1 = none)
    (root : Node) (initial_state : State) (w : World) :
    ∃ b w', dfs g cb root initial_state w = some (.ok (b, w')) := by
  obtain ⟨b, calls, w', h⟩ := exists_explore (g := g) hbound (D - 1) []
    (by rw [List.length_nil]; omega) (g.edges_view_of_fn root) initial_state w
  exact ⟨b, w', dfs_eq_some_iff.mpr ⟨calls, h⟩⟩

end Refinement

end LetterBoxed
