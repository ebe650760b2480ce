/-
An iteration with the state cache loses only what it has found already.

The cache is shared by all iterations and changes while the search runs, so
the induction over the search has to say what a pruned edge is good for. It
does so in terms of the cache itself. `TriedAt w s n e` says that following
`e` from state `s` at path size `n` is settled: before the final depth, that
the cache would prune the state it leads to, and at the final depth, that a
solution through `s` and `e` is collected if there is one. Writes only ever
improve an entry (`Grows`), and an improved entry still prunes what the old
one pruned, so what is settled stays settled.

An edge is settled by being pruned or by being followed, and a state whose
entry an iteration has written is `Done` when the search has left it: all its
edges are settled at the path size of its entry. The states on the current
path are not done yet; they are done when their frame is exhausted.
-/
import LetterBoxed.Iteration

set_option autoImplicit false

open Paths

namespace LetterBoxed

variable {nodes : nodes_t} {depth : Nat}

/-! ## Entries only improve -/

/-- A write in the iteration of `depth`. -/
structure Improved (depth : Nat) (old new : state_cache_entry) : Prop where
  creation_eq : new.creationDepth.toNat = depth
  ceiling_le : new.depthCeiling.toNat < old.depthCeiling.toNat ∨
    (new.depthCeiling.toNat = old.depthCeiling.toNat ∧ old.creationDepth.toNat < depth)

theorem Improved.trans {old mid new : state_cache_entry} (h₁ : Improved depth old mid)
    (h₂ : Improved depth mid new) : Improved depth old new := by
  have hcreation := h₁.creation_eq
  have hle := h₁.ceiling_le
  -- the second write cannot have been for a newer iteration, so it is lower
  refine ⟨h₂.creation_eq, .inl ?_⟩
  rcases h₂.ceiling_le with hlt | ⟨_, hlt⟩ <;> omega

theorem Improved.prunes {old new : state_cache_entry} (h : Improved depth old new) {n : Nat}
    (hold : old.Prunes n depth) : new.Prunes n depth := by
  have hcreation := h.creation_eq
  have hle := h.ceiling_le
  simp only [state_cache_entry.Prunes] at hold ⊢
  omega

/-- What the entry of `s` promises: a chain to `s` whose path has the size of
the ceiling, and is not final at `depth`. -/
structure Reached (nodes : nodes_t) (depth : Nat) (entry : state_cache_entry) (s : search_node) :
    Prop where
  two_le : 2 ≤ entry.depthCeiling.toNat
  lt_depth : entry.depthCeiling.toNat < depth
  reachesIn : (chains nodes).ReachesIn starts (entry.depthCeiling.toNat - 1) s

/-- How the variables change in the iteration of `depth`. -/
structure Grows (nodes : nodes_t) (depth : Nat) (w w' : SearchState) : Prop where
  solutions : w.solutions <+: w'.solutions
  fault_eq : w'.fault = w.fault
  entry : ∀ s, IsSearchNode s → w'.entry s = w.entry s ∨
    (Improved depth (w.entry s) (w'.entry s) ∧ Reached nodes depth (w'.entry s) s)

theorem Grows.refl (w : SearchState) : Grows nodes depth w w :=
  ⟨List.prefix_rfl, rfl, fun _ _ => .inl rfl⟩

theorem Grows.trans {w₁ w₂ w₃ : SearchState} (h₁ : Grows nodes depth w₁ w₂)
    (h₂ : Grows nodes depth w₂ w₃) : Grows nodes depth w₁ w₃ := by
  refine ⟨h₁.solutions.trans h₂.solutions, h₂.fault_eq.trans h₁.fault_eq, fun s hs => ?_⟩
  rcases h₂.entry s hs with hsame₂ | ⟨himproved₂, hreached₂⟩
  · rw [hsame₂]
    exact h₁.entry s hs
  · -- the promise of the entry is that of the last write
    rcases h₁.entry s hs with hsame₁ | ⟨himproved₁, _⟩
    · rw [hsame₁] at himproved₂
      exact .inr ⟨himproved₂, hreached₂⟩
    · exact .inr ⟨himproved₁.trans himproved₂, hreached₂⟩

theorem Grows.prunes {w w' : SearchState} (h : Grows nodes depth w w') {s : search_node}
    (hs : IsSearchNode s) {n : Nat} (hw : (w.entry s).Prunes n depth) :
    (w'.entry s).Prunes n depth := by
  rcases h.entry s hs with hsame | ⟨himproved, _⟩
  · rwa [hsame]
  · exact himproved.prunes hw

/-- Collecting a solution. -/
theorem grows_collect (w : SearchState) (q : List word_edge) :
    Grows nodes depth w { w with solutions := w.solutions ++ [q] } :=
  ⟨List.prefix_append _ _, rfl, fun _ _ => .inl rfl⟩

/-- The entry that a cache miss writes. -/
theorem entry_record {w : SearchState} {s : search_node} {n : Nat} (hn : n < 256)
    (hdepth : depth < 256) :
    ((w.record s n depth).entry s).depthCeiling.toNat = n ∧
      ((w.record s n depth).entry s).creationDepth.toNat = depth := by
  rw [entry_record_self]
  exact ⟨UInt8.toNat_ofNat_of_lt' hn, UInt8.toNat_ofNat_of_lt' hdepth⟩

/-- A cache miss at a state reached by a chain of path size `n`. -/
theorem grows_record {w : SearchState} {s : search_node} {n : Nat} (hs : IsSearchNode s)
    (hn : 2 ≤ n) (hlt : n < depth) (hdepth : depth < 256)
    (hreach : (chains nodes).ReachesIn starts (n - 1) s)
    (hmiss : ¬(w.entry s).Prunes n depth) : Grows nodes depth w (w.record s n depth) := by
  obtain ⟨hceiling, hcreation⟩ := entry_record (w := w) (s := s) (n := n) (by omega) hdepth
  refine ⟨List.prefix_rfl, rfl, fun t ht => ?_⟩
  by_cases heq : t = s
  · subst heq
    refine .inr ⟨⟨hcreation, ?_⟩, ⟨by rw [hceiling]; exact hn, by rw [hceiling]; exact hlt, ?_⟩⟩
    · rw [hceiling]
      simp only [state_cache_entry.Prunes] at hmiss
      omega
    · rw [hceiling]
      exact hreach
  · exact .inl (entry_record_of_ne hs ht heq)

/-! ## Settled edges -/

/-- Following `e` from `s` at path size `n` is settled. -/
def TriedAt (nodes : nodes_t) (depth : Nat) (w : SearchState) (s : search_node) (n : Nat)
    (e : word_edge) : Prop :=
  if n + 1 = depth then
    Covers ((chains nodes).next s e) →
      ∃ path, path.length = n ∧ path_state nodes path = s ∧ path ++ [e] ∈ w.solutions
  else (w.entry ((chains nodes).next s e)).Prunes (n + 1) depth

/-- All edges of `s` are settled at the path size of its entry. -/
def Done (nodes : nodes_t) (depth : Nat) (w : SearchState) (s : search_node) : Prop :=
  ∀ e ∈ outgoing nodes s.1, TriedAt nodes depth w s (w.entry s).depthCeiling.toNat e

/-- The next edge of the frame of `path` is settled. Edges of the router are
not cached; one is settled when all edges of its node are. -/
def Tried (nodes : nodes_t) (depth : Nat) (w : SearchState) (path : List word_edge)
    (e : word_edge) : Prop :=
  match path with
  | [] => ∀ e' ∈ outgoing nodes e.to, TriedAt nodes depth w (path_state nodes [e]) 1 e'
  | r :: es => TriedAt nodes depth w (path_state nodes (r :: es)) (r :: es).length e

theorem tried_node {w : SearchState} {path : List word_edge} (hne : path ≠ []) (e : word_edge) :
    Tried nodes depth w path e ↔
      TriedAt nodes depth w (path_state nodes path) path.length e := by
  obtain ⟨r, es, rfl⟩ := List.exists_cons_of_ne_nil hne
  rfl

theorem TriedAt.mono (hnodes : WellHashed nodes) {w w' : SearchState} {s : search_node} {n : Nat}
    {e : word_edge} (hs : s.2.toNat < 2 ^ BOX_CHARS) (he : e ∈ outgoing nodes s.1)
    (hgrows : Grows nodes depth w w') (h : TriedAt nodes depth w s n e) :
    TriedAt nodes depth w' s n e := by
  by_cases hfinal : n + 1 = depth
  · rw [TriedAt, if_pos hfinal] at h ⊢
    intro hcovers
    obtain ⟨path, hlen, hstate, hmem⟩ := h hcovers
    exact ⟨path, hlen, hstate, hgrows.solutions.subset hmem⟩
  · rw [TriedAt, if_neg hfinal] at h ⊢
    exact hgrows.prunes (isSearchNode_next hnodes hs he) h

theorem Done.mono (hnodes : WellHashed nodes) {w w' : SearchState} {s : search_node}
    (hs : IsSearchNode s) (hgrows : Grows nodes depth w w') (hsame : w'.entry s = w.entry s)
    (h : Done nodes depth w s) : Done nodes depth w' s := by
  intro e he
  rw [hsame]
  exact (h e he).mono hnodes hs.mask_lt he hgrows

section Frame

variable {e : word_edge} {edges path : List word_edge} {mask : char_mask_t} {w w' : SearchState}

theorem Frame.mask_lt (hnodes : WellHashed nodes) (h : Frame nodes edges path mask) :
    (path_state nodes path).2.toNat < 2 ^ BOX_CHARS := by
  cases h with
  | root _ => exact zero_mask_lt
  | node hchain _ => exact reachesIn_mask_lt hnodes hchain.reachesIn

theorem Tried.mono (hnodes : WellHashed nodes) (hframe : Frame nodes (e :: edges) path mask)
    (hgrows : Grows nodes depth w w') (h : Tried nodes depth w path e) :
    Tried nodes depth w' path e := by
  cases path with
  | nil =>
      intro e' he'
      exact (h e' he').mono hnodes (hframe.enter_router.mask_lt hnodes) he' hgrows
  | cons r es =>
      obtain ⟨_, henabled, _⟩ := hframe.at_node (List.cons_ne_nil r es)
      exact TriedAt.mono hnodes (hframe.mask_lt hnodes) henabled hgrows h

/-- The states below an edge of a chain: a search state, reached by a path of
the size at hand, and the one the cache is asked about. -/
theorem Frame.next_state (hnodes : WellHashed nodes) (hne : path ≠ [])
    (h : Frame nodes (e :: edges) path mask) :
    IsSearchNode (path_state nodes (path ++ [e])) ∧
      (chains nodes).ReachesIn starts path.length (path_state nodes (path ++ [e])) ∧
      path_state nodes (path ++ [e]) = (e.to, mask ||| e.wordHash) := by
  obtain ⟨⟨r, es, heq, hchain⟩, hstate⟩ := h.extended hne
  have hlen : es.length = path.length := by
    have := congrArg List.length heq
    simpa using this.symm
  have hreach := hchain.reachesIn
  rw [← heq, hlen] at hreach
  have hpos : 0 < path.length := List.length_pos_iff.mpr hne
  rw [← Nat.sub_add_cancel hpos] at hreach
  refine ⟨reachesIn_isSearchNode hnodes hreach, ?_, hstate⟩
  rwa [Nat.sub_add_cancel hpos] at hreach

/-- **One call with the cache.** A pruned edge is settled and writes nothing; a
followed edge is either one from the router, which writes nothing, or misses
the cache, which records its state. -/
theorem Frame.cached_call (hnodes : WellHashed nodes) (hdepth : depth < 256)
    {answer : Option char_mask_t} (h : Frame nodes (e :: edges) path mask)
    (hlen : path.length < depth)
    (hnext : next_state_with (extend_cached nodes depth) depth mask (path ++ [e]) w = (answer, w')) :
    (answer = none ∧ Grows nodes depth w w' ∧ (∀ s, w'.entry s = w.entry s) ∧
        Tried nodes depth w' path e) ∨
      (∃ mask', answer = some mask' ∧ path = [] ∧ w' = w) ∨
      ∃ mask', answer = some mask' ∧ path ≠ [] ∧ path.length + 1 < depth ∧
        Grows nodes depth w w' ∧
        w' = w.record (path_state nodes (path ++ [e])) (path.length + 1) depth := by
  by_cases hne : path = []
  · subst hne
    rw [next_state_router] at hnext
    cases hnext
    exact .inr (.inl ⟨_, rfl, rfl, rfl⟩)
  obtain ⟨hsearch, hreach, hstate⟩ := h.next_state hnodes hne
  obtain ⟨hmask, _, _⟩ := h.at_node hne
  obtain ⟨r, es, rfl⟩ := List.exists_cons_of_ne_nil hne
  have hnextState : (chains nodes).next (path_state nodes (r :: es)) e
      = path_state nodes ((r :: es) ++ [e]) := (path_state_concat hne e).symm
  rw [next_state_node hne] at hnext
  by_cases hfinal : (r :: es).length + 1 = depth
  · -- the final depth: collected if it covers, and pruned either way
    rw [if_pos hfinal] at hnext
    by_cases hcover : mask ||| e.wordHash = solution_mask
    · rw [if_pos hcover] at hnext
      cases hnext
      refine .inl ⟨rfl, grows_collect w _, fun s => rfl, ?_⟩
      rw [Tried, TriedAt, if_pos hfinal]
      intro _
      exact ⟨r :: es, rfl, rfl, List.mem_append_right _ (List.mem_singleton_self _)⟩
    · rw [if_neg hcover] at hnext
      cases hnext
      refine .inl ⟨rfl, .refl w, fun s => rfl, ?_⟩
      rw [Tried, TriedAt, if_pos hfinal, hnextState, hstate]
      exact fun hcovers => absurd hcovers hcover
  · -- before the final depth: the entry of the state the edge leads to decides
    rw [if_neg hfinal, extend_cached, hnodes.compressedIdx_eq,
      check_cache_eq (s := (e.to, mask ||| e.wordHash)) (hstate ▸ hsearch), ← hstate] at hnext
    by_cases hprune : (w.entry (path_state nodes ((r :: es) ++ [e]))).Prunes
        ((r :: es).length + 1) depth
    · rw [if_pos hprune] at hnext
      cases hnext
      refine .inl ⟨rfl, .refl w, fun s => rfl, ?_⟩
      rw [Tried, TriedAt, if_neg hfinal, hnextState]
      exact hprune
    · rw [if_neg hprune] at hnext
      cases hnext
      have hlt : (r :: es).length + 1 < depth := by omega
      refine .inr (.inr ⟨_, rfl, hne, hlt, ?_, rfl⟩)
      exact grows_record hsearch (by rw [List.length_cons]; omega) hlt hdepth hreach hprune

/-- Whatever a call answers, the entries improve. -/
theorem Frame.call_grows (hnodes : WellHashed nodes) (hdepth : depth < 256)
    {answer : Option char_mask_t} (h : Frame nodes (e :: edges) path mask)
    (hlen : path.length < depth)
    (hnext : next_state_with (extend_cached nodes depth) depth mask (path ++ [e]) w = (answer, w')) :
    Grows nodes depth w w' := by
  rcases h.cached_call hnodes hdepth hlen hnext with
    ⟨_, hgrows, _⟩ | ⟨_, _, _, rfl⟩ | ⟨_, _, _, _, hgrows, _⟩
  · exact hgrows
  · exact .refl w'
  · exact hgrows

/-- An edge that was followed is settled when the subtree below it is. -/
theorem Frame.tried_of_child (hnodes : WellHashed nodes) (hdepth : depth < 256)
    {mask' : char_mask_t} {w₂ w₃ : SearchState} (h : Frame nodes (e :: edges) path mask)
    (hlen : path.length < depth)
    (hnext : next_state_with (extend_cached nodes depth) depth mask (path ++ [e]) w
      = (some mask', w₂)) (hgrows : Grows nodes depth w₂ w₃)
    (hchild : ∀ e' ∈ outgoing nodes e.to, Tried nodes depth w₃ (path ++ [e]) e') :
    Tried nodes depth w₃ path e := by
  rcases h.cached_call hnodes hdepth hlen hnext with
    ⟨hnone, _⟩ | ⟨_, _, rfl, _⟩ | ⟨_, _, hne, hlt, _, hw₂⟩
  · cases hnone
  · exact hchild
  · -- the entry that was written on the way down prunes the same path now
    obtain ⟨hsearch, _, _⟩ := h.next_state hnodes hne
    rw [tried_node hne, TriedAt, if_neg (by omega), ← path_state_concat hne]
    apply hgrows.prunes hsearch
    obtain ⟨hceiling, hcreation⟩ := entry_record (w := w)
      (s := path_state nodes (path ++ [e])) (n := path.length + 1) (by omega) hdepth
    rw [hw₂, state_cache_entry.Prunes, hceiling, hcreation]
    omega

/-- A state is done when the subtree it was recorded for has been searched and
no shorter path to it was found there. -/
theorem Frame.done_of_child (hnodes : WellHashed nodes) (hdepth : depth < 256)
    {mask' : char_mask_t} {w₂ w₃ : SearchState} (h : Frame nodes (e :: edges) path mask)
    (hlen : path.length < depth)
    (hnext : next_state_with (extend_cached nodes depth) depth mask (path ++ [e]) w
      = (some mask', w₂))
    (hchild : ∀ e' ∈ outgoing nodes e.to, Tried nodes depth w₃ (path ++ [e]) e')
    {s : search_node} (hs : IsSearchNode s) (hsame : w₃.entry s = w₂.entry s)
    (hchanged : w₂.entry s ≠ w.entry s) : Done nodes depth w₃ s := by
  rcases h.cached_call hnodes hdepth hlen hnext with
    ⟨hnone, _⟩ | ⟨_, _, _, hw₂⟩ | ⟨_, _, hne, hlt, _, hw₂⟩
  · cases hnone
  · rw [hw₂] at hchanged
    exact absurd rfl hchanged
  · obtain ⟨hsearch, _, _⟩ := h.next_state hnodes hne
    -- the call writes one entry only
    have hrecorded : s = path_state nodes (path ++ [e]) := by
      by_contra hother
      rw [hw₂] at hchanged
      exact hchanged (entry_record_of_ne hsearch hs hother)
    subst hrecorded
    obtain ⟨hceiling, _⟩ := entry_record (w := w)
      (s := path_state nodes (path ++ [e])) (n := path.length + 1) (by omega) hdepth
    intro e' he'
    rw [path_state_concat_node] at he'
    have htried := (tried_node (List.append_ne_nil_of_right_ne_nil path (List.cons_ne_nil e []))
      e').mp (hchild e' he')
    rw [hsame, hw₂, hceiling]
    rwa [List.length_append, List.length_singleton] at htried

end Frame

/-! ## The whole search below a frame -/

/-- **What a search with the cache leaves behind.** The entries only improve,
and if the search was not stopped, then every edge of the frame is settled and
every state whose entry it changed is done. -/
theorem explore_cached (hnodes : WellHashed nodes) (hdepth : 2 ≤ depth) (hbyte : depth < 256)
    {stop : SearchState → Bool} {edges path : List word_edge} {mask : char_mask_t}
    {w w' : SearchState} {b : Bool} {calls : List (Call word_edge char_mask_t)}
    (h : Explore (word_graph nodes) (iteration_callbacks (extend_cached nodes depth) depth stop)
      edges path mask w b calls w') (hframe : Frame nodes edges path mask)
    (hlen : path.length < depth) :
    Grows nodes depth w w' ∧ (b = true → (∀ e ∈ edges, Tried nodes depth w' path e) ∧
      ∀ s, IsSearchNode s → w'.entry s ≠ w.entry s → Done nodes depth w' s) := by
  induction h with
  | stopped hstop =>
      obtain ⟨_, rfl⟩ := stop_eq hstop
      exact ⟨.refl _, fun hb => nomatch hb⟩
  | exhausted hstop =>
      obtain ⟨_, rfl⟩ := stop_eq hstop
      refine ⟨.refl _, fun _ => ⟨fun e he => ?_, fun s _ hne => absurd rfl hne⟩⟩
      exact absurd he List.not_mem_nil
  | @pruned e edges path mask w w₁ w₂ b calls w' hstop hnext _ ih =>
      obtain ⟨_, rfl⟩ := stop_eq hstop
      obtain ⟨hgrows', hdone⟩ := ih hframe.tail hlen
      rcases hframe.cached_call hnodes hbyte hlen hnext with
        ⟨_, hgrows, hsame, htried⟩ | ⟨_, hsome, _⟩ | ⟨_, hsome, _⟩
      · -- settled by the call, and it stays settled
        refine ⟨hgrows.trans hgrows', fun hb => ⟨?_, fun s hs hne => ?_⟩⟩
        · rw [List.forall_mem_cons]
          exact ⟨htried.mono hnodes hframe hgrows', (hdone hb).1⟩
        · rw [← hsame s] at hne
          exact (hdone hb).2 s hs hne
      · cases hsome
      · cases hsome
  | @cut e edges path mask mask' w w₁ w₂ calls w' hstop hnext _ ih =>
      obtain ⟨_, rfl⟩ := stop_eq hstop
      have hlt := next_state_some_lt hdepth hlen hnext
      obtain ⟨hgrows', _⟩ := ih (hframe.enter (neutral_cached nodes depth) hnext) (by simpa using hlt)
      -- stopped below, so only the entries are known
      refine ⟨Grows.trans ?_ hgrows', fun hb => nomatch hb⟩
      exact hframe.call_grows hnodes hbyte hlen hnext
  | @descend e edges path mask mask' w w₁ w₂ w₃ b calls₁ calls₂ w' hstop hnext _ _ ih₁ ih₂ =>
      obtain ⟨_, rfl⟩ := stop_eq hstop
      have hlt := next_state_some_lt hdepth hlen hnext
      have hcall := hframe.call_grows hnodes hbyte hlen hnext
      obtain ⟨hgrows₁, hdone₁⟩ :=
        ih₁ (hframe.enter (neutral_cached nodes depth) hnext) (by simpa using hlt)
      obtain ⟨hgrows₂, hdone₂⟩ := ih₂ hframe.tail hlen
      obtain ⟨htried₁, hdone₁⟩ := hdone₁ rfl
      refine ⟨(hcall.trans hgrows₁).trans hgrows₂, fun hb => ⟨?_, fun s hs hne => ?_⟩⟩
      · rw [List.forall_mem_cons]
        refine ⟨?_, (hdone₂ hb).1⟩
        exact (hframe.tried_of_child hnodes hbyte hlen hnext hgrows₁ htried₁).mono hnodes hframe
          hgrows₂
      · -- the entry was last written behind the subtree, in it, or on the way into it
        by_cases hafter : w'.entry s = w₃.entry s
        · apply Done.mono hnodes hs hgrows₂ hafter
          by_cases hinside : w₃.entry s = w₂.entry s
          · apply hframe.done_of_child hnodes hbyte hlen hnext htried₁ hs hinside
            rwa [← hinside, ← hafter]
          · exact hdone₁ s hs hinside
        · exact (hdone₂ hb).2 s hs hafter

end LetterBoxed
