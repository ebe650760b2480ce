/-
The order in which a cached iteration follows paths.

When the iterations before have left exact distances, the cache of an
iteration decides by one rule: a path of at least one word is followed if it
is a shortest path to its state and no path to that state has been followed in
this iteration. The table of distances tells the first, the creation depth of
the entry the second. So of the paths of one length that are tried, those that
are followed are the first to each state at that distance.

That the rule survives the search is an induction over its calls: `Follows`
says what a run of calls does to the cache, and it composes.
-/
import LetterBoxed.Deepening
import LetterBoxed.Levels
import LetterBoxed.Lib.BreadthFirst

set_option autoImplicit false

open Paths

namespace LetterBoxed

variable {nodes : nodes_t} {depth : Nat}

/-! ## The rule of the cache -/

/-- The iteration of `depth` has written the entry of `s`. -/
def Visited (depth : Nat) (w : SearchState) (s : search_node) : Prop :=
  (w.entry s).creationDepth.toNat = depth

/-- The entries hold distances. An iteration may begin without those of the
states it is the first to reach; they are unused until it does. -/
structure Prepared (nodes : nodes_t) (depth : Nat) (w : SearchState) : Prop where
  creation_le : ∀ s, IsSearchNode s → (w.entry s).creationDepth.toNat ≤ depth
  ceiling : ∀ s k, (chains nodes).IsDist starts k s → k + 2 ≤ depth →
    (w.entry s).depthCeiling.toNat = k + 1 ∨
      (k + 2 = depth ∧ (w.entry s).depthCeiling.toNat = 255 ∧ ¬Visited depth w s)

/-- **The rule.** -/
theorem Prepared.prunes_iff {w : SearchState} (hw : Prepared nodes depth w) (hbyte : depth < 256)
    {s : search_node} (hs : IsSearchNode s) {k : Nat} (hk : 1 ≤ k) (hlt : k + 1 < depth)
    (hreach : (chains nodes).ReachesIn starts k s) :
    (w.entry s).Prunes (k + 1) depth ↔
      ¬((chains nodes).IsDist starts k s ∧ ¬Visited depth w s) := by
  obtain ⟨d, hd, hdist⟩ := exists_isDist hk hreach
  have hcreation := hw.creation_le s hs
  have hiff : (chains nodes).IsDist starts k s ↔ d = k :=
    ⟨fun h => hdist.unique h, fun h => h ▸ hdist⟩
  rw [hiff]
  unfold state_cache_entry.Prunes Visited
  rcases hw.ceiling s d hdist (by omega) with hceiling | ⟨hlast, hceiling, hnew⟩
  · omega
  · -- not reached before, so this is the distance
    unfold Visited at hnew
    omega

/-- Recording a state at its distance. -/
theorem Prepared.record {w : SearchState} (hnodes : WellHashed nodes) (hw : Prepared nodes depth w)
    (hbyte : depth < 256) {s : search_node} {k : Nat} (hdist : (chains nodes).IsDist starts k s)
    (hlt : k + 1 < depth) :
    Prepared nodes depth (w.record s (k + 1) depth) ∧
      ∀ t, IsSearchNode t → (Visited depth (w.record s (k + 1) depth) t ↔
        Visited depth w t ∨ t = s) := by
  have hsearch : ∀ {j t}, (chains nodes).IsDist starts j t → IsSearchNode t := by
    intro j t ht
    obtain ⟨i, rfl⟩ := Nat.exists_eq_add_of_le' ht.1.1
    exact reachesIn_isSearchNode hnodes ht.1.2
  have hs := hsearch hdist
  obtain ⟨hceiling, hcreation⟩ := entry_record (w := w) (s := s) (n := k + 1) (by omega) hbyte
  refine ⟨⟨fun t ht => ?_, fun t j hj hle => ?_⟩, fun t ht => ?_⟩
  · by_cases heq : t = s
    · subst heq
      exact Nat.le_of_eq hcreation
    · rw [entry_record_of_ne hs ht heq]
      exact hw.creation_le t ht
  · by_cases heq : t = s
    · subst heq
      rw [hceiling, hdist.unique hj]
      exact .inl rfl
    · unfold Visited
      rw [entry_record_of_ne hs (hsearch hj) heq]
      exact hw.ceiling t j hj hle
  · by_cases heq : t = s
    · subst heq
      exact iff_of_true hcreation (.inr rfl)
    · unfold Visited
      rw [entry_record_of_ne hs ht heq]
      exact (or_iff_left heq).symm

/-- **One call with the cache**, before the final depth. -/
theorem Frame.cached_answer (hnodes : WellHashed nodes) {e : word_edge}
    {edges path : List word_edge} {mask : char_mask_t} (hne : path ≠ [])
    (h : Frame nodes (e :: edges) path mask) (hlt : path.length + 1 < depth) (w : SearchState) :
    next_state_with (extend_cached nodes depth) depth mask (path ++ [e]) w =
      if (w.entry (path_state nodes (path ++ [e]))).Prunes (path.length + 1) depth then (none, w)
      else (some (path_state nodes (path ++ [e])).2,
        w.record (path_state nodes (path ++ [e])) (path.length + 1) depth) := by
  obtain ⟨hsearch, _, hstate⟩ := h.next_state hnodes hne
  rw [next_state_node hne, if_neg (by omega), extend_cached, hnodes.compressedIdx_eq,
    check_cache_eq (s := (e.to, mask ||| e.wordHash)) (hstate ▸ hsearch), ← hstate]

/-! ## What a run of calls follows -/

/-- The followed paths with at least one word. -/
def followed_words (calls : List (Call word_edge char_mask_t)) : List (List word_edge) :=
  (followed calls).filter fun q => decide (2 ≤ q.length)

theorem followed_words_append (calls calls' : List (Call word_edge char_mask_t)) :
    followed_words (calls ++ calls') = followed_words calls ++ followed_words calls' := by
  simp [followed_words]

/-- The states that a path of `n` edges is followed to. -/
noncomputable def fresh (nodes : nodes_t) (depth : Nat) (w : SearchState) (n : Nat)
    (s : search_node) : Bool :=
  @decide ((chains nodes).IsDist starts (n - 1) s ∧ ¬Visited depth w s) (Classical.propDecidable _)

theorem fresh_iff {w : SearchState} {n : Nat} {s : search_node} :
    fresh nodes depth w n s = true ↔
      (chains nodes).IsDist starts (n - 1) s ∧ ¬Visited depth w s := by
  unfold fresh
  exact @decide_eq_true_iff _ (Classical.propDecidable _)

/-- What calls from `w` to `w'` follow: paths to states at their distance, each
for the first time, and of those that are tried all such paths. -/
structure Follows (nodes : nodes_t) (depth : Nat) (w : SearchState)
    (calls : List (Call word_edge char_mask_t)) (w' : SearchState) : Prop where
  prepared : Prepared nodes depth w'
  isDist : ∀ q ∈ followed_words calls,
    (chains nodes).IsDist starts (q.length - 1) (path_state nodes q)
  visited : ∀ s, IsSearchNode s → (Visited depth w' s ↔
    Visited depth w s ∨ s ∈ (followed_words calls).map (path_state nodes))
  new : ∀ s ∈ (followed_words calls).map (path_state nodes), ¬Visited depth w s
  nodup : ((followed_words calls).map (path_state nodes)).Nodup
  first : ∀ n, 2 ≤ n → n < depth → followed_at n calls =
    first_fresh (path_state nodes) (fresh nodes depth w n) (tried_at n calls)

/-- Calls that try no path below the final depth, and leave the cache alone. -/
theorem follows_nothing {w w' : SearchState} {calls : List (Call word_edge char_mask_t)}
    (hw : Prepared nodes depth w) (hentry : ∀ s, w'.entry s = w.entry s)
    (hwords : followed_words calls = [])
    (htried : ∀ n, 2 ≤ n → n < depth → tried_at n calls = [] ∧ followed_at n calls = []) :
    Follows nodes depth w calls w' := by
  refine ⟨⟨fun s hs => ?_, fun s k hk hle => ?_⟩, ?_, fun s _ => ?_, ?_, ?_, fun n hn hlt => ?_⟩
  · rw [hentry]
    exact hw.creation_le s hs
  · unfold Visited
    rw [hentry]
    exact hw.ceiling s k hk hle
  · simp [hwords]
  · unfold Visited
    rw [hentry, hwords]
    simp
  · simp [hwords]
  · simp [hwords]
  · rw [(htried n hn hlt).1, (htried n hn hlt).2, first_fresh_nil]

theorem mem_followed_at {n : Nat} {calls : List (Call word_edge char_mask_t)}
    {q : List word_edge} (hn : 2 ≤ n) :
    q ∈ followed_at n calls ↔ q ∈ followed_words calls ∧ q.length = n := by
  simp only [followed_at, followed_words, List.mem_filter, beq_iff_eq, decide_eq_true_eq]
  constructor
  · rintro ⟨hq, rfl⟩
    exact ⟨⟨hq, hn⟩, rfl⟩
  · rintro ⟨⟨hq, _⟩, rfl⟩
    exact ⟨hq, rfl⟩

/-- What is fresh behind a run of calls. -/
theorem Follows.fresh_behind {w w' : SearchState} {calls : List (Call word_edge char_mask_t)}
    (hnodes : WellHashed nodes) (h : Follows nodes depth w calls w') {n : Nat} (hn : 2 ≤ n)
    (s : search_node) :
    fresh nodes depth w' n s = true ↔ fresh nodes depth w n s = true ∧
      s ∉ (followed_at n calls).map (path_state nodes) := by
  rw [fresh_iff, fresh_iff, and_assoc]
  apply and_congr_right
  intro hdist
  have hs : IsSearchNode s := by
    obtain ⟨k, hk⟩ := Nat.exists_eq_add_of_le' hn
    have hreach := hdist.1.2
    rw [show n - 1 = k + 1 by omega] at hreach
    exact reachesIn_isSearchNode hnodes hreach
  rw [h.visited s hs, not_or]
  apply and_congr_right
  intro _
  rw [not_iff_not]
  -- followed at its distance, so by a path of this length
  constructor
  · intro hmem
    obtain ⟨q, hq, rfl⟩ := List.mem_map.mp hmem
    have hlen := (h.isDist q hq).unique hdist
    have htwo : 2 ≤ q.length := by
      simpa using (List.mem_filter.mp hq).2
    exact List.mem_map_of_mem ((mem_followed_at hn).mpr ⟨hq, by omega⟩)
  · intro hmem
    obtain ⟨q, hq, rfl⟩ := List.mem_map.mp hmem
    exact List.mem_map_of_mem ((mem_followed_at hn).mp hq).1

/-- **Runs of calls compose.** -/
theorem Follows.append {w₁ w₂ w₃ : SearchState} {calls₁ calls₂ : List (Call word_edge char_mask_t)}
    (hnodes : WellHashed nodes) (h₁ : Follows nodes depth w₁ calls₁ w₂)
    (h₂ : Follows nodes depth w₂ calls₂ w₃) : Follows nodes depth w₁ (calls₁ ++ calls₂) w₃ := by
  have hsearch : ∀ q ∈ followed_words calls₂, IsSearchNode (path_state nodes q) := by
    intro q hq
    have hdist := h₂.isDist q hq
    obtain ⟨k, hk⟩ := Nat.exists_eq_add_of_le' hdist.1.1
    have hreach := hdist.1.2
    rw [hk] at hreach
    exact reachesIn_isSearchNode hnodes hreach
  -- a state the second run follows is not visited by the first
  have hnew : ∀ s ∈ (followed_words calls₂).map (path_state nodes),
      ¬(Visited depth w₁ s ∨ s ∈ (followed_words calls₁).map (path_state nodes)) := by
    intro s hmem
    obtain ⟨q, hq, rfl⟩ := List.mem_map.mp hmem
    rw [← h₁.visited _ (hsearch q hq)]
    exact h₂.new _ hmem
  refine ⟨h₂.prepared, fun q hq => ?_, fun s hs => ?_, fun s hmem => ?_, ?_, fun n hn hlt => ?_⟩
  · rw [followed_words_append, List.mem_append] at hq
    exact hq.elim (h₁.isDist q) (h₂.isDist q)
  · rw [h₂.visited s hs, h₁.visited s hs, followed_words_append, List.map_append, List.mem_append,
      or_assoc]
  · rw [followed_words_append, List.map_append, List.mem_append] at hmem
    rcases hmem with hmem | hmem
    · exact h₁.new s hmem
    · exact fun hvisited => hnew s hmem (.inl hvisited)
  · rw [followed_words_append, List.map_append, List.nodup_append]
    refine ⟨h₁.nodup, h₂.nodup, fun s hs t ht heq => ?_⟩
    subst heq
    exact hnew s ht (.inr hs)
  · have hfresh : ∀ q ∈ tried_at n calls₂, fresh nodes depth w₂ n (path_state nodes q) = true ↔
        fresh nodes depth w₁ n (path_state nodes q) = true ∧ path_state nodes q ∉
          (first_fresh (path_state nodes) (fresh nodes depth w₁ n) (tried_at n calls₁)).map
            (path_state nodes) := by
      intro q _
      rw [← h₁.first n hn hlt]
      exact h₁.fresh_behind hnodes hn _
    rw [followed_at_append, tried_at_append, first_fresh_append hfresh, ← h₁.first n hn hlt,
      ← h₂.first n hn hlt]

/-- A call that is answered by the cache. -/
theorem Frame.follows_cached (hnodes : WellHashed nodes) (hbyte : depth < 256) {e : word_edge}
    {edges path : List word_edge} {mask : char_mask_t} {w w' : SearchState}
    {answer : Option char_mask_t} (hne : path ≠ []) (h : Frame nodes (e :: edges) path mask)
    (hlt : path.length + 1 < depth) (hw : Prepared nodes depth w)
    (hnext : next_state_with (extend_cached nodes depth) depth mask (path ++ [e]) w = (answer, w')) :
    Follows nodes depth w [.next mask (path ++ [e]) answer] w' := by
  obtain ⟨hsearch, hreach, _⟩ := h.next_state hnodes hne
  have hpos : 0 < path.length := List.length_pos_iff.mpr hne
  have hlen : (path ++ [e]).length = path.length + 1 := by simp
  have hrule := hw.prunes_iff hbyte hsearch hpos hlt hreach
  rw [h.cached_answer hnodes hne hlt] at hnext
  by_cases hprunes : (w.entry (path_state nodes (path ++ [e]))).Prunes (path.length + 1) depth
  · rw [if_pos hprunes, Prod.mk.injEq] at hnext
    obtain ⟨rfl, rfl⟩ := hnext
    have hstale := hrule.mp hprunes
    refine ⟨hw, ?_, fun s _ => ?_, ?_, ?_, fun n hn _ => ?_⟩
    · simp [followed_words]
    · simp [followed_words]
    · simp [followed_words]
    · simp [followed_words]
    · -- tried at its own length, and not fresh there
      by_cases hn' : path.length + 1 = n
      · subst hn'
        have hfresh : fresh nodes depth w (path.length + 1) (path_state nodes (path ++ [e]))
            = false := by
          rw [Bool.eq_false_iff, Ne, fresh_iff, Nat.add_sub_cancel]
          exact hstale
        simp only [tried_at_next, if_pos hlen, List.singleton_append, tried_at_nil]
        rw [first_fresh_skip hfresh]
        rfl
      · rw [tried_at_next, if_neg (by omega)]
        rfl
  · rw [if_neg hprunes, Prod.mk.injEq] at hnext
    obtain ⟨rfl, rfl⟩ := hnext
    have hfollow := not_not.mp (mt hrule.mpr hprunes)
    obtain ⟨hprepared, hvisited⟩ := hw.record hnodes hbyte hfollow.1 hlt
    have hwords : followed_words [.next mask (path ++ [e])
        (some (path_state nodes (path ++ [e])).2)] = [path ++ [e]] := by
      simp [followed_words]
      omega
    refine ⟨hprepared, ?_, fun s hs => ?_, ?_, ?_, fun n hn _ => ?_⟩
    · rw [hwords]
      intro q hq
      rw [List.mem_singleton.mp hq, hlen, Nat.add_sub_cancel]
      exact hfollow.1
    · rw [hvisited s hs, hwords, List.map_singleton, List.mem_singleton]
    · rw [hwords, List.map_singleton]
      intro s hs
      rw [List.mem_singleton.mp hs]
      exact hfollow.2
    · rw [hwords]
      exact List.nodup_singleton _
    · by_cases hn' : path.length + 1 = n
      · subst hn'
        have hfresh : fresh nodes depth w (path.length + 1) (path_state nodes (path ++ [e]))
            = true := by
          rw [fresh_iff, Nat.add_sub_cancel]
          exact hfollow
        simp only [tried_at_next, followed_at_next, if_pos hlen, List.singleton_append, tried_at_nil,
          followed_at_nil]
        rw [first_fresh_take hfresh]
        rfl
      · rw [tried_at_next, followed_at_next, if_neg (by omega)]
        rfl

/-- **Step lemma.** -/
theorem Frame.follows (hnodes : WellHashed nodes) (hbyte : depth < 256) {e : word_edge}
    {edges path : List word_edge} {mask : char_mask_t} {w w' : SearchState}
    {answer : Option char_mask_t} (h : Frame nodes (e :: edges) path mask)
    (hlen : path.length < depth) (hw : Prepared nodes depth w)
    (hnext : next_state_with (extend_cached nodes depth) depth mask (path ++ [e]) w = (answer, w')) :
    Follows nodes depth w [.next mask (path ++ [e]) answer] w' := by
  by_cases hne : path = []
  · subst hne
    rw [next_state_router, Prod.mk.injEq] at hnext
    obtain ⟨rfl, rfl⟩ := hnext
    -- the edge of the router is no word
    apply follows_nothing hw fun _ => rfl
    · simp [followed_words]
    · intro n hn _
      have hshort : ¬1 = n := by omega
      simp [hshort]
  by_cases hfinal : path.length + 1 = depth
  · -- a solution test, which is not in the cache
    rw [next_state_node hne, if_pos hfinal, Prod.mk.injEq] at hnext
    obtain ⟨rfl, rfl⟩ := hnext
    apply follows_nothing hw
    · intro s
      split_ifs <;> rfl
    · simp [followed_words]
    · intro n _ hlt
      have hlong : ¬path.length + 1 = n := by omega
      simp [hlong]
  · exact h.follows_cached hnodes hbyte hne (by omega) hw hnext

/-- **Run lemma.** A cached search from a prepared cache follows, of the paths
of each length that it tries, the first to each state at that distance. -/
theorem explore_follows (hnodes : WellHashed nodes) (hdepth : 2 ≤ depth) (hbyte : depth < 256)
    {stop : SearchState → Bool} {edges path : List word_edge} {mask : char_mask_t}
    {w w' : SearchState} {b : Bool} {calls : List (Call word_edge char_mask_t)}
    (h : Explore (word_graph nodes) (iteration_callbacks (extend_cached nodes depth) depth stop)
      edges path mask w b calls w') (hframe : Frame nodes edges path mask)
    (hlen : path.length < depth) (hw : Prepared nodes depth w) :
    Follows nodes depth w calls w' := by
  refine Explore.compose (R := fun w calls w' => Prepared nodes depth w →
      Follows nodes depth w calls w')
    (F := fun edges path mask => Frame nodes edges path mask ∧ path.length < depth)
    ?_ ?_ ?_ ?_ ?_ ?_ h ⟨hframe, hlen⟩ hw
  · intro w₁ w₂ w₃ calls₁ calls₂ h₁ h₂ hw₁
    exact (h₁ hw₁).append hnodes (h₂ (h₁ hw₁).prepared)
  · intro w w' b hstop hw
    obtain ⟨_, rfl⟩ := stop_eq hstop
    exact follows_nothing hw (fun _ => rfl) rfl fun _ _ _ => ⟨rfl, rfl⟩
  · intro parent popped path w hw
    exact follows_nothing hw (fun _ => rfl) rfl fun _ _ _ => ⟨rfl, rfl⟩
  · rintro e edges path mask w w' answer ⟨hframe, hlen⟩ hnext hw
    exact hframe.follows hnodes hbyte hlen hw hnext
  · rintro e edges path mask ⟨hframe, hlen⟩
    exact ⟨hframe.tail, hlen⟩
  · rintro e edges path mask mask' w w' ⟨hframe, hlen⟩ hnext
    refine ⟨hframe.enter (neutral_cached nodes depth) hnext, ?_⟩
    rw [List.length_append, List.length_singleton]
    exact next_state_some_lt hdepth hlen hnext

end LetterBoxed
