/-
What `solve` returns, in terms of words.

Everything is read off `Solved`: an entry of the result is the trace of a raw
solution, so a choice of variants is a chain read off a path, and what is
known of the raw solutions (they are sorted by length, no two are equal, a
nearest one is among them) carries over entry by entry.
-/
import LetterBoxed.WordChains

set_option autoImplicit false

open Paths

namespace LetterBoxed

variable {box : Box} {bw : BoxWords box} {nodes : nodes_t} {n : Nat} {cfg : Settings}
  {sols : List solution_t}

/-! ## Two paths with the same words -/

/-- From one state, words are read off one path only: a word determines the
key of its edge. -/
theorem path_unique (hbuilt : Built box bw.words bw.hashes n nodes) {es : List word_edge} :
    ∀ {s : search_node} {es' : List word_edge} {chain : List (List UInt8)},
      (chains nodes).IsPath s es → (chains nodes).IsPath s es' →
      List.Forall₂ (Spells bw.words) es chain → List.Forall₂ (Spells bw.words) es' chain →
      es = es' := by
  induction es with
  | nil =>
      intro s es' chain _ _ hspells hspells'
      cases hspells
      exact (List.forall₂_nil_right_iff.mp hspells').symm
  | cons e es ih =>
      intro s es' chain hpath hpath' hspells hspells'
      cases hspells with
      | cons he hrest =>
          cases hspells' with
          | @cons e' _ es' _ he' hrest' =>
              rw [isPath_cons] at hpath hpath'
              obtain ⟨_, hhash, _, hback⟩ := hbuilt.spells hpath.1 he
              obtain ⟨_, hhash', _, hback'⟩ := hbuilt.spells hpath'.1 he'
              -- the same word has the same hash and the same last letter
              have hdest : e.to = e'.to := by
                rw [hback, Option.some.injEq, Box.letter_inj] at hback'
                exact hback'
              have heq : e = e' :=
                hbuilt.edge_eq hpath.1 hpath'.1 (hhash.trans hhash'.symm) hdest
              subst heq
              rw [ih hpath.2 hpath'.2 hrest hrest']

/-- Two raw solutions with a common reading are equal. -/
theorem raw_unique (hbuilt : Built box bw.words bw.hashes n nodes) {depth depth' : Nat}
    {q q' : List word_edge} {chain : List (List UInt8)} (htwo : 2 ≤ depth)
    (hq : IsRawSolution nodes depth q) (hq' : IsRawSolution nodes depth' q')
    (hspells : List.Forall₂ (Spells bw.words) (q.drop 1) chain)
    (hspells' : List.Forall₂ (Spells bw.words) (q'.drop 1) chain) : q = q' := by
  obtain ⟨r, es, rfl, hchain⟩ := hq.chain
  obtain ⟨r', es', rfl, hchain'⟩ := hq'.chain
  rw [List.drop_one, List.tail_cons] at hspells hspells'
  have hlen := hq.length_eq
  rw [List.length_cons, hspells.length_eq] at hlen
  have hne : chain ≠ [] := List.ne_nil_of_length_pos (by omega)
  -- both start at the node of the first letter of the first word
  have hhead := head_of_path hbuilt hchain.path hspells _ (List.head?_eq_some_head hne)
  have hhead' := head_of_path hbuilt hchain'.path hspells' _ (List.head?_eq_some_head hne)
  rw [hhead, Option.some.injEq, Box.letter_inj] at hhead'
  have hto : r.to = r'.to := hhead'
  have hr : r = r' := by
    rw [mem_router hchain.router, mem_router hchain'.router, hto]
  subst hr
  rw [path_unique hbuilt hchain.path hchain'.path hspells hspells']

/-! ## Entries of the result -/

/-- An entry is the trace of a raw solution. -/
theorem Solved.exists_raw (h : Solved cfg bw sols) {sol : solution_t} (hsol : sol ∈ sols) :
    ∃ q ∈ h.raw, Traced bw.words q sol :=
  exists_left_of_forall₂ h.traced hsol

/-- **Every reading of an entry is a cover** of as many words as the entry has
positions. -/
theorem Solved.reads (h : Solved cfg bw sols) {sol : solution_t} (hsol : sol ∈ sols)
    {chain : List (List UInt8)} (hreads : sol.Reads chain) :
    box.IsCover bw.words chain ∧ 1 ≤ chain.length ∧ chain.length ≤ cfg.MAX_SEARCH_SIZE ∧
      chain.length = sol.chain.length := by
  obtain ⟨q, hq, htrace⟩ := h.exists_raw hsol
  obtain ⟨htwo, hle, hraw⟩ := h.result.isRaw q hq
  have hspells := (htrace.reads chain).mp hreads
  have hlen := htrace.length_eq
  have hlen' : chain.length = sol.chain.length := List.Forall₂.length_eq hreads
  obtain ⟨r, es, rfl, hchain⟩ := hraw.chain
  rw [List.drop_one, List.tail_cons] at hspells
  obtain ⟨hmem, hlinked, _⟩ := words_of_path h.built hchain.path hspells
  refine ⟨⟨hmem, hlinked, ?_⟩, by omega, by omega, hlen'⟩
  exact (covers_of_path h.built hchain.path hspells).mp hraw.covers

theorem Solved.variants_ne_nil (h : Solved cfg bw sols) {sol : solution_t} (hsol : sol ∈ sols) :
    ∀ variants ∈ sol.chain, variants ≠ [] := by
  obtain ⟨q, _, htrace⟩ := h.exists_raw hsol
  exact htrace.ne_nil

/-- Every entry has a reading. -/
theorem exists_reads {sol : solution_t} (hne : ∀ variants ∈ sol.chain, variants ≠ []) :
    ∃ chain, sol.Reads chain := by
  unfold solution_t.Reads
  generalize sol.chain = traces at hne
  induction traces with
  | nil => exact ⟨[], .nil⟩
  | cons variants traces ih =>
      rw [List.forall_mem_cons] at hne
      obtain ⟨w, hw⟩ := List.exists_mem_of_ne_nil _ hne.1
      obtain ⟨chain, hchain⟩ := ih hne.2
      exact ⟨w :: chain, .cons hw hchain⟩

/-! ## Nearest covers -/

/-- If there is a cover within the search size, the nearest has `m` words for
the least `m` that the search knows of. -/
theorem Solved.exists_isGoalDist (h : Solved cfg bw sols) {chain : List (List UInt8)}
    (hcover : box.IsCover bw.words chain) :
    ∃ m ≤ chain.length, (chains h.nodes).IsGoalDist starts Covers m := by
  obtain ⟨s, hcovers, hreach⟩ := (exists_cover_iff h.built).mp ⟨chain, rfl, hcover⟩
  exact Paths.exists_isGoalDist hcover.length_pos hcovers hreach

/-- **Completeness.** -/
theorem Solved.ne_nil_iff (h : Solved cfg bw sols) :
    sols ≠ [] ↔ ∃ chain, box.IsCover bw.words chain ∧ chain.length ≤ cfg.MAX_SEARCH_SIZE := by
  constructor
  · intro hne
    obtain ⟨sol, hsol⟩ := List.exists_mem_of_ne_nil _ hne
    obtain ⟨chain, hreads⟩ := exists_reads (h.variants_ne_nil hsol)
    obtain ⟨hcover, _, hle, _⟩ := h.reads hsol hreads
    exact ⟨chain, hcover, hle⟩
  · rintro ⟨chain, hcover, hle⟩ rfl
    -- a nearest cover is at most this long, and the search returns one of its length
    obtain ⟨m, hm, hgoal⟩ := h.exists_isGoalDist hcover
    obtain ⟨q, hq, _⟩ := h.result.nearest m hgoal (by omega)
    rw [List.forall₂_nil_right_iff.mp h.traced] at hq
    exact absurd hq List.not_mem_nil

/-- **Shortest first.** -/
theorem Solved.first_le {sol : solution_t} (h : Solved cfg bw (sol :: sols))
    {chain : List (List UInt8)} (hcover : box.IsCover bw.words chain) :
    sol.chain.length ≤ chain.length := by
  by_cases hle : chain.length ≤ cfg.MAX_SEARCH_SIZE
  · obtain ⟨m, hm, hgoal⟩ := h.exists_isGoalDist hcover
    obtain ⟨q, hq, hlen⟩ := h.result.nearest m hgoal (by omega)
    have htraced := h.traced
    have hsorted := h.result.sorted
    generalize h.raw = raw at htraced hsorted hq
    cases htraced with
    | @cons q₀ _ raw _ hfirst _ =>
        -- no entry is shorter than the first
        have hfirst_le : q₀.length ≤ q.length := by
          rw [List.pairwise_cons] at hsorted
          rcases List.mem_cons.mp hq with rfl | hq
          · exact Nat.le_refl _
          · exact hsorted.1 q hq
        have hsize := hfirst.length_eq
        omega
  · -- longer than any entry
    obtain ⟨chain', hreads⟩ := exists_reads (h.variants_ne_nil List.mem_cons_self)
    obtain ⟨_, _, hle', hlen⟩ := h.reads List.mem_cons_self hreads
    omega

/-! ## The list -/

theorem Solved.length_le (h : Solved cfg bw sols) : sols.length ≤ cfg.MAX_SOLUTIONS := by
  rw [← h.traced.length_eq]
  exact h.result.within

theorem Solved.sorted (h : Solved cfg bw sols) :
    sols.Pairwise fun sol sol' => sol.chain.length ≤ sol'.chain.length := by
  apply pairwise_of_forall₂ h.traced h.result.sorted
  intro q q' sol sol' hq hq' hle
  have hlen := hq.length_eq
  have hlen' := hq'.length_eq
  omega

/-- **No chain is reported twice.** -/
theorem Solved.disjoint (h : Solved cfg bw sols) :
    sols.Pairwise fun sol sol' => ∀ chain, sol.Reads chain → ¬sol'.Reads chain := by
  have hraw : h.raw.Pairwise fun q q' => q ≠ q' ∧
      (2 ≤ q.length ∧ IsRawSolution h.nodes q.length q) ∧ IsRawSolution h.nodes q'.length q' := by
    apply h.result.nodup.imp_of_mem
    intro q q' hq hq' hne
    obtain ⟨htwo, _, hraw⟩ := h.result.isRaw q hq
    exact ⟨hne, ⟨htwo, hraw⟩, (h.result.isRaw q' hq').2.2⟩
  apply pairwise_of_forall₂ h.traced hraw
  -- a common reading would make the raw solutions equal
  rintro q q' sol sol' hq hq' ⟨hne, ⟨htwo, hraw⟩, hraw'⟩ chain hreads hreads'
  exact hne (raw_unique h.built htwo hraw hraw' ((hq.reads chain).mp hreads)
    ((hq'.reads chain).mp hreads'))

end LetterBoxed
