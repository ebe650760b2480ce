/-
Chains of words and paths of edges are the same thing.

An edge stands for a class of words, so a path of edges stands for all chains
that take one word of each class. In the graph of words over the box every
such chain is linked, its letters are the bits the path has set, and every
linked chain of the words is read off some path. `solve` is then `solve_raw`
seen through `trace_solutions`: what it returns is, position by position, the
classes of a raw solution.
-/
import LetterBoxed.GraphBuild
import LetterBoxed.Deepening

set_option autoImplicit false

open Paths

namespace LetterBoxed

/-- A chain of words that uses all letters of the box. -/
structure Box.IsCover (box : Box) (words chain : List (List UInt8)) : Prop where
  mem : ∀ w ∈ chain, w ∈ words
  linked : Linked chain
  covered : box.CoveredBy chain

variable {box : Box} {bw : BoxWords box} {nodes : nodes_t} {n : Nat}

/-! ## From edges to words -/

section Paths

variable (hbuilt : Built box bw.words bw.hashes n nodes)
include hbuilt

/-- What is read off a path starts with the letter of the node it starts in. -/
theorem head_of_path {s : search_node} {es : List word_edge} {chain : List (List UInt8)}
    (hpath : (chains nodes).IsPath s es) (hspells : List.Forall₂ (Spells bw.words) es chain) :
    ∀ w ∈ chain.head?, w.head? = some (box.letter s.1) := by
  cases hspells with
  | nil => simp
  | cons he _ =>
      intro w hw
      rw [List.head?_cons, Option.mem_some_iff] at hw
      subst hw
      rw [isPath_cons] at hpath
      exact (hbuilt.spells hpath.1 he).2.2.1

/-- **A chain read off a path** consists of the words, is linked, and has the
letters that the path sets. -/
theorem words_of_path {es : List word_edge} :
    ∀ {s : search_node} {chain : List (List UInt8)}, (chains nodes).IsPath s es →
      List.Forall₂ (Spells bw.words) es chain →
      (∀ w ∈ chain, w ∈ bw.words) ∧ Linked chain ∧
        ∀ i : Fin BOX_CHARS, ((chains nodes).run s es).2.getLsbD i = true ↔
          s.2.getLsbD i = true ∨ ∃ w ∈ chain, box.letter i ∈ w := by
  induction es with
  | nil =>
      intro s chain _ hspells
      cases hspells
      exact ⟨by simp, .nil, by simp⟩
  | cons e es ih =>
      intro s chain hpath hspells
      cases hspells with
      | @cons _ w _ chain he hrest =>
          rw [isPath_cons] at hpath
          obtain ⟨hmem, hhash, _, hback⟩ := hbuilt.spells hpath.1 he
          obtain ⟨hall, hlinked, hbits⟩ := ih hpath.2 hrest
          refine ⟨?_, ?_, fun i => ?_⟩
          · rw [List.forall_mem_cons]
            exact ⟨hmem, hall⟩
          · -- the edge leads to the node of the letter the next word starts with
            unfold Linked
            rw [List.isChain_cons]
            refine ⟨fun w' hw' => ?_, hlinked⟩
            rw [hback]
            exact head_of_path hbuilt hpath.2 hrest w' hw'
          · rw [run_cons, hbits, chains_next, BitVec.getLsbD_or, Bool.or_eq_true, hhash,
              Box.getLsbD_letter_mask, List.exists_mem_cons_iff, or_assoc]

/-- A path covers when what is read off it does. -/
theorem covers_of_path {i : Fin BOX_CHARS} {es : List word_edge} {chain : List (List UInt8)}
    (hpath : (chains nodes).IsPath (i, 0#32) es)
    (hspells : List.Forall₂ (Spells bw.words) es chain) :
    Covers ((chains nodes).run (i, 0#32) es) ↔ box.CoveredBy chain := by
  obtain ⟨_, _, hbits⟩ := words_of_path hbuilt hpath hspells
  have hlt := run_mask_lt hbuilt.wellHashed es (i, 0#32) zero_mask_lt hpath
  unfold Covers Box.CoveredBy
  rw [eq_solution_mask_iff hlt]
  constructor
  · intro hfull c hc
    -- no bit is set at the start, so each is a letter of the chain
    obtain ⟨j, rfl⟩ := Box.exists_letter hc
    have hj := (hbits j).mp (hfull j)
    rwa [BitVec.getLsbD_zero, Bool.false_eq_true, false_or] at hj
  · intro hcovered j
    exact (hbits j).mpr (.inr (hcovered _ (Box.letter_mem j)))

/-- Something can be read off every path. -/
theorem exists_words_of_path {es : List word_edge} :
    ∀ {s : search_node}, (chains nodes).IsPath s es →
      ∃ chain, List.Forall₂ (Spells bw.words) es chain := by
  induction es with
  | nil => exact fun _ => ⟨[], .nil⟩
  | cons e es ih =>
      intro s hpath
      rw [isPath_cons] at hpath
      obtain ⟨w, hw⟩ := hbuilt.exists_spells hpath.1
      obtain ⟨chain, hchain⟩ := ih hpath.2
      exact ⟨w :: chain, .cons hw hchain⟩

end Paths

/-! ## From words to edges -/

/-- Every linked chain of the words is read off a path from any state at the
node of its first letter. -/
theorem path_of_words (hbuilt : Built box bw.words bw.hashes bw.words.length nodes)
    {chain : List (List UInt8)} :
    ∀ {s : search_node}, (∀ w ∈ chain, w ∈ bw.words) → Linked chain →
      (∀ w ∈ chain.head?, w.head? = some (box.letter s.1)) →
      ∃ es, (chains nodes).IsPath s es ∧ List.Forall₂ (Spells bw.words) es chain := by
  induction chain with
  | nil => exact fun _ _ _ => ⟨[], trivial, .nil⟩
  | cons w chain ih =>
      intro s hmem hlinked hfront
      rw [List.forall_mem_cons] at hmem
      unfold Linked at hlinked
      rw [List.isChain_cons] at hlinked
      obtain ⟨e, he, hw⟩ := hbuilt.edge_of_word hmem.1 (hfront w (by simp))
      obtain ⟨_, _, _, hback⟩ := hbuilt.spells he hw
      -- the edge leads to where the rest of the chain starts
      have hnext : ∀ w' ∈ chain.head?,
          w'.head? = some (box.letter ((chains nodes).next s e).1) := by
        intro w' hw'
        rw [hlinked.1 w' hw', hback]
        rfl
      obtain ⟨es, hpath, hspells⟩ := ih hmem.2 hlinked.2 hnext
      exact ⟨e :: es, ⟨he, hpath⟩, .cons hw hspells⟩

/-- Every cover is read off a path from some start state. -/
theorem exists_path_of_cover (hbuilt : Built box bw.words bw.hashes bw.words.length nodes)
    {chain : List (List UInt8)} (hcover : box.IsCover bw.words chain) :
    ∃ i es, (chains nodes).IsPath (i, 0#32) es ∧ List.Forall₂ (Spells bw.words) es chain := by
  -- the node of the first letter; an empty chain starts anywhere
  have hfront : ∃ i : Fin BOX_CHARS, ∀ w ∈ chain.head?, w.head? = some (box.letter i) := by
    cases hhead : chain.head? with
    | none => exact ⟨⟨0, by decide⟩, by simp⟩
    | some w =>
        obtain ⟨i, hi⟩ := bw.buildable.front w (hcover.mem w (List.mem_of_mem_head? hhead))
        refine ⟨i, fun w' hw' => ?_⟩
        rw [Option.mem_some_iff] at hw'
        rw [← hw', hi]
  obtain ⟨i, hi⟩ := hfront
  obtain ⟨es, hpath, hspells⟩ := path_of_words (s := (i, 0#32)) hbuilt hcover.mem hcover.linked hi
  exact ⟨i, es, hpath, hspells⟩

/-- **Covers of `k` words are covering states reached by `k` edges.** -/
theorem exists_cover_iff (hbuilt : Built box bw.words bw.hashes bw.words.length nodes) {k : Nat} :
    (∃ chain, chain.length = k ∧ box.IsCover bw.words chain) ↔
      ∃ s, Covers s ∧ (chains nodes).ReachesIn starts k s := by
  constructor
  · rintro ⟨chain, hlen, hcover⟩
    obtain ⟨i, es, hpath, hspells⟩ := exists_path_of_cover hbuilt hcover
    refine ⟨_, (covers_of_path hbuilt hpath hspells).mpr hcover.covered, (i, 0#32), rfl, es, ?_,
      hpath, rfl⟩
    rw [hspells.length_eq, hlen]
  · rintro ⟨s, hcovers, ⟨i, mask⟩, hstart, es, hlen, hpath, rfl⟩
    have hmask : mask = 0#32 := hstart
    subst hmask
    obtain ⟨chain, hspells⟩ := exists_words_of_path hbuilt hpath
    obtain ⟨hmem, hlinked, _⟩ := words_of_path hbuilt hpath hspells
    refine ⟨chain, by rw [← hspells.length_eq, hlen], hmem, hlinked, ?_⟩
    exact (covers_of_path hbuilt hpath hspells).mp hcovers

/-- A cover has at least one word. -/
theorem Box.IsCover.length_pos {words chain : List (List UInt8)} (h : box.IsCover words chain) :
    1 ≤ chain.length := by
  obtain ⟨w, hw, _⟩ := h.covered _ (Box.letter_mem ⟨0, by decide⟩)
  exact List.length_pos_of_mem hw

/-! ## Tracing -/

/-- Choosing one variant at each position of a solution. -/
def solution_t.Reads (sol : solution_t) (chain : List (List UInt8)) : Prop :=
  List.Forall₂ (fun w variants => w ∈ variants) chain sol.chain

/-- The variants of an edge are its words, and there is one. -/
def IsTrace (words : List (List UInt8)) (e : word_edge) (variants : List (List UInt8)) : Prop :=
  variants ≠ [] ∧ ∀ w, w ∈ variants ↔ Spells words e w

/-- `sol` lists, position by position, the words of the edges of `q`. -/
structure Traced (words : List (List UInt8)) (q : List word_edge) (sol : solution_t) : Prop where
  length_eq : sol.chain.length + 1 = q.length
  ne_nil : ∀ variants ∈ sol.chain, variants ≠ []
  reads : ∀ chain, sol.Reads chain ↔ List.Forall₂ (Spells words) (q.drop 1) chain

theorem trace_edge_ok (hbuilt : Built box bw.words bw.hashes n nodes) {s : Fin BOX_CHARS}
    {e : word_edge} (he : e ∈ outgoing nodes s) :
    ∃ variants, trace_edge bw.words e = .ok variants ∧ IsTrace bw.words e variants := by
  have hreads : ∀ i ∈ e.wordVariantIdxs,
      ∃ w, read .words bw.words i = .ok w ∧ bw.words[i]? = some w := by
    intro i hi
    obtain ⟨_, w, hw, _⟩ := hbuilt.variant he hi
    exact ⟨w, read_getElem hw, hw⟩
  obtain ⟨variants, hrun, hpairs⟩ := exists_mapM hreads
  refine ⟨variants, hrun, ?_, fun w => ?_⟩
  · rintro rfl
    exact hbuilt.variants_ne_nil he (List.forall₂_nil_right_iff.mp hpairs)
  · -- the variants are what is read at the indices, one after the other
    clear hrun hreads
    unfold Spells
    generalize e.wordVariantIdxs = idxs at hpairs
    induction hpairs with
    | nil => simp
    | @cons i w' idxs variants hi _ ih =>
        rw [List.mem_cons, ih, List.exists_mem_cons_iff, hi, Option.some.injEq, eq_comm]

theorem isTrace_ne_nil {words : List (List UInt8)} {es : List word_edge}
    {traces : List (List (List UInt8))} (h : List.Forall₂ (IsTrace words) es traces) :
    ∀ variants ∈ traces, variants ≠ [] := by
  induction h with
  | nil => simp
  | cons he _ ih =>
      rw [List.forall_mem_cons]
      exact ⟨he.1, ih⟩

/-- Choosing from the traces of edges is reading off the edges. -/
theorem isTrace_reads {words : List (List UInt8)} {es : List word_edge}
    {traces : List (List (List UInt8))} (h : List.Forall₂ (IsTrace words) es traces) :
    ∀ chain, List.Forall₂ (fun w variants => w ∈ variants) chain traces ↔
      List.Forall₂ (Spells words) es chain := by
  induction h with
  | nil => simp
  | cons he _ ih =>
      intro chain
      cases chain with
      | nil => simp
      | cons w chain => rw [List.forall₂_cons, List.forall₂_cons, ih, he.2]

theorem exists_traced (hbuilt : Built box bw.words bw.hashes n nodes) {q : List word_edge}
    {depth : Nat} (hq : IsRawSolution nodes depth q) :
    ∃ sol, trace_solution bw.words q = .ok sol ∧ Traced bw.words q sol := by
  obtain ⟨r, es, rfl, hchain⟩ := hq.chain
  have hedges : ∀ e ∈ es, ∃ variants, trace_edge bw.words e = .ok variants ∧
      IsTrace bw.words e variants := by
    intro e he
    obtain ⟨s, hs⟩ := exists_outgoing es _ hchain.path e he
    exact trace_edge_ok hbuilt hs
  obtain ⟨traces, hrun, hpairs⟩ := exists_mapM hedges
  refine ⟨{ chain := traces }, ?_, ⟨?_, isTrace_ne_nil hpairs, isTrace_reads hpairs⟩⟩
  · unfold trace_solution
    rw [List.drop_one, List.tail_cons, hrun]
    rfl
  · rw [List.length_cons, hpairs.length_eq]

/-! ## solve -/

/-- The result of `solve`, read through its stages. -/
structure Solved (cfg : Settings) (bw : BoxWords box) (sols : List solution_t) where
  nodes : nodes_t
  built : Built box bw.words bw.hashes bw.words.length nodes
  raw : List (List word_edge)
  result : RawResult cfg nodes raw
  traced : List.Forall₂ (Traced bw.words) raw sols

/-- **`solve` returns** on words over the box with their letter-set hashes. -/
theorem exists_solved (cfg : Settings) {compressionIndex : compression_index_t}
    (hindex : IndexOf box compressionIndex) (bw : BoxWords box) :
    ∃ sols, solve cfg compressionIndex bw.words bw.hashes = some (.ok sols) ∧
      Nonempty (Solved cfg bw sols) := by
  obtain ⟨nodes, hbuild, hbuilt⟩ := build_graph_built hindex bw.buildable
  obtain ⟨raw, hsearch, hresult⟩ := solve_raw_result cfg hbuilt.wellHashed
  have htraces : ∀ q ∈ raw, ∃ sol, trace_solution bw.words q = .ok sol ∧ Traced bw.words q sol :=
    fun q hq => exists_traced hbuilt (hresult.isRaw q hq).2.2
  obtain ⟨sols, htrace, htraced⟩ := exists_mapM htraces
  refine ⟨sols, ?_, ⟨nodes, hbuilt, raw, hresult, htraced⟩⟩
  have hlength : ¬bw.words.length ≠ bw.hashes.length := by
    rw [bw.buildable.length_eq]
    exact not_not.mpr rfl
  -- the three stages, each of which returns
  unfold solve
  rw [if_neg hlength]
  dsimp only
  rw [run_lift_ok hbuild, run_bind_ok hsearch]
  unfold trace_solutions
  rw [htrace]
  rfl

end LetterBoxed
