/-
Solutions with words to spare.

`next_state_fn` tests for a cover only where the path has the depth of its
iteration, so a chain that has used all letters before is continued like any
other, and a longer iteration returns it with more words behind it. Only the
cap on solutions can keep such a chain out of the result.

Whether it does is a question about the words. Chains have an order, and the
search returns one solution for each end, at the first cover that has it. So no
solution has words to spare exactly if every cover that has comes behind
`MAX_SOLUTIONS` different ends. If no cover of fewer than `MAX_SEARCH_SIZE`
words can be continued, there is no such cover to begin with.
-/
import LetterBoxed.ChainOrder
import LetterBoxed.Pipeline

set_option autoImplicit false

open Paths

namespace LetterBoxed

/-- Fewer words of the chain, from its front, already use all letters. -/
def Box.Padded (box : Box) (chain : List (List UInt8)) : Prop :=
  ∃ covering, covering <+: chain ∧ covering ≠ chain ∧ box.CoveredBy covering

/-- No solution that can be read off the result is padded. -/
def Box.Unpadded (box : Box) (sols : List solution_t) : Prop :=
  ∀ sol ∈ sols, ∀ chain, sol.Reads chain → ¬box.Padded chain

/-- Some cover of fewer than `maxSize` words can be continued. -/
def Box.Continues (box : Box) (words : List (List UInt8)) (maxSize : Nat) : Prop :=
  ∃ chain, box.IsCover words chain ∧ chain.length < maxSize ∧
    ∃ w ∈ words, Linked (chain ++ [w])

/-- Before every padded cover of at most `maxSize` words there are covers of
`cap` different ends. -/
def Box.CapFirst (box : Box) (words : List (List UInt8)) (maxSize cap : Nat) : Prop :=
  ∀ chain, box.IsCover words chain → chain.length ≤ maxSize → box.Padded chain →
    (cap : ℕ∞) ≤ (box.ends_before words (box.chain_order words chain)).encard

variable {box : Box} {bw : BoxWords box} {nodes : nodes_t} {cfg : Settings}
  {sols : List solution_t}

/-! ## Padded chains -/

/-- A chain is padded if the words before its last one cover. -/
theorem Box.padded_concat {front : List (List UInt8)} {w : List UInt8} :
    box.Padded (front ++ [w]) ↔ box.CoveredBy front := by
  constructor
  · rintro ⟨covering, hprefix, hne, hcovered⟩
    have hfront := (List.prefix_concat_iff.mp hprefix).resolve_left hne
    intro c hc
    obtain ⟨v, hv, hcv⟩ := hcovered c hc
    exact ⟨v, hfront.subset hv, hcv⟩
  · intro hcovered
    exact ⟨front, List.prefix_append front [w], by simp, hcovered⟩

/-- Then the state before the last edge of its path covers. -/
theorem ReadOff.padded_iff (hbuilt : Built box bw.words bw.hashes bw.words.length nodes)
    {s : search_node} {es : List word_edge} {e : word_edge} {chain : List (List UInt8)}
    (h : ReadOff bw nodes (s, es ++ [e]) chain) :
    box.Padded chain ↔ Covers ((chain_search nodes).leads_to (s, es)) := by
  obtain ⟨front, w, rfl, hfront, _⟩ := h.exists_last
  rw [Box.padded_concat, hfront.covers_iff hbuilt]

/-- A padded cover continues one that is shorter. -/
theorem Box.Padded.continues {words chain : List (List UInt8)} {maxSize : Nat}
    (hpadded : box.Padded chain) (hcover : box.IsCover words chain)
    (hle : chain.length ≤ maxSize) : box.Continues words maxSize := by
  obtain ⟨front, w, rfl⟩ := chain.eq_nil_or_concat'.resolve_left
    (List.ne_nil_of_length_pos hcover.length_pos)
  have hcovered := Box.padded_concat.mp hpadded
  refine ⟨front, ⟨fun v hv => ?_, ?_, hcovered⟩, ?_, w, ?_, hcover.linked⟩
  · exact hcover.mem v (List.mem_append_left _ hv)
  · exact hcover.linked.prefix (List.prefix_append front [w])
  · rw [List.length_append, List.length_singleton] at hle
    omega
  · exact hcover.mem w (List.mem_append_right _ List.mem_cons_self)

/-- Without a cover that continues, nothing has to come first. -/
theorem Box.capFirst_of_not_continues {words : List (List UInt8)} {maxSize cap : Nat}
    (hnone : ¬box.Continues words maxSize) : box.CapFirst words maxSize cap :=
  fun _ hcover hle hpadded => absurd (hpadded.continues hcover hle) hnone

/-! ## When no solution is padded -/

/-- The readings of a solution are those of its path. -/
theorem Traced.reads_iff {t : search_node × List word_edge} {sol : solution_t} {n : Nat}
    (h : Traced bw.words (raw_path t) sol)
    (hmem : t ∈ (chain_search nodes).breadth_first start_nodes n) (chain : List (List UInt8)) :
    sol.Reads chain ↔ ReadOff bw nodes t chain := by
  obtain ⟨k, _, u, hu, e, he, rfl, _⟩ := mem_breadth_first.mp hmem
  have hentry := (isEntry_of_mem_round u hu).extended (mem_extend.mpr ⟨e, he, rfl⟩)
  rw [h.reads]
  exact ⟨fun hspells => ⟨hentry.start, hentry.path, hspells⟩, fun hread => hread.spells⟩

/-- **No entry of the list is padded** exactly if the cap comes first. -/
theorem unpadded_iff (hbuilt : Built box bw.words bw.hashes bw.words.length nodes)
    (htraced : List.Forall₂ (Traced bw.words) (breadth_first cfg nodes) sols) :
    box.Unpadded sols ↔ box.CapFirst bw.words cfg.MAX_SEARCH_SIZE cfg.MAX_SOLUTIONS := by
  unfold breadth_first at htraced
  rw [← List.map_take] at htraced
  constructor
  · intro hunpadded chain hcover hle hpadded
    by_contra hroom
    rw [not_le] at hroom
    -- the first cover with this end is listed, and there is room for it
    obtain ⟨s, es, e, hread⟩ := exists_readOff hbuilt hcover
    obtain ⟨t, hmem, hstate, hplace⟩ := hread.exists_listed hbuilt hcover hle
    have hfew := (Set.encard_le_encard (box.ends_before_mono bw.words hplace)).trans_lt hroom
    have htake := (mem_take_iff_ends_before hbuilt hmem cfg.MAX_SOLUTIONS).mpr hfew
    obtain ⟨sol, hsol, htrace⟩ := exists_right_of_forall₂ htraced (List.mem_map_of_mem htake)
    obtain ⟨reading, hreads⟩ := exists_reads htrace.ne_nil
    -- its reading is padded as well
    have hread' := (htrace.reads_iff hmem reading).mp hreads
    apply hunpadded sol hsol reading hreads
    rw [hread'.padded_iff hbuilt, hstate]
    exact (hread.padded_iff hbuilt).mp hpadded
  · intro hfirst sol hsol chain hreads hpadded
    obtain ⟨q, hq, htrace⟩ := exists_left_of_forall₂ htraced hsol
    obtain ⟨t, ht, rfl⟩ := List.mem_map.mp hq
    have hmem := List.mem_of_mem_take ht
    have hread := (htrace.reads_iff hmem chain).mp hreads
    obtain ⟨chain', hread', hcover, hle, hplace⟩ := exists_reading hbuilt hmem
    have hpadded' : box.Padded chain' := by
      obtain ⟨_, _, u, _, e, _, rfl, _⟩ := mem_breadth_first.mp hmem
      rw [hread'.padded_iff hbuilt]
      exact (hread.padded_iff hbuilt).mp hpadded
    -- an entry with so many before it would be cut off
    have hbehind := hfirst chain' hcover hle hpadded'
    rw [hplace] at hbehind
    have hfew := (mem_take_iff_ends_before hbuilt hmem cfg.MAX_SOLUTIONS).mp ht
    exact absurd hfew (not_lt.mpr hbehind)

theorem exists_unpadded_iff (cfg : Settings) (hmin : cfg.STATE_CACHE_MIN_DEPTH ≤ 2)
    {compressionIndex : compression_index_t} (hindex : IndexOf box compressionIndex)
    (bw : BoxWords box) :
    ∃ sols, solve cfg compressionIndex bw.words bw.hashes = some (.ok sols) ∧
      (box.Unpadded sols ↔ box.CapFirst bw.words cfg.MAX_SEARCH_SIZE cfg.MAX_SOLUTIONS) := by
  obtain ⟨nodes, hbuild, hbuilt⟩ := build_graph_built hindex bw.buildable
  obtain ⟨sols, _, htraced, hsolve⟩ := solve_traces cfg hmin hbuild hbuilt
  exact ⟨sols, hsolve, unpadded_iff hbuilt htraced⟩

/-- **When no solution carries words after a cover.** Exactly if every padded
cover of at most `MAX_SEARCH_SIZE` words has covers of `MAX_SOLUTIONS` different
ends before it. There is no padded cover at all if no cover of fewer words can
be continued. -/
theorem unpadded_iff_cap_first (box : Box) (bw : BoxWords box) (cfg : Settings)
    (hmin : cfg.STATE_CACHE_MIN_DEPTH ≤ 2) :
    ∃ compressionIndex sols, gen_compression_index box.characters = .ok compressionIndex ∧
      solve cfg compressionIndex bw.words bw.hashes = some (.ok sols) ∧
      (box.Unpadded sols ↔ ∀ chain, box.IsCover bw.words chain →
        chain.length ≤ cfg.MAX_SEARCH_SIZE → box.Padded chain →
        (cfg.MAX_SOLUTIONS : ℕ∞) ≤
          (box.ends_before bw.words (box.chain_order bw.words chain)).encard) ∧
      (¬box.Continues bw.words cfg.MAX_SEARCH_SIZE → box.Unpadded sols) := by
  obtain ⟨compressionIndex, hindexed, hindex⟩ := gen_compression_index_box box
  obtain ⟨sols, hsolve, hiff⟩ := exists_unpadded_iff cfg hmin hindex bw
  exact ⟨compressionIndex, sols, hindexed, hsolve, hiff,
    fun hnone => hiff.mpr (Box.capFirst_of_not_continues hnone)⟩

/-- The words `adbecf`, `fgjhkila` and `adbe` over the first box. -/
def loop_words : BoxWords first_box where
  words := [[97, 100, 98, 101, 99, 102], [102, 103, 106, 104, 107, 105, 108, 97],
    [97, 100, 98, 101]]
  ne_nil := by decide
  letters := by decide +kernel

/-- With the settings of the repository. The first two words cover, and any of
the other two goes on behind them. -/
theorem unpadded_iff_cap_first_loop_words : settings.STATE_CACHE_MIN_DEPTH ≤ 2 ∧
    ∃ compressionIndex sols, gen_compression_index first_box.characters = .ok compressionIndex ∧
      solve settings compressionIndex loop_words.words loop_words.hashes = some (.ok sols) ∧
      (first_box.Unpadded sols ↔ ∀ chain, first_box.IsCover loop_words.words chain →
        chain.length ≤ settings.MAX_SEARCH_SIZE → first_box.Padded chain →
        (settings.MAX_SOLUTIONS : ℕ∞) ≤ (first_box.ends_before loop_words.words
          (first_box.chain_order loop_words.words chain)).encard) ∧
      (¬first_box.Continues loop_words.words settings.MAX_SEARCH_SIZE →
        first_box.Unpadded sols) :=
  ⟨by decide, unpadded_iff_cap_first first_box loop_words settings (by decide)⟩

/-- A legal word that covers the first box and begins where it ends. -/
def covering_loop : List UInt8 := [97, 100, 98, 101, 99, 102, 103, 106, 104, 107, 105, 108, 97]

/-- Before the word twice there is only the word alone. -/
theorem ends_before_loop (box : Box) (w : List UInt8) :
    box.ends_before [w] (box.chain_order [w] [w, w]) ⊆ {chain_end [w]} := by
  rintro _ ⟨chain, ⟨hcover, hlt⟩, rfl⟩
  have hsize : chain.length ≤ 2 := Prod.Lex.monotone_fst _ _ hlt.le
  have hwords : chain = List.replicate chain.length w :=
    List.eq_replicate_of_mem fun v hv => List.mem_singleton.mp (hcover.mem v hv)
  have hpos := hcover.length_pos
  obtain hone | htwo : chain.length = 1 ∨ chain.length = 2 := by omega
  · rw [hone] at hwords
    rw [hwords]
    rfl
  · rw [htwo] at hwords
    rw [hwords] at hlt
    exact absurd hlt (lt_irrefl _)

/-- With one word that covers the box alone, a solution has that word and more
words behind it. -/
theorem covering_loop_padded :
    ∃ data sols, Yields .scalar settings (fun _ => 0#32) first_box covering_loop data sols ∧
      data.words = [covering_loop] ∧ first_box.CoveredBy [covering_loop] ∧
      ∃ sol ∈ sols, ∃ chain, sol.Reads chain ∧ first_box.Padded chain := by
  have hcsv : LowerCsv covering_loop := by decide +kernel
  have hone : first_box.OneLetterInside covering_loop := by decide +kernel
  have hcovered : first_box.CoveredBy [covering_loop] := by decide +kernel
  have hkept : (fields covering_loop).filter first_box.Keeps = [covering_loop] := by
    decide +kernel
  have hbox : (first_box.kept_words covering_loop hone).words = [covering_loop] := hkept
  obtain ⟨_, data, hindex, hwords, hyields⟩ :=
    exists_stages .scalar settings (fun _ => 0#32) hcsv hone
  obtain ⟨sols, hsolve, hiff⟩ := exists_unpadded_iff settings (by decide) hindex
    (first_box.kept_words covering_loop hone)
  refine ⟨data, sols, hyields sols hsolve, hwords.trans hbox, hcovered, ?_⟩
  -- the word twice is padded, and only the word alone comes before it
  have hroom : ¬first_box.CapFirst (first_box.kept_words covering_loop hone).words
      settings.MAX_SEARCH_SIZE settings.MAX_SOLUTIONS := by
    rw [hbox]
    intro hfirst
    have htwice : first_box.IsCover [covering_loop] [covering_loop, covering_loop] :=
      ⟨by simp, by decide +kernel, by decide +kernel⟩
    have hpadded : first_box.Padded [covering_loop, covering_loop] :=
      ⟨[covering_loop], ⟨[covering_loop], rfl⟩, by simp, hcovered⟩
    have hbehind := hfirst _ htwice (by decide) hpadded
    have hfew := Set.encard_le_encard (ends_before_loop first_box covering_loop)
    rw [Set.encard_singleton] at hfew
    exact absurd (hbehind.trans hfew) (by decide)
  have hpadded := mt hiff.mp hroom
  unfold Box.Unpadded at hpadded
  push Not at hpadded
  exact hpadded

end LetterBoxed
