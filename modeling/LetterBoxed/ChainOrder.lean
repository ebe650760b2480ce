/-
Chains in the order in which the search meets their ends.

Chains are ordered by length, then by the place of their first letter in the
box, then word by word by their places in the list. Two chains have the same end
if their last words are one edge behind one state. Then the search returns one
path for both, and it returns it at the first chain of this end.

So how many solutions come before another one is a question about the words: as
many as there are ends of chains before it.
-/
import LetterBoxed.Lib.PathOrder
import LetterBoxed.SearchOrder

set_option autoImplicit false

open Paths

namespace LetterBoxed

/-- What the search keeps apart: the letters before the last word, and that
word's letters, its first and its last one. -/
structure ChainEnd where
  used : Finset UInt8
  letters : Finset UInt8
  front : Option UInt8
  back : Option UInt8
  deriving DecidableEq

/-- The end of a chain. -/
def chain_end (chain : List (List UInt8)) : ChainEnd where
  used := chain.dropLast.flatten.toFinset
  letters := (chain.getLastD []).toFinset
  front := (chain.getLastD []).head?
  back := (chain.getLastD []).getLast?

/-- Where a chain comes: by its length, its first letter and its words. -/
def Box.chain_order (box : Box) (words chain : List (List UInt8)) : ℕ ×ₗ List ℕ :=
  toLex (chain.length,
    box.characters.idxOf (chain.flatten.headD 0) :: chain.map fun w => words.idxOf w)

/-- The ends of the covers that come before `place`. -/
def Box.ends_before (box : Box) (words : List (List UInt8)) (place : ℕ ×ₗ List ℕ) :
    Set ChainEnd :=
  chain_end '' {chain | box.IsCover words chain ∧ box.chain_order words chain < place}

theorem Box.ends_before_mono (box : Box) (words : List (List UInt8)) {place place' : ℕ ×ₗ List ℕ}
    (h : place ≤ place') : box.ends_before words place ⊆ box.ends_before words place' :=
  Set.image_mono fun _ hchain => ⟨hchain.1, hchain.2.trans_le h⟩

theorem chain_end_concat (front : List (List UInt8)) (w : List UInt8) :
    chain_end (front ++ [w]) =
      ⟨front.flatten.toFinset, w.toFinset, w.head?, w.getLast?⟩ := by
  simp [chain_end]

example : chain_end [[97, 100], [100, 98, 100]] =
    ⟨{97, 100}, {98, 100}, some 100, some 100⟩ := by decide +kernel

variable {box : Box} {bw : BoxWords box} {nodes : nodes_t}

/-! ## The places of edges -/

/-- The place of an edge: that of its first word. -/
def edge_place (e : word_edge) : ℕ := e.wordVariantIdxs.headD 0

/-- Where a path of edges comes. -/
def edge_order : search_node × List word_edge → ℕ ×ₗ List ℕ :=
  path_order (fun s => s.1.val) edge_place

section Edges

variable (hbuilt : Built box bw.words bw.hashes bw.words.length nodes)
include hbuilt

/-- **The edges of a node are listed by their places.** -/
theorem Built.listed_by_place :
    (chain_search nodes).Sorted start_nodes (fun s => s.1.val) edge_place := by
  refine ⟨?_, fun s => ?_⟩
  · unfold start_nodes
    rw [List.pairwise_map]
    exact List.pairwise_lt_finRange BOX_CHARS
  · have hordered := (hbuilt.grouping s.1).ordered
    rw [List.pairwise_map] at hordered
    apply hordered.imp_of_mem
    intro e e' he he' hlt
    obtain ⟨i, is, hi⟩ := List.exists_cons_of_ne_nil (hbuilt.variants_ne_nil he)
    obtain ⟨j, js, hj⟩ := List.exists_cons_of_ne_nil (hbuilt.variants_ne_nil he')
    unfold edge_place
    rw [hi, hj]
    exact hlt i (by rw [word_edge.group, hi]; rfl) j (by rw [word_edge.group, hj]; rfl)

variable {s : Fin BOX_CHARS} {e : word_edge} {w : List UInt8}

/-- The words of an edge come no earlier than its place. -/
theorem Built.edge_place_le (he : e ∈ outgoing nodes s) (hw : Spells bw.words e w) :
    edge_place e ≤ bw.words.idxOf w := by
  obtain ⟨hmem, hhash, hfront, hback⟩ := hbuilt.spells he hw
  have hlt := List.idxOf_lt_length_of_mem hmem
  have hword : bw.words[bw.words.idxOf w]? = some w := by
    rw [List.getElem?_eq_getElem hlt, List.getElem_idxOf]
  have hword_hash : bw.hashes[bw.words.idxOf w]? = some (box.letter_mask w) := by
    rw [BoxWords.hashes, List.getElem?_map, hword, Option.map_some]
  -- its first place in the list is on the same edge
  obtain ⟨e', he', hhash', hdest', hidx⟩ := hbuilt.exists_edge hlt hword hword_hash hfront hback
  have heq : e' = e := hbuilt.edge_eq he' he (hhash'.trans hhash.symm) hdest'
  subst heq
  have hsorted : e'.wordVariantIdxs.Pairwise (· < ·) :=
    (hbuilt.grouping s).sorted e'.group (List.mem_map_of_mem he)
  obtain ⟨i, is, hi⟩ := List.exists_cons_of_ne_nil (hbuilt.variants_ne_nil he)
  unfold edge_place
  rw [hi] at hsorted hidx ⊢
  rcases List.mem_cons.mp hidx with heq | hidx
  · exact le_of_eq heq.symm
  · exact le_of_lt ((List.pairwise_cons.mp hsorted).1 _ hidx)

/-- One of them is there. -/
theorem Built.exists_word_at_place (he : e ∈ outgoing nodes s) :
    ∃ w, Spells bw.words e w ∧ bw.words.idxOf w = edge_place e := by
  obtain ⟨i, is, hi⟩ := List.exists_cons_of_ne_nil (hbuilt.variants_ne_nil he)
  have hmem : i ∈ e.wordVariantIdxs := hi ▸ List.mem_cons_self
  obtain ⟨_, w, hword, _⟩ := hbuilt.variant he hmem
  have hspells : Spells bw.words e w := ⟨i, hmem, hword⟩
  have hplace : edge_place e = i := by rw [edge_place, hi, List.headD_cons]
  refine ⟨w, hspells, le_antisymm ?_ (hbuilt.edge_place_le he hspells)⟩
  have htake : w ∈ bw.words.take (i + 1) := by
    rw [List.mem_iff_getElem?]
    exact ⟨i, by rw [List.getElem?_take_of_lt (Nat.lt_succ_self i), hword]⟩
  rw [hplace]
  exact Nat.lt_succ_iff.mp
    ((List.mem_take_iff_idxOf_lt (List.mem_of_getElem? hword)).mp htake)

end Edges

/-! ## Chains read off paths -/

/-- `chain` is read off the path `t` from a start. -/
structure ReadOff (bw : BoxWords box) (nodes : nodes_t) (t : search_node × List word_edge)
    (chain : List (List UInt8)) : Prop where
  start : t.1 ∈ start_nodes
  path : (chains nodes).IsPath t.1 t.2
  spells : List.Forall₂ (Spells bw.words) t.2 chain

section Chains

variable {s s' : search_node} {es es' : List word_edge} {e e' : word_edge}
  {chain chain' : List (List UInt8)} {t : search_node × List word_edge} {n : Nat}

/-- What is read off the edges before the last one, and the last word. -/
theorem ReadOff.exists_last (h : ReadOff bw nodes (s, es ++ [e]) chain) :
    ∃ front w, chain = front ++ [w] ∧ ReadOff bw nodes (s, es) front ∧
      e ∈ outgoing nodes ((chain_search nodes).leads_to (s, es)).1 ∧ Spells bw.words e w := by
  have hpath : (chains nodes).IsPath s (es ++ [e]) := h.path
  rw [isPath_append] at hpath
  have hfront := List.forall₂_take es.length h.spells
  have hlast := List.forall₂_drop es.length h.spells
  rw [List.take_left] at hfront
  rw [List.drop_left, List.forall₂_cons_left_iff] at hlast
  obtain ⟨w, rest, hw, hrest, hdrop⟩ := hlast
  rw [List.forall₂_nil_left_iff.mp hrest] at hdrop
  refine ⟨chain.take es.length, w, ?_, ⟨h.start, hpath.1, hfront⟩, hpath.2.1, hw⟩
  rw [← hdrop, List.take_append_drop]

variable (hbuilt : Built box bw.words bw.hashes bw.words.length nodes)
include hbuilt

theorem exists_readOff (hcover : box.IsCover bw.words chain) :
    ∃ s es e, ReadOff bw nodes (s, es ++ [e]) chain := by
  obtain ⟨i, es, hpath, hspells⟩ := exists_path_of_cover hbuilt hcover
  have hne : es ≠ [] := by
    apply List.ne_nil_of_length_pos
    rw [hspells.length_eq]
    exact hcover.length_pos
  obtain ⟨es, e, rfl⟩ := es.eq_nil_or_concat'.resolve_left hne
  exact ⟨(i, 0#32), es, e, ⟨mem_start_nodes.mpr rfl, hpath, hspells⟩⟩

/-- What is read off a path covers where the path does. -/
theorem ReadOff.covers_iff (h : ReadOff bw nodes t chain) :
    Covers ((chain_search nodes).leads_to t) ↔ box.CoveredBy chain := by
  obtain ⟨⟨i, mask⟩, es⟩ := t
  have hmask : mask = 0#32 := mem_start_nodes.mp h.start
  subst hmask
  exact covers_of_path hbuilt h.path h.spells

theorem ReadOff.isCover_iff (h : ReadOff bw nodes t chain) :
    box.IsCover bw.words chain ↔ Covers ((chain_search nodes).leads_to t) := by
  rw [h.covers_iff hbuilt]
  obtain ⟨hmem, hlinked, _⟩ := words_of_path hbuilt h.path h.spells
  exact ⟨fun hcover => hcover.covered, fun hcovered => ⟨hmem, hlinked, hcovered⟩⟩

/-- The letters that a path has used are those of what is read off it. -/
theorem ReadOff.mask_eq (h : ReadOff bw nodes t chain) :
    ((chain_search nodes).leads_to t).2 = box.letter_mask chain.flatten := by
  obtain ⟨⟨i, mask⟩, es⟩ := t
  have hmask : mask = 0#32 := mem_start_nodes.mp h.start
  subst hmask
  obtain ⟨_, _, hbits⟩ := words_of_path hbuilt h.path h.spells
  apply mask_ext (run_mask_lt hbuilt.wellHashed es (i, 0#32) zero_mask_lt h.path)
    (Box.letter_mask_lt _)
  intro j
  rw [Box.getLsbD_letter_mask, List.mem_flatten]
  exact (hbits j).trans (by simp)

/-- The letters are those of the box. -/
theorem ReadOff.letters (h : ReadOff bw nodes t chain) :
    ∀ c ∈ chain.flatten, c ∈ box.characters := by
  intro c hc
  obtain ⟨w, hw, hcw⟩ := List.mem_flatten.mp hc
  obtain ⟨hmem, _⟩ := words_of_path hbuilt h.path h.spells
  exact bw.letters w (hmem w hw) c hcw

/-- The first letter is that of the start. -/
theorem ReadOff.first_letter (h : ReadOff bw nodes t chain) (hne : t.2 ≠ []) :
    chain.flatten.headD 0 = box.letter t.1.1 := by
  have hlen := h.spells.length_eq
  obtain ⟨w, rest, rfl⟩ := List.exists_cons_of_ne_nil (l := chain) (by
    apply List.ne_nil_of_length_pos
    exact hlen ▸ List.length_pos_of_ne_nil hne)
  have hfront := head_of_path hbuilt h.path h.spells w rfl
  obtain ⟨w', rfl⟩ := List.head?_eq_some_iff.mp hfront
  rfl

/-! ## The places of chains -/

/-- **A chain comes no earlier than the path** it is read off. -/
theorem ReadOff.order_le (h : ReadOff bw nodes t chain) (hne : t.2 ≠ []) :
    edge_order t ≤ box.chain_order bw.words chain := by
  have hplaces : List.Forall₂ (· ≤ ·) (t.1.1.val :: t.2.map edge_place)
      (box.characters.idxOf (chain.flatten.headD 0) :: chain.map fun w => bw.words.idxOf w) := by
    rw [h.first_letter hbuilt hne, Box.idxOf_letter, List.forall₂_cons, List.forall₂_map_left_iff,
      List.forall₂_map_right_iff, List.forall₂_iff_zip]
    refine ⟨le_refl _, h.spells.length_eq, fun {e w} hzip => ?_⟩
    obtain ⟨i, he⟩ := exists_outgoing t.2 t.1 h.path e (List.of_mem_zip hzip).1
    exact hbuilt.edge_place_le he ((List.forall₂_iff_zip.mp h.spells).2 hzip)
  unfold edge_order path_order Box.chain_order
  rw [h.spells.length_eq, Prod.Lex.toLex_le_toLex]
  exact .inr ⟨rfl, le_of_forall₂ hplaces⟩

/-- One that is read off it comes where the path does. -/
theorem exists_readOff_at_place (hstart : t.1 ∈ start_nodes) (hpath : (chains nodes).IsPath t.1 t.2)
    (hne : t.2 ≠ []) :
    ∃ chain, ReadOff bw nodes t chain ∧ box.chain_order bw.words chain = edge_order t := by
  have hwords : ∀ e ∈ t.2, ∃ w, Spells bw.words e w ∧ bw.words.idxOf w = edge_place e := by
    intro e he
    obtain ⟨i, he⟩ := exists_outgoing t.2 t.1 hpath e he
    exact hbuilt.exists_word_at_place he
  choose! word hword using hwords
  have hread : ReadOff bw nodes t (t.2.map word) := by
    refine ⟨hstart, hpath, ?_⟩
    rw [List.forall₂_map_right_iff, List.forall₂_same]
    exact fun e he => (hword e he).1
  have hplaces : (t.2.map word).map (fun w => bw.words.idxOf w) = t.2.map edge_place := by
    rw [List.map_map]
    exact List.map_congr_left fun e he => (hword e he).2
  refine ⟨t.2.map word, hread, ?_⟩
  unfold edge_order path_order Box.chain_order
  rw [hread.first_letter hbuilt hne, Box.idxOf_letter, List.length_map, hplaces]

/-- **Chains have the same end** where their last words are one edge behind one
state. -/
theorem ReadOff.end_eq_iff (h : ReadOff bw nodes (s, es ++ [e]) chain)
    (h' : ReadOff bw nodes (s', es' ++ [e']) chain') :
    chain_end chain = chain_end chain' ↔
      (chain_search nodes).leads_to (s, es) = (chain_search nodes).leads_to (s', es') ∧
        e = e' := by
  obtain ⟨front, w, rfl, hfront, he, hw⟩ := h.exists_last
  obtain ⟨front', w', rfl, hfront', he', hw'⟩ := h'.exists_last
  obtain ⟨hmem, hhash, hhead, hlast⟩ := hbuilt.spells he hw
  obtain ⟨hmem', hhash', hhead', hlast'⟩ := hbuilt.spells he' hw'
  rw [chain_end_concat, chain_end_concat, ChainEnd.mk.injEq,
    ← Box.letter_mask_eq_iff_toFinset (hfront.letters hbuilt) (hfront'.letters hbuilt),
    ← Box.letter_mask_eq_iff_toFinset (bw.letters w hmem) (bw.letters w' hmem'),
    ← hfront.mask_eq hbuilt, ← hfront'.mask_eq hbuilt, ← hhash, ← hhash', hhead, hhead', hlast,
    hlast', Option.some.injEq, Option.some.injEq, Box.letter_inj, Box.letter_inj]
  constructor
  · rintro ⟨hmask, hhash_eq, hnode, hdest⟩
    refine ⟨Prod.ext hnode hmask, ?_⟩
    rw [← hnode] at he'
    exact hbuilt.edge_eq he he' hhash_eq hdest
  · rintro ⟨hstate, rfl⟩
    rw [hstate]
    exact ⟨rfl, rfl, rfl, rfl⟩

/-! ## The list -/

/-- Every cover has an entry with its end, and that comes no later. -/
theorem ReadOff.exists_listed (h : ReadOff bw nodes (s, es ++ [e]) chain)
    (hcover : box.IsCover bw.words chain) (hlen : chain.length ≤ n) :
    ∃ t, (t.1, t.2 ++ [e]) ∈ (chain_search nodes).breadth_first start_nodes n ∧
      (chain_search nodes).leads_to t = (chain_search nodes).leads_to (s, es) ∧
      edge_order (t.1, t.2 ++ [e]) ≤ box.chain_order bw.words chain := by
  have hpath : (chains nodes).IsPath s (es ++ [e]) := h.path
  rw [isPath_append] at hpath
  have hentry : (chain_search nodes).IsEntry start_nodes es.length (s, es) :=
    ⟨h.start, rfl, hpath.1⟩
  have hcovers := (h.isCover_iff hbuilt).mp hcover
  rw [leads_to_extended] at hcovers
  have hsize := h.spells.length_eq
  rw [List.length_append, List.length_singleton] at hsize
  obtain ⟨t, hmem, hstate, hle⟩ := breadth_first_first hbuilt.listed_by_place hentry
    (show es.length < n by omega) hpath.2.1 (decide_eq_true hcovers)
  exact ⟨t, hmem, hstate, hle.trans (h.order_le hbuilt (by simp))⟩

/-- An entry is read as a cover at its own place. -/
theorem exists_reading (hmem : t ∈ (chain_search nodes).breadth_first start_nodes n) :
    ∃ chain, ReadOff bw nodes t chain ∧ box.IsCover bw.words chain ∧ chain.length ≤ n ∧
      box.chain_order bw.words chain = edge_order t := by
  obtain ⟨k, hk, u, hu, e, he, rfl, hgoal⟩ := mem_breadth_first.mp hmem
  have hentry := (isEntry_of_mem_round u hu).extended (mem_extend.mpr ⟨e, he, rfl⟩)
  obtain ⟨chain, hread, hplace⟩ :=
    exists_readOff_at_place hbuilt hentry.start hentry.path (by simp)
  refine ⟨chain, hread, (hread.isCover_iff hbuilt).mpr ?_, ?_, hplace⟩
  · rw [leads_to_extended]
    exact of_decide_eq_true hgoal
  · rw [← hread.spells.length_eq, hentry.length_eq]
    exact hk

/-- Entries with one end are the same. -/
theorem listed_unique (hmem : t ∈ (chain_search nodes).breadth_first start_nodes n)
    {u : search_node × List word_edge}
    (hmem' : u ∈ (chain_search nodes).breadth_first start_nodes n) (h : ReadOff bw nodes t chain)
    (h' : ReadOff bw nodes u chain') (hend : chain_end chain = chain_end chain') : t = u := by
  obtain ⟨_, _, t, _, e, _, rfl, _⟩ := mem_breadth_first.mp hmem
  obtain ⟨_, _, u, _, e', _, rfl, _⟩ := mem_breadth_first.mp hmem'
  obtain ⟨hstate, rfl⟩ := (h.end_eq_iff hbuilt h').mp hend
  have hlevels : ∀ {s j k}, s ∈ (chain_search nodes).space.Level {s | s ∈ start_nodes} j →
      s ∈ (chain_search nodes).space.Level {s | s ∈ start_nodes} k → j = k := by
    rw [set_start_nodes]
    exact level_unique hbuilt.wellHashed
  have heq := breadth_first_unique start_nodes_nodup hlevels hmem hmem' hstate
  rw [Prod.mk.injEq] at heq
  rw [heq.1, heq.2]

/-- **An entry is among the first `cap`** if fewer ends of covers come before
it. -/
theorem mem_take_iff_ends_before (hmem : t ∈ (chain_search nodes).breadth_first start_nodes n)
    (cap : Nat) :
    t ∈ ((chain_search nodes).breadth_first start_nodes n).take cap ↔
      (box.ends_before bw.words (edge_order t)).encard < cap := by
  have hreadings : ∀ u ∈ (chain_search nodes).breadth_first start_nodes n,
      ∃ chain, ReadOff bw nodes u chain ∧ box.IsCover bw.words chain ∧ chain.length ≤ n ∧
        box.chain_order bw.words chain = edge_order u := fun u hu => exists_reading hbuilt hu
  choose! reading hreading using hreadings
  have hends : box.ends_before bw.words (edge_order t) = (fun u => chain_end (reading u)) ''
      {u | u ∈ (chain_search nodes).breadth_first start_nodes n ∧
        edge_order u < edge_order t} := by
    apply Set.Subset.antisymm
    · rintro _ ⟨chain, ⟨hcover, hlt⟩, rfl⟩
      have hsize : chain.length ≤ t.2.length := Prod.Lex.monotone_fst _ _ hlt.le
      obtain ⟨s, es, e, hread⟩ := exists_readOff hbuilt hcover
      obtain ⟨u, hu, hstate, hle⟩ :=
        hread.exists_listed hbuilt hcover (hsize.trans (length_le_of_mem_breadth_first hmem))
      refine ⟨_, ⟨hu, hle.trans_lt hlt⟩, ?_⟩
      exact ((hreading _ hu).1.end_eq_iff hbuilt hread).mpr ⟨hstate, rfl⟩
    · rintro _ ⟨u, ⟨hu, hlt⟩, rfl⟩
      obtain ⟨_, hcover, _, hplace⟩ := hreading u hu
      exact ⟨reading u, ⟨hcover, hplace ▸ hlt⟩, rfl⟩
  rw [hends]
  exact mem_take_iff_encard hmem (breadth_first_sorted hbuilt.listed_by_place n)
    (fun u hu u' hu' hend => listed_unique hbuilt hu hu' (hreading u hu).1 (hreading u' hu').1 hend)
    cap

end Chains

end LetterBoxed
