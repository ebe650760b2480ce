/-
`build_graph` groups the words by first letter, last letter and hash.

The edges of a node are groups of word indices: the key of a word is its hash
and the node of its last letter, and only the words that begin with the node's
letter have one there. `add_word` is the insertion of the grouping library, so
the loop of `build_graph` is one insertion after the other, and at its end the
edges of every node are the grouping of all words.

The second half of the results is about words with the hashes `filter_and_hash`
gives them, the sets of their letters. Their graph is what the search asks for.
-/
import LetterBoxed.Box
import LetterBoxed.Lib.Grouping

set_option autoImplicit false

open Grouping (IsGrouping)

namespace LetterBoxed

variable {box : Box}

/-! ## The compression index of a box -/

/-- The table entry of a letter: its place, or the invalid flag. -/
def Box.index_entry (box : Box) (c : UInt8) : char_mask_t :=
  (box.place c).elim INVALID_CHAR_FLAG fun i => BitVec.ofNat 32 i

/-- The table when the first `n` letters have been entered. -/
structure Indexed (box : Box) (n : Nat) (compressionIndex : compression_index_t) : Prop where
  length_eq : compressionIndex.length = CHARACTERS
  entry : ∀ c, IsLower c → compressionIndex[idx c]? = some
    ((box.place c).elim INVALID_CHAR_FLAG fun i =>
      if i.val < n then BitVec.ofNat 32 i else INVALID_CHAR_FLAG)

theorem indexed_zero (box : Box) :
    Indexed box 0 (List.replicate CHARACTERS INVALID_CHAR_FLAG) := by
  refine ⟨List.length_replicate, fun c hc => ?_⟩
  rw [List.getElem?_replicate_of_lt (idx_lt_iff.mpr hc)]
  cases box.place c <;> simp

theorem Indexed.enter {n : Nat} {compressionIndex : compression_index_t} {c : UInt8}
    (h : Indexed box n compressionIndex) (hc : box.characters[n]? = some c) :
    Indexed box (n + 1) (compressionIndex.set (idx c) (BitVec.ofNat 32 n)) := by
  obtain ⟨hn, hget⟩ := List.getElem?_eq_some_iff.mp hc
  rw [box.size_eq] at hn
  have hletter : box.letter ⟨n, hn⟩ = c := hget
  have hplace := Box.place_eq_some.mpr hletter
  have hlower : IsLower c := hletter ▸ Box.letter_lower _
  refine ⟨by rw [List.length_set, h.length_eq], fun d hd => ?_⟩
  by_cases heq : d = c
  · -- the entry that was written
    subst heq
    have hidx : idx d < compressionIndex.length := by
      rw [h.length_eq]
      exact idx_lt_iff.mpr hd
    rw [List.getElem?_set_self hidx, hplace, Option.elim_some, if_pos (Nat.lt_succ_self n)]
  · -- another letter has another entry, and another place
    have hidx : idx c ≠ idx d := fun h => heq (idx_injOn hd hlower h.symm)
    rw [List.getElem?_set_ne hidx, h.entry d hd]
    cases hd' : box.place d with
    | none => rfl
    | some i =>
        have hi : i.val ≠ n := by
          intro hi
          rw [← Box.place_eq_some.mp hd', ← hletter] at heq
          exact heq (congrArg box.letter (Fin.ext hi))
        simp only [Option.elim_some]
        congr 2
        rw [eq_iff_iff]
        omega

/-- The index of a box maps its letters to their places and every other letter
to the invalid flag. -/
structure IndexOf (box : Box) (compressionIndex : compression_index_t) : Prop where
  length_eq : compressionIndex.length = CHARACTERS
  entry : ∀ c, IsLower c → compressionIndex[idx c]? = some (box.index_entry c)

/-- **`gen_compression_index` builds the index of the box.** -/
theorem gen_compression_index_box (box : Box) :
    ∃ compressionIndex, gen_compression_index box.characters = .ok compressionIndex ∧
      IndexOf box compressionIndex := by
  have hloop : ∃ compressionIndex, gen_compression_index box.characters = .ok compressionIndex ∧
      Indexed box box.characters.zipIdx.length compressionIndex := by
    unfold gen_compression_index
    rw [if_neg (not_not.mpr box.size_eq)]
    apply foldlM_invariant (indexed_zero box)
    -- turn `j` enters the letter at place `j`
    rintro j compressionIndex ⟨c, i⟩ hx hindexed
    rw [List.getElem?_zipIdx, Option.map_eq_some_iff] at hx
    obtain ⟨c', hc', heq⟩ := hx
    obtain ⟨rfl, rfl⟩ := Prod.mk.inj heq
    have hlower : IsLower c' := box.lower c' (List.mem_of_getElem? hc')
    rw [Nat.zero_add]
    refine ⟨_, write_lt ?_ _, hindexed.enter hc'⟩
    rw [hindexed.length_eq]
    exact idx_lt_iff.mpr hlower
  obtain ⟨compressionIndex, hrun, hindexed⟩ := hloop
  refine ⟨compressionIndex, hrun, hindexed.length_eq, fun c hc => ?_⟩
  rw [hindexed.entry c hc, List.length_zipIdx, box.size_eq, Box.index_entry]
  cases box.place c with
  | none => rfl
  | some i => rw [Option.elim_some, Option.elim_some, if_pos i.isLt]

/-- The node of a letter of the box. -/
theorem node_at_letter {compressionIndex : compression_index_t}
    (hindex : IndexOf box compressionIndex) (i : Fin BOX_CHARS) :
    node_at compressionIndex (box.letter i) = .ok i := by
  have hi : i.val % 2 ^ 32 = i.val := Nat.mod_eq_of_lt (Nat.lt_trans i.isLt (by decide))
  have hread : read .compressionIndex compressionIndex (idx (box.letter i))
      = .ok (BitVec.ofNat 32 i) := by
    apply read_getElem
    rw [hindex.entry _ (Box.letter_lower i), Box.index_entry, Box.place_letter, Option.elim_some]
  unfold node_at
  rw [hread]
  simp only [bind, Except.bind, BitVec.toNat_ofNat, hi, i.isLt, dif_pos]
  rfl

/-- A letter outside the box has no node: its table entry is the invalid flag. -/
theorem node_at_foreign {compressionIndex : compression_index_t}
    (hindex : IndexOf box compressionIndex) {c : UInt8} (hc : IsLower c)
    (hforeign : c ∉ box.characters) :
    node_at compressionIndex c = .error (.outOfRange .nodes INVALID_CHAR_FLAG.toNat) := by
  have hread : read .compressionIndex compressionIndex (idx c) = .ok INVALID_CHAR_FLAG := by
    apply read_getElem
    rw [hindex.entry c hc, Box.index_entry, Box.place_eq_none.mpr hforeign, Option.elim_none]
  unfold node_at
  rw [hread]
  rfl

/-! ## The loop of `build_graph` -/

/-- What `build_graph` is called with: words that begin and end with letters of
the box, and as many hashes. -/
structure Buildable (box : Box) (words : List (List UInt8)) (word_hashes : List char_mask_t) :
    Prop where
  length_eq : word_hashes.length = words.length
  front : ∀ w ∈ words, ∃ s, w.head? = some (box.letter s)
  back : ∀ w ∈ words, ∃ d, w.getLast? = some (box.letter d)

/-- The key of word `i` at node `s`: its hash and where it leads, if it begins
with the letter of `s`. -/
def word_key (box : Box) (words : List (List UInt8)) (word_hashes : List char_mask_t)
    (s : Fin BOX_CHARS) (i : Nat) : Option (char_mask_t × Fin BOX_CHARS) := do
  let w ← words[i]?
  let hash ← word_hashes[i]?
  let start ← w.head? >>= box.place
  let dest ← w.getLast? >>= box.place
  if start = s then some (hash, dest) else none

/-- An edge as a group of word indices. -/
def word_edge.group (e : word_edge) : (char_mask_t × Fin BOX_CHARS) × List Nat :=
  ((e.wordHash, e.to), e.wordVariantIdxs)

/-- **`add_word` is insertion.** -/
theorem group_add_word (hash : char_mask_t) (dest : Fin BOX_CHARS) (i : Nat)
    (es : List word_edge) :
    (add_word hash dest i es).map word_edge.group =
      Grouping.insert (hash, dest) i (es.map word_edge.group) := by
  induction es with
  | nil => rfl
  | cons e es ih =>
      have hkey : (e.wordHash = hash ∧ e.to = dest) ↔ e.group.1 = (hash, dest) := by
        rw [word_edge.group, Prod.mk.injEq]
      unfold add_word
      rw [List.map_cons, Grouping.insert]
      by_cases hsame : e.wordHash = hash ∧ e.to = dest
      · rw [if_pos hsame, if_pos (hkey.mp hsame)]
        rfl
      · rw [if_neg hsame, if_neg (fun h => hsame (hkey.mpr h)), List.map_cons, ih]

/-- The graph when the first `n` words have been entered. -/
structure Built (box : Box) (words : List (List UInt8)) (word_hashes : List char_mask_t) (n : Nat)
    (nodes : nodes_t) : Prop where
  compressedIdx_eq : ∀ i : Fin BOX_CHARS, (nodes.get i).compressedIdx = i
  grouping : ∀ s, IsGrouping n (word_key box words word_hashes s)
    ((outgoing nodes s).map word_edge.group)

theorem built_zero (box : Box) (words : List (List UInt8)) (word_hashes : List char_mask_t) :
    Built box words word_hashes 0 init_nodes := by
  refine ⟨fun i => ?_, fun s => ?_⟩
  · simp [init_nodes]
  · have hnil : outgoing init_nodes s = [] := by simp [outgoing, init_nodes]
    rw [hnil]
    exact Grouping.isGrouping_nil _

/-- The graph after word `i` was entered at node `start`. -/
def entered (nodes : nodes_t) (start dest : Fin BOX_CHARS) (hash : char_mask_t) (i : Nat) :
    nodes_t :=
  nodes.set start.val
    { nodes.get start with outgoing := add_word hash dest i (outgoing nodes start) } start.isLt

section Entered

variable (nodes : nodes_t) (start dest : Fin BOX_CHARS) (hash : char_mask_t) (i : Nat)

theorem entered_compressedIdx (s : Fin BOX_CHARS) :
    ((entered nodes start dest hash i).get s).compressedIdx = (nodes.get s).compressedIdx := by
  unfold entered
  by_cases hs : start = s
  · subst hs
    rw [get_set_self]
  · rw [get_set_ne nodes hs]

theorem outgoing_entered (s : Fin BOX_CHARS) :
    outgoing (entered nodes start dest hash i) s =
      if start = s then add_word hash dest i (outgoing nodes s) else outgoing nodes s := by
  unfold entered
  by_cases hs : start = s
  · subst hs
    rw [if_pos rfl]
    exact congrArg node.outgoing (get_set_self nodes _)
  · rw [if_neg hs]
    exact congrArg node.outgoing (get_set_ne nodes hs _)

end Entered

section Build

variable {compressionIndex : compression_index_t} {words : List (List UInt8)}
  {word_hashes : List char_mask_t} {nodes : nodes_t}

/-- A word that begins and ends in the box is entered. -/
theorem insert_word_eq (hindex : IndexOf box compressionIndex) {n : Nat} {w : List UInt8}
    {start dest : Fin BOX_CHARS} {hash : char_mask_t} (nodes : nodes_t)
    (hfront : w.head? = some (box.letter start)) (hback : w.getLast? = some (box.letter dest))
    (hhash : word_hashes[n]? = some hash) :
    insert_word compressionIndex word_hashes nodes w n =
      .ok (entered nodes start dest hash n) := by
  have hpos : 0 < w.length := List.length_pos_of_mem (List.mem_of_mem_head? hfront)
  -- both ends are read in range, and each is a letter with a node
  have hread_back : read .word w (size_sub w.length 1) = .ok (box.letter dest) := by
    apply read_getElem
    rw [size_sub_le hpos, ← List.getLast?_eq_getElem?]
    exact hback
  have hread_front : read .word w 0 = .ok (box.letter start) := by
    apply read_getElem
    rw [← List.head?_eq_getElem?]
    exact hfront
  unfold insert_word
  rw [hread_back, read_getElem hhash, hread_front]
  simp only [bind, Except.bind, node_at_letter hindex]
  rfl

/-- The last letter is looked up first, so a word of one letter outside the
box is looked up in the nodes under the invalid flag. -/
theorem insert_word_foreign (hindex : IndexOf box compressionIndex) {c : UInt8} (hc : IsLower c)
    (hforeign : c ∉ box.characters) (nodes : nodes_t) (n : Nat) :
    insert_word compressionIndex word_hashes nodes [c] n =
      .error (.outOfRange .nodes INVALID_CHAR_FLAG.toNat) := by
  have hread : read .word [c] (size_sub [c].length 1) = .ok c := rfl
  unfold insert_word
  rw [hread]
  simp only [bind, Except.bind, node_at_foreign hindex hc hforeign]

/-- One turn of the loop of `build_graph`. -/
theorem Built.insert_word (hindex : IndexOf box compressionIndex)
    (hbuildable : Buildable box words word_hashes) {n : Nat} {w : List UInt8}
    (h : Built box words word_hashes n nodes) (hw : words[n]? = some w) :
    ∃ nodes', insert_word compressionIndex word_hashes nodes w n = .ok nodes' ∧
      Built box words word_hashes (n + 1) nodes' := by
  have hmem := List.mem_of_getElem? hw
  obtain ⟨start, hfront⟩ := hbuildable.front w hmem
  obtain ⟨dest, hback⟩ := hbuildable.back w hmem
  have hn : n < word_hashes.length := by
    rw [hbuildable.length_eq]
    exact (List.getElem?_eq_some_iff.mp hw).1
  have hhash := List.getElem?_eq_getElem hn
  -- the word has a key at the node of its first letter only
  have hkey : ∀ s, word_key box words word_hashes s n =
      if start = s then some (word_hashes[n], dest) else none := by
    intro s
    simp [word_key, hw, hhash, hfront, hback]
  refine ⟨_, insert_word_eq hindex nodes hfront hback hhash, fun i => ?_, fun s => ?_⟩
  · rw [entered_compressedIdx]
    exact h.compressedIdx_eq i
  · rw [outgoing_entered]
    by_cases hs : start = s
    · rw [if_pos hs, group_add_word]
      exact (h.grouping s).insert (by rw [hkey, if_pos hs])
    · rw [if_neg hs]
      exact (h.grouping s).skip (by rw [hkey, if_neg hs])

/-- **`build_graph` returns, and the edges of each node are the grouping of
all words.** -/
theorem build_graph_built (hindex : IndexOf box compressionIndex)
    (hbuildable : Buildable box words word_hashes) :
    ∃ nodes, build_graph compressionIndex words word_hashes init_nodes = .ok nodes ∧
      Built box words word_hashes words.length nodes := by
  have hloop : ∃ nodes, build_graph compressionIndex words word_hashes init_nodes = .ok nodes ∧
      Built box words word_hashes words.zipIdx.length nodes := by
    unfold build_graph
    apply foldlM_invariant (built_zero box words word_hashes)
    rintro j nodes ⟨w, i⟩ hx hbuilt
    rw [List.getElem?_zipIdx, Option.map_eq_some_iff] at hx
    obtain ⟨w', hw', heq⟩ := hx
    obtain ⟨rfl, rfl⟩ := Prod.mk.inj heq
    rw [Nat.zero_add]
    exact hbuilt.insert_word hindex hbuildable hw'
  rwa [List.length_zipIdx] at hloop

/-! ## Words and edges -/

theorem word_key_eq_some {s : Fin BOX_CHARS} {i : Nat} {hash : char_mask_t} {d : Fin BOX_CHARS} :
    word_key box words word_hashes s i = some (hash, d) ↔
      ∃ w, words[i]? = some w ∧ word_hashes[i]? = some hash ∧ w.head? = some (box.letter s) ∧
        w.getLast? = some (box.letter d) := by
  simp only [word_key, Option.bind_eq_bind, Option.bind_eq_some_iff, Box.place_eq_some]
  constructor
  · rintro ⟨w, hw, hash', hhash, start, ⟨_, hfront, rfl⟩, dest, ⟨_, hback, rfl⟩, hif⟩
    by_cases hs : start = s
    · rw [if_pos hs, Option.some.injEq, Prod.mk.injEq] at hif
      obtain ⟨rfl, rfl⟩ := hif
      subst hs
      exact ⟨w, hw, hhash, hfront, hback⟩
    · rw [if_neg hs] at hif
      cases hif
  · rintro ⟨w, hw, hhash, hfront, hback⟩
    exact ⟨w, hw, hash, hhash, s, ⟨_, hfront, rfl⟩, d, ⟨_, hback, rfl⟩, if_pos rfl⟩

variable {s : Fin BOX_CHARS} {e e' : word_edge} {n i : Nat}

/-- An edge stands for words with its hash that begin and end at its nodes. -/
theorem Built.variant (h : Built box words word_hashes n nodes) (he : e ∈ outgoing nodes s)
    (hi : i ∈ e.wordVariantIdxs) :
    i < n ∧ ∃ w, words[i]? = some w ∧ word_hashes[i]? = some e.wordHash ∧
      w.head? = some (box.letter s) ∧ w.getLast? = some (box.letter e.to) := by
  obtain ⟨hlt, hkey⟩ := (h.grouping s).sound e.group (List.mem_map_of_mem he) i hi
  exact ⟨hlt, word_key_eq_some.mp hkey⟩

/-- Every word entered is on an edge. -/
theorem Built.exists_edge (h : Built box words word_hashes n nodes) {w : List UInt8}
    {hash : char_mask_t} {d : Fin BOX_CHARS} (hi : i < n) (hw : words[i]? = some w)
    (hhash : word_hashes[i]? = some hash) (hfront : w.head? = some (box.letter s))
    (hback : w.getLast? = some (box.letter d)) :
    ∃ e ∈ outgoing nodes s, e.wordHash = hash ∧ e.to = d ∧ i ∈ e.wordVariantIdxs := by
  have hkey := word_key_eq_some.mpr ⟨w, hw, hhash, hfront, hback⟩
  obtain ⟨g, hg, hgkey, hmem⟩ := (h.grouping s).complete i hi _ hkey
  obtain ⟨e, he, rfl⟩ := List.mem_map.mp hg
  obtain ⟨hhash, hdest⟩ := Prod.mk.inj hgkey
  exact ⟨e, he, hhash, hdest, hmem⟩

theorem Built.variants_ne_nil (h : Built box words word_hashes n nodes)
    (he : e ∈ outgoing nodes s) : e.wordVariantIdxs ≠ [] :=
  (h.grouping s).nonempty e.group (List.mem_map_of_mem he)

/-- An edge is known by its hash and destination. -/
theorem Built.edge_eq (h : Built box words word_hashes n nodes) (he : e ∈ outgoing nodes s)
    (he' : e' ∈ outgoing nodes s) (hhash : e.wordHash = e'.wordHash) (hdest : e.to = e'.to) :
    e = e' := by
  obtain ⟨i, hi⟩ := List.exists_mem_of_ne_nil _ (h.variants_ne_nil he)
  have hdistinct := (h.grouping s).distinct
  rw [List.pairwise_map] at hdistinct
  have hsymm : Std.Symm fun e e' : word_edge => e.group.1 ≠ e'.group.1 := ⟨fun _ _ h => h.symm⟩
  by_contra hne
  apply hdistinct.forall he he' hne
  rw [word_edge.group, word_edge.group, hhash, hdest]

theorem Built.outgoing_nodup (h : Built box words word_hashes n nodes) :
    (outgoing nodes s).Nodup := by
  have hdistinct := (h.grouping s).distinct
  rw [List.pairwise_map] at hdistinct
  apply hdistinct.imp
  rintro e e' hne rfl
  exact hne rfl

/-- The word indices on the edges of node `s`. -/
def node_word_idxs (nodes : nodes_t) (s : Fin BOX_CHARS) : List Nat :=
  (outgoing nodes s).flatMap word_edge.wordVariantIdxs

theorem members_outgoing (nodes : nodes_t) (s : Fin BOX_CHARS) :
    Grouping.members ((outgoing nodes s).map word_edge.group) = node_word_idxs nodes s := by
  rw [Grouping.members, List.flatMap_map]
  rfl

/-- The indices at node `s` are those of the words that begin with its letter. -/
theorem Built.mem_node_word_idxs (h : Built box words word_hashes n nodes) :
    i ∈ node_word_idxs nodes s ↔ i < n ∧ ∃ key, word_key box words word_hashes s i = some key := by
  rw [← members_outgoing]
  exact (h.grouping s).mem_members

/-- **Each word is on one edge, and there once.** -/
theorem Built.perm_range (h : Built box words word_hashes words.length nodes)
    (hbuildable : Buildable box words word_hashes) :
    ((List.finRange BOX_CHARS).flatMap (node_word_idxs nodes)).Perm (List.range words.length) := by
  have hnodup : ((List.finRange BOX_CHARS).flatMap (node_word_idxs nodes)).Nodup := by
    rw [List.nodup_flatMap]
    refine ⟨fun s _ => ?_, (List.nodup_finRange BOX_CHARS).imp fun {s t} hne i hs ht => hne ?_⟩
    · rw [← members_outgoing]
      exact (h.grouping s).nodup_members
    · -- an index at two nodes is that of a word with two first letters
      obtain ⟨_, _, hkey⟩ := h.mem_node_word_idxs.mp hs
      obtain ⟨_, _, hkey'⟩ := h.mem_node_word_idxs.mp ht
      obtain ⟨w, hw, _, hfront, _⟩ := word_key_eq_some.mp hkey
      obtain ⟨w', hw', _, hfront', _⟩ := word_key_eq_some.mp hkey'
      rw [hw, Option.some.injEq] at hw'
      rw [← hw', hfront, Option.some.injEq] at hfront'
      exact Box.letter_inj.mp hfront'
  rw [List.perm_ext_iff_of_nodup hnodup List.nodup_range]
  intro i
  rw [List.mem_flatMap, List.mem_range]
  constructor
  · rintro ⟨s, _, hi⟩
    exact (h.mem_node_word_idxs.mp hi).1
  · intro hi
    have hw := List.getElem?_eq_getElem hi
    have hhash := List.getElem?_eq_getElem (hbuildable.length_eq ▸ hi)
    obtain ⟨s, hfront⟩ := hbuildable.front _ (List.getElem_mem hi)
    obtain ⟨d, hback⟩ := hbuildable.back _ (List.getElem_mem hi)
    exact ⟨s, List.mem_finRange s,
      h.mem_node_word_idxs.mpr ⟨hi, _, word_key_eq_some.mpr ⟨_, hw, hhash, hfront, hback⟩⟩⟩

end Build

/-- **`build_graph` partitions the words.** Each index is on one edge, and
there once: at the node of the word's first letter, on an edge to the node of
its last letter with its hash. The indices of an edge ascend and are not empty,
no node has two edges with one destination and hash, and the edges of a node
are in the order of their first words. -/
theorem build_graph_partitions (box : Box) {words : List (List UInt8)}
    {word_hashes : List char_mask_t} (hbuildable : Buildable box words word_hashes) :
    ∃ compressionIndex nodes,
      gen_compression_index box.characters = .ok compressionIndex ∧
      build_graph compressionIndex words word_hashes init_nodes = .ok nodes ∧
      ((List.finRange BOX_CHARS).flatMap (node_word_idxs nodes)).Perm (List.range words.length) ∧
      ∀ s, (∀ e ∈ outgoing nodes s, ∀ i ∈ e.wordVariantIdxs, ∃ w, words[i]? = some w ∧
            w.head? = some (box.letter s) ∧ w.getLast? = some (box.letter e.to) ∧
            word_hashes[i]? = some e.wordHash) ∧
        (∀ e ∈ outgoing nodes s, e.wordVariantIdxs ≠ [] ∧ e.wordVariantIdxs.Pairwise (· < ·)) ∧
        ((outgoing nodes s).Pairwise fun e e' => (e.to, e.wordHash) ≠ (e'.to, e'.wordHash)) ∧
        (outgoing nodes s).Pairwise fun e e' =>
          ∀ i ∈ e.wordVariantIdxs.head?, ∀ j ∈ e'.wordVariantIdxs.head?, i < j := by
  obtain ⟨compressionIndex, hindexed, hindex⟩ := gen_compression_index_box box
  obtain ⟨nodes, hbuild, hbuilt⟩ := build_graph_built hindex hbuildable
  refine ⟨compressionIndex, nodes, hindexed, hbuild, hbuilt.perm_range hbuildable, fun s => ?_⟩
  have hgrouping := hbuilt.grouping s
  refine ⟨fun e he i hi => ?_, fun e he => ⟨hbuilt.variants_ne_nil he, ?_⟩, ?_, ?_⟩
  · obtain ⟨_, w, hw, hhash, hfront, hback⟩ := hbuilt.variant he hi
    exact ⟨w, hw, hfront, hback, hhash⟩
  · exact hgrouping.sorted e.group (List.mem_map_of_mem he)
  · have hdistinct := hgrouping.distinct
    rw [List.pairwise_map] at hdistinct
    apply hdistinct.imp
    intro e e' hne heq
    obtain ⟨hdest, hhash⟩ := Prod.mk.inj heq
    exact hne (Prod.ext hhash hdest)
  · have hordered := hgrouping.ordered
    rwa [List.pairwise_map] at hordered

theorem build_graph_partitions_first_box :
    Buildable first_box [[97, 100], [97, 100]] [9#32, 9#32] ∧
      ∃ compressionIndex nodes,
        gen_compression_index first_box.characters = .ok compressionIndex ∧
        build_graph compressionIndex [[97, 100], [97, 100]] [9#32, 9#32] init_nodes = .ok nodes ∧
        ((List.finRange BOX_CHARS).flatMap (node_word_idxs nodes)).Perm (List.range 2) := by
  have hbuildable : Buildable first_box [[97, 100], [97, 100]] [9#32, 9#32] := by
    refine ⟨rfl, ?_, ?_⟩
    · simpa using ⟨(⟨0, by decide⟩ : Fin BOX_CHARS), rfl⟩
    · simpa using ⟨(⟨3, by decide⟩ : Fin BOX_CHARS), rfl⟩
  obtain ⟨compressionIndex, nodes, hindexed, hbuild, hperm, _⟩ :=
    build_graph_partitions first_box hbuildable
  exact ⟨hbuildable, compressionIndex, nodes, hindexed, hbuild, hperm⟩

/-! ## Words over the box -/

/-- Words whose letters are all in the box. -/
structure BoxWords (box : Box) where
  words : List (List UInt8)
  ne_nil : ∀ w ∈ words, w ≠ []
  letters : ∀ w ∈ words, ∀ c ∈ w, c ∈ box.characters

/-- Their letter-set hashes. -/
def BoxWords.hashes (bw : BoxWords box) : List char_mask_t := bw.words.map box.letter_mask

section BoxWords

variable {bw : BoxWords box} {nodes : nodes_t} {n : Nat} {s : Fin BOX_CHARS} {e : word_edge}

theorem BoxWords.buildable (bw : BoxWords box) : Buildable box bw.words bw.hashes :=
  ⟨List.length_map _, fun w hw => Box.exists_front (bw.ne_nil w hw) (bw.letters w hw),
    fun w hw => Box.exists_back (bw.ne_nil w hw) (bw.letters w hw)⟩

/-- Word `w` is one of those that `e` stands for. -/
def Spells (words : List (List UInt8)) (e : word_edge) (w : List UInt8) : Prop :=
  ∃ i ∈ e.wordVariantIdxs, words[i]? = some w

/-- The words of an edge have its letters, and begin and end at its nodes. -/
theorem Built.spells (h : Built box bw.words bw.hashes n nodes) (he : e ∈ outgoing nodes s)
    {w : List UInt8} (hw : Spells bw.words e w) :
    w ∈ bw.words ∧ e.wordHash = box.letter_mask w ∧ w.head? = some (box.letter s) ∧
      w.getLast? = some (box.letter e.to) := by
  obtain ⟨i, hi, hword⟩ := hw
  obtain ⟨_, w', hword', hhash, hfront, hback⟩ := h.variant he hi
  rw [hword, Option.some.injEq] at hword'
  subst hword'
  rw [BoxWords.hashes, List.getElem?_map, hword, Option.map_some, Option.some.injEq] at hhash
  exact ⟨List.mem_of_getElem? hword, hhash.symm, hfront, hback⟩

/-- Every edge stands for some word. -/
theorem Built.exists_spells (h : Built box bw.words bw.hashes n nodes)
    (he : e ∈ outgoing nodes s) : ∃ w, Spells bw.words e w := by
  obtain ⟨i, hi⟩ := List.exists_mem_of_ne_nil _ (h.variants_ne_nil he)
  obtain ⟨_, w, hword, _⟩ := h.variant he hi
  exact ⟨w, i, hi, hword⟩

/-- Every word is on an edge of the node of its first letter. -/
theorem Built.edge_of_word (h : Built box bw.words bw.hashes bw.words.length nodes)
    {w : List UInt8} (hw : w ∈ bw.words) (hfront : w.head? = some (box.letter s)) :
    ∃ e ∈ outgoing nodes s, Spells bw.words e w := by
  obtain ⟨i, hi, hget⟩ := List.getElem_of_mem hw
  have hword : bw.words[i]? = some w := by
    rw [List.getElem?_eq_getElem hi, hget]
  have hhash : bw.hashes[i]? = some (box.letter_mask w) := by
    rw [BoxWords.hashes, List.getElem?_map, hword, Option.map_some]
  obtain ⟨d, hback⟩ := bw.buildable.back w hw
  obtain ⟨e, he, _, _, hmem⟩ := h.exists_edge hi hword hhash hfront hback
  exact ⟨e, he, i, hmem, hword⟩

/-- **The graph of words over the box is what the search relies on.** -/
theorem Built.wellHashed (h : Built box bw.words bw.hashes n nodes) : WellHashed nodes := by
  refine ⟨h.compressedIdx_eq, fun s e he => ?_, fun s e he => ?_, fun s => h.outgoing_nodup⟩
  · obtain ⟨w, hw⟩ := h.exists_spells he
    obtain ⟨_, hhash, _⟩ := h.spells he hw
    rw [hhash]
    exact Box.letter_mask_lt w
  · -- the last letter of a word is one of its letters
    obtain ⟨w, hw⟩ := h.exists_spells he
    obtain ⟨_, hhash, _, hback⟩ := h.spells he hw
    rw [hhash]
    exact (Box.getLsbD_letter_mask e.to w).mpr (List.mem_of_mem_getLast? hback)

end BoxWords

end LetterBoxed
