/-
What does not depend on the order of letters and words.

The letters of a side may be typed in any order, the sides too, and a word list
may come in any order, with words that are there twice. Bits, nodes and edges
then have other places, edges are met in another order, and the chains that are
found are other ones: behind each state the search keeps the first way to it.

The two searches have the same moves all the same. A state of the one and a
state of the other correspond if the same letter is last and the same letters
are used, and an edge corresponds to the edge that stands for its words. So as
many solutions are found, and the first ones have as many words, one by one.
-/
import LetterBoxed.Lib.Bisimulation
import LetterBoxed.Runner
import LetterBoxed.SearchOrder

set_option autoImplicit false

open Paths

namespace LetterBoxed

variable {box box' : Box}

/-! ## States -/

/-- The same letter is last, and the same letters are used. -/
structure SameLetters (box box' : Box) (s s' : search_node) : Prop where
  last : box.letter s.1 = box'.letter s'.1
  used : ∀ {i i'}, box.letter i = box'.letter i' →
    (s.2.getLsbD i = true ↔ s'.2.getLsbD i' = true)
  mask_lt : s.2.toNat < 2 ^ BOX_CHARS
  mask_lt' : s'.2.toNat < 2 ^ BOX_CHARS

theorem SameLetters.symm {s s' : search_node} (h : SameLetters box box' s s') :
    SameLetters box' box s' s where
  last := h.last.symm
  used hi := (h.used hi.symm).symm
  mask_lt := h.mask_lt'
  mask_lt' := h.mask_lt

section States

variable (hletters : ∀ c, c ∈ box.characters ↔ c ∈ box'.characters)
include hletters

/-- Each place of the one box is a place of the other. -/
theorem exists_same_letter (i : Fin BOX_CHARS) : ∃ i', box'.letter i' = box.letter i :=
  Box.exists_letter ((hletters _).mp (Box.letter_mem i))

/-- A state corresponds to one state. -/
theorem SameLetters.unique {s s' t' : search_node} (h : SameLetters box box' s s')
    (h' : SameLetters box box' s t') : s' = t' := by
  apply Prod.ext
  · exact Box.letter_inj.mp (h.last.symm.trans h'.last)
  · apply mask_ext h.mask_lt' h'.mask_lt'
    intro i'
    obtain ⟨i, hi⟩ := exists_same_letter (fun c => (hletters c).symm) i'
    exact (h.used hi).symm.trans (h'.used hi)

/-- All letters are used in both or in none. -/
theorem SameLetters.covers_of_covers {s s' : search_node} (h : SameLetters box box' s s')
    (hcovers : Covers s) : Covers s' := by
  unfold Covers at hcovers ⊢
  rw [eq_solution_mask_iff h.mask_lt] at hcovers
  rw [eq_solution_mask_iff h.mask_lt']
  intro i'
  obtain ⟨i, hi⟩ := exists_same_letter (fun c => (hletters c).symm) i'
  exact (h.used hi).mp (hcovers i)

end States

/-! ## Graphs -/

/-- The graphs of the same words over the same letters. -/
structure Rearranged (bw : BoxWords box) (nodes : nodes_t) (bw' : BoxWords box')
    (nodes' : nodes_t) : Prop where
  letters : ∀ c, c ∈ box.characters ↔ c ∈ box'.characters
  words : ∀ w, w ∈ bw.words ↔ w ∈ bw'.words
  built : Built box bw.words bw.hashes bw.words.length nodes
  built' : Built box' bw'.words bw'.hashes bw'.words.length nodes'

section Graphs

variable {bw : BoxWords box} {bw' : BoxWords box'} {nodes nodes' : nodes_t}
  {s s' : search_node} {e f e' : word_edge} {w v : List UInt8}

theorem Rearranged.symm (h : Rearranged bw nodes bw' nodes') : Rearranged bw' nodes' bw nodes where
  letters c := (h.letters c).symm
  words w := (h.words w).symm
  built := h.built'
  built' := h.built

/-- Edges of corresponding states that stand for one word. -/
structure SameWord (bw : BoxWords box) (nodes : nodes_t) (bw' : BoxWords box') (nodes' : nodes_t)
    (s s' : search_node) (e e' : word_edge) : Prop where
  mem : e ∈ outgoing nodes s.1
  mem' : e' ∈ outgoing nodes' s'.1
  word : ∃ w, Spells bw.words e w ∧ Spells bw'.words e' w

/-- **Step lemma.** They lead to corresponding states. -/
theorem Rearranged.next (h : Rearranged bw nodes bw' nodes') (hs : SameLetters box box' s s')
    (he : SameWord bw nodes bw' nodes' s s' e e') :
    SameLetters box box' ((chains nodes).next s e) ((chains nodes').next s' e') := by
  obtain ⟨w, hw, hw'⟩ := he.word
  obtain ⟨_, hhash, _, hback⟩ := h.built.spells he.mem hw
  obtain ⟨_, hhash', _, hback'⟩ := h.built'.spells he.mem' hw'
  refine ⟨?_, fun {i i'} hi => ?_, or_lt hs.mask_lt (h.built.wellHashed.hash_lt _ e he.mem),
    or_lt hs.mask_lt' (h.built'.wellHashed.hash_lt _ e' he.mem')⟩
  · rw [hback, Option.some.injEq] at hback'
    exact hback'
  · rw [chains_next, chains_next, BitVec.getLsbD_or, BitVec.getLsbD_or, Bool.or_eq_true,
      Bool.or_eq_true, hs.used hi, hhash, hhash', Box.getLsbD_letter_mask,
      Box.getLsbD_letter_mask, hi]

/-- An edge corresponds to the one that stands for its words. -/
theorem Rearranged.forth (h : Rearranged bw nodes bw' nodes') (hs : SameLetters box box' s s')
    (he : e ∈ outgoing nodes s.1) : ∃ e', SameWord bw nodes bw' nodes' s s' e e' := by
  obtain ⟨w, hw⟩ := h.built.exists_spells he
  obtain ⟨hmem, _, hfront, _⟩ := h.built.spells he hw
  rw [hs.last] at hfront
  obtain ⟨e', he', hw'⟩ := h.built'.edge_of_word ((h.words w).mp hmem) hfront
  exact ⟨e', he, he', w, hw, hw'⟩

/-- And to no other: its words have the same letters, and the same one last. -/
theorem Rearranged.edge_unique (h : Rearranged bw nodes bw' nodes')
    (he : SameWord bw nodes bw' nodes' s s' e e') (hf : SameWord bw nodes bw' nodes' s s' f e') :
    e = f := by
  obtain ⟨w, hw, hw'⟩ := he.word
  obtain ⟨v, hv, hv'⟩ := hf.word
  obtain ⟨_, hhash, _, hback⟩ := h.built.spells he.mem hw
  obtain ⟨_, hhash', _, hback'⟩ := h.built'.spells he.mem' hw'
  obtain ⟨_, hhash_v, _, hback_v⟩ := h.built.spells hf.mem hv
  obtain ⟨_, hhash_v', _, hback_v'⟩ := h.built'.spells hf.mem' hv'
  apply h.built.edge_eq he.mem hf.mem
  · rw [hhash, hhash_v, Box.letter_mask_eq_iff]
    intro i
    obtain ⟨i', hi⟩ := exists_same_letter h.letters i
    rw [← hi]
    exact Box.letter_mask_eq_iff.mp (hhash'.symm.trans hhash_v') i'
  · have hlast : w.getLast? = v.getLast? := hback'.trans hback_v'.symm
    rw [hback, hback_v, Option.some.injEq, Box.letter_inj] at hlast
    exact hlast

theorem SameWord.symm (he : SameWord bw nodes bw' nodes' s s' e e') :
    SameWord bw' nodes' bw nodes s' s e' e where
  mem := he.mem'
  mem' := he.mem
  word := he.word.imp fun _ hw => hw.symm

/-- As many edges lead to a cover. -/
theorem Rearranged.goals (h : Rearranged bw nodes bw' nodes') (hs : SameLetters box box' s s') :
    ((outgoing nodes s.1).countP fun e => decide (Covers ((chains nodes).next s e))) =
      (outgoing nodes' s'.1).countP fun e' => decide (Covers ((chains nodes').next s' e')) := by
  have hunique : Relator.BiUnique (SameWord bw nodes bw' nodes' s s') :=
    ⟨fun _ _ _ he hf => h.edge_unique he hf,
      fun _ _ _ he hf => h.symm.edge_unique he.symm hf.symm⟩
  have hcovers : ∀ e e', SameWord bw nodes bw' nodes' s s' e e' →
      decide (Covers ((chains nodes).next s e)) = decide (Covers ((chains nodes').next s' e')) := by
    intro e e' he
    have hnext := h.next hs he
    exact decide_eq_decide.mpr ⟨hnext.covers_of_covers h.letters,
      hnext.symm.covers_of_covers h.symm.letters⟩
  have hperm := map_perm_of_matched hunique hcovers h.built.outgoing_nodup h.built'.outgoing_nodup
    (fun e he => (h.forth hs he).imp fun _ he => ⟨he.mem', he⟩)
    (fun e' he' => (h.symm.forth hs.symm he').imp fun _ he => ⟨he.mem', he.symm⟩)
  have hcount := hperm.countP_eq id
  rwa [List.countP_map, List.countP_map] at hcount

/-- **The two searches have the same moves.** -/
theorem Rearranged.bisimulation (h : Rearranged bw nodes bw' nodes') :
    Bisimulation (chain_search nodes) start_nodes (chain_search nodes') start_nodes
      (SameLetters box box') := by
  have hstart : ∀ {box box' : Box}, (∀ c, c ∈ box.characters ↔ c ∈ box'.characters) →
      ∀ s ∈ start_nodes, ∃ s' ∈ start_nodes, SameLetters box box' s s' := by
    rintro box box' hletters ⟨i, mask⟩ hs
    have hmask : mask = 0#32 := mem_start_nodes.mp hs
    subst hmask
    obtain ⟨i', hi⟩ := exists_same_letter hletters i
    exact ⟨(i', 0#32), mem_start_nodes.mpr rfl, hi.symm, by simp, zero_mask_lt, zero_mask_lt⟩
  refine ⟨⟨fun s s' t hs ht => hs.symm.unique h.symm.letters ht.symm,
      fun s s' t' hs ht => hs.unique h.letters ht⟩, hstart h.letters, fun s' hs' => ?_,
    fun hs e he => ?_, fun hs e' he' => ?_, h.goals⟩
  · obtain ⟨s, hs, hrel⟩ := hstart h.symm.letters s' hs'
    exact ⟨s, hs, hrel.symm⟩
  · obtain ⟨e', he⟩ := h.forth hs he
    exact ⟨e', he.mem', h.next hs he⟩
  · obtain ⟨e, he⟩ := h.symm.forth hs.symm he'
    exact ⟨e, he.mem', h.next hs he.symm⟩

end Graphs

/-! ## Solutions -/

/-- A solution has a position for each word of its path. -/
theorem solution_lengths {words : List (List UInt8)} {cfg : Settings} {nodes : nodes_t}
    {sols : List solution_t}
    (htraced : List.Forall₂ (Traced words) (breadth_first cfg nodes) sols) :
    (sols.map fun sol => sol.chain.length) =
      (((chain_search nodes).breadth_first start_nodes cfg.MAX_SEARCH_SIZE).map fun t =>
        t.2.length).take cfg.MAX_SOLUTIONS := by
  have hlengths : ∀ {raw : List (List word_edge)} {sols : List solution_t},
      List.Forall₂ (Traced words) raw sols →
        (sols.map fun sol => sol.chain.length) = raw.map fun q => q.length - 1 := by
    intro raw sols htraced
    induction htraced with
    | nil => rfl
    | cons hq _ ih => rw [List.map_cons, List.map_cons, ih, ← hq.length_eq, Nat.add_sub_cancel]
  rw [hlengths htraced, breadth_first, List.map_take, List.map_map]
  rfl

/-- The stages return the traces of the list. -/
theorem exists_listed {csv : List UInt8} (build : SplitBuild) {cfg : Settings}
    (hmin : cfg.STATE_CACHE_MIN_DEPTH ≤ 2) (junk : Nat → char_mask_t) (hcsv : LowerCsv csv)
    (hone : box.OneLetterInside csv) :
    ∃ data sols nodes, Yields build cfg junk box csv data sols ∧
      Built box (box.kept_words csv hone).words (box.kept_words csv hone).hashes
        (box.kept_words csv hone).words.length nodes ∧
      List.Forall₂ (Traced (box.kept_words csv hone).words) (breadth_first cfg nodes) sols := by
  obtain ⟨_, data, hindex, _, hyields⟩ := exists_stages build cfg junk hcsv hone
  obtain ⟨nodes, hbuild, hbuilt⟩ := build_graph_built hindex (box.kept_words csv hone).buildable
  obtain ⟨sols, _, htraced, hsolve⟩ := solve_traces cfg hmin hbuild hbuilt
  exact ⟨data, sols, nodes, hyields sols hsolve, hbuilt, htraced⟩

/-- **As many solutions, of the same lengths.** For a second box with the same
sides and a second word list with the same words, both in another order, with
words that come again, the solutions have the same numbers of words, one by one.
Neither do the builds matter. -/
theorem same_solution_lengths (build build' : SplitBuild) (cfg : Settings)
    (hmin : cfg.STATE_CACHE_MIN_DEPTH ≤ 2) (junk junk' : Nat → char_mask_t)
    (hsides : SameSides box box') {csv csv' : List UInt8} (hcsv : LowerCsv csv)
    (hcsv' : LowerCsv csv') (hone : box.OneLetterInside csv)
    (hfields : ∀ w, w ∈ fields csv ↔ w ∈ fields csv') :
    ∃ data sols data' sols', Yields build cfg junk box csv data sols ∧
      Yields build' cfg junk' box' csv' data' sols' ∧
      (sols.map fun sol => sol.chain.length) = sols'.map fun sol => sol.chain.length := by
  have hone' : box'.OneLetterInside csv' := fun field hfield hlen c hc =>
    (hsides.letters c).mp (hone field ((hfields field).mpr hfield) hlen c hc)
  obtain ⟨data, sols, nodes, hyields, hbuilt, htraced⟩ := exists_listed build hmin junk hcsv hone
  obtain ⟨data', sols', nodes', hyields', hbuilt', htraced'⟩ :=
    exists_listed build' hmin junk' hcsv' hone'
  have hwords : ∀ w, w ∈ (box.kept_words csv hone).words ↔
      w ∈ (box'.kept_words csv' hone').words := by
    intro w
    rw [mem_kept_words, mem_kept_words, hfields]
    exact and_congr_right fun _ => ⟨hsides.legalWord, hsides.symm.legalWord⟩
  have hrearranged : Rearranged (box.kept_words csv hone) nodes (box'.kept_words csv' hone') nodes' :=
    ⟨hsides.letters, hwords, hbuilt, hbuilt'⟩
  refine ⟨data, sols, data', sols', hyields, hyields', ?_⟩
  rw [solution_lengths htraced, solution_lengths htraced',
    hrearranged.bisimulation.lengths_eq start_nodes_nodup start_nodes_nodup]

/-- The first box with its sides in reverse, and two words in the other order, of
which one comes twice. -/
theorem same_solution_lengths_reversed :
    ∃ box' : Box, box'.characters = first_box.characters.reverse ∧
      (settings.STATE_CACHE_MIN_DEPTH ≤ 2 ∧ SameSides first_box box' ∧
        LowerCsv (text "adbecf,fgjhkil") ∧ LowerCsv (text "fgjhkil,adbecf,fgjhkil") ∧
        first_box.OneLetterInside (text "adbecf,fgjhkil") ∧
        ∀ w, w ∈ fields (text "adbecf,fgjhkil") ↔ w ∈ fields (text "fgjhkil,adbecf,fgjhkil")) ∧
      ∃ data sols data' sols',
        Yields .simd settings (fun _ => 0#32) first_box (text "adbecf,fgjhkil") data sols ∧
        Yields .scalar settings (fun _ => 1#32) box' (text "fgjhkil,adbecf,fgjhkil") data' sols' ∧
        (sols.map fun sol => sol.chain.length) = sols'.map fun sol => sol.chain.length := by
  let box' : Box := ⟨first_box.characters.reverse, rfl, by decide +kernel, by decide +kernel⟩
  have hmin : settings.STATE_CACHE_MIN_DEPTH ≤ 2 := by decide
  have hsides : SameSides first_box box' :=
    ⟨fun c => List.mem_reverse.symm, by decide +kernel⟩
  have hcsv : LowerCsv (text "adbecf,fgjhkil") := by decide +kernel
  have hcsv' : LowerCsv (text "fgjhkil,adbecf,fgjhkil") := by decide +kernel
  have hone : first_box.OneLetterInside (text "adbecf,fgjhkil") := by decide +kernel
  have hfields : ∀ w, w ∈ fields (text "adbecf,fgjhkil") ↔
      w ∈ fields (text "fgjhkil,adbecf,fgjhkil") := by
    have hfirst : fields (text "adbecf,fgjhkil") = [text "adbecf", text "fgjhkil"] := by
      decide +kernel
    have hsecond : fields (text "fgjhkil,adbecf,fgjhkil") =
        [text "fgjhkil", text "adbecf", text "fgjhkil"] := by
      decide +kernel
    intro w
    simp only [hfirst, hsecond, List.mem_cons, List.not_mem_nil, or_false]
    exact ⟨fun hw => .inr hw, fun hw => hw.elim .inr id⟩
  exact ⟨box', rfl, ⟨hmin, hsides, hcsv, hcsv', hone, hfields⟩,
    same_solution_lengths .simd .scalar settings hmin (fun _ => 0#32) (fun _ => 1#32) hsides hcsv
      hcsv' hone hfields⟩

end LetterBoxed
