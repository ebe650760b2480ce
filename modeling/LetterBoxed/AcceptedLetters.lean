/-
The letters that `read_sides` accepts, of which some may be equal.

`read_sides` takes any sides of three characters, and nothing behind it asks if
a letter comes twice. `gen_compression_index` enters the letters in their order,
so a letter has the place where it comes last, and the places where it came
before are those of no letter. No word has the bits of these places, and
`early_terminate_instance` ends the search before it begins.

The letters are compared with a box, in which every letter that comes again is
replaced by one that does not come at all. For words of the letters that do
come, the tables of both say the same. A word of one letter that does not come
is let through, as with a box, and indexes the nodes with the invalid flag.
-/
import LetterBoxed.FilterFaults
import LetterBoxed.Runner

set_option autoImplicit false

namespace LetterBoxed

/-! ## A box around the letters -/

/-- The letters, with those that come again replaced from `spare`. -/
def fill_repeated : (characters spare : List UInt8) → List UInt8
  | [], _ => []
  | c :: rest, spare => (if c ∈ rest then spare.headD c else c) :: fill_repeated rest spare.tail

example : fill_repeated [97, 98, 97, 99] [120, 121, 122, 119] = [120, 98, 97, 99] := by decide

section Fill

variable {characters spare : List UInt8}

@[simp] theorem length_fill_repeated (characters : List UInt8) :
    ∀ spare, (fill_repeated characters spare).length = characters.length := by
  induction characters with
  | nil => exact fun _ => rfl
  | cons c rest ih => exact fun spare => congrArg (· + 1) (ih spare.tail)

/-- The first letter is kept, or it is the first spare one. -/
theorem fill_repeated_cons {c s : UInt8} {rest : List UInt8} :
    fill_repeated (c :: rest) (s :: spare) =
      (if c ∈ rest then s else c) :: fill_repeated rest spare := rfl

/-- The spare letters are enough for the first and for those behind it. -/
theorem exists_spare_cons {c : UInt8} {rest : List UInt8}
    (hlen : (c :: rest).length ≤ spare.length) :
    ∃ s spare', spare = s :: spare' ∧ rest.length ≤ spare'.length := by
  cases spare with
  | nil => exact absurd hlen (Nat.not_succ_le_zero _)
  | cons s spare => exact ⟨s, spare, rfl, Nat.le_of_succ_le_succ hlen⟩

theorem mem_fill_repeated (characters : List UInt8) :
    ∀ {spare}, characters.length ≤ spare.length → ∀ c ∈ fill_repeated characters spare,
      c ∈ characters ∨ c ∈ spare := by
  induction characters with
  | nil => exact fun _ c hc => absurd hc List.not_mem_nil
  | cons d rest ih =>
      intro spare hlen c hc
      obtain ⟨s, spare, rfl, hlen'⟩ := exists_spare_cons hlen
      rw [fill_repeated_cons, List.mem_cons] at hc
      rcases hc with rfl | hc
      · by_cases hd : d ∈ rest
        · rw [if_pos hd]
          exact .inr List.mem_cons_self
        · rw [if_neg hd]
          exact .inl List.mem_cons_self
      · rcases ih hlen' c hc with hc | hc
        · exact .inl (List.mem_cons_of_mem d hc)
        · exact .inr (List.mem_cons_of_mem s hc)

/-- No letter is lost. -/
theorem subset_fill_repeated (characters : List UInt8) :
    ∀ spare, ∀ c ∈ characters, c ∈ fill_repeated characters spare := by
  induction characters with
  | nil => exact fun _ c hc => absurd hc List.not_mem_nil
  | cons d rest ih =>
      intro spare c hc
      unfold fill_repeated
      by_cases hrest : c ∈ rest
      · exact List.mem_cons_of_mem _ (ih spare.tail c hrest)
      · have heq : c = d := (List.mem_cons.mp hc).resolve_right hrest
        subst heq
        rw [if_neg hrest]
        exact List.mem_cons_self

/-- Without a repeated letter none is replaced. -/
theorem fill_repeated_of_nodup (characters : List UInt8) :
    ∀ spare, characters.Nodup → fill_repeated characters spare = characters := by
  induction characters with
  | nil => exact fun _ _ => rfl
  | cons d rest ih =>
      intro spare hnodup
      rw [List.nodup_cons] at hnodup
      rw [fill_repeated, if_neg hnodup.1, ih spare.tail hnodup.2]

theorem nodup_fill_repeated (characters : List UInt8) :
    ∀ {spare}, characters.length ≤ spare.length → spare.Nodup → (∀ c ∈ characters, c ∉ spare) →
      (fill_repeated characters spare).Nodup := by
  induction characters with
  | nil => exact fun _ _ _ => List.nodup_nil
  | cons d rest ih =>
      intro spare hlen hnodup hdisj
      obtain ⟨s, spare, rfl, hlen'⟩ := exists_spare_cons hlen
      rw [List.nodup_cons] at hnodup
      rw [List.forall_mem_cons] at hdisj
      have hspare : ∀ c ∈ rest, c ∉ spare := fun c hc hmem =>
        hdisj.2 c hc (List.mem_cons_of_mem s hmem)
      rw [fill_repeated_cons, List.nodup_cons]
      refine ⟨fun hmem => ?_, ih hlen' hnodup.2 hspare⟩
      have hcases := mem_fill_repeated rest hlen' _ hmem
      by_cases hd : d ∈ rest
      · rw [if_pos hd] at hcases
        rcases hcases with hs | hs
        · exact hdisj.2 s hs List.mem_cons_self
        · exact hnodup.1 hs
      · rw [if_neg hd] at hcases
        exact hcases.elim hd fun hmem => hdisj.1 (List.mem_cons_of_mem s hmem)

/-- A letter that comes again lets a spare one in. -/
theorem exists_spare_of_repeated (characters : List UInt8) :
    ∀ {spare}, characters.length ≤ spare.length → ¬characters.Nodup →
      ∃ s ∈ fill_repeated characters spare, s ∈ spare := by
  induction characters with
  | nil => exact fun _ h => absurd List.nodup_nil h
  | cons d rest ih =>
      intro spare hlen hrepeated
      obtain ⟨s, spare, rfl, hlen'⟩ := exists_spare_cons hlen
      rw [fill_repeated_cons]
      by_cases hd : d ∈ rest
      · rw [if_pos hd]
        exact ⟨s, List.mem_cons_self, List.mem_cons_self⟩
      · have hrest : ¬rest.Nodup := fun h => hrepeated (List.nodup_cons.mpr ⟨hd, h⟩)
        obtain ⟨t, ht, hspare⟩ := ih hlen' hrest
        exact ⟨t, List.mem_cons_of_mem _ ht, List.mem_cons_of_mem s hspare⟩

end Fill

/-- `a` to `z` -/
def alphabet : List UInt8 := (List.range CHARACTERS).map fun k => UInt8.ofNat (97 + k)

/-- The letters that do not come. -/
def spare_letters (characters : List UInt8) : List UInt8 := alphabet.filter (· ∉ characters)

theorem not_mem_spare_letters (characters : List UInt8) :
    ∀ c ∈ characters, c ∉ spare_letters characters := by
  intro c hc hmem
  have hnot := List.of_mem_filter hmem
  rw [decide_eq_true_eq] at hnot
  exact hnot hc

/-- There are letters enough for twice a box. -/
theorem length_le_spare_letters {characters : List UInt8} (hsize : characters.length = BOX_CHARS) :
    characters.length ≤ (spare_letters characters).length := by
  have hchars : BOX_CHARS = 12 := rfl
  have halphabet : alphabet.length = 26 := rfl
  have hsplit := alphabet.length_eq_length_filter_add fun c => decide (c ∈ characters)
  have hnodup : alphabet.Nodup := by decide +kernel
  have hcome : (alphabet.filter fun c => decide (c ∈ characters)).length ≤ characters.length := by
    apply List.Nodup.length_le_of_subset (hnodup.filter _)
    intro c hc
    have hmem := List.of_mem_filter hc
    rwa [decide_eq_true_eq] at hmem
  have hspare : spare_letters characters =
      alphabet.filter fun c => !decide (c ∈ characters) := by
    unfold spare_letters
    exact List.filter_congr fun c _ => decide_not
  rw [hspare]
  omega

/-- The box around twelve lower-case letters. -/
def filled_box (characters : List UInt8) (hsize : characters.length = BOX_CHARS)
    (hlower : ∀ c ∈ characters, IsLower c) : Box where
  characters := fill_repeated characters (spare_letters characters)
  size_eq := (length_fill_repeated _ _).trans hsize
  nodup := nodup_fill_repeated characters (length_le_spare_letters hsize)
    (List.Nodup.filter _ (by decide +kernel)) (not_mem_spare_letters characters)
  lower c hc := by
    have halphabet : ∀ c ∈ alphabet, IsLower c := by decide +kernel
    rcases mem_fill_repeated characters (length_le_spare_letters hsize) c hc with hc | hc
    · exact hlower c hc
    · exact halphabet c (List.mem_of_mem_filter hc)

/-! ## The tables -/

section Tables

variable {characters : List UInt8}

/-- The loop of `gen_compression_index` behind `n` letters: a letter that comes
gets the place where it comes last, and the other entries stay. -/
theorem enter_letters (characters : List UInt8) :
    ∀ (n : Nat) (compressionIndex : compression_index_t) (spare : List UInt8),
      compressionIndex.length = CHARACTERS → (∀ c ∈ characters, IsLower c) →
      ∃ compressionIndex',
        (characters.zipIdx n).foldlM
          (fun compressionIndex (c, i) =>
            write .compressionIndex compressionIndex (idx c) (BitVec.ofNat 32 i))
          compressionIndex = .ok compressionIndex' ∧
        compressionIndex'.length = CHARACTERS ∧
        (∀ c ∈ characters, ∃ i, (fill_repeated characters spare)[i]? = some c ∧
          compressionIndex'[idx c]? = some (BitVec.ofNat 32 (n + i))) ∧
        ∀ c, IsLower c → c ∉ characters → compressionIndex'[idx c]? = compressionIndex[idx c]? := by
  induction characters with
  | nil =>
      intro n compressionIndex _ hlength _
      exact ⟨compressionIndex, rfl, hlength, by simp, fun _ _ _ => rfl⟩
  | cons d rest ih =>
      intro n compressionIndex spare hlength hlower
      rw [List.forall_mem_cons] at hlower
      have hd : idx d < compressionIndex.length := by
        rw [hlength]
        exact idx_lt_iff.mpr hlower.1
      have hset : (compressionIndex.set (idx d) (BitVec.ofNat 32 n)).length = CHARACTERS := by
        rw [List.length_set, hlength]
      obtain ⟨compressionIndex', hrun, hlength', hplaces, hothers⟩ :=
        ih (n + 1) _ spare.tail hset hlower.2
      refine ⟨compressionIndex', ?_, hlength', fun c hc => ?_, fun c hc hnot => ?_⟩
      · rw [List.zipIdx_cons, List.foldlM_cons]
        dsimp only
        rw [write_lt hd]
        exact hrun
      · by_cases hrest : c ∈ rest
        · -- it is entered again
          obtain ⟨i, hi, hentry⟩ := hplaces c hrest
          refine ⟨i + 1, hi, ?_⟩
          rw [hentry, Nat.add_assoc, Nat.add_comm 1 i]
        · have heq : c = d := (List.mem_cons.mp hc).resolve_right hrest
          subst heq
          refine ⟨0, ?_, ?_⟩
          · rw [fill_repeated, if_neg hrest]
            rfl
          · rw [hothers c hlower.1 hrest, List.getElem?_set_self hd, Nat.add_zero]
      · rw [List.mem_cons, not_or] at hnot
        have hidx : idx d ≠ idx c := fun heq => hnot.1 (idx_injOn hc hlower.1 heq.symm)
        rw [hothers c hc hnot.2, List.getElem?_set_ne hidx]

/-- The entry of a letter: that of the box if it comes. -/
def entry_of (box : Box) (characters : List UInt8) (c : UInt8) : char_mask_t :=
  if c ∈ characters then box.index_entry c else INVALID_CHAR_FLAG

/-- **`gen_compression_index` on any lower-case letters.** -/
theorem gen_compression_index_lower (hsize : characters.length = BOX_CHARS)
    (hlower : ∀ c ∈ characters, IsLower c) :
    ∃ compressionIndex, gen_compression_index characters = .ok compressionIndex ∧
      compressionIndex.length = CHARACTERS ∧ ∀ c, IsLower c →
        compressionIndex[idx c]? = some (entry_of (filled_box characters hsize hlower) characters c) := by
  obtain ⟨compressionIndex, hrun, hlength, hplaces, hothers⟩ := enter_letters characters 0
    (List.replicate CHARACTERS INVALID_CHAR_FLAG) (spare_letters characters)
    List.length_replicate hlower
  refine ⟨compressionIndex, ?_, hlength, fun c hc => ?_⟩
  · unfold gen_compression_index
    rw [if_neg (not_not.mpr hsize)]
    exact hrun
  · unfold entry_of
    by_cases hmem : c ∈ characters
    · obtain ⟨i, hi, hentry⟩ := hplaces c hmem
      obtain ⟨hlt, hget⟩ := List.getElem?_eq_some_iff.mp hi
      rw [length_fill_repeated, hsize] at hlt
      have hplace : (filled_box characters hsize hlower).place c = some ⟨i, hlt⟩ :=
        Box.place_eq_some.mpr hget
      rw [if_pos hmem, hentry, Box.index_entry, hplace, Nat.zero_add]
      rfl
    · rw [if_neg hmem, hothers c hc hmem, List.getElem?_replicate_of_lt (idx_lt_iff.mpr hc)]

/-- The filter masks, entry by entry. -/
theorem gen_char_filter_masks_entries {compressionIndex : compression_index_t}
    {entry mask : UInt8 → char_mask_t} (hlength : compressionIndex.length = CHARACTERS)
    (hentry : ∀ c, IsLower c → compressionIndex[idx c]? = some (entry c))
    (hmask : ∀ c, char_filter_mask (entry c) = .ok (mask c)) :
    ∃ charFilterMasks, gen_char_filter_masks compressionIndex = .ok charFilterMasks ∧
      ∀ c, IsLower c → charFilterMasks[idx c]? = some (mask c) := by
  have hentries : ∀ x ∈ compressionIndex, ∃ y, char_filter_mask x = .ok y ∧
      char_filter_mask x = .ok y := by
    intro x hx
    obtain ⟨k, hk, rfl⟩ := List.getElem_of_mem hx
    obtain ⟨c, hc, rfl⟩ := exists_lower_of_lt (hlength ▸ hk)
    have hget := hentry c hc
    rw [List.getElem?_eq_getElem hk, Option.some.injEq] at hget
    rw [hget]
    exact ⟨_, hmask c, hmask c⟩
  obtain ⟨charFilterMasks, hrun, hpairs⟩ := exists_mapM hentries
  refine ⟨charFilterMasks, hrun, fun c hc => ?_⟩
  obtain ⟨hidx, hget⟩ := List.getElem?_eq_some_iff.mp (hentry c hc)
  have hidx' : idx c < charFilterMasks.length := hpairs.length_eq ▸ hidx
  have hpair := hpairs.get hidx hidx'
  rw [List.get_eq_getElem, hget, hmask, Except.ok.injEq] at hpair
  rw [List.getElem?_eq_getElem hidx', hpair, List.get_eq_getElem]

end Tables

/-! ## The filter -/

section Filter

variable {oversized : Nat → Except Fault char_mask_t} {compressionIndex : compression_index_t}
  {charFilterMasks : List char_mask_t} {flag mask : UInt8 → char_mask_t}

/-- What the loop over the letters keeps: words in which no two neighbours have
masks that overlap. -/
def Apart (mask : UInt8 → char_mask_t) (w : List UInt8) : Prop :=
  w.IsChain fun c d => mask d &&& mask c = 0

instance (mask : UInt8 → char_mask_t) (w : List UInt8) : Decidable (Apart mask w) :=
  inferInstanceAs (Decidable (List.IsChain _ _))

theorem apart_singleton (c : UInt8) : Apart mask [c] := List.isChain_singleton c

theorem apart_cons_cons {c d : UInt8} {w : List UInt8} :
    Apart mask (c :: d :: w) ↔ mask d &&& mask c = 0 ∧ Apart mask (d :: w) :=
  List.isChain_cons_cons

/-- The loop over the letters behind `prev`, whatever the tables are. -/
theorem hash_word_apart
    (hflag : ∀ c, IsLower c → bit_flag oversized c compressionIndex = .ok (flag c))
    (hmask : ∀ c, IsLower c → charFilterMasks[idx c]? = some (mask c)) (rest : List UInt8) :
    ∀ (prev : UInt8) (wordHash : char_mask_t), IsLower prev → (∀ c ∈ rest, IsLower c) →
      hash_word oversized compressionIndex charFilterMasks prev rest wordHash =
        .ok (if Apart mask (prev :: rest) then
          some (rest.foldl (fun hash c => hash ||| flag c) wordHash) else none) := by
  induction rest with
  | nil =>
      intro prev wordHash _ _
      rw [if_pos (apart_singleton prev)]
      rfl
  | cons c rest ih =>
      intro prev wordHash hprev hrest
      rw [List.forall_mem_cons] at hrest
      unfold hash_word
      rw [read_getElem (hmask c hrest.1), read_getElem (hmask prev hprev)]
      simp only [bind, Except.bind, hflag c hrest.1, apart_cons_cons]
      by_cases hapart : mask c &&& mask prev = 0
      · rw [if_neg (not_not.mpr hapart), ih c _ hrest.1 hrest.2]
        simp only [hapart, true_and, List.foldl_cons]
      · -- `break`
        rw [if_pos hapart]
        simp only [hapart, false_and, if_false]
        rfl

theorem filter_word_apart
    (hflag : ∀ c, IsLower c → bit_flag oversized c compressionIndex = .ok (flag c))
    (hmask : ∀ c, IsLower c → charFilterMasks[idx c]? = some (mask c)) {word : List UInt8}
    (hword : ∀ c ∈ word, IsLower c) (hne : word ≠ []) :
    filter_word oversized compressionIndex charFilterMasks word =
      .ok (if Apart mask word then some (word.foldl (fun hash c => hash ||| flag c) 0#32)
        else none) := by
  cases word with
  | nil => exact absurd rfl hne
  | cons c rest =>
      rw [List.forall_mem_cons] at hword
      unfold filter_word
      simp only [bind, Except.bind, hflag c hword.1]
      rw [hash_word_apart hflag hmask rest c _ hword.1 hword.2, List.foldl_cons, BitVec.zero_or]

/-- All fields: those that are kept, in their order, with the bits of their
letters. -/
theorem filter_fields_apart
    (hflag : ∀ c, IsLower c → bit_flag oversized c compressionIndex = .ok (flag c))
    (hmask : ∀ c, IsLower c → charFilterMasks[idx c]? = some (mask c))
    (fields : List (List UInt8)) :
    ∀ out : words_data, (∀ field ∈ fields, ∀ c ∈ field, IsLower c) →
      filter_fields oversized compressionIndex charFilterMasks fields out =
        .ok { words := out.words ++ fields.filter (fun w => w ≠ [] ∧ Apart mask w),
              wordHashes := out.wordHashes ++
                (fields.filter fun w => w ≠ [] ∧ Apart mask w).map
                  fun w => w.foldl (fun hash c => hash ||| flag c) 0#32 } := by
  induction fields with
  | nil =>
      intro out _
      simp [filter_fields]
  | cons field fields ih =>
      intro out hlower
      rw [List.forall_mem_cons] at hlower
      unfold filter_fields
      by_cases hne : field = []
      · subst hne
        exact (ih out hlower.2).trans (by simp)
      · rw [filter_word_apart hflag hmask hlower.1 hne]
        simp only [bind, Except.bind]
        by_cases hapart : Apart mask field
        · rw [if_pos hapart]
          simp only [pure, Except.pure]
          rw [ih _ hlower.2]
          simp [hne, hapart]
        · rw [if_neg hapart]
          simp only [pure, Except.pure]
          rw [ih _ hlower.2]
          simp [hapart]

end Filter

/-! ## The same table on the letters of the words -/

section Congr

variable {compressionIndex compressionIndex' : compression_index_t} {words : List (List UInt8)}
  {word_hashes : List char_mask_t}

theorem bit_flag_congr {oversized : Nat → Except Fault char_mask_t} {c : UInt8}
    (h : compressionIndex[idx c]? = compressionIndex'[idx c]?) :
    bit_flag oversized c compressionIndex = bit_flag oversized c compressionIndex' := by
  unfold bit_flag read
  rw [h]

theorem node_at_congr {c : UInt8} (h : compressionIndex[idx c]? = compressionIndex'[idx c]?) :
    node_at compressionIndex c = node_at compressionIndex' c := by
  unfold node_at read
  rw [h]

theorem mem_of_read {w : List UInt8} {i : Nat} {c : UInt8} (h : read .word w i = .ok c) : c ∈ w := by
  unfold read at h
  cases hget : w[i]? with
  | none =>
      rw [hget] at h
      cases h
  | some d =>
      rw [hget] at h
      cases h
      exact List.mem_of_getElem? hget

theorem insert_word_congr {w : List UInt8}
    (h : ∀ c ∈ w, compressionIndex[idx c]? = compressionIndex'[idx c]?) (nodes : nodes_t) (i : Nat) :
    insert_word compressionIndex word_hashes nodes w i =
      insert_word compressionIndex' word_hashes nodes w i := by
  unfold insert_word
  cases hback : read .word w (size_sub w.length 1) with
  | error fault => rfl
  | ok back =>
      cases hfront : read .word w 0 with
      | error fault =>
          simp only [bind, Except.bind, node_at_congr (h back (mem_of_read hback))]
      | ok front =>
          simp only [bind, Except.bind, node_at_congr (h back (mem_of_read hback)),
            node_at_congr (h front (mem_of_read hfront))]

/-- The graph is built from the entries of the letters in the words. -/
theorem build_graph_congr
    (h : ∀ w ∈ words, ∀ c ∈ w, compressionIndex[idx c]? = compressionIndex'[idx c]?) :
    build_graph compressionIndex words word_hashes init_nodes =
      build_graph compressionIndex' words word_hashes init_nodes := by
  unfold build_graph
  have hturns : ∀ x ∈ words.zipIdx, ∀ nodes,
      insert_word compressionIndex word_hashes nodes x.1 x.2 =
        insert_word compressionIndex' word_hashes nodes x.1 x.2 := by
    intro x hx nodes
    exact insert_word_congr (h x.1 (List.fst_mem_of_mem_zipIdx hx)) nodes x.2
  generalize words.zipIdx = turns at hturns
  generalize init_nodes = nodes
  induction turns generalizing nodes with
  | nil => rfl
  | cons x turns ih =>
      rw [List.forall_mem_cons] at hturns
      obtain ⟨w, j⟩ := x
      rw [List.foldlM_cons, List.foldlM_cons]
      dsimp only at hturns ⊢
      rw [hturns.1]
      exact congrArg _ (funext fun nodes => ih hturns.2 nodes)

theorem solve_congr (cfg : Settings)
    (h : ∀ w ∈ words, ∀ c ∈ w, compressionIndex[idx c]? = compressionIndex'[idx c]?) :
    solve cfg compressionIndex words word_hashes = solve cfg compressionIndex' words word_hashes := by
  unfold solve
  rw [build_graph_congr h]

end Congr

/-! ## Lower-case letters -/

section Lower

variable {characters : List UInt8} {box : Box}

/-- The mask of a letter in the filter: that of the box if it comes. -/
def mask_entry (box : Box) (characters : List UInt8) (c : UInt8) : char_mask_t :=
  if c ∈ characters then box.filter_mask c else INVALID_CHAR_FLAG

/-- Its bit in a hash. -/
def flag_entry (box : Box) (characters : List UInt8) (junk : char_mask_t) (c : UInt8) :
    char_mask_t :=
  if c ∈ characters then box.flag junk c else junk

theorem char_filter_mask_entry_of (c : UInt8) :
    char_filter_mask (entry_of box characters c) = .ok (mask_entry box characters c) := by
  unfold entry_of mask_entry
  by_cases hc : c ∈ characters
  · rw [if_pos hc, if_pos hc]
    exact char_filter_mask_entry c
  · rw [if_neg hc, if_neg hc]
    rfl

theorem bit_flag_entry_of {compressionIndex : compression_index_t}
    (hentry : ∀ c, IsLower c → compressionIndex[idx c]? = some (entry_of box characters c))
    (junk : Nat → char_mask_t) {c : UInt8} (hc : IsLower c) :
    bit_flag (lenient junk) c compressionIndex =
      .ok (flag_entry box characters (junk INVALID_CHAR_FLAG.toNat) c) := by
  have hread := hentry c hc
  unfold entry_of at hread
  unfold flag_entry
  by_cases hmem : c ∈ characters
  · obtain ⟨compressionIndex', _, hindex⟩ := gen_compression_index_box box
    rw [if_pos hmem] at hread ⊢
    rw [bit_flag_congr (hread.trans (hindex.entry c hc).symm), bit_flag_eq hindex junk hc]
  · rw [if_neg hmem] at hread ⊢
    unfold bit_flag
    rw [read_getElem hread]
    rfl

/-- The invalid flag overlaps with every mask. -/
theorem mask_entry_invalid (c : UInt8) :
    INVALID_CHAR_FLAG &&& mask_entry box characters c ≠ 0 ∧
      mask_entry box characters c &&& INVALID_CHAR_FLAG ≠ 0 := by
  have hside : ∀ i : Fin BOX_CHARS, INVALID_CHAR_FLAG &&& side_mask i ≠ 0 ∧
      side_mask i &&& INVALID_CHAR_FLAG ≠ 0 := by decide +kernel
  unfold mask_entry Box.filter_mask
  by_cases hc : c ∈ characters
  · rw [if_pos hc]
    cases box.place c with
    | none => decide
    | some i => exact hside i
  · rw [if_neg hc]
    decide

/-- Only letters that come stand apart. -/
theorem mem_of_masks_apart {c d : UInt8}
    (h : mask_entry box characters d &&& mask_entry box characters c = 0) :
    c ∈ characters ∧ d ∈ characters := by
  have hforeign : ∀ {x}, x ∉ characters → mask_entry box characters x = INVALID_CHAR_FLAG :=
    fun hx => if_neg hx
  constructor
  · by_contra hc
    rw [hforeign hc] at h
    exact (mask_entry_invalid d).2 h
  · by_contra hd
    rw [hforeign hd] at h
    exact (mask_entry_invalid c).1 h

/-- So a word that is kept has no other letter, if it is not one alone. -/
theorem letters_of_apart {w : List UInt8} (h : Apart (mask_entry box characters) w)
    (hone : w.length = 1 → ∀ c ∈ w, c ∈ characters) : ∀ c ∈ w, c ∈ characters := by
  induction w with
  | nil => exact fun c hc => absurd hc List.not_mem_nil
  | cons c w ih =>
      cases w with
      | nil => exact hone rfl
      | cons d w =>
          rw [apart_cons_cons] at h
          obtain ⟨hc, hd⟩ := mem_of_masks_apart h.1
          rw [List.forall_mem_cons]
          refine ⟨hc, ih h.2 fun hlen d' hd' => ?_⟩
          -- the last letter stands apart from the one before it
          have hnil : w = [] := List.eq_nil_of_length_eq_zero (by simpa using hlen)
          rw [hnil, List.mem_singleton] at hd'
          exact hd' ▸ hd

theorem foldl_flag_entry {w : List UInt8} (junk : char_mask_t) (hw : ∀ c ∈ w, c ∈ characters)
    (hbox : ∀ c ∈ characters, c ∈ box.characters) :
    w.foldl (fun hash c => hash ||| flag_entry box characters junk c) 0#32 = box.letter_mask w := by
  rw [← Box.filter_hash_eq junk fun c hc => hbox c (hw c hc)]
  unfold Box.filter_hash
  apply List.foldl_ext
  intro hash c hc
  rw [flag_entry, if_pos (hw c hc)]

end Lower

section Nodes

variable {characters : List UInt8} {box : Box} {compressionIndex : compression_index_t}
  (hentry : ∀ c, IsLower c → compressionIndex[idx c]? = some (entry_of box characters c))
include hentry

/-- A letter that does not come has no node. -/
theorem node_at_not_among {c : UInt8} (hc : IsLower c) (hnot : c ∉ characters) :
    node_at compressionIndex c = .error (.outOfRange .nodes INVALID_CHAR_FLAG.toNat) := by
  have hread := hentry c hc
  rw [entry_of, if_neg hnot] at hread
  unfold node_at
  rw [read_getElem hread]
  rfl

theorem node_at_entry (hsubset : ∀ c ∈ characters, c ∈ box.characters) {c : UInt8}
    (hc : IsLower c) :
    (∃ i, node_at compressionIndex c = .ok i) ∨
      node_at compressionIndex c = .error (.outOfRange .nodes INVALID_CHAR_FLAG.toNat) := by
  by_cases hmem : c ∈ characters
  · obtain ⟨compressionIndex', _, hindex⟩ := gen_compression_index_box box
    obtain ⟨i, rfl⟩ := Box.exists_letter (hsubset c hmem)
    have hread := hentry _ hc
    rw [entry_of, if_pos hmem] at hread
    refine .inl ⟨i, ?_⟩
    rw [node_at_congr (hread.trans (hindex.entry _ hc).symm)]
    exact node_at_letter hindex i
  · exact .inr (node_at_not_among hentry hc hmem)

end Nodes

/-- A turn of `build_graph` fails where one of its two nodes does. -/
theorem insert_word_cases {compressionIndex : compression_index_t}
    {word_hashes : List char_mask_t} {nodes : nodes_t} {w : List UInt8} {i : Nat} {fault : Fault}
    (hne : w ≠ []) (hhash : i < word_hashes.length)
    (hnode : ∀ c ∈ w, (∃ p, node_at compressionIndex c = .ok p) ∨
      node_at compressionIndex c = .error fault) :
    (∃ nodes', insert_word compressionIndex word_hashes nodes w i = .ok nodes') ∨
      insert_word compressionIndex word_hashes nodes w i = .error fault := by
  have hpos : 0 < w.length := List.length_pos_iff.mpr hne
  have hread_back : read .word w (size_sub w.length 1) = .ok (w.getLast hne) := by
    apply read_getElem
    rw [size_sub_le hpos, ← List.getLast?_eq_getElem?, List.getLast?_eq_some_getLast hne]
  have hread_front : read .word w 0 = .ok (w.head hne) := by
    apply read_getElem
    rw [← List.head?_eq_getElem?, List.head?_eq_some_head hne]
  have hread_hash : read .wordHashes word_hashes i = .ok word_hashes[i] := read_lt hhash
  unfold insert_word
  rw [hread_back, hread_hash, hread_front]
  rcases hnode _ (List.getLast_mem hne) with ⟨dest, hdest⟩ | hdest
  · rcases hnode _ (List.head_mem hne) with ⟨start, hstart⟩ | hstart
    · refine .inl ⟨entered nodes start dest word_hashes[i] i, ?_⟩
      simp only [bind, Except.bind, hdest, hstart]
      rfl
    · refine .inr ?_
      simp only [bind, Except.bind, hdest, hstart]
  · refine .inr ?_
    simp only [bind, Except.bind, hdest]

/-! ## The stages -/

/-- No field of one letter is another letter. -/
def OneLetterAmong (characters csv : List UInt8) : Prop :=
  ∀ field ∈ fields csv, field.length = 1 → ∀ c ∈ field, c ∈ characters

instance (characters csv : List UInt8) : Decidable (OneLetterAmong characters csv) :=
  inferInstanceAs (Decidable (∀ field ∈ fields csv, _))

section Stages

variable {characters csv : List UInt8} (hsize : characters.length = BOX_CHARS)
  (hlower : ∀ c ∈ characters, IsLower c) (hcsv : LowerCsv csv)

/-- What the filter lets through. -/
def kept_fields (box : Box) (characters csv : List UInt8) : List (List UInt8) :=
  (fields csv).filter fun w => w ≠ [] ∧ Apart (mask_entry box characters) w

/-- The hash it gives. -/
def kept_hash (box : Box) (characters : List UInt8) (junk : char_mask_t) (w : List UInt8) :
    char_mask_t :=
  w.foldl (fun hash c => hash ||| flag_entry box characters junk c) 0#32

theorem mem_kept_fields {box : Box} {w : List UInt8} :
    w ∈ kept_fields box characters csv ↔
      w ∈ fields csv ∧ w ≠ [] ∧ Apart (mask_entry box characters) w := by
  unfold kept_fields
  rw [List.mem_filter, decide_eq_true_eq]

/-- The letters of what is kept come, if it is not one letter alone. -/
theorem letters_of_kept {box : Box} (hone : OneLetterAmong characters csv) {w : List UInt8}
    (hw : w ∈ kept_fields box characters csv) : ∀ c ∈ w, c ∈ characters := by
  obtain ⟨hfield, _, hapart⟩ := mem_kept_fields.mp hw
  exact letters_of_apart hapart (hone w hfield)

include hcsv in
/-- **The filter on any lower-case letters.** -/
theorem filter_and_hash_letters (build : SplitBuild) (junk : Nat → char_mask_t) :
    ∃ compressionIndex wordEnds,
      gen_compression_index characters = .ok compressionIndex ∧
      word_ends build csv 44 3 = .ok wordEnds ∧
      filter_and_hash (lenient junk) compressionIndex csv wordEnds =
        .ok ⟨kept_fields (filled_box characters hsize hlower) characters csv,
          (kept_fields (filled_box characters hsize hlower) characters csv).map
            (kept_hash (filled_box characters hsize hlower) characters
              (junk INVALID_CHAR_FLAG.toNat))⟩ ∧
      ∀ c, IsLower c → compressionIndex[idx c]? =
        some (entry_of (filled_box characters hsize hlower) characters c) := by
  obtain ⟨compressionIndex, hindexed, hlength, hentry⟩ := gen_compression_index_lower hsize hlower
  obtain ⟨charFilterMasks, hmasks, hmask⟩ :=
    gen_char_filter_masks_entries hlength hentry char_filter_mask_entry_of
  have hfilter := filter_fields_apart (fun c => bit_flag_entry_of hentry junk) hmask (fields csv)
    ⟨[], []⟩ hcsv.field
  rw [List.nil_append, List.nil_append] at hfilter
  refine ⟨compressionIndex, _, hindexed, word_ends_eq build csv (by decide) (by decide), ?_, hentry⟩
  rw [filter_and_hash_eq, hmasks]
  exact hfilter

include hsize hlower hcsv

/-- **`solve` returns** if no other letter is a field of its own, and it returns
nothing if a letter is repeated. -/
theorem solve_among (hone : OneLetterAmong characters csv) (build : SplitBuild) (cfg : Settings)
    (junk : Nat → char_mask_t) :
    ∃ compressionIndex wordEnds data sols,
      gen_compression_index characters = .ok compressionIndex ∧
      word_ends build csv 44 3 = .ok wordEnds ∧
      filter_and_hash (lenient junk) compressionIndex csv wordEnds = .ok data ∧
      solve cfg compressionIndex data.words data.wordHashes = some (.ok sols) ∧
      (¬characters.Nodup → sols = []) := by
  obtain ⟨compressionIndex, wordEnds, hindexed, hends, hfilter, hentry⟩ :=
    filter_and_hash_letters hsize hlower hcsv build junk
  have hbox : ∀ c ∈ characters, c ∈ (filled_box characters hsize hlower).characters :=
    subset_fill_repeated characters _
  -- the words are words over the box, with the hashes they have there
  let bw : BoxWords (filled_box characters hsize hlower) :=
    ⟨kept_fields (filled_box characters hsize hlower) characters csv,
      fun w hw => (mem_kept_fields.mp hw).2.1,
      fun w hw c hc => hbox c (letters_of_kept hone hw c hc)⟩
  have hhashes : bw.words.map (kept_hash (filled_box characters hsize hlower) characters
      (junk INVALID_CHAR_FLAG.toNat)) = bw.hashes :=
    List.map_congr_left fun w hw => foldl_flag_entry _ (letters_of_kept hone hw) hbox
  obtain ⟨compressionIndex', _, hindex⟩ :=
    gen_compression_index_box (filled_box characters hsize hlower)
  obtain ⟨sols, hsolve, ⟨hsolved⟩⟩ := exists_solved cfg hindex bw
  -- and on their letters both tables agree
  have hsame : ∀ w ∈ bw.words, ∀ c ∈ w, compressionIndex[idx c]? = compressionIndex'[idx c]? := by
    intro w hw c hc
    have hmem := letters_of_kept hone hw c hc
    rw [hentry c (hlower c hmem), hindex.entry c (hlower c hmem), entry_of, if_pos hmem]
  refine ⟨compressionIndex, wordEnds, _, sols, hindexed, hends, hfilter, ?_, fun hrepeated => ?_⟩
  · dsimp only
    rw [hhashes, solve_congr cfg hsame, hsolve]
  · -- a letter that does not come has to be covered
    obtain ⟨s, hs, hspare⟩ := exists_spare_of_repeated characters (length_le_spare_letters hsize)
      hrepeated
    by_contra hne
    obtain ⟨chain, hcover, _⟩ := hsolved.ne_nil_iff.mp hne
    obtain ⟨w, hw, hmem⟩ := hcover.covered s hs
    exact not_mem_spare_letters characters s (letters_of_kept hone (hcover.mem w hw) s hmem) hspare

/-- **Otherwise it faults**: the field is let through. -/
theorem solve_not_among (hforeign : ¬OneLetterAmong characters csv) (build : SplitBuild)
    (cfg : Settings) (junk : Nat → char_mask_t) :
    ∃ compressionIndex wordEnds data,
      gen_compression_index characters = .ok compressionIndex ∧
      word_ends build csv 44 3 = .ok wordEnds ∧
      filter_and_hash (lenient junk) compressionIndex csv wordEnds = .ok data ∧
      solve cfg compressionIndex data.words data.wordHashes =
        some (.error (.outOfRange .nodes INVALID_CHAR_FLAG.toNat)) := by
  obtain ⟨compressionIndex, wordEnds, hindexed, hends, hfilter, hentry⟩ :=
    filter_and_hash_letters hsize hlower hcsv build junk
  refine ⟨compressionIndex, wordEnds, _, hindexed, hends, hfilter, ?_⟩
  generalize hbox : filled_box characters hsize hlower = box at hentry
  have hsubset : ∀ c ∈ characters, c ∈ box.characters := by
    rw [← hbox]
    exact subset_fill_repeated characters _
  generalize kept_hash box characters (junk INVALID_CHAR_FLAG.toNat) = hash
  have hbuild : build_graph compressionIndex (kept_fields box characters csv)
      ((kept_fields box characters csv).map hash) init_nodes =
        .error (.outOfRange .nodes INVALID_CHAR_FLAG.toNat) := by
    unfold build_graph
    apply foldlM_error
    · rintro ⟨w, i⟩ hmem nodes
      rw [List.mem_zipIdx_iff_getElem?] at hmem
      obtain ⟨hi, hget⟩ := List.getElem?_eq_some_iff.mp hmem
      obtain ⟨hfield, hne, _⟩ := mem_kept_fields.mp (List.mem_of_getElem? hmem)
      apply insert_word_cases hne
      · rw [List.length_map]
        exact hi
      · exact fun c hc => node_at_entry hentry hsubset (hcsv.field w hfield c hc)
    · -- a field that is one other letter
      unfold OneLetterAmong at hforeign
      push Not at hforeign
      obtain ⟨field, hfield, hlen, c, hc, hnot⟩ := hforeign
      obtain ⟨d, rfl⟩ := List.length_eq_one_iff.mp hlen
      rw [List.mem_singleton] at hc
      subst hc
      have hkept : [c] ∈ kept_fields box characters csv :=
        mem_kept_fields.mpr ⟨hfield, List.cons_ne_nil c [], apart_singleton c⟩
      obtain ⟨i, hi⟩ := List.mem_iff_getElem?.mp hkept
      refine ⟨([c], i), List.mem_zipIdx_iff_getElem?.mpr hi, fun nodes => ?_⟩
      have hnode := node_at_not_among hentry (hcsv.field _ hfield c List.mem_cons_self) hnot
      have hread : read .word [c] (size_sub [c].length 1) = .ok c := rfl
      unfold insert_word
      dsimp only
      rw [hread]
      simp only [bind, Except.bind, hnode]
  have hlength : ¬(kept_fields box characters csv).length ≠
      ((kept_fields box characters csv).map hash).length := not_not.mpr (List.length_map _).symm
  unfold solve
  rw [if_neg hlength]
  dsimp only
  rw [run_lift_error hbuild]

end Stages

/-! ## mask_of -/

/-- The mask of characters that all have a place. -/
theorem mask_of_eq {compressionIndex : compression_index_t} {box : Box}
    {oversized : Nat → Except Fault char_mask_t} {w : List UInt8}
    (hw : ∀ c ∈ w, ∃ i, box.letter i = c ∧ bit_flag oversized c compressionIndex =
      .ok (1#32 <<< i.val)) :
    mask_of oversized w compressionIndex = .ok (box.letter_mask w) := by
  have hloop : ∀ mask, w.foldlM
      (fun out c => do return out ||| (← bit_flag oversized c compressionIndex)) mask =
        .ok (w.foldl (fun mask c => mask ||| (box.place c).elim 0#32 fun i => 1#32 <<< i.val)
          mask) := by
    induction w with
    | nil => exact fun _ => rfl
    | cons c w ih =>
        intro mask
        rw [List.forall_mem_cons] at hw
        obtain ⟨⟨i, rfl, hflag⟩, hrest⟩ := hw
        rw [List.foldlM_cons, List.foldl_cons, hflag, Box.place_letter, Option.elim_some]
        exact ih hrest _
  exact hloop 0#32

/-- **`mask_of` tells a box from other letters.** Twelve lower-case letters have
all bits of a solution under the index that is made of them, if and only if no
letter comes twice. No shift is oversized. -/
theorem mask_of_full_iff {characters : List UInt8} (hsize : characters.length = BOX_CHARS)
    (hlower : ∀ c ∈ characters, IsLower c) (oversized : Nat → Except Fault char_mask_t) :
    ∃ compressionIndex mask, gen_compression_index characters = .ok compressionIndex ∧
      mask_of oversized characters compressionIndex = .ok mask ∧
      (mask = solution_mask ↔ characters.Nodup) := by
  obtain ⟨compressionIndex, hindexed, _, hentry⟩ := gen_compression_index_lower hsize hlower
  generalize hbox : filled_box characters hsize hlower = box at hentry
  have hcharacters : box.characters = fill_repeated characters (spare_letters characters) := by
    rw [← hbox]
    rfl
  obtain ⟨compressionIndex', _, hindex⟩ := gen_compression_index_box box
  have hflags : ∀ c ∈ characters, ∃ i, box.letter i = c ∧
      bit_flag oversized c compressionIndex = .ok (1#32 <<< i.val) := by
    intro c hc
    obtain ⟨i, hi⟩ := Box.exists_letter
      (show c ∈ box.characters from hcharacters ▸ subset_fill_repeated characters _ c hc)
    refine ⟨i, hi, ?_⟩
    have hread := hentry c (hlower c hc)
    rw [entry_of, if_pos hc] at hread
    rw [bit_flag_congr (hread.trans (hindex.entry c (hlower c hc)).symm), ← hi]
    exact bit_flag_letter hindex oversized i
  refine ⟨compressionIndex, _, hindexed, mask_of_eq hflags, ?_⟩
  rw [eq_solution_mask_iff (Box.letter_mask_lt characters)]
  simp only [Box.getLsbD_letter_mask]
  constructor
  · intro hall
    by_contra hrepeated
    -- a spare letter of the box has no bit
    obtain ⟨s, hs, hspare⟩ := exists_spare_of_repeated characters (length_le_spare_letters hsize)
      hrepeated
    obtain ⟨i, rfl⟩ := Box.exists_letter (hcharacters ▸ hs : s ∈ box.characters)
    exact not_mem_spare_letters characters _ (hall i) hspare
  · intro hnodup i
    have hmem : box.letter i ∈ box.characters := Box.letter_mem i
    rwa [hcharacters, fill_repeated_of_nodup characters _ hnodup] at hmem

theorem mask_of_full_iff_repeated :
    ((text "abcabcdefghi").length = BOX_CHARS ∧ ∀ c ∈ text "abcabcdefghi", IsLower c) ∧
      ∃ compressionIndex mask,
        gen_compression_index (text "abcabcdefghi") = .ok compressionIndex ∧
        mask_of undefined_shift (text "abcabcdefghi") compressionIndex = .ok mask ∧
        (mask = solution_mask ↔ (text "abcabcdefghi").Nodup) := by
  have hsize : (text "abcabcdefghi").length = BOX_CHARS := by decide +kernel
  have hlower : ∀ c ∈ text "abcabcdefghi", IsLower c := by decide +kernel
  exact ⟨⟨hsize, hlower⟩, mask_of_full_iff hsize hlower undefined_shift⟩

/-! ## The runner -/

/-- The index of letters that are not all lower-case is written out of range. -/
theorem gen_compression_index_out_of_range {characters : List UInt8}
    (hsize : characters.length = BOX_CHARS) (hnot : ¬∀ c ∈ characters, IsLower c) :
    ∃ k, gen_compression_index characters = .error (.outOfRange .compressionIndex k) := by
  have hloop : ∀ (characters : List UInt8) (n : Nat) (table : compression_index_t),
      table.length = CHARACTERS → (¬∀ c ∈ characters, IsLower c) →
      ∃ k, (characters.zipIdx n).foldlM
        (fun compressionIndex (c, i) =>
          write .compressionIndex compressionIndex (idx c) (BitVec.ofNat 32 i)) table =
        .error (.outOfRange .compressionIndex k) := by
    intro characters
    induction characters with
    | nil => exact fun _ _ _ hnot => absurd (fun c hc => absurd hc List.not_mem_nil) hnot
    | cons d rest ih =>
        intro n table hlength hnot
        rw [List.zipIdx_cons, List.foldlM_cons]
        dsimp only
        by_cases hd : IsLower d
        · have hidx : idx d < table.length := hlength ▸ idx_lt_iff.mpr hd
          rw [write_lt hidx]
          refine ih (n + 1) _ ((List.length_set).trans hlength) fun hrest => hnot ?_
          rw [List.forall_mem_cons]
          exact ⟨hd, hrest⟩
        · -- this letter is the first without an entry
          have hidx : ¬idx d < table.length := fun hlt => hd (idx_lt_iff.mp (hlength ▸ hlt))
          unfold write
          rw [if_neg hidx]
          exact ⟨idx d, rfl⟩
  unfold gen_compression_index
  rw [if_neg (not_not.mpr hsize)]
  exact hloop characters 0 _ List.length_replicate hnot

section Runner

variable {build : SplitBuild} {cfg : Settings} {junk : Nat → char_mask_t} {csv input : List UInt8}
  {i : Nat}

/-- The first sides are at one place. -/
theorem FirstSides.unique {ts : List (List UInt8)} {j : Nat} (h : FirstSides ts i)
    (h' : FirstSides ts j) : i = j := by
  rcases Nat.lt_trichotomy i j with hlt | heq | hlt
  · exact absurd h.sides (h'.first i hlt)
  · exact heq
  · exact absurd h'.sides (h.first j hlt)

/-- The runner behind `read_sides`. -/
theorem runner_main_eq (hfirst : FirstSides (tokens input) i)
    (oversized : Nat → Except Fault char_mask_t) :
    runner_main cfg oversized build csv input = (do
      let printed ← solve_manual cfg oversized build csv (characters_at (tokens input) i)
      return printed ++ println [] ++ text "Press Enter to continue . . .") := by
  obtain ⟨rest, hread, _⟩ := read_sides_first i input hfirst
  unfold runner_main
  rw [run_bind_ok hread]

/-- `solve_manual` when the stages return. -/
theorem solve_manual_returns {characters : List UInt8}
    {oversized : Nat → Except Fault char_mask_t} {compressionIndex : compression_index_t}
    {wordEnds : List Nat} {data : words_data}
    (hindexed : gen_compression_index characters = .ok compressionIndex)
    (hends : word_ends build csv 44 3 = .ok wordEnds)
    (hfilter : filter_and_hash oversized compressionIndex csv wordEnds = .ok data) :
    solve_manual cfg oversized build csv characters = (do
      let solutions ← solve cfg compressionIndex data.words data.wordHashes
      return print_lines solutions) := by
  unfold solve_manual print_solutions
  rw [run_lift_ok hends, run_lift_ok hindexed, run_lift_ok hfilter]

/-- Lower-case letters and no other letter alone: the runner returns, and prints
that there is no solution if a letter is repeated. -/
theorem runner_returns (hcsv : LowerCsv csv) (hfirst : FirstSides (tokens input) i)
    (hlower : ∀ c ∈ characters_at (tokens input) i, IsLower c)
    (hone : OneLetterAmong (characters_at (tokens input) i) csv) :
    ∃ sols, runner_main cfg (lenient junk) build csv input =
        some (.ok (print_lines sols ++ println [] ++ text "Press Enter to continue . . .")) ∧
      (¬(characters_at (tokens input) i).Nodup → sols = []) := by
  obtain ⟨compressionIndex, wordEnds, data, sols, hindexed, hends, hfilter, hsolve, hnone⟩ :=
    solve_among hfirst.sides.length_eq hlower hcsv hone build cfg junk
  refine ⟨sols, ?_, hnone⟩
  rw [runner_main_eq hfirst, solve_manual_returns hindexed hends hfilter, run_bind_ok hsolve]
  rfl

/-- Anything else ends it in an access out of range. -/
theorem runner_faults (hcsv : LowerCsv csv) (hfirst : FirstSides (tokens input) i)
    (hbad : ¬((∀ c ∈ characters_at (tokens input) i, IsLower c) ∧
      OneLetterAmong (characters_at (tokens input) i) csv)) :
    ∃ container k, runner_main cfg (lenient junk) build csv input =
      some (.error (.outOfRange container k)) := by
  by_cases hlower : ∀ c ∈ characters_at (tokens input) i, IsLower c
  · have hforeign : ¬OneLetterAmong (characters_at (tokens input) i) csv :=
      fun hone => hbad ⟨hlower, hone⟩
    obtain ⟨compressionIndex, wordEnds, data, hindexed, hends, hfilter, hsolve⟩ :=
      solve_not_among hfirst.sides.length_eq hlower hcsv hforeign build cfg junk
    refine ⟨.nodes, INVALID_CHAR_FLAG.toNat, ?_⟩
    rw [runner_main_eq hfirst, solve_manual_returns hindexed hends hfilter, hsolve]
    rfl
  · -- the index is written out of range
    obtain ⟨wordEnds, hends⟩ : ∃ wordEnds, word_ends build csv 44 3 = .ok wordEnds :=
      ⟨_, word_ends_eq build csv (by decide) (by decide)⟩
    obtain ⟨k, hindexed⟩ := gen_compression_index_out_of_range hfirst.sides.length_eq hlower
    refine ⟨.compressionIndex, k, ?_⟩
    rw [runner_main_eq hfirst]
    unfold solve_manual print_solutions
    rw [run_lift_ok hends, run_lift_error hindexed]
    rfl

/-- Without four sides it does not end. -/
theorem runner_main_eq_none (oversized : Nat → Except Fault char_mask_t)
    (hnone : ¬∃ i, FirstSides (tokens input) i) :
    runner_main cfg oversized build csv input = none := by
  have hsides : ∀ i, ¬SidesAt (tokens input) i := by
    intro i hi
    exact hnone (exists_firstSides ⟨i, hi⟩)
  unfold runner_main
  rw [read_sides_eq_none hsides]
  rfl

end Runner

/-- **When the runner returns.** With a lower-case word list it never ends if and
only if the input has no four consecutive sides. Otherwise the first four decide:
it returns if they are lower-case letters and no field of the word list is one
other letter, and else it ends in an access out of range. -/
theorem runner_ends_iff (build : SplitBuild) (cfg : Settings) (junk : Nat → char_mask_t)
    (csv input : List UInt8) (hcsv : LowerCsv csv) :
    (runner_main cfg (lenient junk) build csv input = none ↔
        ¬∃ i, FirstSides (tokens input) i) ∧
      ((∃ output, runner_main cfg (lenient junk) build csv input = some (.ok output)) ↔
        ∃ i, FirstSides (tokens input) i ∧
          (∀ c ∈ characters_at (tokens input) i, IsLower c) ∧
          OneLetterAmong (characters_at (tokens input) i) csv) ∧
      ((∃ container k, runner_main cfg (lenient junk) build csv input =
          some (.error (.outOfRange container k))) ↔
        ∃ i, FirstSides (tokens input) i ∧
          ¬((∀ c ∈ characters_at (tokens input) i, IsLower c) ∧
            OneLetterAmong (characters_at (tokens input) i) csv)) := by
  by_cases hsides : ∃ i, FirstSides (tokens input) i
  · obtain ⟨i, hfirst⟩ := hsides
    by_cases hgood : (∀ c ∈ characters_at (tokens input) i, IsLower c) ∧
        OneLetterAmong (characters_at (tokens input) i) csv
    · obtain ⟨sols, hreturns, _⟩ := runner_returns hcsv hfirst hgood.1 hgood.2
      rw [hreturns]
      refine ⟨⟨nofun, fun hnone => absurd ⟨i, hfirst⟩ hnone⟩, ⟨fun _ => ⟨i, hfirst, hgood⟩,
        fun _ => ⟨_, rfl⟩⟩, ⟨nofun, ?_⟩⟩
      rintro ⟨j, hfirst', hbad⟩
      rw [hfirst'.unique hfirst] at hbad
      exact absurd hgood hbad
    · obtain ⟨container, k, hfaults⟩ := runner_faults hcsv hfirst hgood
      rw [hfaults]
      refine ⟨⟨nofun, fun hnone => absurd ⟨i, hfirst⟩ hnone⟩, ⟨nofun, ?_⟩,
        ⟨fun _ => ⟨i, hfirst, hgood⟩, fun _ => ⟨container, k, rfl⟩⟩⟩
      rintro ⟨j, hfirst', hgood'⟩
      rw [hfirst'.unique hfirst] at hgood'
      exact absurd hgood' hgood
  · rw [runner_main_eq_none _ hsides]
    refine ⟨⟨fun _ => hsides, fun _ => rfl⟩, ⟨nofun, ?_⟩, ⟨nofun, ?_⟩⟩
    · rintro ⟨i, hfirst, _⟩
      exact absurd ⟨i, hfirst⟩ hsides
    · rintro ⟨i, hfirst, _⟩
      exact absurd ⟨i, hfirst⟩ hsides

/-- Three inputs: without sides, with those of the first box, and with sides that
are not lower-case. -/
theorem runner_ends_iff_three_inputs : LowerCsv linked_words ∧
    runner_main settings (lenient fun _ => 0#32) .simd linked_words (text "abc") = none ∧
    (∃ output, runner_main settings (lenient fun _ => 0#32) .simd linked_words
      (text "abc def ghi jkl") = some (.ok output)) ∧
    ∃ container k, runner_main settings (lenient fun _ => 0#32) .simd linked_words
      (text "abc def ghi JKL") = some (.error (.outOfRange container k)) := by
  have hcsv : LowerCsv linked_words := by decide +kernel
  have hnever : ¬∃ i, FirstSides (tokens (text "abc")) i := by
    rintro ⟨i, hfirst⟩
    have hlen : SIDES ≤ ((tokens (text "abc")).drop i).length := hfirst.sides.1
    have hone : (tokens (text "abc")).length = 1 := by decide +kernel
    rw [List.length_drop, hone] at hlen
    exact absurd hlen (by unfold SIDES; omega)
  have hfirst : FirstSides (tokens (text "abc def ghi jkl")) 0 := ⟨by decide +kernel, by simp⟩
  have hfirst' : FirstSides (tokens (text "abc def ghi JKL")) 0 := ⟨by decide +kernel, by simp⟩
  refine ⟨hcsv, ?_, ?_, ?_⟩
  · exact (runner_ends_iff .simd settings (fun _ => 0#32) linked_words _ hcsv).1.mpr hnever
  · exact (runner_ends_iff .simd settings (fun _ => 0#32) linked_words _ hcsv).2.1.mpr
      ⟨0, hfirst, by decide +kernel, by decide +kernel⟩
  · exact (runner_ends_iff .simd settings (fun _ => 0#32) linked_words _ hcsv).2.2.mpr
      ⟨0, hfirst', by decide +kernel⟩

/-- **The runner finds nothing for a repeated letter.** If the first four sides
of the input are lower-case letters of which two are equal, the runner ends and
prints that there is no solution, whatever the words are. -/
theorem repeated_letter_unsolved (build : SplitBuild) (cfg : Settings) (junk : Nat → char_mask_t)
    (csv input : List UInt8) (hcsv : LowerCsv csv) (i : Nat) (hfirst : FirstSides (tokens input) i)
    (hlower : ∀ c ∈ characters_at (tokens input) i, IsLower c)
    (hrepeated : ¬(characters_at (tokens input) i).Nodup)
    (hone : OneLetterAmong (characters_at (tokens input) i) csv) :
    runner_main cfg (lenient junk) build csv input = some (.ok
      (println (text "no solution") ++ println [] ++ text "Press Enter to continue . . .")) := by
  obtain ⟨sols, hreturns, hnone⟩ := runner_returns hcsv hfirst hlower hone
  rw [hreturns, hnone hrepeated]
  rfl

/-- The sides `abc abc def ghi`. -/
theorem repeated_letter_unsolved_abc :
    (LowerCsv linked_words ∧ FirstSides (tokens (text "abc abc def ghi")) 0 ∧
      (∀ c ∈ characters_at (tokens (text "abc abc def ghi")) 0, IsLower c) ∧
      ¬(characters_at (tokens (text "abc abc def ghi")) 0).Nodup ∧
      OneLetterAmong (characters_at (tokens (text "abc abc def ghi")) 0) linked_words) ∧
    runner_main settings (lenient fun _ => 0#32) .simd linked_words (text "abc abc def ghi") =
      some (.ok
        (println (text "no solution") ++ println [] ++ text "Press Enter to continue . . .")) := by
  have hcsv : LowerCsv linked_words := by decide +kernel
  have hfirst : FirstSides (tokens (text "abc abc def ghi")) 0 := ⟨by decide +kernel, by simp⟩
  have hlower : ∀ c ∈ characters_at (tokens (text "abc abc def ghi")) 0, IsLower c := by
    decide +kernel
  have hrepeated : ¬(characters_at (tokens (text "abc abc def ghi")) 0).Nodup := by decide +kernel
  have hone : OneLetterAmong (characters_at (tokens (text "abc abc def ghi")) 0) linked_words := by
    decide +kernel
  exact ⟨⟨hcsv, hfirst, hlower, hrepeated, hone⟩,
    repeated_letter_unsolved .simd settings (fun _ => 0#32) linked_words (text "abc abc def ghi")
      hcsv 0 hfirst hlower hrepeated hone⟩

end LetterBoxed
