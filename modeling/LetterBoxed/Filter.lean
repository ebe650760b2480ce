/-
What `filter_and_hash` keeps, and the hashes it gives.

On lower-case letters the filter masks of two neighbours overlap exactly when
one of them is not in the box or both are on one side. So a word is kept when
every two neighbours fit, which for a word of at least two letters says that it
is legal. A word of one letter has no neighbours and is kept whatever the
letter is; the hash of a letter outside the box is what the oversized shift by
its table entry happens to give.
-/
import LetterBoxed.Fields
import LetterBoxed.GraphBuild

set_option autoImplicit false

namespace LetterBoxed

variable {box : Box} {compressionIndex : compression_index_t}

/-! ## Filter masks -/

/-- The mask of the side of a place. -/
def side_mask (i : Fin BOX_CHARS) : char_mask_t :=
  DEFAULT_SIDE_MASK <<< (CHARS_PER_SIDE * (i.val / CHARS_PER_SIDE))

/-- The filter mask of a letter: its side, or everything. -/
def Box.filter_mask (box : Box) (c : UInt8) : char_mask_t :=
  (box.place c).elim INVALID_CHAR_FLAG side_mask

theorem char_filter_mask_place (i : Fin BOX_CHARS) :
    char_filter_mask (BitVec.ofNat 32 i) = .ok (side_mask i) := by
  revert i
  decide +kernel

theorem char_filter_mask_entry (c : UInt8) :
    char_filter_mask (box.index_entry c) = .ok (box.filter_mask c) := by
  unfold Box.index_entry Box.filter_mask
  cases box.place c with
  | none => rfl
  | some i => exact char_filter_mask_place i

/-- The letter of a table index. -/
theorem exists_lower_of_lt {k : Nat} (hk : k < CHARACTERS) : ∃ c, IsLower c ∧ idx c = k := by
  have hchars : CHARACTERS = 26 := rfl
  have hval : (UInt8.ofNat (97 + k)).toNat = 97 + k := by
    rw [UInt8.toNat_ofNat_of_lt']
    rw [UInt8.size]
    omega
  have hlower : IsLower (UInt8.ofNat (97 + k)) := by
    rw [isLower_iff, hval]
    omega
  refine ⟨_, hlower, ?_⟩
  rw [idx_lower hlower, hval]
  omega

/-- **The filter masks of a box.** -/
theorem gen_char_filter_masks_box (hindex : IndexOf box compressionIndex) :
    ∃ charFilterMasks, gen_char_filter_masks compressionIndex = .ok charFilterMasks ∧
      charFilterMasks.length = CHARACTERS ∧
      ∀ c, IsLower c → charFilterMasks[idx c]? = some (box.filter_mask c) := by
  have hentries : ∀ entry ∈ compressionIndex, ∃ mask, char_filter_mask entry = .ok mask ∧
      char_filter_mask entry = .ok mask := by
    intro entry hentry
    obtain ⟨k, hk, rfl⟩ := List.getElem_of_mem hentry
    obtain ⟨c, hc, rfl⟩ := exists_lower_of_lt (hindex.length_eq ▸ hk)
    have hget := hindex.entry c hc
    rw [List.getElem?_eq_getElem hk, Option.some.injEq] at hget
    rw [hget]
    exact ⟨_, char_filter_mask_entry c, char_filter_mask_entry c⟩
  obtain ⟨charFilterMasks, hrun, hpairs⟩ := exists_mapM hentries
  refine ⟨charFilterMasks, hrun, hpairs.length_eq ▸ hindex.length_eq, fun c hc => ?_⟩
  -- the mask of a letter is at the index of its entry
  have hidx : idx c < compressionIndex.length := by
    rw [hindex.length_eq]
    exact idx_lt_iff.mpr hc
  have hidx' : idx c < charFilterMasks.length := hpairs.length_eq ▸ hidx
  have hpair := hpairs.get hidx hidx'
  have hentry := hindex.entry c hc
  rw [List.getElem?_eq_getElem hidx, Option.some.injEq] at hentry
  rw [List.get_eq_getElem, hentry, char_filter_mask_entry, Except.ok.injEq] at hpair
  rw [List.getElem?_eq_getElem hidx', hpair, List.get_eq_getElem]

/-- Two letters that may stand next to each other. -/
def Box.Fits (box : Box) (c d : UInt8) : Prop :=
  c ∈ box.characters ∧ d ∈ box.characters ∧ box.side c ≠ box.side d

instance (c d : UInt8) : Decidable (box.Fits c d) := inferInstanceAs (Decidable (_ ∧ _ ∧ _))

theorem side_mask_overlap : ∀ i j : Fin BOX_CHARS,
    side_mask i &&& side_mask j ≠ 0 ↔ i.val / CHARS_PER_SIDE = j.val / CHARS_PER_SIDE := by
  decide +kernel

/-- **Masks overlap exactly when the letters do not fit.** -/
theorem filter_mask_overlap (c d : UInt8) :
    box.filter_mask d &&& box.filter_mask c ≠ 0 ↔ ¬box.Fits c d := by
  have hinvalid : ∀ i : Fin BOX_CHARS, INVALID_CHAR_FLAG &&& side_mask i ≠ 0 ∧
      side_mask i &&& INVALID_CHAR_FLAG ≠ 0 := by decide +kernel
  unfold Box.filter_mask Box.Fits
  cases hc : box.place c with
  | none =>
      -- the invalid flag overlaps with every mask
      rw [Box.place_eq_none] at hc
      simp only [hc, false_and, not_false_eq_true, iff_true]
      cases box.place d with
      | none => decide
      | some j => exact (hinvalid j).2
  | some i =>
      cases hd : box.place d with
      | none =>
          rw [Box.place_eq_none] at hd
          simp only [hd, false_and, and_false, not_false_eq_true, iff_true]
          exact (hinvalid i).1
      | some j =>
          rw [Box.place_eq_some] at hc hd
          subst hc hd
          rw [Option.elim_some, Option.elim_some, side_mask_overlap, Box.side_letter,
            Box.side_letter]
          simp only [Box.letter_mem, true_and, not_not]
          exact eq_comm

/-! ## One word -/

/-- The bit of a letter in a hash: that of its place, or `junk`. -/
def Box.flag (box : Box) (junk : char_mask_t) (c : UInt8) : char_mask_t :=
  (box.place c).elim junk fun i => 1#32 <<< i.val

/-- An oversized shift that gives some mask. -/
def lenient (junk : Nat → char_mask_t) : Nat → Except Fault char_mask_t :=
  fun amount => .ok (junk amount)

section BitFlag

variable (hindex : IndexOf box compressionIndex) (oversized : Nat → Except Fault char_mask_t)
  {c : UInt8}
include hindex

/-- The bit of a letter of the box is that of its place. -/
theorem bit_flag_letter (i : Fin BOX_CHARS) :
    bit_flag oversized (box.letter i) compressionIndex = .ok (1#32 <<< i.val) := by
  have hi : i.val < 32 := Nat.lt_trans i.isLt (by decide)
  have hval : (BitVec.ofNat 32 i.val).toNat = i.val := by
    rw [BitVec.toNat_ofNat]
    exact Nat.mod_eq_of_lt (by omega)
  unfold bit_flag
  rw [read_getElem (hindex.entry _ (Box.letter_lower i)), Box.index_entry, Box.place_letter]
  simp only [bind, Except.bind, Option.elim_some, hval]
  exact shift_left_lt _ hi

/-- A letter outside the box is a shift by the invalid flag. -/
theorem bit_flag_foreign (hc : IsLower c) (hforeign : c ∉ box.characters) :
    bit_flag oversized c compressionIndex = oversized INVALID_CHAR_FLAG.toNat := by
  unfold bit_flag
  rw [read_getElem (hindex.entry c hc), Box.index_entry, Box.place_eq_none.mpr hforeign]
  rfl

/-- A byte that is no letter is no index of the table. -/
theorem bit_flag_not_lower (hc : ¬IsLower c) :
    bit_flag oversized c compressionIndex = .error (.outOfRange .compressionIndex (idx c)) := by
  have hge : compressionIndex.length ≤ idx c := by
    rw [hindex.length_eq, ← Nat.not_lt, idx_lt_iff]
    exact hc
  unfold bit_flag
  rw [read_ge hge]
  rfl

end BitFlag

theorem bit_flag_eq (hindex : IndexOf box compressionIndex) (junk : Nat → char_mask_t) {c : UInt8}
    (hc : IsLower c) :
    bit_flag (lenient junk) c compressionIndex =
      .ok (box.flag (junk INVALID_CHAR_FLAG.toNat) c) := by
  by_cases hmem : c ∈ box.characters
  · obtain ⟨i, rfl⟩ := Box.exists_letter hmem
    rw [bit_flag_letter hindex, Box.flag, Box.place_letter, Option.elim_some]
  · rw [bit_flag_foreign hindex _ hc hmem, Box.flag, Box.place_eq_none.mpr hmem]
    rfl

section Word

variable {charFilterMasks : List char_mask_t} (junk : Nat → char_mask_t)

/-- The loop over the letters of a word: all letters are added to the hash, and
the word is rejected at the first two neighbours that do not fit. -/
theorem hash_word_eq (hindex : IndexOf box compressionIndex)
    (hmasks : ∀ c, IsLower c → charFilterMasks[idx c]? = some (box.filter_mask c))
    (rest : List UInt8) :
    ∀ (prev : UInt8) (wordHash : char_mask_t), IsLower prev → (∀ c ∈ rest, IsLower c) →
      hash_word (lenient junk) compressionIndex charFilterMasks prev rest wordHash =
        .ok (if (prev :: rest).IsChain box.Fits then
          some (rest.foldl (fun mask c => mask ||| box.flag (junk INVALID_CHAR_FLAG.toNat) c) wordHash)
        else none) := by
  induction rest with
  | nil =>
      intro prev wordHash _ _
      rw [if_pos (List.isChain_singleton prev)]
      rfl
  | cons c rest ih =>
      intro prev wordHash hprev hrest
      rw [List.forall_mem_cons] at hrest
      unfold hash_word
      rw [read_getElem (hmasks c hrest.1), read_getElem (hmasks prev hprev)]
      simp only [bind, Except.bind, bit_flag_eq hindex junk hrest.1]
      by_cases hfits : box.Fits prev c
      · have hoverlap : ¬box.filter_mask c &&& box.filter_mask prev ≠ 0 := by
          rw [filter_mask_overlap]
          exact not_not.mpr hfits
        rw [if_neg hoverlap]
        simp only [List.isChain_cons_cons, hfits, true_and]
        rw [ih c _ hrest.1 hrest.2, List.foldl_cons]
      · -- `break`: the hash is dropped with the word
        rw [if_pos ((filter_mask_overlap prev c).mpr hfits)]
        simp only [List.isChain_cons_cons, hfits, false_and, if_false]
        rfl

/-- What the filter keeps: neighbours fit. -/
def Box.Keeps (box : Box) (w : List UInt8) : Prop := w ≠ [] ∧ w.IsChain box.Fits

instance (w : List UInt8) : Decidable (box.Keeps w) := inferInstanceAs (Decidable (_ ∧ _))

/-- The hash of a word that is kept. -/
def Box.filter_hash (box : Box) (junk : char_mask_t) (w : List UInt8) : char_mask_t :=
  w.foldl (fun mask c => mask ||| box.flag junk c) 0#32

/-- **One field.** -/
theorem filter_word_eq (hindex : IndexOf box compressionIndex)
    (hmasks : ∀ c, IsLower c → charFilterMasks[idx c]? = some (box.filter_mask c))
    {word : List UInt8} (hword : ∀ c ∈ word, IsLower c) :
    filter_word (lenient junk) compressionIndex charFilterMasks word =
      .ok (if box.Keeps word then some (box.filter_hash (junk INVALID_CHAR_FLAG.toNat) word)
        else none) := by
  cases word with
  | nil => rfl
  | cons c rest =>
      rw [List.forall_mem_cons] at hword
      unfold filter_word
      simp only [bind, Except.bind, bit_flag_eq hindex junk hword.1]
      rw [hash_word_eq junk hindex hmasks rest c _ hword.1 hword.2]
      simp only [Box.Keeps, ne_eq, List.cons_ne_nil, not_false_eq_true, true_and,
        Box.filter_hash, List.foldl_cons, BitVec.zero_or]

/-- **All fields.** -/
theorem filter_fields_eq (hindex : IndexOf box compressionIndex)
    (hmasks : ∀ c, IsLower c → charFilterMasks[idx c]? = some (box.filter_mask c))
    (fields : List (List UInt8)) :
    ∀ out : words_data, (∀ field ∈ fields, ∀ c ∈ field, IsLower c) →
      filter_fields (lenient junk) compressionIndex charFilterMasks fields out =
        .ok { words := out.words ++ fields.filter box.Keeps,
              wordHashes := out.wordHashes ++
                (fields.filter box.Keeps).map (box.filter_hash (junk INVALID_CHAR_FLAG.toNat)) } := by
  induction fields with
  | nil =>
      intro out _
      simp [filter_fields]
  | cons field fields ih =>
      intro out hlower
      rw [List.forall_mem_cons] at hlower
      unfold filter_fields
      rw [filter_word_eq junk hindex hmasks hlower.1]
      simp only [bind, Except.bind]
      by_cases hkeeps : box.Keeps field
      · rw [if_pos hkeeps]
        simp only [pure, Except.pure]
        rw [ih _ hlower.2]
        simp [hkeeps]
      · rw [if_neg hkeeps]
        simp only [pure, Except.pure]
        rw [ih _ hlower.2]
        simp [hkeeps]

end Word

/-! ## Lower-case word lists -/

/-- Only lower-case letters and commas. -/
def LowerCsv (csv : List UInt8) : Prop := ∀ b ∈ csv, IsLower b ∨ b = 44

instance (csv : List UInt8) : Decidable (LowerCsv csv) :=
  inferInstanceAs (Decidable (∀ b ∈ csv, IsLower b ∨ b = 44))

theorem LowerCsv.field {csv : List UInt8} (h : LowerCsv csv) :
    ∀ field ∈ fields csv, ∀ c ∈ field, IsLower c := by
  intro field hfield c hc
  obtain ⟨hmem, hne⟩ := of_mem_field field hfield c hc
  exact (h c hmem).resolve_right hne

/-- What the filter lets through, with the hashes it gives. -/
def Box.filtered (box : Box) (junk : Nat → char_mask_t) (csv : List UInt8) : words_data where
  words := (fields csv).filter box.Keeps
  wordHashes := ((fields csv).filter box.Keeps).map
    (box.filter_hash (junk INVALID_CHAR_FLAG.toNat))

/-- **`filter_and_hash` on a lower-case word list.** -/
theorem filter_and_hash_lower (hindex : IndexOf box compressionIndex) (build : SplitBuild)
    (junk : Nat → char_mask_t) {csv : List UInt8} (hcsv : LowerCsv csv) :
    ∃ wordEnds, word_ends build csv 44 3 = .ok wordEnds ∧
      filter_and_hash (lenient junk) compressionIndex csv wordEnds = .ok (box.filtered junk csv) := by
  obtain ⟨charFilterMasks, hrun, _, hmasks⟩ := gen_char_filter_masks_box hindex
  refine ⟨_, word_ends_eq build csv (by decide) (by decide), ?_⟩
  rw [filter_and_hash_eq, hrun]
  simp only [bind, Except.bind]
  have hfields := filter_fields_eq junk hindex hmasks (fields csv) ⟨[], []⟩ hcsv.field
  rw [List.nil_append, List.nil_append] at hfields
  exact hfields

/-! ## Words without foreign letters -/

/-- No field of one letter lies outside the box. -/
def Box.OneLetterInside (box : Box) (csv : List UInt8) : Prop :=
  ∀ field ∈ fields csv, field.length = 1 → ∀ c ∈ field, c ∈ box.characters

instance (csv : List UInt8) : Decidable (box.OneLetterInside csv) :=
  inferInstanceAs (Decidable (∀ field ∈ fields csv, _))

/-- Neighbours that fit are in the box, so in a longer word every letter is. -/
theorem Box.Keeps.letters {w : List UInt8} (h : box.Keeps w)
    (hone : w.length = 1 → ∀ c ∈ w, c ∈ box.characters) : ∀ c ∈ w, c ∈ box.characters := by
  obtain ⟨hne, hchain⟩ := h
  induction w with
  | nil => exact absurd rfl hne
  | cons c w ih =>
      cases w with
      | nil => exact hone rfl
      | cons d w =>
          rw [List.isChain_cons_cons] at hchain
          obtain ⟨⟨hc, hd, _⟩, hrest⟩ := hchain
          rw [List.forall_mem_cons]
          refine ⟨hc, ih (fun hlen d' hd' => ?_) (List.cons_ne_nil d w) hrest⟩
          -- the last letter is in the box as a neighbour of the one before it
          have hnil : w = [] := List.eq_nil_of_length_eq_zero (by simpa using hlen)
          rw [hnil, List.mem_singleton] at hd'
          exact hd' ▸ hd

/-- **What is kept is what is legal**, where one-letter words are inside. -/
theorem Box.keeps_iff_legal {w : List UInt8}
    (hone : w.length = 1 → ∀ c ∈ w, c ∈ box.characters) : box.Keeps w ↔ box.LegalWord w := by
  constructor
  · intro h
    exact ⟨h.1, h.letters hone, h.2.imp fun c d hfits => hfits.2.2⟩
  · intro h
    refine ⟨h.ne_nil, (List.IsChain.iff_of_mem_imp fun c d hc hd => ?_).mpr h.sides⟩
    exact ⟨fun hfits => hfits.2.2, fun hsides => ⟨h.letters c hc, h.letters d hd, hsides⟩⟩

/-- The hash of a word over the box is the set of its letters. -/
theorem Box.filter_hash_eq {w : List UInt8} (junk : char_mask_t)
    (hw : ∀ c ∈ w, c ∈ box.characters) : box.filter_hash junk w = box.letter_mask w := by
  unfold filter_hash letter_mask
  apply List.foldl_ext
  intro mask c hc
  obtain ⟨i, rfl⟩ := exists_letter (hw c hc)
  rw [flag, place_letter, Option.elim_some, Option.elim_some]

/-- A word of at least two letters that is kept is hashed to its letters. -/
theorem Box.Keeps.hash_eq {w : List UInt8} (h : box.Keeps w) (hlong : 2 ≤ w.length)
    (junk : char_mask_t) : box.filter_hash junk w = box.letter_mask w := by
  apply filter_hash_eq
  apply h.letters
  intro hone
  omega

/-- **The filter keeps exactly the legal words**, of those that have at least
two letters, in the order and number in which they are fields of the csv, and
hashes each to the set of its letters. -/
theorem filter_keeps_legal (box : Box) (build : SplitBuild) (junk : Nat → char_mask_t)
    {csv : List UInt8} (hcsv : LowerCsv csv) :
    ∃ compressionIndex wordEnds data,
      gen_compression_index box.characters = .ok compressionIndex ∧
      word_ends build csv 44 3 = .ok wordEnds ∧
      filter_and_hash (lenient junk) compressionIndex csv wordEnds = .ok data ∧
      data.words.filter (2 ≤ ·.length) =
        (fields csv).filter (fun w => 2 ≤ w.length ∧ box.LegalWord w) ∧
      ((∀ field ∈ fields csv, field.length ≠ 1) →
        data.words = (fields csv).filter box.LegalWord) ∧
      data.words.length = data.wordHashes.length ∧
      ∀ (k : Nat) (w : List UInt8) (hash : char_mask_t), data.words[k]? = some w →
        data.wordHashes[k]? = some hash → 2 ≤ w.length →
        hash.toNat < 2 ^ BOX_CHARS ∧
          ∀ i : Fin BOX_CHARS, hash.getLsbD i = true ↔ box.letter i ∈ w := by
  obtain ⟨compressionIndex, hindexed, hindex⟩ := gen_compression_index_box box
  obtain ⟨wordEnds, hends, hfilter⟩ := filter_and_hash_lower hindex build junk hcsv
  refine ⟨compressionIndex, wordEnds, _, hindexed, hends, hfilter, ?_, fun hlong => ?_, ?_, ?_⟩
  · unfold Box.filtered
    rw [List.filter_filter]
    apply List.filter_congr
    intro w _
    -- a word of at least two letters has no foreign letter if its neighbours fit
    by_cases hlong : 2 ≤ w.length
    · have hiff : box.Keeps w ↔ box.LegalWord w := Box.keeps_iff_legal fun hone => by omega
      simp [hlong, hiff]
    · simp [hlong]
  · apply List.filter_congr
    intro w hw
    have hiff : box.Keeps w ↔ box.LegalWord w :=
      Box.keeps_iff_legal fun hone => absurd hone (hlong w hw)
    simp [hiff]
  · simp [Box.filtered]
  · intro k w hash hword hhash hlong
    have hmem := List.mem_of_getElem? hword
    have hkeeps : box.Keeps w := by simpa using List.of_mem_filter hmem
    -- the hashes are those of the words, place by place
    have hmap : (box.filtered junk csv).wordHashes[k]? =
        some (box.filter_hash (junk INVALID_CHAR_FLAG.toNat) w) := by
      have hwords : ((fields csv).filter box.Keeps)[k]? = some w := hword
      rw [Box.filtered, List.getElem?_map, hwords]
      rfl
    rw [hmap, Option.some.injEq, hkeeps.hash_eq hlong] at hhash
    subst hhash
    exact ⟨Box.letter_mask_lt w, fun i => Box.getLsbD_letter_mask i w⟩

theorem filter_keeps_legal_first_box : LowerCsv [97, 100, 44, 97, 98, 44, 97, 122] ∧
    ∃ compressionIndex wordEnds data,
      gen_compression_index first_box.characters = .ok compressionIndex ∧
      word_ends .simd [97, 100, 44, 97, 98, 44, 97, 122] 44 3 = .ok wordEnds ∧
      filter_and_hash (lenient fun _ => 0#32) compressionIndex
        [97, 100, 44, 97, 98, 44, 97, 122] wordEnds = .ok data ∧
      data.words.length = data.wordHashes.length := by
  have hcsv : LowerCsv [97, 100, 44, 97, 98, 44, 97, 122] := by decide +kernel
  obtain ⟨compressionIndex, wordEnds, data, hindexed, hends, hfilter, _, _, hlen, _⟩ :=
    filter_keeps_legal first_box .simd (fun _ => 0#32) hcsv
  exact ⟨hcsv, compressionIndex, wordEnds, data, hindexed, hends, hfilter, hlen⟩

/-- The words that are kept, as words over the box. -/
def Box.kept_words (box : Box) (csv : List UInt8) (hone : box.OneLetterInside csv) :
    BoxWords box where
  words := (fields csv).filter box.Keeps
  ne_nil w hw := by
    have hkeeps := List.of_mem_filter hw
    rw [decide_eq_true_eq] at hkeeps
    exact hkeeps.1
  letters w hw := by
    have hkeeps := List.of_mem_filter hw
    rw [decide_eq_true_eq] at hkeeps
    exact hkeeps.letters (hone w (List.mem_of_mem_filter hw))

section Kept

variable {csv : List UInt8} (hone : box.OneLetterInside csv)

theorem mem_kept_words (w : List UInt8) :
    w ∈ (box.kept_words csv hone).words ↔ w ∈ fields csv ∧ box.LegalWord w := by
  unfold Box.kept_words
  rw [List.mem_filter, decide_eq_true_eq]
  constructor
  · rintro ⟨hfield, hkeeps⟩
    exact ⟨hfield, (Box.keeps_iff_legal (hone w hfield)).mp hkeeps⟩
  · rintro ⟨hfield, hlegal⟩
    exact ⟨hfield, (Box.keeps_iff_legal (hone w hfield)).mpr hlegal⟩

/-- **The filter gives words over the box with their letter-set hashes.** -/
theorem filtered_eq (junk : Nat → char_mask_t) :
    box.filtered junk csv = ⟨(box.kept_words csv hone).words, (box.kept_words csv hone).hashes⟩ := by
  unfold Box.filtered BoxWords.hashes
  congr 1
  apply List.map_congr_left
  intro w hw
  exact Box.filter_hash_eq _ ((box.kept_words csv hone).letters w hw)

end Kept

end LetterBoxed
