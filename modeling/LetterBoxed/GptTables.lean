/-
The tables of `LetterBoxedSolver` for a box and a lower-case word list.

`Laid` is what the loop over the box leaves behind, and `Loaded` adds the
accepted words. The second solver accepts the words that are legal and have at
least three letters, and files each under its first letter.
-/
import LetterBoxed.GptRunner
import LetterBoxed.Filter

set_option autoImplicit false

namespace LetterBoxed

/-! ## Letters of the alphabet -/

section Letters

variable {c : UInt8}

theorem to_lower_eq (h : IsLower c) : to_lower c = c := by
  rw [isLower_iff] at h
  unfold to_lower
  rw [if_neg]
  rw [UInt8.le_iff_toNat_le, UInt8.le_iff_toNat_le]
  rintro ⟨_, hle⟩
  have hz : (90 : UInt8).toNat = 90 := rfl
  omega

/-- The index of a lower-case letter. -/
theorem alphabet_index_lower (h : IsLower c) :
    alphabet_index (to_lower c) = some ⟨idx c, idx_lt_iff.mpr h⟩ := by
  rw [to_lower_eq h, alphabet_index, dif_pos h]

/-- The set of the letters of a word, as bits of the alphabet. -/
def alphabet_mask (w : List UInt8) : BitVec 32 :=
  w.foldl (fun mask c => mask ||| 1#32 <<< idx c) 0#32

theorem getLsbD_foldl_letters {w : List UInt8} (hw : ∀ c ∈ w, IsLower c) (mask : BitVec 32)
    (j : Nat) :
    (w.foldl (fun mask c => mask ||| 1#32 <<< idx c) mask).getLsbD j = true ↔
      mask.getLsbD j = true ∨ ∃ c ∈ w, idx c = j := by
  have hbit : ∀ c ∈ w, (1#32 <<< idx c).getLsbD j = true ↔ idx c = j := by
    intro c hc
    have hlt := idx_lt_iff.mpr (hw c hc)
    have hchars : CHARACTERS = 26 := rfl
    rw [Bits.getLsbD_one_shiftLeft (by omega), decide_eq_true_eq, eq_comm]
  rw [Bits.getLsbD_foldl_or, Bool.or_eq_true, List.any_eq_true]
  constructor
  · rintro (hmask | ⟨c, hc, hset⟩)
    · exact .inl hmask
    · exact .inr ⟨c, hc, (hbit c hc).mp hset⟩
  · rintro (hmask | ⟨c, hc, hset⟩)
    · exact .inl hmask
    · exact .inr ⟨c, hc, (hbit c hc).mpr hset⟩

end Letters

namespace LetterBoxedSolver

variable {box : Box} {solver : LetterBoxedSolver} {cs : List UInt8}

/-! ## The box -/

/-- The characters `cs` of the box have been read. -/
structure Laid (cs : List UInt8) (solver : LetterBoxedSolver) : Prop where
  letters : ∀ i, i ∈ solver.box_letters ↔ ∃ c ∈ cs, idx c = i
  sides : ∀ c, ∀ h : IsLower c, solver.char_to_side.get ⟨idx c, idx_lt_iff.mpr h⟩ =
    if c ∈ cs then Int8.ofNat (cs.idxOf c / CHARS_PER_SIDE) else -1
  target : solver.target_mask = alphabet_mask cs

theorem laid_reset : Laid [] reset := by
  refine ⟨fun i => ?_, fun c h => ?_, rfl⟩
  · simp [reset]
  · simp [reset]

/-- **Step lemma.** A new letter goes to the side that is being read. -/
theorem Laid.enter_letter (h : Laid cs solver) {c : UInt8} (hc : IsLower c) (hnew : c ∉ cs) :
    Laid (cs ++ [c])
      (solver.enter_letter (cs.length / CHARS_PER_SIDE) ⟨idx c, idx_lt_iff.mpr hc⟩) := by
  refine ⟨fun i => ?_, fun d hd => ?_, ?_⟩
  · unfold LetterBoxedSolver.enter_letter
    dsimp only
    rw [List.mem_append, List.mem_singleton, h.letters, Fin.ext_iff]
    simp only [List.mem_append, List.mem_singleton]
    constructor
    · rintro (⟨d, hd, hidx⟩ | hidx)
      · exact ⟨d, .inl hd, hidx⟩
      · exact ⟨c, .inr rfl, hidx.symm⟩
    · rintro ⟨d, hd | rfl, hidx⟩
      · exact .inl ⟨d, hd, hidx⟩
      · exact .inr hidx.symm
  · unfold LetterBoxedSolver.enter_letter
    dsimp only
    by_cases heq : d = c
    · -- its place is the number of letters before it
      subst heq
      rw [if_pos (List.mem_append_right _ List.mem_cons_self), List.idxOf_append_of_notMem hnew,
        List.idxOf_cons_self, Nat.add_zero]
      exact get_set_self (i := ⟨idx d, idx_lt_iff.mpr hd⟩) solver.char_to_side _
    · -- the side of another letter is kept
      have hidx : (⟨idx c, idx_lt_iff.mpr hc⟩ : Fin CHARACTERS) ≠ ⟨idx d, idx_lt_iff.mpr hd⟩ :=
        fun hidx => heq (idx_injOn hc hd (Fin.mk.inj hidx)).symm
      have hmem : d ∈ cs ++ [c] ↔ d ∈ cs := by simp [heq]
      have hkept := get_set_ne solver.char_to_side hidx (Int8.ofNat (cs.length / CHARS_PER_SIDE))
      rw [hkept, h.sides d hd]
      by_cases hdc : d ∈ cs
      · rw [if_pos hdc, if_pos (hmem.mpr hdc), List.idxOf_append_of_mem hdc]
      · rw [if_neg hdc, if_neg (mt hmem.mp hdc)]
  · unfold LetterBoxedSolver.enter_letter alphabet_mask
    rw [List.foldl_append, h.target]
    rfl

/-- **The loop over the box** reads what is left of it. -/
theorem parse_box_laid (rest : List UInt8) :
    ∀ (cs : List UInt8) (solver : LetterBoxedSolver), Laid cs solver → (cs ++ rest).Nodup →
      (∀ c ∈ cs ++ rest, IsLower c) →
      Laid (cs ++ rest)
        (parse_box solver (cs.length / CHARS_PER_SIDE) (cs.length % CHARS_PER_SIDE) rest) := by
  have hside : CHARS_PER_SIDE = 3 := rfl
  induction rest with
  | nil =>
      intro cs solver h _ _
      rw [List.append_nil]
      exact h
  | cons c rest ih =>
      intro cs solver h hnodup hlower
      have hc : IsLower c := hlower c (List.mem_append_right _ List.mem_cons_self)
      have hnew : c ∉ cs := fun hmem =>
        (List.nodup_append.mp hnodup).2.2 c hmem c List.mem_cons_self rfl
      have hentered := h.enter_letter hc hnew
      rw [List.append_cons] at hnodup hlower ⊢
      have hrest := ih (cs ++ [c]) _ hentered hnodup hlower
      rw [List.length_append, List.length_singleton] at hrest
      rw [parse_box, alphabet_index_lower hc]
      dsimp only
      by_cases hlast : cs.length % CHARS_PER_SIDE + 1 = 3
      · -- the side is full
        have hnext : (cs.length + 1) / CHARS_PER_SIDE = cs.length / CHARS_PER_SIDE + 1 ∧
            (cs.length + 1) % CHARS_PER_SIDE = 0 := by
          rw [hside] at hlast ⊢
          omega
        rw [hnext.1, hnext.2] at hrest
        rw [if_pos hlast]
        exact hrest
      · -- the side goes on
        have hnext : (cs.length + 1) / CHARS_PER_SIDE = cs.length / CHARS_PER_SIDE ∧
            (cs.length + 1) % CHARS_PER_SIDE = cs.length % CHARS_PER_SIDE + 1 := by
          rw [hside] at hlast ⊢
          omega
        rw [hnext.1, hnext.2] at hrest
        rw [if_neg hlast]
        exact hrest

/-- The loop over the box stores no words. -/
theorem parse_box_words (cs : List UInt8) : ∀ (solver : LetterBoxedSolver)
    (side_count char_in_side_count : Nat),
      (parse_box solver side_count char_in_side_count cs).valid_words_by_start =
        solver.valid_words_by_start := by
  induction cs with
  | nil => exact fun _ _ _ => rfl
  | cons c cs ih =>
      intro solver side_count char_in_side_count
      rw [parse_box]
      cases alphabet_index (to_lower c) with
      | none => exact ih _ _ _
      | some i =>
          dsimp only
          split_ifs
          · rw [ih]
            rfl
          · rw [ih]
            rfl

/-- **The box is laid out** as `Box` says. -/
theorem parse_box_box (box : Box) : Laid box.characters (parse_box reset 0 0 box.characters) :=
  parse_box_laid box.characters [] reset laid_reset box.nodup box.lower

/-! ## Accepted words -/

/-- The sides of the box as `int8_t` are different, and none is -1. -/
theorem side_int8_inj {c d : UInt8} (hc : c ∈ box.characters) (hd : d ∈ box.characters) :
    Int8.ofNat (box.side c) = Int8.ofNat (box.side d) ↔ box.side c = box.side d := by
  obtain ⟨i, rfl⟩ := Box.exists_letter hc
  obtain ⟨j, rfl⟩ := Box.exists_letter hd
  rw [Box.side_letter, Box.side_letter]
  clear hc hd
  revert i j
  decide +kernel

theorem side_int8_ne {c : UInt8} (hc : c ∈ box.characters) :
    Int8.ofNat (box.side c) ≠ -1 := by
  obtain ⟨i, rfl⟩ := Box.exists_letter hc
  rw [Box.side_letter]
  clear hc
  revert i
  decide +kernel

/-- **The loop over the letters** accepts what keeps to the box and changes
sides, `last_side` being the side before. -/
theorem validate_letters_eq_some (h : Laid box.characters solver) {w : List UInt8} :
    (∀ c ∈ w, IsLower c) → ∀ mask last_side out,
      (solver.validate_letters w mask last_side = some out ↔
        (∀ c ∈ w, c ∈ box.characters) ∧
          (∀ c ∈ w.head?, Int8.ofNat (box.side c) ≠ last_side) ∧
          (w.IsChain fun c d => box.side c ≠ box.side d) ∧
          out = w.foldl (fun mask c => mask ||| 1#32 <<< idx c) mask) := by
  induction w with
  | nil => simp [validate_letters, eq_comm]
  | cons c w ih =>
      intro hw mask last_side out
      rw [List.forall_mem_cons] at hw
      have hside := h.sides c hw.1
      rw [validate_letters, alphabet_index_lower hw.1]
      dsimp only
      rw [hside]
      by_cases hc : c ∈ box.characters
      · have hbox : box.characters.idxOf c / CHARS_PER_SIDE = box.side c := rfl
        rw [if_pos hc, hbox, if_neg (side_int8_ne hc)]
        by_cases hlast : Int8.ofNat (box.side c) = last_side
        · rw [if_pos hlast]
          simp [hlast]
        · -- the rest is read with this side before it
          rw [if_neg hlast, ih hw.2, List.forall_mem_cons, List.isChain_cons, List.foldl_cons]
          constructor
          · rintro ⟨hall, hhead, hchain, hout⟩
            refine ⟨⟨hc, hall⟩, by simpa using hlast, ⟨fun d hd heq => ?_, hchain⟩, hout⟩
            exact hhead d hd ((side_int8_inj hc (hall d (List.mem_of_mem_head? hd))).mpr heq).symm
          · rintro ⟨⟨_, hall⟩, _, ⟨hhead, hchain⟩, hout⟩
            refine ⟨hall, fun d hd heq => ?_, hchain, hout⟩
            exact hhead d hd ((side_int8_inj hc (hall d (List.mem_of_mem_head? hd))).mp heq.symm)
      · rw [if_neg hc, if_pos rfl]
        simp [hc]

/-- **A word is accepted** if it is legal and has three letters or more. -/
theorem validate_eq_some (h : Laid box.characters solver) {w : List UInt8}
    (hw : ∀ c ∈ w, IsLower c) (out : BitVec 32) :
    solver.validate_and_process_word w = some out ↔
      3 ≤ w.length ∧ box.LegalWord w ∧ out = alphabet_mask w := by
  unfold validate_and_process_word
  by_cases hlen : w.length < 3
  · rw [if_pos hlen]
    simp [show ¬3 ≤ w.length by omega]
  · have hlong : 3 ≤ w.length := by omega
    rw [if_neg hlen, validate_letters_eq_some h hw]
    constructor
    · rintro ⟨hall, _, hchain, rfl⟩
      exact ⟨hlong, ⟨List.ne_nil_of_length_pos (by omega), hall, hchain⟩, rfl⟩
    · rintro ⟨_, hlegal, rfl⟩
      refine ⟨hlegal.letters, fun c hc => ?_, hlegal.sides, rfl⟩
      exact side_int8_ne (hlegal.letters c (List.mem_of_mem_head? hc))

/-! ## The word list -/

/-- What is stored of a word. -/
structure Describes (w : List UInt8) (info : WordInfo) : Prop where
  word_eq : info.word = w
  mask_eq : info.mask = alphabet_mask w
  start_eq : w.head?.map idx = some info.start.val
  end_eq : w.getLast?.map idx = some info.end.val

/-- The box has been read, and of the word list the words in `words`. -/
structure Loaded (box : Box) (words : List (List UInt8)) (solver : LetterBoxedSolver) : Prop where
  laid : Laid box.characters solver
  mem_iff : ∀ i info, info ∈ solver.valid_words_by_start.get i ↔
    ∃ w ∈ words, 3 ≤ w.length ∧ box.LegalWord w ∧ Describes w info ∧ info.start = i

/-- A word is stored in one way. -/
theorem Describes.unique {w : List UInt8} {info info' : WordInfo} (h : Describes w info)
    (h' : Describes w info') : info = info' := by
  obtain ⟨word, mask, start, «end»⟩ := info
  obtain ⟨word', mask', start', end'⟩ := info'
  have hstart := h.start_eq.symm.trans h'.start_eq
  have hend := h.end_eq.symm.trans h'.end_eq
  rw [Option.some.injEq, ← Fin.ext_iff] at hstart hend
  rw [WordInfo.mk.injEq]
  exact ⟨h.word_eq.trans h'.word_eq.symm, h.mask_eq.trans h'.mask_eq.symm, hstart, hend⟩

/-- What is stored of a word of lower-case letters. -/
def word_info {w : List UInt8} (hw : ∀ c ∈ w, IsLower c) (hne : w ≠ []) : WordInfo where
  word := w
  mask := alphabet_mask w
  start := ⟨idx (w.head hne), idx_lt_iff.mpr (hw _ (List.head_mem hne))⟩
  «end» := ⟨idx (w.getLast hne), idx_lt_iff.mpr (hw _ (List.getLast_mem hne))⟩

theorem describes_word_info {w : List UInt8} (hw : ∀ c ∈ w, IsLower c) (hne : w ≠ []) :
    Describes w (word_info hw hne) := by
  refine ⟨rfl, rfl, ?_, ?_⟩
  · rw [List.head?_eq_some_head hne]
    rfl
  · rw [List.getLast?_eq_some_getLast hne]
    rfl

/-- An accepted word is stored under its first letter. -/
theorem add_word_accepted (h : Laid box.characters solver) {w : List UInt8}
    (hw : ∀ c ∈ w, IsLower c) (hlong : 3 ≤ w.length) (hlegal : box.LegalWord w) :
    solver.add_word w =
      solver.push_word (word_info hw hlegal.ne_nil).start (word_info hw hlegal.ne_nil) := by
  have hvalid := (validate_eq_some h hw _).mpr ⟨hlong, hlegal, rfl⟩
  have hfront := List.head?_eq_some_head hlegal.ne_nil
  have hback := List.getLast?_eq_some_getLast hlegal.ne_nil
  have hfirst := alphabet_index_lower (hw _ (List.head_mem hlegal.ne_nil))
  have hlast := alphabet_index_lower (hw _ (List.getLast_mem hlegal.ne_nil))
  unfold LetterBoxedSolver.add_word
  rw [hvalid, hfront, hback, Option.bind_some, Option.bind_some, hfirst, hlast]
  rfl

/-- A word that is not accepted is passed over. -/
theorem add_word_rejected (h : Laid box.characters solver) {w : List UInt8}
    (hw : ∀ c ∈ w, IsLower c) (hrejected : ¬(3 ≤ w.length ∧ box.LegalWord w)) :
    solver.add_word w = solver := by
  have hnone : solver.validate_and_process_word w = none := by
    rw [Option.eq_none_iff_forall_ne_some]
    intro out hout
    obtain ⟨hlong, hlegal, _⟩ := (validate_eq_some h hw out).mp hout
    exact hrejected ⟨hlong, hlegal⟩
  unfold LetterBoxedSolver.add_word
  rw [hnone]

/-- **Step lemma.** A word of the list is stored if it is accepted. -/
theorem Loaded.add_word {words : List (List UInt8)} (h : Loaded box words solver) {w : List UInt8}
    (hw : ∀ c ∈ w, IsLower c) : Loaded box (words ++ [w]) (solver.add_word w) := by
  by_cases haccept : 3 ≤ w.length ∧ box.LegalWord w
  · have hinfo := describes_word_info hw haccept.2.ne_nil
    rw [add_word_accepted h.laid hw haccept.1 haccept.2]
    generalize word_info hw haccept.2.ne_nil = info at hinfo
    refine ⟨⟨h.laid.letters, h.laid.sides, h.laid.target⟩, fun i info' => ?_⟩
    have hmem := h.mem_iff i info'
    unfold push_word
    by_cases hi : info.start = i
    · -- the list that the word is put on
      subst hi
      rw [get_set_self, List.mem_append, List.mem_singleton, hmem]
      constructor
      · rintro (⟨w', hw', hrest⟩ | rfl)
        · exact ⟨w', List.mem_append_left _ hw', hrest⟩
        · exact ⟨w, List.mem_append_right _ List.mem_cons_self, haccept.1, haccept.2, hinfo, rfl⟩
      · rintro ⟨w', hw', hrest⟩
        rw [List.mem_append, List.mem_singleton] at hw'
        rcases hw' with hw' | rfl
        · exact .inl ⟨w', hw', hrest⟩
        · exact .inr (hrest.2.2.1.unique hinfo)
    · -- the other lists hold none that begin with its letter
      rw [get_set_ne _ hi, hmem]
      constructor
      · rintro ⟨w', hw', hrest⟩
        exact ⟨w', List.mem_append_left _ hw', hrest⟩
      · rintro ⟨w', hw', hlong, hlegal, hinfo', hstart⟩
        rw [List.mem_append, List.mem_singleton] at hw'
        rcases hw' with hw' | rfl
        · exact ⟨w', hw', hlong, hlegal, hinfo', hstart⟩
        · rw [hinfo'.unique hinfo] at hstart
          exact absurd hstart hi
  · rw [add_word_rejected h.laid hw haccept]
    refine ⟨h.laid, fun i info => ?_⟩
    rw [h.mem_iff]
    constructor
    · rintro ⟨w', hw', hrest⟩
      exact ⟨w', List.mem_append_left _ hw', hrest⟩
    · rintro ⟨w', hw', hlong, hlegal, hrest⟩
      rw [List.mem_append, List.mem_singleton] at hw'
      rcases hw' with hw' | rfl
      · exact ⟨w', hw', hlong, hlegal, hrest⟩
      · exact absurd ⟨hlong, hlegal⟩ haccept

/-! ## Reading the list -/

theorem is_delimiter_lower {c : UInt8} (h : IsLower c) : is_delimiter c = false := by
  have hne : ∀ d : UInt8, d.toNat < 97 → (c == d) = false := by
    intro d hd
    rw [beq_eq_false_iff_ne]
    rintro rfl
    have hle := (isLower_iff.mp h).1
    omega
  unfold is_delimiter
  rw [hne 13 (by decide), hne 10 (by decide), hne 44 (by decide), hne 32 (by decide),
    hne 9 (by decide)]
  rfl

/-- No word is stored for an empty field. -/
theorem add_word_nil : solver.add_word [] = solver := rfl

theorem load_words_done {data : List UInt8} (h : data.dropWhile is_delimiter = []) :
    solver.load_words data = solver := by
  rw [load_words]
  split
  · rfl
  · rename_i hword
    rw [h] at hword
    cases hword

theorem load_words_word {data rest : List UInt8} {c : UInt8}
    (h : data.dropWhile is_delimiter = c :: rest) :
    solver.load_words data =
      (solver.add_word (c :: rest.takeWhile fun c => !is_delimiter c)).load_words
        (rest.dropWhile fun c => !is_delimiter c) := by
  rw [load_words]
  split
  · rename_i hdone
    rw [h] at hdone
    cases hdone
  · rename_i hword
    rw [h] at hword
    cases hword
    rfl

/-- Delimiters in front of a word are skipped. -/
theorem load_words_delimiter {d : UInt8} (hd : is_delimiter d = true) (data : List UInt8) :
    solver.load_words (d :: data) = solver.load_words data := by
  have hdrop : (d :: data).dropWhile is_delimiter = data.dropWhile is_delimiter :=
    List.dropWhile_cons_of_pos hd
  cases hrest : data.dropWhile is_delimiter with
  | nil => rw [load_words_done hrest, load_words_done (hdrop.trans hrest)]
  | cons c rest => rw [load_words_word hrest, load_words_word (hdrop.trans hrest)]

/-- One field is read up to the delimiter behind it. -/
theorem load_words_field {field : List UInt8} (hfield : ∀ c ∈ field, IsLower c)
    {data : List UInt8} (hdata : ∀ d ∈ data.head?, is_delimiter d = true) :
    solver.load_words (field ++ data) = (solver.add_word field).load_words data := by
  cases field with
  | nil => rw [add_word_nil, List.nil_append]
  | cons c rest =>
      rw [List.forall_mem_cons] at hfield
      have hletters : ∀ d ∈ rest, (!is_delimiter d) = true := by
        intro d hd
        rw [is_delimiter_lower (hfield.2 d hd)]
        rfl
      -- the word ends where the field does
      have hstop : (data.takeWhile fun c => !is_delimiter c) = [] ∧
          (data.dropWhile fun c => !is_delimiter c) = data := by
        cases data with
        | nil => exact ⟨rfl, rfl⟩
        | cons d data =>
            have hd := hdata d rfl
            simp [hd]
      have hdrop : (c :: rest ++ data).dropWhile is_delimiter = c :: (rest ++ data) := by
        rw [List.cons_append, List.dropWhile_cons_of_neg]
        rw [is_delimiter_lower hfield.1]
        exact Bool.false_ne_true
      rw [load_words_word hdrop, List.takeWhile_append_of_pos hletters,
        List.dropWhile_append_of_pos hletters, hstop.1, hstop.2, List.append_nil]

/-- **The words of the file are the fields of the csv.** -/
theorem load_words_fields (fs : List (List UInt8)) :
    ∀ solver : LetterBoxedSolver, (∀ field ∈ fs, ∀ c ∈ field, IsLower c) →
      solver.load_words ([44].intercalate fs) = fs.foldl LetterBoxedSolver.add_word solver := by
  induction fs with
  | nil => exact fun solver _ => load_words_done rfl
  | cons field fs ih =>
      intro solver hlower
      rw [List.forall_mem_cons] at hlower
      by_cases hlast : fs = []
      · subst hlast
        have hdone : ∀ solver : LetterBoxedSolver, solver.load_words [] = solver :=
          fun solver => load_words_done rfl
        rw [List.intercalate_singleton, ← List.append_nil field,
          load_words_field hlower.1 (by simp), hdone, List.append_nil]
        rfl
      · -- the comma behind the field is skipped with the next word
        rw [List.intercalate_cons_of_ne_nil hlast, List.append_assoc]
        rw [load_words_field hlower.1 (by simp [is_delimiter]), List.singleton_append,
          load_words_delimiter rfl, ih _ hlower.2]
        rfl

/-- **Run lemma.** The words of a list are stored one after another. -/
theorem Loaded.add_words (ws : List (List UInt8)) :
    ∀ {words : List (List UInt8)} {solver : LetterBoxedSolver}, Loaded box words solver →
      (∀ w ∈ ws, ∀ c ∈ w, IsLower c) →
      Loaded box (words ++ ws) (ws.foldl LetterBoxedSolver.add_word solver) := by
  induction ws with
  | nil =>
      intro words solver h _
      rw [List.append_nil]
      exact h
  | cons w ws ih =>
      intro words solver h hlower
      rw [List.forall_mem_cons] at hlower
      rw [List.append_cons]
      exact ih (h.add_word hlower.1) hlower.2

/-- **What `run` has loaded** when its search begins. -/
theorem loaded_csv (box : Box) {csv : List UInt8} (hcsv : LowerCsv csv) :
    Loaded box (fields csv)
      ((parse_box reset 0 0 box.characters).load_and_filter_dictionary (some csv)) := by
  have hempty : Loaded box [] (parse_box reset 0 0 box.characters) := by
    refine ⟨parse_box_box box, fun i info => ?_⟩
    rw [parse_box_words]
    simp [reset]
  have hloaded := hempty.add_words (fields csv) hcsv.field
  rw [List.nil_append, ← load_words_fields _ _ hcsv.field] at hloaded
  unfold fields at hloaded
  rw [List.intercalate_splitOn] at hloaded
  exact hloaded

end LetterBoxedSolver

end LetterBoxed
