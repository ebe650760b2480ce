/-
The second solver on twelve letters of which some may be equal.

It keeps letters as bits of the alphabet, so a letter that comes again is one
letter, on the side where it comes last, and there is nothing that no word can
cover. It solves the smaller puzzle of the letters that come.

Its tables are those that it makes of the box around the letters, without the
letters that do not come. So it stores the words that it would store for the
box, of those that have the letters only, and takes the same paths. What is left
is another target.
-/
import LetterBoxed.AcceptedLetters
import LetterBoxed.GptSolutions

set_option autoImplicit false

open Paths

namespace LetterBoxed

/-! ## Last places -/

/-- The place where a letter comes last. -/
def last_place : List UInt8 → UInt8 → Nat
  | [], _ => 0
  | _ :: rest, c => if c ∈ rest then last_place rest c + 1 else 0

/-- Its side. -/
def last_side (characters : List UInt8) (c : UInt8) : Nat :=
  last_place characters c / CHARS_PER_SIDE

theorem last_place_eq_idxOf {characters : List UInt8} (hnodup : characters.Nodup) {c : UInt8}
    (hc : c ∈ characters) : last_place characters c = characters.idxOf c := by
  induction characters with
  | nil => exact absurd hc List.not_mem_nil
  | cons d rest ih =>
      rw [List.nodup_cons] at hnodup
      rw [last_place]
      rcases List.mem_cons.mp hc with rfl | hrest
      · rw [if_neg hnodup.1, List.idxOf_cons_self]
      · have hne : d ≠ c := fun heq => hnodup.1 (heq ▸ hrest)
        rw [if_pos hrest, List.idxOf_cons_ne _ hne, ih hnodup.2 hrest]

/-- In the box around the letters a letter is where it comes last. -/
theorem idxOf_fill_repeated (characters : List UInt8) :
    ∀ {spare}, characters.length ≤ spare.length → (∀ c ∈ characters, c ∉ spare) →
      ∀ c ∈ characters, (fill_repeated characters spare).idxOf c = last_place characters c := by
  induction characters with
  | nil => exact fun _ _ c hc => absurd hc List.not_mem_nil
  | cons d rest ih =>
      intro spare hlen hdisj c hc
      obtain ⟨s, spare, rfl, hlen'⟩ := exists_spare_cons hlen
      rw [List.forall_mem_cons] at hdisj
      rw [fill_repeated_cons, last_place]
      by_cases hrest : c ∈ rest
      · have hspare : ∀ c ∈ rest, c ∉ spare := fun c hc hmem =>
          hdisj.2 c hc (List.mem_cons_of_mem s hmem)
        have hhead : (if d ∈ rest then s else d) ≠ c := by
          by_cases hd : d ∈ rest
          · rw [if_pos hd]
            rintro rfl
            exact hdisj.2 s hrest List.mem_cons_self
          · rw [if_neg hd]
            rintro rfl
            exact hd hrest
        rw [if_pos hrest, List.idxOf_cons_ne _ hhead, ih hlen' hspare c hrest]
      · have heq : c = d := (List.mem_cons.mp hc).resolve_right hrest
        subst heq
        rw [if_neg hrest, if_neg hrest, List.idxOf_cons_self]

theorem side_filled_box {characters : List UInt8} (hsize : characters.length = BOX_CHARS)
    (hlower : ∀ c ∈ characters, IsLower c) {c : UInt8} (hc : c ∈ characters) :
    (filled_box characters hsize hlower).side c = last_side characters c :=
  congrArg (· / CHARS_PER_SIDE) (idxOf_fill_repeated characters (length_le_spare_letters hsize)
    (not_mem_spare_letters characters) c hc)

namespace LetterBoxedSolver

variable {characters : List UInt8} {solver solver' : LetterBoxedSolver}

/-! ## The box -/

/-- The letters in `rest` have been read behind `n` others. -/
structure Entered (n : Nat) (rest : List UInt8) (solver solver' : LetterBoxedSolver) : Prop where
  letters : ∀ i, i ∈ solver'.box_letters ↔ i ∈ solver.box_letters ∨ ∃ c ∈ rest, idx c = i
  sides : ∀ c, ∀ h : IsLower c, solver'.char_to_side.get ⟨idx c, idx_lt_iff.mpr h⟩ =
    if c ∈ rest then Int8.ofNat ((n + last_place rest c) / CHARS_PER_SIDE)
    else solver.char_to_side.get ⟨idx c, idx_lt_iff.mpr h⟩
  target : solver'.target_mask =
    rest.foldl (fun mask c => mask ||| 1#32 <<< idx c) solver.target_mask

/-- **Step lemma.** A letter that comes again is entered again. -/
theorem Entered.cons {n : Nat} {rest : List UInt8} {c : UInt8} (hc : IsLower c)
    (h : Entered (n + 1) rest
      (solver.enter_letter (n / CHARS_PER_SIDE) ⟨idx c, idx_lt_iff.mpr hc⟩) solver') :
    Entered n (c :: rest) solver solver' := by
  refine ⟨fun i => ?_, fun d hd => ?_, h.target⟩
  · rw [h.letters, List.exists_mem_cons_iff, ← or_assoc]
    refine or_congr_left ?_
    unfold LetterBoxedSolver.enter_letter
    rw [List.mem_append, List.mem_singleton, Fin.ext_iff]
    exact or_congr_right eq_comm
  · rw [h.sides d hd, last_place]
    by_cases hrest : d ∈ rest
    · rw [if_pos hrest, if_pos hrest, if_pos (List.mem_cons_of_mem c hrest), Nat.add_assoc,
        Nat.add_comm 1]
    · rw [if_neg hrest, if_neg hrest, Nat.add_zero]
      unfold LetterBoxedSolver.enter_letter
      dsimp only
      by_cases heq : d = c
      · subst heq
        rw [if_pos List.mem_cons_self]
        exact get_set_self (i := ⟨idx d, idx_lt_iff.mpr hd⟩) solver.char_to_side _
      · have hidx : (⟨idx c, idx_lt_iff.mpr hc⟩ : Fin CHARACTERS) ≠ ⟨idx d, idx_lt_iff.mpr hd⟩ :=
          fun hidx => heq (idx_injOn hc hd (Fin.mk.inj hidx)).symm
        rw [if_neg (List.not_mem_cons_of_ne_of_not_mem heq hrest)]
        exact get_set_ne solver.char_to_side hidx _

/-- **The loop over any lower-case letters.** -/
theorem parse_box_entered (rest : List UInt8) : ∀ (n : Nat) (solver : LetterBoxedSolver),
    (∀ c ∈ rest, IsLower c) →
      Entered n rest solver (parse_box solver (n / CHARS_PER_SIDE) (n % CHARS_PER_SIDE) rest) := by
  have hside : CHARS_PER_SIDE = 3 := rfl
  induction rest with
  | nil => exact fun n solver _ => ⟨by simp [parse_box], by simp [parse_box], rfl⟩
  | cons c rest ih =>
      intro n solver hlower
      rw [List.forall_mem_cons] at hlower
      apply Entered.cons hlower.1
      have hrest := ih (n + 1)
        (solver.enter_letter (n / CHARS_PER_SIDE) ⟨idx c, idx_lt_iff.mpr hlower.1⟩) hlower.2
      rw [parse_box, alphabet_index_lower hlower.1]
      dsimp only
      by_cases hlast : n % CHARS_PER_SIDE + 1 = 3
      · -- the side is full
        have hnext : (n + 1) / CHARS_PER_SIDE = n / CHARS_PER_SIDE + 1 ∧
            (n + 1) % CHARS_PER_SIDE = 0 := by
          rw [hside] at hlast ⊢
          omega
        rw [hnext.1, hnext.2] at hrest
        rw [if_pos hlast]
        exact hrest
      · -- the side goes on
        have hnext : (n + 1) / CHARS_PER_SIDE = n / CHARS_PER_SIDE ∧
            (n + 1) % CHARS_PER_SIDE = n % CHARS_PER_SIDE + 1 := by
          rw [hside] at hlast ⊢
          omega
        rw [hnext.1, hnext.2] at hrest
        rw [if_neg hlast]
        exact hrest

/-! ## The word list -/

/-- The tables of `solver'` without the letters that do not come. -/
structure Restricts (characters : List UInt8) (solver solver' : LetterBoxedSolver) : Prop where
  words : solver.valid_words_by_start = solver'.valid_words_by_start
  sides : ∀ c, ∀ h : IsLower c, solver.char_to_side.get ⟨idx c, idx_lt_iff.mpr h⟩ =
    if c ∈ characters then solver'.char_to_side.get ⟨idx c, idx_lt_iff.mpr h⟩ else -1

/-- The loop over the letters of a word. -/
theorem Restricts.validate_letters (h : Restricts characters solver solver') {w : List UInt8} :
    (∀ c ∈ w, IsLower c) → ∀ mask last_side,
      solver.validate_letters w mask last_side =
        if ∀ c ∈ w, c ∈ characters then solver'.validate_letters w mask last_side else none := by
  induction w with
  | nil => simp [LetterBoxedSolver.validate_letters]
  | cons c w ih =>
      intro hw mask last_side
      rw [List.forall_mem_cons] at hw
      rw [LetterBoxedSolver.validate_letters, LetterBoxedSolver.validate_letters,
        alphabet_index_lower hw.1]
      dsimp only
      rw [h.sides c hw.1]
      by_cases hc : c ∈ characters
      · simp only [hc, if_true, List.forall_mem_cons, true_and, ih hw.2]
        split_ifs <;> rfl
      · simp only [hc, if_false, List.forall_mem_cons, false_and, if_true]

theorem Restricts.validate (h : Restricts characters solver solver') {w : List UInt8}
    (hw : ∀ c ∈ w, IsLower c) :
    solver.validate_and_process_word w =
      if ∀ c ∈ w, c ∈ characters then solver'.validate_and_process_word w else none := by
  unfold validate_and_process_word
  rw [h.validate_letters hw]
  split_ifs <;> rfl

/-- **Step lemma.** A word of the letters is added to both or none. -/
theorem Restricts.add_word (h : Restricts characters solver solver') {w : List UInt8}
    (hw : ∀ c ∈ w, IsLower c) :
    Restricts characters (solver.add_word w)
      (if ∀ c ∈ w, c ∈ characters then solver'.add_word w else solver') := by
  unfold LetterBoxedSolver.add_word
  rw [h.validate hw]
  by_cases hletters : ∀ c ∈ w, c ∈ characters
  · rw [if_pos hletters, if_pos hletters]
    split
    · refine ⟨?_, h.sides⟩
      unfold push_word
      dsimp only
      rw [h.words]
    · exact h
  · rw [if_neg hletters, if_neg hletters]
    exact h

/-- **Run lemma.** -/
theorem Restricts.add_words (ws : List (List UInt8)) :
    ∀ {solver solver' : LetterBoxedSolver}, Restricts characters solver solver' →
      (∀ w ∈ ws, ∀ c ∈ w, IsLower c) →
      Restricts characters (ws.foldl LetterBoxedSolver.add_word solver)
        ((ws.filter fun w => decide (∀ c ∈ w, c ∈ characters)).foldl LetterBoxedSolver.add_word
          solver') := by
  induction ws with
  | nil => exact fun h _ => h
  | cons w ws ih =>
      intro solver solver' h hlower
      rw [List.forall_mem_cons] at hlower
      have hstep := ih (h.add_word hlower.1) hlower.2
      rw [List.foldl_cons, List.filter_cons]
      by_cases hletters : ∀ c ∈ w, c ∈ characters
      · rw [if_pos hletters] at hstep
        rw [if_pos (decide_eq_true hletters), List.foldl_cons]
        exact hstep
      · rw [if_neg hletters] at hstep
        rw [if_neg (mt of_decide_eq_true hletters)]
        exact hstep

/-- Words do not change the letters and the target. -/
theorem add_words_box (ws : List (List UInt8)) : ∀ solver : LetterBoxedSolver,
    (ws.foldl LetterBoxedSolver.add_word solver).box_letters = solver.box_letters ∧
      (ws.foldl LetterBoxedSolver.add_word solver).target_mask = solver.target_mask := by
  have hword : ∀ (solver : LetterBoxedSolver) w,
      (solver.add_word w).box_letters = solver.box_letters ∧
        (solver.add_word w).target_mask = solver.target_mask := by
    intro solver w
    unfold LetterBoxedSolver.add_word
    split
    · exact ⟨rfl, rfl⟩
    · exact ⟨rfl, rfl⟩
  induction ws with
  | nil => exact fun _ => ⟨rfl, rfl⟩
  | cons w ws ih =>
      intro solver
      have hrest := ih (solver.add_word w)
      rw [(hword solver w).1, (hword solver w).2] at hrest
      exact hrest

/-- What `run` has loaded for `characters`: the words of these letters that it
loads for `box`. -/
structure LoadedLetters (box : Box) (characters : List UInt8) (words : List (List UInt8))
    (solver : LetterBoxedSolver) : Prop where
  letters : ∀ i, i ∈ solver.box_letters ↔ ∃ c ∈ characters, idx c = i
  target : solver.target_mask = alphabet_mask characters
  words : ∃ solver', solver.valid_words_by_start = solver'.valid_words_by_start ∧
    Loaded box (words.filter fun w => decide (∀ c ∈ w, c ∈ characters)) solver'

/-- **The words for the box around the letters.** -/
theorem loaded_letters (hsize : characters.length = BOX_CHARS)
    (hlower : ∀ c ∈ characters, IsLower c) {csv : List UInt8} (hcsv : LowerCsv csv) :
    LoadedLetters (filled_box characters hsize hlower) characters (fields csv)
      ((parse_box reset 0 0 characters).load_and_filter_dictionary (some csv)) := by
  have hentered : Entered 0 characters reset (parse_box reset 0 0 characters) :=
    parse_box_entered characters 0 reset hlower
  have hloaded : (parse_box reset 0 0 characters).load_and_filter_dictionary (some csv) =
      (fields csv).foldl LetterBoxedSolver.add_word (parse_box reset 0 0 characters) := by
    rw [← load_words_fields _ _ hcsv.field, fields, List.intercalate_splitOn]
    rfl
  have hempty : Loaded (filled_box characters hsize hlower) []
      (parse_box reset 0 0 (filled_box characters hsize hlower).characters) := by
    refine ⟨parse_box_box _, fun i info => ?_⟩
    rw [parse_box_words]
    simp [reset]
  have hrestricts : Restricts characters (parse_box reset 0 0 characters)
      (parse_box reset 0 0 (filled_box characters hsize hlower).characters) := by
    refine ⟨by rw [parse_box_words, parse_box_words], fun c hc => ?_⟩
    rw [hentered.sides c hc, Nat.zero_add]
    by_cases hmem : c ∈ characters
    · have hbox : c ∈ (filled_box characters hsize hlower).characters :=
        subset_fill_repeated characters _ c hmem
      have hside := side_filled_box hsize hlower hmem
      rw [if_pos hmem, if_pos hmem, hempty.laid.sides c hc, if_pos hbox]
      exact congrArg Int8.ofNat hside.symm
    · rw [if_neg hmem, if_neg hmem]
      simp [reset]
  rw [hloaded]
  obtain ⟨hbox, htarget⟩ := add_words_box (fields csv) (parse_box reset 0 0 characters)
  refine ⟨fun i => ?_, ?_, _, (hrestricts.add_words (fields csv) hcsv.field).words, ?_⟩
  · rw [hbox, hentered.letters]
    simp [reset]
  · rw [htarget, hentered.target]
    rfl
  · exact hempty.add_words _ fun w hw => hcsv.field w (List.mem_of_mem_filter hw)

/-! ## The search -/

/-- A cover of the letters that come, with words of three letters or more. -/
structure CoversLetters (characters : List UInt8) (words chain : List (List UInt8)) : Prop where
  mem : ∀ w ∈ chain, w ∈ words
  long : ∀ w ∈ chain, 3 ≤ w.length
  letters : ∀ w ∈ chain, ∀ c ∈ w, c ∈ characters
  sides : ∀ w ∈ chain, w.IsChain fun c d => last_side characters c ≠ last_side characters d
  linked : Linked chain
  covered : ∀ c ∈ characters, ∃ w ∈ chain, c ∈ w

/-- Where sides agree on the letters, they agree on the words. -/
theorem isChain_side_iff {box : Box}
    (hside : ∀ c ∈ characters, box.side c = last_side characters c) {w : List UInt8}
    (hletters : ∀ c ∈ w, c ∈ characters) :
    (w.IsChain fun c d => box.side c ≠ box.side d) ↔
      w.IsChain fun c d => last_side characters c ≠ last_side characters d := by
  apply List.IsChain.iff_of_mem_imp
  intro c d hc hd
  rw [hside c (hletters c hc), hside d (hletters d hd)]

/-- The covers of the letters of a box are its solutions without short words. -/
theorem coversLetters_iff_legal {box : Box} {csv : List UInt8} {n : Nat}
    {chain : List (List UInt8)} :
    CoversLetters box.characters (fields csv) chain ∧ chain.length ≤ n ↔
      box.LegalSolution csv n chain ∧ ∀ w ∈ chain, 3 ≤ w.length := by
  have hside : ∀ c ∈ box.characters, box.side c = last_side box.characters c := by
    intro c hc
    rw [last_side, last_place_eq_idxOf box.nodup hc, Box.side]
  constructor
  · rintro ⟨h, hlen⟩
    obtain ⟨w, hw, _⟩ := h.covered _ (Box.letter_mem ⟨0, by decide⟩)
    refine ⟨⟨List.length_pos_of_mem hw, hlen, h.mem, fun w hw => ?_, h.linked, h.covered⟩, h.long⟩
    have hlong := h.long w hw
    exact ⟨List.ne_nil_of_length_pos (by omega), h.letters w hw,
      (isChain_side_iff hside (h.letters w hw)).mpr (h.sides w hw)⟩
  · rintro ⟨h, hlong⟩
    refine ⟨⟨h.fields, hlong, fun w hw => (h.legal w hw).letters, fun w hw => ?_, h.linked,
      h.covered⟩, h.length_le⟩
    exact (isChain_side_iff hside (h.legal w hw).letters).mp (h.legal w hw).sides

section Search

variable {box : Box} {words : List (List UInt8)}
  (hloaded : LoadedLetters box characters words solver)
  (hlower : ∀ c ∈ characters, IsLower c)

/-- From a word on, a path is one for the box. -/
theorem isPath_congr (hwords : solver.valid_words_by_start = solver'.valid_words_by_start)
    (es : List WordInfo) : ∀ s, solver.word_search.space.IsPath (some s) es ↔
      solver'.word_search.space.IsPath (some s) es := by
  induction es with
  | nil => exact fun _ => Iff.rfl
  | cons e es ih =>
      intro s
      rw [isPath_cons, isPath_cons]
      have hmoves : solver.word_search.space.enabled (some s) e ↔
          solver'.word_search.space.enabled (some s) e := by
        unfold word_search Listed.space
        dsimp only
        rw [hwords]
      rw [hmoves]
      exact and_congr_right fun _ => ih _

include hlower in
/-- The target is reached when all letters that come are used. -/
theorem target_iff (htarget : solver.target_mask = alphabet_mask characters)
    {chain : List (List UInt8)} (hletters : ∀ w ∈ chain, ∀ c ∈ w, c ∈ characters)
    {i : Fin CHARACTERS} {mask : BitVec 32} (hmarks : Marks 0#32 mask chain) :
    solver.word_search.goal (some (i, mask)) = true ↔ ∀ c ∈ characters, ∃ w ∈ chain, c ∈ w := by
  have htargets : ∀ j, solver.target_mask.getLsbD j = true ↔ ∃ c ∈ characters, idx c = j := by
    intro j
    rw [htarget, alphabet_mask, getLsbD_foldl_letters hlower, BitVec.getLsbD_zero]
    simp
  have hmask : ∀ j, mask.getLsbD j = true ↔ ∃ w ∈ chain, ∃ c ∈ w, idx c = j := by
    intro j
    rw [hmarks j, BitVec.getLsbD_zero]
    simp
  have hgoal : solver.word_search.goal (some (i, mask)) = true ↔ mask = solver.target_mask :=
    beq_iff_eq
  rw [hgoal]
  constructor
  · rintro rfl c hc
    obtain ⟨w, hw, d, hd, hidx⟩ := (hmask _).mp ((htargets _).mpr ⟨c, hc, rfl⟩)
    rw [← idx_injOn (hlower d (hletters w hw d hd)) (hlower c hc) hidx]
    exact ⟨w, hw, hd⟩
  · intro hcovered
    apply BitVec.eq_of_getLsbD_eq
    intro j _
    rw [Bool.eq_iff_iff, hmask, htargets]
    constructor
    · rintro ⟨w, hw, c, hc, hidx⟩
      exact ⟨c, hletters w hw c hc, hidx⟩
    · rintro ⟨c, hc, hidx⟩
      obtain ⟨w, hw, hcw⟩ := hcovered c hc
      exact ⟨w, hw, c, hcw, hidx⟩

variable (hbox : ∀ c ∈ characters, c ∈ box.characters ∧ box.side c = last_side characters c)

include hbox in
/-- What is usable for the box, of the words with the letters. -/
theorem usable_letters_iff (w : List UInt8) :
    Usable box (words.filter fun w => decide (∀ c ∈ w, c ∈ characters)) w ↔
      w ∈ words ∧ 3 ≤ w.length ∧ (∀ c ∈ w, c ∈ characters) ∧
        w.IsChain fun c d => last_side characters c ≠ last_side characters d := by
  have hside : ∀ c ∈ characters, box.side c = last_side characters c := fun c hc => (hbox c hc).2
  unfold Usable
  rw [List.mem_filter, decide_eq_true_eq]
  constructor
  · rintro ⟨⟨hw, hletters⟩, hlong, hlegal⟩
    exact ⟨hw, hlong, hletters, (isChain_side_iff hside hletters).mp hlegal.sides⟩
  · rintro ⟨hw, hlong, hletters, hsides⟩
    exact ⟨⟨hw, hletters⟩, hlong, List.ne_nil_of_length_pos (by omega),
      fun c hc => (hbox c (hletters c hc)).1, (isChain_side_iff hside hletters).mpr hsides⟩

include hlower in
/-- The words with the letters are lower-case. -/
theorem lower_of_mem_filter (words : List (List UInt8)) :
    ∀ w ∈ words.filter (fun w => decide (∀ c ∈ w, c ∈ characters)), ∀ c ∈ w, IsLower c :=
  fun _ hw c hc => hlower c (of_decide_eq_true (List.mem_filter.mp hw).2 c hc)

include hloaded hlower hbox

/-- **What the search finds covers the letters that come.** -/
theorem LoadedLetters.cover_of_solves {es : List WordInfo}
    (hsolves : solver.word_search.Solves none es) :
    CoversLetters characters words (es.map WordInfo.word) := by
  obtain ⟨solver', hwords, hloaded'⟩ := hloaded.words
  have hlow := lower_of_mem_filter hlower words
  cases es with
  | nil => exact absurd hsolves.goal Bool.false_ne_true
  | cons e es =>
      obtain ⟨i, _, hall⟩ := solves_first.mp hsolves
      obtain ⟨husable, hlinked, _, i', mask', hrun, hmarks⟩ :=
        hloaded'.path_words hlow ((isPath_congr hwords (e :: es) (i, 0#32)).mp hall.path)
      have hletters : ∀ w ∈ (e :: es).map WordInfo.word, ∀ c ∈ w, c ∈ characters := fun w hw =>
        ((usable_letters_iff hbox w).mp (husable w hw)).2.2.1
      -- the states on the way are those of the box
      have hrun' : solver.word_search.space.run (some (i, 0#32)) (e :: es) = some (i', mask') := hrun
      have hgoal := hall.goal
      rw [hrun', target_iff hlower hloaded.target hletters hmarks] at hgoal
      exact ⟨fun w hw => ((usable_letters_iff hbox w).mp (husable w hw)).1,
        fun w hw => ((usable_letters_iff hbox w).mp (husable w hw)).2.1, hletters,
        fun w hw => ((usable_letters_iff hbox w).mp (husable w hw)).2.2.2, hlinked, hgoal⟩

/-- **Every such cover is searched.** -/
theorem LoadedLetters.solves_of_cover (hne : characters ≠ []) {chain : List (List UInt8)}
    (hchain : CoversLetters characters words chain) :
    ∃ es, solver.word_search.Solves none es ∧ es.map WordInfo.word = chain := by
  obtain ⟨solver', hwords, hloaded'⟩ := hloaded.words
  have hlow := lower_of_mem_filter hlower words
  have husable : ∀ w ∈ chain, Usable box (words.filter fun w => decide (∀ c ∈ w, c ∈ characters))
      w := fun w hw => (usable_letters_iff hbox w).mpr
    ⟨hchain.mem w hw, hchain.long w hw, hchain.letters w hw, hchain.sides w hw⟩
  obtain ⟨w, hw, _⟩ := hchain.covered _ (List.head_mem hne)
  obtain ⟨first, rest, rfl⟩ := List.exists_cons_of_ne_nil (List.ne_nil_of_mem hw)
  -- the search begins with every letter that comes, so with that of the first word
  obtain ⟨hfirst, _, hlegal⟩ := husable first List.mem_cons_self
  have hword := hlow first hfirst
  have hfront : ∀ w ∈ (first :: rest).head?,
      w.head?.map idx = some (word_info hword hlegal.ne_nil).start.val := by
    intro w hw
    rw [List.head?_cons, Option.mem_some_iff] at hw
    rw [← hw]
    exact (describes_word_info hword hlegal.ne_nil).start_eq
  have hstart : (word_info hword hlegal.ne_nil).start ∈ solver.box_letters := by
    rw [hloaded.letters]
    exact ⟨_, hchain.letters first List.mem_cons_self _ (List.head_mem hlegal.ne_nil), rfl⟩
  obtain ⟨es, hpath, hes⟩ := hloaded'.path_of_chain hlow 0#32 husable hchain.linked hfront
  obtain ⟨_, _, _, i', mask', hrun, hmarks⟩ := hloaded'.path_words hlow hpath
  rw [hes] at hmarks
  have hrun' : solver.word_search.space.run
      (some ((word_info hword hlegal.ne_nil).start, 0#32)) es = some (i', mask') := hrun
  have hgoal : solver.word_search.goal (solver.word_search.space.run
      (some ((word_info hword hlegal.ne_nil).start, 0#32)) es) = true := by
    rw [hrun', target_iff hlower hloaded.target hchain.letters hmarks]
    exact hchain.covered
  cases es with
  | nil => cases hes
  | cons e es =>
      exact ⟨e :: es, solves_first.mpr ⟨_, hstart, (isPath_congr hwords _ _).mpr hpath, hgoal⟩, hes⟩

end Search

/-! ## run -/

section Run

variable (hsize : characters.length = BOX_CHARS) (hlower : ∀ c ∈ characters, IsLower c)
  {csv : List UInt8} (hcsv : LowerCsv csv)
include hsize hlower hcsv

/-- **Shortest covers of the letters that come**, for any twelve of them. -/
theorem run_covers :
    (run characters (some csv) = [] ↔
        ∀ chain, CoversLetters characters (fields csv) chain → 3 < chain.length) ∧
      (run characters (some csv) ≠ [] →
        CoversLetters characters (fields csv) (run characters (some csv)) ∧
          (run characters (some csv)).length ≤ 3 ∧
          ∀ chain, CoversLetters characters (fields csv) chain →
            (run characters (some csv)).length ≤ chain.length) := by
  have hloaded := loaded_letters hsize hlower hcsv
  have hbox : ∀ c ∈ characters, c ∈ (filled_box characters hsize hlower).characters ∧
      (filled_box characters hsize hlower).side c = last_side characters c :=
    fun c hc => ⟨subset_fill_repeated characters _ c hc, side_filled_box hsize hlower hc⟩
  have hne : characters ≠ [] := List.ne_nil_of_length_pos (hsize ▸ (by decide : 0 < BOX_CHARS))
  unfold run
  generalize (parse_box reset 0 0 characters).load_and_filter_dictionary (some csv) = solver
    at hloaded
  rw [search_eq_deepen]
  cases hfound : solver.word_search.deepen 3 none with
  | none =>
      refine ⟨⟨fun _ chain hchain => ?_, fun _ => rfl⟩, fun h => absurd rfl h⟩
      obtain ⟨es, hsolves, rfl⟩ := hloaded.solves_of_cover hlower hbox hne hchain
      by_contra hlen
      rw [List.length_map, Nat.not_lt] at hlen
      exact deepen_complete (by decide) hsolves hlen hfound
  | some es =>
      obtain ⟨hsolves, hlen, hshortest⟩ := deepen_sound hfound
      have hcovers := hloaded.cover_of_solves hlower hbox hsolves
      rw [Option.map_some, Option.getD_some]
      refine ⟨⟨fun hnil => ?_, fun hall => ?_⟩, fun _ => ⟨hcovers, ?_, fun chain hchain => ?_⟩⟩
      · rw [List.map_eq_nil_iff] at hnil
        subst hnil
        exact absurd hsolves.goal Bool.false_ne_true
      · have hlong := hall _ hcovers
        rw [List.length_map] at hlong
        omega
      · rw [List.length_map]
        exact hlen
      · obtain ⟨es', hsolves', rfl⟩ := hloaded.solves_of_cover hlower hbox hne hchain
        rw [List.length_map, List.length_map]
        exact hshortest es' hsolves'

end Run

end LetterBoxedSolver

/-- **The solvers on repeated letters.** On twelve lower-case letters of which two
are equal, and a lower-case word list in which no field is one other letter, the
first solver returns nothing. The second returns nothing if and only if every
cover of the letters that come has more than three words, and else a shortest
such cover. -/
theorem solvers_differ_on_repeated (build : SplitBuild) (cfg : Settings)
    (junk : Nat → char_mask_t) {characters csv : List UInt8}
    (hsize : characters.length = BOX_CHARS) (hlower : ∀ c ∈ characters, IsLower c)
    (hrepeated : ¬characters.Nodup) (hcsv : LowerCsv csv)
    (hone : OneLetterAmong characters csv) :
    (∃ compressionIndex wordEnds data, gen_compression_index characters = .ok compressionIndex ∧
      word_ends build csv 44 3 = .ok wordEnds ∧
      filter_and_hash (lenient junk) compressionIndex csv wordEnds = .ok data ∧
      solve cfg compressionIndex data.words data.wordHashes = some (.ok [])) ∧
    (LetterBoxedSolver.run characters (some csv) = [] ↔
      ∀ chain, LetterBoxedSolver.CoversLetters characters (fields csv) chain →
        3 < chain.length) ∧
    (LetterBoxedSolver.run characters (some csv) ≠ [] →
      LetterBoxedSolver.CoversLetters characters (fields csv)
          (LetterBoxedSolver.run characters (some csv)) ∧
        (LetterBoxedSolver.run characters (some csv)).length ≤ 3 ∧
        ∀ chain, LetterBoxedSolver.CoversLetters characters (fields csv) chain →
          (LetterBoxedSolver.run characters (some csv)).length ≤ chain.length) := by
  obtain ⟨compressionIndex, wordEnds, data, sols, hindexed, hends, hfilter, hsolve, hnone⟩ :=
    solve_among hsize hlower hcsv hone build cfg junk
  rw [hnone hrepeated] at hsolve
  exact ⟨⟨compressionIndex, wordEnds, data, hindexed, hends, hfilter, hsolve⟩,
    LetterBoxedSolver.run_covers hsize hlower hcsv⟩

/-- The letters `abcdefghiabc`, a word with the nine of them and a word of two. -/
theorem solvers_differ_on_repeated_nine :
    ((text "abcdefghiabc").length = BOX_CHARS ∧ (∀ c ∈ text "abcdefghiabc", IsLower c) ∧
      ¬(text "abcdefghiabc").Nodup ∧ LowerCsv (text "adgbehcfi,im") ∧
      OneLetterAmong (text "abcdefghiabc") (text "adgbehcfi,im")) ∧
    ∃ compressionIndex wordEnds data,
      gen_compression_index (text "abcdefghiabc") = .ok compressionIndex ∧
      word_ends .simd (text "adgbehcfi,im") 44 3 = .ok wordEnds ∧
      filter_and_hash (lenient fun _ => 0#32) compressionIndex (text "adgbehcfi,im") wordEnds =
        .ok data ∧
      solve settings compressionIndex data.words data.wordHashes = some (.ok []) ∧
      LetterBoxedSolver.run (text "abcdefghiabc") (some (text "adgbehcfi,im")) =
        [text "adgbehcfi"] := by
  have hsize : (text "abcdefghiabc").length = BOX_CHARS := by decide +kernel
  have hlower : ∀ c ∈ text "abcdefghiabc", IsLower c := by decide +kernel
  have hrepeated : ¬(text "abcdefghiabc").Nodup := by decide +kernel
  have hcsv : LowerCsv (text "adgbehcfi,im") := by decide +kernel
  have hone : OneLetterAmong (text "abcdefghiabc") (text "adgbehcfi,im") := by decide +kernel
  obtain ⟨⟨compressionIndex, wordEnds, data, hindexed, hends, hfilter, hsolve⟩, _⟩ :=
    solvers_differ_on_repeated .simd settings (fun _ => 0#32) hsize hlower hrepeated hcsv hone
  exact ⟨⟨hsize, hlower, hrepeated, hcsv, hone⟩, compressionIndex, wordEnds, data, hindexed, hends,
    hfilter, hsolve, by decide +kernel⟩

end LetterBoxed
