/-
`LetterBoxedSolver` on any box text and any dictionary.

The words of a dictionary are what stands between its delimiters. Letters are
made lower-case wherever they are looked at, and the text of a word only ends
up in the result. So a run on the dictionary and the box in lower case is the
same run, and its result is the result in lower case.
-/
import LetterBoxed.GptTables
import LetterBoxed.Lib.Tokens

set_option autoImplicit false

namespace LetterBoxed

/-- `A` to `Z` as `a` to `z`, throughout a text. -/
def lower_case (w : List UInt8) : List UInt8 := w.map to_lower

/-! ## Upper and lower case -/

/-- The value of a character in lower case. -/
theorem toNat_to_lower (c : UInt8) :
    (to_lower c).toNat = if 65 ≤ c.toNat ∧ c.toNat ≤ 90 then c.toNat + 32 else c.toNat := by
  have hlt := c.toNat_lt
  have hcase : (65 ≤ c ∧ c ≤ 90) ↔ 65 ≤ c.toNat ∧ c.toNat ≤ 90 := by
    rw [UInt8.le_iff_toNat_le, UInt8.le_iff_toNat_le]
    rfl
  unfold to_lower
  by_cases hupper : 65 ≤ c.toNat ∧ c.toNat ≤ 90
  · rw [if_pos (hcase.mpr hupper), if_pos hupper, UInt8.toNat_add, UInt8.toNat_sub_of_le]
    · have h65 : (65 : UInt8).toNat = 65 := rfl
      have h97 : (97 : UInt8).toNat = 97 := rfl
      omega
    · exact (hcase.mpr hupper).1
  · rw [if_neg (mt hcase.mp hupper), if_neg hupper]

@[simp] theorem to_lower_to_lower (c : UInt8) : to_lower (to_lower c) = to_lower c := by
  apply UInt8.toNat_inj.mp
  rw [toNat_to_lower (to_lower c), toNat_to_lower]
  split_ifs <;> omega

theorem lower_case_length (w : List UInt8) : (lower_case w).length = w.length := List.length_map _

namespace LetterBoxedSolver

variable {solver : LetterBoxedSolver}

/-! ## The words of a dictionary -/

/-- What stands between the delimiters. -/
def dictionary_words (data : List UInt8) : List (List UInt8) := Tokens.words is_delimiter data

/-- No delimiter is a letter, and none becomes one. -/
theorem is_delimiter_to_lower (c : UInt8) : is_delimiter (to_lower c) = is_delimiter c := by
  have hval : ∀ d : UInt8, d.toNat < 65 → (to_lower c == d) = (c == d) := by
    intro d hd
    rw [Bool.eq_iff_iff, beq_iff_eq, beq_iff_eq, ← UInt8.toNat_inj, ← UInt8.toNat_inj,
      toNat_to_lower]
    split_ifs <;> omega
  unfold is_delimiter
  rw [hval 13 (by decide), hval 10 (by decide), hval 44 (by decide), hval 32 (by decide),
    hval 9 (by decide)]

theorem dictionary_words_lower_case (data : List UInt8) :
    dictionary_words (lower_case data) = (dictionary_words data).map lower_case :=
  Tokens.words_map is_delimiter_to_lower data

/-- **The loop of `load_and_filter_dictionary`** adds the words of the data. -/
theorem load_words_eq (data : List UInt8) : ∀ solver : LetterBoxedSolver,
    solver.load_words data = (dictionary_words data).foldl LetterBoxedSolver.add_word solver := by
  -- on the length of what is left to read
  induction hlen : data.length using Nat.strong_induction_on generalizing data with
  | _ n ih =>
      intro solver
      subst hlen
      cases hdata : data.dropWhile is_delimiter with
      | nil =>
          have hnone : dictionary_words data = [] := by
            unfold dictionary_words
            rw [← Tokens.words_dropWhile, hdata]
            rfl
          rw [load_words_done hdata, hnone]
          rfl
      | cons c rest =>
          have hle := (List.dropWhile_suffix is_delimiter (l := data)).length_le
          have hle' := (List.dropWhile_suffix (fun c => !is_delimiter c) (l := rest)).length_le
          rw [hdata, List.length_cons] at hle
          have hwords : dictionary_words data = (c :: rest.takeWhile fun c => !is_delimiter c) ::
              dictionary_words (rest.dropWhile fun c => !is_delimiter c) := Tokens.words_read hdata
          rw [load_words_word hdata, hwords, List.foldl_cons]
          exact ih _ (by omega) _ rfl _

/-- A stored word with its text in lower case. -/
def lower_info (info : WordInfo) : WordInfo := { info with word := lower_case info.word }

/-- The solver with the texts of its words in lower case. -/
def in_lower_case (solver : LetterBoxedSolver) : LetterBoxedSolver :=
  { solver with valid_words_by_start := solver.valid_words_by_start.map (List.map lower_info) }

theorem get_in_lower_case (i : Fin CHARACTERS) :
    solver.in_lower_case.valid_words_by_start.get i =
      (solver.valid_words_by_start.get i).map lower_info := by
  unfold in_lower_case
  simp [Vector.get_eq_getElem]

/-! ## Reading in lower case -/

/-- A letter is looked up in lower case. -/
theorem validate_letters_lower_case (w : List UInt8) : ∀ (mask : BitVec 32) (last_side : Int8),
    solver.in_lower_case.validate_letters (lower_case w) mask last_side =
      solver.validate_letters w mask last_side := by
  induction w with
  | nil => exact fun _ _ => rfl
  | cons c w ih =>
      intro mask last_side
      have hcons : lower_case (c :: w) = to_lower c :: lower_case w := rfl
      rw [hcons, validate_letters, validate_letters, to_lower_to_lower]
      cases alphabet_index (to_lower c) with
      | none => rfl
      | some i =>
          dsimp only
          rw [ih]
          rfl

theorem validate_and_process_word_lower_case (w : List UInt8) :
    solver.in_lower_case.validate_and_process_word (lower_case w) =
      solver.validate_and_process_word w := by
  unfold validate_and_process_word
  rw [lower_case_length, validate_letters_lower_case]

/-- **Step lemma.** A word in lower case is stored where the word is. -/
theorem add_word_lower_case (solver : LetterBoxedSolver) (w : List UInt8) :
    solver.in_lower_case.add_word (lower_case w) = (solver.add_word w).in_lower_case := by
  have hindex : ∀ o : Option UInt8,
      ((o.map to_lower).bind fun c => alphabet_index (to_lower c)) =
        o.bind fun c => alphabet_index (to_lower c) := by
    intro o
    cases o with
    | none => rfl
    | some c => rw [Option.map_some, Option.bind_some, Option.bind_some, to_lower_to_lower]
  have hfront : (lower_case w).head? = w.head?.map to_lower := List.head?_map
  have hback : (lower_case w).getLast? = w.getLast?.map to_lower := List.getLast?_map
  unfold LetterBoxedSolver.add_word
  rw [validate_and_process_word_lower_case, hfront, hback, hindex, hindex]
  cases solver.validate_and_process_word w with
  | none => rfl
  | some mask =>
      cases w.head?.bind fun c => alphabet_index (to_lower c) with
      | none => rfl
      | some s =>
          cases w.getLast?.bind fun c => alphabet_index (to_lower c) with
          | none => rfl
          | some e =>
              unfold push_word in_lower_case
              dsimp only
              rw [Vector.map_set, List.map_append, ← get_in_lower_case]
              rfl

/-- **Run lemma.** -/
theorem add_words_lower_case (ws : List (List UInt8)) : ∀ solver : LetterBoxedSolver,
    (ws.map lower_case).foldl LetterBoxedSolver.add_word solver.in_lower_case =
      (ws.foldl LetterBoxedSolver.add_word solver).in_lower_case := by
  induction ws with
  | nil => exact fun _ => rfl
  | cons w ws ih =>
      intro solver
      rw [List.map_cons, List.foldl_cons, List.foldl_cons, add_word_lower_case, ih]

theorem load_and_filter_dictionary_lower_case (solver : LetterBoxedSolver)
    (dictionary : Option (List UInt8)) :
    solver.in_lower_case.load_and_filter_dictionary (dictionary.map lower_case) =
      (solver.load_and_filter_dictionary dictionary).in_lower_case := by
  cases dictionary with
  | none => rfl
  | some data =>
      rw [Option.map_some]
      unfold load_and_filter_dictionary
      dsimp only
      rw [load_words_eq, load_words_eq, dictionary_words_lower_case, add_words_lower_case]

/-- A box is read in lower case. -/
theorem parse_box_lower_case (text : List UInt8) : ∀ (solver : LetterBoxedSolver) (i j : Nat),
    parse_box solver i j (lower_case text) = parse_box solver i j text := by
  induction text with
  | nil => exact fun _ _ _ => rfl
  | cons c text ih =>
      intro solver i j
      have hcons : lower_case (c :: text) = to_lower c :: lower_case text := rfl
      rw [hcons, parse_box, parse_box, to_lower_to_lower]
      cases alphabet_index (to_lower c) with
      | none => exact ih _ _ _
      | some _ =>
          dsimp only
          rw [ih, ih]

/-! ## Searching in lower case -/

theorem dfs_lower_case (left : Nat) : ∀ (curr_char : Fin CHARACTERS) (current_mask : BitVec 32)
    (path : List WordInfo),
    solver.in_lower_case.dfs curr_char current_mask left (path.map lower_info) =
      (solver.dfs curr_char current_mask left path).map (List.map lower_case) := by
  have hwords : ∀ path : List WordInfo,
      (path.map lower_info).map WordInfo.word = (path.map WordInfo.word).map lower_case := by
    intro path
    rw [List.map_map, List.map_map]
    rfl
  have htarget : solver.in_lower_case.target_mask = solver.target_mask := rfl
  induction left with
  | zero =>
      intro curr_char current_mask path
      unfold dfs
      rw [hwords, htarget, apply_ite (Option.map _)]
      rfl
  | succ left ih =>
      intro curr_char current_mask path
      unfold dfs
      by_cases hmask : current_mask = solver.target_mask
      · rw [if_pos hmask, if_pos (hmask.trans htarget.symm), hwords]
        rfl
      · rw [if_neg hmask, if_neg (mt (·.trans htarget) hmask), List.map_findSome?]
        rw [get_in_lower_case, List.findSome?_map]
        refine congrArg (fun f => List.findSome? f _) (funext fun w => ?_)
        rw [Function.comp_apply, Function.comp_apply, ← ih, List.map_append]
        rfl

theorem search_lower_case :
    solver.in_lower_case.search = solver.search.map (List.map lower_case) := by
  unfold search
  rw [List.map_findSome?]
  refine congrArg (fun f => List.findSome? f _) (funext fun max_depth => ?_)
  rw [Function.comp_apply, List.map_findSome?]
  refine congrArg (fun f => List.findSome? f _) (funext fun start_char => ?_)
  rw [Function.comp_apply, List.map_findSome?, get_in_lower_case, List.findSome?_map]
  refine congrArg (fun f => List.findSome? f _) (funext fun w => ?_)
  rw [Function.comp_apply, Function.comp_apply, ← dfs_lower_case]
  rfl

/-- **Case does not matter.** Whatever the box text and the dictionary, in lower
case the same words are found, in lower case. -/
theorem run_lower_case (box_chars : List UInt8) (dictionary : Option (List UInt8)) :
    run (lower_case box_chars) (dictionary.map lower_case) =
      (run box_chars dictionary).map lower_case := by
  have hreset : ∀ text, (parse_box reset 0 0 text).in_lower_case = parse_box reset 0 0 text := by
    intro text
    have hempty : (parse_box reset 0 0 text).valid_words_by_start =
        Vector.replicate CHARACTERS [] := parse_box_words text reset 0 0
    unfold in_lower_case
    rw [hempty, Vector.map_replicate, List.map_nil, ← hempty]
  unfold run
  rw [parse_box_lower_case, ← hreset box_chars, load_and_filter_dictionary_lower_case,
    search_lower_case, hreset]
  cases ((parse_box reset 0 0 box_chars).load_and_filter_dictionary dictionary).search with
  | none => rfl
  | some solution => rfl

end LetterBoxedSolver

end LetterBoxed
