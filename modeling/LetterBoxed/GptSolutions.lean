/-
What `LetterBoxedSolver` returns, on any dictionary.

The dictionary is any text and the box text is any text with the letters of a
box, in either case. Words with a character that is no letter are passed over
like those that break the rules, and the rest of the run is the search that
`Loaded` is about. Its result is a shortest solution of at most three words, as
they stand in the dictionary.
-/
import LetterBoxed.GptWords
import LetterBoxed.Agreement

set_option autoImplicit false

open Paths

namespace LetterBoxed

namespace LetterBoxedSolver

variable {box : Box} {solver : LetterBoxedSolver} {words : List (List UInt8)}

/-! ## The box text -/

/-- The letters of a text, in lower case. -/
def letters_of (text : List UInt8) : List UInt8 :=
  (lower_case text).filter fun c => decide (IsLower c)

/-- The loop over the box passes over what is no letter. -/
theorem parse_box_letters_of (text : List UInt8) : ∀ (solver : LetterBoxedSolver) (i j : Nat),
    parse_box solver i j text = parse_box solver i j (letters_of text) := by
  induction text with
  | nil => exact fun _ _ _ => rfl
  | cons c text ih =>
      intro solver i j
      have hcons : letters_of (c :: text) =
          if IsLower (to_lower c) then to_lower c :: letters_of text else letters_of text := by
        unfold letters_of lower_case
        rw [List.map_cons, List.filter_cons]
        simp only [decide_eq_true_eq]
      rw [hcons, parse_box]
      by_cases hc : IsLower (to_lower c)
      · rw [if_pos hc, parse_box, to_lower_to_lower]
        unfold alphabet_index
        rw [dif_pos hc]
        dsimp only
        rw [ih, ih]
      · unfold alphabet_index
        rw [if_neg hc, dif_neg hc]
        exact ih _ _ _

/-! ## Words with other characters -/

theorem validate_letters_foreign (w : List UInt8) :
    (∃ c ∈ w, ¬IsLower (to_lower c)) → ∀ (mask : BitVec 32) (last_side : Int8),
      solver.validate_letters w mask last_side = none := by
  induction w with
  | nil => simp
  | cons c w ih =>
      intro hforeign mask last_side
      rw [validate_letters]
      by_cases hc : IsLower (to_lower c)
      · -- the foreign one is behind it
        obtain ⟨d, hd, hdl⟩ := hforeign
        have hrest : ∃ d ∈ w, ¬IsLower (to_lower d) := by
          rcases List.mem_cons.mp hd with rfl | hd
          · exact absurd hc hdl
          · exact ⟨d, hd, hdl⟩
        unfold alphabet_index
        rw [dif_pos hc]
        dsimp only
        rw [ih hrest]
        split_ifs <;> rfl
      · unfold alphabet_index
        rw [dif_neg hc]

/-- A word with a character that is no letter is passed over. -/
theorem add_word_foreign {w : List UInt8} (h : ∃ c ∈ w, ¬IsLower (to_lower c)) :
    solver.add_word w = solver := by
  unfold LetterBoxedSolver.add_word validate_and_process_word
  rw [validate_letters_foreign w h, ite_self]

/-- Adding words is adding those of letters only. -/
theorem add_words_letters (ws : List (List UInt8)) : ∀ solver : LetterBoxedSolver,
    ws.foldl LetterBoxedSolver.add_word solver =
      (ws.filter fun w => decide (∀ c ∈ w, IsLower (to_lower c))).foldl
        LetterBoxedSolver.add_word solver := by
  induction ws with
  | nil => exact fun _ => rfl
  | cons w ws ih =>
      intro solver
      rw [List.foldl_cons, List.filter_cons]
      by_cases hw : ∀ c ∈ w, IsLower (to_lower c)
      · rw [if_pos (decide_eq_true hw), List.foldl_cons, ih]
      · rw [if_neg (mt of_decide_eq_true hw), add_word_foreign (by push Not at hw; exact hw), ih]

/-- **What a run on lower-case data has loaded.** -/
theorem loaded_lower_case (box : Box) {text : List UInt8} (htext : letters_of text = box.characters)
    (data : List UInt8) :
    ∃ words, Loaded box words
        ((parse_box reset 0 0 text).load_and_filter_dictionary (some (lower_case data))) ∧
      (∀ w ∈ words, ∀ c ∈ w, IsLower c) ∧
      ∀ w, Usable box words w ↔
        w ∈ dictionary_words (lower_case data) ∧ 3 ≤ w.length ∧ box.LegalWord w := by
  -- the letters of such words are in lower case already
  have hsame : ∀ w ∈ dictionary_words (lower_case data), ∀ c ∈ w, to_lower c = c := by
    intro w hw c hc
    rw [dictionary_words_lower_case] at hw
    obtain ⟨w, _, rfl⟩ := List.mem_map.mp hw
    obtain ⟨d, _, rfl⟩ := List.mem_map.mp hc
    exact to_lower_to_lower d
  have hempty : Loaded box [] (parse_box reset 0 0 text) := by
    rw [parse_box_letters_of, htext]
    refine ⟨parse_box_box box, fun i info => ?_⟩
    rw [parse_box_words]
    simp [reset]
  refine ⟨(dictionary_words (lower_case data)).filter fun w =>
    decide (∀ c ∈ w, IsLower (to_lower c)), ?_, ?_, fun w => ?_⟩
  · unfold load_and_filter_dictionary
    dsimp only
    rw [load_words_eq, add_words_letters]
    apply hempty.add_words
    intro w hw c hc
    obtain ⟨hw, hlower⟩ := List.mem_filter.mp hw
    rw [← hsame w hw c hc]
    exact of_decide_eq_true hlower c hc
  · intro w hw c hc
    obtain ⟨hw, hlower⟩ := List.mem_filter.mp hw
    rw [← hsame w hw c hc]
    exact of_decide_eq_true hlower c hc
  · unfold Usable
    rw [List.mem_filter, decide_eq_true_eq]
    constructor
    · rintro ⟨⟨hw, _⟩, hrest⟩
      exact ⟨hw, hrest⟩
    · rintro ⟨hw, hlong, hlegal⟩
      refine ⟨⟨hw, fun c hc => ?_⟩, hlong, hlegal⟩
      rw [hsame w hw c hc]
      exact box.lower c (hlegal.letters c hc)

/-! ## The search -/

section Loaded

variable (hloaded : Loaded box words solver) (hlower : ∀ w ∈ words, ∀ c ∈ w, IsLower c)
include hloaded hlower

/-- **What is found is a shortest cover** of usable words, at most three. -/
theorem Loaded.search_shortest {chain : List (List UInt8)} (hfound : solver.search = some chain) :
    (∀ w ∈ chain, Usable box words w) ∧ Linked chain ∧ box.CoveredBy chain ∧ chain.length ≤ 3 ∧
      ∀ chain', (∀ w ∈ chain', Usable box words w) → Linked chain' → box.CoveredBy chain' →
        chain.length ≤ chain'.length := by
  rw [search_eq_deepen, Option.map_eq_some_iff] at hfound
  obtain ⟨es, hfound, rfl⟩ := hfound
  obtain ⟨hsolves, hlen, hshortest⟩ := deepen_sound hfound
  obtain ⟨husable, hlinked, hcovered⟩ := hloaded.cover_of_solves hlower hsolves
  rw [List.length_map]
  refine ⟨husable, hlinked, hcovered, hlen, fun chain' hall' hlinked' hcovered' => ?_⟩
  obtain ⟨es', hsolves', rfl⟩ := hloaded.solves_of_cover hlower hall' hlinked' hcovered'
  rw [List.length_map]
  exact hshortest es' hsolves'

/-- **A cover of three usable words or fewer is not missed.** -/
theorem Loaded.search_ne_none {chain : List (List UInt8)} (hall : ∀ w ∈ chain, Usable box words w)
    (hlinked : Linked chain) (hcovered : box.CoveredBy chain) (hlen : chain.length ≤ 3) :
    solver.search ≠ none := by
  obtain ⟨es, hsolves, rfl⟩ := hloaded.solves_of_cover hlower hall hlinked hcovered
  rw [List.length_map] at hlen
  rw [search_eq_deepen, Ne, Option.map_eq_none_iff]
  exact deepen_complete (by decide) hsolves hlen

end Loaded

/-! ## Words of the result -/

/-- Every stored word is one of `words`. -/
def Stores (words : List (List UInt8)) (solver : LetterBoxedSolver) : Prop :=
  ∀ i, ∀ info ∈ solver.valid_words_by_start.get i, info.word ∈ words

/-- **Step lemma.** -/
theorem Stores.add_word {w : List UInt8} (h : Stores words solver) (hw : w ∈ words) :
    Stores words (solver.add_word w) := by
  unfold LetterBoxedSolver.add_word
  split
  · rename_i mask s e _ _ _
    intro i info hinfo
    unfold push_word at hinfo
    by_cases hi : s = i
    · subst hi
      rw [get_set_self, List.mem_append, List.mem_singleton] at hinfo
      rcases hinfo with hinfo | rfl
      · exact h s info hinfo
      · exact hw
    · rw [get_set_ne _ hi] at hinfo
      exact h i info hinfo
  · exact h

theorem Stores.add_words {ws : List (List UInt8)} (h : Stores words solver) (hws : ws ⊆ words) :
    Stores words (ws.foldl LetterBoxedSolver.add_word solver) := by
  induction ws generalizing solver with
  | nil => exact h
  | cons w ws ih =>
      rw [List.cons_subset] at hws
      exact ih (h.add_word hws.1) hws.2

/-- Paths are made of stored words. -/
theorem Stores.path (h : Stores words solver) (es : List WordInfo) :
    ∀ s, solver.word_search.space.IsPath s es → ∀ e ∈ es, e.word ∈ words := by
  induction es with
  | nil => exact fun _ _ e he => absurd he List.not_mem_nil
  | cons e es ih =>
      intro s hpath
      rw [isPath_cons] at hpath
      rw [List.forall_mem_cons]
      refine ⟨?_, ih _ hpath.2⟩
      cases s with
      | none =>
          obtain ⟨i, _, he⟩ := List.mem_flatMap.mp hpath.1
          exact h i e he
      | some s => exact h s.1 e hpath.1

/-- A result is made of words of the dictionary. -/
theorem mem_dictionary_words {text data w : List UInt8} (hw : w ∈ run text (some data)) :
    w ∈ dictionary_words data := by
  have hstores : Stores (dictionary_words data)
      ((parse_box reset 0 0 text).load_and_filter_dictionary (some data)) := by
    unfold load_and_filter_dictionary
    dsimp only
    rw [load_words_eq]
    apply Stores.add_words _ (List.Subset.refl _)
    intro i info hinfo
    rw [parse_box_words] at hinfo
    simp [reset] at hinfo
  unfold run at hw
  rw [search_eq_deepen] at hw
  generalize (parse_box reset 0 0 text).load_and_filter_dictionary (some data) = solver
    at hstores hw
  cases hfound : solver.word_search.deepen 3 none with
  | none =>
      rw [hfound] at hw
      exact absurd hw List.not_mem_nil
  | some es =>
      rw [hfound, Option.map_some, Option.getD_some] at hw
      obtain ⟨e, he, rfl⟩ := List.mem_map.mp hw
      exact hstores.path es none (deepen_sound hfound).1.path e he

/-! ## run -/

/-- A solution with words of a dictionary, in either case, of three letters or
more. -/
structure Plays (box : Box) (words chain : List (List UInt8)) : Prop where
  mem : ∀ w ∈ chain, w ∈ words
  long : ∀ w ∈ chain, 3 ≤ w.length
  legal : ∀ w ∈ chain, box.LegalWord (lower_case w)
  linked : Linked (chain.map lower_case)
  covered : box.CoveredBy (chain.map lower_case)

/-- **`run` returns a shortest solution.** For every text with the letters of a
box and every dictionary, nothing is returned if and only if every solution has
more than three words, and what is returned is a solution with the least number
of words. -/
theorem run_shortest_solution (box : Box) (text data : List UInt8)
    (htext : letters_of text = box.characters) :
    (run text (some data) = [] ↔
        ∀ chain, Plays box (dictionary_words data) chain → 3 < chain.length) ∧
      (run text (some data) ≠ [] →
        Plays box (dictionary_words data) (run text (some data)) ∧
          (run text (some data)).length ≤ 3 ∧
          ∀ chain, Plays box (dictionary_words data) chain →
            (run text (some data)).length ≤ chain.length) := by
  obtain ⟨words, hloaded, hlower, husable⟩ := loaded_lower_case box htext data
  have hcase := run_lower_case text (some data)
  rw [Option.map_some] at hcase
  unfold run at hcase
  rw [parse_box_lower_case] at hcase
  change _ = (run text (some data)).map lower_case at hcase
  -- in lower case a solution is a cover of usable words
  have hplays : ∀ {chain}, Plays box (dictionary_words data) chain →
      ∀ w ∈ chain.map lower_case, Usable box words w := by
    intro chain hchain v hv
    obtain ⟨w, hw, rfl⟩ := List.mem_map.mp hv
    rw [husable, dictionary_words_lower_case, lower_case_length]
    exact ⟨List.mem_map_of_mem (hchain.mem w hw), hchain.long w hw, hchain.legal w hw⟩
  cases hfound : ((parse_box reset 0 0 text).load_and_filter_dictionary
      (some (lower_case data))).search with
  | none =>
      rw [hfound, Option.getD_none, eq_comm, List.map_eq_nil_iff] at hcase
      rw [hcase]
      refine ⟨⟨fun _ chain hchain => ?_, fun _ => rfl⟩, fun hne => absurd rfl hne⟩
      by_contra hlen
      refine hloaded.search_ne_none hlower (hplays hchain) hchain.linked hchain.covered ?_ hfound
      rw [List.length_map]
      omega
  | some chain =>
      rw [hfound, Option.getD_some] at hcase
      obtain ⟨hall, hlinked, hcovered, hlen, hshortest⟩ := hloaded.search_shortest hlower hfound
      subst hcase
      rw [List.length_map] at hlen
      have hsolution : Plays box (dictionary_words data) (run text (some data)) := by
        refine ⟨fun w hw => mem_dictionary_words hw, fun w hw => ?_, fun w hw => ?_, hlinked,
          hcovered⟩
        · rw [← lower_case_length]
          exact ((husable _).mp (hall _ (List.mem_map_of_mem hw))).2.1
        · exact ((husable _).mp (hall _ (List.mem_map_of_mem hw))).2.2
      refine ⟨⟨fun hnil => ?_, fun hnone => ?_⟩, fun _ => ⟨hsolution, hlen, fun chain hchain => ?_⟩⟩
      · -- the empty chain covers nothing
        obtain ⟨w, hw, _⟩ := hcovered _ (Box.letter_mem ⟨0, by decide⟩)
        rw [hnil] at hw
        exact absurd hw List.not_mem_nil
      · have hlong := hnone _ hsolution
        omega
      · have hle := hshortest _ (hplays hchain) hchain.linked hchain.covered
        rw [List.length_map, List.length_map] at hle
        exact hle

/-- The first box as four groups of capitals, and one word behind a line break. -/
theorem run_shortest_solution_capitals :
    letters_of [65, 66, 67, 32, 68, 69, 70, 32, 71, 72, 73, 32, 74, 75, 76] =
        first_box.characters ∧
      (run [65, 66, 67, 32, 68, 69, 70, 32, 71, 72, 73, 32, 74, 75, 76]
          (some (10 :: linked_words)) = [] ↔
        ∀ chain, Plays first_box (dictionary_words (10 :: linked_words)) chain →
          3 < chain.length) := by
  have htext : letters_of [65, 66, 67, 32, 68, 69, 70, 32, 71, 72, 73, 32, 74, 75, 76] =
      first_box.characters := by
    decide +kernel
  exact ⟨htext, (run_shortest_solution first_box _ (10 :: linked_words) htext).1⟩

end LetterBoxedSolver

end LetterBoxed
