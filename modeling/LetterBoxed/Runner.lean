/-
The runner as a program: the text it prints for what it reads.

A solution is printed as nested ranges of quoted words, one on a line. Words
are over `a` to `z`, so nothing in them is escaped, and the text shows where
each word, position, solution and line ends: what was found can be read back.

Puzzles with the same sides have the same solutions, in whatever order the
letters are typed, and more words leave the solutions there were.
-/
import LetterBoxed.Pipeline
import LetterBoxed.ReadSides
import LetterBoxed.Lib.PrefixCode

set_option autoImplicit false

open PrefixCode

namespace LetterBoxed

/-- The bytes of a text. -/
def text (s : String) : List UInt8 := s.toList.map fun c => UInt8.ofNat c.toNat

/-! ## Printing -/

/-- A string in a range is quoted. Letters are not escaped. -/
def format_word (w : List UInt8) : List UInt8 := text "\"" ++ (w ++ text "\"")

/-- `std::format("{}", variants)` -/
def format_variants (variants : List (List UInt8)) : List UInt8 :=
  range 91 93 (text ", ") format_word variants

/-- `std::format("{}", solution)`, which is that of its chain. -/
def format_solution (solution : solution_t) : List UInt8 :=
  range 91 93 (text ", ") format_variants solution.chain

def println (line : List UInt8) : List UInt8 := line ++ text "\n"

/-- What `print_solutions` prints when `solve` has returned. -/
def print_lines (solutions : List solution_t) : List UInt8 :=
  (if solutions = [] then println (text "no solution") else []) ++
    solutions.flatMap fun solution => println (format_solution solution)

/-- `solve_manual` for the word list `csv`. -/
def solve_manual (cfg : Settings) (oversized : Nat → Except Fault char_mask_t) (build : SplitBuild)
    (csv characters : List UInt8) : Run (List UInt8) := do
  let wordEnds ← word_ends build csv 44 3
  let solutions ← print_solutions cfg oversized characters csv wordEnds
  return print_lines solutions

/-- `main`: what it prints behind the prompts for the sides. -/
def runner_main (cfg : Settings) (oversized : Nat → Except Fault char_mask_t) (build : SplitBuild)
    (csv input : List UInt8) : Run (List UInt8) := do
  let (sides, _) ← read_sides input
  let printed ← solve_manual cfg oversized build csv sides
  return printed ++ println [] ++ text "Press Enter to continue . . ."

/-! ## Reading back -/

/-- Every word of the solution is over `a` to `z`. -/
def solution_t.Lower (solution : solution_t) : Prop :=
  ∀ variants ∈ solution.chain, ∀ w ∈ variants, ∀ c ∈ w, IsLower c

theorem format_word_isPrefixCode :
    IsPrefixCode (fun w : List UInt8 => ∀ c ∈ w, IsLower c) format_word := by
  have hquote : ∀ w : List UInt8, (∀ c ∈ w, IsLower c) → 34 ∉ w := by
    intro w hw hmem
    exact absurd (hw 34 hmem) (by decide)
  intro v w hv hw r s heq
  exact (terminated 34).behind (text "\"") v w (hquote v hv) (hquote w hw) r s heq

/-- The separator is not a closing bracket. -/
theorem separator_ne : text ", " ≠ [] ∧ (93 : UInt8) ∉ (text ", ").head? := by decide

theorem format_variants_isPrefixCode :
    IsPrefixCode (fun variants => ∀ w ∈ variants, ∀ c ∈ w, IsLower c) format_variants := by
  apply format_word_isPrefixCode.range separator_ne.1 separator_ne.2
  intro w _
  exact ⟨List.cons_ne_nil _ _, show (93 : UInt8) ∉ some 34 by decide⟩

theorem format_solution_isPrefixCode : IsPrefixCode solution_t.Lower format_solution := by
  have hchain : IsPrefixCode _ (range 91 93 (text ", ") format_variants) :=
    format_variants_isPrefixCode.range separator_ne.1 separator_ne.2 fun variants _ =>
      ⟨List.cons_ne_nil _ _, show (93 : UInt8) ∉ some 91 by decide⟩
  rintro ⟨chain⟩ ⟨chain'⟩ hlower hlower' r s heq
  obtain ⟨rfl, hrest⟩ := hchain chain chain' hlower hlower' r s heq
  exact ⟨rfl, hrest⟩

/-- Lists of solutions that print the same text are equal. -/
theorem print_lines_inj {sols sols' : List solution_t} (hlower : ∀ sol ∈ sols, sol.Lower)
    (hlower' : ∀ sol ∈ sols', sol.Lower) (heq : print_lines sols = print_lines sols') :
    sols = sols' := by
  have hline : IsPrefixCode solution_t.Lower fun sol => println (format_solution sol) :=
    format_solution_isPrefixCode.followed (text "\n")
  -- without solutions the text begins with a letter
  have hnone : ∀ sol sols, print_lines [] ≠ print_lines (sol :: sols) := by
    intro sol sols heq
    have hhead := congrArg List.head? heq
    exact absurd hhead (show some (110 : UInt8) ≠ some 91 by decide)
  cases sols with
  | nil =>
      cases sols' with
      | nil => rfl
      | cons sol sols => exact absurd heq (hnone sol sols)
  | cons sol sols =>
      cases sols' with
      | nil => exact absurd heq.symm (hnone sol sols)
      | cons sol' sols' =>
          unfold print_lines at heq
          rw [if_neg (List.cons_ne_nil _ _), if_neg (List.cons_ne_nil _ _)] at heq
          exact hline.flatMap_inj (fun _ _ => List.cons_ne_nil _ _) hlower hlower' heq

/-- **What is printed can be read back**: another list of solutions over `a` to
`z`, in another order, with other positions or variants, prints another text,
and stays another when something else is printed behind it. -/
theorem printed_solutions_determined (sols sols' : List solution_t)
    (hlower : ∀ sol ∈ sols, sol.Lower) (hlower' : ∀ sol ∈ sols', sol.Lower) :
    (print_lines sols = print_lines sols' ↔ sols = sols') ∧
      ∀ sol ∈ sols, ∀ sol' ∈ sols', ∀ rest rest',
        format_solution sol ++ rest = format_solution sol' ++ rest' ↔ sol = sol' ∧ rest = rest' := by
  refine ⟨⟨print_lines_inj hlower hlower', fun heq => by rw [heq]⟩, ?_⟩
  intro sol hsol sol' hsol' rest rest'
  constructor
  · exact format_solution_isPrefixCode sol sol' (hlower sol hsol) (hlower' sol' hsol') rest rest'
  · rintro ⟨rfl, rfl⟩
    rfl

/-- Two positions of one word each, and one position of two words. -/
theorem printed_solutions_determined_positions :
    (∀ sol ∈ [solution_t.mk [[[97]], [[98]]]], sol.Lower) ∧
      (∀ sol ∈ [solution_t.mk [[[97], [98]]]], sol.Lower) ∧
      (print_lines [⟨[[[97]], [[98]]]⟩] = print_lines [⟨[[[97], [98]]]⟩] ↔
        [solution_t.mk [[[97]], [[98]]]] = [⟨[[[97], [98]]]⟩]) := by
  have hlower : ∀ sol ∈ [solution_t.mk [[[97]], [[98]]]], sol.Lower := by
    unfold solution_t.Lower
    decide +kernel
  have hlower' : ∀ sol ∈ [solution_t.mk [[[97], [98]]]], sol.Lower := by
    unfold solution_t.Lower
    decide +kernel
  exact ⟨hlower, hlower', (printed_solutions_determined _ _ hlower hlower').1⟩

/-! ## The whole program -/

variable {box : Box} {csv : List UInt8}

/-- Any word of an entry is in a reading of it. -/
theorem exists_reads_mem {sol : solution_t} (hne : ∀ variants ∈ sol.chain, variants ≠ [])
    {variants : List (List UInt8)} (hvariants : variants ∈ sol.chain) {w : List UInt8}
    (hw : w ∈ variants) : ∃ chain, sol.Reads chain ∧ w ∈ chain := by
  obtain ⟨before, after, hsplit⟩ := List.append_of_mem hvariants
  unfold solution_t.Reads
  rw [hsplit] at hne ⊢
  simp only [List.mem_append, List.mem_cons] at hne
  have hbefore : ∀ v ∈ (solution_t.mk before).chain, v ≠ [] := fun v hv => hne v (.inl hv)
  have hafter : ∀ v ∈ (solution_t.mk after).chain, v ≠ [] := fun v hv => hne v (.inr (.inr hv))
  obtain ⟨chain, hchain⟩ := exists_reads hbefore
  obtain ⟨chain', hchain'⟩ := exists_reads hafter
  refine ⟨chain ++ w :: chain', List.rel_append hchain (.cons hw hchain'), ?_⟩
  exact List.mem_append_right _ List.mem_cons_self

/-- The words of an entry are words of the box. -/
theorem Solved.lower {cfg : Settings} {bw : BoxWords box} {sols : List solution_t}
    (h : Solved cfg bw sols) : ∀ sol ∈ sols, sol.Lower := by
  intro sol hsol variants hvariants w hw c hc
  obtain ⟨chain, hreads, hmem⟩ := exists_reads_mem (h.variants_ne_nil hsol) hvariants hw
  exact box.lower c (bw.letters w ((h.reads hsol hreads).1.mem w hmem) c hc)

/-- `solve_manual` prints what the stages return. -/
theorem solve_manual_eq {build : SplitBuild} {cfg : Settings} {junk : Nat → char_mask_t}
    {data : words_data} {sols : List solution_t} (h : Yields build cfg junk box csv data sols) :
    solve_manual cfg (lenient junk) build csv box.characters = some (.ok (print_lines sols)) := by
  obtain ⟨compressionIndex, wordEnds, hindex, hends, hfilter, hsolve⟩ := h
  have hprint : print_solutions cfg (lenient junk) box.characters csv wordEnds =
      some (.ok sols) := by
    unfold print_solutions
    rw [run_lift_ok hindex, run_lift_ok hfilter]
    exact hsolve
  unfold solve_manual
  rw [run_lift_ok hends, run_bind_ok hprint]
  rfl

/-- A covering chain of kept words is a legal solution. -/
theorem isCover_kept_iff (hone : box.OneLetterInside csv) {n : Nat} {chain : List (List UInt8)} :
    (box.IsCover (box.kept_words csv hone).words chain ∧ chain.length ≤ n) ↔
      box.LegalSolution csv n chain := by
  constructor
  · rintro ⟨hcover, hle⟩
    exact ⟨hcover.length_pos, hle, fun w hw => ((mem_kept_words hone w).mp (hcover.mem w hw)).1,
      fun w hw => ((mem_kept_words hone w).mp (hcover.mem w hw)).2, hcover.linked, hcover.covered⟩
  · intro h
    exact ⟨⟨fun w hw => (mem_kept_words hone w).mpr ⟨h.fields w hw, h.legal w hw⟩, h.linked,
      h.covered⟩, h.length_le⟩

/-- **The runner, from its input to its output.** Let the first four sides of
the input be a box. The program ends, and it prints that there is no solution
if and only if no legal solution of `MAX_SEARCH_SIZE` words or fewer exists.
Otherwise it prints solutions, whose readings are legal, the first of them
shortest, and only these solutions have this text. -/
theorem runner_prints (build : SplitBuild) (cfg : Settings) (junk : Nat → char_mask_t) (box : Box)
    (csv input : List UInt8) (hcsv : LowerCsv csv) (hone : box.OneLetterInside csv) (i : Nat)
    (hfirst : FirstSides (tokens input) i)
    (hbox : characters_at (tokens input) i = box.characters) :
    ∃ sols, runner_main cfg (lenient junk) build csv input =
        some (.ok (print_lines sols ++ println [] ++ text "Press Enter to continue . . .")) ∧
      (print_lines sols = println (text "no solution") ↔
        ∀ chain, ¬box.LegalSolution csv cfg.MAX_SEARCH_SIZE chain) ∧
      (∀ sol ∈ sols, ∀ chain, sol.Reads chain →
        box.LegalSolution csv cfg.MAX_SEARCH_SIZE chain) ∧
      (∀ sol ∈ sols.head?, ∀ chain, box.LegalSolution csv cfg.MAX_SEARCH_SIZE chain →
        sol.chain.length ≤ chain.length) ∧
      ∀ sols', (∀ sol ∈ sols', sol.Lower) → print_lines sols' = print_lines sols → sols' = sols := by
  obtain ⟨rest, hread, _⟩ := read_sides_first i input hfirst
  rw [hbox] at hread
  obtain ⟨data, sols, hyields, _, ⟨hsolved⟩⟩ := exists_yields build cfg junk hcsv hone
  have hinj : ∀ sols', (∀ sol ∈ sols', sol.Lower) → print_lines sols' = print_lines sols →
      sols' = sols := fun _ hlower heq => print_lines_inj hlower hsolved.lower heq
  refine ⟨sols, ?_, ?_, fun sol hsol chain hreads => ?_, fun sol hsol chain hlegal => ?_, hinj⟩
  · unfold runner_main
    rw [run_bind_ok hread]
    dsimp only
    rw [run_bind_ok (solve_manual_eq hyields)]
    rfl
  · -- the line is that of an empty list
    have hnil : print_lines sols = println (text "no solution") ↔ sols = [] := by
      constructor
      · intro heq
        exact (hinj [] (fun _ hsol => absurd hsol List.not_mem_nil) heq.symm).symm
      · rintro rfl
        rfl
    rw [hnil, ← not_ne_iff, hsolved.ne_nil_iff, not_exists]
    exact forall_congr' fun chain => not_congr (isCover_kept_iff hone)
  · obtain ⟨hcover, _, hle, _⟩ := hsolved.reads hsol hreads
    exact (isCover_kept_iff hone).mp ⟨hcover, hle⟩
  · cases sols with
    | nil => simp at hsol
    | cons first rest =>
        rw [List.head?_cons, Option.mem_some_iff] at hsol
        subst hsol
        exact hsolved.first_le ((isCover_kept_iff hone).mpr hlegal).1

/-- The sides of the first box on one line, behind one that is too short. -/
theorem runner_prints_first_box :
    (LowerCsv linked_words ∧ first_box.OneLetterInside linked_words ∧
      FirstSides (tokens (text "ab abc def ghi jkl")) 1 ∧
      characters_at (tokens (text "ab abc def ghi jkl")) 1 = first_box.characters) ∧
    ∃ sols, runner_main settings (lenient fun _ => 0#32) .simd linked_words
        (text "ab abc def ghi jkl") =
      some (.ok (print_lines sols ++ println [] ++ text "Press Enter to continue . . .")) ∧
      print_lines sols ≠ println (text "no solution") ∧
      ∀ sol ∈ sols.head?, sol.chain.length ≤ 2 := by
  have hcsv : LowerCsv linked_words := by decide +kernel
  have hone : first_box.OneLetterInside linked_words := by decide +kernel
  have hfirst : FirstSides (tokens (text "ab abc def ghi jkl")) 1 :=
    ⟨by decide +kernel, by decide +kernel⟩
  have hbox : characters_at (tokens (text "ab abc def ghi jkl")) 1 = first_box.characters := by
    decide +kernel
  have hlegal : first_box.LegalSolution linked_words settings.MAX_SEARCH_SIZE
      [text "aebdcf", text "fgjhkil"] :=
    ⟨by decide, by decide, by decide +kernel, by decide +kernel, by decide +kernel,
      by decide +kernel⟩
  obtain ⟨sols, hrun, hnone, _, hshortest, _⟩ := runner_prints .simd settings (fun _ => 0#32)
    first_box linked_words (text "ab abc def ghi jkl") hcsv hone 1 hfirst hbox
  exact ⟨⟨hcsv, hone, hfirst, hbox⟩, sols, hrun, fun heq => hnone.mp heq _ hlegal,
    fun sol hsol => hshortest sol hsol _ hlegal⟩

/-! ## Boxes with the same sides -/

/-- The same letters, and the same of them on one side. -/
structure SameSides (box box' : Box) : Prop where
  letters : ∀ c, c ∈ box.characters ↔ c ∈ box'.characters
  sides : ∀ c ∈ box.characters, ∀ d ∈ box.characters,
    box.side c = box.side d ↔ box'.side c = box'.side d

theorem SameSides.symm {box' : Box} (h : SameSides box box') : SameSides box' box where
  letters c := (h.letters c).symm
  sides c hc d hd := (h.sides c ((h.letters c).mpr hc) d ((h.letters d).mpr hd)).symm

theorem SameSides.legalWord {box' : Box} (h : SameSides box box') {w : List UInt8}
    (hw : box.LegalWord w) : box'.LegalWord w := by
  refine ⟨hw.ne_nil, fun c hc => (h.letters c).mp (hw.letters c hc), ?_⟩
  refine (List.IsChain.iff_of_mem_imp fun c d hc hd => ?_).mp hw.sides
  exact not_congr (h.sides c (hw.letters c hc) d (hw.letters d hd))

/-- A legal solution stays one when words are added, and when letters change
places within their sides, or sides with each other. -/
theorem SameSides.legalSolution {box' : Box} (h : SameSides box box') {csv' : List UInt8}
    (hfields : ∀ w ∈ fields csv, w ∈ fields csv') {n : Nat} {chain : List (List UInt8)}
    (hchain : box.LegalSolution csv n chain) : box'.LegalSolution csv' n chain :=
  ⟨hchain.length_pos, hchain.length_le, fun w hw => hfields w (hchain.fields w hw),
    fun w hw => h.legalWord (hchain.legal w hw), hchain.linked,
    fun c hc => hchain.covered c ((h.letters c).mpr hc)⟩

/-- **More words are never worse.** For a second box with the same sides, in
another order, and a second word list with the words of the first and others, in
any order, a solution is found if one was, and the first one is not longer. The
builds do not matter. -/
theorem more_words_no_worse (build build' : SplitBuild) (cfg : Settings)
    (junk junk' : Nat → char_mask_t) {box box' : Box} (hsides : SameSides box box')
    {csv csv' : List UInt8} (hcsv : LowerCsv csv) (hcsv' : LowerCsv csv')
    (hone : box.OneLetterInside csv) (hone' : box'.OneLetterInside csv')
    (hfields : ∀ w ∈ fields csv, w ∈ fields csv') :
    ∃ data sols data' sols', Yields build cfg junk box csv data sols ∧
      Yields build' cfg junk' box' csv' data' sols' ∧ (sols ≠ [] → sols' ≠ []) ∧
      ∀ sol ∈ sols.head?, ∀ sol' ∈ sols'.head?, sol'.chain.length ≤ sol.chain.length := by
  obtain ⟨data, sols, hyields, _, ⟨hsolved⟩⟩ := exists_yields build cfg junk hcsv hone
  obtain ⟨data', sols', hyields', _, ⟨hsolved'⟩⟩ := exists_yields build' cfg junk' hcsv' hone'
  refine ⟨data, sols, data', sols', hyields, hyields', fun hne => ?_, fun sol hsol sol' hsol' => ?_⟩
  · obtain ⟨chain, hchain⟩ := hsolved.ne_nil_iff.mp hne
    have hlegal := hsides.legalSolution hfields ((isCover_kept_iff hone).mp hchain)
    exact hsolved'.ne_nil_iff.mpr ⟨chain, (isCover_kept_iff hone').mpr hlegal⟩
  · cases sols with
    | nil => simp at hsol
    | cons first rest =>
        cases sols' with
        | nil => simp at hsol'
        | cons first' rest' =>
            rw [List.head?_cons, Option.mem_some_iff] at hsol hsol'
            subst hsol hsol'
            -- a reading of the first solution is one for the second box
            obtain ⟨chain, hreads⟩ := exists_reads (hsolved.variants_ne_nil List.mem_cons_self)
            obtain ⟨hcover, _, hle, hlen⟩ := hsolved.reads List.mem_cons_self hreads
            have hlegal := hsides.legalSolution hfields ((isCover_kept_iff hone).mp ⟨hcover, hle⟩)
            rw [← hlen]
            exact hsolved'.first_le ((isCover_kept_iff hone').mpr hlegal).1

/-- The first box with its sides in reverse, and an empty field more. -/
theorem more_words_no_worse_reversed :
    ∃ box' : Box, box'.characters = first_box.characters.reverse ∧ SameSides first_box box' ∧
      ∃ data sols data' sols',
        Yields .simd settings (fun _ => 0#32) first_box linked_words data sols ∧
        Yields .scalar settings (fun _ => 1#32) box' (44 :: linked_words) data' sols' ∧
        (sols ≠ [] → sols' ≠ []) := by
  let box' : Box := ⟨first_box.characters.reverse, rfl, by decide +kernel, by decide +kernel⟩
  have hsides : SameSides first_box box' :=
    ⟨fun c => List.mem_reverse.symm, by decide +kernel⟩
  obtain ⟨data, sols, data', sols', hyields, hyields', hne, _⟩ :=
    more_words_no_worse .simd .scalar settings (fun _ => 0#32) (fun _ => 1#32) hsides
      (show LowerCsv linked_words by decide +kernel)
      (show LowerCsv (44 :: linked_words) by decide +kernel)
      (show first_box.OneLetterInside linked_words by decide +kernel)
      (show box'.OneLetterInside (44 :: linked_words) by decide +kernel) (by decide +kernel)
  exact ⟨box', rfl, hsides, data, sols, data', sols', hyields, hyields', hne⟩

end LetterBoxed
