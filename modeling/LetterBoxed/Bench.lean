/-
`main` of the benchmark: it solves every puzzle of a file with both solvers,
gives up if they disagree, and registers its benchmarks, the solvable puzzles
before the others.

A puzzle is a date and twelve letters, two tokens of the file. The word list is a
lower-case csv. The two solvers do not always find a solution of the same
puzzles. The first also uses words of one or two letters, so it alone can solve
a box that needs one. Where a letter comes twice only the second can find
something, since it asks for the letters and not for the places.
-/
import LetterBoxed.GptAccepted

set_option autoImplicit false

namespace LetterBoxed

/-! ## The puzzles -/

/-- A read that finds a token leaves less to read. -/
theorem read_token_lt {input : List UInt8} (h : (read_token input).1 ≠ []) :
    (read_token input).2.length < input.length := by
  have hskip := (List.dropWhile_suffix is_space (l := input)).length_le
  unfold read_token at h ⊢
  dsimp only at h ⊢
  cases hrest : input.dropWhile is_space with
  | nil =>
      rw [hrest] at h
      exact absurd rfl h
  | cons c rest =>
      rw [hrest, List.length_cons] at hskip
      have hhead : c ∈ (input.dropWhile is_space).head? := by
        rw [hrest]
        rfl
      have hc : is_space c = false := head_dropWhile hhead
      -- the token has its first character at least
      have hdrop : (c :: rest).dropWhile (!is_space ·) = rest.dropWhile (!is_space ·) :=
        List.dropWhile_cons_of_pos (by rw [hc]; rfl)
      have hle := (List.dropWhile_suffix (!is_space ·) (l := rest)).length_le
      rw [hdrop]
      omega

/-- `load_puzzles`: dates and letters as long as both can be read. -/
def load_puzzles (file : List UInt8) : List (List UInt8 × List UInt8) :=
  -- each read is the token and what is behind it
  let date := read_token file
  if _ : date.1 = [] then []
  else
    let letters := read_token date.2
    if _ : letters.1 = [] then []
    else (date.1, letters.1) :: load_puzzles letters.2
termination_by file.length
decreasing_by exact Nat.lt_trans (read_token_lt ‹_›) (read_token_lt ‹_›)

/-- The group of a puzzle; the source has its name. -/
inductive puzzle_group
  | solvable
  | unsolvable
  deriving DecidableEq, Repr

def puzzle_group.name : puzzle_group → List UInt8
  | .solvable => text "solvable"
  | .unsolvable => text "unsolvable"

structure puzzle where
  date : List UInt8
  letters : List UInt8
  group : puzzle_group
  compressionIndex : compression_index_t
  wordsData : words_data
  deriving DecidableEq

/-! ## main -/

section Main

variable (cfg : Settings) (oversized : Nat → Except Fault char_mask_t)

/-- One turn of the loop over the puzzles. The second solver reads the same
word list. -/
def solve_puzzle (csv : List UInt8) (wordEnds : List Nat) (found : List puzzle × Nat)
    (line : List UInt8 × List UInt8) : Run (List puzzle × Nat) := do
  let (date, letters) := line
  let index ← gen_compression_index letters
  let wordsData ← filter_and_hash oversized index csv wordEnds
  let solutions ← solve cfg index wordsData.words wordsData.wordHashes
  let solvable := !solutions.isEmpty
  let disagrees := solvable == (LetterBoxedSolver.run letters (some csv)).isEmpty
  let group := if solvable then puzzle_group.solvable else .unsolvable
  return (found.1 ++ [{ date := date, letters := letters, group := group, compressionIndex := index,
                        wordsData := wordsData }],
    if disagrees then found.2 + 1 else found.2)

/-- The families of benchmarks that every puzzle has. -/
def families : List (List UInt8) :=
  [text "lbs/filter_and_hash", text "lbs/solve", text "lbs/total", text "lbs/total_with_load",
    text "gpt/total_with_load"]

/-- `{family}/{group}/{date}` -/
def puzzle.benchmark_name (p : puzzle) (family : List UInt8) : List UInt8 :=
  family ++ text "/" ++ p.group.name ++ text "/" ++ p.date

/-- The names under which `register_benchmarks` registers. -/
def register_benchmarks (puzzles : List puzzle) : List (List UInt8) :=
  [text "lbs/load/word_list/words_easy", text "lbs/word_ends/word_list/words_easy"] ++
    puzzles.flatMap fun p => families.map p.benchmark_name

/-- How `main` goes on when the puzzles are solved. -/
inductive bench_outcome
  | no_puzzles
  | disagree (disagreements : Nat)
  | registered (names : List (List UInt8))

/-- `std::ranges::stable_sort(puzzles, {}, &puzzle::group)` -/
def sort_puzzles (puzzles : List puzzle) : List puzzle :=
  puzzles.mergeSort fun p q => decide (p.group.name ≤ q.group.name)

/-- `main` up to the run of the benchmarks. -/
def bench_main (build : SplitBuild) (csv file : List UInt8) : Run bench_outcome := do
  let wordEnds ← word_ends build csv 44 3
  let (puzzles, disagreements) ←
    (load_puzzles file).foldlM (solve_puzzle cfg oversized csv wordEnds) ([], 0)
  if puzzles = [] then return .no_puzzles
  if disagreements ≠ 0 then return .disagree disagreements
  return .registered (register_benchmarks (sort_puzzles puzzles))

end Main

/-! ## Reading the puzzles -/

/-- Elements two by two; one that is left over is dropped. -/
def pairs {α : Type} : List α → List (α × α)
  | a :: b :: rest => (a, b) :: pairs rest
  | _ => []

/-- **The puzzles are the tokens of the file, two by two.** -/
theorem load_puzzles_eq (file : List UInt8) : load_puzzles file = pairs (tokens file) := by
  -- on the length of what is left to read
  induction hlen : file.length using Nat.strong_induction_on generalizing file with
  | _ n ih =>
      subst hlen
      obtain ⟨hdate, hrest⟩ := read_token_eq file
      obtain ⟨hletters, hrest'⟩ := read_token_eq (read_token file).2
      have hne : ∀ t ∈ tokens file, t ≠ [] := by
        intro t ht
        simpa using (List.mem_filter.mp ht).2
      rw [load_puzzles]
      dsimp only
      cases htokens : tokens file with
      | nil =>
          rw [htokens, List.head?_nil, Option.getD_none] at hdate
          rw [dif_pos hdate]
          rfl
      | cons date ts =>
          rw [htokens] at hdate hrest hne
          rw [hrest] at hletters hrest'
          have hdate_ne : (read_token file).1 ≠ [] := by
            rw [hdate]
            exact hne date List.mem_cons_self
          rw [dif_neg hdate_ne]
          cases ts with
          | nil =>
              rw [List.tail_cons, List.head?_nil, Option.getD_none] at hletters
              rw [dif_pos hletters]
              rfl
          | cons letters ts =>
              have hletters_ne : (read_token (read_token file).2).1 ≠ [] := by
                rw [hletters]
                exact hne letters (List.mem_cons_of_mem _ List.mem_cons_self)
              have hlt := read_token_lt hdate_ne
              have hlt' := read_token_lt hletters_ne
              rw [dif_neg hletters_ne, ih _ (by omega) _ rfl, hrest', hdate, hletters]
              rfl

/-- **A file with a puzzle on each line is read back.** -/
theorem load_puzzles_lines (puzzles : List (List UInt8 × List UInt8))
    (hwords : ∀ p ∈ puzzles, (p.1 ≠ [] ∧ ∀ c ∈ p.1, is_space c = false) ∧
      p.2 ≠ [] ∧ ∀ c ∈ p.2, is_space c = false) :
    load_puzzles (puzzles.flatMap fun p => p.1 ++ text " " ++ p.2 ++ text "\n") = puzzles := by
  rw [load_puzzles_eq]
  induction puzzles with
  | nil =>
      rw [List.flatMap_nil, tokens_nil]
      rfl
  | cons p puzzles ih =>
      rw [List.forall_mem_cons] at hwords
      obtain ⟨⟨hdate_ne, hdate⟩, hletters_ne, hletters⟩ := hwords.1
      have hblank : ∀ rest, tokens (p.1 ++ (text " " ++ rest)) = p.1 :: tokens rest := by
        intro rest
        rw [tokens_word hdate_ne hdate (by simp [text, is_space])]
        exact congrArg (p.1 :: ·) (tokens_space (by decide) rest)
      have hbreak : ∀ rest, tokens (p.2 ++ (text "\n" ++ rest)) = p.2 :: tokens rest := by
        intro rest
        rw [tokens_word hletters_ne hletters (by simp [text, is_space])]
        exact congrArg (p.2 :: ·) (tokens_space (by decide) rest)
      rw [List.flatMap_cons, List.append_assoc, List.append_assoc, List.append_assoc, hblank,
        hbreak, pairs, ih hwords.2]

/-! ## The loop over the puzzles -/

/-- Twelve lower-case letters. -/
def TwelveLetters (letters : List UInt8) : Prop :=
  letters.length = BOX_CHARS ∧ ∀ c ∈ letters, IsLower c

instance : DecidablePred TwelveLetters := fun _ => inferInstanceAs (Decidable (_ ∧ _))

/-- The puzzles on which the solvers disagree: only one of them has found a
solution. -/
def Contested (csv : List UInt8) (p : puzzle) : Prop :=
  ¬(p.group = .solvable ↔ LetterBoxedSolver.run p.letters (some csv) ≠ [])

instance (csv : List UInt8) : DecidablePred (Contested csv) :=
  fun _ => inferInstanceAs (Decidable (¬(_ ↔ _)))

/-- What is kept of a puzzle is what the stages return for its letters, and its
group says whether it has a legal solution. -/
structure puzzle.Fits (junk : Nat → char_mask_t) (csv : List UInt8) (wordEnds : List Nat)
    (p : puzzle) : Prop where
  twelve : TwelveLetters p.letters
  index_eq : gen_compression_index p.letters = .ok p.compressionIndex
  data_eq : filter_and_hash (lenient junk) p.compressionIndex csv wordEnds = .ok p.wordsData
  group_iff : p.group = .solvable ↔ ∃ box : Box, box.characters = p.letters ∧
    ∃ chain, box.LegalSolution csv settings.MAX_SEARCH_SIZE chain

section Loop

variable {csv letters : List UInt8} {build : SplitBuild} {wordEnds : List Nat}
  (hcsv : LowerCsv csv) (junk : Nat → char_mask_t) (hends : word_ends build csv 44 3 = .ok wordEnds)
include hcsv hends

/-- The first solver finds a solution if the letters are a box with a legal
one. -/
theorem solve_letters (hletters : TwelveLetters letters) (hone : OneLetterAmong letters csv) :
    ∃ compressionIndex data sols, gen_compression_index letters = .ok compressionIndex ∧
      filter_and_hash (lenient junk) compressionIndex csv wordEnds = .ok data ∧
      solve settings compressionIndex data.words data.wordHashes = some (.ok sols) ∧
      (sols ≠ [] ↔ ∃ box : Box, box.characters = letters ∧
        ∃ chain, box.LegalSolution csv settings.MAX_SEARCH_SIZE chain) := by
  by_cases hnodup : letters.Nodup
  · let box : Box := ⟨letters, hletters.1, hnodup, hletters.2⟩
    have hinside : box.OneLetterInside csv := hone
    obtain ⟨data, sols, ⟨compressionIndex, wordEnds', hindex, hends', hfilter, hsolve⟩, _,
      ⟨hsolved⟩⟩ := exists_yields build settings junk hcsv hinside
    rw [hends] at hends'
    cases hends'
    refine ⟨compressionIndex, data, sols, hindex, hfilter, hsolve, ?_⟩
    rw [hsolved.ne_nil_iff]
    constructor
    · rintro ⟨chain, hchain⟩
      exact ⟨box, rfl, chain, (isCover_kept_iff hinside).mp hchain⟩
    · -- a box is known by its letters
      rintro ⟨⟨_, _, _, _⟩, rfl, chain, hlegal⟩
      exact ⟨chain, (isCover_kept_iff hinside).mpr hlegal⟩
  · obtain ⟨compressionIndex, wordEnds', data, sols, hindex, hends', hfilter, hsolve, hnone⟩ :=
      solve_among hletters.1 hletters.2 hcsv hone build settings junk
    rw [hends] at hends'
    cases hends'
    refine ⟨compressionIndex, data, sols, hindex, hfilter, hsolve, fun hne => ?_, ?_⟩
    · exact absurd (hnone hnodup) hne
    · rintro ⟨box, rfl, _⟩
      exact absurd box.nodup hnodup

/-- **Step lemma.** A puzzle is kept, and counted if it is contested. -/
theorem solve_puzzle_letters (found : List puzzle × Nat) (date : List UInt8)
    (hletters : TwelveLetters letters) (hone : OneLetterAmong letters csv) :
    ∃ p : puzzle, solve_puzzle settings (lenient junk) csv wordEnds found (date, letters) =
        some (.ok (found.1 ++ [p], if Contested csv p then found.2 + 1 else found.2)) ∧
      p.date = date ∧ p.letters = letters ∧ p.Fits junk csv wordEnds := by
  obtain ⟨compressionIndex, data, sols, hindex, hfilter, hsolve, hsols⟩ :=
    solve_letters hcsv junk hends hletters hone
  let p : puzzle :=
    { date := date, letters := letters, group := if !sols.isEmpty then .solvable else .unsolvable,
      compressionIndex := compressionIndex, wordsData := data }
  have hgroup : p.group = .solvable ↔ sols ≠ [] := by
    dsimp only [p]
    cases sols with
    | nil => simp
    | cons sol sols => simp
  have hcontested : Contested csv p ↔
      ((!sols.isEmpty) == (LetterBoxedSolver.run letters (some csv)).isEmpty) = true := by
    unfold Contested
    rw [hgroup, beq_iff_eq, Bool.eq_iff_iff, Bool.not_eq_true', List.isEmpty_eq_false_iff,
      List.isEmpty_iff, ne_eq, ne_eq]
    tauto
  refine ⟨p, ?_, rfl, rfl, hletters, hindex, hfilter, hgroup.trans hsols⟩
  unfold solve_puzzle
  dsimp only
  rw [run_lift_ok hindex, run_lift_ok hfilter, run_bind_ok hsolve]
  simp only [hcontested]
  rfl

/-- **Run lemma.** The puzzles are kept in their order, and those that are
contested are counted. -/
theorem solve_puzzles_letters (lines : List (List UInt8 × List UInt8)) :
    ∀ found : List puzzle × Nat, (∀ line ∈ lines, TwelveLetters line.2) →
      (∀ line ∈ lines, OneLetterAmong line.2 csv) →
      ∃ puzzles, lines.foldlM (solve_puzzle settings (lenient junk) csv wordEnds) found =
          some (.ok (found.1 ++ puzzles, found.2 + puzzles.countP (Contested csv))) ∧
        puzzles.map (fun p => (p.date, p.letters)) = lines ∧
        ∀ p ∈ puzzles, p.Fits junk csv wordEnds := by
  induction lines with
  | nil =>
      intro found _ _
      exact ⟨[], by rw [List.append_nil]; rfl, rfl, by simp⟩
  | cons line lines ih =>
      intro found hletters hone
      rw [List.forall_mem_cons] at hletters hone
      obtain ⟨p, hturn, hdate, hp, hfits⟩ :=
        solve_puzzle_letters hcsv junk hends found line.1 hletters.1 hone.1
      obtain ⟨puzzles, hrun, hlines, hmore⟩ := ih _ hletters.2 hone.2
      refine ⟨p :: puzzles, ?_, ?_, List.forall_mem_cons.mpr ⟨hfits, hmore⟩⟩
      · rw [List.foldlM_cons, run_bind_ok hturn, hrun, List.append_assoc, List.singleton_append,
          List.countP_cons]
        dsimp only
        by_cases hcontested : Contested csv p
        · simp only [hcontested, if_true, decide_true]
          rw [Nat.add_assoc, Nat.add_comm 1]
        · simp only [hcontested, if_false, decide_false, Bool.false_eq_true, Nat.add_zero]
      · rw [List.map_cons, hlines, hdate, hp]

end Loop

/-! ## Contested puzzles -/

section Contested

variable {csv : List UInt8} {junk : Nat → char_mask_t} {wordEnds : List Nat} {p : puzzle}
  (hfits : p.Fits junk csv wordEnds) (hcsv : LowerCsv csv)
include hfits hcsv

/-- The second solver finds covers with words of three letters or more. -/
theorem puzzle.Fits.run_iff :
    LetterBoxedSolver.run p.letters (some csv) ≠ [] ↔
      ∃ chain, LetterBoxedSolver.CoversLetters p.letters (fields csv) chain ∧
        chain.length ≤ 3 := by
  obtain ⟨hnone, hsome⟩ := LetterBoxedSolver.run_covers hfits.twelve.1 hfits.twelve.2 hcsv
  refine ⟨fun hne => ?_, ?_⟩
  · obtain ⟨hcovers, hlen, _⟩ := hsome hne
    exact ⟨_, hcovers, hlen⟩
  · rintro ⟨chain, hchain, hlen⟩ hnil
    exact absurd (hnone.mp hnil chain hchain) (not_lt.mpr hlen)

/-- With a repeated letter only the second finds something. -/
theorem puzzle.Fits.contested_repeated (hrepeated : ¬p.letters.Nodup) :
    Contested csv p ↔ ∃ chain, LetterBoxedSolver.CoversLetters p.letters (fields csv) chain ∧
      chain.length ≤ 3 := by
  have hunsolvable : ¬p.group = .solvable := by
    rw [hfits.group_iff]
    rintro ⟨box, hbox, _⟩
    exact hrepeated (hbox ▸ box.nodup)
  unfold Contested
  rw [hfits.run_iff hcsv, iff_false_left hunsolvable, not_not]

/-- In a box only the first does, if all legal solutions have a short word. -/
theorem puzzle.Fits.contested_box (hnodup : p.letters.Nodup) :
    Contested csv p ↔ p.group = .solvable ∧ ∀ box : Box, box.characters = p.letters →
      ∀ chain, box.LegalSolution csv settings.MAX_SEARCH_SIZE chain → ∃ w ∈ chain, w.length < 3 := by
  have hmax : settings.MAX_SEARCH_SIZE = 3 := rfl
  have hrun : LetterBoxedSolver.run p.letters (some csv) ≠ [] ↔ ∃ box : Box,
      box.characters = p.letters ∧ ∃ chain, box.LegalSolution csv settings.MAX_SEARCH_SIZE chain ∧
        ∀ w ∈ chain, 3 ≤ w.length := by
    rw [hfits.run_iff hcsv, hmax]
    constructor
    · let box : Box := ⟨p.letters, hfits.twelve.1, hnodup, hfits.twelve.2⟩
      rintro ⟨chain, hchain⟩
      have hbox : LetterBoxedSolver.CoversLetters box.characters (fields csv) chain ∧
          chain.length ≤ 3 := hchain
      exact ⟨box, rfl, chain, LetterBoxedSolver.coversLetters_iff_legal.mp hbox⟩
    · rintro ⟨box, hbox, chain, hchain⟩
      rw [← hbox]
      exact ⟨chain, LetterBoxedSolver.coversLetters_iff_legal.mpr hchain⟩
  have hsolvable : LetterBoxedSolver.run p.letters (some csv) ≠ [] → p.group = .solvable := by
    rw [hrun, hfits.group_iff]
    rintro ⟨box, hbox, chain, hlegal, _⟩
    exact ⟨box, hbox, chain, hlegal⟩
  have hcontested : Contested csv p ↔
      p.group = .solvable ∧ ¬LetterBoxedSolver.run p.letters (some csv) ≠ [] := by
    unfold Contested
    tauto
  rw [hcontested, hrun]
  push Not
  rfl

end Contested

/-! ## The order of the groups -/

/-- A stable sort into two classes takes them out one after the other. -/
theorem mergeSort_two {α : Type} (p : α → Bool) (l : List α) :
    l.mergeSort (fun a b => p a || !p b) = l.filter p ++ l.filter fun a => !p a := by
  have htrans : ∀ a b c, (p a || !p b) = true → (p b || !p c) = true → (p a || !p c) = true := by
    intro a b c hab hbc
    cases hb : p b <;> simp_all
  have htotal : ∀ a b, ((p a || !p b) || (p b || !p a)) = true := by
    intro a b
    cases p a <;> simp
  have hperm := l.mergeSort_perm fun a b => p a || !p b
  have hsorted : (l.mergeSort fun a b => p a || !p b).Pairwise fun a b => (p a || !p b) = true :=
    List.pairwise_mergeSort htrans htotal l
  -- a class is a sorted sublist, so it stays one
  have hclass : ∀ q : α → Bool, (∀ a b, q a = true → q b = true → (p a || !p b) = true) →
      (l.mergeSort fun a b => p a || !p b).filter q = l.filter q := by
    intro q hq
    have hpairwise : (l.filter q).Pairwise fun a b => (p a || !p b) = true := by
      apply List.pairwise_of_forall_mem_list
      intro a ha b hb
      exact hq a b (List.mem_filter.mp ha).2 (List.mem_filter.mp hb).2
    have hsublist := (List.sublist_mergeSort htrans htotal hpairwise List.filter_sublist).filter q
    rw [List.filter_eq_self.mpr fun a ha => (List.mem_filter.mp ha).2] at hsublist
    exact (hsublist.eq_of_length (hperm.filter q).length_eq.symm).symm
  rw [← hclass p (by simp_all), ← hclass (fun a => !p a) (by simp_all)]
  generalize (l.mergeSort fun a b => p a || !p b) = s at hsorted
  induction s with
  | nil => rfl
  | cons a s ih =>
      rw [List.pairwise_cons] at hsorted
      cases ha : p a with
      | true =>
          rw [List.filter_cons_of_pos ha, List.filter_cons_of_neg (by simp [ha]),
            List.cons_append, ← ih hsorted.2]
      | false =>
          -- nothing of the first class comes behind
          have hrest : ∀ b ∈ s, p b = false := by
            intro b hb
            simpa [ha] using hsorted.1 b hb
          have hfirst : s.filter p = [] := List.filter_eq_nil_iff.mpr (by simpa using hrest)
          have hsecond : s.filter (fun a => !p a) = s :=
            List.filter_eq_self.mpr (by simpa using hrest)
          rw [List.filter_cons_of_neg (by simp [ha]), List.filter_cons_of_pos (by simp [ha]), hfirst,
            hsecond]
          rfl

/-- **The solvable puzzles come first**, in the order of the file, and then the
others. -/
theorem sort_puzzles_eq (puzzles : List puzzle) :
    sort_puzzles puzzles = puzzles.filter (fun p => p.group = .solvable) ++
      puzzles.filter fun p => p.group = .unsolvable := by
  have hle : (fun p q : puzzle => decide (p.group.name ≤ q.group.name)) =
      fun p q => decide (p.group = .solvable) || !decide (q.group = .solvable) := by
    funext p q
    cases p.group with
    | solvable =>
        cases q.group with
        | solvable => decide
        | unsolvable => decide
    | unsolvable =>
        cases q.group with
        | solvable => decide
        | unsolvable => decide
  have hother : (fun p : puzzle => decide (p.group = .unsolvable)) =
      fun p => !decide (p.group = .solvable) := by
    funext p
    cases p.group with
    | solvable => rfl
    | unsolvable => rfl
  unfold sort_puzzles
  rw [hle, mergeSort_two, hother]

/-! ## main -/

/-- A box with a solution through a word of two letters, letters of which three
are repeated, and a box without a solution. -/
def contested_lines : List (List UInt8 × List UInt8) :=
  [(text "2025-03-24", text "bgiklomnuvyz"), (text "2025-03-25", text "abcdefghiabc"),
    (text "2025-03-26", text "abcdefghijkl")]

/-- A word list for them. -/
def contested_csv : List UInt8 := text "bouzouki,im,movingly,adgbehcfi"

/-- The file with a puzzle on each line. -/
def contested_file : List UInt8 :=
  contested_lines.flatMap fun p => p.1 ++ text " " ++ p.2 ++ text "\n"

/-- The first of them. -/
def short_word_box : Box where
  characters := text "bgiklomnuvyz"
  size_eq := by decide +kernel
  nodup := by decide +kernel
  lower := by decide +kernel

/-- Its solution. -/
theorem short_word_box_solution : short_word_box.LegalSolution contested_csv 3
    [text "bouzouki", text "im", text "movingly"] where
  length_pos := by decide
  length_le := by decide
  fields := by decide +kernel
  legal := by decide +kernel
  linked := by decide +kernel
  covered := by decide +kernel

end LetterBoxed
