/-
The two solvers agree.

`dfs` of the second solver is `seek` on the words it has loaded, and `run` is
`deepen` to three words. A path of loaded words is a linked chain of legal
words, and its mask is the target when the chain covers the box. So `run`
returns a shortest cover of at most three words, which is what the first entry
of `solve` is read as.
-/
import LetterBoxed.Pipeline
import LetterBoxed.GptTables
import LetterBoxed.Lib.BoundedSearch

set_option autoImplicit false

open Paths

namespace LetterBoxed

namespace LetterBoxedSolver

variable {box : Box} {solver : LetterBoxedSolver} {words : List (List UInt8)}

/-! ## The search as a bounded search -/

/-- The loaded words as moves: before the first word any word that begins with
a letter of the box, and then those that begin where the last word ends. -/
def word_search (solver : LetterBoxedSolver) :
    Listed (Option (Fin CHARACTERS × BitVec 32)) WordInfo where
  moves
    | none => solver.box_letters.flatMap fun start_char => solver.valid_words_by_start.get start_char
    | some (curr_char, _) => solver.valid_words_by_start.get curr_char
  next
    | none, w => some (w.end, w.mask)
    | some (_, current_mask), w => some (w.end, current_mask ||| w.mask)
  goal
    | none => false
    | some (_, current_mask) => current_mask == solver.target_mask

/-- **`dfs` is a bounded search.** -/
theorem dfs_eq_seek (left : Nat) : ∀ (curr_char : Fin CHARACTERS) (current_mask : BitVec 32)
    (path : List WordInfo),
      solver.dfs curr_char current_mask left path =
        (solver.word_search.seek left (some (curr_char, current_mask))).map
          fun es => (path ++ es).map WordInfo.word := by
  induction left with
  | zero =>
      intro curr_char current_mask path
      unfold dfs Listed.seek word_search
      simp only [beq_iff_eq]
      by_cases hgoal : current_mask = solver.target_mask
      · rw [if_pos hgoal, if_pos hgoal, Option.map_some, List.append_nil]
      · rw [if_neg hgoal, if_neg hgoal, Option.map_none]
  | succ left ih =>
      intro curr_char current_mask path
      have hgoal : solver.word_search.goal (some (curr_char, current_mask)) = true ↔
          current_mask = solver.target_mask := beq_iff_eq
      unfold dfs Listed.seek
      by_cases hmask : current_mask = solver.target_mask
      · rw [if_pos hmask, if_pos (hgoal.mpr hmask), Option.map_some, List.append_nil]
      · rw [if_neg hmask, if_neg (mt hgoal.mp hmask), List.map_findSome?]
        refine congrArg (fun f => List.findSome? f _) (funext fun w => ?_)
        rw [ih, Function.comp_apply, Option.map_map]
        refine congrArg (fun f => Option.map f _) (funext fun es => ?_)
        rw [Function.comp_apply, List.append_assoc, List.singleton_append]

theorem findSome?_flatMap {α β γ : Type} (f : β → Option γ) (g : α → List β) (xs : List α) :
    (xs.flatMap g).findSome? f = xs.findSome? fun x => (g x).findSome? f := by
  induction xs with
  | nil => rfl
  | cons x xs ih =>
      rw [List.flatMap_cons, List.findSome?_append, List.findSome?_cons, ih]
      cases (g x).findSome? f with
      | none => rw [Option.none_or]
      | some found => rw [Option.some_or]

/-- One bound of `run`. -/
theorem first_words_eq_seek (left : Nat) :
    (solver.box_letters.findSome? fun start_char =>
        (solver.valid_words_by_start.get start_char).findSome? fun w =>
          solver.dfs w.end w.mask left [w]) =
      (solver.word_search.seek (left + 1) none).map fun es => es.map WordInfo.word := by
  have hgoal : ¬solver.word_search.goal none = true := Bool.false_ne_true
  have hmoves : solver.word_search.moves none =
    solver.box_letters.flatMap fun start_char => solver.valid_words_by_start.get start_char := rfl
  rw [Listed.seek, if_neg hgoal, List.map_findSome?, hmoves, findSome?_flatMap]
  refine congrArg (fun f => List.findSome? f _) (funext fun start_char => ?_)
  refine congrArg (fun f => List.findSome? f _) (funext fun w => ?_)
  rw [dfs_eq_seek, Function.comp_apply, Option.map_map]
  rfl

/-- **`run` deepens a bounded search.** -/
theorem search_eq_deepen :
    solver.search =
      (solver.word_search.deepen 3 none).map fun es => es.map WordInfo.word := by
  unfold search Listed.deepen
  rw [List.map_findSome?, List.range'_eq_map_range, List.findSome?_map, List.findSome?_map]
  refine congrArg (fun f => List.findSome? f _) (funext fun left => ?_)
  rw [Function.comp_apply, Function.comp_apply, Function.comp_apply, Nat.add_sub_cancel_left,
    Nat.add_comm 1 left]
  exact first_words_eq_seek left

/-- The first word may begin with any letter of the box. -/
theorem solves_first {e : WordInfo} {es : List WordInfo} :
    solver.word_search.Solves none (e :: es) ↔
      ∃ i ∈ solver.box_letters, solver.word_search.Solves (some (i, 0#32)) (e :: es) := by
  have hnext : ∀ i, solver.word_search.next (some (i, 0#32)) e = solver.word_search.next none e := by
    intro i
    unfold word_search
    dsimp only
    rw [BitVec.zero_or]
  have hmoves : e ∈ solver.word_search.moves none ↔
      ∃ i ∈ solver.box_letters, e ∈ solver.word_search.moves (some (i, 0#32)) := List.mem_flatMap
  rw [solves_cons, hmoves]
  constructor
  · rintro ⟨⟨i, hi, he⟩, hrest⟩
    refine ⟨i, hi, solves_cons.mpr ⟨he, ?_⟩⟩
    rw [hnext]
    exact hrest
  · rintro ⟨i, hi, hsolves⟩
    rw [solves_cons, hnext] at hsolves
    exact ⟨⟨i, hi, hsolves.1⟩, hsolves.2⟩

/-! ## Paths of loaded words -/

/-- The letters of the chain as bits of the alphabet, with those of `mask`. -/
def Marks (mask mask' : BitVec 32) (chain : List (List UInt8)) : Prop :=
  ∀ j, mask'.getLsbD j = true ↔ mask.getLsbD j = true ∨ ∃ w ∈ chain, ∃ c ∈ w, idx c = j

/-- A word that may be used. -/
def Usable (box : Box) (words : List (List UInt8)) (w : List UInt8) : Prop :=
  w ∈ words ∧ 3 ≤ w.length ∧ box.LegalWord w

/-- Words meet where their letters have the same index. -/
theorem meet_iff {w w' : List UInt8} (hw : ∀ c ∈ w, IsLower c) (hw' : ∀ c ∈ w', IsLower c)
    {i : Nat} (hback : w.getLast?.map idx = some i) :
    w'.head? = w.getLast? ↔ w'.head?.map idx = some i := by
  constructor
  · intro hmeet
    rw [hmeet, hback]
  · intro hfront
    obtain ⟨c, hc, hci⟩ := Option.map_eq_some_iff.mp hback
    obtain ⟨d, hd, hdi⟩ := Option.map_eq_some_iff.mp hfront
    have hcl := hw c (List.mem_of_mem_getLast? hc)
    have hdl := hw' d (List.mem_of_mem_head? hd)
    rw [hc, hd, idx_injOn hdl hcl (hdi.trans hci.symm)]

section Loaded

variable (hloaded : Loaded box words solver) (hlower : ∀ w ∈ words, ∀ c ∈ w, IsLower c)
include hloaded

/-- What a stored word stands for. -/
theorem Loaded.describes {i : Fin CHARACTERS} {e : WordInfo}
    (he : e ∈ solver.valid_words_by_start.get i) :
    Usable box words e.word ∧ Describes e.word e ∧ e.start = i := by
  obtain ⟨w, hw, hlong, hlegal, hinfo, hstart⟩ := (hloaded.mem_iff i e).mp he
  have hword := hinfo.word_eq
  subst hword
  exact ⟨⟨hw, hlong, hlegal⟩, hinfo, hstart⟩

include hlower

/-- **The words of a path** are usable and linked, begin where the path begins,
and set the bits of their letters. -/
theorem Loaded.path_words {es : List WordInfo} : ∀ {i : Fin CHARACTERS} {mask : BitVec 32},
    solver.word_search.space.IsPath (some (i, mask)) es →
      (∀ w ∈ es.map WordInfo.word, Usable box words w) ∧
        Linked (es.map WordInfo.word) ∧
        (∀ w ∈ (es.map WordInfo.word).head?, w.head?.map idx = some i.val) ∧
        ∃ i' mask', solver.word_search.space.run (some (i, mask)) es = some (i', mask') ∧
          Marks mask mask' (es.map WordInfo.word) := by
  induction es with
  | nil =>
      intro i mask _
      exact ⟨by simp, .nil, by simp, i, mask, rfl, by simp [Marks]⟩
  | cons e es ih =>
      intro i mask hpath
      rw [isPath_cons] at hpath
      obtain ⟨husable, hinfo, hstart⟩ := hloaded.describes hpath.1
      obtain ⟨hall, hlinked, hfront, i', mask', hrun, hmarks⟩ := ih hpath.2
      have hword := hlower _ husable.1
      rw [List.map_cons]
      refine ⟨?_, ?_, ?_, i', mask', hrun, fun j => ?_⟩
      · rw [List.forall_mem_cons]
        exact ⟨husable, hall⟩
      · -- the next word is stored under the letter this one ends with
        unfold Linked
        rw [List.isChain_cons]
        refine ⟨fun w hw => ?_, hlinked⟩
        have hlow := hlower w (hall w (List.mem_of_mem_head? hw)).1
        exact (meet_iff hword hlow hinfo.end_eq).mpr (hfront w hw)
      · intro w hw
        rw [List.head?_cons, Option.mem_some_iff] at hw
        rw [← hw, hinfo.start_eq, hstart]
      · rw [hmarks j, BitVec.getLsbD_or, Bool.or_eq_true, List.exists_mem_cons_iff, hinfo.mask_eq,
          alphabet_mask, getLsbD_foldl_letters hword, BitVec.getLsbD_zero, or_assoc]
        simp

/-- **Every linked chain of usable words is a path** from where it begins. -/
theorem Loaded.path_of_chain {chain : List (List UInt8)} :
    ∀ {i : Fin CHARACTERS} (mask : BitVec 32), (∀ w ∈ chain, Usable box words w) → Linked chain →
      (∀ w ∈ chain.head?, w.head?.map idx = some i.val) →
      ∃ es, solver.word_search.space.IsPath (some (i, mask)) es ∧
        es.map WordInfo.word = chain := by
  induction chain with
  | nil => exact fun mask _ _ _ => ⟨[], trivial, rfl⟩
  | cons w chain ih =>
      intro i mask hall hlinked hfront
      rw [List.forall_mem_cons] at hall
      unfold Linked at hlinked
      rw [List.isChain_cons] at hlinked
      obtain ⟨hw, hlong, hlegal⟩ := hall.1
      have hword := hlower w hw
      have hinfo := describes_word_info hword hlegal.ne_nil
      generalize word_info hword hlegal.ne_nil = e at hinfo
      -- the word is stored under the letter it begins with
      have hstart : e.start = i := by
        have heq := hinfo.start_eq.symm.trans (hfront w rfl)
        exact Fin.ext (Option.some.inj heq)
      have he : e ∈ solver.valid_words_by_start.get i :=
        (hloaded.mem_iff i e).mpr ⟨w, hw, hlong, hlegal, hinfo, hstart⟩
      have hnext : ∀ w' ∈ chain.head?, w'.head?.map idx = some e.end.val := by
        intro w' hw'
        have hlow := hlower w' (hall.2 w' (List.mem_of_mem_head? hw')).1
        exact (meet_iff hword hlow hinfo.end_eq).mp (hlinked.1 w' hw')
      obtain ⟨es, hpath, hes⟩ := ih (mask ||| e.mask) hall.2 hlinked.2 hnext
      refine ⟨e :: es, ⟨he, hpath⟩, ?_⟩
      rw [List.map_cons, hes, hinfo.word_eq]

/-- The target is reached when the letters of the box are used. -/
theorem Loaded.goal_iff {chain : List (List UInt8)} (hall : ∀ w ∈ chain, Usable box words w)
    {i : Fin CHARACTERS} {mask : BitVec 32} (hmarks : Marks 0#32 mask chain) :
    solver.word_search.goal (some (i, mask)) = true ↔ box.CoveredBy chain := by
  have htarget : ∀ j, solver.target_mask.getLsbD j = true ↔ ∃ c ∈ box.characters, idx c = j := by
    intro j
    rw [hloaded.laid.target, alphabet_mask, getLsbD_foldl_letters box.lower, BitVec.getLsbD_zero]
    simp
  have hmask : ∀ j, mask.getLsbD j = true ↔ ∃ w ∈ chain, ∃ c ∈ w, idx c = j := by
    intro j
    rw [hmarks j, BitVec.getLsbD_zero]
    simp
  have hgoal : solver.word_search.goal (some (i, mask)) = true ↔ mask = solver.target_mask :=
    beq_iff_eq
  rw [hgoal]
  constructor
  · rintro rfl c hc
    obtain ⟨w, hw, d, hd, hidx⟩ := (hmask _).mp ((htarget _).mpr ⟨c, hc, rfl⟩)
    have hlow := hlower w (hall w hw).1 d hd
    rw [← idx_injOn hlow (box.lower c hc) hidx]
    exact ⟨w, hw, hd⟩
  · intro hcovered
    apply BitVec.eq_of_getLsbD_eq
    intro j _
    -- usable words have letters of the box only, and the chain has all of them
    rw [Bool.eq_iff_iff, hmask, htarget]
    constructor
    · rintro ⟨w, hw, c, hc, hidx⟩
      exact ⟨c, (hall w hw).2.2.letters c hc, hidx⟩
    · rintro ⟨c, hc, hidx⟩
      obtain ⟨w, hw, hcw⟩ := hcovered c hc
      exact ⟨w, hw, c, hcw, hidx⟩

/-- **What the search finds covers the box** with usable words. -/
theorem Loaded.cover_of_solves {es : List WordInfo} (hsolves : solver.word_search.Solves none es) :
    (∀ w ∈ es.map WordInfo.word, Usable box words w) ∧ Linked (es.map WordInfo.word) ∧
      box.CoveredBy (es.map WordInfo.word) := by
  cases es with
  | nil =>
      -- without a word there is no solution
      exact absurd hsolves.goal Bool.false_ne_true
  | cons e es =>
      obtain ⟨i, _, hall⟩ := solves_first.mp hsolves
      obtain ⟨husable, hlinked, _, i', mask', hrun, hmarks⟩ :=
        hloaded.path_words hlower hall.path
      have hgoal := hall.goal
      rw [hrun, hloaded.goal_iff hlower husable hmarks] at hgoal
      exact ⟨husable, hlinked, hgoal⟩

/-- **Every linked cover of usable words is searched.** -/
theorem Loaded.solves_of_cover {chain : List (List UInt8)}
    (hall : ∀ w ∈ chain, Usable box words w) (hlinked : Linked chain)
    (hcovered : box.CoveredBy chain) :
    ∃ es, solver.word_search.Solves none es ∧ es.map WordInfo.word = chain := by
  obtain ⟨w, hw, _⟩ := hcovered _ (Box.letter_mem ⟨0, by decide⟩)
  obtain ⟨first, rest, rfl⟩ := List.exists_cons_of_ne_nil (List.ne_nil_of_mem hw)
  -- the search begins with every letter of the box, so with that of the first word
  obtain ⟨hfirst, _, hlegal⟩ := hall first List.mem_cons_self
  have hword := hlower first hfirst
  have hfront : ∀ w ∈ (first :: rest).head?,
      w.head?.map idx = some (word_info hword hlegal.ne_nil).start.val := by
    intro w hw
    rw [List.head?_cons, Option.mem_some_iff] at hw
    rw [← hw]
    exact (describes_word_info hword hlegal.ne_nil).start_eq
  have hbox : (word_info hword hlegal.ne_nil).start ∈ solver.box_letters := by
    rw [hloaded.laid.letters]
    exact ⟨_, hlegal.letters _ (List.head_mem hlegal.ne_nil), rfl⟩
  obtain ⟨es, hpath, hes⟩ := hloaded.path_of_chain hlower 0#32 hall hlinked hfront
  obtain ⟨husable, _, _, i', mask', hrun, hmarks⟩ := hloaded.path_words hlower hpath
  have hgoal : solver.word_search.goal (solver.word_search.space.run
      (some ((word_info hword hlegal.ne_nil).start, 0#32)) es) = true := by
    rw [hrun, hloaded.goal_iff hlower husable hmarks, hes]
    exact hcovered
  cases es with
  | nil => cases hes
  | cons e es => exact ⟨e :: es, solves_first.mpr ⟨_, hbox, hpath, hgoal⟩, hes⟩

end Loaded

/-! ## run -/

/-- A word list whose words all have three letters or more. -/
def LongWords (csv : List UInt8) : Prop := ∀ field ∈ fields csv, field ≠ [] → 3 ≤ field.length

instance (csv : List UInt8) : Decidable (LongWords csv) :=
  inferInstanceAs (Decidable (∀ field ∈ fields csv, field ≠ [] → 3 ≤ field.length))

theorem LongWords.oneLetterInside {csv : List UInt8} (h : LongWords csv) (box : Box) :
    box.OneLetterInside csv := by
  intro field hfield hone
  have hlong := h field hfield (List.ne_nil_of_length_pos (by omega))
  omega

/-- The usable words are those that the filter keeps. -/
theorem usable_iff {csv : List UInt8} (hlong : LongWords csv) (w : List UInt8) :
    Usable box (fields csv) w ↔ w ∈ (box.kept_words csv (hlong.oneLetterInside box)).words := by
  rw [mem_kept_words]
  constructor
  · rintro ⟨hfield, _, hlegal⟩
    exact ⟨hfield, hlegal⟩
  · rintro ⟨hfield, hlegal⟩
    exact ⟨hfield, hlong w hfield hlegal.ne_nil, hlegal⟩

section Run

variable (box : Box) {csv : List UInt8} (hcsv : LowerCsv csv) (hlong : LongWords csv)
include hcsv

/-- **`run` returns a shortest cover**, of at most three words. -/
theorem run_cover (hne : run box.characters (some csv) ≠ []) :
    box.IsCover (box.kept_words csv (hlong.oneLetterInside box)).words
        (run box.characters (some csv)) ∧
      (run box.characters (some csv)).length ≤ 3 ∧
      ∀ chain, box.IsCover (box.kept_words csv (hlong.oneLetterInside box)).words chain →
        (run box.characters (some csv)).length ≤ chain.length := by
  have hloaded := loaded_csv box hcsv
  unfold run at hne ⊢
  rw [search_eq_deepen] at hne ⊢
  generalize (parse_box reset 0 0 box.characters).load_and_filter_dictionary (some csv) = solver
    at hloaded hne ⊢
  cases hfound : solver.word_search.deepen 3 none with
  | none =>
      rw [hfound] at hne
      exact absurd rfl hne
  | some es =>
      rw [Option.map_some, Option.getD_some]
      obtain ⟨hsolves, hlen, hshortest⟩ := deepen_sound hfound
      obtain ⟨husable, hlinked, hcovered⟩ := hloaded.cover_of_solves hcsv.field hsolves
      refine ⟨⟨fun w hw => (usable_iff hlong w).mp (husable w hw), hlinked, hcovered⟩, ?_, ?_⟩
      · rw [List.length_map]
        exact hlen
      · intro chain hcover
        obtain ⟨es', hsolves', rfl⟩ := hloaded.solves_of_cover hcsv.field
          (fun w hw => (usable_iff hlong w).mpr (hcover.mem w hw)) hcover.linked hcover.covered
        rw [List.length_map, List.length_map]
        exact hshortest es' hsolves'

/-- **`run` finds a cover**, if one of at most three words exists. -/
theorem run_ne_nil {chain : List (List UInt8)}
    (hcover : box.IsCover (box.kept_words csv (hlong.oneLetterInside box)).words chain)
    (hlen : chain.length ≤ 3) : run box.characters (some csv) ≠ [] := by
  have hloaded := loaded_csv box hcsv
  unfold run
  rw [search_eq_deepen]
  generalize (parse_box reset 0 0 box.characters).load_and_filter_dictionary (some csv) = solver
    at hloaded ⊢
  obtain ⟨es, hsolves, rfl⟩ := hloaded.solves_of_cover hcsv.field
    (fun w hw => (usable_iff hlong w).mpr (hcover.mem w hw)) hcover.linked hcover.covered
  rw [List.length_map] at hlen
  cases hfound : solver.word_search.deepen 3 none with
  | none => exact absurd hfound (deepen_complete (by decide) hsolves hlen)
  | some es' =>
      rw [Option.map_some, Option.getD_some]
      intro hnil
      rw [List.map_eq_nil_iff] at hnil
      subst hnil
      exact absurd (deepen_sound hfound).1.goal Bool.false_ne_true

end Run

end LetterBoxedSolver

/-- **The two solvers agree** on lower-case word lists whose words have three
letters or more: one finds a solution if and only if the other does, and the
first of the one has as many words as that of the other. -/
theorem solvers_agree (build : SplitBuild) (junk : Nat → char_mask_t) (box : Box)
    (csv : List UInt8) (hcsv : LowerCsv csv) (hlong : LetterBoxedSolver.LongWords csv) :
    ∃ data sols, Yields build settings junk box csv data sols ∧
      (sols ≠ [] ↔ LetterBoxedSolver.run box.characters (some csv) ≠ []) ∧
      ∀ sol ∈ sols.head?,
        sol.chain.length = (LetterBoxedSolver.run box.characters (some csv)).length := by
  obtain ⟨data, sols, hyields, _, ⟨hsolved⟩⟩ :=
    exists_yields build settings junk hcsv (hlong.oneLetterInside box)
  have hmax : settings.MAX_SEARCH_SIZE = 3 := rfl
  have hagree : sols ≠ [] ↔ LetterBoxedSolver.run box.characters (some csv) ≠ [] := by
    rw [hsolved.ne_nil_iff, hmax]
    constructor
    · rintro ⟨chain, hcover, hlen⟩
      exact LetterBoxedSolver.run_ne_nil box hcsv hlong hcover hlen
    · intro hne
      obtain ⟨hcover, hlen, _⟩ := LetterBoxedSolver.run_cover box hcsv hlong hne
      exact ⟨_, hcover, hlen⟩
  refine ⟨data, sols, hyields, hagree, fun sol hsol => ?_⟩
  cases sols with
  | nil => simp at hsol
  | cons first rest =>
      rw [List.head?_cons, Option.mem_some_iff] at hsol
      subst hsol
      have hrun := hagree.mp (List.cons_ne_nil first rest)
      obtain ⟨hcover, _, hshortest⟩ := LetterBoxedSolver.run_cover box hcsv hlong hrun
      obtain ⟨chain, hreads⟩ := exists_reads (hsolved.variants_ne_nil List.mem_cons_self)
      obtain ⟨hcover', _, _, hlen⟩ := hsolved.reads List.mem_cons_self hreads
      -- each of the two covers is a cover for the other solver
      have hle := hsolved.first_le hcover
      have hge := hshortest chain hcover'
      omega

theorem solvers_agree_first_box :
    LowerCsv linked_words ∧ LetterBoxedSolver.LongWords linked_words ∧
    ∃ data sols, Yields .scalar settings (fun _ => 0#32) first_box linked_words data sols ∧
      sols ≠ [] ∧ ∀ sol ∈ sols.head?, sol.chain.length = 2 := by
  have hcsv : LowerCsv linked_words := by decide +kernel
  have hlong : LetterBoxedSolver.LongWords linked_words := by decide +kernel
  have hrun : (LetterBoxedSolver.run first_box.characters (some linked_words)).length = 2 := by
    decide +kernel
  obtain ⟨data, sols, hyields, hagree, hlength⟩ :=
    solvers_agree .scalar (fun _ => 0#32) first_box linked_words hcsv hlong
  refine ⟨hcsv, hlong, data, sols, hyields, hagree.mpr ?_, fun sol hsol => ?_⟩
  · exact List.ne_nil_of_length_eq_add_one hrun
  · exact (hlength sol hsol).trans hrun

end LetterBoxed
