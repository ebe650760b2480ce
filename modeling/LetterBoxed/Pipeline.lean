/-
The stages of the runner together: `gen_compression_index`, `word_ends`,
`filter_and_hash` and `solve` on a box and a lower-case word list.

If no field of one letter lies outside the box, the stages fit together: the
filter lets through exactly the legal words, and what `solve` returns is legal,
complete and shortest first. If there is such a field, it is let through, and
the graph is indexed with the invalid flag.
-/
import LetterBoxed.Filter
import LetterBoxed.Solutions

set_option autoImplicit false

open Paths

namespace LetterBoxed

/-- The stages return `data` and `sols`. -/
def Yields (build : SplitBuild) (cfg : Settings) (junk : Nat → char_mask_t) (box : Box)
    (csv : List UInt8) (data : words_data) (sols : List solution_t) : Prop :=
  ∃ compressionIndex wordEnds, gen_compression_index box.characters = .ok compressionIndex ∧
    word_ends build csv 44 3 = .ok wordEnds ∧
    filter_and_hash (lenient junk) compressionIndex csv wordEnds = .ok data ∧
    solve cfg compressionIndex data.words data.wordHashes = some (.ok sols)

/-- The words `adbecf`, `aebdcf`, `fgjhkil`, `adbe` and `ecf`. The first two have
the same letters and ends, the last two lead where these lead in one word more,
and `fgjhkil` behind them covers the first box. -/
def linked_words : List UInt8 :=
  [97, 100, 98, 101, 99, 102, 44, 97, 101, 98, 100, 99, 102, 44, 102, 103, 106, 104, 107, 105, 108,
    44, 97, 100, 98, 101, 44, 101, 99, 102]

variable {box : Box} {csv : List UInt8}

/-- The stages before `solve` return, and hand on words over the box with their
hashes. -/
theorem exists_stages (build : SplitBuild) (cfg : Settings) (junk : Nat → char_mask_t)
    (hcsv : LowerCsv csv) (hone : box.OneLetterInside csv) :
    ∃ compressionIndex data, IndexOf box compressionIndex ∧
      data.words = (box.kept_words csv hone).words ∧
      ∀ sols, solve cfg compressionIndex (box.kept_words csv hone).words
        (box.kept_words csv hone).hashes = some (.ok sols) →
          Yields build cfg junk box csv data sols := by
  obtain ⟨compressionIndex, hindexed, hindex⟩ := gen_compression_index_box box
  obtain ⟨wordEnds, hends, hfilter⟩ := filter_and_hash_lower hindex build junk hcsv
  rw [filtered_eq hone] at hfilter
  exact ⟨compressionIndex, _, hindex, rfl, fun sols hsolve =>
    ⟨compressionIndex, wordEnds, hindexed, hends, hfilter, hsolve⟩⟩

/-- **The stages return**, and hand on words over the box. -/
theorem exists_yields (build : SplitBuild) (cfg : Settings) (junk : Nat → char_mask_t)
    (hcsv : LowerCsv csv) (hone : box.OneLetterInside csv) :
    ∃ data sols, Yields build cfg junk box csv data sols ∧
      data.words = (box.kept_words csv hone).words ∧
      Nonempty (Solved cfg (box.kept_words csv hone) sols) := by
  obtain ⟨_, data, hindex, hwords, hyields⟩ := exists_stages build cfg junk hcsv hone
  obtain ⟨sols, hsolve, hsolved⟩ := exists_solved cfg hindex (box.kept_words csv hone)
  exact ⟨data, sols, hyields sols hsolve, hwords, hsolved⟩

/-! ## Completeness -/

/-- **Complete and shortest first.** On a lower-case word list in which no
field of one letter lies outside the box, `solve` returns a solution if and
only if some chain of at most `MAX_SEARCH_SIZE` of the filtered words covers
the box, and the first one returned has the least number of words of all
chains that do. -/
theorem solve_complete_shortest_first (build : SplitBuild) (cfg : Settings)
    (junk : Nat → char_mask_t) (box : Box) (csv : List UInt8) (hcsv : LowerCsv csv)
    (hone : box.OneLetterInside csv) :
    ∃ data sols, Yields build cfg junk box csv data sols ∧
      (sols ≠ [] ↔ ∃ chain, box.IsCover data.words chain ∧ chain.length ≤ cfg.MAX_SEARCH_SIZE) ∧
      ∀ sol ∈ sols.head?,
        IsLeast {n | ∃ chain, box.IsCover data.words chain ∧ chain.length = n} sol.chain.length := by
  obtain ⟨data, sols, hyields, hwords, ⟨hsolved⟩⟩ := exists_yields build cfg junk hcsv hone
  refine ⟨data, sols, hyields, ?_, ?_⟩
  · rw [hwords]
    exact hsolved.ne_nil_iff
  · rw [hwords]
    intro sol hsol
    cases sols with
    | nil => simp at hsol
    | cons first rest =>
        rw [List.head?_cons, Option.mem_some_iff] at hsol
        subst hsol
        obtain ⟨chain, hreads⟩ := exists_reads (hsolved.variants_ne_nil List.mem_cons_self)
        obtain ⟨hcover, _, _, hlen⟩ := hsolved.reads List.mem_cons_self hreads
        refine ⟨⟨chain, hcover, hlen⟩, ?_⟩
        rintro _ ⟨chain', hcover', rfl⟩
        exact hsolved.first_le hcover'

theorem solve_complete_shortest_first_first_box :
    ∃ data sols, Yields .scalar settings (fun _ => 0#32) first_box linked_words data sols ∧
      (sols ≠ [] ↔ ∃ chain, first_box.IsCover data.words chain ∧
        chain.length ≤ settings.MAX_SEARCH_SIZE) ∧
      ∀ sol ∈ sols.head?, IsLeast
        {n | ∃ chain, first_box.IsCover data.words chain ∧ chain.length = n} sol.chain.length :=
  solve_complete_shortest_first .scalar settings (fun _ => 0#32) first_box linked_words
    (by decide +kernel) (by decide +kernel)

/-! ## Soundness -/

/-- **Every reading of every entry is a legal solution**, and every position
has something to read. -/
theorem solve_sound (build : SplitBuild) (cfg : Settings) (junk : Nat → char_mask_t) (box : Box)
    (csv : List UInt8) (hcsv : LowerCsv csv) (hone : box.OneLetterInside csv) :
    ∃ data sols, Yields build cfg junk box csv data sols ∧
      ∀ sol ∈ sols, (∀ variants ∈ sol.chain, variants ≠ []) ∧
        ∀ chain, sol.Reads chain → box.LegalSolution csv cfg.MAX_SEARCH_SIZE chain := by
  obtain ⟨data, sols, hyields, _, ⟨hsolved⟩⟩ := exists_yields build cfg junk hcsv hone
  refine ⟨data, sols, hyields, fun sol hsol => ⟨hsolved.variants_ne_nil hsol, ?_⟩⟩
  intro chain hreads
  obtain ⟨hcover, hpos, hle, _⟩ := hsolved.reads hsol hreads
  refine ⟨hpos, hle, fun w hw => ?_, fun w hw => ?_, hcover.linked, hcover.covered⟩
  · exact ((mem_kept_words hone w).mp (hcover.mem w hw)).1
  · exact ((mem_kept_words hone w).mp (hcover.mem w hw)).2

theorem solve_sound_first_box :
    ∃ data sols, Yields .scalar settings (fun _ => 0#32) first_box linked_words data sols ∧
      ∀ sol ∈ sols, (∀ variants ∈ sol.chain, variants ≠ []) ∧
        ∀ chain, sol.Reads chain →
          first_box.LegalSolution linked_words settings.MAX_SEARCH_SIZE chain :=
  solve_sound .scalar settings (fun _ => 0#32) first_box linked_words
    (by decide +kernel) (by decide +kernel)

/-! ## Index safety -/

/-- A field of one letter outside the box. -/
theorem exists_foreign (h : ¬box.OneLetterInside csv) :
    ∃ c, c ∉ box.characters ∧ [c] ∈ fields csv := by
  unfold Box.OneLetterInside at h
  push Not at h
  obtain ⟨field, hfield, hlen, c, hc, hforeign⟩ := h
  obtain ⟨d, rfl⟩ := List.length_eq_one_iff.mp hlen
  rw [List.mem_singleton] at hc
  subst hc
  exact ⟨c, hforeign, hfield⟩

/-- A word that is kept is over the box, or one foreign letter. -/
theorem keeps_cases {w : List UInt8} (h : box.Keeps w) :
    (∀ c ∈ w, c ∈ box.characters) ∨ ∃ c, w = [c] ∧ c ∉ box.characters := by
  by_cases hone : w.length = 1 → ∀ c ∈ w, c ∈ box.characters
  · exact .inl (h.letters hone)
  · push Not at hone
    obtain ⟨hlen, c, hc, hforeign⟩ := hone
    obtain ⟨d, rfl⟩ := List.length_eq_one_iff.mp hlen
    rw [List.mem_singleton] at hc
    exact .inr ⟨d, rfl, hc ▸ hforeign⟩

section Foreign

variable {compressionIndex : compression_index_t} (hindex : IndexOf box compressionIndex)
  (junk : Nat → char_mask_t) (hcsv : LowerCsv csv)
include hindex hcsv

/-- With a field of one letter outside the box, the loop of `build_graph` ends
in its fault: the words before it are entered. -/
theorem build_graph_foreign (hforeign : ¬box.OneLetterInside csv) (nodes : nodes_t) :
    build_graph compressionIndex (box.filtered junk csv).words (box.filtered junk csv).wordHashes
      nodes = .error (.outOfRange .nodes INVALID_CHAR_FLAG.toNat) := by
  unfold build_graph
  apply foldlM_error
  · rintro ⟨w, i⟩ hmem nodes
    rw [List.mem_zipIdx_iff_getElem?] at hmem
    dsimp only at hmem ⊢
    have hw := List.mem_of_getElem? hmem
    unfold Box.filtered at hw
    rw [List.mem_filter, decide_eq_true_eq] at hw
    obtain ⟨hfield, hkeeps⟩ := hw
    rcases keeps_cases hkeeps with hletters | ⟨c, rfl, hc⟩
    · obtain ⟨s, hfront⟩ := Box.exists_front hkeeps.1 hletters
      obtain ⟨d, hback⟩ := Box.exists_back hkeeps.1 hletters
      have hhash : (box.filtered junk csv).wordHashes[i]? =
          some (box.filter_hash (junk INVALID_CHAR_FLAG.toNat) w) := by
        unfold Box.filtered at hmem ⊢
        rw [List.getElem?_map, hmem, Option.map_some]
      exact .inl ⟨_, insert_word_eq hindex nodes hfront hback hhash⟩
    · exact .inr (insert_word_foreign hindex (hcsv.field _ hfield c List.mem_cons_self) hc nodes i)
  · obtain ⟨c, hc, hfield⟩ := exists_foreign hforeign
    have hmem : [c] ∈ (box.filtered junk csv).words := by
      unfold Box.filtered
      rw [List.mem_filter, decide_eq_true_eq]
      exact ⟨hfield, List.cons_ne_nil c [], List.isChain_singleton c⟩
    obtain ⟨i, hi, hget⟩ := List.getElem_of_mem hmem
    refine ⟨([c], i), ?_, fun nodes => ?_⟩
    · rw [List.mem_zipIdx_iff_getElem?]
      exact (List.getElem?_eq_getElem hi).trans (congrArg some hget)
    · exact insert_word_foreign hindex (hcsv.field _ hfield c List.mem_cons_self) hc nodes i

/-- **A one-letter word outside the box breaks `solve`.** -/
theorem solve_foreign (cfg : Settings) (hforeign : ¬box.OneLetterInside csv) :
    solve cfg compressionIndex (box.filtered junk csv).words (box.filtered junk csv).wordHashes =
      some (.error (.outOfRange .nodes INVALID_CHAR_FLAG.toNat)) := by
  have hlength : ¬(box.filtered junk csv).words.length ≠
      (box.filtered junk csv).wordHashes.length := not_not.mpr (List.length_map _).symm
  unfold solve
  rw [if_neg hlength]
  dsimp only
  rw [run_lift_error (build_graph_foreign hindex junk hcsv hforeign init_nodes)]

end Foreign

/-- A run does not index the nodes, the state cache or the words out of range. -/
def SafeIndices (run : Run (List solution_t)) : Prop :=
  ∀ c ∈ [Container.nodes, .stateDepthCache, .words], ∀ i, run ≠ some (.error (.outOfRange c i))

/-- **When every index is in range.** On a lower-case word list, `solve` keeps
to its nodes, its state cache and its words, and the filter lets through only
words over the box, if and only if no field of one letter lies outside the
box. -/
theorem indices_in_range_iff (build : SplitBuild) (cfg : Settings) (junk : Nat → char_mask_t)
    (box : Box) (csv : List UInt8) (hcsv : LowerCsv csv) :
    ∃ compressionIndex wordEnds data,
      gen_compression_index box.characters = .ok compressionIndex ∧
      word_ends build csv 44 3 = .ok wordEnds ∧
      filter_and_hash (lenient junk) compressionIndex csv wordEnds = .ok data ∧
      ((SafeIndices (solve cfg compressionIndex data.words data.wordHashes) ∧
          ∀ w ∈ data.words, ∀ c ∈ w, c ∈ box.characters) ↔ box.OneLetterInside csv) := by
  obtain ⟨compressionIndex, hindexed, hindex⟩ := gen_compression_index_box box
  obtain ⟨wordEnds, hends, hfilter⟩ := filter_and_hash_lower hindex build junk hcsv
  refine ⟨compressionIndex, wordEnds, _, hindexed, hends, hfilter, ?_⟩
  constructor
  · rintro ⟨hsafe, _⟩
    by_contra hforeign
    exact hsafe .nodes (by decide) _ (solve_foreign hindex junk hcsv cfg hforeign)
  · intro hone
    rw [filtered_eq hone]
    refine ⟨fun c _ i hrun => ?_, (box.kept_words csv hone).letters⟩
    obtain ⟨sols, hsolve, _⟩ := exists_solved cfg hindex (box.kept_words csv hone)
    rw [hsolve] at hrun
    cases hrun

theorem indices_in_range_iff_first_box :
    ∃ compressionIndex wordEnds data,
      gen_compression_index first_box.characters = .ok compressionIndex ∧
      word_ends .simd [122] 44 3 = .ok wordEnds ∧
      filter_and_hash (lenient fun _ => 0#32) compressionIndex [122] wordEnds = .ok data ∧
      ((SafeIndices (solve settings compressionIndex data.words data.wordHashes) ∧
          ∀ w ∈ data.words, ∀ c ∈ w, c ∈ first_box.characters) ↔ first_box.OneLetterInside [122]) :=
  indices_in_range_iff .simd settings (fun _ => 0#32) first_box [122] (by decide +kernel)

/-- The word list `z` and a box without that letter: the word is let through,
and the nodes are indexed at 4095. -/
theorem foreign_letter_out_of_range :
    ∃ compressionIndex wordEnds data,
      gen_compression_index first_box.characters = .ok compressionIndex ∧
      word_ends .simd [122] 44 3 = .ok wordEnds ∧
      filter_and_hash (lenient fun _ => 0#32) compressionIndex [122] wordEnds = .ok data ∧
      [122] ∈ data.words ∧ 122 ∉ first_box.characters ∧
      solve settings compressionIndex data.words data.wordHashes =
        some (.error (.outOfRange .nodes 4095)) := by
  obtain ⟨compressionIndex, hindexed, hindex⟩ := gen_compression_index_box first_box
  have hcsv : LowerCsv [122] := by decide +kernel
  obtain ⟨wordEnds, hends, hfilter⟩ := filter_and_hash_lower hindex .simd (fun _ => 0#32) hcsv
  exact ⟨compressionIndex, wordEnds, _, hindexed, hends, hfilter, by decide +kernel,
    by decide +kernel, solve_foreign hindex _ hcsv settings (by decide +kernel)⟩

end LetterBoxed
