/-
What `filter_and_hash` looks up before it rejects a word.

The loop over the letters looks up the masks and the bit of a letter, and only
then compares it with the letter before. It is left at the first two neighbours
that do not fit. So a letter is looked up if all letters before it fit, and one
that must not be looked up is harmless only behind two neighbours that do not.

Two lookups can go wrong. The bit of a letter outside the box is a shift by the
invalid flag, and a byte that is no letter has no place in the tables. What
happens in a word is the same in both cases, and `Lookups` is what they have in
common.
-/
import LetterBoxed.Filter

set_option autoImplicit false

namespace LetterBoxed

variable {box : Box}

/-! ## Guarded words -/

/-- All letters pass `p`, or two neighbours before the first that does not keep
the filter from looking at it. -/
def Box.Guarded (box : Box) (p : UInt8 → Bool) (w : List UInt8) : Prop :=
  (∀ c ∈ w, p c = true) ∨ ¬(w.takeWhile p).IsChain box.Fits

instance (p : UInt8 → Bool) (w : List UInt8) : Decidable (box.Guarded p w) :=
  inferInstanceAs (Decidable (_ ∨ _))

section Guarded

variable {p : UInt8 → Bool} {prev c : UInt8} {rest : List UInt8}

theorem guarded_singleton (hc : p c = true) : box.Guarded p [c] := by
  refine .inl ?_
  simpa using hc

/-- Neighbours that do not fit guard all that is behind them. -/
theorem guarded_cons_cons (hprev : p prev = true) (hc : p c = true) :
    box.Guarded p (prev :: c :: rest) ↔ (box.Fits prev c → box.Guarded p (c :: rest)) := by
  unfold Box.Guarded
  simp only [List.takeWhile_cons, hprev, hc, if_true, List.isChain_cons_cons, List.forall_mem_cons,
    true_and]
  by_cases hfits : box.Fits prev c
  · simp [hfits]
  · simp [hfits]

/-- The first letter is looked up. -/
theorem not_guarded_cons (hc : p c = false) : ¬box.Guarded p (c :: rest) := by
  unfold Box.Guarded
  simp [hc]

/-- So is the second. -/
theorem not_guarded_cons_cons (hprev : p prev = true) (hc : p c = false) :
    ¬box.Guarded p (prev :: c :: rest) := by
  unfold Box.Guarded
  simp [hprev, hc]

end Guarded

/-! ## Lookups -/

/-- Letters that pass `p` are looked up; any other letter ends the run in one
of its faults, in the masks or at its bit. -/
structure Lookups (box : Box) (oversized : Nat → Except Fault char_mask_t)
    (compressionIndex : compression_index_t) (charFilterMasks : List char_mask_t)
    (p : UInt8 → Bool) (Bad : UInt8 → Fault → Prop) : Prop where
  flag : ∀ c, p c = true → ∃ flag, bit_flag oversized c compressionIndex = .ok flag
  mask : ∀ c, p c = true → charFilterMasks[idx c]? = some (box.filter_mask c)
  bad_flag : ∀ c, p c = false → ∃ fault, bit_flag oversized c compressionIndex = .error fault ∧
    Bad c fault
  bad_mask : ∀ c, p c = false → (∃ mask, charFilterMasks[idx c]? = some mask) ∨
    ∃ fault, read .charFilterMasks charFilterMasks (idx c) = .error fault ∧ Bad c fault

/-- The run returns what `R` says if it is guarded, and otherwise ends in a
fault of one of the letters. -/
structure Outcome {α : Type} (Bad : UInt8 → Fault → Prop) (guarded : Prop) (letters : List UInt8)
    (R : α → Prop) (run : Except Fault α) : Prop where
  returns : guarded → ∃ a, run = .ok a ∧ R a
  faults : ¬guarded → ∃ c ∈ letters, ∃ fault, run = .error fault ∧ Bad c fault

section Outcome

variable {α : Type} {Bad : UInt8 → Fault → Prop} {guarded : Prop} {letters : List UInt8}
  {R : α → Prop} {run : Except Fault α}

theorem Outcome.ok {a : α} (hguarded : guarded) (ha : R a) :
    Outcome Bad guarded letters R (.ok a) :=
  ⟨fun _ => ⟨a, rfl, ha⟩, fun h => absurd hguarded h⟩

theorem Outcome.error {c : UInt8} {fault : Fault} (hguarded : ¬guarded) (hc : c ∈ letters)
    (hbad : Bad c fault) : Outcome Bad guarded letters R (.error fault) :=
  ⟨fun h => absurd h hguarded, fun _ => ⟨c, hc, fault, rfl, hbad⟩⟩

/-- A run returns exactly if it is guarded. -/
theorem Outcome.returns_iff (h : Outcome Bad guarded letters R run) :
    (∃ a, run = .ok a) ↔ guarded := by
  constructor
  · rintro ⟨a, ha⟩
    by_contra hguarded
    obtain ⟨_, _, fault, hfault, _⟩ := h.faults hguarded
    rw [ha] at hfault
    cases hfault
  · intro hguarded
    obtain ⟨a, ha, _⟩ := h.returns hguarded
    exact ⟨a, ha⟩

theorem Outcome.ok_iff (h : Outcome Bad guarded letters R run) :
    (∃ a, run = .ok a ∧ R a) ↔ guarded := by
  constructor
  · rintro ⟨a, ha, _⟩
    exact h.returns_iff.mp ⟨a, ha⟩
  · exact h.returns

/-- A run is safe from faults that include those of the letters exactly if it
is guarded. -/
theorem Outcome.safe_iff (h : Outcome Bad guarded letters R run) {P : Fault → Prop}
    (hP : ∀ c ∈ letters, ∀ fault, Bad c fault → P fault) :
    (∀ fault, P fault → run ≠ .error fault) ↔ guarded := by
  constructor
  · intro hsafe
    by_contra hguarded
    obtain ⟨c, hc, fault, hfault, hbad⟩ := h.faults hguarded
    exact hsafe fault (hP c hc fault hbad) hfault
  · intro hguarded fault _ hfault
    obtain ⟨a, ha, _⟩ := h.returns hguarded
    rw [ha] at hfault
    cases hfault

/-- One letter more in front, which passes. -/
theorem Outcome.cons {p : UInt8 → Bool} {c : UInt8} {guarded' : Prop}
    {run : Except Fault (Option char_mask_t)}
    (h : Outcome Bad guarded letters
      (fun answer => answer.isSome = true → ∀ d ∈ letters, p d = true) run)
    (hc : p c = true) (hiff : guarded' ↔ guarded) :
    Outcome Bad guarded' (c :: letters)
      (fun answer => answer.isSome = true → ∀ d ∈ c :: letters, p d = true) run := by
  refine ⟨fun hguarded => ?_, fun hguarded => ?_⟩
  · obtain ⟨answer, hrun, hletters⟩ := h.returns (hiff.mp hguarded)
    exact ⟨answer, hrun, fun hsome => List.forall_mem_cons.mpr ⟨hc, hletters hsome⟩⟩
  · obtain ⟨d, hd, hfault⟩ := h.faults fun h => hguarded (hiff.mpr h)
    exact ⟨d, List.mem_cons_of_mem c hd, hfault⟩

end Outcome

section Lookups

variable {oversized : Nat → Except Fault char_mask_t} {compressionIndex : compression_index_t}
  {charFilterMasks : List char_mask_t} {p : UInt8 → Bool} {Bad : UInt8 → Fault → Prop}

/-- The loop over the letters behind `prev`. -/
theorem Lookups.hash_word
    (h : Lookups box oversized compressionIndex charFilterMasks p Bad) (rest : List UInt8) :
    ∀ (prev : UInt8) (wordHash : char_mask_t), p prev = true →
      Outcome Bad (box.Guarded p (prev :: rest)) rest
        (fun answer => answer.isSome = true → ∀ c ∈ rest, p c = true)
        (hash_word oversized compressionIndex charFilterMasks prev rest wordHash) := by
  induction rest with
  | nil =>
      intro prev wordHash hprev
      exact .ok (guarded_singleton hprev) (by simp)
  | cons c rest ih =>
      intro prev wordHash hprev
      unfold LetterBoxed.hash_word
      rw [read_getElem (h.mask prev hprev)]
      by_cases hc : p c = true
      · obtain ⟨flag, hflag⟩ := h.flag c hc
        rw [read_getElem (h.mask c hc)]
        simp only [bind, Except.bind, hflag]
        have hguarded : box.Guarded p (prev :: c :: rest) ↔
            (box.Fits prev c → box.Guarded p (c :: rest)) := guarded_cons_cons hprev hc
        by_cases hfits : box.Fits prev c
        · -- the loop goes on
          have hoverlap : ¬box.filter_mask c &&& box.filter_mask prev ≠ 0 := by
            rw [filter_mask_overlap]
            exact not_not.mpr hfits
          rw [if_neg hoverlap]
          apply (ih c (wordHash ||| flag) hc).cons hc
          rw [hguarded]
          exact forall_prop_of_true hfits
        · -- `break`
          rw [if_pos ((filter_mask_overlap prev c).mpr hfits)]
          exact .ok (hguarded.mpr fun h => absurd h hfits) (by simp)
      · -- a letter that is looked up in vain
        rw [Bool.not_eq_true] at hc
        obtain ⟨fault, hflag, hbad⟩ := h.bad_flag c hc
        rcases h.bad_mask c hc with ⟨mask, hmask⟩ | ⟨fault', hmask, hbad'⟩
        · rw [read_getElem hmask]
          simp only [bind, Except.bind, hflag]
          exact .error (not_guarded_cons_cons hprev hc) List.mem_cons_self hbad
        · rw [hmask]
          exact .error (not_guarded_cons_cons hprev hc) List.mem_cons_self hbad'

/-- One field. -/
theorem Lookups.filter_word
    (h : Lookups box oversized compressionIndex charFilterMasks p Bad) (word : List UInt8) :
    Outcome Bad (box.Guarded p word) word
      (fun answer => answer.isSome = true → ∀ c ∈ word, p c = true)
      (filter_word oversized compressionIndex charFilterMasks word) := by
  cases word with
  | nil => exact .ok (.inl (by simp)) (by simp)
  | cons c rest =>
      unfold LetterBoxed.filter_word
      by_cases hc : p c = true
      · obtain ⟨flag, hflag⟩ := h.flag c hc
        simp only [bind, Except.bind, hflag]
        exact (h.hash_word rest c flag hc).cons hc Iff.rfl
      · rw [Bool.not_eq_true] at hc
        obtain ⟨fault, hflag, hbad⟩ := h.bad_flag c hc
        simp only [bind, Except.bind, hflag]
        exact .error (not_guarded_cons hc) List.mem_cons_self hbad

/-- All fields: the run returns if every field is guarded, with words in which
every letter passes `p`. -/
theorem Lookups.filter_fields
    (h : Lookups box oversized compressionIndex charFilterMasks p Bad)
    (fields : List (List UInt8)) :
    ∀ out : words_data, (∀ w ∈ out.words, ∀ c ∈ w, p c = true) →
      Outcome Bad (∀ field ∈ fields, box.Guarded p field) fields.flatten
        (fun data => ∀ w ∈ data.words, ∀ c ∈ w, p c = true)
        (filter_fields oversized compressionIndex charFilterMasks fields out) := by
  induction fields with
  | nil =>
      intro out hout
      refine ⟨fun _ => ⟨out, rfl, hout⟩, fun hguarded => ?_⟩
      simp at hguarded
  | cons field fields ih =>
      intro out hout
      have hword := h.filter_word field
      by_cases hfield : box.Guarded p field
      · obtain ⟨answer, hrun, hletters⟩ := hword.returns hfield
        -- whatever the field adds, the rest of the walk starts with such words
        obtain ⟨out', hstep, hout'⟩ : ∃ out',
            LetterBoxed.filter_fields oversized compressionIndex charFilterMasks (field :: fields)
                out =
              LetterBoxed.filter_fields oversized compressionIndex charFilterMasks fields out' ∧
            ∀ w ∈ out'.words, ∀ c ∈ w, p c = true := by
          rw [LetterBoxed.filter_fields, hrun]
          cases answer with
          | none => exact ⟨out, rfl, hout⟩
          | some wordHash =>
              refine ⟨⟨out.words ++ [field], out.wordHashes ++ [wordHash]⟩, rfl, fun w hw => ?_⟩
              rcases List.mem_append.mp hw with hw | hw
              · exact hout w hw
              · rw [List.mem_singleton.mp hw]
                exact hletters rfl
        have hrest := ih out' hout'
        rw [hstep]
        simp only [List.forall_mem_cons, hfield, true_and]
        refine ⟨hrest.returns, fun hguarded => ?_⟩
        obtain ⟨c, hc, hfault⟩ := hrest.faults hguarded
        exact ⟨c, List.mem_append_right field hc, hfault⟩
      · obtain ⟨c, hc, fault, hrun, hbad⟩ := hword.faults hfield
        rw [LetterBoxed.filter_fields, hrun]
        refine ⟨fun hguarded => absurd (hguarded field List.mem_cons_self) hfield, fun _ => ?_⟩
        exact ⟨c, List.mem_append_left fields.flatten hc, fault, rfl, hbad⟩

/-- **The whole run.** -/
theorem Lookups.filter_and_hash
    (h : Lookups box oversized compressionIndex charFilterMasks p Bad)
    (hmasks : gen_char_filter_masks compressionIndex = .ok charFilterMasks) (build : SplitBuild)
    (csv : List UInt8) :
    ∃ wordEnds, word_ends build csv 44 3 = .ok wordEnds ∧
      Outcome Bad (∀ field ∈ fields csv, box.Guarded p field) (fields csv).flatten
        (fun data => ∀ w ∈ data.words, ∀ c ∈ w, p c = true)
        (filter_and_hash oversized compressionIndex csv wordEnds) := by
  refine ⟨_, word_ends_eq build csv (by decide) (by decide), ?_⟩
  rw [filter_and_hash_eq, hmasks]
  exact h.filter_fields (fields csv) ⟨[], []⟩ (by simp)

end Lookups

/-! ## Oversized shifts -/

/-- No mask for an oversized shift: the run has no defined continuation. -/
def undefined_shift : Nat → Except Fault char_mask_t := fun amount => .error (.oversizedShift amount)

section Tables

variable {compressionIndex : compression_index_t} {charFilterMasks : List char_mask_t}

/-- Only the letters of the box have a bit. -/
theorem lookups_letters (hindex : IndexOf box compressionIndex)
    (hlength : charFilterMasks.length = CHARACTERS)
    (hmasks : ∀ c, IsLower c → charFilterMasks[idx c]? = some (box.filter_mask c)) :
    Lookups box undefined_shift compressionIndex charFilterMasks (fun c => decide (c ∈ box.characters))
      fun c fault => IsLower c → fault = .oversizedShift INVALID_CHAR_FLAG.toNat := by
  refine ⟨fun c hc => ?_, fun c hc => ?_, fun c hc => ?_, fun c _ => ?_⟩
  · obtain ⟨i, rfl⟩ := Box.exists_letter (of_decide_eq_true hc)
    exact ⟨_, bit_flag_letter hindex _ i⟩
  · exact hmasks c (box.lower c (of_decide_eq_true hc))
  · by_cases hlower : IsLower c
    · exact ⟨_, bit_flag_foreign hindex _ hlower (of_decide_eq_false hc), fun _ => rfl⟩
    · exact ⟨_, bit_flag_not_lower hindex _ hlower, fun h => absurd h hlower⟩
  · by_cases hlower : IsLower c
    · exact .inl ⟨_, hmasks c hlower⟩
    · refine .inr ⟨_, read_ge ?_, fun h => absurd h hlower⟩
      rw [hlength, ← Nat.not_lt, idx_lt_iff]
      exact hlower

/-- Only lower-case letters have a place in the tables. -/
theorem lookups_lower (hindex : IndexOf box compressionIndex)
    (hlength : charFilterMasks.length = CHARACTERS)
    (hmasks : ∀ c, IsLower c → charFilterMasks[idx c]? = some (box.filter_mask c))
    (junk : Nat → char_mask_t) :
    Lookups box (lenient junk) compressionIndex charFilterMasks (fun c => decide (IsLower c))
      fun c fault => CHARACTERS ≤ idx c ∧
        (fault = .outOfRange .compressionIndex (idx c) ∨
          fault = .outOfRange .charFilterMasks (idx c)) := by
  have hge : ∀ {c}, decide (IsLower c) = false → CHARACTERS ≤ idx c := by
    intro c hc
    rw [← Nat.not_lt, idx_lt_iff]
    exact of_decide_eq_false hc
  refine ⟨fun c hc => ?_, fun c hc => ?_, fun c hc => ?_, fun c hc => ?_⟩
  · exact ⟨_, bit_flag_eq hindex junk (of_decide_eq_true hc)⟩
  · exact hmasks c (of_decide_eq_true hc)
  · exact ⟨_, bit_flag_not_lower hindex _ (of_decide_eq_false hc), hge hc, .inl rfl⟩
  · exact .inr ⟨_, read_ge (hlength ▸ hge hc), hge hc, .inr rfl⟩

end Tables

/-- **When no shift is oversized.** On a lower-case word list every shift stays
below the width of a mask, and the filter has a value, if and only if in every
field with a letter outside the box two neighbours that do not fit stand before
the first one. -/
theorem shifts_in_range_iff (box : Box) (build : SplitBuild) {csv : List UInt8}
    (hcsv : LowerCsv csv) :
    ∃ compressionIndex wordEnds,
      gen_compression_index box.characters = .ok compressionIndex ∧
      word_ends build csv 44 3 = .ok wordEnds ∧
      ((∀ amount, filter_and_hash undefined_shift compressionIndex csv wordEnds ≠
          .error (.oversizedShift amount)) ↔
        ∀ field ∈ fields csv, box.Guarded (fun c => decide (c ∈ box.characters)) field) ∧
      ((∃ data, filter_and_hash undefined_shift compressionIndex csv wordEnds = .ok data) ↔
        ∀ field ∈ fields csv, box.Guarded (fun c => decide (c ∈ box.characters)) field) := by
  obtain ⟨compressionIndex, hindexed, hindex⟩ := gen_compression_index_box box
  obtain ⟨charFilterMasks, hrun, hlength, hmasks⟩ := gen_char_filter_masks_box hindex
  obtain ⟨wordEnds, hends, houtcome⟩ :=
    (lookups_letters hindex hlength hmasks).filter_and_hash hrun build csv
  refine ⟨compressionIndex, wordEnds, hindexed, hends, ?_, ?_⟩
  · -- a letter of a field is lower-case, so its fault is the shift
    have hshift : ∀ c ∈ (fields csv).flatten, ∀ fault : Fault,
        (IsLower c → fault = .oversizedShift INVALID_CHAR_FLAG.toNat) →
        ∃ amount, fault = .oversizedShift amount := by
      intro c hc fault hbad
      obtain ⟨field, hfield, hc⟩ := List.mem_flatten.mp hc
      exact ⟨_, hbad (hcsv.field field hfield c hc)⟩
    rw [← houtcome.safe_iff hshift]
    simp only [forall_exists_index, forall_eq_apply_imp_iff]
  · exact houtcome.returns_iff

theorem shifts_in_range_iff_first_box : LowerCsv [97, 98, 122] ∧
    ∃ compressionIndex wordEnds data,
      gen_compression_index first_box.characters = .ok compressionIndex ∧
      word_ends .simd [97, 98, 122] 44 3 = .ok wordEnds ∧
      filter_and_hash undefined_shift compressionIndex [97, 98, 122] wordEnds = .ok data := by
  have hcsv : LowerCsv [97, 98, 122] := by decide +kernel
  obtain ⟨compressionIndex, wordEnds, hindexed, hends, _, hiff⟩ :=
    shifts_in_range_iff first_box .simd hcsv
  -- `a` and `b` are on one side, so `z` is not looked up
  have hguarded : ∀ field ∈ fields [97, 98, 122],
      first_box.Guarded (fun c => decide (c ∈ first_box.characters)) field := by decide +kernel
  obtain ⟨data, hdata⟩ := hiff.mpr hguarded
  exact ⟨hcsv, compressionIndex, wordEnds, data, hindexed, hends, hdata⟩

/-- The word list `z`: its first letter is a shift by 4095. -/
theorem foreign_letter_oversized :
    ∃ compressionIndex wordEnds,
      gen_compression_index first_box.characters = .ok compressionIndex ∧
      word_ends .scalar [122] 44 3 = .ok wordEnds ∧
      filter_and_hash undefined_shift compressionIndex [122] wordEnds =
        .error (.oversizedShift 4095) := by
  obtain ⟨compressionIndex, hindexed, hindex⟩ := gen_compression_index_box first_box
  obtain ⟨charFilterMasks, hrun, _, _⟩ := gen_char_filter_masks_box hindex
  have hfield : ([122] : List UInt8).splitOn 44 = [[122]] := by decide +kernel
  have hflag : bit_flag undefined_shift 122 compressionIndex = .error (.oversizedShift 4095) :=
    bit_flag_foreign hindex _ (by decide +kernel) (by decide +kernel)
  refine ⟨compressionIndex, _, hindexed, word_ends_eq .scalar [122] (by decide) (by decide), ?_⟩
  rw [filter_and_hash_eq, hrun, hfield]
  simp only [bind, Except.bind, filter_fields, filter_word, hflag]

/-! ## Bytes that are no letters -/

/-- **When the tables are read in range.** On a csv of any bytes, the tables are
read only at the indices of letters, and only words of lower-case letters are
returned, if and only if in every field with a byte that is no lower-case
letter two neighbours that do not fit stand before the first one. -/
theorem table_reads_in_range_iff (box : Box) (build : SplitBuild) (junk : Nat → char_mask_t)
    (csv : List UInt8) :
    ∃ compressionIndex wordEnds,
      gen_compression_index box.characters = .ok compressionIndex ∧
      word_ends build csv 44 3 = .ok wordEnds ∧
      ((∀ table ∈ [Container.compressionIndex, .charFilterMasks], ∀ i, CHARACTERS ≤ i →
          filter_and_hash (lenient junk) compressionIndex csv wordEnds ≠
            .error (.outOfRange table i)) ↔
        ∀ field ∈ fields csv, box.Guarded (fun c => decide (IsLower c)) field) ∧
      ((∃ data, filter_and_hash (lenient junk) compressionIndex csv wordEnds = .ok data ∧
          ∀ w ∈ data.words, ∀ c ∈ w, IsLower c) ↔
        ∀ field ∈ fields csv, box.Guarded (fun c => decide (IsLower c)) field) := by
  obtain ⟨compressionIndex, hindexed, hindex⟩ := gen_compression_index_box box
  obtain ⟨charFilterMasks, hrun, hlength, hmasks⟩ := gen_char_filter_masks_box hindex
  obtain ⟨wordEnds, hends, houtcome⟩ :=
    (lookups_lower hindex hlength hmasks junk).filter_and_hash hrun build csv
  refine ⟨compressionIndex, wordEnds, hindexed, hends, ?_, ?_⟩
  · have hread : ∀ c ∈ (fields csv).flatten, ∀ fault : Fault, (CHARACTERS ≤ idx c ∧
        (fault = .outOfRange .compressionIndex (idx c) ∨
          fault = .outOfRange .charFilterMasks (idx c))) →
        ∃ table ∈ [Container.compressionIndex, .charFilterMasks], ∃ i, CHARACTERS ≤ i ∧
          fault = .outOfRange table i := by
      rintro c _ fault ⟨hge, rfl | rfl⟩
      · exact ⟨.compressionIndex, by decide, idx c, hge, rfl⟩
      · exact ⟨.charFilterMasks, by decide, idx c, hge, rfl⟩
    rw [← houtcome.safe_iff hread]
    constructor
    · rintro hsafe _ ⟨table, htable, i, hge, rfl⟩
      exact hsafe table htable i hge
    · exact fun hsafe table htable i hge => hsafe _ ⟨table, htable, i, hge, rfl⟩
  · rw [← houtcome.ok_iff]
    simp only [decide_eq_true_eq]

/-- The word list `ad` with a line end behind it: the line end is looked up far
behind the masks. -/
theorem line_end_out_of_range :
    ∃ compressionIndex wordEnds,
      gen_compression_index first_box.characters = .ok compressionIndex ∧
      word_ends .scalar [97, 100, 10] 44 3 = .ok wordEnds ∧
      filter_and_hash (lenient fun _ => 0#32) compressionIndex [97, 100, 10] wordEnds =
        .error (.outOfRange .charFilterMasks (2 ^ 64 - 87)) := by
  obtain ⟨compressionIndex, hindexed, hindex⟩ := gen_compression_index_box first_box
  obtain ⟨charFilterMasks, hrun, hlength, hmasks⟩ := gen_char_filter_masks_box hindex
  have hlower : IsLower 97 ∧ IsLower 100 := by decide +kernel
  have hfield : ([97, 100, 10] : List UInt8).splitOn 44 = [[97, 100, 10]] := by decide +kernel
  have hoverlap : ¬first_box.filter_mask 100 &&& first_box.filter_mask 97 ≠ 0 := by decide +kernel
  have hread : read .charFilterMasks charFilterMasks (idx 10) =
      .error (.outOfRange .charFilterMasks (2 ^ 64 - 87)) :=
    read_ge (by rw [hlength]; decide +kernel)
  refine ⟨compressionIndex, _, hindexed,
    word_ends_eq .scalar [97, 100, 10] (by decide) (by decide), ?_⟩
  rw [filter_and_hash_eq, hrun, hfield]
  -- `a` and `d` fit, so the loop goes on to the line end
  simp only [bind, Except.bind, filter_fields, filter_word, hash_word,
    bit_flag_eq hindex _ hlower.1, bit_flag_eq hindex _ hlower.2, read_getElem (hmasks _ hlower.1),
    read_getElem (hmasks _ hlower.2), if_neg hoverlap, hread]

end LetterBoxed
