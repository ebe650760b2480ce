/-
The fields between the word ends are the fields of the csv.

`word_ends` returns, for every field, the index behind it, and the walk of
`filter_and_hash` gets the fields back one by one: its begin is the end of the
field before plus one. Joined with the separator the fields are the csv again.
So the walk is a fold over the fields, and no index arithmetic is left behind
this module.
-/
import LetterBoxed.Split

set_option autoImplicit false

namespace LetterBoxed

/-- The ends of consecutive fields, the first of which begins at `start`. -/
def field_ends : Nat → List (List UInt8) → List Nat
  | _, [] => []
  | start, field :: rest => (start + field.length) :: field_ends (start + field.length + 1) rest

theorem findIdxs_eq_field_ends (separator : UInt8) (csv : List UInt8) (start : Nat) :
    csv.findIdxs (· == separator) start ++ [start + csv.length] =
      field_ends start (csv.splitOn separator) := by
  induction csv generalizing start with
  | nil => rfl
  | cons c csv ih =>
      rw [List.findIdxs_cons, List.splitOn_cons_eq_if_modifyHead, List.length_cons]
      have hlen : start + (csv.length + 1) = start + 1 + csv.length := by omega
      by_cases hc : c == separator
      · -- an empty field ends here
        rw [if_pos hc, if_pos hc, List.cons_append, hlen, ih]
        rfl
      · -- the first field of the rest is one byte longer
        rw [if_neg hc, if_neg hc, hlen, ih]
        obtain ⟨field, rest, hfields⟩ := List.exists_cons_of_ne_nil (List.splitOn_ne_nil separator csv)
        rw [hfields, List.modifyHead_cons, field_ends, field_ends, List.length_cons]
        rw [show start + 1 + field.length = start + (field.length + 1) by omega]

/-- **`word_ends` returns the ends of the fields**, in both builds. -/
theorem word_ends_eq (build : SplitBuild) (csv : List UInt8) {separator : UInt8}
    (hseparator : separator ≠ 0) {separatorDistGuess : Nat} (hguess : separatorDistGuess ≠ 0) :
    word_ends build csv separator separatorDistGuess =
      .ok (field_ends 0 (csv.splitOn separator)) := by
  -- a separator lies before the end of the data
  have hlast : (csv.findIdxs (· == separator)).getLast? ≠ some csv.length := by
    intro hlast
    have hlt := List.lt_add_of_mem_findIdxs _ (List.mem_of_getLast? hlast)
    omega
  unfold word_ends
  rw [split_eq build csv hseparator hguess]
  simp only [bind, Except.bind]
  rw [if_neg hlast, ← findIdxs_eq_field_ends, Nat.zero_add]
  rfl

/-- What a field consists of. -/
theorem of_mem_field {csv : List UInt8} {separator : UInt8} :
    ∀ field ∈ csv.splitOn separator, ∀ c ∈ field, c ∈ csv ∧ c ≠ separator := by
  induction csv with
  | nil => simp
  | cons b csv ih =>
      intro field hfield c hc
      have hkeep : ∀ {c}, c ∈ csv ∧ c ≠ separator → c ∈ b :: csv ∧ c ≠ separator :=
        fun h => ⟨List.mem_cons_of_mem b h.1, h.2⟩
      rw [List.splitOn_cons_eq_if_modifyHead] at hfield
      by_cases hb : b == separator
      · rw [if_pos hb, List.mem_cons] at hfield
        rcases hfield with rfl | hfield
        · exact absurd hc List.not_mem_nil
        · exact hkeep (ih field hfield c hc)
      · -- the byte belongs to the first field
        rw [if_neg hb] at hfield
        obtain ⟨first, rest, hfields⟩ :=
          List.exists_cons_of_ne_nil (List.splitOn_ne_nil separator csv)
        rw [hfields] at hfield ih
        rw [List.modifyHead_cons, List.mem_cons] at hfield
        rw [List.forall_mem_cons] at ih
        rcases hfield with rfl | hfield
        · rcases List.mem_cons.mp hc with rfl | hc
          · exact ⟨List.mem_cons_self, fun h => hb (by simp [h])⟩
          · exact hkeep (ih.1 c hc)
        · exact hkeep (ih.2 field hfield c hc)

/-- The word ends ascend and end with the size of the data. -/
theorem field_ends_ascend (separator : UInt8) (csv : List UInt8) :
    (field_ends 0 (csv.splitOn separator)).Pairwise (· < ·) ∧
      (field_ends 0 (csv.splitOn separator)).getLast? = some csv.length := by
  rw [← findIdxs_eq_field_ends, Nat.zero_add, List.pairwise_append]
  refine ⟨⟨List.pairwise_findIdxs, List.pairwise_singleton _ _, fun i hi j hj => ?_⟩,
    List.getLast?_concat⟩
  -- a separator lies before the end of the data
  have hlt := List.lt_add_of_mem_findIdxs _ hi
  rw [List.mem_singleton.mp hj]
  omega

/-! ## The walk -/

/-- The bounds of the fields that `filter_and_hash` walks, `start` being
`begin`. -/
def field_bounds : Nat → List Nat → List (Nat × Nat)
  | _, [] => []
  | start, wordEnd :: wordEnds => (start, wordEnd) :: field_bounds (wordEnd + 1) wordEnds

/-- What the walk reads between two bounds. -/
def read_field (csv : List UInt8) (bounds : Nat × Nat) : Except Fault (List UInt8) :=
  substr csv bounds.1 (size_sub bounds.2 bounds.1)

/-- A field that lies between its bounds. -/
structure FieldAt (csv : List UInt8) (bounds : Nat × Nat) (field : List UInt8) : Prop where
  begin_le : bounds.1 ≤ bounds.2
  end_le : bounds.2 ≤ csv.length
  field_eq : (csv.drop bounds.1).take (bounds.2 - bounds.1) = field

section FieldAt

variable {csv field : List UInt8} {bounds : Nat × Nat}

theorem FieldAt.size_eq (h : FieldAt csv bounds field) :
    size_sub bounds.2 bounds.1 = field.length := by
  have hbegin := h.begin_le
  have hend := h.end_le
  rw [size_sub_le hbegin, ← h.field_eq, List.length_take, List.length_drop]
  omega

/-- A field is read without a fault. -/
theorem FieldAt.read_eq (h : FieldAt csv bounds field) : read_field csv bounds = .ok field := by
  have hbegin := h.begin_le
  have hend := h.end_le
  unfold read_field substr
  rw [size_sub_le hbegin, if_pos (by omega), h.field_eq]

end FieldAt

/-- The fields lie between the bounds of the walk. -/
theorem fields_at (separator : UInt8) (fields : List (List UInt8)) :
    ∀ before : List UInt8, List.Forall₂ (FieldAt (before ++ [separator].intercalate fields))
      (field_bounds before.length (field_ends before.length fields)) fields := by
  induction fields with
  | nil => exact fun _ => .nil
  | cons field rest ih =>
      intro before
      -- what is behind the field, and where the walk goes on
      obtain ⟨after, hcsv, hrest⟩ : ∃ after,
          [separator].intercalate (field :: rest) = field ++ after ∧
            List.Forall₂ (FieldAt (before ++ (field ++ after)))
              (field_bounds (before.length + field.length + 1)
                (field_ends (before.length + field.length + 1) rest)) rest := by
        by_cases hnil : rest = []
        · subst hnil
          exact ⟨[], by simp, .nil⟩
        · refine ⟨separator :: [separator].intercalate rest, ?_, ?_⟩
          · rw [List.intercalate_cons_of_ne_nil hnil]
            simp
          · have hih := ih (before ++ field ++ [separator])
            simpa [Nat.add_assoc] using hih
      rw [hcsv, field_ends, field_bounds, List.forall₂_cons]
      refine ⟨⟨Nat.le_add_right _ _, ?_, ?_⟩, hrest⟩
      · simp
      · rw [List.drop_left, Nat.add_sub_cancel_left, List.take_left]

/-- The bounds of the walk are those of the fields of the csv. -/
theorem csv_fields_at (separator : UInt8) (csv : List UInt8) :
    List.Forall₂ (FieldAt csv) (field_bounds 0 (field_ends 0 (csv.splitOn separator)))
      (csv.splitOn separator) := by
  have hat := fields_at separator (csv.splitOn separator) []
  rwa [List.nil_append, List.intercalate_splitOn, List.length_nil] at hat

section Walk

variable (oversized : Nat → Except Fault char_mask_t)
  (compressionIndex : compression_index_t) (charFilterMasks : List char_mask_t)

/-- The loop of `filter_and_hash` over the fields themselves. -/
def filter_fields : List (List UInt8) → words_data → Except Fault words_data
  | [], out => .ok out
  | field :: rest, out => do
    let out ← match ← filter_word oversized compressionIndex charFilterMasks field with
      | some wordHash =>
        pure { words := out.words ++ [field], wordHashes := out.wordHashes ++ [wordHash] }
      | none => pure out
    filter_fields rest out

/-- **The walk is a fold over the fields.** -/
theorem filter_words_eq {csv : List UInt8} (wordEnds : List Nat) :
    ∀ (start : Nat) (fields : List (List UInt8)) (out : words_data),
      List.Forall₂ (FieldAt csv) (field_bounds start wordEnds) fields →
        filter_words oversized compressionIndex charFilterMasks csv start wordEnds out =
          filter_fields oversized compressionIndex charFilterMasks fields out := by
  induction wordEnds with
  | nil =>
      intro start fields out hat
      rw [field_bounds, List.forall₂_nil_left_iff] at hat
      rw [hat, filter_words, filter_fields]
  | cons wordEnd wordEnds ih =>
      intro start fields out hat
      rw [field_bounds, List.forall₂_cons_left_iff] at hat
      obtain ⟨field, rest, hfield, hrest, rfl⟩ := hat
      have hsize : size_sub wordEnd start = field.length := hfield.size_eq
      have hword : substr csv start field.length = .ok field := by
        rw [← hsize]
        exact hfield.read_eq
      rw [filter_words, filter_fields]
      simp only [hsize]
      by_cases hempty : field = []
      · -- the source skips it before the filter, which would reject it
        subst hempty
        simp only [List.length_nil, if_true, filter_word, bind, Except.bind, pure, Except.pure]
        exact ih _ rest out hrest
      · have hpos : field.length ≠ 0 := fun h => hempty (List.eq_nil_of_length_eq_zero h)
        rw [if_neg hpos, hword]
        simp only [bind, Except.bind]
        cases filter_word oversized compressionIndex charFilterMasks field with
        | error fault => rfl
        | ok answer =>
            dsimp only
            rw [read_past_length]
            cases answer with
            | none => exact ih _ rest out hrest
            | some wordHash => exact ih _ rest _ hrest

/-- `filter_and_hash` on the word ends is the filter of the fields. -/
theorem filter_and_hash_eq (csv : List UInt8) (separator : UInt8) :
    filter_and_hash oversized compressionIndex csv (field_ends 0 (csv.splitOn separator)) =
      gen_char_filter_masks compressionIndex >>= fun charFilterMasks =>
        filter_fields oversized compressionIndex charFilterMasks (csv.splitOn separator)
          ⟨[], []⟩ := by
  unfold filter_and_hash
  congr 1
  funext charFilterMasks
  exact filter_words_eq oversized compressionIndex charFilterMasks _ _ _ _
    (csv_fields_at separator csv)

end Walk

/-- **Splitting loses nothing.** In both builds the word ends ascend strictly
and end with the size of the csv. No field of the walk begins behind its end or
ends behind the csv, so no `substr` of it throws or is cut off; the fields hold no comma,
and joined with commas they are the csv. The filter sees these fields only. -/
theorem word_ends_rebuild (build : SplitBuild) (csv : List UInt8) {separatorDistGuess : Nat}
    (hguess : 1 ≤ separatorDistGuess) :
    ∃ wordEnds fields, word_ends build csv 44 separatorDistGuess = .ok wordEnds ∧
      wordEnds.Pairwise (· < ·) ∧ wordEnds.getLast? = some csv.length ∧
      (∀ bounds ∈ field_bounds 0 wordEnds, bounds.1 ≤ bounds.2 ∧ bounds.2 ≤ csv.length) ∧
      (field_bounds 0 wordEnds).mapM (read_field csv) = .ok fields ∧
      (∀ field ∈ fields, 44 ∉ field) ∧ [44].intercalate fields = csv ∧
      ∀ oversized compressionIndex,
        filter_and_hash oversized compressionIndex csv wordEnds =
          gen_char_filter_masks compressionIndex >>= fun charFilterMasks =>
            filter_fields oversized compressionIndex charFilterMasks fields ⟨[], []⟩ := by
  obtain ⟨hascend, hlast⟩ := field_ends_ascend 44 csv
  have hat := csv_fields_at 44 csv
  refine ⟨_, csv.splitOn 44, word_ends_eq build csv (by decide) (by omega), hascend, hlast,
    fun bounds hbounds => ?_, ?_, fun field hfield hmem => ?_, List.intercalate_splitOn 44,
    fun oversized compressionIndex => filter_and_hash_eq oversized compressionIndex csv 44⟩
  · obtain ⟨field, _, hfield⟩ := exists_right_of_forall₂ hat hbounds
    exact ⟨hfield.begin_le, hfield.end_le⟩
  · exact mapM_of_forall₂ (hat.imp fun _ _ hfield => hfield.read_eq)
  · exact (of_mem_field field hfield 44 hmem).2 rfl

theorem word_ends_rebuild_two : 1 ≤ 3 ∧
    ∃ wordEnds, word_ends .scalar [97, 98, 44, 44] 44 3 = .ok wordEnds ∧
      wordEnds.Pairwise (· < ·) ∧ wordEnds.getLast? = some 4 := by
  obtain ⟨wordEnds, _, hrun, hascend, hlast, _⟩ :=
    word_ends_rebuild .scalar [97, 98, 44, 44] (show 1 ≤ 3 by decide)
  exact ⟨by decide, wordEnds, hrun, hascend, hlast⟩

end LetterBoxed
