/-
The puzzle: a box of letters and its legal solutions.

This is what the solver is for, stated without its encodings: a box is twelve
distinct letters, three to a side; a word is legal if it uses only letters of
the box and never two in a row from one side; a solution is a few legal words,
each beginning with the last letter of the one before, that use every letter.

The encodings are defined next to it, and are sets of letters in disguise: the
place of a letter is its bit, and the mask of a word is the set of places of
its letters.
-/
import LetterBoxed.Chains

set_option autoImplicit false

namespace LetterBoxed

/-- Twelve distinct letters; each side is three in a row. -/
structure Box where
  characters : List UInt8
  size_eq : characters.length = BOX_CHARS
  nodup : characters.Nodup
  lower : ∀ c ∈ characters, IsLower c

/-- The box of the first twelve letters. -/
def first_box : Box where
  characters := [97, 98, 99, 100, 101, 102, 103, 104, 105, 106, 107, 108]
  size_eq := rfl
  nodup := by decide +kernel
  lower := by decide +kernel

/-! ## Words and solutions -/

/-- The side of a letter. -/
def Box.side (box : Box) (c : UInt8) : Nat := box.characters.idxOf c / CHARS_PER_SIDE

/-- Only letters of the box, and no two in a row from the same side. -/
structure Box.LegalWord (box : Box) (w : List UInt8) : Prop where
  ne_nil : w ≠ []
  letters : ∀ c ∈ w, c ∈ box.characters
  sides : w.IsChain fun c d => box.side c ≠ box.side d

instance (box : Box) (w : List UInt8) : Decidable (box.LegalWord w) :=
  decidable_of_iff (w ≠ [] ∧ (∀ c ∈ w, c ∈ box.characters) ∧
      w.IsChain fun c d => box.side c ≠ box.side d)
    ⟨fun ⟨hne, hletters, hsides⟩ => ⟨hne, hletters, hsides⟩,
      fun h => ⟨h.ne_nil, h.letters, h.sides⟩⟩

/-- Each word begins with the last letter of the one before. -/
def Linked (chain : List (List UInt8)) : Prop :=
  chain.IsChain fun w w' => w'.head? = w.getLast?

instance (chain : List (List UInt8)) : Decidable (Linked chain) :=
  inferInstanceAs (Decidable (List.IsChain _ _))

/-- The words use every letter of the box. -/
def Box.CoveredBy (box : Box) (chain : List (List UInt8)) : Prop :=
  ∀ c ∈ box.characters, ∃ w ∈ chain, c ∈ w

instance (box : Box) (chain : List (List UInt8)) : Decidable (box.CoveredBy chain) :=
  inferInstanceAs (Decidable (∀ c ∈ box.characters, ∃ w ∈ chain, c ∈ w))

/-- The fields of a word list. -/
def fields (csv : List UInt8) : List (List UInt8) := csv.splitOn 44

/-- A legal solution with words from `csv`, at most `maxSize` of them. -/
structure Box.LegalSolution (box : Box) (csv : List UInt8) (maxSize : Nat)
    (chain : List (List UInt8)) : Prop where
  length_pos : 1 ≤ chain.length
  length_le : chain.length ≤ maxSize
  fields : ∀ w ∈ chain, w ∈ fields csv
  legal : ∀ w ∈ chain, box.LegalWord w
  linked : Linked chain
  covered : box.CoveredBy chain

/-! ## Letters as bits -/

namespace Box

variable (box : Box)

/-- The letter at a place. -/
def letter (i : Fin BOX_CHARS) : UInt8 :=
  box.characters.get ⟨i, by rw [box.size_eq]; exact i.isLt⟩

/-- The place of a letter. -/
def place (c : UInt8) : Option (Fin BOX_CHARS) :=
  (List.finRange BOX_CHARS).find? fun i => box.letter i == c

/-- The set of the letters of a word. -/
def letter_mask (w : List UInt8) : char_mask_t :=
  w.foldl (fun mask c => mask ||| (box.place c).elim 0#32 fun i => 1#32 <<< i.val) 0#32

variable {box} {i j : Fin BOX_CHARS} {c : UInt8} {w : List UInt8}

theorem letter_mem (i : Fin BOX_CHARS) : box.letter i ∈ box.characters := List.get_mem _ _

theorem letter_inj : box.letter i = box.letter j ↔ i = j := by
  constructor
  · intro h
    have hget := (List.Nodup.get_inj_iff box.nodup).mp h
    exact Fin.ext (by simpa using hget)
  · rintro rfl
    rfl

theorem exists_letter (h : c ∈ box.characters) : ∃ i, box.letter i = c := by
  obtain ⟨k, hk⟩ := List.get_of_mem h
  exact ⟨⟨k, by rw [← box.size_eq]; exact k.isLt⟩, hk⟩

theorem mem_iff : c ∈ box.characters ↔ ∃ i, box.letter i = c := by
  constructor
  · exact exists_letter
  · rintro ⟨i, rfl⟩
    exact letter_mem i

/-- The place of the first letter of a word over the box. -/
theorem exists_front (hne : w ≠ []) (hw : ∀ c ∈ w, c ∈ box.characters) :
    ∃ s, w.head? = some (box.letter s) := by
  have hfront := List.head?_eq_some_head hne
  obtain ⟨s, hs⟩ := exists_letter (hw _ (List.mem_of_mem_head? hfront))
  exact ⟨s, by rw [hfront, hs]⟩

/-- The place of the last letter. -/
theorem exists_back (hne : w ≠ []) (hw : ∀ c ∈ w, c ∈ box.characters) :
    ∃ d, w.getLast? = some (box.letter d) := by
  have hback := List.getLast?_eq_some_getLast hne
  obtain ⟨d, hd⟩ := exists_letter (hw _ (List.mem_of_mem_getLast? hback))
  exact ⟨d, by rw [hback, hd]⟩

theorem letter_lower (i : Fin BOX_CHARS) : IsLower (box.letter i) := box.lower _ (letter_mem i)

theorem place_eq_some : box.place c = some i ↔ box.letter i = c := by
  constructor
  · intro h
    simpa using List.find?_some h
  · rintro rfl
    cases hplace : box.place (box.letter i) with
    | none =>
        -- its own place is a place of the letter
        have hnone := List.find?_eq_none.mp hplace i (List.mem_finRange i)
        simp at hnone
    | some j =>
        have hj : box.letter j = box.letter i := by simpa using List.find?_some hplace
        rw [letter_inj.mp hj]

@[simp] theorem place_letter (i : Fin BOX_CHARS) : box.place (box.letter i) = some i :=
  place_eq_some.mpr rfl

theorem place_eq_none : box.place c = none ↔ c ∉ box.characters := by
  rw [mem_iff, Option.eq_none_iff_forall_ne_some]
  simp only [ne_eq, place_eq_some, not_exists]

theorem idxOf_letter (i : Fin BOX_CHARS) : box.characters.idxOf (box.letter i) = i.val := by
  unfold letter
  rw [List.get_eq_getElem, box.nodup.idxOf_getElem]

/-- The side of a letter is that of its place. -/
theorem side_letter (i : Fin BOX_CHARS) : box.side (box.letter i) = i.val / CHARS_PER_SIDE := by
  rw [side, idxOf_letter]

/-- **A word's mask is the set of its letters.** -/
theorem getLsbD_letter_mask (i : Fin BOX_CHARS) (w : List UInt8) :
    (box.letter_mask w).getLsbD i = true ↔ box.letter i ∈ w := by
  have hbit : ∀ c, ((box.place c).elim 0#32 fun i => 1#32 <<< i.val).getLsbD i = true ↔
      box.letter i = c := by
    intro c
    have hi : i.val < 32 := Nat.lt_trans i.isLt (by decide)
    cases hplace : box.place c with
    | none =>
        -- a foreign letter sets no bit
        rw [place_eq_none] at hplace
        simp only [Option.elim_none, BitVec.getLsbD_zero, Bool.false_eq_true, false_iff]
        rintro rfl
        exact hplace (letter_mem i)
    | some j =>
        have hj : j.val < 32 := Nat.lt_trans j.isLt (by decide)
        rw [Option.elim_some, Bits.getLsbD_one_shiftLeft hj, decide_eq_true_eq,
          ← place_eq_some.mp hplace, letter_inj, Fin.ext_iff]
  unfold letter_mask
  rw [Bits.getLsbD_foldl_or, BitVec.getLsbD_zero, Bool.false_or, List.any_eq_true]
  constructor
  · rintro ⟨c, hc, hset⟩
    rwa [(hbit c).mp hset]
  · intro h
    exact ⟨_, h, (hbit _).mpr rfl⟩

theorem letter_mask_lt (w : List UInt8) : (box.letter_mask w).toNat < 2 ^ BOX_CHARS := by
  rw [Bits.lt_two_pow_iff]
  intro j hj
  have hchars : BOX_CHARS = 12 := rfl
  unfold letter_mask
  rw [Bits.getLsbD_foldl_or, BitVec.getLsbD_zero, Bool.false_or, List.any_eq_false]
  intro c _
  rw [Bool.not_eq_true]
  cases box.place c with
  | none => rw [Option.elim_none, BitVec.getLsbD_zero]
  | some i =>
      have hi := i.isLt
      rw [Option.elim_some, Bits.getLsbD_one_shiftLeft (by omega), decide_eq_false_iff_not]
      omega

theorem letter_mask_eq_iff {w v : List UInt8} :
    box.letter_mask w = box.letter_mask v ↔ ∀ i, box.letter i ∈ w ↔ box.letter i ∈ v := by
  constructor
  · intro h i
    rw [← getLsbD_letter_mask, h, getLsbD_letter_mask]
  · intro h
    apply mask_ext (letter_mask_lt w) (letter_mask_lt v)
    intro i
    rw [getLsbD_letter_mask, getLsbD_letter_mask]
    exact h i

/-- Letters of the box are one mask where they are one set. -/
theorem letter_mask_eq_iff_toFinset {w v : List UInt8} (hw : ∀ c ∈ w, c ∈ box.characters)
    (hv : ∀ c ∈ v, c ∈ box.characters) :
    box.letter_mask w = box.letter_mask v ↔ w.toFinset = v.toFinset := by
  rw [letter_mask_eq_iff, Finset.ext_iff]
  simp only [List.mem_toFinset]
  constructor
  · intro h c
    constructor
    · intro hc
      obtain ⟨i, rfl⟩ := exists_letter (hw c hc)
      exact (h i).mp hc
    · intro hc
      obtain ⟨i, rfl⟩ := exists_letter (hv c hc)
      exact (h i).mpr hc
  · exact fun h i => h (box.letter i)

end Box

end LetterBoxed
