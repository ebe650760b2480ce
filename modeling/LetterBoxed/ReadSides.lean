/-
`read_sides` of the runner: the sides of the box from standard input.

The input is a list of bytes that is read token by token. Behind its last token
a read fails and leaves the string empty, which is a side of the wrong size
like any other, so an attempt that meets the end of the input fails and is
repeated, and fails again.

A token of the wrong size ends an attempt, and the next one begins behind it.
No run of four good tokens contains a bad one, so the attempts pass over none,
and the first such run is what is returned.
-/
import LetterBoxed.GraphBuild
import LetterBoxed.Lib.WhileLoop

set_option autoImplicit false

open WhileLoop

namespace LetterBoxed

/-- `std::isspace` -/
def is_space (c : UInt8) : Bool := decide (c = 32 ∨ (9 ≤ c ∧ c ≤ 13))

/-- `std::cin >> side` with an empty string: the token, and the input behind
it. At the end of the input the string stays empty. -/
def read_token (input : List UInt8) : List UInt8 × List UInt8 :=
  let rest := input.dropWhile is_space
  (rest.takeWhile (!is_space ·), rest.dropWhile (!is_space ·))

/-- The `for` loop with `n` sides still to read: the sides, none if one had the
wrong size, and the input behind the last token read. -/
def read_attempt : (n : Nat) → (sides : List (List UInt8)) → (input : List UInt8) →
    List (List UInt8) × List UInt8
  | 0, sides, input => (sides, input)
  | n + 1, sides, input =>
    let (side, rest) := read_token input
    -- the `break` leaves the loop with the sides cleared
    if side.length ≠ CHARS_PER_SIDE then ([], rest)
    else read_attempt n (sides ++ [side]) rest

/-- One turn of `while(true)`. -/
def read_sides_body (state : List (List UInt8) × List UInt8) :
    Except Fault (List (List UInt8) × List UInt8 ⊕ List UInt8 × List UInt8) :=
  let (sides, input) := read_attempt SIDES state.1 state.2
  if sides.length = SIDES then .ok (.inr (sides.flatten, input))
  else .ok (.inl ([], input))

/-- The characters of the box, and the input behind them. -/
def read_sides (input : List UInt8) : Run (List UInt8 × List UInt8) :=
  loop ([], input) read_sides_body

/-! ## Tokens -/

/-- The tokens of an input. -/
def tokens (input : List UInt8) : List (List UInt8) :=
  (input.splitOnP is_space).filter (· ≠ [])

theorem tokens_nil : tokens [] = [] := by
  simp [tokens]

/-- White space in front is skipped. -/
theorem tokens_space {c : UInt8} (hc : is_space c = true) (input : List UInt8) :
    tokens (c :: input) = tokens input := by
  unfold tokens
  rw [List.splitOnP_cons_eq_if_modifyHead, if_pos hc]
  simp

theorem tokens_dropWhile (input : List UInt8) :
    tokens (input.dropWhile is_space) = tokens input := by
  induction input with
  | nil => rfl
  | cons c input ih =>
      by_cases hc : is_space c = true
      · rw [List.dropWhile_cons_of_pos hc, ih, tokens_space hc]
      · rw [List.dropWhile_cons_of_neg hc]

/-- A token, and white space or the end of the input behind it. -/
theorem tokens_word {word rest : List UInt8} (hne : word ≠ [])
    (hword : ∀ c ∈ word, is_space c = false) (hrest : ∀ c ∈ rest.head?, is_space c = true) :
    tokens (word ++ rest) = word :: tokens rest := by
  cases rest with
  | nil =>
      rw [List.append_nil, tokens_nil]
      unfold tokens
      rw [List.splitOnP_eq_singleton hword]
      simp [hne]
  | cons c rest =>
      have hc : is_space c = true := hrest c rfl
      rw [tokens_space hc]
      unfold tokens
      rw [List.splitOnP_append_cons_of_forall_mem hword c hc]
      simp [hne]

/-- Dropping stops at an element that is kept. -/
theorem head_dropWhile {p : UInt8 → Bool} {input : List UInt8} {c : UInt8}
    (h : c ∈ (input.dropWhile p).head?) : p c = false := by
  have hstop := List.head?_dropWhile_not p input
  rw [Option.mem_def.mp h] at hstop
  exact hstop

/-- **A read takes the first token**, or nothing where there is none. -/
theorem read_token_eq (input : List UInt8) :
    (read_token input).1 = (tokens input).head?.getD [] ∧
      tokens (read_token input).2 = (tokens input).tail := by
  unfold read_token
  dsimp only
  rw [← tokens_dropWhile input]
  cases hskip : input.dropWhile is_space with
  | nil =>
      -- the end of the input
      simp [tokens_nil]
  | cons c skipped =>
      have hc : is_space c = false := by
        have hhead : c ∈ (input.dropWhile is_space).head? := by
          rw [hskip]
          rfl
        exact head_dropWhile hhead
      have hword : ∀ d ∈ (c :: skipped).takeWhile (!is_space ·), is_space d = false := by
        intro d hd
        simpa using List.mem_takeWhile_imp hd
      have hrest : ∀ d ∈ ((c :: skipped).dropWhile (!is_space ·)).head?, is_space d = true := by
        intro d hd
        simpa using head_dropWhile hd
      have hne : (c :: skipped).takeWhile (!is_space ·) ≠ [] := by
        simp [hc]
      have htokens := tokens_word hne hword hrest
      rw [List.takeWhile_append_dropWhile] at htokens
      rw [htokens]
      exact ⟨rfl, rfl⟩

/-- The input behind a token is the end of the input. -/
theorem read_token_suffix (input : List UInt8) : (read_token input).2 <:+ input :=
  (List.dropWhile_suffix _).trans (List.dropWhile_suffix _)

/-! ## One attempt -/

/-- `n` tokens in front, each of the size of a side. -/
def StartsWithSides (n : Nat) (ts : List (List UInt8)) : Prop :=
  n ≤ ts.length ∧ ∀ t ∈ ts.take n, t.length = CHARS_PER_SIDE

instance (n : Nat) (ts : List (List UInt8)) : Decidable (StartsWithSides n ts) :=
  inferInstanceAs (Decidable (_ ∧ _))

theorem startsWithSides_cons {n : Nat} {t : List UInt8} {ts : List (List UInt8)} :
    StartsWithSides (n + 1) (t :: ts) ↔ t.length = CHARS_PER_SIDE ∧ StartsWithSides n ts := by
  unfold StartsWithSides
  rw [List.take_succ_cons, List.forall_mem_cons, List.length_cons, Nat.add_le_add_iff_right]
  exact and_left_comm

section Step

variable {n : Nat} {sides ts : List (List UInt8)} {input t : List UInt8}

/-- A token of the right size is one more side. -/
theorem read_attempt_good (htokens : tokens input = t :: ts) (hsize : t.length = CHARS_PER_SIDE) :
    ∃ rest, read_attempt (n + 1) sides input = read_attempt n (sides ++ [t]) rest ∧
      rest <:+ input ∧ tokens rest = ts := by
  obtain ⟨hside, hrest⟩ := read_token_eq input
  rw [htokens] at hside hrest
  rw [List.head?_cons, Option.getD_some] at hside
  refine ⟨(read_token input).2, ?_, read_token_suffix input, hrest⟩
  rw [read_attempt]
  dsimp only
  rw [hside, if_neg (not_not.mpr hsize)]

/-- A token of another size, or none, ends the attempt. -/
theorem read_attempt_bad
    (hbad : ∀ t, (tokens input)[0]? = some t → t.length ≠ CHARS_PER_SIDE) :
    ∃ rest, read_attempt (n + 1) sides input = ([], rest) ∧
      rest <:+ input ∧ tokens rest = (tokens input).drop 1 := by
  obtain ⟨hside, hrest⟩ := read_token_eq input
  have hsize : (read_token input).1.length ≠ CHARS_PER_SIDE := by
    rw [hside]
    cases htokens : tokens input with
    | nil =>
        -- the string stays empty, which is no side
        decide
    | cons t ts =>
        rw [htokens] at hbad
        exact hbad t rfl
  refine ⟨(read_token input).2, ?_, read_token_suffix input, ?_⟩
  · rw [read_attempt]
    dsimp only
    rw [if_pos hsize]
  · rw [hrest, List.drop_one]

end Step

/-- **An attempt that succeeds** takes the tokens in front. -/
theorem read_attempt_ok (n : Nat) :
    ∀ (sides : List (List UInt8)) (input : List UInt8), StartsWithSides n (tokens input) →
      ∃ rest, read_attempt n sides input = (sides ++ (tokens input).take n, rest) ∧
        rest <:+ input ∧ tokens rest = (tokens input).drop n := by
  induction n with
  | zero =>
      intro sides input _
      exact ⟨input, by simp [read_attempt], List.suffix_refl input, rfl⟩
  | succ n ih =>
      intro sides input hstarts
      cases htokens : tokens input with
      | nil =>
          rw [htokens] at hstarts
          exact absurd hstarts.1 (by simp)
      | cons t ts =>
          rw [htokens] at hstarts
          obtain ⟨hsize, hstarts⟩ := startsWithSides_cons.mp hstarts
          obtain ⟨rest, hstep, hsuffix, hrest⟩ := read_attempt_good htokens hsize
          rw [← hrest] at hstarts
          obtain ⟨rest', hrun, hsuffix', htail⟩ := ih (sides ++ [t]) rest hstarts
          refine ⟨rest', ?_, hsuffix'.trans hsuffix, ?_⟩
          · rw [hstep, hrun, hrest, List.take_succ_cons, List.append_assoc, List.singleton_append]
          · rw [htail, hrest, List.drop_succ_cons]

/-- **An attempt that fails** has read a bad token, or the end of the input. -/
theorem read_attempt_fails (n : Nat) :
    ∀ (sides : List (List UInt8)) (input : List UInt8), ¬StartsWithSides n (tokens input) →
      ∃ k < n, ∃ rest, read_attempt n sides input = ([], rest) ∧ rest <:+ input ∧
        tokens rest = (tokens input).drop (k + 1) ∧
        ∀ t, (tokens input)[k]? = some t → t.length ≠ CHARS_PER_SIDE := by
  induction n with
  | zero =>
      intro sides input hfails
      refine absurd ⟨Nat.zero_le _, ?_⟩ hfails
      simp
  | succ n ih =>
      intro sides input hfails
      by_cases hbad : ∀ t, (tokens input)[0]? = some t → t.length ≠ CHARS_PER_SIDE
      · -- it is the first one
        obtain ⟨rest, hstep, hsuffix, hrest⟩ := read_attempt_bad hbad
        exact ⟨0, Nat.succ_pos n, rest, hstep, hsuffix, hrest, hbad⟩
      · -- it is behind a good one
        push Not at hbad
        obtain ⟨t, hget, hsize⟩ := hbad
        obtain ⟨ts, htokens⟩ : ∃ ts, tokens input = t :: ts := by
          rw [← List.head?_eq_getElem?] at hget
          exact List.head?_eq_some_iff.mp hget
        obtain ⟨rest, hstep, hsuffix, hrest⟩ := read_attempt_good htokens hsize
        rw [htokens] at hfails ⊢
        have hfails' : ¬StartsWithSides n (tokens rest) := by
          rw [hrest]
          exact fun h => hfails (startsWithSides_cons.mpr ⟨hsize, h⟩)
        obtain ⟨k, hk, rest', hrun, hsuffix', htail, hbad⟩ := ih (sides ++ [t]) rest hfails'
        rw [hrest] at htail hbad
        refine ⟨k + 1, by omega, rest', ?_, hsuffix'.trans hsuffix, ?_, ?_⟩
        · rw [hstep, hrun]
        · rw [htail, List.drop_succ_cons]
        · simpa using hbad

section Turns

variable {input : List UInt8}

theorem body_leaves (h : StartsWithSides SIDES (tokens input)) :
    ∃ rest, read_sides_body ([], input) =
        .ok (.inr (((tokens input).take SIDES).flatten, rest)) ∧
      rest <:+ input ∧ tokens rest = (tokens input).drop SIDES := by
  obtain ⟨rest, hrun, hsuffix, htail⟩ := read_attempt_ok SIDES [] input h
  refine ⟨rest, ?_, hsuffix, htail⟩
  unfold read_sides_body
  dsimp only
  rw [hrun, List.nil_append, if_pos (List.length_take_of_le h.1)]

/-- The next attempt begins with no sides, behind the token that was bad. -/
theorem body_turns (h : ¬StartsWithSides SIDES (tokens input)) :
    ∃ k < SIDES, ∃ rest, Turn read_sides_body ([], input) ([], rest) ∧ rest <:+ input ∧
      tokens rest = (tokens input).drop (k + 1) ∧
      ∀ t, (tokens input)[k]? = some t → t.length ≠ CHARS_PER_SIDE := by
  obtain ⟨k, hk, rest, hrun, hsuffix, htail, hbad⟩ := read_attempt_fails SIDES [] input h
  refine ⟨k, hk, rest, ?_, hsuffix, htail, hbad⟩
  unfold Turn read_sides_body
  dsimp only
  rw [hrun]
  exact if_neg (show ¬0 = SIDES by decide)

end Turns

/-! ## The first four sides -/

/-- Four consecutive tokens from place `i` on, each of the size of a side. -/
def SidesAt (ts : List (List UInt8)) (i : Nat) : Prop := StartsWithSides SIDES (ts.drop i)

instance (ts : List (List UInt8)) (i : Nat) : Decidable (SidesAt ts i) :=
  inferInstanceAs (Decidable (StartsWithSides _ _))

/-- They are the first. -/
structure FirstSides (ts : List (List UInt8)) (i : Nat) : Prop where
  sides : SidesAt ts i
  first : ∀ j < i, ¬SidesAt ts j

/-- Their characters. -/
def characters_at (ts : List (List UInt8)) (i : Nat) : List UInt8 :=
  ((ts.drop i).take SIDES).flatten

section FirstSides

variable {ts : List (List UInt8)} {i k : Nat}

theorem exists_firstSides (h : ∃ i, SidesAt ts i) : ∃ i, FirstSides ts i :=
  ⟨Nat.find h, Nat.find_spec h, fun _ hj => Nat.find_min h hj⟩

theorem sidesAt_drop (n : Nat) : SidesAt (ts.drop n) i ↔ SidesAt ts (n + i) := by
  unfold SidesAt
  rw [List.drop_drop]

/-- A bad token among the first four is in front of all sides. -/
theorem SidesAt.lt_of_bad (h : SidesAt ts i) (hk : k < SIDES)
    (hbad : ∀ t, ts[k]? = some t → t.length ≠ CHARS_PER_SIDE) : k < i := by
  obtain ⟨hlen, hsides⟩ := h
  rw [List.length_drop] at hlen
  by_contra hge
  -- otherwise it is one of the four
  have hget : ts[k]? = some ts[k] := List.getElem?_eq_getElem (by omega)
  apply hbad _ hget
  apply hsides
  rw [List.mem_iff_getElem?]
  refine ⟨k - i, ?_⟩
  rw [List.getElem?_take_of_lt (by omega), List.getElem?_drop, Nat.add_sub_cancel' (by omega), hget]

theorem FirstSides.drop (h : FirstSides ts i) (hk : k < i) :
    FirstSides (ts.drop (k + 1)) (i - (k + 1)) := by
  refine ⟨?_, fun j hj => ?_⟩
  · rw [sidesAt_drop, Nat.add_sub_cancel' (by omega)]
    exact h.sides
  · rw [sidesAt_drop]
    exact h.first _ (by omega)

end FirstSides

/-- **The first four sides are returned**, and nothing behind them is read. -/
theorem read_sides_first (i : Nat) :
    ∀ input, FirstSides (tokens input) i →
      ∃ rest, read_sides input = some (.ok (characters_at (tokens input) i, rest)) ∧
        rest <:+ input ∧ tokens rest = (tokens input).drop (i + SIDES) := by
  induction i using Nat.strong_induction_on with
  | _ i ih =>
      intro input hfirst
      by_cases hstarts : StartsWithSides SIDES (tokens input)
      · -- the sides are in front
        have hzero : i = 0 := by
          by_contra hpos
          exact hfirst.first 0 (by omega) hstarts
        subst hzero
        obtain ⟨rest, hleave, hsuffix, htail⟩ := body_leaves hstarts
        exact ⟨rest, loop_leave hleave, hsuffix, by rw [htail, Nat.zero_add]⟩
      · -- this attempt fails in front of the sides, and the next ones find them
        obtain ⟨k, hk, rest, hturn, hsuffix, htail, hbad⟩ := body_turns hstarts
        have hlt := hfirst.sides.lt_of_bad hk hbad
        have hrest := hfirst.drop hlt
        rw [← htail] at hrest
        obtain ⟨rest', hrun, hsuffix', htail'⟩ := ih _ (by omega) rest hrest
        refine ⟨rest', ?_, hsuffix'.trans hsuffix, ?_⟩
        · rw [read_sides, loop_turn hturn]
          rw [read_sides] at hrun
          rw [hrun, htail, characters_at, characters_at, List.drop_drop,
            Nat.add_sub_cancel' (by omega)]
        · rw [htail', htail, List.drop_drop]
          congr 1
          omega

/-- **Without four sides there is no end**: at the end of the input every
attempt fails. -/
theorem read_sides_eq_none {input : List UInt8} (h : ∀ i, ¬SidesAt (tokens input) i) :
    read_sides input = none := by
  unfold read_sides
  apply loop_eq_none (I := fun state => state.1 = [] ∧ ∀ i, ¬SidesAt (tokens state.2) i) ⟨rfl, h⟩
  rintro ⟨_, input⟩ ⟨rfl, hnone⟩
  obtain ⟨k, _, rest, hturn, _, htail, _⟩ := body_turns (hnone 0)
  refine ⟨([], rest), hturn, rfl, fun i => ?_⟩
  dsimp only
  rw [htail, sidesAt_drop]
  exact hnone _

/-- **When `read_sides` ends.** If four consecutive tokens have the size of a
side, the first four such tokens are returned and nothing behind them is read.
Otherwise, and only then, it never returns. -/
theorem read_sides_ends_iff (input : List UInt8) :
    (∀ i, FirstSides (tokens input) i →
      ∃ rest, read_sides input = some (.ok (characters_at (tokens input) i, rest)) ∧
        rest <:+ input ∧ tokens rest = (tokens input).drop (i + SIDES)) ∧
      (read_sides input ≠ none ↔ ∃ i, SidesAt (tokens input) i) := by
  refine ⟨fun i => read_sides_first i input, fun hends => ?_, fun hsides => ?_⟩
  · by_contra hnone
    push Not at hnone
    exact hends (read_sides_eq_none hnone)
  · obtain ⟨i, hfirst⟩ := exists_firstSides hsides
    obtain ⟨rest, hrun, _⟩ := read_sides_first i input hfirst
    rw [hrun]
    exact Option.some_ne_none _

/-- On an empty input the loop is never left. -/
theorem read_sides_no_input : read_sides [] = none := by
  apply read_sides_eq_none
  rintro i ⟨hlen, _⟩
  simp [tokens_nil, SIDES] at hlen

/-! ## The box that is accepted -/

/-- The characters make an index without a write out of range, and in it every
character has its place and every other letter the invalid flag. -/
def IndexesPlaces (characters : List UInt8) : Prop :=
  ∃ compressionIndex, gen_compression_index characters = .ok compressionIndex ∧
    compressionIndex.length = CHARACTERS ∧
    (∀ (i : Nat) (c : UInt8), characters[i]? = some c →
      compressionIndex[idx c]? = some (BitVec.ofNat 32 i)) ∧
    ∀ c, IsLower c → c ∉ characters → compressionIndex[idx c]? = some INVALID_CHAR_FLAG

/-- Only the letters of a box do. -/
theorem indexesPlaces_iff {characters : List UInt8} (hsize : characters.length = BOX_CHARS) :
    IndexesPlaces characters ↔ characters.Nodup ∧ ∀ c ∈ characters, IsLower c := by
  constructor
  · rintro ⟨compressionIndex, _, hlength, hplaces, _⟩
    refine ⟨List.pairwise_iff_getElem.mpr fun i j hi hj hij heq => ?_, fun c hc => ?_⟩
    · -- a repeated letter has one entry for two places
      have hchars : BOX_CHARS = 12 := rfl
      have hfirst := hplaces i _ (List.getElem?_eq_getElem hi)
      have hsecond := hplaces j _ (List.getElem?_eq_getElem hj)
      rw [← heq, hfirst, Option.some.injEq] at hsecond
      have hval := congrArg BitVec.toNat hsecond
      rw [BitVec.toNat_ofNat, BitVec.toNat_ofNat, Nat.mod_eq_of_lt (by omega),
        Nat.mod_eq_of_lt (by omega)] at hval
      omega
    · obtain ⟨i, hi⟩ := List.mem_iff_getElem?.mp hc
      have hread := (List.getElem?_eq_some_iff.mp (hplaces i c hi)).1
      rw [hlength] at hread
      exact idx_lt_iff.mp hread
  · rintro ⟨hnodup, hlower⟩
    let box : Box := ⟨characters, hsize, hnodup, hlower⟩
    obtain ⟨compressionIndex, hindexed, hindex⟩ := gen_compression_index_box box
    refine ⟨compressionIndex, hindexed, hindex.length_eq, fun i c hc => ?_, fun c hc hforeign => ?_⟩
    · obtain ⟨hi, hget⟩ := List.getElem?_eq_some_iff.mp hc
      have hletter : box.letter ⟨i, hsize ▸ hi⟩ = c := hget
      rw [hindex.entry c (hlower c (List.mem_of_getElem? hc)), Box.index_entry,
        Box.place_eq_some.mpr hletter]
      rfl
    · rw [hindex.entry c hc, Box.index_entry, Box.place_eq_none.mpr hforeign]
      rfl

/-- The sides have the size of a box. -/
theorem SidesAt.length_eq {ts : List (List UInt8)} {i : Nat} (h : SidesAt ts i) :
    (characters_at ts i).length = BOX_CHARS := by
  obtain ⟨hlen, hsides⟩ := h
  have hsum : (((ts.drop i).take SIDES).map List.length).sum =
      (((ts.drop i).take SIDES).map List.length).length • CHARS_PER_SIDE := by
    apply List.sum_eq_card_nsmul
    intro n hn
    obtain ⟨t, ht, rfl⟩ := List.mem_map.mp hn
    exact hsides t ht
  rw [characters_at, List.length_flatten, hsum, List.length_map, List.length_take_of_le hlen]
  rfl

/-- **When the accepted box is legal.** `read_sides` looks at the sizes of the
sides only. What it returns is a box, with an index in which each character has
its place, if and only if the characters of the first four sides are distinct
lower-case letters. -/
theorem accepted_box_legal_iff (input : List UInt8) :
    (∀ characters rest, read_sides input = some (.ok (characters, rest)) →
        IndexesPlaces characters) ↔
      ∀ i, FirstSides (tokens input) i → (characters_at (tokens input) i).Nodup ∧
        ∀ c ∈ characters_at (tokens input) i, IsLower c := by
  constructor
  · intro hlegal i hfirst
    obtain ⟨rest, hrun, _⟩ := read_sides_first i input hfirst
    exact (indexesPlaces_iff hfirst.sides.length_eq).mp (hlegal _ rest hrun)
  · intro hletters characters rest hrun
    -- what is returned are the first four sides
    have hsides : ∃ i, SidesAt (tokens input) i := by
      by_contra hnone
      push Not at hnone
      rw [read_sides_eq_none hnone] at hrun
      cases hrun
    obtain ⟨i, hfirst⟩ := exists_firstSides hsides
    obtain ⟨rest', hrun', _⟩ := read_sides_first i input hfirst
    rw [hrun, Option.some.injEq, Except.ok.injEq, Prod.mk.injEq] at hrun'
    rw [hrun'.1]
    exact (indexesPlaces_iff hfirst.sides.length_eq).mpr (hletters i hfirst)

/-- The sides `ABC DEF GHI JKL` are accepted, and written far behind the table. -/
theorem upper_case_out_of_range :
    read_sides [65, 66, 67, 32, 68, 69, 70, 32, 71, 72, 73, 32, 74, 75, 76] =
        some (.ok ([65, 66, 67, 68, 69, 70, 71, 72, 73, 74, 75, 76], [])) ∧
      gen_compression_index [65, 66, 67, 68, 69, 70, 71, 72, 73, 74, 75, 76] =
        .error (.outOfRange .compressionIndex (2 ^ 64 - 32)) := by
  constructor
  · apply loop_leave
    rfl
  · rfl

end LetterBoxed
