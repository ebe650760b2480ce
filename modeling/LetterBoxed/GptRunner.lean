/-
`gpt_runner.hpp`: `LetterBoxedSolver`, the solver that the benchmark compares.

It reads its word list itself, keeps letters as bits of the alphabet rather
than of the box, and searches by recursion: a chain is a solution as soon as
its mask is full, and chains are made longer only when no shorter one is.

The tables have an entry for each letter of the alphabet and are indexed with
`c - 'a'` behind a test that `c` is a letter. Here that test returns the index,
and the letters that the source stores are stored as their indices.
-/
import LetterBoxed.Util

set_option autoImplicit false

namespace LetterBoxed

/-- `A` to `Z` as `a` to `z`. -/
def to_lower (c : UInt8) : UInt8 := if 65 ≤ c ∧ c ≤ 90 then c - 65 + 97 else c

/-- `c - 'a'` if `c` is one of `a` to `z`. -/
def alphabet_index (c : UInt8) : Option (Fin CHARACTERS) :=
  if h : IsLower c then some ⟨idx c, idx_lt_iff.mpr h⟩ else none

/-- An accepted word, with its letters as bits of the alphabet. -/
structure WordInfo where
  word : List UInt8
  mask : BitVec 32
  start : Fin CHARACTERS
  «end» : Fin CHARACTERS
deriving DecidableEq

structure LetterBoxedSolver where
  valid_words_by_start : Vector (List WordInfo) CHARACTERS
  char_to_side : Vector Int8 CHARACTERS
  box_letters : List (Fin CHARACTERS)
  target_mask : BitVec 32

namespace LetterBoxedSolver

/-- The state that `run` begins with. -/
def reset : LetterBoxedSolver where
  valid_words_by_start := Vector.replicate CHARACTERS []
  char_to_side := Vector.replicate CHARACTERS (-1)
  box_letters := []
  target_mask := 0#32

/-! ## The word list -/

/-- The loop of `validate_and_process_word` over the letters. -/
def validate_letters (self : LetterBoxedSolver) :
    List UInt8 → BitVec 32 → Int8 → Option (BitVec 32)
  | [], mask, _ => some mask
  | c :: rest, mask, last_side =>
    match alphabet_index (to_lower c) with
    | none => none
    | some i =>
      let side := self.char_to_side.get i
      -- a letter outside the box, or two in a row from one side
      if side = -1 then none
      else if side = last_side then none
      else self.validate_letters rest (mask ||| 1#32 <<< i.val) side

/-- The mask of a word, if it may be used. -/
def validate_and_process_word (self : LetterBoxedSolver) (word : List UInt8) :
    Option (BitVec 32) :=
  if word.length < 3 then none else self.validate_letters word 0#32 (-1)

/-- `valid_words_by_start[s - 'a'].push_back(info)` -/
def push_word (self : LetterBoxedSolver) (s : Fin CHARACTERS) (info : WordInfo) :
    LetterBoxedSolver :=
  { self with
    valid_words_by_start :=
      self.valid_words_by_start.set s.val (self.valid_words_by_start.get s ++ [info]) s.isLt }

/-- What the loop of `load_and_filter_dictionary` does with a word. The letters
of a word that has a mask all have an index. -/
def add_word (self : LetterBoxedSolver) (word : List UInt8) : LetterBoxedSolver :=
  match self.validate_and_process_word word,
    word.head?.bind fun c => alphabet_index (to_lower c),
    word.getLast?.bind fun c => alphabet_index (to_lower c) with
  | some mask, some s, some e =>
    self.push_word s { word := word, mask := mask, start := s, «end» := e }
  | _, _, _ => self

/-- `\r`, `\n`, a comma, a blank or `\t` -/
def is_delimiter (c : UInt8) : Bool := c == 13 || c == 10 || c == 44 || c == 32 || c == 9

/-- The loop of `load_and_filter_dictionary`; `data` is what is left to read. -/
def load_words (self : LetterBoxedSolver) (data : List UInt8) : LetterBoxedSolver :=
  match h : data.dropWhile is_delimiter with
  | [] => self
  | c :: rest =>
    have : rest.length < data.length := by
      have hle := (List.dropWhile_suffix is_delimiter (l := data)).length_le
      rw [h, List.length_cons] at hle
      exact hle
    have : (rest.dropWhile fun c => !is_delimiter c).length ≤ rest.length :=
      (List.dropWhile_suffix _).length_le
    (self.add_word (c :: rest.takeWhile fun c => !is_delimiter c)).load_words
      (rest.dropWhile fun c => !is_delimiter c)
termination_by data.length

/-- `load_and_filter_dictionary`; no data if the file cannot be read. -/
def load_and_filter_dictionary (self : LetterBoxedSolver) :
    Option (List UInt8) → LetterBoxedSolver
  | none => self
  | some data => self.load_words data

/-! ## The search -/

/-- `dfs` with `left` for `max_depth - depth`: the words of the solution, if
one is found. -/
def dfs (self : LetterBoxedSolver) (curr_char : Fin CHARACTERS) (current_mask : BitVec 32) :
    Nat → List WordInfo → Option (List (List UInt8))
  | 0, path => if current_mask = self.target_mask then some (path.map WordInfo.word) else none
  | left + 1, path =>
    if current_mask = self.target_mask then some (path.map WordInfo.word)
    else (self.valid_words_by_start.get curr_char).findSome? fun w =>
      self.dfs w.end (current_mask ||| w.mask) left (path ++ [w])

/-! ## run -/

/-- `c` is the next letter of side `side_count`. -/
def enter_letter (self : LetterBoxedSolver) (side_count : Nat) (c : Fin CHARACTERS) :
    LetterBoxedSolver :=
  { self with
    box_letters := self.box_letters ++ [c]
    char_to_side := self.char_to_side.set c.val (Int8.ofNat side_count) c.isLt
    target_mask := self.target_mask ||| 1#32 <<< c.val }

/-- The loop over the characters of the box. -/
def parse_box : LetterBoxedSolver → Nat → Nat → List UInt8 → LetterBoxedSolver
  | self, _, _, [] => self
  | self, side_count, char_in_side_count, c :: rest =>
    match alphabet_index (to_lower c) with
    | none => parse_box self side_count char_in_side_count rest
    | some i =>
      let self := self.enter_letter side_count i
      if char_in_side_count + 1 = 3 then parse_box self (side_count + 1) 0 rest
      else parse_box self side_count (char_in_side_count + 1) rest

/-- `run` when the box and the word list have been read. -/
def search (self : LetterBoxedSolver) : Option (List (List UInt8)) :=
  (List.range' 1 3).findSome? fun max_depth =>
    self.box_letters.findSome? fun start_char =>
      (self.valid_words_by_start.get start_char).findSome? fun w =>
        self.dfs w.end w.mask (max_depth - 1) [w]

def run (box_chars : List UInt8) (dictionary : Option (List UInt8)) : List (List UInt8) :=
  (((parse_box reset 0 0 box_chars).load_and_filter_dictionary dictionary).search).getD []

end LetterBoxedSolver

end LetterBoxed
