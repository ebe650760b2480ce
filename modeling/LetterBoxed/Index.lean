/-
`index.hpp`: from a word list to the words of the box and their masks.

`split` exists in two builds, chosen by whether `std::simd` is available:
`simd_split` compares blocks of 64 bytes at once and enumerates the set bits of
the comparison masks, `scalar_split` compacts blocks of 256 bytes through a
buffer. `word_ends` is the separators with the end of the data, and
`filter_and_hash` walks the fields between them.

`for` loops over an index are folds over the range of the index, and
`reserve` calls leave no trace except for the division in their argument.
-/
import LetterBoxed.Util

set_option autoImplicit false

namespace LetterBoxed

/-! ## split -/

/-- The two builds of `dev::split`. -/
inductive SplitBuild
  | simd
  | scalar
  deriving DecidableEq, Repr

/-- `(simdBlock == block_t{separator}).to_ullong()`: bit `k` is lane `k`. -/
def lane_mask (block : List UInt8) (separator : UInt8) : BitVec 64 :=
  BitVec.ofFnLE fun k : Fin 64 => block[k.val]? == some separator

/-- The set bits of `mask` in ascending order, each moved by `offset`. -/
def extract_separator_idxs (offset : Nat) (mask : BitVec 64) : List Nat :=
  if _ : mask = 0#64 then []
  else (offset + mask.ctz.toNat) :: extract_separator_idxs offset (mask &&& (mask - 1#64))
termination_by mask.toNat
decreasing_by
  have hpos : mask.toNat ≠ 0 := fun h0 =>
    ‹¬mask = 0#64› (BitVec.eq_of_toNat_eq (by simpa using h0))
  have hle : (mask &&& (mask - 1#64)).toNat ≤ (mask - 1#64).toNat := by
    rw [BitVec.toNat_and]
    exact Nat.and_le_right
  have hsub : (mask - 1#64).toNat = mask.toNat - 1 := by
    have := mask.isLt
    rw [BitVec.toNat_sub, BitVec.toNat_ofNat]
    omega
  omega

def SIMD_BLOCK_SIZE : Nat := 64

/-- `dev::split` with `std::simd`. The last, partial block is padded with zero
bytes and scanned like the others. -/
def simd_split (data : List UInt8) (separator : UInt8) : List Nat :=
  let blocks := data.length / SIMD_BLOCK_SIZE
  let uncheckedEnd := SIMD_BLOCK_SIZE * blocks
  let separatorIdxs := (List.range blocks).flatMap fun block =>
    let i := SIMD_BLOCK_SIZE * block
    extract_separator_idxs i
      (lane_mask ((data.drop i).take SIMD_BLOCK_SIZE) separator)
  let rest := data.drop uncheckedEnd
  let lastChars := rest ++ List.replicate (SIMD_BLOCK_SIZE - rest.length) 0
  separatorIdxs ++ extract_separator_idxs uncheckedEnd (lane_mask lastChars separator)

def BLOCK_SIZE : Nat := 256

/-- One turn of the compaction: the index is stored at the first free place,
which is only taken if the byte there is a separator. -/
def compact_char (data : List UInt8) (separator : UInt8) (block : List Nat × Nat) (j : Nat) :
    Except Fault (List Nat × Nat) := do
  let (blockSeparatorIdxs, separatorC) := block
  let blockSeparatorIdxs ← write .separatorIdxs blockSeparatorIdxs separatorC j
  let c ← read .csv data j
  return (blockSeparatorIdxs, if c == separator then separatorC + 1 else separatorC)

/-- One block: the indices of its separators, behind those found before. -/
def compact_block (data : List UInt8) (separator : UInt8) (out : List Nat × List Nat)
    (block : Nat) : Except Fault (List Nat × List Nat) := do
  let (blockSeparatorIdxs, separatorIdxs) := out
  let i := BLOCK_SIZE * block
  let blockEnd := min (i + BLOCK_SIZE) data.length
  let (blockSeparatorIdxs, separatorC) ←
    (List.range' i (blockEnd - i)).foldlM (compact_char data separator) (blockSeparatorIdxs, 0)
  let found ← first .separatorIdxs blockSeparatorIdxs separatorC
  return (blockSeparatorIdxs, separatorIdxs ++ found)

/-- `dev::split` without `std::simd`. The block buffer is reused. -/
def scalar_split (data : List UInt8) (separator : UInt8) : Except Fault (List Nat) := do
  let blocks := (data.length + BLOCK_SIZE - 1) / BLOCK_SIZE
  let (_, separatorIdxs) ←
    (List.range blocks).foldlM (compact_block data separator) (List.replicate BLOCK_SIZE 0, [])
  return separatorIdxs

/-- `dev::split`; `reserve(data.size() / separatorDistGuess)` comes first. -/
def split (build : SplitBuild) (data : List UInt8) (separator : UInt8)
    (separatorDistGuess : Nat) : Except Fault (List Nat) :=
  if separatorDistGuess = 0 then .error .divisionByZero
  else match build with
    | .simd => .ok (simd_split data separator)
    | .scalar => scalar_split data separator

/-- The end index of every word, the last one is `data.size()`. -/
def word_ends (build : SplitBuild) (data : List UInt8) (separator : UInt8)
    (separatorDistGuess : Nat) : Except Fault (List Nat) := do
  let wordEnds ← split build data separator separatorDistGuess
  if wordEnds.getLast? = some data.length then return wordEnds
  else return wordEnds ++ [data.length]

/-! ## The compression index and the filter masks -/

/-- Compresses the alphabet into bit indices of the allowed characters. Other
letters keep `INVALID_CHAR_FLAG`. -/
def gen_compression_index (characters : List UInt8) : Except Fault compression_index_t :=
  if characters.length ≠ BOX_CHARS then .error .critical
  else characters.zipIdx.foldlM
    (fun compressionIndex (c, i) =>
      write .compressionIndex compressionIndex (idx c) (BitVec.ofNat 32 i))
    (List.replicate CHARACTERS INVALID_CHAR_FLAG)

/-- The first side: the lowest `CHARS_PER_SIDE` bits. -/
def DEFAULT_SIDE_MASK : char_mask_t := (1#32 <<< CHARS_PER_SIDE) - 1#32

def SIDE_MASKS : List char_mask_t :=
  (List.range SIDES).map fun i => DEFAULT_SIDE_MASK <<< (CHARS_PER_SIDE * i)

/-- The filter mask of one table entry: the mask of its side, or the invalid
flag, which overlaps with every mask. -/
def char_filter_mask (compressedIdx : char_mask_t) : Except Fault char_mask_t :=
  if compressedIdx = INVALID_CHAR_FLAG then .ok INVALID_CHAR_FLAG
  else read .sideMasks SIDE_MASKS (compressedIdx.toNat / CHARS_PER_SIDE)

/-- Masks that set whole sides, to filter same-side character sequences. -/
def gen_char_filter_masks (compressionIndex : compression_index_t) :
    Except Fault (List char_mask_t) :=
  compressionIndex.mapM char_filter_mask

/-! ## filter_and_hash -/

structure words_data where
  words : List (List UInt8)
  wordHashes : List char_mask_t
  deriving DecidableEq, Repr

section Filter

variable (oversized : Nat → Except Fault char_mask_t)
  (compressionIndex : compression_index_t) (charFilterMasks : List char_mask_t)

/-- The inner loop over the characters after the first: the hash is updated
before the masks are compared, and `none` is the `break`. -/
def hash_word (prev : UInt8) : List UInt8 → char_mask_t → Except Fault (Option char_mask_t)
  | [], wordHash => .ok (some wordHash)
  | c :: rest, wordHash => do
    let charMask ← read .charFilterMasks charFilterMasks (idx c)
    let prevCharMask ← read .charFilterMasks charFilterMasks (idx prev)
    let wordHash := wordHash ||| (← bit_flag oversized c compressionIndex)
    if charMask &&& prevCharMask ≠ 0 then return none
    hash_word c rest wordHash

/-- One non-empty field: `none` if it is rejected, else its hash. -/
def filter_word (word : List UInt8) : Except Fault (Option char_mask_t) :=
  match word with
  | [] => .ok none
  | c :: rest => do
    let wordHash ← bit_flag oversized c compressionIndex
    hash_word oversized compressionIndex charFilterMasks c rest wordHash

/-- `csv.substr(begin, size)`: throws if `begin` is past the end, and is cut off
where the string ends. -/
def substr (csv : List UInt8) (start size : Nat) : Except Fault (List UInt8) :=
  if start ≤ csv.length then .ok ((csv.drop start).take size)
  else .error (.outOfRange .csv start)

/-- The loop over a word that is cut off: it runs to `size`, so it reads behind
the word, unless it has left before. -/
def read_past (word : List UInt8) (size : Nat) (answer : Option char_mask_t) :
    Except Fault (Option char_mask_t) :=
  if word.length < size ∧ (word = [] ∨ answer.isSome) then .error (.outOfRange .word word.length)
  else .ok answer

theorem read_past_length (word : List UInt8) (answer : Option char_mask_t) :
    read_past word word.length answer = .ok answer :=
  if_neg fun h => Nat.lt_irrefl _ h.1

/-- The loop over the word ends, `start` being `begin`. -/
def filter_words (csv : List UInt8) : Nat → List Nat → words_data → Except Fault words_data
  | _, [], out => .ok out
  | start, wordEnd :: wordEnds, out => do
    let size := size_sub wordEnd start
    let out ← if size = 0 then pure out else do
      let word ← substr csv start size
      let answer ← filter_word oversized compressionIndex charFilterMasks word
      match ← read_past word size answer with
      | some wordHash =>
        pure { words := out.words ++ [word], wordHashes := out.wordHashes ++ [wordHash] }
      | none => pure out
    filter_words csv (wordEnd + 1) wordEnds out

/-- Filters the words and builds hashes. -/
def filter_and_hash (csv : List UInt8) (wordEnds : List Nat) : Except Fault words_data := do
  let charFilterMasks ← gen_char_filter_masks compressionIndex
  filter_words oversized compressionIndex charFilterMasks csv 0 wordEnds ⟨[], []⟩

end Filter

end LetterBoxed
