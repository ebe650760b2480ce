/-
Both builds of `split` return the positions of the separator.

A position list is `List.findIdxs`, and both builds work through the data in
blocks: what they return is the concatenation of the position lists of the
blocks, each started at the offset of its block. The `std::simd` build reads a
block's list off the set bits of a comparison mask; the other build compacts it
into a buffer whose first entries are always the positions found so far.

The `std::simd` build pads its last block with zero bytes, so its result is
that of the data only for a separator that is not zero.
-/
import LetterBoxed.Index
import LetterBoxed.Lib.Bits

set_option autoImplicit false

namespace LetterBoxed

/-! ## Set bits in ascending order -/

theorem mem_extract (offset : Nat) (mask : BitVec 64) (i : Nat) :
    i ∈ extract_separator_idxs offset mask ↔
      ∃ j, mask.getLsbD j = true ∧ i = offset + j := by
  induction mask using extract_separator_idxs.induct with
  | case1 =>
      rw [extract_separator_idxs]
      simp
  | case2 mask hmask ih =>
      -- the lowest set bit, or a bit of what is left without it
      have hlow := BitVec.getLsbD_true_ctz_of_ne_zero hmask
      rw [extract_separator_idxs, dif_neg hmask, List.mem_cons, ih]
      simp only [Bits.getLsbD_and_sub_one hmask, Bool.and_eq_true, decide_eq_true_eq]
      constructor
      · rintro (rfl | ⟨j, ⟨hj, _⟩, rfl⟩)
        · exact ⟨_, hlow, rfl⟩
        · exact ⟨j, hj, rfl⟩
      · rintro ⟨j, hj, rfl⟩
        by_cases heq : j = mask.ctz.toNat
        · exact .inl (by rw [heq])
        · exact .inr ⟨j, ⟨hj, heq⟩, rfl⟩

theorem pairwise_extract (offset : Nat) (mask : BitVec 64) :
    (extract_separator_idxs offset mask).Pairwise (· < ·) := by
  induction mask using extract_separator_idxs.induct with
  | case1 =>
      rw [extract_separator_idxs]
      simp
  | case2 mask hmask ih =>
      rw [extract_separator_idxs, dif_neg hmask, List.pairwise_cons]
      refine ⟨fun i hi => ?_, ih⟩
      obtain ⟨j, hj, rfl⟩ := (mem_extract _ _ _).mp hi
      rw [Bits.getLsbD_and_sub_one hmask, Bool.and_eq_true, decide_eq_true_eq] at hj
      -- the lowest bit is gone, and no bit is below it
      have hge : ¬j < mask.ctz.toNat := fun hlt => by
        rw [BitVec.getLsbD_false_of_lt_ctz hlt] at hj
        exact absurd hj.1 (by decide)
      omega

/-- **A block of the `std::simd` build.** -/
theorem extract_lane_mask (offset : Nat) {block : List UInt8} (separator : UInt8)
    (hblock : block.length ≤ SIMD_BLOCK_SIZE) :
    extract_separator_idxs offset (lane_mask block separator) =
      block.findIdxs (· == separator) offset := by
  have hsize : SIMD_BLOCK_SIZE = 64 := rfl
  -- both lists ascend, so it is enough that they have the same elements
  apply (pairwise_extract _ _).eq_of_mem_iff List.pairwise_findIdxs
  intro i
  rw [mem_extract, List.mem_findIdxs_iff_getElem_sub_pos]
  unfold lane_mask
  simp only [BitVec.getLsbD_ofFnLE]
  constructor
  · rintro ⟨j, hj, rfl⟩
    by_cases hlt : j < 64
    · rw [dif_pos hlt, beq_iff_eq, List.getElem?_eq_some_iff] at hj
      obtain ⟨hlen, hget⟩ := hj
      refine ⟨by omega, by omega, ?_⟩
      simp [hget]
    · -- the mask has 64 lanes
      rw [dif_neg hlt] at hj
      cases hj
  · rintro ⟨hle, hlen, hget⟩
    refine ⟨i - offset, ?_, by omega⟩
    rw [dif_pos (by omega), List.getElem?_eq_getElem hlen]
    simpa using hget

/-! ## Blocks -/

section Blocks

variable {p : UInt8 → Bool} (size : Nat) (data : List UInt8)

theorem take_add_block (n : Nat) :
    data.take (size * (n + 1)) = data.take (size * n) ++ (data.drop (size * n)).take size := by
  rw [Nat.mul_succ, List.take_add]

/-- The positions in the first blocks and those in the next one. -/
theorem findIdxs_block (n : Nat) :
    (data.take (size * (n + 1))).findIdxs p =
      (data.take (size * n)).findIdxs p ++ ((data.drop (size * n)).take size).findIdxs p (size * n) := by
  rw [take_add_block, List.findIdxs_append, List.length_take, Nat.zero_add]
  by_cases hle : size * n ≤ data.length
  · rw [Nat.min_eq_left hle]
  · rw [List.drop_eq_nil_of_le (by omega)]
    simp

theorem findIdxs_blocks (n : Nat) :
    ((List.range n).flatMap fun block =>
        ((data.drop (size * block)).take size).findIdxs p (size * block)) =
      (data.take (size * n)).findIdxs p := by
  induction n with
  | zero => simp
  | succ n ih =>
      rw [List.range_succ, List.flatMap_append, ih, findIdxs_block]
      simp

end Blocks

/-- The zero bytes behind the data in its last block: at least one. -/
def padding (data : List UInt8) : List UInt8 :=
  List.replicate (SIMD_BLOCK_SIZE - data.length % SIMD_BLOCK_SIZE) 0

/-- **The `std::simd` build** returns the positions in the padded data. -/
theorem simd_split_padded (data : List UInt8) (separator : UInt8) :
    simd_split data separator = (data ++ padding data).findIdxs (· == separator) := by
  have hsize : SIMD_BLOCK_SIZE = 64 := rfl
  have hrest : (data.drop (SIMD_BLOCK_SIZE * (data.length / SIMD_BLOCK_SIZE))).length =
      data.length % SIMD_BLOCK_SIZE := by
    rw [List.length_drop, Nat.mod_def]
  unfold simd_split
  dsimp only
  rw [hrest, ← padding, extract_lane_mask]
  · have hblocks : ((List.range (data.length / SIMD_BLOCK_SIZE)).flatMap fun block =>
        extract_separator_idxs (SIMD_BLOCK_SIZE * block)
          (lane_mask ((data.drop (SIMD_BLOCK_SIZE * block)).take SIMD_BLOCK_SIZE) separator)) =
        (data.take (SIMD_BLOCK_SIZE * (data.length / SIMD_BLOCK_SIZE))).findIdxs
          (· == separator) := by
      rw [← findIdxs_blocks]
      congr 1
      funext block
      exact extract_lane_mask _ _ (List.length_take_le _ _)
    rw [hblocks]
    -- the whole blocks and what is left of the data
    have hle : SIMD_BLOCK_SIZE * (data.length / SIMD_BLOCK_SIZE) ≤ data.length :=
      Nat.mul_div_le _ _
    have hdata : data ++ padding data = data.take (SIMD_BLOCK_SIZE * (data.length / SIMD_BLOCK_SIZE)) ++
        (data.drop (SIMD_BLOCK_SIZE * (data.length / SIMD_BLOCK_SIZE)) ++ padding data) := by
      rw [← List.append_assoc, List.take_append_drop]
    conv_rhs => rw [hdata, List.findIdxs_append, List.length_take, Nat.min_eq_left hle,
      Nat.zero_add]
  · -- the padded rest is one block
    have hlt := Nat.mod_lt data.length (show 0 < SIMD_BLOCK_SIZE by omega)
    rw [List.length_append, hrest, padding, List.length_replicate]
    omega

/-- The padding holds no other separator than zero. -/
theorem simd_split_eq (data : List UInt8) {separator : UInt8} (hseparator : separator ≠ 0) :
    simd_split data separator = data.findIdxs (· == separator) := by
  have hpadding : ∀ start, (padding data).findIdxs (· == separator) start = [] := by
    intro start
    rw [List.findIdxs_eq_nil_iff]
    intro x hx
    rw [List.eq_of_mem_replicate hx, beq_eq_false_iff_ne]
    exact hseparator.symm
  rw [simd_split_padded, List.findIdxs_append, hpadding, List.append_nil]

/-- For the separator zero, the place behind the data is returned as well. -/
theorem length_mem_simd_split (data : List UInt8) : data.length ∈ simd_split data 0 := by
  have hpos : 0 < SIMD_BLOCK_SIZE - data.length % SIMD_BLOCK_SIZE := by
    have hlt := Nat.mod_lt data.length (show 0 < SIMD_BLOCK_SIZE by decide)
    omega
  rw [simd_split_padded, List.mem_findIdxs_iff_getElem_sub_pos]
  refine ⟨Nat.zero_le _, ?_, ?_⟩
  · rw [List.length_append, padding, List.length_replicate]
    omega
  · simp [padding]

/-! ## Compaction -/

/-- The buffer before turn `j` of the inner loop: its first entries are the
positions found. -/
structure Compacted (data : List UInt8) (separator : UInt8) (i j : Nat)
    (block : List Nat × Nat) : Prop where
  length_eq : block.1.length = BLOCK_SIZE
  count_le : block.2 ≤ j
  found : block.1.take block.2 = ((data.drop i).take j).findIdxs (· == separator) i

section Compaction

variable {data : List UInt8} {separator : UInt8}

theorem Compacted.step {i j : Nat} {block : List Nat × Nat} (h : Compacted data separator i j block)
    (hj : j < BLOCK_SIZE) (hdata : i + j < data.length) :
    ∃ block', compact_char data separator block (i + j) = .ok block' ∧
      Compacted data separator i (j + 1) block' := by
  obtain ⟨buffer, count⟩ := block
  obtain ⟨hlen, hcount, hfound⟩ := h
  dsimp only at hlen hcount hfound
  have hget : (data.drop i)[j]? = some data[i + j] := by
    rw [List.getElem?_drop, List.getElem?_eq_getElem hdata]
  have hstep : ((data.drop i).take (j + 1)).findIdxs (· == separator) i =
      buffer.take count ++ if data[i + j] == separator then [i + j] else [] := by
    rw [List.take_add_one, hget, Option.toList_some, List.findIdxs_append, hfound,
      List.findIdxs_singleton, List.length_take, List.length_drop, Nat.min_eq_left (by omega)]
  refine ⟨(buffer.set count (i + j), if data[i + j] == separator then count + 1 else count),
    ?_, ?_, ?_, ?_⟩
  · unfold compact_char
    dsimp only
    rw [write_lt (by omega), read_lt hdata]
    rfl
  · rw [List.length_set, hlen]
  · dsimp only
    split_ifs <;> omega
  · rw [hstep]
    dsimp only
    -- the place behind the positions found is written in either case, and kept
    -- only for a separator
    by_cases hsep : data[i + j] == separator
    · rw [if_pos hsep, if_pos hsep, List.take_add_one, List.getElem?_set_self (by omega),
        Option.toList_some, List.take_set_of_le (Nat.le_refl _)]
    · rw [if_neg hsep, if_neg hsep, List.take_set_of_le (Nat.le_refl _), List.append_nil]

/-- **A block of the compacting build.** -/
theorem compact_block_ok (separator : UInt8) {n : Nat} {out : List Nat × List Nat}
    (hbuffer : out.1.length = BLOCK_SIZE) (hn : BLOCK_SIZE * n < data.length) :
    ∃ out', compact_block data separator out n = .ok out' ∧ out'.1.length = BLOCK_SIZE ∧
      out'.2 = out.2 ++ ((data.drop (BLOCK_SIZE * n)).take BLOCK_SIZE).findIdxs (· == separator)
        (BLOCK_SIZE * n) := by
  obtain ⟨buffer, separatorIdxs⟩ := out
  dsimp only at hbuffer
  have hsize : BLOCK_SIZE = 256 := rfl
  have hloop : ∃ block, (List.range' (BLOCK_SIZE * n) (min (BLOCK_SIZE * n + BLOCK_SIZE) data.length -
        BLOCK_SIZE * n)).foldlM (compact_char data separator) (buffer, 0) = .ok block ∧
      Compacted data separator (BLOCK_SIZE * n) (List.range' (BLOCK_SIZE * n)
        (min (BLOCK_SIZE * n + BLOCK_SIZE) data.length - BLOCK_SIZE * n)).length block := by
    apply foldlM_invariant
    · exact ⟨hbuffer, Nat.le_refl 0, by simp⟩
    · intro j block x hx hcompacted
      have hj := (List.getElem?_eq_some_iff.mp hx).1
      rw [List.length_range'] at hj
      rw [List.getElem?_range' hj, Nat.one_mul, Option.some.injEq] at hx
      rw [← hx]
      exact hcompacted.step (by omega) (by omega)
  obtain ⟨⟨buffer', count⟩, hrun, hlen, hcount, hfound⟩ := hloop
  rw [List.length_range'] at hcount hfound
  dsimp only at hlen hcount hfound
  -- the last block is cut off at the end of the data
  have hclip : (data.drop (BLOCK_SIZE * n)).take
        (min (BLOCK_SIZE * n + BLOCK_SIZE) data.length - BLOCK_SIZE * n) =
      (data.drop (BLOCK_SIZE * n)).take BLOCK_SIZE := by
    rw [List.take_eq_take_iff, List.length_drop]
    omega
  refine ⟨(buffer', separatorIdxs ++ buffer'.take count), ?_, hlen, ?_⟩
  · unfold compact_block
    dsimp only
    rw [hrun]
    simp only [bind, Except.bind]
    rw [first_le (by omega)]
    rfl
  · dsimp only
    rw [hfound, hclip]

/-- **The compacting build** stays within its buffer and its data. -/
theorem scalar_split_eq (data : List UInt8) (separator : UInt8) :
    scalar_split data separator = .ok (data.findIdxs (· == separator)) := by
  have hsize : BLOCK_SIZE = 256 := rfl
  have hloop : ∃ out, (List.range ((data.length + BLOCK_SIZE - 1) / BLOCK_SIZE)).foldlM
      (compact_block data separator) (List.replicate BLOCK_SIZE 0, []) = .ok out ∧
      (out.1.length = BLOCK_SIZE ∧ out.2 = (data.take (BLOCK_SIZE *
        (List.range ((data.length + BLOCK_SIZE - 1) / BLOCK_SIZE)).length)).findIdxs
          (· == separator)) := by
    apply foldlM_invariant (P := fun n (out : List Nat × List Nat) => out.1.length = BLOCK_SIZE ∧
      out.2 = (data.take (BLOCK_SIZE * n)).findIdxs (· == separator))
    · exact ⟨List.length_replicate, by simp⟩
    · rintro n out x hx ⟨hbuffer, hfound⟩
      have hn := (List.getElem?_eq_some_iff.mp hx).1
      rw [List.length_range, hsize] at hn
      rw [List.getElem?_range (by rwa [hsize]), Option.some.injEq] at hx
      rw [← hx]
      have hstart : BLOCK_SIZE * n < data.length := by
        rw [hsize]
        omega
      obtain ⟨out', hrun, hlen, hout⟩ := compact_block_ok separator hbuffer hstart
      refine ⟨out', hrun, hlen, ?_⟩
      rw [hout, hfound, findIdxs_block]
  obtain ⟨⟨buffer, found⟩, hrun, _, hfound⟩ := hloop
  -- rounding up, the blocks cover the data
  have hall : data.length ≤ BLOCK_SIZE * ((data.length + BLOCK_SIZE - 1) / BLOCK_SIZE) := by
    rw [hsize]
    omega
  unfold scalar_split
  dsimp only at hfound ⊢
  rw [hrun, hfound, List.length_range, List.take_of_length_le hall]
  rfl

end Compaction

/-- **Both builds return the positions of the separator**, for every separator
that is not the padding of the `std::simd` build. -/
theorem split_eq (build : SplitBuild) (data : List UInt8) {separator : UInt8}
    (hseparator : separator ≠ 0) {separatorDistGuess : Nat} (hguess : separatorDistGuess ≠ 0) :
    split build data separator separatorDistGuess = .ok (data.findIdxs (· == separator)) := by
  unfold split
  rw [if_neg hguess]
  cases build with
  | simd =>
      dsimp only
      rw [simd_split_eq data hseparator]
  | scalar => exact scalar_split_eq data separator

/-- The ascending list of the positions of a separator. -/
structure SeparatorIdxs (data : List UInt8) (separator : UInt8) (separatorIdxs : List Nat) :
    Prop where
  ascending : separatorIdxs.Pairwise (· < ·)
  mem_iff : ∀ i, i ∈ separatorIdxs ↔ data[i]? = some separator

theorem separatorIdxs_findIdxs (data : List UInt8) (separator : UInt8) :
    SeparatorIdxs data separator (data.findIdxs (· == separator)) := by
  refine ⟨List.pairwise_findIdxs, fun i => ?_⟩
  rw [List.mem_findIdxs_iff_getElem_sub_pos, List.getElem?_eq_some_iff]
  simp

/-- **Where the builds agree.** The compacting build returns the positions of
every separator and stays within its buffer. The `std::simd` build returns the
same list exactly for the separators other than zero, with which it pads. -/
theorem splits_agree_iff (data : List UInt8) (separator : UInt8) {separatorDistGuess : Nat}
    (hguess : 1 ≤ separatorDistGuess) :
    (∃ separatorIdxs, split .scalar data separator separatorDistGuess = .ok separatorIdxs ∧
        SeparatorIdxs data separator separatorIdxs) ∧
      ((∃ separatorIdxs, split .simd data separator separatorDistGuess = .ok separatorIdxs ∧
        split .scalar data separator separatorDistGuess = .ok separatorIdxs ∧
        SeparatorIdxs data separator separatorIdxs) ↔ separator ≠ 0) := by
  have hne : separatorDistGuess ≠ 0 := by omega
  have hscalar : split .scalar data separator separatorDistGuess =
      .ok (data.findIdxs (· == separator)) := by
    unfold split
    rw [if_neg hne]
    exact scalar_split_eq data separator
  refine ⟨⟨_, hscalar, separatorIdxs_findIdxs data separator⟩, ?_, fun hseparator => ?_⟩
  · rintro ⟨separatorIdxs, hsimd, _, hpositions⟩ rfl
    -- the place behind the data is in the list, and has no byte
    unfold split at hsimd
    rw [if_neg hne, Except.ok.injEq] at hsimd
    have hmem := length_mem_simd_split data
    rw [hsimd, hpositions.mem_iff, List.getElem?_eq_none (Nat.le_refl _)] at hmem
    cases hmem
  · exact ⟨_, split_eq .simd data hseparator hne, hscalar, separatorIdxs_findIdxs data separator⟩

theorem splits_agree_iff_comma :
    1 ≤ 3 ∧ ∃ separatorIdxs, split .simd [97, 44, 98] 44 3 = .ok separatorIdxs ∧
      split .scalar [97, 44, 98] 44 3 = .ok separatorIdxs ∧
      SeparatorIdxs [97, 44, 98] 44 separatorIdxs :=
  ⟨by decide, (splits_agree_iff [97, 44, 98] 44 (by decide)).2.mpr (by decide)⟩

/-- No byte is a separator, and one build finds 64 of them. -/
theorem simd_split_padding :
    split .simd [] 0 1 = .ok (List.range 64) ∧ split .scalar [] 0 1 = .ok [] := by
  have hsimd : simd_split [] 0 = List.range 64 := by
    rw [simd_split_padded]
    decide
  constructor
  · rw [← hsimd]
    rfl
  · rfl

end LetterBoxed
