/-
`util.hpp`: characters as table indices and letters as mask bits.

A `char` is a byte and is signed, as on the platforms the project builds for,
so `idx` of anything below `'a'` or from `0x80` on wraps to a `size_t` far
past the 26 entries of the tables.

`bit_flag` shifts by a table entry, and the entry of a letter outside the box
is `INVALID_CHAR_FLAG`, a mask rather than a bit index. C++ gives no meaning
to a 32-bit shift by that amount. The model leaves it open: what an oversized
shift does is a parameter, `oversized`, which may return any mask or fault.
-/
import LetterBoxed.Access
import LetterBoxed.Settings
import LetterBoxed.Lib.Bits

set_option autoImplicit false

namespace LetterBoxed

abbrev char_mask_t := BitVec 32

/-- The value of a `char` in arithmetic. -/
def char_value (c : UInt8) : Int := if c.toNat < 128 then c.toNat else c.toNat - 256

/-- `c - FIRST` as a `size_t`. -/
def idx (c : UInt8) : Nat := ((char_value c - char_value FIRST) % 2 ^ 64).toNat

/-- The lowest `BOX_CHARS` bits. -/
def solution_mask : char_mask_t :=
  (List.range BOX_CHARS).foldl (fun out i => out ||| 1#32 <<< i) 0#32

def INVALID_CHAR_FLAG : char_mask_t :=
  (List.range BOX_CHARS).foldl (fun m i => m ||| 1#32 <<< i) 0#32

/-- `std::array<char_mask_t, CHARACTERS>` -/
abbrev compression_index_t := List char_mask_t

/-- `char_mask_t{1} << amount` -/
def shift_left (oversized : Nat → Except Fault char_mask_t) (amount : Nat) :
    Except Fault char_mask_t :=
  if amount < 32 then .ok (1#32 <<< amount) else oversized amount

def bit_flag (oversized : Nat → Except Fault char_mask_t) (c : UInt8)
    (flags : compression_index_t) : Except Fault char_mask_t := do
  let flag ← read .compressionIndex flags (idx c)
  shift_left oversized flag.toNat

/-- The bits of the characters together. -/
def mask_of (oversized : Nat → Except Fault char_mask_t) (chars : List UInt8)
    (flags : compression_index_t) : Except Fault char_mask_t :=
  chars.foldlM (fun out c => do return out ||| (← bit_flag oversized c flags)) 0#32

/-! ## Lower-case letters -/

/-- `c` is one of `a` to `z`. -/
def IsLower (c : UInt8) : Prop := FIRST ≤ c ∧ c ≤ LAST

instance (c : UInt8) : Decidable (IsLower c) := inferInstanceAs (Decidable (_ ∧ _))

@[simp] theorem solution_mask_eq : solution_mask = 4095#32 := rfl

@[simp] theorem INVALID_CHAR_FLAG_eq : INVALID_CHAR_FLAG = 4095#32 := rfl

theorem shift_left_lt (oversized : Nat → Except Fault char_mask_t) {amount : Nat}
    (h : amount < 32) : shift_left oversized amount = .ok (1#32 <<< amount) :=
  if_pos h

theorem isLower_iff {c : UInt8} : IsLower c ↔ 97 ≤ c.toNat ∧ c.toNat ≤ 122 := by
  simp [IsLower, FIRST, LAST, UInt8.le_iff_toNat_le]

theorem idx_eq (c : UInt8) :
    idx c = if 97 ≤ c.toNat ∧ c.toNat < 128 then c.toNat - 97
      else if c.toNat < 97 then c.toNat + 2 ^ 64 - 97 else c.toNat + 2 ^ 64 - 353 := by
  have hlt := c.toNat_lt
  simp only [idx, char_value, FIRST, UInt8.toNat_ofNat]
  split_ifs <;> omega

/-- A letter's index is its place in the alphabet. -/
theorem idx_lower {c : UInt8} (h : IsLower c) : idx c = c.toNat - 97 := by
  rw [isLower_iff] at h
  rw [idx_eq, if_pos (by omega)]

/-- Only letters have an index inside the 26-entry tables. -/
theorem idx_lt_iff {c : UInt8} : idx c < CHARACTERS ↔ IsLower c := by
  have hlt := c.toNat_lt
  have hchars : CHARACTERS = 26 := rfl
  rw [isLower_iff, idx_eq, hchars]
  split_ifs <;> omega

theorem idx_injOn {c d : UInt8} (hc : IsLower c) (hd : IsLower d) (h : idx c = idx d) : c = d := by
  rw [idx_lower hc, idx_lower hd] at h
  rw [isLower_iff] at hc hd
  exact UInt8.toNat_inj.mp (by omega)

/-! ## Full masks -/

/-- Masks of box letters are equal if they agree on the box bits. -/
theorem mask_ext {x y : char_mask_t} (hx : x.toNat < 2 ^ BOX_CHARS) (hy : y.toNat < 2 ^ BOX_CHARS)
    (h : ∀ i : Fin BOX_CHARS, x.getLsbD i = true ↔ y.getLsbD i = true) : x = y := by
  apply BitVec.eq_of_getLsbD_eq
  intro j _
  by_cases hj : j < BOX_CHARS
  · rw [Bool.eq_iff_iff]
    exact h ⟨j, hj⟩
  · -- above the box letters both have no bits
    rw [Bits.lt_two_pow_iff.mp hx j (by omega), Bits.lt_two_pow_iff.mp hy j (by omega)]

theorem zero_mask_lt : (0#32 : char_mask_t).toNat < 2 ^ BOX_CHARS := by decide

theorem solution_mask_lt : solution_mask.toNat < 2 ^ BOX_CHARS := by decide

theorem getLsbD_solution_mask (i : Fin BOX_CHARS) : solution_mask.getLsbD i = true := by
  revert i
  decide

/-- A mask of box letters is full when it has every bit of the box. -/
theorem eq_solution_mask_iff {x : char_mask_t} (hx : x.toNat < 2 ^ BOX_CHARS) :
    x = solution_mask ↔ ∀ i : Fin BOX_CHARS, x.getLsbD i = true := by
  constructor
  · rintro rfl i
    exact getLsbD_solution_mask i
  · intro h
    apply mask_ext hx solution_mask_lt
    intro i
    rw [h i, getLsbD_solution_mask i]

end LetterBoxed
