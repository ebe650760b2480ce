/-
Bit vectors as sets of bit positions.

What the verification of mask arithmetic needs beyond the core library: a
bound `x < 2 ^ n` as a statement about bits, and the mask of the lowest bits.
-/
import Mathlib

set_option autoImplicit false

namespace Bits

variable {w : ℕ}

/-- A value is below `2 ^ n` when no bit from `n` on is set. -/
theorem lt_two_pow_iff {x : BitVec w} {n : ℕ} :
    x.toNat < 2 ^ n ↔ ∀ j, n ≤ j → x.getLsbD j = false := by
  constructor
  · intro h j hj
    rw [BitVec.getLsbD]
    exact Nat.testBit_lt_two_pow (lt_of_lt_of_le h (Nat.pow_le_pow_right (by norm_num) hj))
  · intro h
    exact Nat.lt_pow_two_of_testBit _ fun j hj => h j hj

/-- Bit `j` of `2 ^ i`. -/
theorem getLsbD_one_shiftLeft {i j : ℕ} (hi : i < w) :
    (1#w <<< i).getLsbD j = decide (j = i) := by
  rw [← BitVec.twoPow_eq, BitVec.getLsbD_twoPow]
  by_cases h : i = j
  · simp [h, h ▸ hi]
  · simp [h, Ne.symm h]

/-- The mask of the lowest `i` bits. -/
theorem getLsbD_one_shiftLeft_sub_one {i j : ℕ} (hi : i < w) :
    ((1#w <<< i) - 1#w).getLsbD j = decide (j < i) := by
  have htoNat : ((1#w <<< i) - 1#w).toNat = 2 ^ i - 1 := by
    have hone : 1 % 2 ^ w = 1 := Nat.mod_eq_of_lt (Nat.one_lt_two_pow (by omega))
    have hpow : 2 ^ i < 2 ^ w := Nat.pow_lt_pow_right (by norm_num) hi
    have hpos : 0 < 2 ^ i := Nat.two_pow_pos i
    rw [BitVec.toNat_sub, BitVec.toNat_shiftLeft, BitVec.toNat_ofNat, hone, Nat.shiftLeft_eq,
      one_mul, Nat.mod_eq_of_lt hpow]
    -- subtraction adds the complement, so the sum wraps once
    rw [show 2 ^ w - 1 + 2 ^ i = 2 ^ i - 1 + 2 ^ w by omega, Nat.add_mod_right,
      Nat.mod_eq_of_lt (by omega)]
  rw [BitVec.getLsbD, htoNat, Nat.testBit_two_pow_sub_one]

/-- The bits of a union of masks. -/
theorem getLsbD_foldl_or {α : Type*} (f : α → BitVec w) (j : ℕ) (xs : List α) (m : BitVec w) :
    (xs.foldl (fun m x => m ||| f x) m).getLsbD j =
      (m.getLsbD j || xs.any fun x => (f x).getLsbD j) := by
  induction xs generalizing m with
  | nil => simp
  | cons x xs ih => rw [List.foldl_cons, ih, BitVec.getLsbD_or, List.any_cons, Bool.or_assoc]

/-! ## The lowest set bit -/

section LowestBit

variable {x : BitVec w}

/-- A nonzero value above and at its lowest set bit. -/
theorem toNat_eq_of_ctz (hx : x ≠ 0#w) :
    x.toNat = 2 ^ (x.ctz.toNat + 1) * (x.toNat / 2 ^ (x.ctz.toNat + 1)) + 2 ^ x.ctz.toNat := by
  have hlow : x.toNat % 2 ^ (x.ctz.toNat + 1) = 2 ^ x.ctz.toNat := by
    apply Nat.eq_of_testBit_eq
    intro j
    rw [Nat.testBit_mod_two_pow, Nat.testBit_two_pow]
    -- below, at and above the lowest set bit
    rcases Nat.lt_trichotomy j x.ctz.toNat with hlt | rfl | hgt
    · have hbit : x.toNat.testBit j = false := BitVec.getLsbD_false_of_lt_ctz hlt
      simp [hbit, Nat.ne_of_gt hlt]
    · have hbit : x.toNat.testBit x.ctz.toNat = true := BitVec.getLsbD_true_ctz_of_ne_zero hx
      simp [hbit]
    · simp [Nat.ne_of_lt hgt, show ¬j < x.ctz.toNat + 1 by omega]
  rw [← hlow, Nat.div_add_mod]

/-- `x & (x - 1)` is `x` without its lowest set bit. -/
theorem getLsbD_and_sub_one (hx : x ≠ 0#w) (j : ℕ) :
    (x &&& (x - 1#w)).getLsbD j = (x.getLsbD j && decide (j ≠ x.ctz.toNat)) := by
  have hsplit := toNat_eq_of_ctz hx
  have hpos : 0 < 2 ^ x.ctz.toNat := Nat.two_pow_pos _
  have hhalf : 2 ^ x.ctz.toNat < 2 ^ (x.ctz.toNat + 1) :=
    Nat.pow_lt_pow_right (by norm_num) (by omega)
  -- the borrow runs up to the lowest set bit and leaves what is above it
  have hpred : (x - 1#w).toNat
      = 2 ^ (x.ctz.toNat + 1) * (x.toNat / 2 ^ (x.ctz.toNat + 1)) + (2 ^ x.ctz.toNat - 1) := by
    have hw : w ≠ 0 := by
      rintro rfl
      exact hx (Subsingleton.elim _ _)
    have hone : 1 % 2 ^ w = 1 := Nat.mod_eq_of_lt (Nat.one_lt_two_pow hw)
    have hlt := x.isLt
    rw [BitVec.toNat_sub, BitVec.toNat_ofNat, hone,
      show 2 ^ w - 1 + x.toNat = x.toNat - 1 + 2 ^ w by omega, Nat.add_mod_right,
      Nat.mod_eq_of_lt (by omega)]
    omega
  rw [BitVec.getLsbD_and, BitVec.getLsbD, BitVec.getLsbD, hpred]
  generalize x.toNat / 2 ^ (x.ctz.toNat + 1) = q at hsplit
  rw [hsplit, Nat.testBit_two_pow_mul_add _ hhalf, Nat.testBit_two_pow_mul_add _ (by omega),
    Nat.testBit_two_pow, Nat.testBit_two_pow_sub_one]
  by_cases hj : j < x.ctz.toNat + 1
  · rw [if_pos hj, if_pos hj]
    by_cases heq : x.ctz.toNat = j
    · simp [heq]
    · simp [heq]
  · rw [if_neg hj, if_neg hj, Bool.and_self]
    simp [show j ≠ x.ctz.toNat by omega]

end LowestBit

end Bits
