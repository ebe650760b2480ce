/-
The state cache: its key and its entries.

A search state is the node a path ends in and the letters it has used. Its key
drops the node's own bit from the letters, which loses nothing because the bit
is always set: the last letter of the last word is the letter of the node. So
on the states a search can be in, `SearchNode`, the key is injective and below
`CACHE_SIZE`, and reading the cache is reading a table indexed by states.
-/
import LetterBoxed.Solver
import LetterBoxed.Lib.Bits

set_option autoImplicit false

namespace LetterBoxed

/-! ## `delete_bit` -/

section DeleteBit

variable {w : ℕ} {x y : BitVec w} {idx : ℕ}

/-- Bits below `idx` stay, the others are the bits one place further up. -/
theorem getLsbD_delete_bit (h : idx < w) (j : ℕ) :
    (delete_bit x idx).getLsbD j = if j < idx then x.getLsbD j else x.getLsbD (j + 1) := by
  have hw : j < idx → j < w := fun hj => by omega
  simp only [delete_bit, BitVec.getLsbD_or, BitVec.getLsbD_and, BitVec.getLsbD_not,
    BitVec.getLsbD_ushiftRight, Bits.getLsbD_one_shiftLeft_sub_one h]
  by_cases hj : j < idx
  · simp [hj]
  · by_cases hjw : j < w
    · simp [hj, hjw, Nat.add_comm]
    · simp [hj, hjw, BitVec.getLsbD_of_ge x (j + 1) (by omega)]

/-- Deleting a bit below `n` leaves a value one bit narrower. -/
theorem delete_bit_lt {n : ℕ} (h : idx < w) (hn : idx ≤ n) (hx : x.toNat < 2 ^ (n + 1)) :
    (delete_bit x idx).toNat < 2 ^ n := by
  rw [Bits.lt_two_pow_iff] at hx ⊢
  intro j hj
  rw [getLsbD_delete_bit h, if_neg (by omega)]
  exact hx (j + 1) (by omega)

/-- `x` with bit `b` put in at position `idx`; the bits from there on move up. -/
def insert_bit (x : BitVec w) (idx : ℕ) (b : Bool) : BitVec w :=
  let mask := (1#w <<< idx) - 1#w
  let lower := x &&& mask
  let upper := (x &&& ~~~mask) <<< 1
  lower ||| upper ||| if b then 1#w <<< idx else 0#w

theorem getLsbD_insert_bit (h : idx < w) (b : Bool) {j : ℕ} (hj : j < w) :
    (insert_bit x idx b).getLsbD j =
      if j < idx then x.getLsbD j else if j = idx then b else x.getLsbD (j - 1) := by
  have hflag : (if b then 1#w <<< idx else 0#w).getLsbD j = (decide (j = idx) && b) := by
    cases b with
    | true => simp [Bits.getLsbD_one_shiftLeft h]
    | false => simp
  simp only [insert_bit, BitVec.getLsbD_or, BitVec.getLsbD_and, BitVec.getLsbD_shiftLeft,
    BitVec.getLsbD_not, Bits.getLsbD_one_shiftLeft_sub_one h, hflag]
  rcases Nat.lt_trichotomy j idx with hlt | rfl | hgt
  · simp [hlt, Nat.ne_of_lt hlt, show j - 1 < idx by omega]
  · -- the place that is cleared for the new bit
    by_cases hzero : j = 0
    · simp [hzero]
    · simp [show j - 1 < j by omega]
  · simp [show ¬j < idx by omega, show ¬j < 1 by omega, show ¬j - 1 < idx by omega,
      show j - 1 < w by omega, show j ≠ idx by omega, hj]

/-- **Nothing but the bit is lost**: putting it back gives the value back. -/
theorem insert_delete_bit (h : idx < w) :
    insert_bit (delete_bit x idx) idx (x.getLsbD idx) = x := by
  apply BitVec.eq_of_getLsbD_eq
  intro j hj
  rw [getLsbD_insert_bit h _ hj, getLsbD_delete_bit h, getLsbD_delete_bit h]
  rcases Nat.lt_trichotomy j idx with hlt | rfl | hgt
  · simp [hlt]
  · simp
  · -- bit `j` was moved down to `j - 1`
    rw [if_neg (by omega), if_neg (by omega), if_neg (by omega), Nat.sub_add_cancel (by omega)]

/-- On values that agree on bit `idx`, deleting it is injective. -/
theorem delete_bit_inj (h : idx < w) (hbit : x.getLsbD idx = y.getLsbD idx)
    (heq : delete_bit x idx = delete_bit y idx) : x = y := by
  calc x = insert_bit (delete_bit x idx) idx (x.getLsbD idx) := (insert_delete_bit h).symm
    _ = insert_bit (delete_bit y idx) idx (y.getLsbD idx) := by rw [heq, hbit]
    _ = y := insert_delete_bit h

/-- **`delete_bit` removes exactly one bit position**, at every width. -/
theorem delete_bit_removes_one (x : BitVec w) (h : idx < w) :
    (∀ j < idx, (delete_bit x idx).getLsbD j = x.getLsbD j) ∧
      (∀ j, idx ≤ j → j < w - 1 → (delete_bit x idx).getLsbD j = x.getLsbD (j + 1)) ∧
      (delete_bit x idx).getLsbD (w - 1) = false ∧
      insert_bit (delete_bit x idx) idx (x.getLsbD idx) = x ∧
      (∀ y : BitVec w, x.getLsbD idx = y.getLsbD idx →
        delete_bit x idx = delete_bit y idx → x = y) ∧
      ∀ n, idx < n → n ≤ w → x.toNat < 2 ^ n → (delete_bit x idx).toNat < 2 ^ (n - 1) := by
  refine ⟨fun j hj => ?_, fun j hle _ => ?_, ?_, insert_delete_bit h,
    fun y => delete_bit_inj h, fun n hn _ hx => ?_⟩
  · rw [getLsbD_delete_bit h, if_pos hj]
  · rw [getLsbD_delete_bit h, if_neg (by omega)]
  · -- nothing moves into the top bit
    rw [getLsbD_delete_bit h, if_neg (by omega), Nat.sub_add_cancel (by omega)]
    exact BitVec.getLsbD_of_ge x w (Nat.le_refl w)
  · apply delete_bit_lt h (by omega)
    rwa [Nat.sub_add_cancel (by omega)]

/-- The mask `1101` without bit 1 is `111`. -/
theorem delete_bit_removes_one_at_one :
    (1 < 8 ∧ (13#8).toNat < 2 ^ 4) ∧ (delete_bit 13#8 1).toNat < 2 ^ 3 ∧
      insert_bit (delete_bit 13#8 1) 1 ((13#8).getLsbD 1) = 13#8 := by
  obtain ⟨_, _, _, hback, _, hlt⟩ := delete_bit_removes_one 13#8 (show 1 < 8 by decide)
  exact ⟨by decide, hlt 4 (by decide) (by decide) (by decide), hback⟩

end DeleteBit

/-! ## Search states and their keys -/

/-- A node and the letters used on the way to it. -/
abbrev search_node := Fin BOX_CHARS × char_mask_t

/-- Only box letters are used, and the node's own letter is. -/
structure IsSearchNode (s : search_node) : Prop where
  mask_lt : s.2.toNat < 2 ^ BOX_CHARS
  own_bit : s.2.getLsbD s.1 = true

/-- The key of a state. -/
def cache_key (s : search_node) : Nat := cache_hash s.1 s.2

theorem MAX_STATES_eq : MAX_STATES = 2 ^ 11 := rfl

theorem compress_hash_lt {s : search_node} (hs : IsSearchNode s) :
    (compress_hash s.2 s.1).toNat < MAX_STATES := by
  have hlt : s.1.val < 12 := s.1.isLt
  rw [MAX_STATES_eq]
  exact delete_bit_lt (by omega) (by omega) hs.mask_lt

theorem cache_key_lt {s : search_node} (hs : IsSearchNode s) : cache_key s < CACHE_SIZE := by
  have hlt : s.1.val + 1 ≤ BOX_CHARS := s.1.isLt
  have hcompressed := compress_hash_lt hs
  calc cache_key s < s.1 * MAX_STATES + MAX_STATES := Nat.add_lt_add_left hcompressed _
    _ = (s.1.val + 1) * MAX_STATES := (Nat.succ_mul _ _).symm
    _ ≤ BOX_CHARS * MAX_STATES := Nat.mul_le_mul_right _ hlt
    _ = CACHE_SIZE := Nat.mul_comm _ _

/-- No two states share a key. -/
theorem cache_key_inj {s t : search_node} (hs : IsSearchNode s) (ht : IsSearchNode t) :
    cache_key s = cache_key t ↔ s = t := by
  constructor
  · intro h
    -- the node is the quotient of the key, the remainder is the mask without
    -- the node's bit
    have hpos : 0 < MAX_STATES := by decide
    have hdiv := congrArg (· / MAX_STATES) h
    have hmod := congrArg (· % MAX_STATES) h
    simp only [cache_key, cache_hash, Nat.mul_comm _ MAX_STATES, Nat.mul_add_div hpos,
      Nat.mul_add_mod, Nat.div_eq_of_lt (compress_hash_lt hs),
      Nat.div_eq_of_lt (compress_hash_lt ht), Nat.mod_eq_of_lt (compress_hash_lt hs),
      Nat.mod_eq_of_lt (compress_hash_lt ht), Nat.add_zero] at hdiv hmod
    have hnode : s.1 = t.1 := Fin.ext hdiv
    have hidx : s.1.val < 32 := by
      have : s.1.val < 12 := s.1.isLt
      omega
    rw [← hnode] at hmod
    have hmask : s.2 = t.2 := by
      refine delete_bit_inj hidx ?_ (BitVec.eq_of_toNat_eq hmod)
      rw [hs.own_bit, hnode, ht.own_bit]
    exact Prod.ext hnode hmask
  · rintro rfl
    rfl

/-! ## The cache as a table of states -/

/-- The entry of a state. -/
def SearchState.entry (w : SearchState) (s : search_node) : state_cache_entry :=
  w.stateDepthCache (cache_key s)

/-- The variables after the entry of `s` was written. -/
def SearchState.record (w : SearchState) (s : search_node) (pathSize depth : Nat) : SearchState :=
  { w with
    stateDepthCache := Function.update w.stateDepthCache (cache_key s)
      { depthCeiling := UInt8.ofNat pathSize, creationDepth := UInt8.ofNat depth } }

theorem record_stateDepthCache (w : SearchState) (s : search_node) (pathSize depth : Nat) :
    (w.record s pathSize depth).stateDepthCache =
      Function.update w.stateDepthCache (cache_key s)
        { depthCeiling := UInt8.ofNat pathSize, creationDepth := UInt8.ofNat depth } := rfl

theorem entry_record_self (w : SearchState) (s : search_node) (pathSize depth : Nat) :
    (w.record s pathSize depth).entry s =
      { depthCeiling := UInt8.ofNat pathSize, creationDepth := UInt8.ofNat depth } := by
  rw [SearchState.entry, record_stateDepthCache, Function.update_self]

/-- Writing one entry leaves those of the other states alone. -/
theorem entry_record_of_ne {w : SearchState} {s t : search_node} {pathSize depth : Nat}
    (hs : IsSearchNode s) (ht : IsSearchNode t) (h : t ≠ s) :
    (w.record s pathSize depth).entry t = w.entry t := by
  have hkey : cache_key t ≠ cache_key s := fun hkey => h ((cache_key_inj ht hs).mp hkey)
  rw [SearchState.entry, record_stateDepthCache, Function.update_of_ne hkey, SearchState.entry]

/-- The condition under which `check_cache` prunes. -/
def state_cache_entry.Prunes (entry : state_cache_entry) (pathSize depth : Nat) : Prop :=
  entry.depthCeiling.toNat < pathSize ∨
    (entry.depthCeiling.toNat ≤ pathSize ∧ depth ≤ entry.creationDepth.toNat)

instance (entry : state_cache_entry) (pathSize depth : Nat) :
    Decidable (entry.Prunes pathSize depth) := inferInstanceAs (Decidable (_ ∨ _))

/-- `check_cache` at a state of the search. -/
theorem check_cache_eq {s : search_node} (hs : IsSearchNode s) (depth pathSize : Nat)
    (w : SearchState) :
    check_cache depth pathSize s.1 s.2 w =
      if (w.entry s).Prunes pathSize depth then (none, w)
      else (some s.2, w.record s pathSize depth) := by
  have hkey : ¬CACHE_SIZE ≤ cache_hash s.1 s.2 := Nat.not_le.mpr (cache_key_lt hs)
  rw [check_cache, if_neg hkey]
  rfl

/-- A write never raises the depth ceiling, whatever the arguments. -/
theorem check_cache_ceiling_le (depth pathSize nextIdx : Nat) (pathHash : char_mask_t)
    (w : SearchState) (key : Nat) :
    ((check_cache depth pathSize nextIdx pathHash w).2.stateDepthCache key).depthCeiling.toNat ≤
      (w.stateDepthCache key).depthCeiling.toNat := by
  unfold check_cache
  by_cases hsize : CACHE_SIZE ≤ cache_hash nextIdx pathHash
  · simp only [if_pos hsize, Nat.le_refl]
  by_cases hprune : (w.stateDepthCache (cache_hash nextIdx pathHash)).Prunes pathSize depth
  · simp only [if_neg hsize, if_pos (show _ ∨ _ from hprune), Nat.le_refl]
  · simp only [if_neg hsize, if_neg (show ¬(_ ∨ _) from hprune)]
    by_cases hkey : key = cache_hash nextIdx pathHash
    · rw [hkey, Function.update_self]
      -- a byte holds the path size, since it is at most the old ceiling
      have hbyte := (w.stateDepthCache (cache_hash nextIdx pathHash)).depthCeiling.toNat_lt
      rw [state_cache_entry.Prunes, not_or, Nat.not_lt] at hprune
      rw [UInt8.toNat_ofNat_of_lt' (by rw [UInt8.size]; omega)]
      exact hprune.1
    · rw [Function.update_of_ne hkey]

end LetterBoxed
