/-
Grouping indexed items by key, in the order of their first item.

A list of groups is built by inserting one index after the other: an index
joins the group of its key, or opens a new group behind the others. Items may
have no key and are then skipped, so `keyAt` is a partial function of the
index. `IsGrouping n keyAt gs` says that `gs` is the grouping of the first `n`
items, and `insert` extends it by the next one.
-/
import Mathlib

set_option autoImplicit false

namespace Grouping

variable {K : Type*}

/-- Index `i` joins the group of `k`, or opens it. -/
def insert [DecidableEq K] (k : K) (i : ℕ) : List (K × List ℕ) → List (K × List ℕ)
  | [] => [(k, [i])]
  | g :: gs => if g.1 = k then (g.1, g.2 ++ [i]) :: gs else g :: insert k i gs

/-- `gs` holds the first `n` items by key: each index in the group of its key
and in no other, the indices of a group in ascending order, and the groups in
the order of their first index. -/
structure IsGrouping (n : ℕ) (keyAt : ℕ → Option K) (gs : List (K × List ℕ)) : Prop where
  sound : ∀ g ∈ gs, ∀ i ∈ g.2, i < n ∧ keyAt i = some g.1
  complete : ∀ i < n, ∀ k, keyAt i = some k → ∃ g ∈ gs, g.1 = k ∧ i ∈ g.2
  distinct : gs.Pairwise fun g g' => g.1 ≠ g'.1
  nonempty : ∀ g ∈ gs, g.2 ≠ []
  sorted : ∀ g ∈ gs, g.2.Pairwise (· < ·)
  ordered : gs.Pairwise fun g g' => ∀ i ∈ g.2.head?, ∀ j ∈ g'.2.head?, i < j

variable {n : ℕ} {keyAt : ℕ → Option K} {gs : List (K × List ℕ)} {k : K} {i : ℕ}

theorem isGrouping_nil (keyAt : ℕ → Option K) : IsGrouping 0 keyAt [] := by
  refine ⟨?_, ?_, .nil, ?_, ?_, .nil⟩
  · simp
  · simp
  · simp
  · simp

section Insert

variable [DecidableEq K]

/-- The groups after an insertion: the old ones, except that the one of `k`
has gained `i`, or that one with `i` alone is new. -/
theorem mem_insert (hdistinct : gs.Pairwise fun g g' => g.1 ≠ g'.1) {g : K × List ℕ} :
    g ∈ insert k i gs ↔ (g ∈ gs ∧ g.1 ≠ k) ∨ (∃ is, (k, is) ∈ gs ∧ g = (k, is ++ [i])) ∨
      ((∀ g ∈ gs, g.1 ≠ k) ∧ g = (k, [i])) := by
  induction gs with
  | nil => simp [insert]
  | cons g₀ gs ih =>
      rw [List.pairwise_cons] at hdistinct
      obtain ⟨hhead, htail⟩ := hdistinct
      obtain ⟨k₀, is₀⟩ := g₀
      unfold insert
      by_cases heq : k₀ = k
      · -- the first group gains the index: no other group has its key
        subst heq
        rw [if_pos rfl]
        have hother : ∀ g ∈ gs, g.1 ≠ k₀ := fun g hg => (hhead g hg).symm
        have hnone : ∀ is, (k₀, is) ∉ gs := fun is hmem => hother _ hmem rfl
        simp only [List.mem_cons, Prod.mk.injEq, true_and, forall_eq_or_imp, ne_eq, not_true_eq_false,
          false_and, or_false, hnone, exists_eq_left]
        constructor
        · rintro (rfl | hg)
          · exact .inr rfl
          · exact .inl ⟨.inr hg, hother g hg⟩
        · rintro (⟨rfl | hg, hne⟩ | rfl)
          · exact absurd rfl hne
          · exact .inr hg
          · exact .inl rfl
      · -- the first group stays as it is
        rw [if_neg heq]
        simp only [List.mem_cons, ih htail, Prod.mk.injEq, Ne.symm heq, false_and, false_or,
          forall_eq_or_imp, ne_eq, heq, not_false_eq_true, true_and]
        constructor
        · rintro (rfl | hg | hg | hg)
          · exact .inl ⟨.inl rfl, heq⟩
          · exact .inl ⟨.inr hg.1, hg.2⟩
          · exact .inr (.inl hg)
          · exact .inr (.inr hg)
        · rintro (⟨rfl | hg, hne⟩ | hg | hg)
          · exact .inl rfl
          · exact .inr (.inl ⟨hg, hne⟩)
          · exact .inr (.inr (.inl hg))
          · exact .inr (.inr (.inr hg))

theorem distinct_insert (hdistinct : gs.Pairwise fun g g' => g.1 ≠ g'.1) :
    (insert k i gs).Pairwise fun g g' => g.1 ≠ g'.1 := by
  induction gs with
  | nil => exact List.pairwise_singleton _ _
  | cons g₀ gs ih =>
      rw [List.pairwise_cons] at hdistinct
      unfold insert
      by_cases heq : g₀.1 = k
      · rw [if_pos heq, List.pairwise_cons]
        exact hdistinct
      · rw [if_neg heq, List.pairwise_cons]
        refine ⟨fun g hg => ?_, ih hdistinct.2⟩
        rcases (mem_insert hdistinct.2).mp hg with ⟨hold, _⟩ | ⟨_, _, rfl⟩ | ⟨_, rfl⟩
        · exact hdistinct.1 g hold
        · exact heq
        · exact heq

/-- The first index of a group stays, and a new group is the last. -/
theorem ordered_insert (hdistinct : gs.Pairwise fun g g' => g.1 ≠ g'.1)
    (hlt : ∀ g ∈ gs, ∀ j ∈ g.2, j < i) (hnonempty : ∀ g ∈ gs, g.2 ≠ [])
    (hordered : gs.Pairwise fun g g' => ∀ i ∈ g.2.head?, ∀ j ∈ g'.2.head?, i < j) :
    (insert k i gs).Pairwise fun g g' => ∀ i ∈ g.2.head?, ∀ j ∈ g'.2.head?, i < j := by
  induction gs with
  | nil => exact List.pairwise_singleton _ _
  | cons g₀ gs ih =>
      rw [List.forall_mem_cons] at hlt hnonempty
      rw [List.pairwise_cons] at hdistinct hordered
      unfold insert
      by_cases heq : g₀.1 = k
      · rw [if_pos heq, List.pairwise_cons]
        refine ⟨fun g hg => ?_, hordered.2⟩
        rw [List.head?_append_of_ne_nil _ hnonempty.1]
        exact hordered.1 g hg
      · rw [if_neg heq, List.pairwise_cons]
        refine ⟨fun g hg a ha b hb => ?_, ih hdistinct.2 hlt.2 hnonempty.2 hordered.2⟩
        rcases (mem_insert hdistinct.2).mp hg with ⟨hold, _⟩ | ⟨is, hold, rfl⟩ | ⟨_, rfl⟩
        · exact hordered.1 g hold a ha b hb
        · -- a group that gains an index keeps its first one
          rw [List.head?_append_of_ne_nil _ (hnonempty.2 _ hold)] at hb
          exact hordered.1 _ hold a ha b hb
        · -- a new group begins with `i`, above all indices so far
          cases hb
          exact hlt.1 a (List.mem_of_mem_head? ha)

/-- **An item with a key.** -/
theorem IsGrouping.insert (h : IsGrouping n keyAt gs) (hkey : keyAt n = some k) :
    IsGrouping (n + 1) keyAt (insert k n gs) := by
  have hlt : ∀ g ∈ gs, ∀ j ∈ g.2, j < n := fun g hg j hj => (h.sound g hg j hj).1
  refine ⟨fun g hg i hi => ?_, fun i hi k' hk' => ?_, distinct_insert h.distinct, fun g hg => ?_,
    fun g hg => ?_, ordered_insert h.distinct hlt h.nonempty h.ordered⟩
  -- sound: the index that is new has the key of its group
  · rcases (mem_insert h.distinct).mp hg with ⟨hold, _⟩ | ⟨is, hold, rfl⟩ | ⟨_, rfl⟩
    · obtain ⟨hlt, hk⟩ := h.sound g hold i hi
      exact ⟨by omega, hk⟩
    · rcases List.mem_append.mp hi with hi | hi
      · obtain ⟨hlt, hk⟩ := h.sound _ hold i hi
        exact ⟨by omega, hk⟩
      · rw [List.mem_singleton.mp hi]
        exact ⟨by omega, hkey⟩
    · rw [List.mem_singleton.mp hi]
      exact ⟨by omega, hkey⟩
  -- complete: the new index finds the group of its key, or opens it
  · by_cases hlast : i = n
    · subst hlast
      rw [hkey] at hk'
      cases hk'
      by_cases hex : ∃ g ∈ gs, g.1 = k
      · obtain ⟨⟨_, is⟩, hg, rfl⟩ := hex
        exact ⟨_, (mem_insert h.distinct).mpr (.inr (.inl ⟨is, hg, rfl⟩)), rfl, by simp⟩
      · have hnew : ∀ g ∈ gs, g.1 ≠ k := fun g hg heq => hex ⟨g, hg, heq⟩
        exact ⟨_, (mem_insert h.distinct).mpr (.inr (.inr ⟨hnew, rfl⟩)), rfl, by simp⟩
    · obtain ⟨g, hg, rfl, hmem⟩ := h.complete i (by omega) k' hk'
      by_cases heq : g.1 = k
      · subst heq
        refine ⟨_, (mem_insert h.distinct).mpr (.inr (.inl ⟨g.2, hg, rfl⟩)), rfl, ?_⟩
        exact List.mem_append_left _ hmem
      · exact ⟨g, (mem_insert h.distinct).mpr (.inl ⟨hg, heq⟩), rfl, hmem⟩
  · rcases (mem_insert h.distinct).mp hg with ⟨hold, _⟩ | ⟨is, _, rfl⟩ | ⟨_, rfl⟩
    · exact h.nonempty g hold
    · simp
    · simp
  -- sorted: the new index is the largest
  · rcases (mem_insert h.distinct).mp hg with ⟨hold, _⟩ | ⟨is, hold, rfl⟩ | ⟨_, rfl⟩
    · exact h.sorted g hold
    · rw [List.pairwise_append]
      refine ⟨h.sorted _ hold, List.pairwise_singleton _ _, fun i hi j hj => ?_⟩
      rw [List.mem_singleton.mp hj]
      exact hlt _ hold i hi
    · exact List.pairwise_singleton _ _

end Insert

/-- **An item without a key.** -/
theorem IsGrouping.skip (h : IsGrouping n keyAt gs) (hkey : keyAt n = none) :
    IsGrouping (n + 1) keyAt gs := by
  refine ⟨fun g hg i hi => ?_, fun i hi k hk => ?_, h.distinct, h.nonempty, h.sorted, h.ordered⟩
  · obtain ⟨hlt, hk⟩ := h.sound g hg i hi
    exact ⟨by omega, hk⟩
  · by_cases hlast : i = n
    · rw [hlast, hkey] at hk
      cases hk
    · exact h.complete i (by omega) k hk

/-- The indices of all groups. -/
def members (gs : List (K × List ℕ)) : List ℕ := gs.flatMap Prod.snd

/-- The groups hold the items that have a key. -/
theorem IsGrouping.mem_members (h : IsGrouping n keyAt gs) :
    i ∈ members gs ↔ i < n ∧ ∃ k, keyAt i = some k := by
  unfold members
  rw [List.mem_flatMap]
  constructor
  · rintro ⟨g, hg, hi⟩
    obtain ⟨hlt, hkey⟩ := h.sound g hg i hi
    exact ⟨hlt, g.1, hkey⟩
  · rintro ⟨hlt, k, hkey⟩
    obtain ⟨g, hg, _, hi⟩ := h.complete i hlt k hkey
    exact ⟨g, hg, hi⟩

/-- No two groups share an index. -/
theorem IsGrouping.unique (h : IsGrouping n keyAt gs) {g g' : K × List ℕ} (hg : g ∈ gs)
    (hg' : g' ∈ gs) (hi : i ∈ g.2) (hi' : i ∈ g'.2) : g = g' := by
  have hkey := (h.sound g hg i hi).2
  rw [(h.sound g' hg' i hi').2] at hkey
  by_contra hne
  have hsymm : Std.Symm fun g g' : K × List ℕ => g.1 ≠ g'.1 := ⟨fun _ _ h => h.symm⟩
  exact h.distinct.forall hg hg' hne (Option.some.inj hkey).symm

/-- Every index is in one group, and there once. -/
theorem IsGrouping.nodup_members (h : IsGrouping n keyAt gs) : (members gs).Nodup := by
  unfold members
  rw [List.nodup_flatMap]
  refine ⟨fun g hg => (h.sorted g hg).imp Nat.ne_of_lt, ?_⟩
  apply h.distinct.imp_of_mem
  intro g g' hg hg' hne i hi hi'
  exact hne (congrArg Prod.fst (h.unique hg hg' hi hi'))

end Grouping
