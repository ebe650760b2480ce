/-
Searches that list as many paths, of the same lengths.

Two searches over different states may have the same moves, in another order
and under other names. A relation between their states says so if it is one to
one, if related states have moves to related states, and if as many of these
lead to a goal. Then the states of the one level correspond to those of the
other, so as many paths to a goal are listed in each round.

Which paths are listed depends on the order of the moves. How many, and how
long they are, does not.
-/
import LetterBoxed.Lib.BreadthFirst

set_option autoImplicit false

namespace Paths

/-! ## Matched lists -/

/-- What related elements agree on has the same values in two lists that match,
each element one of the other. -/
theorem map_perm_of_matched {α β γ : Type*} {R : α → β → Prop} (hR : Relator.BiUnique R)
    {f : α → γ} {g : β → γ} (hfg : ∀ a b, R a b → f a = g b) {l : List α} :
    ∀ {l' : List β}, l.Nodup → l'.Nodup → (∀ a ∈ l, ∃ b ∈ l', R a b) →
      (∀ b ∈ l', ∃ a ∈ l, R a b) → (l.map f).Perm (l'.map g) := by
  classical
  induction l with
  | nil =>
      intro l' _ _ _ hback
      have hnil : l' = [] := by
        rw [List.eq_nil_iff_forall_not_mem]
        intro b hb
        obtain ⟨a, ha, _⟩ := hback b hb
        exact absurd ha List.not_mem_nil
      subst hnil
      exact List.Perm.refl _
  | cons a l ih =>
      intro l' hl hl' hforth hback
      rw [List.nodup_cons] at hl
      obtain ⟨b, hb, hab⟩ := hforth a List.mem_cons_self
      -- the others match without `a` and `b`
      have hrest : (l.map f).Perm ((l'.erase b).map g) := by
        refine ih hl.2 (hl'.erase b) (fun c hc => ?_) fun d hd => ?_
        · obtain ⟨d, hd, hcd⟩ := hforth c (List.mem_cons_of_mem a hc)
          refine ⟨d, (List.mem_erase_of_ne ?_).mpr hd, hcd⟩
          rintro rfl
          exact hl.1 (hR.1 hcd hab ▸ hc)
        · rw [hl'.mem_erase_iff] at hd
          obtain ⟨c, hc, hcd⟩ := hback d hd.2
          rcases List.mem_cons.mp hc with rfl | hc
          · exact absurd (hR.2 hcd hab) hd.1
          · exact ⟨c, hc, hcd⟩
      have hfirst : (l'.map g).Perm (g b :: (l'.erase b).map g) :=
        (List.perm_cons_erase hb).map g
      rw [List.map_cons, hfg a b hab]
      exact (hrest.cons (g b)).trans hfirst.symm

/-! ## Bisimulations -/

variable {S E S' E' : Type*}

/-- States of the one search and of the other that have the same moves. -/
structure Bisimulation (p : Listed S E) (init : List S) (p' : Listed S' E') (init' : List S')
    (R : S → S' → Prop) : Prop where
  biUnique : Relator.BiUnique R
  start : ∀ s ∈ init, ∃ s' ∈ init', R s s'
  start_back : ∀ s' ∈ init', ∃ s ∈ init, R s s'
  forth : ∀ {s s'}, R s s' → ∀ e ∈ p.moves s, ∃ e' ∈ p'.moves s', R (p.next s e) (p'.next s' e')
  back : ∀ {s s'}, R s s' → ∀ e' ∈ p'.moves s', ∃ e ∈ p.moves s, R (p.next s e) (p'.next s' e')
  goals : ∀ {s s'}, R s s' → ((p.moves s).countP fun e => p.goal (p.next s e)) =
    (p'.moves s').countP fun e' => p'.goal (p'.next s' e')

section Bisimulation

variable {p : Listed S E} {init : List S} {p' : Listed S' E'} {init' : List S'}
  {R : S → S' → Prop} {k : ℕ} {s : S} {s' : S'}

theorem Bisimulation.symm (h : Bisimulation p init p' init' R) :
    Bisimulation p' init' p init fun s' s => R s s' where
  biUnique := ⟨fun _ _ _ hac hbc => h.biUnique.2 hac hbc, fun _ _ _ hab hac => h.biUnique.1 hab hac⟩
  start := h.start_back
  start_back := h.start
  forth hs := h.back hs
  back hs := h.forth hs
  goals hs := (h.goals hs).symm

/-- **Run lemma.** What one search reaches is related to what the other reaches
by as many moves. -/
theorem Bisimulation.reachesIn (h : Bisimulation p init p' init' R) :
    ∀ {s}, p.space.ReachesIn {s | s ∈ init} k s →
      ∃ s', R s s' ∧ p'.space.ReachesIn {s | s ∈ init'} k s' := by
  induction k with
  | zero =>
      intro s hs
      have hinit : s ∈ {s | s ∈ init} := reachesIn_zero.mp hs
      obtain ⟨s', hs', hrel⟩ := h.start s hinit
      exact ⟨s', hrel, reachesIn_zero.mpr hs'⟩
  | succ k ih =>
      intro s hs
      obtain ⟨t, e, ht, he, rfl⟩ := reachesIn_succ.mp hs
      obtain ⟨t', hrel, ht'⟩ := ih ht
      obtain ⟨e', he', hnext⟩ := h.forth hrel e he
      exact ⟨_, hnext, ht'.move he'⟩

theorem Bisimulation.reachesIn_iff (h : Bisimulation p init p' init' R) (hs : R s s') :
    p.space.ReachesIn {s | s ∈ init} k s ↔ p'.space.ReachesIn {s | s ∈ init'} k s' := by
  constructor
  · intro hreach
    obtain ⟨t', ht, hreach'⟩ := h.reachesIn hreach
    rwa [h.biUnique.2 hs ht]
  · intro hreach'
    obtain ⟨t, ht, hreach⟩ := h.symm.reachesIn hreach'
    rwa [h.biUnique.1 hs ht]

/-- Related states are at the same level. -/
theorem Bisimulation.level_iff (h : Bisimulation p init p' init' R) (hs : R s s') :
    s ∈ p.space.Level {s | s ∈ init} k ↔ s' ∈ p'.space.Level {s | s ∈ init'} k := by
  cases k with
  | zero =>
      have hzero := h.reachesIn_iff (k := 0) hs
      rwa [reachesIn_zero, reachesIn_zero] at hzero
  | succ k =>
      have hcounts : {j | 1 ≤ j ∧ p.space.ReachesIn {s | s ∈ init} j s} =
          {j | 1 ≤ j ∧ p'.space.ReachesIn {s | s ∈ init'} j s'} :=
        Set.ext fun j => and_congr_right fun _ => h.reachesIn_iff hs
      exact Iff.of_eq (congrArg (fun counts => IsLeast counts (k + 1)) hcounts)

variable [DecidableEq S] [DecidableEq S']

/-- A round leads to the states that the other leads to. -/
theorem Bisimulation.round (h : Bisimulation p init p' init' R) :
    ∀ s ∈ (p.round init k).map p.leads_to, ∃ s' ∈ (p'.round init' k).map p'.leads_to, R s s' := by
  intro s hs
  have hlevel := mem_round_states.mp hs
  obtain ⟨s', hrel, _⟩ := h.reachesIn (level_reachesIn hlevel)
  exact ⟨s', mem_round_states.mpr ((h.level_iff hrel).mp hlevel), hrel⟩

/-- Behind each state of a round, every move to a goal is listed. -/
theorem length_goal_paths (p : Listed S E) (init : List S) (k : ℕ) :
    (p.goal_paths init k).length = (((p.round init k).map p.leads_to).map fun s =>
      (p.moves s).countP fun e => p.goal (p.next s e)).sum := by
  have hextend : ∀ t, ((p.extend t).filter fun u => p.goal (p.leads_to u)).length =
      (p.moves (p.leads_to t)).countP fun e => p.goal (p.next (p.leads_to t) e) := by
    intro t
    unfold Listed.extend
    rw [← List.countP_eq_length_filter, List.countP_map]
    apply List.countP_congr
    intro e _
    rw [Function.comp_apply, leads_to_extended]
  unfold Listed.goal_paths
  rw [List.filter_flatMap, List.length_flatMap, List.map_map]
  exact congrArg List.sum (List.map_congr_left fun t _ => hextend t)

/-- The lengths of what is listed. -/
theorem breadth_first_lengths (p : Listed S E) (init : List S) (n : ℕ) :
    ((p.breadth_first init n).map fun t => t.2.length) =
      (List.range n).flatMap fun k => List.replicate (p.goal_paths init k).length (k + 1) := by
  unfold Listed.breadth_first
  rw [List.map_flatMap]
  apply List.flatMap_congr
  intro k _
  rw [List.eq_replicate_iff]
  refine ⟨List.length_map _, fun n hn => ?_⟩
  obtain ⟨t, ht, rfl⟩ := List.mem_map.mp hn
  exact length_of_mem_goal_paths ht

/-- **The lengths do not depend on the order.** -/
theorem Bisimulation.lengths_eq (h : Bisimulation p init p' init' R) (hinit : init.Nodup)
    (hinit' : init'.Nodup) (n : ℕ) :
    ((p.breadth_first init n).map fun t => t.2.length) =
      (p'.breadth_first init' n).map fun t => t.2.length := by
  rw [breadth_first_lengths, breadth_first_lengths]
  apply List.flatMap_congr
  intro k _
  rw [length_goal_paths, length_goal_paths]
  congr 1
  exact (map_perm_of_matched h.biUnique (fun _ _ hs => h.goals hs) (round_nodup hinit k)
    (round_nodup hinit' k) h.round h.symm.round).sum_eq

end Bisimulation

end Paths
