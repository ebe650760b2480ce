/-
The order of what a breadth-first search lists.

If moves have places, and are listed by them, then paths have an order: shorter
ones come first, and of equally long ones that with the lower start, or with the
lower move where they part. A breadth-first search with one path to each state
lists its paths in this order, and the path that it has kept is the first of all
that lead to the state. So is the path to a goal that it lists: the first with
its last move behind that state.

An element of a sorted list is among the first `n` if fewer than `n` are below
it. With the order this counts what a search that is cut off has room for.
-/
import LetterBoxed.Lib.BreadthFirst

set_option autoImplicit false

namespace Paths

/-! ## Lists of numbers -/

/-- What comes behind a difference does not matter. -/
theorem append_lt_append {l l' : List ℕ} (m m' : List ℕ) (hlen : l.length = l'.length)
    (h : l < l') : l ++ m < l' ++ m' := by
  induction l generalizing l' with
  | nil =>
      cases l' with
      | nil => exact absurd h (lt_irrefl _)
      | cons b l' => cases hlen
  | cons a l ih =>
      cases l' with
      | nil => cases hlen
      | cons b l' =>
          rw [List.cons_lt_cons_iff] at h
          rw [List.cons_append, List.cons_append, List.cons_lt_cons_iff]
          exact h.imp_right fun h => ⟨h.1, ih (Nat.succ_inj.mp hlen) h.2⟩

theorem le_of_forall₂ {l l' : List ℕ} (h : List.Forall₂ (· ≤ ·) l l') : l ≤ l' := by
  induction h with
  | nil => exact le_refl _
  | @cons a b l l' hab _ ih =>
      rcases hab.lt_or_eq with hab | rfl
      · exact le_of_lt (List.cons_lt_cons_iff.mpr (.inl hab))
      · rcases ih.lt_or_eq with hlt | rfl
        · exact le_of_lt (List.cons_lt_cons_iff.mpr (.inr ⟨rfl, hlt⟩))
        · exact le_refl _

/-! ## Sorted lists -/

/-- **Room for an element**: it is among the first `n` if fewer are below it. -/
theorem mem_take_iff_countP {α ω : Type*} [LinearOrder ω] {order : α → ω} {l : List α} {a : α}
    (ha : a ∈ l) : ∀ n, (l.Pairwise fun b c => order b < order c) →
      (a ∈ l.take n ↔ l.countP (fun b => decide (order b < order a)) < n) := by
  induction l with
  | nil => exact absurd ha List.not_mem_nil
  | cons b l ih =>
      intro n hsorted
      rw [List.pairwise_cons] at hsorted
      cases n with
      | zero => simp
      | succ n =>
          rw [List.take_succ_cons, List.mem_cons, List.countP_cons]
          rcases List.mem_cons.mp ha with rfl | hmem
          · -- nothing is below the first
            have hnone : l.countP (fun c => decide (order c < order a)) = 0 := by
              rw [List.countP_eq_zero]
              intro c hc
              simpa using le_of_lt (hsorted.1 c hc)
            rw [hnone]
            simp
          · have hlt := hsorted.1 a hmem
            have hne : a ≠ b := fun heq => lt_irrefl _ (heq ▸ hlt)
            rw [or_iff_right hne, ih hmem n hsorted.2]
            simp only [hlt, decide_true, if_true, Nat.add_lt_add_iff_right]

/-- Values that differ are counted by what has them. -/
theorem encard_image_eq_countP {α β : Type*} {f : α → β} {l : List α} (hnodup : l.Nodup)
    (hinj : ∀ a ∈ l, ∀ b ∈ l, f a = f b → a = b) (p : α → Bool) :
    (f '' {a | a ∈ l ∧ p a = true}).encard = l.countP p := by
  classical
  have hfinset : {a | a ∈ l ∧ p a = true} = ((l.filter p).toFinset : Set α) := by
    ext a
    rw [Finset.mem_coe, List.mem_toFinset, List.mem_filter]
    rfl
  rw [Set.InjOn.encard_image fun a ha b hb => hinj a ha.1 b hb.1, hfinset,
    Set.encard_coe_eq_coe_finsetCard, List.toFinset_card_of_nodup (hnodup.filter p),
    List.countP_eq_length_filter]

/-- **Room for an element**, counted by values. -/
theorem mem_take_iff_encard {α β ω : Type*} [LinearOrder ω] {order : α → ω} {f : α → β}
    {l : List α} {a : α} (ha : a ∈ l) (hsorted : l.Pairwise fun b c => order b < order c)
    (hinj : ∀ a ∈ l, ∀ b ∈ l, f a = f b → a = b) (n : ℕ) :
    a ∈ l.take n ↔ (f '' {b | b ∈ l ∧ order b < order a}).encard < n := by
  have hnodup : l.Nodup := by
    apply hsorted.imp
    rintro b c hlt rfl
    exact lt_irrefl _ hlt
  have hcount := encard_image_eq_countP hnodup hinj fun b => decide (order b < order a)
  simp only [decide_eq_true_eq] at hcount
  rw [mem_take_iff_countP ha n hsorted, hcount, Nat.cast_lt]

/-! ## Paths -/

variable {S E : Type*}

/-- Where a path comes: by its length, its start and its moves. -/
def path_order (start : S → ℕ) (place : E → ℕ) (t : S × List E) : ℕ ×ₗ List ℕ :=
  toLex (t.2.length, start t.1 :: t.2.map place)

variable {p : Listed S E} {init : List S} {start : S → ℕ} {place : E → ℕ} {k n : ℕ}
  {s s' : S} {es es' : List E} {e e' : E}

theorem path_order_lt_of_length (h : es.length < es'.length) :
    path_order start place (s, es) < path_order start place (s', es') :=
  Prod.Lex.toLex_lt_toLex.mpr (.inl h)

theorem path_order_lt_iff (hlen : es.length = es'.length) :
    path_order start place (s, es) < path_order start place (s', es') ↔
      start s :: es.map place < start s' :: es'.map place := by
  unfold path_order
  rw [Prod.Lex.toLex_lt_toLex]
  simp only [hlen, lt_irrefl, false_or, true_and]

/-- A path that comes first does so with any move behind it. -/
theorem path_order_concat_lt (hlen : es.length = es'.length)
    (h : path_order start place (s, es) < path_order start place (s', es')) :
    path_order start place (s, es ++ [e]) < path_order start place (s', es' ++ [e']) := by
  rw [path_order_lt_iff hlen] at h
  rw [path_order_lt_iff (by simp [hlen]), List.map_append, List.map_append, ← List.cons_append,
    ← List.cons_append]
  exact append_lt_append _ _ (by simp [hlen]) h

theorem path_order_concat_lt_of_place (h : place e < place e') :
    path_order start place (s, es ++ [e]) < path_order start place (s, es ++ [e']) := by
  rw [path_order_lt_iff (by simp), List.map_append, List.map_append, ← List.cons_append,
    ← List.cons_append]
  exact List.append_left_lt (List.cons_lt_cons_iff.mpr (.inl h))

theorem path_order_eq_imp {t u : S × List E} (h : path_order start place t = path_order start place u) :
    t.2.length = u.2.length ∧ start t.1 :: t.2.map place = start u.1 :: u.2.map place :=
  Prod.mk.inj (toLex.injective h)

/-- The same behind a path that comes no later. -/
theorem path_order_concat_le (hlen : es.length = es'.length)
    (h : path_order start place (s, es) ≤ path_order start place (s', es')) :
    path_order start place (s, es ++ [e]) ≤ path_order start place (s', es' ++ [e]) := by
  rcases h.lt_or_eq with h | h
  · exact le_of_lt (path_order_concat_lt hlen h)
  · have hplaces := (path_order_eq_imp h).2
    apply le_of_eq
    unfold path_order
    rw [List.map_append, List.map_append, ← List.cons_append, ← List.cons_append, hplaces,
      List.length_append, List.length_append, hlen]

/-- Starts and moves are listed by their places. -/
structure Listed.Sorted (p : Listed S E) (init : List S) (start : S → ℕ) (place : E → ℕ) :
    Prop where
  init : init.Pairwise fun s s' => start s < start s'
  moves : ∀ s, (p.moves s).Pairwise fun e e' => place e < place e'

/-- What extends sorted paths of one length is sorted. -/
theorem Listed.Sorted.extend (h : p.Sorted init start place) {ts : List (S × List E)}
    (hlen : ∀ t ∈ ts, t.2.length = k)
    (hts : ts.Pairwise fun t u => path_order start place t < path_order start place u) :
    (ts.flatMap p.extend).Pairwise fun t u => path_order start place t < path_order start place u := by
  rw [List.pairwise_flatMap]
  refine ⟨fun t _ => ?_, ?_⟩
  · unfold Listed.extend
    rw [List.pairwise_map]
    exact (h.moves _).imp path_order_concat_lt_of_place
  · apply hts.imp_of_mem
    intro t u ht hu hlt x hx y hy
    obtain ⟨e, _, rfl⟩ := mem_extend.mp hx
    obtain ⟨e', _, rfl⟩ := mem_extend.mp hy
    exact path_order_concat_lt ((hlen t ht).trans (hlen u hu).symm) hlt

section Fresh

variable {α κ : Type*} [DecidableEq κ] {key : α → κ} {fresh : κ → Bool}

theorem first_fresh_sublist (key : α → κ) (l : List α) :
    ∀ fresh, (first_fresh key fresh l).Sublist l := by
  induction l with
  | nil => exact fun _ => List.Sublist.refl _
  | cons a l ih =>
      intro fresh
      unfold first_fresh
      split
      · exact (ih _).cons_cons a
      · exact (ih _).cons a

/-- What is kept for a key comes no later than what has it. -/
theorem first_fresh_le {ω : Type*} [LinearOrder ω] {order : α → ω} {l : List α} {a : α}
    (hsorted : l.Pairwise fun b c => order b < order c) (ha : a ∈ l)
    (hfresh : fresh (key a) = true) :
    ∃ b ∈ first_fresh key fresh l, key b = key a ∧ order b ≤ order a := by
  induction l generalizing fresh with
  | nil => exact absurd ha List.not_mem_nil
  | cons c l ih =>
      rw [List.pairwise_cons] at hsorted
      rcases List.mem_cons.mp ha with rfl | hmem
      · rw [first_fresh_take hfresh]
        exact ⟨a, List.mem_cons_self, rfl, le_refl _⟩
      · cases hc : fresh (key c) with
        | false =>
            rw [first_fresh_skip hc]
            exact ih hsorted.2 hmem hfresh
        | true =>
            rw [first_fresh_take hc]
            by_cases hkey : key a = key c
            · exact ⟨c, List.mem_cons_self, hkey.symm, le_of_lt (hsorted.1 a hmem)⟩
            · have hstill : Function.update fresh (key c) false (key a) = true := by
                rw [Function.update_of_ne hkey, hfresh]
              obtain ⟨b, hb, hba, hle⟩ := ih hsorted.2 hmem hstill
              exact ⟨b, List.mem_cons_of_mem c hb, hba, hle⟩

end Fresh

/-! ## Rounds -/

section Rounds

variable [DecidableEq S] (h : p.Sorted init start place)
include h

/-- **Step lemma.** A round is sorted. -/
theorem round_sorted (k : ℕ) :
    (p.round init k).Pairwise fun t u => path_order start place t < path_order start place u := by
  induction k with
  | zero =>
      rw [round_zero, List.pairwise_map]
      apply h.init.imp
      intro s s' hlt
      rw [path_order_lt_iff rfl]
      exact List.cons_lt_cons_iff.mpr (.inl hlt)
  | succ k ih =>
      rw [round_succ_eq]
      exact (h.extend (fun t ht => (isEntry_of_mem_round t ht).length_eq) ih).sublist
        (first_fresh_sublist _ _ _)

/-- **Run lemma.** What is listed is sorted. -/
theorem breadth_first_sorted (n : ℕ) :
    (p.breadth_first init n).Pairwise fun t u =>
      path_order start place t < path_order start place u := by
  unfold Listed.breadth_first
  rw [List.pairwise_flatMap]
  refine ⟨fun k _ => ?_, List.pairwise_lt_range.imp fun {j k} hjk t ht u hu => ?_⟩
  · exact (h.extend (fun t ht => (isEntry_of_mem_round t ht).length_eq) (round_sorted h k)).sublist
      List.filter_sublist
  · apply path_order_lt_of_length
    rw [length_of_mem_goal_paths ht, length_of_mem_goal_paths hu]
    omega

/-- **The path that a round keeps comes first**, of all that lead to its state. -/
theorem round_first : ∀ {k : ℕ} {t : S × List E}, p.IsEntry init k t →
    p.leads_to t ∈ p.space.Level {s | s ∈ init} k →
    ∃ u ∈ p.round init k, p.leads_to u = p.leads_to t ∧
      path_order start place u ≤ path_order start place t := by
  intro k
  induction k with
  | zero =>
      rintro ⟨s, es⟩ ht _
      obtain rfl := List.eq_nil_of_length_eq_zero ht.length_eq
      exact ⟨(s, []), List.mem_map.mpr ⟨s, ht.start, rfl⟩, rfl, le_refl _⟩
  | succ k ih =>
      rintro ⟨s, es⟩ ht hlevel
      obtain ⟨fs, e, rfl⟩ := es.eq_nil_or_concat'.resolve_left
        (List.ne_nil_of_length_eq_add_one ht.length_eq)
      have hpath := ht.path
      have hlen := ht.length_eq
      rw [isPath_append] at hpath
      rw [List.length_append, List.length_singleton, Nat.add_right_cancel_iff] at hlen
      have hbefore : p.IsEntry init k (s, fs) := ⟨ht.start, hlen, hpath.1⟩
      have henabled : p.space.enabled (p.leads_to (s, fs)) e := hpath.2.1
      rw [leads_to_extended] at hlevel ⊢
      -- a shorter way to the state before would be one to the state
      have hlevel_before : p.leads_to (s, fs) ∈ p.space.Level {s | s ∈ init} k := by
        cases k with
        | zero => exact reachesIn_zero.mp hbefore.reachesIn
        | succ k =>
            refine ⟨⟨by omega, hbefore.reachesIn⟩, ?_⟩
            rintro j ⟨_, hj⟩
            have hle := hlevel.2 ⟨by omega, Space.ReachesIn.move hj henabled⟩
            omega
      obtain ⟨t, ht_mem, hstate, hle⟩ := ih hbefore hlevel_before
      have hmem : (t.1, t.2 ++ [e]) ∈ (p.round init k).flatMap p.extend := by
        rw [List.mem_flatMap]
        refine ⟨t, ht_mem, mem_extend.mpr ⟨e, ?_, rfl⟩⟩
        rw [hstate]
        exact henabled
      have hfresh : (fun s => decide (s ∉ p.seen init k)) (p.leads_to (t.1, t.2 ++ [e])) = true := by
        rw [decide_eq_true_eq, leads_to_extended, hstate, (round_and_seen k).2]
        rintro ⟨j, hj, hdist⟩
        have heq := hdist.unique hlevel
        omega
      obtain ⟨u, hu, hu_state, hu_le⟩ : ∃ u ∈ p.round init (k + 1),
          p.leads_to u = p.leads_to (t.1, t.2 ++ [e]) ∧
            path_order start place u ≤ path_order start place (t.1, t.2 ++ [e]) := by
        rw [round_succ_eq]
        exact first_fresh_le
          (h.extend (fun t ht => (isEntry_of_mem_round t ht).length_eq) (round_sorted h k)) hmem
          hfresh
      rw [leads_to_extended, hstate] at hu_state
      refine ⟨u, hu, hu_state, hu_le.trans ?_⟩
      exact path_order_concat_le ((isEntry_of_mem_round t ht_mem).length_eq.trans hlen.symm) hle

/-- **What is listed comes first**, of all paths to a goal with the same last
move behind the same state. -/
theorem breadth_first_first (hpath : p.IsEntry init k (s, es)) (hk : k < n)
    (he : e ∈ p.moves (p.leads_to (s, es))) (hgoal : p.goal (p.next (p.leads_to (s, es)) e) = true) :
    ∃ t, (t.1, t.2 ++ [e]) ∈ p.breadth_first init n ∧ p.leads_to t = p.leads_to (s, es) ∧
      path_order start place (t.1, t.2 ++ [e]) ≤ path_order start place (s, es ++ [e]) := by
  have hlisted : ∀ {j}, j < n → ∀ t ∈ p.round init j, p.leads_to t = p.leads_to (s, es) →
      (t.1, t.2 ++ [e]) ∈ p.breadth_first init n := by
    intro j hj t ht hstate
    exact mem_breadth_first.mpr ⟨j, hj, t, ht, e, hstate ▸ he, rfl, hstate ▸ hgoal⟩
  have hlen := hpath.length_eq
  by_cases hlevel : p.leads_to (s, es) ∈ p.space.Level {s | s ∈ init} k
  · obtain ⟨t, ht, hstate, hle⟩ := round_first h hpath hlevel
    exact ⟨t, hlisted hk t ht hstate, hstate,
      path_order_concat_le ((isEntry_of_mem_round t ht).length_eq.trans hlen.symm) hle⟩
  · -- a shorter path leads there
    obtain ⟨d, hd, hdist⟩ : ∃ d < k, p.leads_to (s, es) ∈ p.space.Level {s | s ∈ init} d := by
      cases k with
      | zero => exact absurd (reachesIn_zero.mp hpath.reachesIn) hlevel
      | succ k =>
          obtain ⟨d, hd, hdist⟩ := exists_isDist (Nat.succ_pos k) hpath.reachesIn
          obtain ⟨j, rfl⟩ := Nat.exists_eq_add_of_le' hdist.1.1
          refine ⟨j + 1, ?_, hdist⟩
          by_contra hge
          rw [show j = k by omega] at hdist
          exact hlevel hdist
    obtain ⟨t, ht, hstate⟩ := List.mem_map.mp (mem_round_states.mpr hdist)
    refine ⟨t, hlisted (hd.trans hk) t ht hstate, hstate, le_of_lt (path_order_lt_of_length ?_)⟩
    have hshort := (isEntry_of_mem_round t ht).length_eq
    dsimp only at hlen
    rw [List.length_append, List.length_append, hshort, hlen]
    exact Nat.add_lt_add_right hd 1

end Rounds

/-- **One path for each end**, if no state is at two levels. -/
theorem breadth_first_unique [DecidableEq S] (hinit : init.Nodup)
    (hlevels : ∀ {s j k}, s ∈ p.space.Level {s | s ∈ init} j → s ∈ p.space.Level {s | s ∈ init} k →
      j = k)
    (hmem : (s, es ++ [e]) ∈ p.breadth_first init n)
    (hmem' : (s', es' ++ [e]) ∈ p.breadth_first init n)
    (hstate : p.leads_to (s, es) = p.leads_to (s', es')) : (s, es) = (s', es') := by
  have hentry : ∀ {s es}, (s, es ++ [e]) ∈ p.breadth_first init n →
      ∃ k, (s, es) ∈ p.round init k := by
    intro s es hmem
    obtain ⟨k, _, t, ht, e', _, heq, _⟩ := mem_breadth_first.mp hmem
    rw [Prod.mk.injEq] at heq
    obtain ⟨rfl, heq⟩ := heq
    obtain ⟨rfl, _⟩ := List.append_inj' heq rfl
    exact ⟨k, ht⟩
  obtain ⟨j, hj⟩ := hentry hmem
  obtain ⟨k, hk⟩ := hentry hmem'
  have hlevel := mem_round_states.mp (List.mem_map_of_mem hj)
  have hlevel' := mem_round_states.mp (List.mem_map_of_mem hk)
  rw [← hstate] at hlevel'
  obtain rfl := hlevels hlevel hlevel'
  exact round_unique hinit hj hk hstate

end Paths
