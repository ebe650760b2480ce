/-
Breadth-first search that keeps one path for each state.

Entries are paths, a start state and the moves made from it. A round extends
the entries of the round before by every move, in order, and keeps what leads
to a state that has not been seen, each state at its first place. So the
entries of round `k` lead to the states of level `k`, one to each, and they
are the shortest paths a queue would find. A start state counts as seen only
when it is reached again.

`first_fresh` is what a round does to a list. It is stated for any key, as a
search in another order that asks a table keeps its paths by the same rule.
-/
import LetterBoxed.Lib.BoundedSearch

set_option autoImplicit false

namespace Paths

/-! ## The first of each key -/

section Fresh

variable {α β κ : Type*} [DecidableEq κ]

/-- The elements with a fresh key, of equal keys the first. -/
def first_fresh (key : α → κ) : (κ → Bool) → List α → List α
  | _, [] => []
  | fresh, a :: l =>
    if fresh (key a) then a :: first_fresh key (Function.update fresh (key a) false) l
    else first_fresh key fresh l

variable {key : α → κ} {fresh fresh' : κ → Bool} {a : α} {l : List α}

@[simp] theorem first_fresh_nil : first_fresh key fresh [] = [] := rfl

theorem first_fresh_take (h : fresh (key a) = true) :
    first_fresh key fresh (a :: l) =
      a :: first_fresh key (Function.update fresh (key a) false) l := by
  rw [first_fresh, if_pos h]

theorem first_fresh_skip (h : fresh (key a) = false) :
    first_fresh key fresh (a :: l) = first_fresh key fresh l := by
  rw [first_fresh, if_neg (by simp [h])]

/-- Only the keys that occur matter. -/
theorem first_fresh_congr (h : ∀ a ∈ l, fresh (key a) = fresh' (key a)) :
    first_fresh key fresh l = first_fresh key fresh' l := by
  induction l generalizing fresh fresh' with
  | nil => rfl
  | cons a l ih =>
      rw [List.forall_mem_cons] at h
      obtain ⟨ha, hl⟩ := h
      cases hfresh : fresh (key a) with
      | false => rw [first_fresh_skip hfresh, first_fresh_skip (ha ▸ hfresh), ih hl]
      | true =>
          rw [first_fresh_take hfresh, first_fresh_take (ha ▸ hfresh)]
          congr 1
          apply ih
          intro b hb
          by_cases hkey : key b = key a
          · simp [hkey]
          · simp [Function.update_of_ne hkey, hl b hb]

/-- **What is kept**: every fresh key that occurs. -/
theorem mem_first_fresh_keys {k : κ} :
    k ∈ (first_fresh key fresh l).map key ↔ fresh k = true ∧ k ∈ l.map key := by
  induction l generalizing fresh with
  | nil => simp
  | cons a l ih =>
      cases hfresh : fresh (key a) with
      | false =>
          rw [first_fresh_skip hfresh, ih, List.map_cons, List.mem_cons]
          constructor
          · exact fun ⟨hk, hmem⟩ => ⟨hk, .inr hmem⟩
          · rintro ⟨hk, rfl | hmem⟩
            · rw [hfresh] at hk
              cases hk
            · exact ⟨hk, hmem⟩
      | true =>
          rw [first_fresh_take hfresh, List.map_cons, List.mem_cons, ih, List.map_cons,
            List.mem_cons]
          by_cases hkey : k = key a
          · simp [hkey, hfresh]
          · simp [hkey]

/-- **Each key is kept once.** -/
theorem first_fresh_nodup : ((first_fresh key fresh l).map key).Nodup := by
  induction l generalizing fresh with
  | nil => exact .nil
  | cons a l ih =>
      cases hfresh : fresh (key a) with
      | false =>
          rw [first_fresh_skip hfresh]
          exact ih
      | true =>
          rw [first_fresh_take hfresh, List.map_cons, List.nodup_cons]
          refine ⟨fun hmem => ?_, ih⟩
          have hstale := (mem_first_fresh_keys.mp hmem).1
          simp at hstale

theorem first_fresh_subset : first_fresh key fresh l ⊆ l := by
  induction l generalizing fresh with
  | nil => exact List.Subset.refl _
  | cons a l ih =>
      cases hfresh : fresh (key a) with
      | false =>
          rw [first_fresh_skip hfresh]
          exact List.subset_cons_of_subset a ih
      | true =>
          rw [first_fresh_take hfresh]
          exact List.cons_subset_cons a ih

/-- The second list is filtered by what is still fresh behind the first. -/
theorem first_fresh_append {l₁ l₂ : List α}
    (h : ∀ a ∈ l₂, fresh' (key a) = true ↔
      fresh (key a) = true ∧ key a ∉ (first_fresh key fresh l₁).map key) :
    first_fresh key fresh (l₁ ++ l₂) = first_fresh key fresh l₁ ++ first_fresh key fresh' l₂ := by
  induction l₁ generalizing fresh with
  | nil =>
      apply first_fresh_congr
      intro a ha
      rw [Bool.eq_iff_iff, h a ha]
      simp
  | cons a l₁ ih =>
      rw [List.cons_append]
      cases hfresh : fresh (key a) with
      | false =>
          rw [first_fresh_skip hfresh] at h ⊢
          rw [first_fresh_skip hfresh, ih h]
      | true =>
          rw [first_fresh_take hfresh] at h ⊢
          rw [first_fresh_take hfresh, List.cons_append, ih]
          intro b hb
          rw [h b hb, List.map_cons, List.mem_cons, not_or]
          by_cases hkey : key b = key a
          · simp [hkey]
          · simp [hkey]

theorem first_fresh_map (f : β → α) (l : List β) :
    first_fresh key fresh (l.map f) = (first_fresh (fun b => key (f b)) fresh l).map f := by
  induction l generalizing fresh with
  | nil => rfl
  | cons b l ih =>
      rw [List.map_cons, first_fresh, first_fresh, ih, ih]
      split_ifs <;> rfl

/-- Keys that agree on the list. -/
theorem first_fresh_key_congr {key' : α → κ} (h : ∀ a ∈ l, key a = key' a) :
    first_fresh key fresh l = first_fresh key' fresh l := by
  induction l generalizing fresh with
  | nil => rfl
  | cons a l ih =>
      rw [List.forall_mem_cons] at h
      rw [first_fresh, first_fresh, h.1, ih h.2, ih h.2]

end Fresh

/-! ## Rounds -/

section Rounds

variable {S E : Type*}

/-- Where a path leads. -/
def Listed.leads_to (p : Listed S E) (t : S × List E) : S := p.space.run t.1 t.2

/-- The path with each of the moves behind it. -/
def Listed.extend (p : Listed S E) (t : S × List E) : List (S × List E) :=
  (p.moves (p.leads_to t)).map fun e => (t.1, t.2 ++ [e])

variable {p : Listed S E} {init : List S}

@[simp] theorem leads_to_extended (s : S) (es : List E) (e : E) :
    p.leads_to (s, es ++ [e]) = p.next (p.leads_to (s, es)) e := by
  unfold Listed.leads_to
  rw [run_append]
  rfl

theorem mem_extend {t u : S × List E} :
    u ∈ p.extend t ↔ ∃ e ∈ p.moves (p.leads_to t), u = (t.1, t.2 ++ [e]) := by
  unfold Listed.extend
  rw [List.mem_map]
  exact exists_congr fun e => and_congr_right fun _ => eq_comm

/-- An entry of round `k` is a path of `k` moves from a start state. -/
structure Listed.IsEntry (p : Listed S E) (init : List S) (k : ℕ) (t : S × List E) : Prop where
  start : t.1 ∈ init
  length_eq : t.2.length = k
  path : p.space.IsPath t.1 t.2

theorem Listed.IsEntry.extended {k : ℕ} {t u : S × List E} (h : p.IsEntry init k t)
    (hu : u ∈ p.extend t) : p.IsEntry init (k + 1) u := by
  obtain ⟨e, he, rfl⟩ := mem_extend.mp hu
  refine ⟨h.start, by simp [h.length_eq], ?_⟩
  rw [isPath_append]
  exact ⟨h.path, he, trivial⟩

theorem Listed.IsEntry.reachesIn {k : ℕ} {t : S × List E} (h : p.IsEntry init k t) :
    p.space.ReachesIn {s | s ∈ init} k (p.leads_to t) :=
  ⟨t.1, h.start, t.2, h.length_eq, h.path, rfl⟩

variable [DecidableEq S]

/-- The entries of round `k`, and the states seen up to it. -/
def Listed.rounds (p : Listed S E) (init : List S) : ℕ → List (S × List E) × List S
  | 0 => (init.map fun s => (s, []), [])
  | k + 1 =>
    let entries := first_fresh p.leads_to (fun s => decide (s ∉ (p.rounds init k).2))
      ((p.rounds init k).1.flatMap p.extend)
    (entries, (p.rounds init k).2 ++ entries.map p.leads_to)

def Listed.round (p : Listed S E) (init : List S) (k : ℕ) : List (S × List E) :=
  (p.rounds init k).1

def Listed.seen (p : Listed S E) (init : List S) (k : ℕ) : List S := (p.rounds init k).2

/-- The paths to a goal by one move behind an entry of round `k`. -/
def Listed.goal_paths (p : Listed S E) (init : List S) (k : ℕ) : List (S × List E) :=
  ((p.round init k).flatMap p.extend).filter fun t => p.goal (p.leads_to t)

/-- The paths to a goal of at most `n` moves, in the order in which a queue
would meet them. -/
def Listed.breadth_first (p : Listed S E) (init : List S) (n : ℕ) : List (S × List E) :=
  (List.range n).flatMap (p.goal_paths init)

theorem round_zero : p.round init 0 = init.map fun s => (s, []) := rfl

theorem round_succ_eq (k : ℕ) :
    p.round init (k + 1) = first_fresh p.leads_to (fun s => decide (s ∉ p.seen init k))
      ((p.round init k).flatMap p.extend) := rfl

theorem mem_seen_succ {k : ℕ} {s : S} :
    s ∈ p.seen init (k + 1) ↔ s ∈ p.seen init k ∨ s ∈ (p.round init (k + 1)).map p.leads_to :=
  List.mem_append

theorem isEntry_of_mem_round {k : ℕ} : ∀ t ∈ p.round init k, p.IsEntry init k t := by
  induction k with
  | zero =>
      intro t ht
      rw [round_zero, List.mem_map] at ht
      obtain ⟨s, hs, rfl⟩ := ht
      exact ⟨hs, rfl, trivial⟩
  | succ k ih =>
      intro u hu
      rw [round_succ_eq] at hu
      obtain ⟨t, ht, hut⟩ := List.mem_flatMap.mp (first_fresh_subset hu)
      exact (ih t ht).extended hut

/-- The states that a round meets. -/
theorem mem_extended_states {k : ℕ} {s : S} :
    s ∈ ((p.round init k).flatMap p.extend).map p.leads_to ↔
      ∃ t ∈ p.round init k, ∃ e, p.space.enabled (p.leads_to t) e ∧
        p.next (p.leads_to t) e = s := by
  simp only [List.mem_map, List.mem_flatMap, mem_extend]
  constructor
  · rintro ⟨u, ⟨t, ht, e, he, rfl⟩, rfl⟩
    exact ⟨t, ht, e, he, (leads_to_extended t.1 t.2 e).symm⟩
  · rintro ⟨t, ht, e, he, rfl⟩
    exact ⟨(t.1, t.2 ++ [e]), ⟨t, ht, e, he, rfl⟩, leads_to_extended t.1 t.2 e⟩

/-- The entries of a round lead to the states of the level, and what was seen
is what is at a distance up to the round. -/
theorem round_and_seen (k : ℕ) :
    (∀ s, s ∈ (p.round init k).map p.leads_to ↔ s ∈ p.space.Level {s | s ∈ init} k) ∧
      ∀ s, s ∈ p.seen init k ↔ ∃ j, j ≤ k ∧ p.space.IsDist {s | s ∈ init} j s := by
  induction k with
  | zero =>
      refine ⟨fun s => ?_, fun s => ?_⟩
      · rw [round_zero, List.map_map]
        simp [Listed.leads_to, Space.Level]
      · constructor
        · exact fun h => absurd h List.not_mem_nil
        · rintro ⟨j, hj, hdist⟩
          have hpos := hdist.1.1
          omega
  | succ k ih =>
      obtain ⟨hround, hseen⟩ := ih
      have hnew : ∀ s, s ∈ (p.round init (k + 1)).map p.leads_to ↔
          p.space.IsDist {s | s ∈ init} (k + 1) s := by
        intro s
        rw [round_succ_eq, mem_first_fresh_keys, decide_eq_true_eq, hseen, mem_extended_states]
        constructor
        · rintro ⟨hnone, t, ht, e, he, rfl⟩
          have hreach := Space.ReachesIn.move (isEntry_of_mem_round t ht).reachesIn he
          obtain ⟨d, hd, hdist⟩ := exists_isDist (Nat.succ_pos k) hreach
          -- a smaller distance would have been seen
          have hlast : d = k + 1 := by
            by_contra hne
            exact hnone ⟨d, by omega, hdist⟩
          rw [← hlast]
          exact hdist
        · intro hdist
          refine ⟨?_, ?_⟩
          · rintro ⟨j, hj, hdist'⟩
            have heq := hdist.unique hdist'
            omega
          · obtain ⟨t, e, ht, he, rfl⟩ := hdist.exists_level
            obtain ⟨u, hu, rfl⟩ := List.mem_map.mp ((hround t).mpr ht)
            exact ⟨u, hu, e, he, rfl⟩
      refine ⟨hnew, fun s => ?_⟩
      rw [mem_seen_succ, hseen, hnew]
      constructor
      · rintro (⟨j, hj, hdist⟩ | hdist)
        · exact ⟨j, by omega, hdist⟩
        · exact ⟨k + 1, Nat.le_refl _, hdist⟩
      · rintro ⟨j, hj, hdist⟩
        by_cases hlast : j = k + 1
        · exact .inr (hlast ▸ hdist)
        · exact .inl ⟨j, by omega, hdist⟩

/-- **Rounds are levels.** -/
theorem mem_round_states {k : ℕ} {s : S} :
    s ∈ (p.round init k).map p.leads_to ↔ s ∈ p.space.Level {s | s ∈ init} k :=
  (round_and_seen k).1 s

/-- **One entry leads to each state.** -/
theorem round_nodup (hinit : init.Nodup) (k : ℕ) :
    ((p.round init k).map p.leads_to).Nodup := by
  cases k with
  | zero =>
      rw [round_zero, List.map_map]
      have hid : (p.leads_to ∘ fun s => (s, ([] : List E))) = id := rfl
      rw [hid, List.map_id]
      exact hinit
  | succ k => exact first_fresh_nodup

/-- A round keeps of what it meets the states at its distance. -/
theorem round_succ (k : ℕ) {isDist : S → Bool}
    (hisDist : ∀ s, isDist s = true ↔ p.space.IsDist {s | s ∈ init} (k + 1) s) :
    p.round init (k + 1) =
      first_fresh p.leads_to isDist ((p.round init k).flatMap p.extend) := by
  rw [round_succ_eq]
  apply first_fresh_congr
  intro u hu
  have hmet : p.leads_to u ∈ ((p.round init k).flatMap p.extend).map p.leads_to :=
    List.mem_map_of_mem hu
  have hround : p.leads_to u ∈ (p.round init (k + 1)).map p.leads_to ↔ _ := mem_round_states
  rw [round_succ_eq, mem_first_fresh_keys, and_iff_left hmet] at hround
  rw [Bool.eq_iff_iff, hround, hisDist]
  rfl

/-- Two entries of a round that lead to one state are the same. -/
theorem round_unique (hinit : init.Nodup) {k : ℕ} {t u : S × List E} (ht : t ∈ p.round init k)
    (hu : u ∈ p.round init k) (h : p.leads_to t = p.leads_to u) : t = u :=
  List.inj_on_of_nodup_map (round_nodup hinit k) ht hu h

/-- **What is listed**: a move into a goal behind an entry. -/
theorem mem_breadth_first {n : ℕ} {u : S × List E} :
    u ∈ p.breadth_first init n ↔ ∃ k < n, ∃ t ∈ p.round init k, ∃ e ∈ p.moves (p.leads_to t),
      u = (t.1, t.2 ++ [e]) ∧ p.goal (p.next (p.leads_to t) e) = true := by
  simp only [Listed.breadth_first, Listed.goal_paths, List.mem_flatMap, List.mem_range,
    List.mem_filter, mem_extend]
  constructor
  · rintro ⟨k, hk, ⟨t, ht, e, he, rfl⟩, hgoal⟩
    rw [leads_to_extended] at hgoal
    exact ⟨k, hk, t, ht, e, he, rfl, hgoal⟩
  · rintro ⟨k, hk, t, ht, e, he, rfl, hgoal⟩
    refine ⟨k, hk, ⟨t, ht, e, he, rfl⟩, ?_⟩
    rw [leads_to_extended]
    exact hgoal

theorem length_of_mem_goal_paths {k : ℕ} {u : S × List E} (h : u ∈ p.goal_paths init k) :
    u.2.length = k + 1 := by
  obtain ⟨t, ht, hut⟩ := List.mem_flatMap.mp (List.mem_filter.mp h).1
  exact ((isEntry_of_mem_round t ht).extended hut).length_eq

theorem length_le_of_mem_breadth_first {n : ℕ} {u : S × List E}
    (h : u ∈ p.breadth_first init n) : u.2.length ≤ n := by
  obtain ⟨k, hk, hu⟩ := List.mem_flatMap.mp h
  rw [length_of_mem_goal_paths hu]
  exact List.mem_range.mp hk

/-- More rounds come behind. -/
theorem breadth_first_add (n d : ℕ) :
    p.breadth_first init (n + d) =
      p.breadth_first init n ++ (List.range d).flatMap fun k => p.goal_paths init (n + k) := by
  unfold Listed.breadth_first
  rw [List.range_add, List.flatMap_append, List.flatMap_map]

end Rounds

end Paths
