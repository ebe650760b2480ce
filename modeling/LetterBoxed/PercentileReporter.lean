/-
`percentile_reporter.hpp`: the times of the benchmark runs by family and group.

A benchmark is named by its family, its group and its input, with slashes
between them. The reporter keeps a row of times for each name up to its last
slash, and in the end it sorts a row and reads its least, its greatest and
three percentiles. Times are elements of a linear order. The index of a
percentile is taken in exact arithmetic, where the source multiplies doubles,
and the mean, a sum of doubles, is left out.
-/
import LetterBoxed.Bench

set_option autoImplicit false

namespace LetterBoxed

/-- What the reporter reads of a run. -/
structure benchmark_run (α : Type) where
  is_iteration : Bool
  skipped : Bool
  benchmark_name : List UInt8
  adjusted_real_time : α

/-- `name.substr(0, name.rfind('/'))`: all of a name without a slash. -/
def before_last_slash (name : List UInt8) : List UInt8 :=
  if 47 ∈ name then ((name.reverse.dropWhile (· != 47)).drop 1).reverse else name

section Rows

variable {α : Type}

/-- `samples_of(name).push_back(time)`: the first row with the name, or a new
one behind the others, gets the time. -/
def push_sample (name : List UInt8) (time : α) :
    List (List UInt8 × List α) → List (List UInt8 × List α)
  | [] => [(name, [time])]
  | row :: rows =>
    if row.1 = name then (row.1, row.2 ++ [time]) :: rows else row :: push_sample name time rows

/-- One turn of the loop of `ReportRuns`. -/
def report_run (rows : List (List UInt8 × List α)) (run : benchmark_run α) :
    List (List UInt8 × List α) :=
  if !run.is_iteration || run.skipped then rows
  else push_sample (before_last_slash run.benchmark_name) run.adjusted_real_time rows

/-- The rows when all runs have been reported. -/
def report_runs (runs : List (benchmark_run α)) : List (List UInt8 × List α) :=
  runs.foldl report_run []

end Rows

section Finalize

variable {α : Type} [LinearOrder α]

/-- A line of the table, without the mean. -/
structure report_line (α : Type) where
  name : List UInt8
  size : Nat
  min : α
  p50 : α
  p90 : α
  p99 : α
  max : α

/-- `samples[p * (samples.size() - 1)]` for `p` in hundredths. -/
def percentile (samples : List α) (p : Nat) : Option α :=
  samples[p * size_sub samples.length 1 / 100]?

/-- What `Finalize` prints of a row; nothing if it reads a sample that is not
there. -/
def finalize_row (row : List UInt8 × List α) : Option (report_line α) := do
  let samples := row.2.mergeSort fun a b => decide (a ≤ b)
  let front ← samples.head?
  let p50 ← percentile samples 50
  let p90 ← percentile samples 90
  let p99 ← percentile samples 99
  let back ← samples.getLast?
  return { name := row.1, size := samples.length, min := front, p50 := p50, p90 := p90, p99 := p99,
           max := back }

def finalize (rows : List (List UInt8 × List α)) : Option (List (report_line α)) :=
  rows.mapM finalize_row

end Finalize

/-! ## The rows -/

section Rows

variable {α : Type} {rows : List (List UInt8 × List α)} {runs : List (benchmark_run α)}

/-- The reporter does not pass over the run. -/
def benchmark_run.counts (run : benchmark_run α) : Bool := run.is_iteration && !run.skipped

/-- The times that are reported, each with the name of its row. -/
def reported (runs : List (benchmark_run α)) : List (List UInt8 × α) :=
  (runs.filter benchmark_run.counts).map fun run =>
    (before_last_slash run.benchmark_name, run.adjusted_real_time)

/-- The times reported for a row, in their order. -/
def times_of (runs : List (benchmark_run α)) (name : List UInt8) : List α :=
  ((reported runs).filter fun sample => sample.1 = name).map Prod.snd

/-- Where a time goes. -/
theorem push_sample_eq (name : List UInt8) (time : α) (hnodup : (rows.map Prod.fst).Nodup) :
    push_sample name time rows =
      if name ∈ rows.map Prod.fst then
        rows.map fun row => if row.1 = name then (row.1, row.2 ++ [time]) else row
      else rows ++ [(name, [time])] := by
  induction rows with
  | nil => rfl
  | cons row rows ih =>
      rw [List.map_cons, List.nodup_cons] at hnodup
      rw [push_sample, List.map_cons]
      by_cases hrow : row.1 = name
      · -- no other row has the name
        have hrest : rows.map (fun row => if row.1 = name then (row.1, row.2 ++ [time]) else row) =
            rows := by
          conv_rhs => rw [← List.map_id rows]
          apply List.map_congr_left
          intro other hother
          rw [if_neg, id]
          rintro rfl
          exact hnodup.1 (hrow ▸ List.mem_map_of_mem hother)
        rw [if_pos hrow, if_pos (hrow ▸ List.mem_cons_self), List.map_cons, if_pos hrow, hrest]
      · have hmem : name ∈ row.1 :: rows.map Prod.fst ↔ name ∈ rows.map Prod.fst := by
          rw [List.mem_cons]
          exact or_iff_right fun heq => hrow heq.symm
        rw [if_neg hrow, ih hnodup.2]
        by_cases hname : name ∈ rows.map Prod.fst
        · rw [if_pos hname, if_pos (hmem.mpr hname), List.map_cons, if_neg hrow]
        · rw [if_neg hname, if_neg (mt hmem.mp hname), List.cons_append]

/-- The rows hold the runs: a row for each name, in the order in which the names
come first, with the times reported for it. -/
structure Rows (runs : List (benchmark_run α)) (rows : List (List UInt8 × List α)) : Prop where
  nodup : (rows.map Prod.fst).Nodup
  names : rows.map Prod.fst = ((reported runs).map Prod.fst).eraseDups
  times : ∀ row ∈ rows, row.2 = times_of runs row.1

/-- **Step lemma.** -/
theorem Rows.report_run (h : Rows runs rows) (run : benchmark_run α) :
    Rows (runs ++ [run]) (report_run rows run) := by
  have hskip : (!run.is_iteration || run.skipped) = !run.counts := by
    unfold benchmark_run.counts
    rw [Bool.not_and, Bool.not_not]
  unfold LetterBoxed.report_run
  rw [hskip]
  by_cases hcounts : run.counts = false
  · -- nothing is reported
    have hsame : reported (runs ++ [run]) = reported runs := by
      unfold reported
      rw [List.filter_append, List.filter_cons_of_neg (by simp [hcounts]), List.filter_nil,
        List.append_nil]
    rw [if_pos (by simp [hcounts])]
    refine ⟨h.nodup, ?_, fun row hrow => ?_⟩
    · rw [hsame]
      exact h.names
    · unfold times_of
      rw [hsame]
      exact h.times row hrow
  · rw [Bool.not_eq_false] at hcounts
    have hmore : reported (runs ++ [run]) =
        reported runs ++ [(before_last_slash run.benchmark_name, run.adjusted_real_time)] := by
      unfold reported
      rw [List.filter_append, List.filter_cons_of_pos hcounts, List.filter_nil, List.map_append]
      rfl
    rw [if_neg (by simp [hcounts])]
    generalize before_last_slash run.benchmark_name = name at hmore
    generalize run.adjusted_real_time = time at hmore
    have hmem : name ∈ rows.map Prod.fst ↔ name ∈ (reported runs).map Prod.fst := by
      rw [h.names, List.mem_eraseDups]
    -- its time comes behind those of its row, and behind no others
    have htimes : ∀ other, times_of (runs ++ [run]) other =
        times_of runs other ++ if name = other then [time] else [] := by
      intro other
      unfold times_of
      rw [hmore, List.filter_append, List.map_append]
      congr 1
      by_cases heq : name = other
      · rw [if_pos heq, List.filter_cons_of_pos (by simpa using heq)]
        rfl
      · rw [if_neg heq, List.filter_cons_of_neg (by simpa using heq)]
        rfl
    rw [push_sample_eq name time h.nodup]
    by_cases hname : name ∈ rows.map Prod.fst
    · have hkept : (rows.map fun row =>
          if row.1 = name then (row.1, row.2 ++ [time]) else row).map Prod.fst =
          rows.map Prod.fst := by
        rw [List.map_map]
        apply List.map_congr_left
        intro row _
        rw [Function.comp_apply]
        split_ifs <;> rfl
      rw [if_pos hname]
      refine ⟨by rw [hkept]; exact h.nodup, ?_, fun row hrow => ?_⟩
      · have hold : [name].removeAll ((reported runs).map Prod.fst) = [] := by
          simp [List.removeAll, hmem.mp hname]
        rw [hkept, hmore, List.map_append, List.map_singleton, List.eraseDups_append, hold,
          List.eraseDups_nil, List.append_nil]
        exact h.names
      · obtain ⟨old, hold, rfl⟩ := List.mem_map.mp hrow
        have hsamples := h.times old hold
        by_cases heq : old.1 = name
        · rw [if_pos heq]
          dsimp only
          rw [htimes, if_pos heq.symm, hsamples]
        · rw [if_neg heq, htimes, if_neg (Ne.symm heq), List.append_nil]
          exact hsamples
    · rw [if_neg hname]
      refine ⟨?_, ?_, fun row hrow => ?_⟩
      · rw [List.map_append, List.nodup_append]
        refine ⟨h.nodup, List.nodup_singleton _, fun other hother _ hlast => ?_⟩
        rw [List.map_singleton, List.mem_singleton] at hlast
        rintro rfl
        rw [hlast] at hother
        exact hname hother
      · have hnew : [name].removeAll ((reported runs).map Prod.fst) = [name] := by
          simp [List.removeAll, mt hmem.mpr hname]
        rw [List.map_append, h.names, hmore, List.map_append, List.map_singleton,
          List.map_singleton, List.eraseDups_append, hnew]
        rfl
      · rw [List.mem_append, List.mem_singleton] at hrow
        rcases hrow with hrow | rfl
        · have hne : name ≠ row.1 := fun heq => hname (heq ▸ List.mem_map_of_mem hrow)
          rw [htimes, if_neg hne, List.append_nil]
          exact h.times row hrow
        · -- nothing was reported for a new row
          have hnone : times_of runs name = [] := by
            unfold times_of
            rw [List.map_eq_nil_iff, List.filter_eq_nil_iff]
            intro sample hsample heq
            rw [decide_eq_true_eq] at heq
            exact mt hmem.mpr hname (heq ▸ List.mem_map_of_mem hsample)
          rw [htimes, if_pos rfl, hnone]
          rfl

/-- **Run lemma.** -/
theorem rows_report_runs (runs : List (benchmark_run α)) : Rows runs (report_runs runs) := by
  unfold report_runs
  induction runs using List.reverseRecOn with
  | nil => exact ⟨.nil, rfl, fun row hrow => absurd hrow List.not_mem_nil⟩
  | append_singleton runs run ih =>
      rw [List.foldl_append]
      exact ih.report_run run

/-- A row has a time. -/
theorem times_of_ne_nil {name : List UInt8} (h : name ∈ (reported runs).map Prod.fst) :
    times_of runs name ≠ [] := by
  obtain ⟨sample, hsample, rfl⟩ := List.mem_map.mp h
  unfold times_of
  intro hnil
  rw [List.map_eq_nil_iff, List.filter_eq_nil_iff] at hnil
  exact hnil sample hsample (decide_eq_true rfl)

end Rows

/-! ## The table -/

section Finalize

variable {α : Type} [LinearOrder α] {s samples : List α} {i j : Nat}

/-- At a place of a sorted list, what is before it is no greater. -/
theorem lt_countP_le (hs : s.Pairwise (· ≤ ·)) (hi : i < s.length) :
    i < s.countP fun t => t ≤ s[i] := by
  have hfront : (s.take (i + 1)).countP (fun t => decide (t ≤ s[i])) = i + 1 := by
    rw [List.countP_eq_length.mpr, List.length_take_of_le hi]
    intro t ht
    obtain ⟨j, hj, rfl⟩ := List.getElem_of_mem ht
    rw [List.length_take_of_le hi] at hj
    rw [List.getElem_take, decide_eq_true_eq]
    rcases Nat.lt_or_eq_of_le (Nat.le_of_lt_succ hj) with hlt | rfl
    · exact List.pairwise_iff_getElem.mp hs j i (by omega) hi hlt
    · exact le_refl _
  have hsub := (List.take_sublist (i + 1) s).countP_le (p := fun t => decide (t ≤ s[i]))
  omega

/-- What is behind it is no less. -/
theorem sub_le_countP_ge (hs : s.Pairwise (· ≤ ·)) (hi : i < s.length) :
    s.length - i ≤ s.countP fun t => s[i] ≤ t := by
  have hback : (s.drop i).countP (fun t => decide (s[i] ≤ t)) = s.length - i := by
    rw [List.countP_eq_length.mpr, List.length_drop]
    intro t ht
    obtain ⟨j, hj, rfl⟩ := List.getElem_of_mem ht
    rw [List.length_drop] at hj
    rw [List.getElem_drop, decide_eq_true_eq]
    rcases Nat.eq_zero_or_pos j with rfl | hpos
    · exact le_refl _
    · exact List.pairwise_iff_getElem.mp hs i (i + j) hi (by omega) (by omega)
  have hsub := (List.drop_sublist i s).countP_le (p := fun t => decide (s[i] ≤ t))
  omega

/-- `t` is a sample with at least `p` hundredths of the others on its one side,
rounded down, and the rest on the other. -/
structure IsPercentile (samples : List α) (p : Nat) (t : α) : Prop where
  mem : t ∈ samples
  le : p * (samples.length - 1) / 100 < samples.countP fun u => u ≤ t
  ge : samples.length - p * (samples.length - 1) / 100 ≤ samples.countP fun u => t ≤ u

/-- The line is about the samples. -/
structure Summarises (samples : List α) (line : report_line α) : Prop where
  size_eq : line.size = samples.length
  least : IsLeast {t | t ∈ samples} line.min
  p50 : IsPercentile samples 50 line.p50
  p90 : IsPercentile samples 90 line.p90
  p99 : IsPercentile samples 99 line.p99
  greatest : IsGreatest {t | t ∈ samples} line.max
  ordered : line.p50 ≤ line.p90 ∧ line.p90 ≤ line.p99

omit [LinearOrder α] in
/-- A percentile is the sample at its place, which is there. -/
theorem percentile_eq {p : Nat} (hp : p ≤ 100) (hne : s ≠ []) :
    ∃ h : p * (s.length - 1) / 100 < s.length,
      percentile s p = some s[p * (s.length - 1) / 100] := by
  have hpos := List.length_pos_iff.mpr hne
  have hle : p * (s.length - 1) / 100 ≤ s.length - 1 := by
    apply Nat.div_le_of_le_mul
    exact Nat.mul_le_mul_right _ hp
  have hlt : p * (s.length - 1) / 100 < s.length := by omega
  refine ⟨hlt, ?_⟩
  unfold percentile
  rw [size_sub_le hpos, List.getElem?_eq_getElem hlt]

theorem isPercentile_getElem {p : Nat} (hperm : s.Perm samples) (hs : s.Pairwise (· ≤ ·))
    (h : p * (s.length - 1) / 100 < s.length) :
    IsPercentile samples p s[p * (s.length - 1) / 100] := by
  refine ⟨hperm.mem_iff.mp (List.getElem_mem h), ?_, ?_⟩
  · rw [← hperm.countP_eq, ← hperm.length_eq]
    exact lt_countP_le hs h
  · rw [← hperm.countP_eq, ← hperm.length_eq]
    exact sub_le_countP_ge hs h

/-- **A row with samples has a line**, which is about them. -/
theorem finalize_row_eq (row : List UInt8 × List α) (hne : row.2 ≠ []) :
    ∃ line, finalize_row row = some line ∧ line.name = row.1 ∧ Summarises row.2 line := by
  unfold finalize_row
  have hperm := row.2.mergeSort_perm fun a b => decide (a ≤ b)
  have hsorted : (row.2.mergeSort fun a b => decide (a ≤ b)).Pairwise (· ≤ ·) := by
    have htrans : ∀ a b c : α, decide (a ≤ b) = true → decide (b ≤ c) = true →
        decide (a ≤ c) = true := by
      intro a b c hab hbc
      exact decide_eq_true (le_trans (of_decide_eq_true hab) (of_decide_eq_true hbc))
    have htotal : ∀ a b : α, (decide (a ≤ b) || decide (b ≤ a)) = true := by
      intro a b
      rw [Bool.or_eq_true, decide_eq_true_eq, decide_eq_true_eq]
      exact le_total a b
    exact (List.pairwise_mergeSort htrans htotal row.2).imp of_decide_eq_true
  generalize (row.2.mergeSort fun a b => decide (a ≤ b)) = s at hperm hsorted
  have hs : s ≠ [] := by
    rintro rfl
    exact hne hperm.symm.eq_nil
  obtain ⟨h50, hp50⟩ := percentile_eq (s := s) (p := 50) (by omega) hs
  obtain ⟨h90, hp90⟩ := percentile_eq (s := s) (p := 90) (by omega) hs
  obtain ⟨h99, hp99⟩ := percentile_eq (s := s) (p := 99) (by omega) hs
  have hmono : ∀ {i j} (hi : i < s.length) (hj : j < s.length), i ≤ j → s[i] ≤ s[j] := by
    intro i j hi hj hij
    rcases Nat.lt_or_eq_of_le hij with hlt | rfl
    · exact List.pairwise_iff_getElem.mp hsorted i j hi hj hlt
    · exact le_refl _
  have hpos := List.length_pos_iff.mpr hs
  dsimp only
  rw [hp50, hp90, hp99, List.head?_eq_getElem?, List.getLast?_eq_getElem?,
    List.getElem?_eq_getElem hpos, List.getElem?_eq_getElem (Nat.sub_one_lt_of_lt hpos)]
  refine ⟨_, rfl, rfl, hperm.length_eq, ⟨?_, ?_⟩, isPercentile_getElem hperm hsorted h50,
    isPercentile_getElem hperm hsorted h90, isPercentile_getElem hperm hsorted h99, ⟨?_, ?_⟩, ?_, ?_⟩
  · exact hperm.mem_iff.mp (List.getElem_mem hpos)
  · intro t ht
    obtain ⟨i, hi, rfl⟩ := List.getElem_of_mem (hperm.mem_iff.mpr ht)
    exact hmono hpos hi (Nat.zero_le i)
  · exact hperm.mem_iff.mp (List.getElem_mem _)
  · intro t ht
    obtain ⟨i, hi, rfl⟩ := List.getElem_of_mem (hperm.mem_iff.mpr ht)
    exact hmono hi _ (by omega)
  · exact hmono _ _ (Nat.div_le_div_right (Nat.mul_le_mul_right _ (by omega)))
  · exact hmono _ _ (Nat.div_le_div_right (Nat.mul_le_mul_right _ (by omega)))

/-- The table of the rows. -/
theorem finalize_eq (rows : List (List UInt8 × List α)) (hne : ∀ row ∈ rows, row.2 ≠ []) :
    ∃ lines, finalize rows = some lines ∧
      List.Forall₂ (fun row line => line.name = row.1 ∧ Summarises row.2 line) rows lines := by
  unfold finalize
  induction rows with
  | nil => exact ⟨[], rfl, .nil⟩
  | cons row rows ih =>
      rw [List.forall_mem_cons] at hne
      obtain ⟨line, hline, hrow⟩ := finalize_row_eq row hne.1
      obtain ⟨lines, hlines, hrows⟩ := ih hne.2
      refine ⟨line :: lines, ?_, .cons hrow hrows⟩
      rw [List.mapM_cons, hline, hlines]
      rfl

/-- No row is without samples, so the rows of any runs make a table. -/
theorem exists_report (runs : List (benchmark_run α)) :
    ∃ lines, finalize (report_runs runs) = some lines ∧
      lines.map report_line.name = ((reported runs).map Prod.fst).eraseDups ∧
      (lines.map report_line.name).Nodup ∧
      ∀ line ∈ lines, Summarises (times_of runs line.name) line := by
  have hrows := rows_report_runs runs
  have hne : ∀ row ∈ report_runs runs, row.2 ≠ [] := by
    intro row hrow
    rw [hrows.times row hrow]
    apply times_of_ne_nil
    rw [← List.mem_eraseDups, ← hrows.names]
    exact List.mem_map_of_mem hrow
  obtain ⟨lines, hlines, hpairs⟩ := finalize_eq _ hne
  have hnames : lines.map report_line.name = (report_runs runs).map Prod.fst := by
    clear hlines hne hrows
    generalize report_runs runs = rows at hpairs
    induction hpairs with
    | nil => rfl
    | cons hpair _ ih => rw [List.map_cons, List.map_cons, hpair.1, ih]
  refine ⟨lines, hlines, hnames.trans hrows.names, hnames ▸ hrows.nodup, fun line hline => ?_⟩
  obtain ⟨row, hrow, hname, hsummary⟩ := exists_left_of_forall₂ hpairs hline
  rw [hname, ← hrows.times row hrow]
  exact hsummary

/-- **The report is about the runs.** Whatever the runs, `Finalize` reads no
sample that is not there. Its table has a line for each name up to the last
slash under which a run is reported, in the order in which these names come
first, and the line summarises the times of these runs and no others. -/
theorem report_summarises (runs : List (benchmark_run α)) :
    ∃ lines, finalize (report_runs runs) = some lines ∧
      lines.map report_line.name = ((reported runs).map Prod.fst).eraseDups ∧
      ∀ line ∈ lines, Summarises (times_of runs line.name) line := by
  obtain ⟨lines, hlines, hnames, _, hsummary⟩ := exists_report runs
  exact ⟨lines, hlines, hnames, hsummary⟩

end Finalize

/-! ## The benchmarks of the puzzles -/

/-- What is behind the last slash is cut off. -/
theorem before_last_slash_eq (front : List UInt8) {back : List UInt8} (hback : 47 ∉ back) :
    before_last_slash (front ++ (text "/" ++ back)) = front := by
  have hslash : text "/" = [47] := by decide
  have hmem : 47 ∈ front ++ ([47] ++ back) := by simp
  have hdrop : (back.reverse ++ 47 :: front.reverse).dropWhile (· != 47) = 47 :: front.reverse := by
    rw [List.dropWhile_append_of_pos]
    · rfl
    · intro c hc
      rw [bne_iff_ne]
      rintro rfl
      exact hback (List.mem_reverse.mp hc)
  have hreverse : (front ++ ([47] ++ back)).reverse = back.reverse ++ 47 :: front.reverse := by
    simp
  unfold before_last_slash
  rw [hslash, if_pos hmem, hreverse, hdrop, List.drop_one, List.tail_cons, List.reverse_reverse]

/-- The name of the row of a family and a group. -/
def row_name (family : List UInt8) (group : puzzle_group) : List UInt8 :=
  family ++ (text "/" ++ group.name)

theorem slash_notMem_name (group : puzzle_group) : 47 ∉ group.name := by
  cases group with
  | solvable => decide
  | unsolvable => decide

theorem row_name_inj {family family' : List UInt8} {group group' : puzzle_group} :
    row_name family group = row_name family' group' ↔ family = family' ∧ group = group' := by
  constructor
  · intro heq
    have hfamily : family = family' := by
      rw [← before_last_slash_eq family (slash_notMem_name group),
        ← before_last_slash_eq family' (slash_notMem_name group')]
      exact congrArg before_last_slash heq
    subst hfamily
    have hname := List.append_cancel_left (List.append_cancel_left heq)
    refine ⟨rfl, ?_⟩
    revert hname
    cases group <;> cases group' <;> decide
  · rintro ⟨rfl, rfl⟩
    rfl

theorem before_last_slash_benchmark_name {p : puzzle} (hdate : 47 ∉ p.date)
    (family : List UInt8) :
    before_last_slash (p.benchmark_name family) = row_name family p.group := by
  have hname : p.benchmark_name family = row_name family p.group ++ (text "/" ++ p.date) := by
    unfold puzzle.benchmark_name row_name
    simp only [List.append_assoc]
  rw [hname, before_last_slash_eq _ hdate]

/-- The rows of the benchmarks of puzzles without a slash in their dates. -/
theorem rows_of_benchmarks {puzzles : List puzzle} (hdates : ∀ p ∈ puzzles, 47 ∉ p.date) :
    (register_benchmarks puzzles).map before_last_slash =
      [text "lbs/load/word_list", text "lbs/word_ends/word_list"] ++
        puzzles.flatMap fun p => families.map fun family => row_name family p.group := by
  unfold register_benchmarks
  rw [List.map_append, List.map_flatMap]
  congr 1
  apply List.flatMap_congr
  intro p hp
  rw [List.map_map]
  apply List.map_congr_left
  intro family _
  exact before_last_slash_benchmark_name (hdates p hp) family

/-- A family and a group have a row entry for each puzzle of the group. -/
theorem count_row_name (puzzles : List puzzle) {family : List UInt8} (hfamily : family ∈ families)
    (group : puzzle_group) :
    ([text "lbs/load/word_list", text "lbs/word_ends/word_list"] ++
        puzzles.flatMap fun p => families.map fun family => row_name family p.group).count
      (row_name family group) = puzzles.countP fun p => p.group = group := by
  -- the first two rows are of no family
  have hother : ∀ name ∈ [text "lbs/load/word_list", text "lbs/word_ends/word_list"],
      before_last_slash name ∉ families := by
    decide +kernel
  have hload : ∀ name ∈ [text "lbs/load/word_list", text "lbs/word_ends/word_list"],
      name ≠ row_name family group := by
    intro name hname heq
    have hcut := hother name hname
    rw [heq, row_name, before_last_slash_eq family (slash_notMem_name group)] at hcut
    exact hcut hfamily
  -- the families are different
  have hone : ∀ p : puzzle, (families.map fun family => row_name family p.group).count
      (row_name family group) = if p.group = group then 1 else 0 := by
    intro p
    by_cases hgroup : p.group = group
    · rw [if_pos hgroup, hgroup,
        List.count_map_of_injective families (fun family => row_name family group)
          (fun _ _ heq => (row_name_inj.mp heq).1)]
      exact List.count_eq_one_of_mem (by decide +kernel) hfamily
    · rw [if_neg hgroup, List.count_eq_zero]
      intro hmem
      obtain ⟨_, _, heq⟩ := List.mem_map.mp hmem
      exact hgroup (row_name_inj.mp heq).2
  rw [List.count_append, List.count_eq_zero.mpr fun hmem => hload _ hmem rfl, Nat.zero_add]
  induction puzzles with
  | nil => rfl
  | cons p puzzles ih =>
      rw [List.flatMap_cons, List.count_append, hone, ih, List.countP_cons, Nat.add_comm]
      simp only [decide_eq_true_eq]

/-- **One line for each family and group.** If the runs that count are one for
each registered benchmark, in any order, and no date has a slash, the table has
no name twice. It has a line for each family and group that some puzzle is of,
and the line is about as many times as the group has puzzles. -/
theorem bench_report {α : Type} [LinearOrder α] (puzzles : List puzzle)
    (runs : List (benchmark_run α))
    (hruns : ((runs.filter benchmark_run.counts).map benchmark_run.benchmark_name).Perm
      (register_benchmarks puzzles))
    (hdates : ∀ p ∈ puzzles, 47 ∉ p.date) :
    ∃ lines, finalize (report_runs runs) = some lines ∧ (lines.map report_line.name).Nodup ∧
      ∀ family ∈ families, ∀ group,
        (row_name family group ∈ lines.map report_line.name ↔ ∃ p ∈ puzzles, p.group = group) ∧
        ∀ line ∈ lines, line.name = row_name family group →
          line.size = puzzles.countP fun p => p.group = group := by
  obtain ⟨lines, hlines, hrows, hnodup, hsummary⟩ := exists_report runs
  have hreported : ((reported runs).map Prod.fst).Perm
      ((register_benchmarks puzzles).map before_last_slash) := by
    have hrows := hruns.map before_last_slash
    rw [List.map_map] at hrows
    unfold reported
    rw [List.map_map]
    exact hrows
  rw [rows_of_benchmarks hdates] at hreported
  refine ⟨lines, hlines, hnodup, fun family hfamily group => ?_⟩
  have hcount := count_row_name puzzles hfamily group
  rw [← hreported.count_eq] at hcount
  constructor
  · rw [hrows, List.mem_eraseDups, ← List.count_pos_iff, hcount, List.countP_pos_iff]
    simp only [decide_eq_true_eq]
  · intro line hline hname
    have hsize := (hsummary line hline).size_eq
    rw [hname] at hsize
    rw [hsize, ← hcount]
    unfold times_of
    rw [List.length_map, ← List.countP_eq_length_filter, List.count, List.countP_map]
    congr 1
    funext sample
    rw [Function.comp_apply, beq_eq_decide]

/-- Two solvable puzzles and one that is not. -/
def three_puzzles : List puzzle :=
  [⟨text "2025-03-25", [], .solvable, [], ⟨[], []⟩⟩, ⟨text "2025-03-26", [], .solvable, [], ⟨[], []⟩⟩,
    ⟨text "2025-03-27", [], .unsolvable, [], ⟨[], []⟩⟩]

/-- Each benchmark is run once, the last registered first, and each time a mean
is reported behind it. -/
def three_puzzles_runs : List (benchmark_run Nat) :=
  (register_benchmarks three_puzzles).reverse.flatMap fun name =>
    [⟨true, false, name, 1⟩, ⟨false, false, name ++ text "_mean", 1⟩]

theorem bench_report_three_puzzles :
    ((three_puzzles_runs.filter benchmark_run.counts).map benchmark_run.benchmark_name).Perm
      (register_benchmarks three_puzzles) ∧ (∀ p ∈ three_puzzles, 47 ∉ p.date) ∧
    ∃ lines, finalize (report_runs three_puzzles_runs) = some lines ∧
      ∀ line ∈ lines, line.name = row_name (text "lbs/solve") .solvable → line.size = 2 := by
  have hruns : (three_puzzles_runs.filter benchmark_run.counts).map benchmark_run.benchmark_name =
      (register_benchmarks three_puzzles).reverse := by
    unfold three_puzzles_runs
    generalize (register_benchmarks three_puzzles).reverse = names
    induction names with
    | nil => rfl
    | cons name names ih =>
        rw [List.flatMap_cons, List.filter_append, List.map_append, ih]
        rfl
  have hperm := hruns ▸ List.reverse_perm (register_benchmarks three_puzzles)
  have hdates : ∀ p ∈ three_puzzles, 47 ∉ p.date := by decide +kernel
  refine ⟨hperm, hdates, ?_⟩
  obtain ⟨lines, hlines, _, hgroups⟩ :=
    bench_report three_puzzles three_puzzles_runs hperm hdates
  refine ⟨lines, hlines, fun line hline hname => ?_⟩
  exact (hgroups (text "lbs/solve") (by decide +kernel) .solvable).2 line hline hname

end LetterBoxed
