/-
Texts that show where they end.

A way to write values is a prefix code if whatever follows a written value, the
value and what follows can be told from the text. So the text of a value does
not begin with that of another, and values written one after another can be
read back. A range between brackets is one if its elements are, and so are
nested ranges.

The values a text is used for are given by a predicate, as a format may be a
prefix code for words without the character that ends a word.
-/
import Mathlib.Data.List.Basic

set_option autoImplicit false

namespace PrefixCode

variable {α β : Type*} {valid : β → Prop} {fmt : β → List α}

/-- A written value and what follows it can be told from the text. -/
def IsPrefixCode (valid : β → Prop) (fmt : β → List α) : Prop :=
  ∀ a b, valid a → valid b → ∀ r s, fmt a ++ r = fmt b ++ s → a = b ∧ r = s

/-- Something fixed in front. -/
theorem IsPrefixCode.behind (h : IsPrefixCode valid fmt) (front : List α) :
    IsPrefixCode valid fun b => front ++ fmt b := by
  intro a b ha hb r s heq
  rw [List.append_assoc, List.append_assoc] at heq
  exact h a b ha hb r s (List.append_cancel_left heq)

/-- Something fixed behind. -/
theorem IsPrefixCode.followed (h : IsPrefixCode valid fmt) (back : List α) :
    IsPrefixCode valid fun b => fmt b ++ back := by
  intro a b ha hb r s heq
  rw [List.append_assoc, List.append_assoc] at heq
  obtain ⟨hab, hrest⟩ := h a b ha hb _ _ heq
  exact ⟨hab, List.append_cancel_left hrest⟩

/-- Words up to an element that they do not have. -/
theorem terminated (last : α) :
    IsPrefixCode (fun w : List α => last ∉ w) fun w => w ++ [last] := by
  intro v
  induction v with
  | nil =>
      intro w _ hw r s heq
      cases w with
      | nil => exact ⟨rfl, (List.cons.inj heq).2⟩
      | cons c w =>
          have hc : last = c := (List.cons.inj heq).1
          exact absurd (hc ▸ List.mem_cons_self) hw
  | cons c v ih =>
      intro w hv hw r s heq
      cases w with
      | nil =>
          have hc : c = last := (List.cons.inj heq).1
          exact absurd (hc ▸ List.mem_cons_self) hv
      | cons d w =>
          obtain ⟨rfl, hrest⟩ := List.cons.inj heq
          obtain ⟨rfl, hrs⟩ := ih w (fun h => hv (List.mem_cons_of_mem _ h))
            (fun h => hw (List.mem_cons_of_mem _ h)) r s hrest
          exact ⟨rfl, hrs⟩

/-! ## Ranges -/

/-- The elements behind the first, each behind the separator, and the end. -/
theorem tail_isPrefixCode (h : IsPrefixCode valid fmt) {sep : List α} {closing : α}
    (hne : sep ≠ []) (hsep : closing ∉ sep.head?) :
    IsPrefixCode (fun bs : List β => ∀ b ∈ bs, valid b)
      fun bs => bs.flatMap (fun b => sep ++ fmt b) ++ [closing] := by
  obtain ⟨first, sep, rfl⟩ := List.exists_cons_of_ne_nil hne
  have hfirst : closing ≠ first := fun heq => hsep (by rw [heq]; rfl)
  intro as
  induction as with
  | nil =>
      intro bs _ hbs r s heq
      cases bs with
      | nil => exact ⟨rfl, (List.cons.inj heq).2⟩
      | cons b bs => exact absurd (List.cons.inj heq).1 hfirst
  | cons a as ih =>
      intro bs has hbs r s heq
      rw [List.forall_mem_cons] at has
      cases bs with
      | nil => exact absurd (List.cons.inj heq).1.symm hfirst
      | cons b bs =>
          rw [List.forall_mem_cons] at hbs
          simp only [List.flatMap_cons, List.append_assoc] at heq
          obtain ⟨rfl, hrest⟩ := h a b has.1 hbs.1 _ _ (List.append_cancel_left heq)
          rw [← List.append_assoc, ← List.append_assoc] at hrest
          obtain ⟨rfl, hrs⟩ := ih bs has.2 hbs.2 r s hrest
          exact ⟨rfl, hrs⟩

/-- A range: its elements between brackets, with separators between them. -/
def range (opening closing : α) (sep : List α) (fmt : β → List α) (bs : List β) : List α :=
  [opening] ++ sep.intercalate (bs.map fmt) ++ [closing]

theorem range_cons (opening closing : α) (sep : List α) (b : β) (bs : List β) :
    range opening closing sep fmt (b :: bs) =
      opening :: (fmt b ++ (bs.flatMap (fun b => sep ++ fmt b) ++ [closing])) := by
  have hrest : ∀ b, sep.intercalate ((b :: bs).map fmt) =
      fmt b ++ bs.flatMap fun b => sep ++ fmt b := by
    induction bs with
    | nil => exact fun b => by simp
    | cons c bs ih =>
        intro b
        rw [List.map_cons, List.intercalate_cons_of_ne_nil (by simp), ih, List.flatMap_cons]
        simp only [List.append_assoc]
  unfold range
  rw [hrest, List.append_assoc, List.append_assoc]
  rfl

/-- **Ranges of a prefix code**, if no element begins with the closing bracket. -/
theorem IsPrefixCode.range (h : IsPrefixCode valid fmt) {opening closing : α} {sep : List α}
    (hne : sep ≠ []) (hsep : closing ∉ sep.head?)
    (hstart : ∀ b, valid b → fmt b ≠ [] ∧ closing ∉ (fmt b).head?) :
    IsPrefixCode (fun bs : List β => ∀ b ∈ bs, valid b) (range opening closing sep fmt) := by
  have hnil : PrefixCode.range opening closing sep fmt [] = [opening, closing] := by
    unfold PrefixCode.range
    rw [List.map_nil, List.intercalate_nil]
    rfl
  -- an empty range closes where another has an element
  have hempty : ∀ b, valid b → ∀ bs r s,
      PrefixCode.range opening closing sep fmt [] ++ r ≠
        PrefixCode.range opening closing sep fmt (b :: bs) ++ s := by
    intro b hb bs r s heq
    obtain ⟨hb_ne, hb_start⟩ := hstart b hb
    obtain ⟨c, cs, hcs⟩ := List.exists_cons_of_ne_nil hb_ne
    rw [hnil, range_cons, hcs] at heq
    have hc : closing = c := (List.cons.inj (List.cons.inj heq).2).1
    rw [hcs, hc] at hb_start
    exact hb_start rfl
  intro as bs has hbs r s heq
  cases as with
  | nil =>
      cases bs with
      | nil => exact ⟨rfl, List.append_cancel_left heq⟩
      | cons b bs => exact absurd heq (hempty b (hbs b List.mem_cons_self) bs r s)
  | cons a as =>
      cases bs with
      | nil => exact absurd heq.symm (hempty a (has a List.mem_cons_self) as s r)
      | cons b bs =>
          rw [List.forall_mem_cons] at has hbs
          rw [range_cons, range_cons, List.cons_append, List.cons_append] at heq
          have helements := (List.cons.inj heq).2
          rw [List.append_assoc (fmt a), List.append_assoc (fmt b)] at helements
          obtain ⟨rfl, hrest⟩ := h a b has.1 hbs.1 _ _ helements
          obtain ⟨rfl, hrs⟩ := tail_isPrefixCode h hne hsep as bs has.2 hbs.2 r s hrest
          exact ⟨rfl, hrs⟩

/-! ## Values one after another -/

/-- **What is written one after another can be read back.** -/
theorem IsPrefixCode.flatMap_inj (h : IsPrefixCode valid fmt)
    (hne : ∀ b, valid b → fmt b ≠ []) {as : List β} :
    ∀ {bs : List β}, (∀ a ∈ as, valid a) → (∀ b ∈ bs, valid b) →
      as.flatMap fmt = bs.flatMap fmt → as = bs := by
  induction as with
  | nil =>
      intro bs _ hbs heq
      cases bs with
      | nil => rfl
      | cons b bs =>
          have hb := hne b (hbs b List.mem_cons_self)
          rw [List.flatMap_nil, List.flatMap_cons, eq_comm, List.append_eq_nil_iff] at heq
          exact absurd heq.1 hb
  | cons a as ih =>
      intro bs has hbs heq
      rw [List.forall_mem_cons] at has
      cases bs with
      | nil =>
          rw [List.flatMap_nil, List.flatMap_cons, List.append_eq_nil_iff] at heq
          exact absurd heq.1 (hne a has.1)
      | cons b bs =>
          rw [List.forall_mem_cons] at hbs
          obtain ⟨rfl, hrest⟩ := h a b has.1 hbs.1 _ _ heq
          rw [ih has.2 hbs.2 hrest]

end PrefixCode
