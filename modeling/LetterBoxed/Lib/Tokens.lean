/-
The words of a text between delimiters.

A word is a longest run of elements that are no delimiters. A reader that skips
delimiters and takes what comes before the next one reads the words one after
another. Renaming the elements of a text renames those of its words.
-/
import Mathlib.Data.List.TakeWhile

set_option autoImplicit false

namespace Tokens

variable {α β : Type*} {delim : α → Bool}

/-- The words of a text, delimiters being the elements `delim` holds of. -/
def words (delim : α → Bool) (text : List α) : List (List α) :=
  (text.splitOnP delim).filter fun w => !w.isEmpty

@[simp] theorem words_nil : words delim [] = [] := rfl

/-- A delimiter in front is skipped. -/
theorem words_delimiter {c : α} (hc : delim c = true) (text : List α) :
    words delim (c :: text) = words delim text := by
  unfold words
  rw [List.splitOnP_cons_eq_if_modifyHead, if_pos hc]
  rfl

theorem words_dropWhile (text : List α) :
    words delim (text.dropWhile delim) = words delim text := by
  induction text with
  | nil => rfl
  | cons c text ih =>
      by_cases hc : delim c = true
      · rw [List.dropWhile_cons_of_pos hc, ih, words_delimiter hc]
      · rw [List.dropWhile_cons_of_neg hc]

/-- A word, and a delimiter or the end of the text behind it. -/
theorem words_word {word rest : List α} (hne : word ≠ []) (hword : ∀ c ∈ word, delim c = false)
    (hrest : ∀ c ∈ rest.head?, delim c = true) :
    words delim (word ++ rest) = word :: words delim rest := by
  have hkept : ∀ ws : List (List α), (word :: ws).filter (fun w => !w.isEmpty) =
      word :: ws.filter fun w => !w.isEmpty := by
    intro ws
    apply List.filter_cons_of_pos
    rw [Bool.not_eq_true', List.isEmpty_eq_false_iff]
    exact hne
  cases rest with
  | nil =>
      rw [List.append_nil]
      unfold words
      rw [List.splitOnP_eq_singleton hword, hkept]
      rfl
  | cons c rest =>
      have hc : delim c = true := hrest c rfl
      rw [words_delimiter hc]
      unfold words
      rw [List.splitOnP_append_cons_of_forall_mem hword c hc, hkept]

/-- Where dropping stops, the element is kept. -/
theorem head_dropWhile {text : List α} {c : α} (h : c ∈ (text.dropWhile delim).head?) :
    delim c = false := by
  have hstop := List.head?_dropWhile_not delim text
  rw [Option.mem_def.mp h] at hstop
  exact hstop

/-- **A reader takes the first word** of what it has not skipped. -/
theorem words_read {text rest : List α} {c : α} (h : text.dropWhile delim = c :: rest) :
    words delim text = (c :: rest.takeWhile fun c => !delim c) ::
      words delim (rest.dropWhile fun c => !delim c) := by
  have hhead : c ∈ (text.dropWhile delim).head? := by
    rw [h]
    rfl
  have hc : delim c = false := head_dropWhile hhead
  have hword : ∀ d ∈ c :: rest.takeWhile fun c => !delim c, delim d = false := by
    rw [List.forall_mem_cons]
    exact ⟨hc, fun d hd => by simpa using List.mem_takeWhile_imp hd⟩
  have hrest : ∀ d ∈ (rest.dropWhile fun c => !delim c).head?, delim d = true := by
    intro d hd
    simpa using head_dropWhile hd
  rw [← words_dropWhile, h, ← words_word (List.cons_ne_nil _ _) hword hrest, List.cons_append,
    List.takeWhile_append_dropWhile]

/-- Renaming the elements renames those of the words, if delimiters stay so. -/
theorem words_map {delim' : β → Bool} {f : α → β} (hf : ∀ c, delim' (f c) = delim c)
    (text : List α) : words delim' (text.map f) = (words delim text).map (List.map f) := by
  have hsplit : (text.map f).splitOnP delim' = (text.splitOnP delim).map (List.map f) := by
    induction text with
    | nil => rfl
    | cons c text ih =>
        rw [List.map_cons, List.splitOnP_cons_eq_if_modifyHead,
          List.splitOnP_cons_eq_if_modifyHead, hf, ih]
        cases delim c with
        | true => rfl
        | false =>
            cases text.splitOnP delim with
            | nil => rfl
            | cons w ws => rfl
  unfold words
  rw [hsplit, List.filter_map]
  congr 1
  apply List.filter_congr
  intro w _
  cases w with
  | nil => rfl
  | cons c w => rfl

end Tokens
