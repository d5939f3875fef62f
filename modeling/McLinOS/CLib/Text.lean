import Mathlib.Tactic.Common
/-!
# Texts

A C string is the list of its characters before the NUL, and a pointer into it
is a suffix. A text made of lines is its first line followed by the others, each
after a newline.
-/
namespace CLib

/-- The characters of a text are tried one by one. -/
instance decidable_forall_mem (xs : List Char) (p : Char → Prop) [DecidablePred p] : Decidable (∀ c ∈ xs, p c) :=
  List.decidableBAll p xs

instance decidable_forall_mem_option (o : Option Char) (p : Char → Prop) [DecidablePred p] : Decidable (∀ c ∈ o, p c) :=
  Option.decidableForallMem o

/-- Lines, each after a newline. -/
def tail_text : List (List Char) → List Char
  | [] => []
  | l :: ls => '\n' :: (l ++ tail_text ls)

/-- Lines with newlines between them. -/
def join_lines : List (List Char) → List Char
  | [] => []
  | l :: ls => l ++ tail_text ls

/-- The longest beginning with `p`, when it is followed by something else. -/
theorem takeWhile_append_stop {α : Type} {p : α → Bool} {xs ys : List α} (hxs : ∀ x ∈ xs, p x = true)
    (hys : ∀ y ∈ ys.head?, p y = false) : (xs ++ ys).takeWhile p = xs := by
  rw [List.takeWhile_append_of_pos hxs]
  cases ys with
  | nil => rw [List.takeWhile_nil, List.append_nil]
  | cons y ys => rw [List.takeWhile_cons, if_neg (by simpa using hys y rfl), List.append_nil]

/-! ## Cutting a text into lines -/

theorem join_lines_splitOn (text : List Char) : join_lines (text.splitOn '\n') = text := by
  induction text with
  | nil => rfl
  | cons c cs ih =>
    obtain ⟨l, ls, hls⟩ := List.exists_cons_of_ne_nil (List.splitOn_ne_nil '\n' cs)
    rw [hls, join_lines] at ih
    rw [List.splitOn_cons_eq_if_modifyHead, hls]
    split
    · rename_i hc
      rw [beq_iff_eq] at hc
      rw [join_lines, tail_text, List.nil_append, ih, hc]
    · rw [List.modifyHead_cons, join_lines, List.cons_append, ih]

/-- A line is a part of the text without newlines. -/
theorem mem_line {text l : List Char} (hl : l ∈ text.splitOn '\n') : ∀ c ∈ l, c ≠ '\n' ∧ c ∈ text := by
  induction text generalizing l with
  | nil =>
    obtain rfl := List.mem_singleton.1 hl
    exact List.forall_mem_nil _
  | cons x xs ih =>
    have hmore : ∀ l ∈ xs.splitOn '\n', ∀ c ∈ l, c ≠ '\n' ∧ c ∈ x :: xs :=
      fun l hl c hc => ⟨(ih hl c hc).1, List.mem_cons_of_mem x (ih hl c hc).2⟩
    rw [List.splitOn_cons_eq_if_modifyHead] at hl
    split at hl
    · rcases List.mem_cons.1 hl with rfl | hl
      · exact List.forall_mem_nil _
      · exact hmore l hl
    · rename_i hx
      obtain ⟨l', ls, hls⟩ := List.exists_cons_of_ne_nil (List.splitOn_ne_nil '\n' xs)
      rw [hls] at hmore
      rw [hls, List.modifyHead_cons] at hl
      rw [List.forall_mem_cons] at hmore
      rcases List.mem_cons.1 hl with rfl | hl
      · exact List.forall_mem_cons.2 ⟨⟨by simpa using hx, List.mem_cons_self⟩, hmore.1⟩
      · exact hmore.2 l hl

end CLib
