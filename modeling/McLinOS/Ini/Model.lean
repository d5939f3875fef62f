import McLinOS.CLib.Loop
import McLinOS.Syscall.Kini
/-!
# Looking up values in an INI text

The functions of `lib/script/kini.c` on top of its scanners. A result `none` is
an access outside of a buffer or of the text, `some none` is NULL.
-/
open CLib

namespace McLinOS.Ini

open Syscall

def KEY_VALUE_MAX_LENGTH : Nat := 64

/-- The pointer `n` characters on. There is none behind the NUL. -/
def advance (index : List Char) (n : Nat) : Option (List Char) :=
  if n ≤ index.length then some (index.drop n) else none

/-- `copy_string_data` into a buffer of `size` bytes: the string and the pointer
behind it. -/
def copy_to (size : Nat) (index : List Char) : Option (List Char × Option (List Char)) :=
  let copied := copy_string_data index
  if size ≤ copied.1.length then none else some (copied.1, advance index copied.2)

/-- The text in the brackets, and the newline behind them. -/
def get_next_head (text_data : List Char) : Option (Option (List Char × List Char)) :=
  match goto_next_char text_data '[' ']' with
  | none => some none
  | some index =>
    match goto_next_string (index.drop 1) ']' with
    | none => some none
    | some index =>
      match copy_to KEY_VALUE_MAX_LENGTH index with
      | none | some (_, none) => none
      | some (buffer, some index) =>
        match goto_next_char index ']' '\x00' with
        | none => some none
        | some index =>
          match goto_next_char index '\n' '\x00' with
          | none => some (some (buffer, index))
          | some new_index => some (some (buffer, new_index))

def get_next_key (size : Nat) (text_data : List Char) : Option (Option (List Char × Option (List Char))) :=
  match goto_next_string text_data '[' with
  | none => some none
  | some index => (copy_to size index).map some

/-- One turn of the loop in `get_key`, with `char key_data[32]`. -/
def key_turn (data index : List Char) : ControlFlow (List Char) (Option (Option (List Char))) :=
  match get_next_key 32 index with
  | none | some (some (_, none)) => .done none
  | some none => .done (some none)
  | some (some (key_data, some index)) =>
    if data = key_data then .done (some (some index))
    else
      match goto_next_char index '\n' '\x00' with
      | none => .done (some none)
      | some index => .cont (index.drop 1)

/-- Each turn moves on, so the length of the text bounds their number. -/
def get_key (text_data data : List Char) : Option (Option (List Char)) :=
  (loop (key_turn data) (text_data.length + 1) text_data).join

/-- Where no `=` and no newline is left, the pointer is NULL and then 1. -/
def get_value (size : Nat) (text_data key : List Char) : Option (Option (List Char × Option (List Char))) :=
  match get_key text_data key with
  | none => none
  | some none => some none
  | some (some index) =>
    match goto_next_char index '=' '\n' with
    | none => none
    | some index => get_next_key size (index.drop 1)

def head_turn (head index : List Char) : ControlFlow (List Char) (Option (Option (List Char))) :=
  match get_next_head index with
  | none => .done none
  | some none => .done (some none)
  | some (some (buffer, index)) => if buffer = head then .done (some (some index)) else .cont index

def get_head_start (text_data head : List Char) : Option (Option (List Char)) :=
  (loop (head_turn head) (text_data.length + 1) text_data).join

/-- With a buffer of `size` bytes for the value: the value and the pointer that
is returned. -/
def get_value_from_ini (size : Nat) (text_data : List Char) (grou : Option (List Char)) (key : List Char) :
    Option (Option (List Char × Option (List Char))) :=
  match grou with
  | none => get_value size text_data key
  | some grou =>
    match get_head_start text_data grou with
    | none => none
    | some none => some none
    | some (some index) => get_value size index key

/-! ## The loops end -/

theorem goto_next_char_length {text index : List Char} {c limit : Char} (h : goto_next_char text c limit = some index) :
    index.length ≤ text.length ∧ index ≠ [] := by
  induction text with
  | nil => cases h
  | cons x xs ih =>
    rw [goto_next_char] at h
    split at h
    · obtain rfl := Option.some.inj h
      exact ⟨Nat.le_refl _, List.cons_ne_nil _ _⟩
    · split at h
      · obtain rfl := Option.some.inj h
        exact ⟨Nat.le_refl _, List.cons_ne_nil _ _⟩
      · exact ⟨Nat.le_succ_of_le (ih h).1, (ih h).2⟩

theorem goto_next_string_length {text index : List Char} {limit : Char} (h : goto_next_string text limit = some index) :
    index.length ≤ text.length := by
  induction text with
  | nil => cases h
  | cons x xs ih =>
    rw [goto_next_string] at h
    split at h
    · cases h
    · split at h
      · obtain rfl := Option.some.inj h
        exact Nat.le_refl _
      · exact Nat.le_succ_of_le (ih h)

theorem copy_to_length {size : Nat} {index index' buffer : List Char}
    (h : copy_to size index = some (buffer, some index')) : index'.length ≤ index.length := by
  unfold copy_to advance at h
  dsimp only at h
  split at h
  · cases h
  · simp only [Option.some.injEq, Prod.mk.injEq] at h
    obtain ⟨-, h⟩ := h
    split at h
    · obtain rfl := Option.some.inj h
      rw [List.length_drop]
      omega
    · cases h

theorem length_drop_one {index : List Char} (h : index ≠ []) : (index.drop 1).length < index.length := by
  have hpos := List.length_pos_iff.2 h
  rw [List.length_drop]
  omega

theorem key_turn_length {data index index' : List Char} (h : key_turn data index = .cont index') :
    index'.length < index.length := by
  unfold key_turn get_next_key at h
  cases hstart : goto_next_string index '[' with
  | none => simp [hstart] at h
  | some start =>
    rw [hstart] at h
    dsimp only at h
    rcases hcopy : copy_to 32 start with _ | ⟨key_data, _ | rest⟩
    · simp [hcopy] at h
    · simp [hcopy] at h
    · simp only [hcopy, Option.map_some] at h
      split at h
      · cases h
      · cases hline : goto_next_char rest '\n' '\x00' with
        | none => simp [hline] at h
        | some line =>
          simp only [hline, ControlFlow.cont.injEq] at h
          subst h
          obtain ⟨hle, hne⟩ := goto_next_char_length hline
          have h1 := goto_next_string_length hstart
          have h2 := copy_to_length hcopy
          have h3 := length_drop_one hne
          omega

theorem get_next_head_length {text index buffer : List Char} (h : get_next_head text = some (some (buffer, index))) :
    index.length < text.length := by
  unfold get_next_head at h
  cases hopen : goto_next_char text '[' ']' with
  | none => simp [hopen] at h
  | some bracket =>
    rw [hopen] at h
    dsimp only at h
    cases hstart : goto_next_string (bracket.drop 1) ']' with
    | none => simp only [hstart, Option.some.injEq, reduceCtorEq] at h
    | some start =>
      rw [hstart] at h
      dsimp only at h
      rcases hcopy : copy_to KEY_VALUE_MAX_LENGTH start with _ | ⟨name, _ | rest⟩
      · simp [hcopy] at h
      · simp [hcopy] at h
      · simp only [hcopy] at h
        obtain ⟨h1, h2⟩ := goto_next_char_length hopen
        have h3 := length_drop_one h2
        have h4 := goto_next_string_length hstart
        have h5 := copy_to_length hcopy
        cases hclose : goto_next_char rest ']' '\x00' with
        | none => simp [hclose] at h
        | some close =>
          rw [hclose] at h
          dsimp only at h
          have h6 := (goto_next_char_length hclose).1
          cases hline : goto_next_char close '\n' '\x00' with
          | none =>
            simp only [hline, Option.some.injEq, Prod.mk.injEq] at h
            obtain ⟨-, rfl⟩ := h
            omega
          | some line =>
            simp only [hline, Option.some.injEq, Prod.mk.injEq] at h
            obtain ⟨-, rfl⟩ := h
            have h7 := (goto_next_char_length hline).1
            omega

theorem head_turn_length {head index index' : List Char} (h : head_turn head index = .cont index') :
    index'.length < index.length := by
  unfold head_turn at h
  rcases hnext : get_next_head index with _ | _ | ⟨buffer, rest⟩
  · simp [hnext] at h
  · simp [hnext] at h
  · simp only [hnext] at h
    split at h
    · cases h
    · obtain rfl := ControlFlow.cont.inj h
      exact get_next_head_length hnext

/-- `get_key`, turn by turn. -/
theorem get_key_unfold (text data : List Char) : get_key text data =
    match key_turn data text with
    | .done r => r
    | .cont index => get_key index data := by
  unfold get_key
  rw [loop_unfold List.length (fun _ _ => key_turn_length)]
  cases key_turn data text <;> rfl

theorem get_head_start_unfold (text head : List Char) : get_head_start text head =
    match head_turn head text with
    | .done r => r
    | .cont index => get_head_start index head := by
  unfold get_head_start
  rw [loop_unfold List.length (fun _ _ => head_turn_length)]
  cases head_turn head text <;> rfl

end McLinOS.Ini
