import McLinOS.CLib.Text
/-!
# Reading texts

The scanners of `lib/script/kini.c`. A string begins at a letter, a digit or one
of three other characters; its end is found in `copy_string_data`.
-/
open CLib

namespace McLinOS.Syscall

/-! ## Scanners -/

def is_alnum (c : Char) : Bool :=
  ('0' ≤ c ∧ c ≤ '9') ∨ ('a' ≤ c ∧ c ≤ 'z') ∨ ('A' ≤ c ∧ c ≤ 'Z')

/-- Where `goto_next_string` stops. -/
def is_string_start (c : Char) : Bool := is_alnum c ∨ c = '_' ∨ c = '"' ∨ c = '/'

/-- What `copy_string_data` copies outside quotes. -/
def is_copied (c : Char) : Bool :=
  is_alnum c ∨ ('!' < c ∧ c ≤ '/') ∨ (':' < c ∧ c ≤ '@') ∨ c = '_'

def goto_next_char : List Char → Char → Char → Option (List Char)
  | [], _, _ => none
  | x :: xs, c, limit =>
    if x = limit then some (x :: xs) else if x = c then some (x :: xs) else goto_next_char xs c limit

def goto_next_string : List Char → Char → Option (List Char)
  | [], _ => none
  | x :: xs, limit =>
    if x = limit then none else if is_string_start x then some (x :: xs) else goto_next_string xs limit

/-- The string at the front of `src`, and how far the source moves on: behind a
quoted string one character more, which is past the NUL where the quote is left
open at the end of the text. -/
def copy_string_data (src : List Char) : List Char × Nat :=
  match src with
  | '"' :: index =>
    let s := index.takeWhile fun c => c ≠ '\n' ∧ c ≠ '"'
    (s, s.length + 2)
  | index =>
    let s := index.takeWhile is_copied
    (s, s.length)

/-- `preprocess_ini_data`, outside a comment or in one. -/
def preprocess_from : Bool → List Char → List Char
  | _, [] => []
  | skip, c :: cs =>
    if c = '\n' then c :: preprocess_from false cs
    else if skip ∨ c = '#' ∨ c = ';' then preprocess_from true cs
    else c :: preprocess_from false cs

def preprocess_ini_data (data : List Char) : List Char := preprocess_from false data

/-! ## On lines -/

/-- What is left of a line. -/
def strip (l : List Char) : List Char := l.takeWhile fun c => c ≠ '#' ∧ c ≠ ';'

theorem preprocess_comment {l : List Char} (h : '\n' ∉ l) (rest : List Char) :
    preprocess_from true (l ++ rest) = preprocess_from true rest := by
  induction l with
  | nil => rfl
  | cons c cs ih =>
    rw [List.mem_cons, not_or] at h
    rw [List.cons_append, preprocess_from, if_neg (Ne.symm h.1), if_pos (.inl rfl), ih h.2]

theorem preprocess_line {l : List Char} (h : '\n' ∉ l) (ls : List (List Char)) :
    preprocess_from false (l ++ tail_text ls) = strip l ++ preprocess_from false (tail_text ls) := by
  have hend : preprocess_from true (tail_text ls) = preprocess_from false (tail_text ls) := by
    cases ls with
    | nil => rfl
    | cons l ls => rw [tail_text, preprocess_from, preprocess_from, if_pos rfl, if_pos rfl]
  induction l with
  | nil => rfl
  | cons c cs ih =>
    rw [List.mem_cons, not_or] at h
    rw [List.cons_append, preprocess_from, if_neg (Ne.symm h.1), strip, List.takeWhile_cons]
    by_cases hc : c = '#' ∨ c = ';'
    · have hno : ¬decide (c ≠ '#' ∧ c ≠ ';') = true := by
        rw [decide_eq_true_eq]
        exact fun h => hc.elim h.1 h.2
      rw [if_pos (.inr hc), if_neg hno, preprocess_comment h.2, hend]
      rfl
    · have hyes : decide (c ≠ '#' ∧ c ≠ ';') = true := by simpa [not_or] using hc
      rw [if_neg (by simpa using hc), if_pos hyes, ih h.2]
      rfl

theorem preprocess_tail {ls : List (List Char)} (h : ∀ l ∈ ls, '\n' ∉ l) :
    preprocess_from false (tail_text ls) = tail_text (ls.map strip) := by
  induction ls with
  | nil => rfl
  | cons l ls ih =>
    rw [tail_text, preprocess_from, if_pos rfl, preprocess_line (h l (by simp)), ih fun l hl => h l (by simp [hl])]
    rfl

/-- Preprocessing strips each line. -/
theorem preprocess_lines {ls : List (List Char)} (h : ∀ l ∈ ls, '\n' ∉ l) :
    preprocess_ini_data (join_lines ls) = join_lines (ls.map strip) := by
  cases ls with
  | nil => rfl
  | cons l ls =>
    rw [preprocess_ini_data, join_lines, preprocess_line (h l (by simp)), preprocess_tail fun l hl => h l (by simp [hl])]
    rfl

/-! ## Finding and copying strings -/

section Strings
variable {limit : Char} {pre rest : List Char}

theorem goto_next_string_skip (h : ∀ c ∈ pre, c ≠ limit ∧ is_string_start c = false) :
    goto_next_string (pre ++ rest) limit = goto_next_string rest limit := by
  induction pre with
  | nil => rfl
  | cons c cs ih =>
    obtain ⟨hlimit, hstart⟩ := h c (by simp)
    rw [List.cons_append, goto_next_string, if_neg hlimit, if_neg (by simp [hstart])]
    exact ih fun c hc => h c (by simp [hc])

theorem goto_next_string_start {c : Char} (hlimit : c ≠ limit) (h : is_string_start c = true) :
    goto_next_string (c :: rest) limit = some (c :: rest) := by
  rw [goto_next_string, if_neg hlimit, if_pos h]

/-- What is found begins with the start of a string. -/
theorem goto_next_string_some {text index : List Char} (h : goto_next_string text limit = some index) :
    ∃ c cs, index = c :: cs ∧ is_string_start c = true := by
  induction text with
  | nil => cases h
  | cons c cs ih =>
    rw [goto_next_string] at h
    split at h
    · cases h
    · split at h
      · rename_i hc
        obtain rfl := Option.some.inj h
        exact ⟨c, cs, rfl, hc⟩
      · exact ih h

theorem goto_next_char_skip {c : Char} (h : ∀ x ∈ pre, x ≠ limit ∧ x ≠ c) :
    goto_next_char (pre ++ rest) c limit = goto_next_char rest c limit := by
  induction pre with
  | nil => rfl
  | cons x xs ih =>
    obtain ⟨h1, h2⟩ := h x (by simp)
    rw [List.cons_append, goto_next_char, if_neg h1, if_neg h2]
    exact ih fun x hx => h x (by simp [hx])

/-- A string outside quotes, ended by a character that is not copied. -/
theorem copy_string_word {word : List Char} (hne : word ≠ []) (hquote : '"' ∉ word)
    (hcopied : ∀ c ∈ word, is_copied c = true) (hstop : ∀ c ∈ rest.head?, is_copied c = false) :
    copy_string_data (word ++ rest) = (word, word.length) := by
  obtain ⟨c, cs, rfl⟩ := List.exists_cons_of_ne_nil hne
  have hc : c ≠ '"' := fun h => hquote (by simp [h])
  have htake := takeWhile_append_stop hcopied hstop
  unfold copy_string_data
  split
  · rename_i heq
    exact absurd (List.cons.inj heq).1 hc
  · rw [htake]

end Strings

end McLinOS.Syscall
