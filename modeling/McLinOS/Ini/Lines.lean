import McLinOS.Ini.RoundTrip
/-!
# The lines of an INI text

What stands on one line: its first string, the value behind the key, the name of
a section. The scanners read the same, as long as they stay on the line.
-/
open CLib

namespace McLinOS.Ini

open Syscall

/-! ## Readings of a line -/

/-- What comes first: nothing on this line, the limit of the scan, or a string. -/
inductive Front where
  | blank
  | limit
  | string (index : List Char)
deriving DecidableEq

def front (limit : Char) : List Char → Front
  | [] => .blank
  | c :: cs => if c = limit then .limit else if is_string_start c then .string (c :: cs) else front limit cs

/-- The first string of a line, and what is behind it. -/
def first_token (l : List Char) : Option (List Char × List Char) :=
  match front '\n' l with
  | .string index => some ((copy_string_data index).1, index.drop (copy_string_data index).2)
  | _ => none

def has_key (key l : List Char) : Bool := (first_token l).any fun token => token.1 = key

/-- Behind the equals sign, when nothing but blanks stands before it. -/
def after_equals (rest : List Char) : Option (List Char) :=
  match rest.dropWhile is_blank with
  | [] => none
  | c :: r => if c = '=' then some r else none

/-- The first string behind the equals sign that follows the first string. -/
def line_value (l : List Char) : Option (List Char) :=
  (first_token l).bind fun token => (after_equals token.2).bind fun r => (first_token r).map (·.1)

def is_head (l : List Char) : Bool := (l.dropWhile is_blank).head? = some '['

/-- The first brackets of a line: there are none, nothing is in them, they end on
another line, or they have a name in them. -/
inductive Brackets where
  | free
  | empty
  | cut
  | named (name behind : List Char)
deriving DecidableEq

def brackets (l : List Char) : Brackets :=
  match l.dropWhile fun c => c ≠ ']' ∧ c ≠ '[' with
  | [] => .free
  | _ :: r =>
    match front ']' r with
    | .blank => .cut
    | .limit => .empty
    | .string index =>
      match (index.drop (copy_string_data index).2).dropWhile fun c => c ≠ ']' with
      | [] => .cut
      | _ :: behind => .named (copy_string_data index).1 behind

def head_name (l : List Char) : Option (List Char) :=
  match brackets l with
  | .named name _ => if is_head l then some name else none
  | _ => none

/-- The lines of the first section of that name. Without one, those before all
sections. -/
def section_lines (grou : Option (List Char)) (ls : List (List Char)) : List (List Char) :=
  match grou with
  | none => ls.takeWhile fun l => !is_head l
  | some grou => (ls.dropWhile fun l => head_name l ≠ some grou).tail.takeWhile fun l => !is_head l

/-- The string ends on its line. -/
def closed (index : List Char) : Bool := (copy_string_data index).2 ≤ index.length

/-! ## Scanning a line -/

section Scan
variable {l : List Char} {limit : Char}

theorem goto_next_string_line (limit : Char) (l rest : List Char) : goto_next_string (l ++ rest) limit =
    match front limit l with
    | .blank => goto_next_string rest limit
    | .limit => none
    | .string index => some (index ++ rest) := by
  induction l with
  | nil => rfl
  | cons c cs ih =>
    rw [List.cons_append, goto_next_string, front]
    split
    · rfl
    · split
      · rfl
      · exact ih

theorem goto_next_char_line (c limit : Char) (l rest : List Char) : goto_next_char (l ++ rest) c limit =
    match l.dropWhile fun x => x ≠ limit ∧ x ≠ c with
    | [] => goto_next_char rest c limit
    | x :: xs => some (x :: (xs ++ rest)) := by
  induction l with
  | nil => rfl
  | cons x xs ih =>
    rw [List.cons_append, goto_next_char, List.dropWhile_cons]
    by_cases hlimit : x = limit
    · simp [hlimit]
    · by_cases hc : x = c
      · simp [hc]
      · rw [if_neg hlimit, if_neg hc, ih, if_pos (by simp [hlimit, hc])]

/-- A string begins where the line says. -/
theorem front_string {index : List Char} (h : front limit l = .string index) :
    ∃ pre c cs, l = pre ++ c :: cs ∧ index = c :: cs ∧ is_string_start c = true ∧ c ≠ limit ∧
      ∀ x ∈ pre, x ≠ limit ∧ is_string_start x = false := by
  induction l with
  | nil => cases h
  | cons c cs ih =>
    rw [front] at h
    split at h
    · cases h
    · rename_i hlimit
      split at h
      · rename_i hstart
        obtain rfl := Front.string.inj h
        exact ⟨[], c, cs, rfl, rfl, hstart, hlimit, by simp⟩
      · rename_i hstart
        obtain ⟨pre, c', cs', rfl, rfl, hc, hne, hpre⟩ := ih h
        refine ⟨c :: pre, c', cs', rfl, rfl, hc, hne, List.forall_mem_cons.2 ⟨⟨hlimit, by simpa using hstart⟩, hpre⟩⟩

theorem front_blank (h : front limit l = .blank) : ∀ c ∈ l, c ≠ limit ∧ is_string_start c = false := by
  induction l with
  | nil => simp
  | cons c cs ih =>
    rw [front] at h
    split at h
    · cases h
    · rename_i hlimit
      split at h
      · cases h
      · rename_i hstart
        exact List.forall_mem_cons.2 ⟨⟨hlimit, by simpa using hstart⟩, ih h⟩

theorem front_skip {pre : List Char} (h : ∀ c ∈ pre, c ≠ limit ∧ is_string_start c = false) (rest : List Char) :
    front limit (pre ++ rest) = front limit rest := by
  induction pre with
  | nil => rfl
  | cons c cs ih =>
    rw [List.forall_mem_cons] at h
    rw [List.cons_append, front, if_neg h.1.1, if_neg (by simp [h.1.2]), ih h.2]

/-- Where the search for a key finds a string, it is the first of the line. -/
theorem first_token_of_front (hline : one_line l) :
    (∀ index, front '[' l = .string index →
      first_token l = some ((copy_string_data index).1, index.drop (copy_string_data index).2)) ∧
    (front '[' l = .blank → first_token l = none) := by
  constructor
  · intro index h
    obtain ⟨pre, c, cs, rfl, rfl, hc, -, hpre⟩ := front_string h
    have hnext : ∀ x ∈ pre, x ≠ '\n' ∧ is_string_start x = false :=
      fun x hx => ⟨(hline x (by simp [hx])).1, (hpre x hx).2⟩
    rw [first_token, front_skip hnext, front, if_neg (hline c (by simp)).1, if_pos hc]
  · intro h
    have hnext : ∀ x ∈ l, x ≠ '\n' ∧ is_string_start x = false :=
      fun x hx => ⟨(hline x hx).1, (front_blank h x hx).2⟩
    rw [first_token, ← List.append_nil l, front_skip hnext]
    rfl

/-- A head ends the search for a key. -/
theorem front_of_is_head (h : is_head l = true) : front '[' l = .limit := by
  rw [is_head, decide_eq_true_eq] at h
  have hpre : ∀ c ∈ l.takeWhile is_blank, c ≠ '[' ∧ is_string_start c = false :=
    fun c hc => is_gap_spec (by simp [is_gap, List.mem_takeWhile_imp hc])
  rw [← List.takeWhile_append_dropWhile (p := is_blank) (l := l), front_skip hpre]
  obtain ⟨r, hr⟩ : ∃ r, l.dropWhile is_blank = '[' :: r := by
    cases hd : l.dropWhile is_blank with
    | nil => simp [hd] at h
    | cons c r =>
      rw [hd, List.head?_cons, Option.some.injEq] at h
      exact ⟨r, by rw [h]⟩
  rw [hr, front, if_pos rfl]

end Scan

/-! ## Strings of a line -/

section Strings
variable {l index : List Char} {limit : Char}

/-- A string is copied from its line only. -/
theorem copy_string_line (hne : index ≠ []) (ls : List (List Char)) :
    copy_string_data (index ++ tail_text ls) = copy_string_data index := by
  obtain ⟨c, cs, rfl⟩ := List.exists_cons_of_ne_nil hne
  rw [List.cons_append]
  unfold copy_string_data
  split
  · rename_i heq
    obtain ⟨rfl, rfl⟩ := List.cons.inj heq
    rw [takeWhile_tail (by decide)]
    rfl
  · rename_i hquote
    have hc : ∀ cs', c :: cs ≠ '"' :: cs' := fun cs' heq => hquote _ (by rw [(List.cons.inj heq).1])
    split
    · rename_i heq
      exact absurd heq (hc _)
    · rw [← List.cons_append, takeWhile_tail (by decide)]

theorem copy_to_line (hne : index ≠ []) (size : Nat) (ls : List (List Char)) : copy_to size (index ++ tail_text ls) =
    if size ≤ (copy_string_data index).1.length then none
    else some ((copy_string_data index).1, advance (index ++ tail_text ls) (copy_string_data index).2) := by
  rw [copy_to, copy_string_line hne]

theorem advance_closed (h : closed index = true) (rest : List Char) :
    advance (index ++ rest) (copy_string_data index).2 = some (index.drop (copy_string_data index).2 ++ rest) := by
  have hle : (copy_string_data index).2 ≤ index.length := by simpa [closed] using h
  rw [advance, if_pos (by rw [List.length_append]; omega), List.drop_append_of_le_length hle]

theorem front_string_ne (h : front limit l = .string index) : index ≠ [] := by
  obtain ⟨pre, c, cs, -, rfl, -⟩ := front_string h
  exact List.cons_ne_nil c cs

/-- What is behind a string is left of its line. -/
theorem mem_of_front {n : Nat} {c : Char} (h : front limit l = .string index) (hc : c ∈ index.drop n) : c ∈ l := by
  obtain ⟨pre, x, xs, rfl, rfl, -⟩ := front_string h
  exact List.mem_append_right pre (List.mem_of_mem_drop hc)

theorem get_next_key_front (size : Nat) (l : List Char) (ls : List (List Char)) :
    get_next_key size (l ++ tail_text ls) =
      match front '[' l with
      | .blank => get_next_key size (tail_text ls)
      | .limit => some none
      | .string index =>
        if size ≤ (copy_string_data index).1.length then none
        else some (some ((copy_string_data index).1, advance (index ++ tail_text ls) (copy_string_data index).2)) := by
  unfold get_next_key
  rw [goto_next_string_line]
  cases h : front '[' l with
  | blank => rfl
  | limit => rfl
  | string index =>
    dsimp only
    rw [copy_to_line (front_string_ne h)]
    split <;> rfl

/-- The line behind a newline. -/
theorem get_next_key_tail (size : Nat) (l : List Char) (ls : List (List Char)) :
    get_next_key size (tail_text (l :: ls)) = get_next_key size (l ++ tail_text ls) :=
  @get_next_key_gap ['\n'] (by decide) size (l ++ tail_text ls)

/-- Where the scan goes on from the rest of a line. -/
theorem goto_newline (hline : one_line l) (ls : List (List Char)) :
    goto_next_char (l ++ tail_text ls) '\n' '\x00' = if ls = [] then none else some (tail_text ls) := by
  rw [goto_next_char_skip fun c hc => (hline c hc).symm]
  cases ls with
  | nil => rfl
  | cons l' ls => rw [tail_text, goto_next_char, if_neg (by decide), if_pos rfl, if_neg (List.cons_ne_nil l' ls)]

theorem get_key_line (hline : one_line l) (hclosed : ∀ index, front '[' l = .string index → closed index = true)
    (ls : List (List Char)) (key : List Char) : get_key (l ++ tail_text ls) key =
      match front '[' l with
      | .blank => get_key (tail_text ls) key
      | .limit => some none
      | .string index =>
        if 32 ≤ (copy_string_data index).1.length then none
        else if key = (copy_string_data index).1 then some (some (index.drop (copy_string_data index).2 ++ tail_text ls))
        else get_key (tail_text ls) key := by
  have hnext := get_next_key_front 32 l ls
  cases h : front '[' l with
  | blank =>
    rw [h] at hnext
    exact get_key_congr hnext key
  | limit =>
    rw [h] at hnext
    rw [get_key_unfold, key_turn, hnext]
  | string index =>
    rw [h] at hnext
    dsimp only at hnext ⊢
    rw [advance_closed (hclosed index h)] at hnext
    rw [get_key_unfold, key_turn, hnext]
    by_cases hlong : 32 ≤ (copy_string_data index).1.length
    · rw [if_pos hlong, if_pos hlong]
    rw [if_neg hlong, if_neg hlong]
    dsimp only
    by_cases hkey : key = (copy_string_data index).1
    · rw [if_pos hkey, if_pos hkey]
    rw [if_neg hkey, if_neg hkey, goto_newline fun c hc => hline c (mem_of_front h hc)]
    cases ls with
    | nil => rfl
    | cons l' ls => exact get_key_congr (get_next_key_tail 32 l' ls).symm key

end Strings

/-! ## Heads -/

section Heads
variable {l name behind : List Char}

theorem get_next_head_none (hfree : brackets l = .free) (rest : List Char) :
    get_next_head (l ++ rest) = get_next_head rest := by
  have hdrop : (l.dropWhile fun c => c ≠ ']' ∧ c ≠ '[') = [] := by
    unfold brackets at hfree
    split at hfree
    · assumption
    · repeat' split at hfree
      all_goals cases hfree
  unfold get_next_head
  rw [goto_next_char_line, hdrop]

theorem get_next_head_empty (hempty : brackets l = .empty) (rest : List Char) :
    get_next_head (l ++ rest) = some none := by
  unfold brackets at hempty
  split at hempty
  · cases hempty
  · rename_i c r hdrop
    have hfront : front ']' r = .limit := by
      split at hempty
      · cases hempty
      · assumption
      · split at hempty <;> cases hempty
    unfold get_next_head
    rw [goto_next_char_line, hdrop]
    simp only [List.drop_one, List.tail_cons, goto_next_string_line, hfront]

/-- What is in brackets with a name. -/
theorem brackets_named (h : brackets l = .named name behind) :
    ∃ c r index rest, (l.dropWhile fun c => c ≠ ']' ∧ c ≠ '[') = c :: r ∧ front ']' r = .string index ∧
      closed index = true ∧ name = (copy_string_data index).1 ∧
      index.drop (copy_string_data index).2 = rest ++ ']' :: behind ∧ ']' ∉ rest := by
  unfold brackets at h
  split at h
  · cases h
  · rename_i c r hdrop
    split at h
    · cases h
    · cases h
    · rename_i index hfront
      split at h
      · cases h
      · rename_i x xs hclose
        obtain ⟨rfl, rfl⟩ := Brackets.named.inj h
        have hx : x = ']' := by
          have hnot := List.head?_dropWhile_not (fun c => decide (c ≠ ']')) (index.drop (copy_string_data index).2)
          rw [hclose] at hnot
          simpa using hnot
        have hsplit := List.takeWhile_append_dropWhile (p := fun c => decide (c ≠ ']')) (l := index.drop (copy_string_data index).2)
        rw [hclose, hx] at hsplit
        refine ⟨c, r, index, _, hdrop, hfront, ?_, rfl, hsplit.symm, ?_⟩
        · have hpos : 0 < (index.drop (copy_string_data index).2).length := by
            rw [← hsplit, List.length_append, List.length_cons]
            omega
          rw [List.length_drop] at hpos
          simp only [closed, decide_eq_true_eq]
          omega
        · intro hmem
          simpa using List.mem_takeWhile_imp hmem

/-- Where the scan stands behind brackets. -/
def behind_brackets (behind : List Char) (ls : List (List Char)) : List Char :=
  if ls = [] then ']' :: behind else tail_text ls

theorem get_next_head_named (hline : one_line l) (h : brackets l = .named name behind) (ls : List (List Char)) :
    get_next_head (l ++ tail_text ls) =
      if KEY_VALUE_MAX_LENGTH ≤ name.length then none else some (some (name, behind_brackets behind ls)) := by
  obtain ⟨c, r, index, rest, hdrop, hfront, hclosed, rfl, hrest, hmem⟩ := brackets_named h
  have hl : ∀ x ∈ rest ++ ']' :: behind, x ≠ '\n' ∧ x ≠ '\x00' := by
    intro x hx
    have hr : x ∈ r := mem_of_front hfront (hrest ▸ hx)
    have hd : x ∈ l.dropWhile fun c => c ≠ ']' ∧ c ≠ '[' := by
      rw [hdrop]
      exact List.mem_cons_of_mem c hr
    exact hline x ((List.dropWhile_suffix _).subset hd)
  have hclose : goto_next_char (rest ++ ']' :: behind ++ tail_text ls) ']' '\x00' = some (']' :: behind ++ tail_text ls) := by
    have hskip : ∀ x ∈ rest, x ≠ '\x00' ∧ x ≠ ']' :=
      fun x hx => ⟨(hl x (by simp [hx])).2, fun heq => hmem (heq ▸ hx)⟩
    rw [List.append_assoc, goto_next_char_skip hskip, List.cons_append, goto_next_char, if_neg (by decide), if_pos rfl]
  have hend : goto_next_char (']' :: behind ++ tail_text ls) '\n' '\x00' = if ls = [] then none else some (tail_text ls) :=
    goto_newline (fun x hx => hl x (List.mem_append_right rest hx)) ls
  unfold get_next_head
  rw [goto_next_char_line, hdrop]
  simp only [List.drop_one, List.tail_cons, goto_next_string_line, hfront, copy_to_line (front_string_ne hfront),
    advance_closed hclosed, hrest]
  by_cases hlong : KEY_VALUE_MAX_LENGTH ≤ (copy_string_data index).1.length
  · rw [if_pos hlong, if_pos hlong]
  · rw [if_neg hlong, if_neg hlong]
    simp only [hclose, hend, behind_brackets]
    cases ls with
    | nil => simp [tail_text]
    | cons l' ls => simp

theorem goto_next_string_none {text : List Char} (h : ∀ c ∈ text, is_string_start c = false) (limit : Char) :
    goto_next_string text limit = none := by
  induction text with
  | nil => rfl
  | cons c cs ih =>
    rw [List.forall_mem_cons] at h
    rw [goto_next_string, if_neg (by simp [h.1] : ¬is_string_start c = true), ih h.2]
    exact ite_self none

/-- Behind the last bracket of the text nothing is found. -/
theorem behind_last (h : ∀ c ∈ behind, is_string_start c = false) (grou key : List Char) :
    get_head_start (']' :: behind) grou = some none ∧ get_key (']' :: behind) key = some none := by
  constructor
  · have hopen : goto_next_char (']' :: behind) '[' ']' = some (']' :: behind) := by rw [goto_next_char, if_pos rfl]
    have hnext : get_next_head (']' :: behind) = some none := by
      unfold get_next_head
      rw [hopen]
      simp only [List.drop_one, List.tail_cons, goto_next_string_none h]
    rw [get_head_start_unfold, head_turn, hnext]
  · have hnext : get_next_key 32 (']' :: behind) = some none := by
      rw [get_next_key, goto_next_string_none (List.forall_mem_cons.2 ⟨by decide, h⟩)]
    rw [get_key_unfold, key_turn, hnext]

/-- The turn at a line with a name in brackets. -/
theorem get_head_start_named (hline : one_line l) (h : brackets l = .named name behind) {ls : List (List Char)}
    (hlast : ls = [] → ∀ c ∈ behind, is_string_start c = false) (grou : List Char) :
    get_head_start (l ++ tail_text ls) grou =
      if KEY_VALUE_MAX_LENGTH ≤ name.length then none
      else if name = grou then some (some (behind_brackets behind ls)) else get_head_start (tail_text ls) grou := by
  rw [get_head_start_unfold, head_turn, get_next_head_named hline h]
  by_cases hlong : KEY_VALUE_MAX_LENGTH ≤ name.length
  · rw [if_pos hlong, if_pos hlong]
  rw [if_neg hlong, if_neg hlong]
  dsimp only
  by_cases hname : name = grou
  · rw [if_pos hname, if_pos hname]
  rw [if_neg hname, if_neg hname, behind_brackets]
  cases ls with
  | nil => exact (behind_last (hlast rfl) grou []).1
  | cons l' ls => rfl

/-- The keys of a section are those on the lines behind its head. -/
theorem get_key_behind {ls : List (List Char)} (hlast : ls = [] → ∀ c ∈ behind, is_string_start c = false)
    (key : List Char) : get_key (behind_brackets behind ls) key = get_key (tail_text ls) key := by
  cases ls with
  | nil => exact (behind_last (hlast rfl) [] key).2
  | cons l' ls => rfl

end Heads

end McLinOS.Ini
