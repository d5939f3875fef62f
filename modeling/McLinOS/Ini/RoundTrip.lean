import McLinOS.Ini.Document
/-!
# Reading a configuration back

What the scanners find in the stripped lines: a head or a key at the beginning
of a line, behind blank lines.
-/
open CLib

namespace McLinOS.Ini

open Syscall

/-! ## Characters -/

theorem is_copied_of_is_name {c : Char} (h : is_name c = true) : is_copied c = true := by
  simp only [is_name, is_copied, Bool.decide_or, Bool.or_eq_true, decide_eq_true_eq, Bool.decide_eq_true] at h ⊢
  rcases h with h | rfl | rfl | rfl
  · exact .inl h
  · exact .inr (.inr (.inr rfl))
  · exact .inr (.inl (by decide))
  · exact .inr (.inl (by decide))

theorem is_copied_of_start {c : Char} (h : is_string_start c = true) : is_copied c = true := by
  simp only [is_string_start, is_copied, Bool.decide_or, Bool.or_eq_true, decide_eq_true_eq, Bool.decide_eq_true] at h ⊢
  rcases h with h | rfl | rfl | rfl
  · exact .inl h
  · exact .inr (.inr (.inr rfl))
  · exact .inr (.inl (by decide))
  · exact .inr (.inl (by decide))

theorem not_start_of_is_blank {c : Char} (h : is_blank c = true) : is_string_start c = false := by
  simp only [is_blank, decide_eq_true_eq] at h
  rcases h with rfl | rfl <;> decide

theorem not_bracket_of_is_blank {c : Char} (h : is_blank c = true) : is_bracket c = false := by
  simp only [is_blank, decide_eq_true_eq] at h
  rcases h with rfl | rfl <;> decide

theorem not_copied_of_is_blank {c : Char} (h : is_blank c = true) : is_copied c = false := by
  simp only [is_blank, decide_eq_true_eq] at h
  rcases h with rfl | rfl <;> decide

theorem not_bracket_of_is_name {c : Char} (h : is_name c = true) : is_bracket c = false := by
  simpa [is_bracket] using ⟨ne_of_is_name h (d := '[') (by decide), ne_of_is_name h (d := ']') (by decide)⟩

theorem starts_cons {w : List Char} (h : starts w = true) : ∃ c cs, w = c :: cs ∧ is_string_start c = true := by
  cases w with
  | nil => simp [starts] at h
  | cons c cs => exact ⟨c, cs, rfl, by simpa [starts] using h⟩

/-- What is skipped on the way to a key. -/
def is_gap (c : Char) : Bool := is_blank c ∨ c = '\n'

theorem is_gap_spec {c : Char} (h : is_gap c = true) : c ≠ '[' ∧ is_string_start c = false := by
  simp only [is_gap, Bool.decide_or, Bool.or_eq_true, decide_eq_true_eq, Bool.decide_eq_true] at h
  rcases h with h | rfl
  · exact ⟨ne_of_is_blank h (by decide), not_start_of_is_blank h⟩
  · decide

/-! ## Tokens -/

/-- The rest of the text is not copied along with a line. -/
theorem takeWhile_tail {p : Char → Bool} (hp : p '\n' = false) (l : List Char) (ls : List (List Char)) :
    (l ++ tail_text ls).takeWhile p = l.takeWhile p := by
  induction l with
  | nil =>
    cases ls with
    | nil => rfl
    | cons l ls => simp [tail_text, hp]
  | cons c cs ih => rw [List.cons_append, List.takeWhile_cons, List.takeWhile_cons, ih]

/-- A token at the beginning of a line. -/
theorem get_next_key_line (size : Nat) {l : List Char} (hl : starts l = true) (hq : l.head? ≠ some '"')
    (ls : List (List Char)) : get_next_key size (l ++ tail_text ls) =
      if size ≤ (l.takeWhile is_copied).length then none
      else some (some (l.takeWhile is_copied, some (l.drop (l.takeWhile is_copied).length ++ tail_text ls))) := by
  obtain ⟨c, cs, rfl, hc⟩ := starts_cons hl
  have hlimit : c ≠ '[' := by
    rintro rfl
    simp [is_string_start, is_alnum] at hc
  have hquote : c ≠ '"' := fun h => hq (by simp [h])
  have hcopy : copy_string_data (c :: cs ++ tail_text ls) =
      ((c :: cs).takeWhile is_copied, ((c :: cs).takeWhile is_copied).length) := by
    unfold copy_string_data
    split
    · rename_i heq
      exact absurd (List.cons.inj heq).1 hquote
    · rw [takeWhile_tail (by decide)]
  have hle : ((c :: cs).takeWhile is_copied).length ≤ (c :: cs).length := (List.takeWhile_prefix is_copied).length_le
  have hadvance : advance (c :: cs ++ tail_text ls) ((c :: cs).takeWhile is_copied).length =
      some ((c :: cs).drop ((c :: cs).takeWhile is_copied).length ++ tail_text ls) := by
    rw [advance, if_pos (by rw [List.length_append]; omega), List.drop_append_of_le_length hle]
  have hstart : goto_next_string (c :: cs ++ tail_text ls) '[' = some (c :: cs ++ tail_text ls) :=
    goto_next_string_start hlimit hc
  simp only [get_next_key, hstart, copy_to, hcopy, hadvance]
  split <;> rfl

theorem get_next_key_gap {ws : List Char} (h : ∀ c ∈ ws, is_gap c = true) (size : Nat) (rest : List Char) :
    get_next_key size (ws ++ rest) = get_next_key size rest := by
  unfold get_next_key
  rw [goto_next_string_skip fun c hc => is_gap_spec (h c hc)]

/-! ## Keys -/

theorem get_key_congr {text text' : List Char} (h : get_next_key 32 text = get_next_key 32 text') (key : List Char) :
    get_key text key = get_key text' key := by
  rw [get_key_unfold, get_key_unfold text', key_turn, key_turn, h]

theorem get_key_gap (ws : List Char) (h : ∀ c ∈ ws, is_gap c = true) (rest key : List Char) :
    get_key (ws ++ rest) key = get_key rest key := get_key_congr (get_next_key_gap h 32 rest) key

section Lines
variable {l key : List Char} {ls : List (List Char)}

theorem get_key_blank (h : ∀ c ∈ l, is_blank c = true) :
    get_key (tail_text (l :: ls)) key = get_key (tail_text ls) key := by
  refine get_key_gap ('\n' :: l) (List.forall_mem_cons.2 ⟨rfl, fun c hc => ?_⟩) _ key
  simp [is_gap, h c hc]

theorem get_key_fillers (fs : List Filler) :
    get_key (tail_text (fs.map (·.blanks.val) ++ ls)) key = get_key (tail_text ls) key := by
  induction fs with
  | nil => rfl
  | cons f fs ih => exact (get_key_blank f.blanks.2).trans ih

/-- The next head ends the search. -/
theorem get_key_head (s : Section) : get_key (tail_text (s.head :: ls)) key = some none := by
  rw [get_key_unfold]
  have hnone : get_next_key 32 (tail_text (s.head :: ls)) = some none := by
    unfold get_next_key
    rw [tail_text, Section.head, goto_next_string, if_neg (by decide), if_neg (by decide), List.cons_append,
      goto_next_string, if_pos rfl]
  rw [key_turn, hnone]

/-- The key of a line. -/
theorem get_key_found (hl : starts l = true) (hq : l.head? ≠ some '"') (hkey : l.takeWhile is_copied = key)
    (hshort : key.length < 32) :
    get_key (tail_text (l :: ls)) key = some (some (l.drop key.length ++ tail_text ls)) := by
  have hgap : get_key (tail_text (l :: ls)) key = get_key (l ++ tail_text ls) key :=
    get_key_gap ['\n'] (by decide) _ key
  rw [hgap, get_key_unfold, key_turn, get_next_key_line 32 hl hq, hkey, if_neg (by omega)]
  simp

/-- A line with another key is passed, unless it overruns the buffer. -/
theorem get_key_pass (hl : starts l = true) (hq : l.head? ≠ some '"') (hone : one_line l)
    (hkey : l.takeWhile is_copied ≠ key) : get_key (tail_text (l :: ls)) key =
      if (l.takeWhile is_copied).length < 32 then get_key (tail_text ls) key else none := by
  have hgap : get_key (tail_text (l :: ls)) key = get_key (l ++ tail_text ls) key :=
    get_key_gap ['\n'] (by decide) _ key
  rw [hgap, get_key_unfold, key_turn, get_next_key_line 32 hl hq]
  by_cases hshort : (l.takeWhile is_copied).length < 32
  · rw [if_pos hshort, if_neg (by omega)]
    dsimp only
    rw [if_neg (Ne.symm hkey), goto_next_char_skip fun c hc => (hone c (List.mem_of_mem_drop hc)).symm]
    cases ls with
    | nil => rfl
    | cons l' ls =>
      have hline : goto_next_char (tail_text (l' :: ls)) '\n' '\x00' = some (tail_text (l' :: ls)) := by
        rw [tail_text, goto_next_char, if_neg (by decide), if_pos rfl]
      rw [hline]
      exact (get_key_gap ['\n'] (by decide) (l' ++ tail_text ls) key).symm
  · rw [if_neg hshort, if_pos (by omega)]

end Lines

/-! ## Pairs -/

theorem starts_append {w : List Char} (h : starts w = true) (rest : List Char) : starts (w ++ rest) = true := by
  obtain ⟨c, cs, rfl, hc⟩ := starts_cons h
  simpa [starts] using hc

theorem Word.no_quote {w : Word} {c : Char} (h : c ∈ w.val) : c ≠ '"' := ne_of_is_name (w.2 c h) (by decide)

theorem Word.head_append {w : Word} (h : starts w.val = true) (rest : List Char) :
    (w.val ++ rest).head? ≠ some '"' := by
  obtain ⟨c, cs, hw, -⟩ := starts_cons h
  intro hq
  simp only [hw, List.cons_append, List.head?_cons, Option.some.injEq] at hq
  exact Word.no_quote (hw ▸ List.mem_cons_self : c ∈ w.val) hq

section Tokens
variable {p : Pair} {key : Word}

theorem Pair.starts_line (h : starts p.key.val = true) : starts (strip p.line) = true := by
  rw [p.strip_line]
  exact starts_append h _

theorem Pair.line_head (h : starts p.key.val = true) : (strip p.line).head? ≠ some '"' := by
  rw [p.strip_line]
  exact Word.head_append h _

theorem Pair.stripped_one_line (p : Pair) : one_line (strip p.line) :=
  fun c hc => p.line_one_line c ((List.takeWhile_prefix _).subset hc)

theorem Pair.token_blank (h : p.before.val ≠ []) : p.token = p.key.val := by
  obtain ⟨b, bs, hb⟩ := List.exists_cons_of_ne_nil h
  rw [Pair.token, p.strip_line]
  refine takeWhile_append_stop (fun c hc => is_copied_of_is_name (p.key.2 c hc)) fun c hc => ?_
  simp only [hb, List.cons_append, List.head?_cons, Option.mem_some] at hc
  exact hc ▸ not_copied_of_is_blank (p.before.2 b (by simp [hb]))

/-- Without a blank the equals sign is copied too. -/
theorem Pair.token_equals (h : p.before.val = []) : '=' ∈ p.token := by
  rw [Pair.token, p.strip_line, List.takeWhile_append_of_pos fun c hc => is_copied_of_is_name (p.key.2 c hc), h,
    List.nil_append, List.takeWhile_cons, if_pos (by decide)]
  simp

theorem Pair.token_ne (h : p.before.val = []) : p.token ≠ key.val := by
  intro heq
  have hmem := Pair.token_equals h
  rw [heq] at hmem
  exact ne_of_is_name (key.2 _ hmem) (d := '=') (by decide) rfl

theorem Pair.token_ne_key (h : p.key ≠ key) : p.token ≠ key.val := by
  by_cases hb : p.before.val = []
  · exact Pair.token_ne hb
  · rw [Pair.token_blank hb]
    exact fun heq => h (Subtype.ext heq)

/-- Pairs that do not show the key are passed, if what is copied of them fits. -/
theorem get_key_pairs {ps : List Pair} (hstart : ∀ p ∈ ps, starts p.key.val = true)
    (hne : ∀ p ∈ ps, p.token ≠ key.val) (ls : List (List Char)) :
    get_key (tail_text (ps.flatMap (·.stripped) ++ ls)) key.val =
      if ∀ p ∈ ps, p.token.length < 32 then get_key (tail_text ls) key.val else none := by
  -- A token that does not fit ends the scan there, and the pairs behind it are not looked at.
  induction ps with
  | nil => simp
  | cons p ps ih =>
    rw [List.forall_mem_cons] at hstart hne
    rw [List.flatMap_cons, Pair.stripped, List.append_assoc, List.append_assoc, get_key_fillers, List.singleton_append,
      get_key_pass (Pair.starts_line hstart.1) (Pair.line_head hstart.1) p.stripped_one_line hne.1, ih hstart.2 hne.2]
    simp only [List.forall_mem_cons]
    by_cases hp : p.token.length < 32
    · have hp' : ((strip p.line).takeWhile is_copied).length < 32 := hp
      simp only [hp, hp', if_true, true_and]
    · have hp' : ¬((strip p.line).takeWhile is_copied).length < 32 := hp
      simp only [hp, hp', if_false, false_and]

/-- The key is found, and the scan stops behind it. -/
theorem get_key_pair (hstart : starts p.key.val = true) (hb : p.before.val ≠ []) (hshort : p.key.val.length < 32)
    (ls : List (List Char)) : get_key (tail_text (p.stripped ++ ls)) p.key.val =
      some (some (p.before.val ++ '=' :: (p.after.val ++ strip p.value.text) ++ tail_text ls)) := by
  rw [Pair.stripped, List.append_assoc, get_key_fillers, List.singleton_append,
    get_key_found (Pair.starts_line hstart) (Pair.line_head hstart) (Pair.token_blank hb) hshort, p.strip_line,
    List.drop_left]

end Tokens

/-- Behind the pairs of a section its keys end. -/
theorem get_key_end (later : List Section) (fs : List Filler) (key : List Char) :
    get_key (tail_text (later.flatMap (·.stripped) ++ fs.map (·.blanks.val))) key = some none := by
  cases later with
  | nil =>
    have h : get_key (tail_text (fs.map (·.blanks.val) ++ [])) key = get_key [] key := get_key_fillers fs
    rw [List.append_nil] at h
    exact h
  | cons s later =>
    rw [List.flatMap_cons, Section.stripped, List.append_assoc, List.append_assoc, get_key_fillers]
    exact get_key_head s

/-! ## Heads -/

theorem get_next_head_free {pre : List Char} (h : ∀ c ∈ pre, is_bracket c = false) (rest : List Char) :
    get_next_head (pre ++ rest) = get_next_head rest := by
  unfold get_next_head
  rw [goto_next_char_skip fun c hc => by simpa [is_bracket, and_comm] using h c hc]

theorem get_head_start_free (pre : List Char) (h : ∀ c ∈ pre, is_bracket c = false) (rest head : List Char) :
    get_head_start (pre ++ rest) head = get_head_start rest head := by
  rw [get_head_start_unfold, get_head_start_unfold rest, head_turn, head_turn, get_next_head_free h]

theorem get_head_start_lines {ls : List (List Char)} (h : ∀ l ∈ ls, ∀ c ∈ l, is_bracket c = false)
    (ls' : List (List Char)) (head : List Char) :
    get_head_start (tail_text (ls ++ ls')) head = get_head_start (tail_text ls') head := by
  induction ls with
  | nil => rfl
  | cons l ls ih =>
    rw [List.forall_mem_cons] at h
    have hpre : ∀ c ∈ '\n' :: l, is_bracket c = false := List.forall_mem_cons.2 ⟨by decide, h.1⟩
    exact (get_head_start_free _ hpre _ head).trans (ih h.2)

/-- Where the scan stands behind a head: at the newline, or at the bracket. -/
def after_head (ls : List (List Char)) : List Char := if ls = [] then [']'] else tail_text ls

theorem get_next_head_head {s : Section} (hname : starts s.name.val = true) (hshort : s.name.val.length < 64)
    (ls : List (List Char)) : get_next_head (tail_text (s.head :: ls)) = some (some (s.name.val, after_head ls)) := by
  obtain ⟨c, cs, hw, hc⟩ := starts_cons hname
  have hcne : c ≠ ']' := ne_of_is_name (s.name.2 c (by simp [hw])) (by decide)
  have hstart : goto_next_string (s.name.val ++ ']' :: tail_text ls) ']' = some (s.name.val ++ ']' :: tail_text ls) := by
    rw [hw]
    exact goto_next_string_start hcne hc
  have hcopy : copy_string_data (s.name.val ++ ']' :: tail_text ls) = (s.name.val, s.name.val.length) := by
    refine copy_string_word (by simp [hw]) (fun h => Word.no_quote h rfl)
      (fun c hc => is_copied_of_is_name (s.name.2 c hc)) ?_
    simp only [List.head?_cons, Option.mem_some]
    rintro _ rfl
    decide
  have hcopied : copy_to KEY_VALUE_MAX_LENGTH (s.name.val ++ ']' :: tail_text ls) =
      some (s.name.val, some (']' :: tail_text ls)) := by
    rw [copy_to, hcopy]
    dsimp only
    rw [KEY_VALUE_MAX_LENGTH, if_neg (by omega), advance, if_pos (by simp), List.drop_left]
  have hopen : goto_next_char (tail_text (s.head :: ls)) '[' ']' =
      some ('[' :: (s.name.val ++ ']' :: tail_text ls)) := by
    rw [tail_text, Section.head, goto_next_char, if_neg (by decide), if_neg (by decide), List.cons_append,
      goto_next_char, if_neg (by decide), if_pos rfl]
    simp
  have hclose : goto_next_char (']' :: tail_text ls) ']' '\x00' = some (']' :: tail_text ls) := by
    rw [goto_next_char, if_neg (by decide), if_pos rfl]
  have hskip : goto_next_char (']' :: tail_text ls) '\n' '\x00' = goto_next_char (tail_text ls) '\n' '\x00' := by
    rw [goto_next_char, if_neg (by decide), if_neg (by decide)]
  -- In the last line there is no newline to stop at, and the scan stays at the bracket.
  simp only [get_next_head, hopen, List.drop_one, List.tail_cons, hstart, hcopied, hclose, hskip]
  cases ls with
  | nil => rfl
  | cons l ls =>
    rw [tail_text, goto_next_char, if_neg (by decide), if_pos rfl]
    rfl

/-- A head of another name is passed. -/
theorem get_head_start_head {s : Section} (hname : starts s.name.val = true) (hshort : s.name.val.length < 64)
    (ls : List (List Char)) (head : List Char) : get_head_start (tail_text (s.head :: ls)) head =
      if s.name.val = head then some (some (after_head ls)) else get_head_start (tail_text ls) head := by
  rw [get_head_start_unfold, head_turn, get_next_head_head hname hshort]
  dsimp only
  by_cases hhead : s.name.val = head
  · rw [if_pos hhead, if_pos hhead]
  · rw [if_neg hhead, if_neg hhead]
    cases ls with
    | nil => rfl
    | cons l ls => rfl

end McLinOS.Ini
