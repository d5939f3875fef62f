import McLinOS.Ini.Lines
import McLinOS.Ini.Theorems
/-!
# Values and the lines they stand on

A value belongs to the key at the beginning of its line. The scanners do not
stop at the end of a line, so it is the text that must keep them on it.
-/
open CLib

namespace McLinOS.Ini

open Syscall

/-- What a lookup of the key gives, against the lines of the section. An access
outside of the buffers is no answer. -/
structure OwnLine (ls : List (List Char)) (key : List Char) (result : Option (Option (List Char × Option (List Char)))) :
    Prop where
  defined : result ≠ none
  own : ∀ v index, result = some (some (v, index)) → ∃ l ∈ ls, has_key key l = true ∧ line_value l = some v
  null : ∀ l ∈ ls.find? (has_key key), line_value l = none → result = some none
  absent : (∀ l ∈ ls, has_key key l = false) → result = some none

/-! ## When it holds -/

/-- Nothing is read before the next head or the end. -/
def ended : List (List Char) → Bool
  | [] => true
  | l :: ls =>
    match front '[' l with
    | .blank => ended ls
    | .limit => true
    | .string _ => false

/-- Behind the key: blanks, the equals sign and a value that fits. Without the
sign there is another line; without a value, or without the sign, nothing else
is found in its place. -/
def value_fits (size : Nat) (rest : List Char) (ls : List (List Char)) : Bool :=
  match rest.dropWhile fun c => c ≠ '=' with
  | [] => !ls.isEmpty && ended ls
  | _ :: r =>
    match front '[' r with
    | .blank => ended ls
    | .limit => true
    | .string index =>
      (rest.takeWhile fun c => c ≠ '=').all is_blank && decide ((copy_string_data index).1.length < size)

/-- The first strings of the lines fit, up to the one that is the key. -/
def keys_fit (size : Nat) (key : List Char) : List (List Char) → Bool
  | [] => true
  | l :: ls =>
    match front '[' l with
    | .blank => keys_fit size key ls
    | .limit => true
    | .string index =>
      decide ((copy_string_data index).1.length < 32) &&
        if key = (copy_string_data index).1 then value_fits size (index.drop (copy_string_data index).2) ls
        else keys_fit size key ls

/-- The names in brackets fit, up to the one looked for. -/
def heads_fit (size : Nat) (grou key : List Char) : List (List Char) → Bool
  | [] => true
  | l :: ls =>
    match brackets l with
    | .free => heads_fit size grou key ls
    | .empty | .cut => true
    | .named name _ =>
      decide (name.length < KEY_VALUE_MAX_LENGTH) &&
        if name = grou then keys_fit size key ls else heads_fit size grou key ls

def lookup_fits (size : Nat) (grou : Option (List Char)) (key : List Char) (ls : List (List Char)) : Bool :=
  match grou with
  | none => keys_fit size key ls
  | some grou => heads_fit size grou key ls

/-! ## Plain texts -/

/-- No quote is left open in the first strings of the lines, up to the key. -/
def keys_plain (key : List Char) : List (List Char) → Bool
  | [] => true
  | l :: ls =>
    match front '[' l with
    | .blank => keys_plain key ls
    | .limit => true
    | .string index => closed index && (decide (key = (copy_string_data index).1) || keys_plain key ls)

/-- Brackets end on their line, those around the name looked for are a head, and
no string follows them at the end of the text. -/
def heads_plain (grou key : List Char) : List (List Char) → Bool
  | [] => true
  | l :: ls =>
    match brackets l with
    | .free => heads_plain grou key ls
    | .empty => true
    | .cut => false
    | .named name behind =>
      (!ls.isEmpty || behind.all fun c => !is_string_start c) &&
        if name = grou then is_head l && keys_plain key ls else heads_plain grou key ls

def lookup_plain (grou : Option (List Char)) (key : List Char) (ls : List (List Char)) : Bool :=
  match grou with
  | none => keys_plain key ls
  | some grou => heads_plain grou key ls

/-! ## Answers -/

section Answers
variable {l key : List Char} {ls : List (List Char)} {result : Option (Option (List Char × Option (List Char)))}

theorem OwnLine.not_found : OwnLine ls key (some none) where
  defined := by simp
  own := by simp
  null := fun _ _ _ => rfl
  absent := fun _ => rfl

theorem not_own_line_none : ¬OwnLine ls key none := fun h => h.defined rfl

/-- A line without the key changes nothing. -/
theorem own_line_cons (hkey : has_key key l = false) : OwnLine (l :: ls) key result ↔ OwnLine ls key result := by
  have hfind : (l :: ls).find? (has_key key) = ls.find? (has_key key) := by rw [List.find?_cons_of_neg (by simp [hkey])]
  constructor
  · intro h
    refine ⟨h.defined, ?_, fun l' hl' => h.null l' (hfind ▸ hl'), ?_⟩
    · intro v index hv
      obtain ⟨l', hl', hown⟩ := h.own v index hv
      rcases List.mem_cons.1 hl' with rfl | hl'
      · rw [hkey] at hown
        exact absurd hown.1 (by decide)
      · exact ⟨l', hl', hown⟩
    · intro habsent
      exact h.absent (List.forall_mem_cons.2 ⟨hkey, habsent⟩)
  · intro h
    refine ⟨h.defined, ?_, fun l' hl' => h.null l' (hfind ▸ hl'), ?_⟩
    · intro v index hv
      obtain ⟨l', hl', hown⟩ := h.own v index hv
      exact ⟨l', List.mem_cons_of_mem l hl', hown⟩
    · intro habsent
      exact h.absent (List.forall_mem_cons.1 habsent).2

/-- The line of the key has no value. -/
theorem own_line_no_value (hkey : has_key key l = true) (hnone : line_value l = none) :
    OwnLine (l :: ls) key result ↔ result = some none := by
  constructor
  · exact fun h => h.null l (by rw [List.find?_cons_of_pos hkey]; rfl) hnone
  · rintro rfl
    exact .not_found

/-- The line of the key has a value, and it is the one that is found. -/
theorem own_line_value {v : List Char} (hkey : has_key key l = true) (hvalue : line_value l = some v)
    (index : Option (List Char)) : OwnLine (l :: ls) key (some (some (v, index))) where
  defined := by simp
  own := by
    intro v' index' heq
    simp only [Option.some.injEq, Prod.mk.injEq] at heq
    exact ⟨l, List.mem_cons_self, hkey, heq.1 ▸ hvalue⟩
  null := by
    intro l' hl' hnone
    rw [List.find?_cons_of_pos hkey, Option.mem_some] at hl'
    rw [← hl', hvalue] at hnone
    cases hnone
  absent := by
    intro habsent
    rw [(List.forall_mem_cons.1 habsent).1] at hkey
    cases hkey

end Answers

/-! ## The value -/

section Value
variable {l rest key index : List Char} {ls : List (List Char)}

theorem ended_iff (size : Nat) : ended ls = true ↔ get_next_key size (tail_text ls) = some none := by
  induction ls with
  | nil => simp [ended, tail_text, get_next_key, goto_next_string]
  | cons l ls ih =>
    rw [ended, get_next_key_tail, get_next_key_front]
    cases front '[' l with
    | blank => exact ih
    | limit => simp
    | string index =>
      dsimp only
      split <;> simp

theorem after_equals_none (h : (rest.dropWhile fun c => c ≠ '=') = []) : after_equals rest = none := by
  rw [List.dropWhile_eq_nil_iff] at h
  unfold after_equals
  split
  · rfl
  · rename_i c r hdrop
    have hmem : c ∈ rest := (List.dropWhile_suffix is_blank).subset (by rw [hdrop]; exact List.mem_cons_self)
    rw [if_neg (by simpa using h c hmem)]

/-- The first equals sign of a line has nothing but blanks before it, or it does
not follow. -/
theorem after_equals_some {c : Char} {r : List Char} (h : (rest.dropWhile fun c => c ≠ '=') = c :: r) :
    after_equals rest = if (rest.takeWhile fun c => c ≠ '=').all is_blank then some r else none := by
  induction rest with
  | nil => cases h
  | cons x xs ih =>
    by_cases hx : x = '='
    · subst hx
      obtain ⟨-, rfl⟩ := List.cons.inj h
      rfl
    · rw [List.dropWhile_cons_of_pos (by simpa using hx)] at h
      rw [List.takeWhile_cons_of_pos (by simpa using hx), List.all_cons]
      by_cases hblank : is_blank x = true
      · rw [hblank, Bool.true_and, ← ih h, after_equals, List.dropWhile_cons_of_pos hblank]
        rfl
      · rw [after_equals, List.dropWhile_cons_of_neg hblank]
        simp [hx, hblank]

/-- What is read once the key was found, with `rest` behind it on the line. -/
theorem get_value_line {size : Nat} {text : List Char} (hline : one_line rest)
    (hkey : get_key text key = some (some (rest ++ tail_text ls))) : get_value size text key =
      match rest.dropWhile fun c => c ≠ '=' with
      | [] => if ls = [] then none else get_next_key size (tail_text ls)
      | _ :: r => get_next_key size (r ++ tail_text ls) := by
  have hskip : ∀ xs ⊆ rest, (∀ c ∈ xs, c ≠ '=') → ∀ c ∈ xs, c ≠ '\n' ∧ c ≠ '=' :=
    fun xs hxs hne c hc => ⟨(hline c (hxs hc)).1, hne c hc⟩
  rw [get_value, hkey]
  dsimp only
  cases hdrop : rest.dropWhile fun c => c ≠ '=' with
  | nil =>
    rw [List.dropWhile_eq_nil_iff] at hdrop
    rw [goto_next_char_skip (hskip rest (List.Subset.refl _) fun c hc => by simpa using hdrop c hc)]
    cases ls with
    | nil => rfl
    | cons l' ls =>
      rw [if_neg (List.cons_ne_nil l' ls), get_next_key_tail, tail_text, goto_next_char, if_pos rfl]
      rfl
  | cons c r =>
    have hc : c = '=' := by
      have hnot := List.head?_dropWhile_not (fun c => decide (c ≠ '=')) rest
      rw [hdrop] at hnot
      simpa using hnot
    have hpre : ∀ c ∈ rest.takeWhile fun c => c ≠ '=', c ≠ '\n' ∧ c ≠ '=' :=
      hskip _ (List.takeWhile_prefix _).subset fun c hc => by simpa using List.mem_takeWhile_imp hc
    have hsplit : rest ++ tail_text ls = (rest.takeWhile fun c => c ≠ '=') ++ '=' :: (r ++ tail_text ls) := by
      have htake := List.takeWhile_append_dropWhile (p := fun c => decide (c ≠ '=')) (l := rest)
      rw [hdrop, hc] at htake
      conv_lhs => rw [← htake, List.append_assoc]
      rfl
    rw [hsplit, goto_next_char_skip hpre, goto_next_char, if_neg (by decide), if_pos rfl]
    rfl

/-- The value behind the key at the beginning of a line. -/
theorem own_line_found {size : Nat} {text : List Char} {xs : List (List Char)} (hline : one_line l)
    (hfront : front '[' l = .string index) (hkey : key = (copy_string_data index).1)
    (hfound : get_key text key = some (some (index.drop (copy_string_data index).2 ++ tail_text ls))) :
    OwnLine (l :: xs) key (get_value size text key) ↔ value_fits size (index.drop (copy_string_data index).2) ls = true := by
  have hfirst := (first_token_of_front hline).1 index hfront
  have hhas : has_key key l = true := by simp [has_key, hfirst, hkey]
  have hvalue : line_value l = (after_equals (index.drop (copy_string_data index).2)).bind fun r =>
      (first_token r).map (·.1) := by rw [line_value, hfirst, Option.bind_some]
  have hrest : one_line (index.drop (copy_string_data index).2) := fun c hc => hline c (mem_of_front hfront hc)
  rw [get_value_line hrest hfound, value_fits]
  cases hdrop : (index.drop (copy_string_data index).2).dropWhile fun c => c ≠ '=' with
  | nil =>
    rw [after_equals_none hdrop, Option.bind_none] at hvalue
    rw [own_line_no_value hhas hvalue]
    cases ls with
    | nil => simp
    | cons l' ls => simp [ended_iff size]
  | cons c r =>
    have hr : one_line r := fun x hx => hrest x
      ((List.dropWhile_suffix _).subset (by rw [hdrop]; exact List.mem_cons_of_mem c hx))
    rw [after_equals_some hdrop] at hvalue
    dsimp only
    rw [get_next_key_front]
    cases hsecond : front '[' r with
    | blank =>
      have hnone : line_value l = none := by
        rw [hvalue]
        split
        · rw [Option.bind_some, (first_token_of_front hr).2 hsecond]
          rfl
        · rfl
      exact (own_line_no_value hhas hnone).trans (ended_iff size).symm
    | limit => exact iff_of_true .not_found rfl
    | string second =>
      dsimp only
      by_cases hblank : ((index.drop (copy_string_data index).2).takeWhile fun c => c ≠ '=').all is_blank = true
      · rw [if_pos hblank, Option.bind_some, (first_token_of_front hr).1 second hsecond, Option.map_some] at hvalue
        rw [hblank, Bool.true_and, decide_eq_true_eq]
        by_cases hsize : size ≤ (copy_string_data second).1.length
        · rw [if_pos hsize]
          exact iff_of_false not_own_line_none (by omega)
        · rw [if_neg hsize]
          exact iff_of_true (own_line_value hhas hvalue _) (by omega)
      · rw [if_neg hblank, Option.bind_none] at hvalue
        rw [own_line_no_value hhas hvalue, Bool.eq_false_iff.2 hblank, Bool.false_and]
        split <;> exact iff_of_false (by simp) (by decide)

end Value

/-! ## The key -/

section Key
variable {size : Nat} {key : List Char}

theorem get_value_congr {text text' : List Char} (h : get_key text key = get_key text' key) :
    get_value size text key = get_value size text' key := by rw [get_value, get_value, h]

theorem not_head_of_front {l : List Char} {f : Front} (h : front '[' l = f) (hne : f ≠ .limit) : is_head l = false :=
  Bool.eq_false_iff.2 fun hhead => hne (h.symm.trans (front_of_is_head hhead))

theorem own_line_keys {ls : List (List Char)} (hlines : ∀ l ∈ ls, one_line l) (hplain : keys_plain key ls = true) :
    OwnLine (ls.takeWhile fun l => !is_head l) key (get_value size (tail_text ls) key) ↔ keys_fit size key ls = true := by
  induction ls with
  | nil => exact iff_of_true .not_found rfl
  | cons l ls ih =>
    rw [List.forall_mem_cons] at hlines
    have hgap : get_key (tail_text (l :: ls)) key = get_key (l ++ tail_text ls) key :=
      get_key_congr (get_next_key_tail 32 l ls) key
    rw [keys_plain] at hplain
    rw [keys_fit]
    cases hfront : front '[' l with
    | blank =>
      rw [hfront] at hplain
      have hpass := get_key_line hlines.1 (by simp [hfront]) ls key
      rw [hfront] at hpass
      have hno : has_key key l = false := by rw [has_key, (first_token_of_front hlines.1).2 hfront]; rfl
      rw [List.takeWhile_cons_of_pos (by simp [not_head_of_front hfront]), own_line_cons hno,
        get_value_congr (hgap.trans hpass)]
      exact ih hlines.2 hplain
    | limit =>
      have hend := get_key_line hlines.1 (by simp [hfront]) ls key
      rw [hfront] at hend
      rw [get_value, hgap, hend]
      exact iff_of_true .not_found rfl
    | string index =>
      rw [hfront, Bool.and_eq_true] at hplain
      obtain ⟨hclosed, hmore⟩ := hplain
      have hturn := hgap.trans (get_key_line hlines.1 (by rw [hfront]; rintro _ ⟨⟩; exact hclosed) ls key)
      rw [hfront] at hturn
      rw [List.takeWhile_cons_of_pos (by simp [not_head_of_front hfront])]
      dsimp only at hturn ⊢
      by_cases hlong : 32 ≤ (copy_string_data index).1.length
      · rw [if_pos hlong] at hturn
        rw [get_value, hturn, decide_eq_false (by omega), Bool.false_and]
        exact iff_of_false not_own_line_none (by decide)
      rw [if_neg hlong] at hturn
      rw [decide_eq_true (by omega), Bool.true_and]
      by_cases hkey : key = (copy_string_data index).1
      · rw [if_pos hkey] at hturn ⊢
        exact own_line_found hlines.1 hfront hkey hturn
      · rw [if_neg hkey] at hturn ⊢
        have hno : has_key key l = false := by
          simp [has_key, (first_token_of_front hlines.1).1 index hfront, Ne.symm hkey]
        rw [decide_eq_false hkey, Bool.false_or] at hmore
        rw [own_line_cons hno, get_value_congr hturn]
        exact ih hlines.2 hmore

end Key

/-! ## The section -/

section Heads
variable {size : Nat} {l grou key : List Char} {ls : List (List Char)}

theorem lookup_congr {text text' : List Char} (h : get_head_start text grou = get_head_start text' grou) :
    get_value_from_ini size text (some grou) key = get_value_from_ini size text' (some grou) key := by
  simp only [get_value_from_ini, h]

/-- A line that is not the head of the section changes nothing. -/
theorem section_lines_cons (h : head_name l ≠ some grou) :
    section_lines (some grou) (l :: ls) = section_lines (some grou) ls := by
  rw [section_lines, List.dropWhile_cons_of_pos (by simpa using h)]
  rfl

theorem section_lines_head (h : head_name l = some grou) :
    section_lines (some grou) (l :: ls) = ls.takeWhile fun l => !is_head l := by
  rw [section_lines, List.dropWhile_cons_of_neg (by simp [h])]
  rfl

theorem own_line_heads (hlines : ∀ l ∈ ls, one_line l) (hplain : heads_plain grou key ls = true) :
    OwnLine (section_lines (some grou) ls) key (get_value_from_ini size (tail_text ls) (some grou) key) ↔
      heads_fit size grou key ls = true := by
  induction ls with
  | nil => exact iff_of_true .not_found rfl
  | cons l ls ih =>
    rw [List.forall_mem_cons] at hlines
    have hgap : get_head_start (tail_text (l :: ls)) grou = get_head_start (l ++ tail_text ls) grou :=
      get_head_start_free ['\n'] (by decide) (l ++ tail_text ls) grou
    rw [heads_plain] at hplain
    rw [heads_fit, lookup_congr hgap]
    cases hbrackets : brackets l with
    | free =>
      rw [hbrackets] at hplain
      have hpass : get_head_start (l ++ tail_text ls) grou = get_head_start (tail_text ls) grou := by
        rw [get_head_start_unfold, get_head_start_unfold (tail_text ls), head_turn, head_turn, get_next_head_none hbrackets]
      rw [section_lines_cons (by simp [head_name, hbrackets]), lookup_congr hpass]
      exact ih hlines.2 hplain
    | empty =>
      rw [get_value_from_ini, get_head_start_unfold, head_turn, get_next_head_empty hbrackets]
      exact iff_of_true .not_found rfl
    | cut =>
      rw [hbrackets] at hplain
      cases hplain
    | named name behind =>
      rw [hbrackets, Bool.and_eq_true] at hplain
      obtain ⟨hlast, hmore⟩ := hplain
      have hnone : ls = [] → ∀ c ∈ behind, is_string_start c = false := by
        intro hnil
        simpa [hnil] using hlast
      have hturn := get_head_start_named hlines.1 hbrackets hnone grou
      dsimp only
      by_cases hlong : KEY_VALUE_MAX_LENGTH ≤ name.length
      · rw [if_pos hlong] at hturn
        rw [get_value_from_ini, hturn, decide_eq_false (by omega), Bool.false_and]
        exact iff_of_false not_own_line_none (by decide)
      rw [if_neg hlong] at hturn
      rw [decide_eq_true (by omega), Bool.true_and]
      by_cases hname : name = grou
      · rw [if_pos hname] at hturn hmore ⊢
        rw [Bool.and_eq_true] at hmore
        rw [section_lines_head (by simp [head_name, hbrackets, hmore.1, hname]), get_value_from_ini, hturn]
        dsimp only
        rw [get_value_congr (get_key_behind hnone key)]
        exact own_line_keys hlines.2 hmore.2
      · rw [if_neg hname] at hturn hmore ⊢
        have hother : head_name l ≠ some grou := by
          rw [head_name, hbrackets]
          dsimp only
          split <;> simp [hname]
        rw [section_lines_cons hother, lookup_congr hturn]
        exact ih hlines.2 hmore

end Heads

theorem lookup_lines {ls : List (List Char)} (hne : ls ≠ []) (size : Nat) (grou : Option (List Char)) (key : List Char) :
    get_value_from_ini size (join_lines ls) grou key = get_value_from_ini size (tail_text ls) grou key := by
  obtain ⟨l, ls, rfl⟩ := List.exists_cons_of_ne_nil hne
  cases grou with
  | none => exact get_value_congr (get_key_congr (get_next_key_tail 32 l ls).symm key)
  | some grou => exact lookup_congr (join_tail (l :: ls) grou)

/-- A value comes from its own line, if the text is plain and what is looked for
fits; in a plain text, only then. -/
theorem value_from_own_line {text : List Char} (hnul : '\x00' ∉ text) (size : Nat) (grou : Option (List Char))
    (key : List Char) :
    (lookup_plain grou key (text.splitOn '\n') = true ∧ lookup_fits size grou key (text.splitOn '\n') = true →
      OwnLine (section_lines grou (text.splitOn '\n')) key (get_value_from_ini size text grou key)) ∧
    (lookup_plain grou key (text.splitOn '\n') = true →
      OwnLine (section_lines grou (text.splitOn '\n')) key (get_value_from_ini size text grou key) →
      lookup_fits size grou key (text.splitOn '\n') = true) := by
  have hlines : ∀ l ∈ text.splitOn '\n', one_line l :=
    fun l hl c hc => ⟨(mem_line hl c hc).1, fun heq => hnul (heq ▸ (mem_line hl c hc).2)⟩
  have htext := lookup_lines (List.splitOn_ne_nil '\n' text) size grou key
  rw [join_lines_splitOn] at htext
  have hiff (hplain : lookup_plain grou key (text.splitOn '\n') = true) :
      OwnLine (section_lines grou (text.splitOn '\n')) key (get_value_from_ini size text grou key) ↔
        lookup_fits size grou key (text.splitOn '\n') = true := by
    rw [htext]
    cases grou with
    | none => exact own_line_keys hlines hplain
    | some grou => exact own_line_heads hlines hplain
  exact ⟨fun h => (hiff h.1).2 h.2, fun hplain => (hiff hplain).1⟩

theorem value_on_its_line :
    OwnLine (section_lines (some ['a']) (['[', 'a', ']', '\n', 'k', ' ', '=', ' ', 'v', '\n'].splitOn '\n')) ['k']
      (get_value_from_ini 64 ['[', 'a', ']', '\n', 'k', ' ', '=', ' ', 'v', '\n'] (some ['a']) ['k']) :=
  (value_from_own_line (by decide) 64 (some ['a']) ['k']).1 (by decide)

/-- A key without an equals sign is given the first string of the next line. -/
theorem value_from_next_line : ¬∀ (size : Nat) (text : List Char) (grou : Option (List Char)) (key : List Char),
    '\x00' ∉ text → ∀ v index, get_value_from_ini size text grou key = some (some (v, index)) →
      ∃ l ∈ section_lines grou (text.splitOn '\n'), has_key key l = true ∧ line_value l = some v := by
  intro h
  have hread : get_value_from_ini 64 ['[', 'a', ']', '\n', 'k', '\n', 'x', ' ', '=', ' ', 'v', '\n'] (some ['a']) ['k'] =
      some (some (['x'], some [' ', '=', ' ', 'v', '\n'])) := by decide
  obtain ⟨l, hl, hkey, hvalue⟩ := h 64 _ (some ['a']) ['k'] (by decide) _ _ hread
  have hlines : ∀ l ∈ section_lines (some ['a'])
      (['[', 'a', ']', '\n', 'k', '\n', 'x', ' ', '=', ' ', 'v', '\n'].splitOn '\n'),
      has_key ['k'] l = true → line_value l = none := by decide
  rw [hlines l hl hkey] at hvalue
  cases hvalue

end McLinOS.Ini
