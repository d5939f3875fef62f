import McLinOS.Ini.OwnLine
import McLinOS.Syscall.Model
/-!
# The buffers of the scanners

`copy_string_data` knows no size, and the scans go on from where its length takes
them. Whether they stay in the text and in the buffers is a matter of the strings
that they come to.
-/
open CLib

namespace McLinOS.Ini

open Syscall

/-! ## Where a lookup looks for strings -/

/-- Behind the string at `index`, or as far as the text goes. -/
def behind (index : List Char) : List Char := index.drop (copy_string_data index).2

/-- From `text` the search for the key comes to `place`: it goes on at the next line
behind each other string. -/
inductive KeyScan (key : List Char) : List Char → List Char → Prop
  | here (text : List Char) : KeyScan key text text
  | next {text index line place : List Char} : goto_next_string text '[' = some index → key ≠ (copy_string_data index).1 →
      goto_next_char (behind index) '\n' '\x00' = some line → KeyScan key (line.drop 1) place → KeyScan key text place

/-- The string in the next brackets. -/
def head_string (text : List Char) : Option (List Char) :=
  (goto_next_char text '[' ']').bind fun bracket => goto_next_string (bracket.drop 1) ']'

/-- The newline behind the brackets, or the last bracket. -/
def behind_head (index : List Char) : Option (List Char) :=
  (goto_next_char (behind index) ']' '\x00').map fun close => (goto_next_char close '\n' '\x00').getD close

/-- From `text` the search for the section comes to `place`. -/
inductive HeadScan (grou : List Char) : List Char → List Char → Prop
  | here (text : List Char) : HeadScan grou text text
  | next {text index start place : List Char} : head_string text = some index → grou ≠ (copy_string_data index).1 →
      behind_head index = some start → HeadScan grou start place → HeadScan grou text place

/-! ## What has to fit there -/

/-- The string fits into `size` bytes. -/
def Fits (size : Nat) (index : List Char) : Prop := (copy_string_data index).1.length < size

/-- Behind a key there is an equals sign or a newline, and the string behind that
fits. -/
structure ValueInside (size : Nat) (rest : List Char) : Prop where
  ended : '=' ∈ rest ∨ '\n' ∈ rest
  fits : ∀ found, goto_next_char rest '=' '\n' = some found → ∀ index, goto_next_string (found.drop 1) '[' = some index →
    Fits size index

/-- The strings up to the key fit, and none is an open quote that runs to the end
of the text. -/
def KeysInside (size : Nat) (key text : List Char) : Prop :=
  ∀ place, KeyScan key text place → ∀ index, goto_next_string place '[' = some index →
    Fits 32 index ∧ closed index = true ∧ (key = (copy_string_data index).1 → ValueInside size (behind index))

/-- The same for the names in brackets, up to the one of the section. -/
def HeadsInside (size : Nat) (grou key text : List Char) : Prop :=
  ∀ place, HeadScan grou text place → ∀ index, head_string place = some index →
    Fits KEY_VALUE_MAX_LENGTH index ∧ closed index = true ∧
      (grou = (copy_string_data index).1 → ∀ start, behind_head index = some start → KeysInside size key start)

def LookupInside (size : Nat) (grou : Option (List Char)) (key text : List Char) : Prop :=
  match grou with
  | none => KeysInside size key text
  | some grou => HeadsInside size grou key text

/-! ## Going on behind a string -/

section String
variable {α : Type} {size : Nat} {index : List Char}

/-- What is done behind a string, if it fits and is closed. -/
def after_string (size : Nat) (index : List Char) (next : List Char → Option α) : Option α :=
  if (copy_string_data index).1.length < size ∧ closed index = true then next (behind index) else none

theorem after_string_inside (next : List Char → Option α) : after_string size index next ≠ none ↔
    Fits size index ∧ closed index = true ∧ next (behind index) ≠ none := by
  rw [after_string, Fits]
  split
  · rename_i h
    exact ⟨fun hnext => ⟨h.1, h.2, hnext⟩, fun hnext => hnext.2.2⟩
  · rename_i h
    exact iff_of_false (by simp) fun hnext => h ⟨hnext.1, hnext.2.1⟩

theorem after_string_closed (h : (copy_string_data index).1.length < size ∧ closed index = true)
    (next : List Char → Option α) : after_string size index next = next (behind index) :=
  if_pos h

theorem after_string_stuck (h : ¬((copy_string_data index).1.length < size ∧ closed index = true))
    (next : List Char → Option α) : after_string size index next = none :=
  if_neg h

theorem copy_to_closed (h : (copy_string_data index).1.length < size ∧ closed index = true) :
    copy_to size index = some ((copy_string_data index).1, some (behind index)) := by
  have hend : (copy_string_data index).2 ≤ index.length := by simpa [closed] using h.2
  unfold copy_to advance
  rw [if_neg (Nat.not_le.2 h.1), if_pos hend]
  rfl

/-- Otherwise there is no string, or nothing behind it. -/
theorem copy_to_stuck (h : ¬((copy_string_data index).1.length < size ∧ closed index = true)) :
    copy_to size index = none ∨ copy_to size index = some ((copy_string_data index).1, none) := by
  unfold copy_to advance
  by_cases hlong : size ≤ (copy_string_data index).1.length
  · exact .inl (if_pos hlong)
  · have hopen : ¬(copy_string_data index).2 ≤ index.length := by
      intro hend
      exact h ⟨Nat.lt_of_not_le hlong, by simpa [closed] using hend⟩
    rw [if_neg hlong, if_neg hopen]
    exact .inr rfl

end String

/-! ## The search for a key -/

section Key
variable {size : Nat} {text key index : List Char}

theorem get_key_step (text key : List Char) : get_key text key =
    match goto_next_string text '[' with
    | none => some none
    | some index => after_string 32 index fun rest =>
      if key = (copy_string_data index).1 then some (some rest)
      else
        match goto_next_char rest '\n' '\x00' with
        | none => some none
        | some line => get_key (line.drop 1) key := by
  rw [get_key_unfold, key_turn, get_next_key]
  cases goto_next_string text '[' with
  | none => rfl
  | some index =>
    dsimp only
    by_cases h : (copy_string_data index).1.length < 32 ∧ closed index = true
    · rw [after_string_closed h, copy_to_closed h]
      dsimp only [Option.map_some]
      by_cases hkey : key = (copy_string_data index).1
      · rw [if_pos hkey, if_pos hkey]
      rw [if_neg hkey, if_neg hkey]
      cases goto_next_char (behind index) '\n' '\x00' <;> rfl
    · rw [after_string_stuck h]
      rcases copy_to_stuck h with hcopy | hcopy <;> rw [hcopy] <;> rfl

/-- What is done behind the key. -/
def read_value (size : Nat) (rest : List Char) : Option (Option (List Char × Option (List Char))) :=
  match goto_next_char rest '=' '\n' with
  | none => none
  | some index => get_next_key size (index.drop 1)

theorem get_value_step (size : Nat) (text key : List Char) : get_value size text key =
    match goto_next_string text '[' with
    | none => some none
    | some index => after_string 32 index fun rest =>
      if key = (copy_string_data index).1 then read_value size rest
      else
        match goto_next_char rest '\n' '\x00' with
        | none => some none
        | some line => get_value size (line.drop 1) key := by
  rw [get_value, get_key_step]
  cases goto_next_string text '[' with
  | none => rfl
  | some index =>
    dsimp only
    by_cases h : (copy_string_data index).1.length < 32 ∧ closed index = true
    · rw [after_string_closed h, after_string_closed h]
      by_cases hkey : key = (copy_string_data index).1
      · rw [if_pos hkey, if_pos hkey]
        rfl
      rw [if_neg hkey, if_neg hkey]
      cases goto_next_char (behind index) '\n' '\x00' <;> rfl
    · rw [after_string_stuck h, after_string_stuck h]

theorem get_next_key_inside (size : Nat) (text : List Char) : get_next_key size text ≠ none ↔
    ∀ index, goto_next_string text '[' = some index → Fits size index := by
  rw [get_next_key]
  cases goto_next_string text '[' with
  | none => simp
  | some index =>
    unfold copy_to
    dsimp only
    by_cases hlong : size ≤ (copy_string_data index).1.length
    · simp [Fits, hlong]
    · simp [Fits, hlong, Nat.lt_of_not_le hlong]

theorem goto_next_char_none {text : List Char} {c limit : Char} :
    goto_next_char text c limit = none ↔ c ∉ text ∧ limit ∉ text := by
  induction text with
  | nil => simp [goto_next_char]
  | cons x xs ih =>
    rw [goto_next_char]
    split
    · rename_i hx
      simp [hx]
    · rename_i hlimit
      split
      · rename_i hx
        simp [hx]
      · rename_i hc
        rw [ih, List.mem_cons, List.mem_cons, not_or, not_or]
        tauto

theorem read_value_inside (size : Nat) (rest : List Char) : read_value size rest ≠ none ↔ ValueInside size rest := by
  rw [read_value]
  cases hfound : goto_next_char rest '=' '\n' with
  | none =>
    obtain ⟨hequals, hline⟩ := goto_next_char_none.1 hfound
    exact iff_of_false (by simp) fun h => h.ended.elim hequals hline
  | some found =>
    dsimp only
    rw [get_next_key_inside]
    constructor
    · intro h
      refine ⟨?_, ?_⟩
      · by_contra hno
        rw [goto_next_char_none.2 (not_or.1 hno)] at hfound
        cases hfound
      · rintro found' hfound'
        rw [hfound] at hfound'
        obtain rfl := Option.some.inj hfound'
        exact h
    · intro h
      exact h.fits found hfound

/-- The search is inside here, and on the next line if it goes on there. -/
theorem keys_inside_step : KeysInside size key text ↔ ∀ index, goto_next_string text '[' = some index →
    Fits 32 index ∧ closed index = true ∧ (key = (copy_string_data index).1 → ValueInside size (behind index)) ∧
      (key ≠ (copy_string_data index).1 → ∀ line, goto_next_char (behind index) '\n' '\x00' = some line →
        KeysInside size key (line.drop 1)) := by
  constructor
  · intro h index hindex
    obtain ⟨hfits, hclosed, hvalue⟩ := h text (.here text) index hindex
    refine ⟨hfits, hclosed, hvalue, ?_⟩
    intro hne line hline place hscan
    exact h place (.next hindex hne hline hscan)
  · intro h place hscan
    cases hscan with
    | here =>
      intro index hindex
      obtain ⟨hfits, hclosed, hvalue, -⟩ := h index hindex
      exact ⟨hfits, hclosed, hvalue⟩
    | next hindex hne hline hscan => exact (h _ hindex).2.2.2 hne _ hline place hscan

theorem next_line_shorter {text line : List Char} (hindex : goto_next_string text '[' = some index)
    (hline : goto_next_char (behind index) '\n' '\x00' = some line) : (line.drop 1).length < text.length := by
  have h1 := goto_next_string_length hindex
  obtain ⟨h2, hne⟩ := goto_next_char_length hline
  have h3 := length_drop_one hne
  rw [behind, List.length_drop] at h2
  omega

theorem get_value_inside (size : Nat) (text key : List Char) : get_value size text key ≠ none ↔ KeysInside size key text := by
  induction hlen : text.length using Nat.strong_induction_on generalizing text with
  | _ n ih =>
    rw [get_value_step, keys_inside_step]
    cases hindex : goto_next_string text '[' with
    | none => simp
    | some index =>
      simp only [Option.some.injEq, forall_eq']
      rw [after_string_inside]
      by_cases hkey : key = (copy_string_data index).1
      · rw [if_pos hkey, read_value_inside]
        simp [hkey]
      · rw [if_neg hkey]
        cases hline : goto_next_char (behind index) '\n' '\x00' with
        | none => simp [hkey]
        | some line =>
          have hshort := next_line_shorter hindex hline
          dsimp only
          rw [ih _ (hlen ▸ hshort) _ rfl]
          simp [hkey]

end Key

/-! ## The search for a section -/

section Head
variable {size : Nat} {text grou key index : List Char}

theorem get_next_head_step (text : List Char) : get_next_head text =
    match head_string text with
    | none => some none
    | some index => after_string KEY_VALUE_MAX_LENGTH index fun _ =>
      some ((behind_head index).map fun start => ((copy_string_data index).1, start)) := by
  rw [get_next_head, head_string]
  cases goto_next_char text '[' ']' with
  | none => rfl
  | some bracket =>
    rw [Option.bind_some]
    dsimp only
    cases goto_next_string (bracket.drop 1) ']' with
    | none => rfl
    | some index =>
      dsimp only
      by_cases h : (copy_string_data index).1.length < KEY_VALUE_MAX_LENGTH ∧ closed index = true
      · rw [after_string_closed h, copy_to_closed h, behind_head]
        dsimp only
        cases goto_next_char (behind index) ']' '\x00' with
        | none => rfl
        | some close =>
          dsimp only [Option.map_some]
          cases goto_next_char close '\n' '\x00' <;> rfl
      · rw [after_string_stuck h]
        rcases copy_to_stuck h with hcopy | hcopy <;> rw [hcopy]

theorem get_value_from_ini_step (size : Nat) (text grou key : List Char) :
    get_value_from_ini size text (some grou) key =
    match head_string text with
    | none => some none
    | some index => after_string KEY_VALUE_MAX_LENGTH index fun _ =>
      match behind_head index with
      | none => some none
      | some start =>
        if grou = (copy_string_data index).1 then get_value size start key
        else get_value_from_ini size start (some grou) key := by
  rw [get_value_from_ini, get_head_start_unfold, head_turn, get_next_head_step]
  cases head_string text with
  | none => rfl
  | some index =>
    dsimp only
    by_cases h : (copy_string_data index).1.length < KEY_VALUE_MAX_LENGTH ∧ closed index = true
    · rw [after_string_closed h, after_string_closed h]
      cases behind_head index with
      | none => rfl
      | some start =>
        dsimp only [Option.map_some]
        by_cases hgrou : grou = (copy_string_data index).1
        · rw [if_pos hgrou.symm, if_pos hgrou]
        · rw [if_neg (Ne.symm hgrou), if_neg hgrou]
          rfl
    · rw [after_string_stuck h, after_string_stuck h]

theorem heads_inside_step : HeadsInside size grou key text ↔ ∀ index, head_string text = some index →
    Fits KEY_VALUE_MAX_LENGTH index ∧ closed index = true ∧ ∀ start, behind_head index = some start →
      (grou = (copy_string_data index).1 → KeysInside size key start) ∧
        (grou ≠ (copy_string_data index).1 → HeadsInside size grou key start) := by
  constructor
  · intro h index hindex
    obtain ⟨hfits, hclosed, hkeys⟩ := h text (.here text) index hindex
    refine ⟨hfits, hclosed, ?_⟩
    intro start hstart
    refine ⟨fun hgrou => hkeys hgrou start hstart, ?_⟩
    intro hne place hscan
    exact h place (.next hindex hne hstart hscan)
  · intro h place hscan
    cases hscan with
    | here =>
      intro index hindex
      obtain ⟨hfits, hclosed, hstart⟩ := h index hindex
      exact ⟨hfits, hclosed, fun hgrou start hbehind => (hstart start hbehind).1 hgrou⟩
    | next hindex hne hstart hscan => exact ((h _ hindex).2.2 _ hstart).2 hne place hscan

theorem behind_head_shorter {text start : List Char} (hindex : head_string text = some index)
    (hstart : behind_head index = some start) : start.length < text.length := by
  obtain ⟨bracket, hbracket, hstring⟩ := Option.bind_eq_some_iff.1 hindex
  obtain ⟨close, hclose, hline⟩ := Option.map_eq_some_iff.1 hstart
  obtain ⟨h1, hne⟩ := goto_next_char_length hbracket
  have h2 := length_drop_one hne
  have h3 := goto_next_string_length hstring
  have h4 := (goto_next_char_length hclose).1
  rw [behind, List.length_drop] at h4
  have h5 : start.length ≤ close.length := by
    rw [← hline]
    cases hnewline : goto_next_char close '\n' '\x00' with
    | none => exact Nat.le_refl _
    | some line => exact (goto_next_char_length hnewline).1
  omega

theorem get_value_from_ini_heads (size : Nat) (text grou key : List Char) :
    get_value_from_ini size text (some grou) key ≠ none ↔ HeadsInside size grou key text := by
  induction hlen : text.length using Nat.strong_induction_on generalizing text with
  | _ n ih =>
    rw [get_value_from_ini_step, heads_inside_step]
    cases hindex : head_string text with
    | none => simp
    | some index =>
      simp only [Option.some.injEq, forall_eq']
      rw [after_string_inside]
      cases hstart : behind_head index with
      | none => simp
      | some start =>
        have hshort := behind_head_shorter hindex hstart
        dsimp only
        by_cases hgrou : grou = (copy_string_data index).1
        · rw [if_pos hgrou, get_value_inside]
          simp [hgrou]
        · rw [if_neg hgrou, ih _ (hlen ▸ hshort) _ rfl]
          simp [hgrou]

theorem get_value_from_ini_inside (size : Nat) (text : List Char) (grou : Option (List Char)) (key : List Char) :
    get_value_from_ini size text grou key ≠ none ↔ LookupInside size grou key text := by
  cases grou with
  | none => exact get_value_inside size text key
  | some grou => exact get_value_from_ini_heads size text grou key

end Head

/-! ## One line of the system call table -/

/-- Where the fields of `struct syscall` are, and their sizes. -/
def line_fields : List (Nat × Nat) := [(0, 8), (8, 32), (40, 32), (72, 32)]

/-- `get_fields` where a string may not leave its field. -/
def get_fields_within : List (Nat × Nat) → Int → List Char → syscall → Option (Int × syscall)
  | [], number, index, syscall_data =>
    match goto_next_string index '\x00' with
    | none => some (-number, syscall_data)
    | some _ => some (0, syscall_data)
  | (offset, size) :: fields, number, index, syscall_data =>
    match goto_next_string index '\x00' with
    | none => some (-number, syscall_data)
    | some index =>
      match copy_to size index with
      | none | some (_, none) => none
      | some (s, some index) => get_fields_within fields (number + 1) index (store_string syscall_data offset s)

/-- `get_line_data` that ends where a byte outside of a field is written or one
behind the text is read. -/
def get_line_data_within (text_data : List Char) (syscall_data : syscall) : Option (Int × syscall) :=
  get_fields_within line_fields 0 text_data syscall_data

/-- The first `n` strings of the text. -/
def line_strings : Nat → List Char → List (List Char)
  | 0, _ => []
  | n + 1, text =>
    match goto_next_string text '\x00' with
    | none => []
    | some index => index :: line_strings n (behind index)

def LineInside (text : List Char) : Prop :=
  ∀ p ∈ (line_strings 4 text).zip [8, 32, 32, 32], Fits p.2 p.1 ∧ closed p.1 = true

section Line
variable {fields : List (Nat × Nat)} {number : Int} {text : List Char} {data : syscall}

theorem get_fields_step (offset size : Nat) (fields : List (Nat × Nat)) (number : Int) (text : List Char) (data : syscall) :
    get_fields_within ((offset, size) :: fields) number text data =
    match goto_next_string text '\x00' with
    | none => some (-number, data)
    | some index => after_string size index fun rest =>
      get_fields_within fields (number + 1) rest (store_string data offset (copy_string_data index).1) := by
  rw [get_fields_within]
  cases goto_next_string text '\x00' with
  | none => rfl
  | some index =>
    dsimp only
    by_cases h : (copy_string_data index).1.length < size ∧ closed index = true
    · rw [after_string_closed h, copy_to_closed h]
    · rw [after_string_stuck h]
      rcases copy_to_stuck h with hcopy | hcopy <;> rw [hcopy]

/-- Inside of its fields `get_line_data` does the same. -/
theorem get_fields_of_within {r : Int × syscall} (hfields : ∀ f ∈ fields, f.1 + f.2 ≤ 104)
    (h : get_fields_within fields number text data = some r) :
    get_fields (fields.map (·.1)) number text data = some r := by
  induction fields generalizing number text data with
  | nil => exact h
  | cons f fields ih =>
    rw [get_fields_step] at h
    rw [List.map_cons, get_fields]
    cases hindex : goto_next_string text '\x00' with
    | none =>
      rw [hindex] at h
      exact h
    | some index =>
      rw [hindex] at h
      dsimp only at h ⊢
      rw [after_string] at h
      split at h
      · rename_i hfits
        have hsize := hfields f List.mem_cons_self
        have hin : ¬(104 ≤ f.1 + (copy_string_data index).1.length ∨ index.length < (copy_string_data index).2) := by
          simp only [closed, decide_eq_true_eq] at hfits
          omega
        rw [if_neg hin]
        exact ih (fun g hg => hfields g (List.mem_cons_of_mem f hg)) h
      · cases h

theorem get_fields_inside (fields : List (Nat × Nat)) (number : Int) (text : List Char) (data : syscall) :
    get_fields_within fields number text data ≠ none ↔
      ∀ p ∈ (line_strings fields.length text).zip (fields.map (·.2)), Fits p.2 p.1 ∧ closed p.1 = true := by
  induction fields generalizing number text data with
  | nil =>
    rw [get_fields_within]
    cases goto_next_string text '\x00' <;> simp
  | cons f fields ih =>
    rw [get_fields_step, List.length_cons, line_strings]
    cases hindex : goto_next_string text '\x00' with
    | none => simp
    | some index =>
      rw [List.map_cons, List.zip_cons_cons, List.forall_mem_cons,
        ← ih (number + 1) _ (store_string data f.1 (copy_string_data index).1)]
      exact (after_string_inside _).trans and_assoc.symm

theorem get_line_data_of_within {r : Int × syscall} (h : get_line_data_within text data = some r) :
    get_line_data text data = some r := by
  have hfields : ∀ f ∈ line_fields, f.1 + f.2 ≤ 104 := by decide
  exact get_fields_of_within hfields h

theorem get_line_data_inside (text : List Char) (data : syscall) :
    get_line_data_within text data ≠ none ↔ LineInside text :=
  get_fields_inside line_fields 0 text data

end Line

/-! ## What the scanners need -/

/-- The loops end after at most one turn for each character and one more. A lookup
and the reading of a line stay in the text and in their buffers just where the
strings they come to do. -/
theorem scanners_inside (text : List Char) :
    (∀ fuel, text.length < fuel → (∀ key, ∃ r, loop (key_turn key) fuel text = some r) ∧
      ∀ head, ∃ r, loop (head_turn head) fuel text = some r) ∧
    (∀ size grou key, get_value_from_ini size text grou key ≠ none ↔ LookupInside size grou key text) ∧
    ∀ data, (get_line_data_within text data ≠ none ↔ LineInside text) ∧
      ∀ r, get_line_data_within text data = some r → get_line_data text data = some r := by
  refine ⟨?_, fun size grou key => get_value_from_ini_inside size text grou key, ?_⟩
  · intro fuel hfuel
    refine ⟨fun key => ?_, fun head => ?_⟩
    · exact loop_ends List.length (fun _ _ => key_turn_length) hfuel
    · exact loop_ends List.length (fun _ _ => head_turn_length) hfuel
  · intro data
    exact ⟨get_line_data_inside text data, fun r => get_line_data_of_within⟩

/-- A key token of 32 characters, an open quote at the end of the text, a key
without anything behind it, a section name of 64 characters and a number of 8 digits. -/
theorem scanners_outside :
    get_value_from_ini 64 "abcdefghijklmnopqrstuvwxyz012345 = 1\n".toList none "k".toList = none ∧
    get_value_from_ini 64 "\"k".toList none "k".toList = none ∧
    get_value_from_ini 64 "k".toList none "k".toList = none ∧
    get_value_from_ini 64 ('[' :: (List.replicate 64 'a' ++ "]\nk = 1\n".toList)) (some "a".toList) "k".toList = none ∧
    get_line_data_within "12345678 common read sys_read\nend\n".toList (fun _ => '\x00') = none ∧
    get_line_data_within "1 common read \"sys_read".toList (fun _ => '\x00') = none := by
  refine ⟨?_, ?_, ?_, ?_, ?_, ?_⟩ <;> decide +kernel

end McLinOS.Ini
