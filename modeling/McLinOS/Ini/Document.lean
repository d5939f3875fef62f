import Mathlib.Data.List.TakeWhile
import McLinOS.Ini.Model
import McLinOS.Syscall.Format
/-!
# Configurations

A configuration as a list of sections, the text it is written as, and what a
lookup in it should find.
-/
open CLib

namespace McLinOS.Ini

open Syscall

/-! ## The text -/

/-- A character of a key, of a section's name and of a value without quotes. -/
def is_name (c : Char) : Bool := is_alnum c ∨ c = '_' ∨ c = '/' ∨ c = '.'

abbrev Word := { w : List Char // ∀ c ∈ w, is_name c = true }

abbrev Blanks := { w : List Char // ∀ c ∈ w, is_blank c = true }

/-- A blank line, or one with a comment. -/
structure Filler where
  blanks : Blanks
  comment : List Char
  marked : ∀ c ∈ comment.head?, c = '#' ∨ c = ';'
  one_line : ∀ c ∈ comment, c ≠ '\n' ∧ c ≠ '\x00'

inductive Value where
  | plain (w : Word)
  | quoted (s : List Char) (inner : ∀ c ∈ s, c ≠ '"' ∧ c ≠ '\n' ∧ c ≠ '\x00')

def Value.string : Value → List Char
  | .plain w => w.val
  | .quoted s _ => s

def Value.text : Value → List Char
  | .plain w => w.val
  | .quoted s _ => '"' :: (s ++ ['"'])

/-- A key and its value, behind other lines. -/
structure Pair where
  fillers : List Filler
  key : Word
  before : Blanks
  after : Blanks
  value : Value

structure Section where
  fillers : List Filler
  name : Word
  pairs : List Pair

/-- The last line of the text has a newline when an empty line follows. -/
structure Config where
  sections : List Section
  fillers : List Filler

def Filler.line (f : Filler) : List Char := f.blanks.val ++ f.comment

def Pair.line (p : Pair) : List Char := p.key.val ++ (p.before.val ++ '=' :: (p.after.val ++ p.value.text))

def Section.head (s : Section) : List Char := '[' :: (s.name.val ++ [']'])

def Pair.lines (p : Pair) : List (List Char) := p.fillers.map (·.line) ++ [p.line]

def Section.lines (s : Section) : List (List Char) := s.fillers.map (·.line) ++ s.head :: s.pairs.flatMap (·.lines)

def Config.lines (c : Config) : List (List Char) := c.sections.flatMap (·.lines) ++ c.fillers.map (·.line)

def Config.text (c : Config) : List Char := join_lines c.lines

/-! ## Lookups -/

/-- The first section of that name. -/
def Config.find (c : Config) (name : Word) : Option Section := c.sections.find? fun s => s.name = name

def Section.find (s : Section) (key : Word) : Option Pair := s.pairs.find? fun p => p.key = key

/-- Everything fits into the buffers: names into 64 bytes, keys into 32 and
values into `size`. -/
def Config.Short (size : Nat) (c : Config) : Prop :=
  ∀ s ∈ c.sections, s.name.val.length < 64 ∧ ∀ p ∈ s.pairs, p.key.val.length < 32 ∧ p.value.string.length < size

instance (size : Nat) (c : Config) : Decidable (c.Short size) :=
  inferInstanceAs (Decidable (∀ s ∈ c.sections, _ ∧ ∀ p ∈ s.pairs, _))

/-- A lookup in the section finds the value of the key, or NULL where the
section does not have it. -/
def Meets (size : Nat) (c : Config) (name key : Word) : Prop :=
  ∀ s ∈ c.find name,
    match s.find key with
    | some p => ∃ index,
        get_value_from_ini size (preprocess_ini_data c.text) (some name.val) key.val = some (some (p.value.string, index))
    | none => get_value_from_ini size (preprocess_ini_data c.text) (some name.val) key.val = some none

/-! ## When they succeed -/

/-- Whether the scanners find the beginning of the word. -/
def starts (w : List Char) : Bool := w.head?.any is_string_start

def is_bracket (c : Char) : Bool := c = '[' ∨ c = ']'

/-- What is copied of the line where its key is looked for. -/
def Pair.token (p : Pair) : List Char := (strip p.line).takeWhile is_copied

/-- The pairs up to the one with the key, or all. -/
def Section.upto (s : Section) (key : Word) : List Pair := (s.pairs.takeWhile fun p => p.key ≠ key) ++ (s.find key).toList

/-- Up to the section, brackets enclose the names of sections only, and names have a
beginning that is found. So have the keys of the section up to the one looked for. -/
def Config.Plain (c : Config) (name key : Word) : Prop :=
  (∀ s ∈ c.sections.takeWhile fun s => s.name ≠ name,
    starts s.name.val = true ∧ ∀ p ∈ s.pairs, ∀ x ∈ strip p.value.text, is_bracket x = false) ∧
  starts name.val = true ∧ ∀ s ∈ c.find name, ∀ p ∈ s.upto key, starts p.key.val = true

instance (c : Config) (name key : Word) : Decidable (c.Plain name key) :=
  inferInstanceAs (Decidable ((∀ s ∈ (_ : List Section), _ ∧ ∀ p ∈ s.pairs, ∀ x ∈ _, _) ∧ _ ∧
    ∀ s ∈ c.find name, ∀ p ∈ s.upto key, _))

/-- The value is read as it is. -/
def Value.Fits : Value → Prop
  | .plain w => starts w.val = true
  | .quoted s _ => ∀ c ∈ s, c ≠ '#' ∧ c ≠ ';'

instance : ∀ v : Value, Decidable v.Fits
  | .plain _ => inferInstanceAs (Decidable (_ = true))
  | .quoted s _ => inferInstanceAs (Decidable (∀ c ∈ s, _))

/-- What is copied of the lines before the key fits into the buffer, and the key
has a blank before its equals sign and a value that is read as it is. -/
def Section.Fits (s : Section) (key : Word) : Prop :=
  (∀ p ∈ s.pairs.takeWhile fun p => p.key ≠ key, p.token.length < 32) ∧
  ∀ p ∈ s.find key, p.before.val ≠ [] ∧ p.value.Fits

instance (s : Section) (key : Word) : Decidable (s.Fits key) :=
  inferInstanceAs (Decidable ((∀ p ∈ (_ : List Pair), _ < 32) ∧ ∀ p ∈ s.find key, _ ∧ p.value.Fits))

/-- Behind its pair the key is not repeated, and the other keys have a beginning
that is found. -/
def Section.Once (s : Section) (key : Word) : Prop :=
  ∀ p ∈ (s.pairs.dropWhile fun p => p.key ≠ key).tail, p.key ≠ key ∧ starts p.key.val = true

/-! ## The lines without comments -/

/-- The lines of the pair after preprocessing. -/
def Pair.stripped (p : Pair) : List (List Char) := p.fillers.map (·.blanks.val) ++ [strip p.line]

def Section.stripped (s : Section) : List (List Char) :=
  s.fillers.map (·.blanks.val) ++ s.head :: s.pairs.flatMap (·.stripped)

def Config.stripped (c : Config) : List (List Char) := c.sections.flatMap (·.stripped) ++ c.fillers.map (·.blanks.val)

/-- Part of a line of the text. -/
def one_line (l : List Char) : Prop := ∀ c ∈ l, c ≠ '\n' ∧ c ≠ '\x00'

theorem one_line_append {xs ys : List Char} : one_line (xs ++ ys) ↔ one_line xs ∧ one_line ys := List.forall_mem_append

theorem one_line_cons {x : Char} {xs : List Char} : one_line (x :: xs) ↔ (x ≠ '\n' ∧ x ≠ '\x00') ∧ one_line xs :=
  List.forall_mem_cons

theorem ne_of_is_name {c d : Char} (h : is_name c = true) (hd : is_name d = false) : c ≠ d := by
  rintro rfl
  simp [h] at hd

theorem ne_of_is_blank {c d : Char} (h : is_blank c = true) (hd : is_blank d = false) : c ≠ d := by
  rintro rfl
  simp [h] at hd

theorem Word.one_line (w : Word) : one_line w.val :=
  fun c hc => ⟨ne_of_is_name (w.2 c hc) (by decide), ne_of_is_name (w.2 c hc) (by decide)⟩

theorem Blanks.one_line (w : Blanks) : Ini.one_line w.val :=
  fun c hc => ⟨ne_of_is_blank (w.2 c hc) (by decide), ne_of_is_blank (w.2 c hc) (by decide)⟩

theorem Value.one_line (v : Value) : Ini.one_line v.text := by
  cases v with
  | plain w => exact Word.one_line w
  | quoted s hs =>
    refine one_line_cons.2 ⟨by decide, one_line_append.2 ⟨fun c hc => (hs c hc).2, one_line_cons.2 ⟨by decide, ?_⟩⟩⟩
    exact List.forall_mem_nil _

theorem Filler.line_one_line (f : Filler) : Ini.one_line f.line := one_line_append.2 ⟨Blanks.one_line f.blanks, f.one_line⟩

theorem Pair.line_one_line (p : Pair) : one_line p.line :=
  one_line_append.2 ⟨Word.one_line p.key, one_line_append.2 ⟨Blanks.one_line p.before,
    one_line_cons.2 ⟨by decide, one_line_append.2 ⟨Blanks.one_line p.after, p.value.one_line⟩⟩⟩⟩

theorem Section.head_one_line (s : Section) : one_line s.head :=
  one_line_cons.2 ⟨by decide, one_line_append.2 ⟨Word.one_line s.name, one_line_cons.2 ⟨by decide, List.forall_mem_nil _⟩⟩⟩

/-- No line of the text contains a newline. -/
theorem Config.lines_one_line (c : Config) : ∀ l ∈ c.lines, '\n' ∉ l := by
  have hfillers : ∀ fs : List Filler, ∀ l ∈ fs.map (·.line), '\n' ∉ l := by
    intro fs l hl
    obtain ⟨f, -, rfl⟩ := List.mem_map.1 hl
    exact fun h => (f.line_one_line _ h).1 rfl
  intro l hl
  rcases List.mem_append.1 hl with hl | hl
  · obtain ⟨s, -, hl⟩ := List.mem_flatMap.1 hl
    rcases List.mem_append.1 hl with hl | hl
    · exact hfillers _ l hl
    · rcases List.mem_cons.1 hl with rfl | hl
      · exact fun h => (s.head_one_line _ h).1 rfl
      · obtain ⟨p, -, hl⟩ := List.mem_flatMap.1 hl
        rcases List.mem_append.1 hl with hl | hl
        · exact hfillers _ l hl
        · obtain rfl := List.mem_singleton.1 hl
          exact fun h => (p.line_one_line _ h).1 rfl
  · exact hfillers _ l hl

theorem strip_append {xs : List Char} (h : ∀ c ∈ xs, c ≠ '#' ∧ c ≠ ';') (ys : List Char) :
    strip (xs ++ ys) = xs ++ strip ys := List.takeWhile_append_of_pos fun c hc => decide_eq_true (h c hc)

theorem strip_self {xs : List Char} (h : ∀ c ∈ xs, c ≠ '#' ∧ c ≠ ';') : strip xs = xs := by
  simpa [strip] using strip_append h []

theorem strip_word (w : Word) : ∀ c ∈ w.val, c ≠ '#' ∧ c ≠ ';' :=
  fun c hc => ⟨ne_of_is_name (w.2 c hc) (by decide), ne_of_is_name (w.2 c hc) (by decide)⟩

theorem strip_blanks (w : Blanks) : ∀ c ∈ w.val, c ≠ '#' ∧ c ≠ ';' :=
  fun c hc => ⟨ne_of_is_blank (w.2 c hc) (by decide), ne_of_is_blank (w.2 c hc) (by decide)⟩

theorem Filler.strip_line (f : Filler) : strip f.line = f.blanks.val := by
  refine takeWhile_append_stop (fun c hc => decide_eq_true (strip_blanks f.blanks c hc)) fun c hc => ?_
  rcases f.marked c hc with rfl | rfl <;> rfl

theorem Pair.strip_line (p : Pair) :
    strip p.line = p.key.val ++ (p.before.val ++ '=' :: (p.after.val ++ strip p.value.text)) := by
  have heq : ∀ c ∈ ['='], c ≠ '#' ∧ c ≠ ';' := by decide
  have hrest : strip (['='] ++ (p.after.val ++ p.value.text)) = ['='] ++ (p.after.val ++ strip p.value.text) := by
    rw [strip_append heq, strip_append (strip_blanks p.after)]
  rw [Pair.line, strip_append (strip_word p.key), strip_append (strip_blanks p.before)]
  exact congrArg (fun l => p.key.val ++ (p.before.val ++ l)) hrest

theorem Section.strip_head (s : Section) : strip s.head = s.head := by
  refine strip_self (List.forall_mem_cons.2 ⟨by decide, List.forall_mem_append.2 ⟨strip_word s.name, ?_⟩⟩)
  decide

/-- Preprocessing leaves the stripped lines. -/
theorem Config.preprocess_text (c : Config) : preprocess_ini_data c.text = join_lines c.stripped := by
  have hfillers : ∀ fs : List Filler, (fs.map (·.line)).map strip = fs.map (·.blanks.val) := by
    intro fs
    rw [List.map_map]
    exact List.map_congr_left fun f _ => f.strip_line
  have hpair : ∀ p : Pair, p.lines.map strip = p.stripped := by
    intro p
    rw [Pair.lines, List.map_append, hfillers]
    rfl
  have hsection : ∀ s : Section, s.lines.map strip = s.stripped := by
    intro s
    rw [Section.lines, List.map_append, hfillers, List.map_cons, s.strip_head, List.map_flatMap]
    simp only [hpair]
    rfl
  rw [Config.text, preprocess_lines c.lines_one_line, Config.lines, List.map_append, List.map_flatMap, hfillers]
  simp only [hsection]
  rfl

end McLinOS.Ini
