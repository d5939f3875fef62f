import McLinOS.Syscall.Model
/-!
# The format of the table

Lines of a number, an abi, a name and an entry point, after comments and blank
lines. Lines are given as they are in the file; their parts are what is left of
them without comments.
-/
open CLib

namespace McLinOS.Syscall

/-! ## Lines -/

def is_blank (c : Char) : Bool := c = ' ' ∨ c = '\t'

def is_digit (c : Char) : Bool := '0' ≤ c ∧ c ≤ '9'

def is_word (c : Char) : Bool := is_alnum c ∨ c = '_'

def blank_line (l : List Char) : Prop := ∀ c ∈ strip l, is_blank c = true

inductive Abi where
  | common
  | oabi
  | eabi
  deriving DecidableEq, Repr

def Abi.text : Abi → List Char
  | .common => ['c', 'o', 'm', 'm', 'o', 'n']
  | .oabi => ['o', 'a', 'b', 'i']
  | .eabi => ['e', 'a', 'b', 'i']

/-- A data line and its parts. -/
structure row where
  line : List Char
  indent : List Char
  number : List Char
  gap_abi : List Char
  abi : Abi
  gap_name : List Char
  name : List Char
  gap_entry : List Char
  entry : List Char
  rest : List Char
  parts : strip line = indent ++ (number ++ (gap_abi ++ (abi.text ++ (gap_name ++ (name ++ (gap_entry ++ (entry ++ rest)))))))
  indent_blank : ∀ c ∈ indent, is_blank c = true
  number_digits : number ≠ [] ∧ ∀ c ∈ number, is_digit c = true
  gap_abi_blank : gap_abi ≠ [] ∧ ∀ c ∈ gap_abi, is_blank c = true
  gap_name_blank : gap_name ≠ [] ∧ ∀ c ∈ gap_name, is_blank c = true
  name_word : name ≠ [] ∧ ∀ c ∈ name, is_word c = true
  gap_entry_blank : gap_entry ≠ [] ∧ ∀ c ∈ gap_entry, is_blank c = true
  entry_word : entry ≠ [] ∧ ∀ c ∈ entry, is_word c = true
  rest_blank : ∀ c ∈ rest, is_blank c = true

/-- The number the digits stand for. -/
def row.value (r : row) : Nat := r.number.foldl (fun v c => v * 10 + (c.toNat - 48)) 0

/-! ## Tables -/

/-- The lines of the data lines and of the blank lines behind each. -/
def row_lines (rows : List (row × List (List Char))) : List (List Char) :=
  rows.flatMap fun p => p.1.line :: p.2

/-- A table: the last line has a newline when an empty one follows it. What
follows the data lines is no line of the table, so it does not begin with a
number. -/
structure Table where
  header : List (List Char)
  rows : List (row × List (List Char))
  trailing : List (List Char)
  header_blank : ∀ l ∈ header, blank_line l
  rows_blank : ∀ p ∈ rows, ∀ l ∈ p.2, blank_line l
  distinct : (rows.map (·.1.value)).Nodup
  one_line : ∀ l ∈ header ++ row_lines rows ++ trailing, '\n' ∉ l
  nul_free : ∀ l ∈ header ++ row_lines rows ++ trailing, '\x00' ∉ l
  trailing_text : ∀ index, goto_next_string (tail_text (trailing.map strip)) '\x00' = some index →
    ∀ c ∈ (copy_string_data index).1.head?, is_digit c = false

def Table.text (t : Table) : List Char := join_lines (t.header ++ row_lines t.rows ++ t.trailing)

/-- The entry point on the line with that number. -/
def Table.entry_of (t : Table) (sys_no : Int) : Option (List Char) :=
  (t.rows.find? fun p => (p.1.value : Int) = sys_no).map (·.1.entry)

/-- The largest number, or 0. -/
def Table.max_number (t : Table) : Nat := (t.rows.map (·.1.value)).foldl max 0

def Table.Exported (m : Machine) (t : Table) : Prop := ∀ p ∈ t.rows, find_table_by_fnname m p.1.entry ≠ 0

/-- The call gets to the function of its line, or to an error. -/
def Answers (m : Machine) (t : Table) (st : State) (sys_no : Int) : Prop :=
  match t.entry_of sys_no with
  | some entry => system_call (some st) sys_no = .calls (find_table_by_fnname m entry)
  | none => ∃ err < 0, system_call (some st) sys_no = .returns err

/-- What the code has to do for a table and a call. The parse ends, having
loaded the lines of the table and no others, and the call is answered. -/
def Serves (m : Machine) (t : Table) (sys_no : Int) : Prop :=
  ∃ fuel st, parse_syscall_table m (preprocess_ini_data t.text) fuel = some (some st) ∧
    st.loaded = t.rows.map (fun p => (p.1.number, p.1.entry)) ∧ Answers m t st sys_no

/-! ## When it does -/

/-- The strings of a line fit. -/
def row.Fits (r : row) : Prop := r.number.length < 8 ∧ r.name.length < 64 ∧ r.entry.length < 32

/-- Read as a line, the text has one to four strings, which fit. -/
def Stops (index : List Char) : Prop := ∀ data, ∃ err data', get_line_data index data = some (err, data') ∧ err < 0

/-- The text is read as the lines it is made of. A table without data lines is
read through a NULL pointer where no string follows its first line. -/
def Table.Read (m : Machine) (t : Table) : Prop :=
  if t.rows = [] then
    match goto_next_data_line (preprocess_ini_data t.text) with
    | none => m.null_ok = true
    | some index => Stops index
  else t.header ≠ [] ∧ (∀ p ∈ t.rows, p.1.Fits) ∧
    ∃ index, goto_next_string (tail_text (t.trailing.map strip)) '\x00' = some index ∧ Stops index

def good_call (m : Machine) (t : Table) (sys_no : Int) : Prop :=
  t.Read m ∧ m.kmalloc (4 * (t.max_number + 1)) = true ∧ 0 ≤ sys_no ∧ sys_no < t.max_number + 1

end McLinOS.Syscall
