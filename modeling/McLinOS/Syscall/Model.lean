import McLinOS.CLib.Loop
import McLinOS.CLib.Mem
import McLinOS.Syscall.Kini
/-!
# System calls

`ipc/systemcall.c`: the table is read twice from its text, once for its size and
once to fill it, and `system_call` looks a number up in it. A result `none` is
a write past a buffer, a read past the end of the text, or a `while (1)` the
kernel does not come back from.
-/
open CLib

namespace McLinOS.Syscall

/-- What the code finds around it: the exported functions, the blocks `kmalloc`
can give, what the two passes find in their `struct syscall`, and whether reading
through a NULL pointer does no harm. -/
structure Machine where
  exports : List (List Char × Nat)
  kmalloc : Nat → Bool
  numbers_stack : Nat → Char
  load_stack : Nat → Char
  null_ok : Bool

/-! ## One line -/

/-- `struct syscall`: 104 bytes, with `number` at 0, `ABI` at 8, `Name` at 40 and
`EntryPoint` at 72. -/
abbrev syscall := Nat → Char

def store_string (data : syscall) (to_at : Nat) (s : List Char) : syscall :=
  fun i => if to_at ≤ i ∧ i < to_at + s.length then s.getD (i - to_at) '\x00' else if i = to_at + s.length then '\x00' else data i

/-- The string at `offset`. -/
def field (data : syscall) (offset : Nat) : List Char :=
  ((List.range (104 - offset)).map fun i => data (offset + i)).takeWhile (· ≠ '\x00')

def goto_next_data_line (text_data : List Char) : Option (List Char) :=
  (goto_next_char text_data '\n' '\x00').bind fun index => goto_next_string index '\x00'

/-- `get_line_data` from the fields still to be read on; `number` have been. -/
def get_fields : List Nat → Int → List Char → syscall → Option (Int × syscall)
  | [], number, index, syscall_data =>
    match goto_next_string index '\x00' with
    | none => some (-number, syscall_data)
    | some _ => some (0, syscall_data)
  | offset :: offsets, number, index, syscall_data =>
    match goto_next_string index '\x00' with
    | none => some (-number, syscall_data)
    | some index =>
      let copied := copy_string_data index
      if 104 ≤ offset + copied.1.length ∨ index.length < copied.2 then none
      else get_fields offsets (number + 1) (index.drop copied.2) (store_string syscall_data offset copied.1)

/-- 0 where four strings were read and a fifth is there. -/
def get_line_data (text_data : List Char) (syscall_data : syscall) : Option (Int × syscall) :=
  get_fields [0, 8, 40, 72] 0 text_data syscall_data

/-- The line found, or NULL. Where there is none `get_line_data` is given NULL,
and NULL is returned whatever it reads there. -/
def get_next_line_data (m : Machine) (text_data : List Char) (syscall_data : syscall) :
    Option (Option (List Char) × syscall) :=
  match goto_next_data_line text_data with
  | none => if m.null_ok then some (none, syscall_data) else none
  | some index =>
    match get_line_data index syscall_data with
    | none => none
    | some (err, syscall_data) => some (if err = 0 then some index else none, syscall_data)

def str_to_uint32 (s : List Char) : Nat := s.foldl (fun result c => u32 (result * 10 + u32sub c.toNat 48)) 0

/-! ## The two passes -/

def numbers_turn (m : Machine) (s : List Char × syscall × Nat) :
    ControlFlow (List Char × syscall × Nat) (Option Nat) :=
  match get_next_line_data m s.1 s.2.1 with
  | none => .done none
  | some (none, _) => .done (some (u32 (s.2.2 + 1)))
  | some (some index, syscall_data) => .cont (index, syscall_data, max s.2.2 (str_to_uint32 (field syscall_data 0)))

def get_syscall_numbers (m : Machine) (text_data : List Char) (fuel : Nat) : Option (Option Nat) :=
  loop (numbers_turn m) fuel (text_data, m.numbers_stack, 0)

/-- The table, and the numbers and entry points that were loaded into it. -/
structure State where
  syscall_table : List Nat
  syscall_number : Nat
  loaded : List (List Char × List Char)

/-- The first export of that name; 0 is NULL. -/
def find_table_by_fnname (m : Machine) (name : List Char) : Nat :=
  match m.exports.find? (·.1 = name) with
  | some e => e.2
  | none => 0

def load_syscall (m : Machine) (number EntryPoint : List Char) (st : State) : Option State :=
  let fn := find_table_by_fnname m EntryPoint
  if fn = 0 then none
  else if st.syscall_table.length ≤ str_to_uint32 number then none
  else some { st with syscall_table := st.syscall_table.set (str_to_uint32 number) fn,
                      loaded := st.loaded ++ [(number, EntryPoint)] }

def load_turn (m : Machine) (s : List Char × syscall × State) :
    ControlFlow (List Char × syscall × State) (Option State) :=
  match get_next_line_data m s.1 s.2.1 with
  | none => .done none
  | some (none, _) => .done (some s.2.2)
  | some (some index, syscall_data) =>
    match load_syscall m (field syscall_data 0) (field syscall_data 72) s.2.2 with
    | none => .done none
    | some st => .cont (index, syscall_data, st)

def parse_syscall_table (m : Machine) (table_data : List Char) (fuel : Nat) : Option (Option State) :=
  match get_syscall_numbers m table_data fuel with
  | none => none
  | some none => some none
  | some (some syscall_number) =>
    let size := u32 (4 * syscall_number)
    if syscall_number = 0 ∨ m.kmalloc size = false then some none
    else loop (load_turn m) fuel (table_data, m.load_stack, ⟨List.replicate (size / 4) 0, syscall_number, []⟩)

/-! ## The dispatcher -/

inductive Outcome where
  | returns (err : Int)
  | calls (func : Nat)
  | stray
  deriving DecidableEq, Repr

def ENOSYS : Int := 78

/-- `sys_no` is compared as an unsigned number. `stray` is a read outside the
table. -/
def system_call (st : Option State) (sys_no : Int) : Outcome :=
  match st with
  | none => .returns 0
  | some st =>
    if sys_no % 2 ^ 32 > st.syscall_number then .returns 0
    else if sys_no < 0 then .stray
    else
      match st.syscall_table[sys_no.toNat]? with
      | none => .stray
      | some 0 => .returns (-ENOSYS)
      | some func => .calls func

end McLinOS.Syscall
