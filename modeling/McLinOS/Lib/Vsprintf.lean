import McLinOS.CLib.Loop
import McLinOS.Lib.PutDec
/-!
# Formatted output

`lib/vsprintf.c`. A `size_t` is a `Nat` below 2^32 and an `int` is an `Int`: an `int`
that overflows is undefined, and so is an argument of another size than the format asks
for. Then the result is `none`. The output goes to an array of its own.
-/
open CLib

set_option linter.style.nameCheck false

namespace McLinOS.Vsprintf

/-- The result of a signed operation. -/
def int (v : Int) : Option Int := if -2 ^ 31 ≤ v ∧ v < 2 ^ 31 then some v else none

def INT_MAX : Int := 2 ^ 31 - 1

/-- An argument of 32 bits (`int`, `long`, a pointer) or of 64 (`long long`). -/
inductive Arg where
  | word (v : UInt32)
  | dword (v : UInt64)
  deriving DecidableEq, Repr

def next_word : List Arg → Option (UInt32 × List Arg)
  | .word v :: args => some (v, args)
  | _ => none

def next_dword : List Arg → Option (UInt64 × List Arg)
  | .dword v :: args => some (v, args)
  | _ => none

structure Flags where
  ZEROPAD : Bool := false
  SIGN : Bool := false
  PLUS : Bool := false
  SPACE : Bool := false
  LEFT : Bool := false
  SMALL : Bool := false
  SPECIAL : Bool := false
  WIDE : Bool := false
  deriving DecidableEq, Repr

/-! ## The format -/

def isdigit (c : UInt8) : Bool := '0'.toUInt8 ≤ c && c ≤ '9'.toUInt8

def skip_atoi : Int → List UInt8 → Option (Int × List UInt8)
  | i, [] => some (i, [])
  | i, c :: fmt => do
    if isdigit c then
      let sum ← int (i * 10 + c.toNat)
      skip_atoi (sum - '0'.toNat) fmt
    else
      some (i, c :: fmt)

def get_flags : Flags → List UInt8 → Flags × List UInt8
  | flags, [] => (flags, [])
  | flags, c :: fmt =>
    match Char.ofUInt8 c with
    | '-' => get_flags { flags with LEFT := true } fmt
    | '+' => get_flags { flags with PLUS := true } fmt
    | ' ' => get_flags { flags with SPACE := true } fmt
    | '#' => get_flags { flags with SPECIAL := true } fmt
    | '0' => get_flags { flags with ZEROPAD := true } fmt
    | _ => (flags, c :: fmt)

def get_int (fmt : List UInt8) (args : List Arg) : Option (Int × List UInt8 × List Arg) := do
  match fmt with
  | [] => some (0, [], args)
  | c :: rest =>
    if isdigit c then
      let (i, fmt) ← skip_atoi 0 fmt
      some (i, fmt, args)
    else if c = '*'.toUInt8 then
      let (v, args) ← next_word args
      some (v.toInt32.toInt, rest, args)
    else
      some (0, fmt, args)

/-- `'h'` or `'l'`, in capitals where it is there twice. -/
def get_qualifier : List UInt8 → Option Char × List UInt8
  | [] => (none, [])
  | c :: fmt =>
    let qualifier := Char.ofUInt8 c
    if qualifier = 'h' ∨ qualifier = 'l' then
      match fmt with
      | [] => (some qualifier, [])
      | c' :: rest =>
        if c' = c then (some (Char.ofNat (qualifier.toNat - ('a'.toNat - 'A'.toNat))), rest) else (some qualifier, fmt)
    else
      (none, c :: fmt)

/-- What stands between the `'%'` and the conversion. -/
structure Field where
  flags : Flags
  field_width : Int
  precision : Int
  qualifier : Option Char
  deriving DecidableEq, Repr

def get_width (flags : Flags) (field_width : Int) : Option (Flags × Int) := do
  if field_width < 0 then
    let field_width ← int (-field_width)
    some ({ flags with LEFT := true }, field_width)
  else
    some (flags, field_width)

def get_precision (flags : Flags) (fmt : List UInt8) (args : List Arg) : Option (Flags × Int × List UInt8 × List Arg) := do
  match fmt with
  | [] => some (flags, -1, [], args)
  | c :: rest =>
    if c = '.'.toUInt8 then
      let (precision, fmt, args) ← get_int rest args
      some (if precision ≥ 0 then { flags with ZEROPAD := false } else flags, precision, fmt, args)
    else
      some (flags, -1, fmt, args)

def get_field (fmt : List UInt8) (args : List Arg) : Option (Field × List UInt8 × List Arg) := do
  let (flags, fmt) := get_flags {} fmt
  let (field_width, fmt, args) ← get_int fmt args
  let (flags, field_width) ← get_width flags field_width
  let flags := if flags.LEFT then { flags with ZEROPAD := false } else flags
  let (flags, precision, fmt, args) ← get_precision flags fmt args
  let (qualifier, fmt) := get_qualifier fmt
  some (⟨flags, field_width, precision, qualifier⟩, fmt, args)

/-! ## The conversions -/

def get_number (sign : Bool) (qualifier : Option Char) (args : List Arg) : Option (UInt64 × List Arg) := do
  if sign then
    match qualifier with
    | some 'L' => next_dword args
    | some 'l' => let (v, args) ← next_word args; some (v.toInt32.toInt64.toUInt64, args)
    | some 'h' => let (v, args) ← next_word args; some (v.toUInt16.toInt16.toInt64.toUInt64, args)
    | some 'H' => let (v, args) ← next_word args; some (v.toUInt8.toInt8.toInt64.toUInt64, args)
    | _ => let (v, args) ← next_word args; some (v.toInt32.toInt64.toUInt64, args)
  else
    match qualifier with
    | some 'L' => next_dword args
    | some 'l' => let (v, args) ← next_word args; some (v.toUInt64, args)
    | some 'h' => let (v, args) ← next_word args; some (v.toUInt16.toUInt64, args)
    | some 'H' => let (v, args) ← next_word args; some (v.toUInt8.toUInt64, args)
    | _ => let (v, args) ← next_word args; some (v.toUInt64, args)

/-- The sign, and the number without it. -/
def get_sign (num : UInt64) (flags : Flags) : Option (Option UInt8 × UInt64) :=
  if !flags.SIGN then some (none, num)
  else if num.toInt64 < 0 then if num = 0x8000000000000000 then none else some (some '-'.toUInt8, -num)
  else if flags.PLUS then some (some '+'.toUInt8, num)
  else if flags.SPACE then some (some ' '.toUInt8, num)
  else some (none, num)

/-- The word of 16 bits at `s16`. -/
def word (m : Mem) (s16 : Nat) : Nat := Mem.load 2 m s16

/-- How many bytes of UTF-8, `maxlen` at most. A turn adds a byte, so there are no more turns than that. -/
def utf16s_utf8nlen (m : Mem) (maxlen : Nat) : Nat → Nat → Nat → Nat
  | 0, _, len => len
  | turns + 1, s16, len =>
    if len < maxlen ∧ word m s16 ≠ 0 then
      let c0 := word m s16
      let clen := 1 + (if c0 ≥ 0x80 then 1 else 0) + (if c0 ≥ 0x800 then 1 else 0)
      if len + clen > maxlen then len
      else if c0 &&& 0xfc00 = 0xd800 then
        if len + clen = maxlen then len
        else if word m (s16 + 2) &&& 0xfc00 = 0xdc00 then utf16s_utf8nlen m maxlen turns (s16 + 4) (len + (clen + 1))
        else utf16s_utf8nlen m maxlen turns (s16 + 2) (len + clen)
      else utf16s_utf8nlen m maxlen turns (s16 + 2) (len + clen)
    else len

/-- The character, and the pointer behind it. -/
def utf16_to_utf32 (m : Mem) (s16 : Nat) : Nat × Nat :=
  let c0 := word m s16
  if c0 &&& 0xf800 ≠ 0xd800 then (c0, s16 + 2)
  else if c0 &&& 0x0400 ≠ 0 then (0xfffd, s16 + 2)
  else
    let c1 := word m (s16 + 2)
    if c1 &&& 0xfc00 ≠ 0xdc00 then (0xfffd, s16 + 2)
    else (((0x10000 - (0xd800 <<< 10 : Nat) - 0xdc00 : Int) + (c0 <<< 10 : Nat) + c1).toNat, s16 + 4)

def strnlen (m : Mem) : Nat → Nat → Nat → Nat
  | 0, s, sc => sc - s
  | count + 1, s, sc => if m sc ≠ 0 then strnlen m count s (sc + 1) else sc - s

/-- What is known at `output:`. `s` points into an array. -/
structure Conv where
  flags : Flags
  field_width : Int
  precision : Int
  sign : Option UInt8
  array : Mem
  s : Nat
  len : Nat

def wstring (array : Mem) (s : Nat) (flags : Flags) (field_width precision : Int) : Conv :=
  let len := utf16s_utf8nlen array precision.toNat precision.toNat s 0
  ⟨{ flags with WIDE := true }, field_width, len, none, array, s, len⟩

/-- `"(null)"`. -/
def null_text : List UInt8 := "(null)".toList.map Char.toUInt8

/-- `'c'` and `'s'`. -/
def text_conv (m : Mem) (c : Char) (f : Field) (args : List Arg) : Option (Conv × List Arg) := do
  let flags : Flags := { LEFT := f.flags.LEFT }
  let (v, args) ← next_word args
  if c = 'c' then
    if f.qualifier = some 'l' then
      let tmp := Mem.store 2 (Mem.store 2 (fun _ => 0) 0 v.toNat) 2 0
      some (wstring tmp 0 flags f.field_width INT_MAX, args)
    else
      some (⟨flags, f.field_width, 1, none, Mem.set (fun _ => 0) 0 v.toUInt8, 0, 1⟩, args)
  else
    let precision := if f.precision < 0 then INT_MAX else f.precision
    let s := v.toNat
    if s = 0 then
      let text := if precision < 6 then [] else null_text
      let array := Mem.copy (fun _ => 0) 0 text
      let len := strnlen array precision.toNat 0 0
      some (⟨flags, f.field_width, len, none, array, 0, len⟩, args)
    else if f.qualifier = some 'l' then
      some (wstring m s flags f.field_width precision, args)
    else
      let len := strnlen m precision.toNat s s
      some (⟨flags, f.field_width, len, none, m, s, len⟩, args)

/-- The size of `tmp`. -/
def TMP_SIZE : Nat := (8 * 8 + 2) / 3

/-- The sign takes a place of the field. -/
def sign_width (sign : Option UInt8) (field_width : Int) : Option Int := if sign.isSome then int (field_width - 1) else some field_width

/-- `'#'`: an octal number begins with a zero, and `"0x"` stands before one of base 16. -/
def get_special (base : Nat) (flags : Flags) (field_width precision : Int) (len : Nat) : Option (Flags × Int × Int) :=
  if flags.SPECIAL then
    let precision := if base = 8 ∧ precision = len then precision + 1 else precision
    if base = 16 ∧ precision > 0 then (int (field_width - 2)).map fun field_width => (flags, field_width, precision)
    else some ({ flags with SPECIAL := false }, field_width, precision)
  else some (flags, field_width, precision)

/-- A number, once its base and flags are known. -/
def number_conv (base : Nat) (flags : Flags) (field_width precision : Int) (num : UInt64) : Option Conv := do
  let (sign, num) ← get_sign num flags
  let field_width ← sign_width sign field_width
  let (s, tmp) ← number (fun _ => 0) TMP_SIZE num.toNat base (case_bit flags.SMALL)
  let len := TMP_SIZE - s
  let precision := if precision < 0 then 1 else precision
  let precision := if precision < len then (len : Int) else precision
  let (flags, field_width, precision) ← get_special base flags field_width precision len
  let precision := if flags.ZEROPAD ∧ field_width > precision then field_width else precision
  some ⟨flags, field_width, precision, sign, tmp, s, len⟩

/-- The base and the flags of a conversion, where it is one of a number. -/
def number_base (c : Char) (flags : Flags) : Option (Nat × Flags) :=
  match c with
  | 'o' => some (8, flags)
  | 'p' | 'x' => some (16, { flags with SMALL := true })
  | 'X' => some (16, flags)
  | 'd' | 'i' => some (10, { flags with SIGN := true, SPECIAL := false })
  | 'u' => some (10, { flags with SPECIAL := false })
  | _ => none

/-- The number, or the pointer. -/
def get_value (c : Char) (sign : Bool) (qualifier : Option Char) (args : List Arg) : Option (UInt64 × List Arg) :=
  if c = 'p' then (next_word args).map fun (v, args) => (v.toUInt64, args) else get_number sign qualifier args

/-- What follows a `'%'`. The conversion is `none` where there is none of that name. -/
def directive (m : Mem) (fmt : List UInt8) (args : List Arg) : Option (Option Conv × List UInt8 × List Arg) := do
  let (f, fmt, args) ← get_field fmt args
  match fmt with
  | [] => some (none, [], args)
  | c :: fmt =>
    let c := Char.ofUInt8 c
    if c = 'c' ∨ c = 's' then
      let (conv, args) ← text_conv m c f args
      some (some conv, fmt, args)
    else
      match number_base c f.flags with
      | none => some (none, fmt, args)
      | some (base, flags) =>
        let precision : Int := if c = 'p' ∧ f.precision < 0 then 2 * 4 else f.precision
        let (num, args) ← get_value c flags.SIGN f.qualifier args
        let conv ← number_conv base flags f.field_width precision num
        some (some conv, fmt, args)

/-! ## The output -/

/-- `PUTC`. -/
def putc (size : Nat) (out : Mem × Nat) (c : UInt8) : Mem × Nat :=
  (if out.2 < size then out.1.set out.2 c else out.1, u32 (out.2 + 1))

/-- `while (n-- > 0) PUTC(c)`: what is left in the counter, and the output. -/
def pad (size : Nat) (c : UInt8) (n : Int) (out : Mem × Nat) : Option (Int × (Mem × Nat)) := do
  let left ← int (min n 0 - 1)
  some (left, (List.replicate n.toNat c).foldl (putc size) out)

/-- A character that is not ASCII. `clen` is the number of its trailing octets. -/
def put_octets (size : Nat) (out : Mem × Nat) (c32 clen : Nat) : Mem × Nat :=
  let s8 := out.2
  let out := putc size out 0
  let pos := u32 (out.2 + clen)
  if pos ≥ size then (out.1, pos)
  else
    let buf := out.1.set s8 (UInt8.ofNat ((0xf00 >>> 1) >>> clen))
    let (buf, c32) := (List.range clen).foldl (fun (t : Mem × Nat) j =>
      (t.1.set (s8 + clen - j) (UInt8.ofNat (0x80 ||| (t.2 &&& 0x3f))), t.2 >>> 6)) (buf, c32)
    (buf.set s8 (buf s8 ||| UInt8.ofNat c32), pos)

/-- A turn over the words of a wide string, of `len` bytes in UTF-8. -/
def put_wide (size : Nat) (array : Mem) : Nat × Nat × (Mem × Nat) → ControlFlow (Nat × Nat × (Mem × Nat)) (Mem × Nat)
  | (0, _, out) => .done out
  | (len + 1, ws, out) =>
    let (c32, ws) := utf16_to_utf32 array ws
    if c32 < 0x80 then .cont (len, ws, putc size out (UInt8.ofNat c32))
    else
      let clen := 1 + (if c32 ≥ 0x800 then 1 else 0) + (if c32 ≥ 0x10000 then 1 else 0)
      .cont (u32sub len clen, ws, put_octets size out c32 clen)

/-- Leading padding. -/
def pad_left (size : Nat) (c : Conv) (field_width : Int) (out : Mem × Nat) : Option (Int × (Mem × Nat)) :=
  if !c.flags.LEFT then pad size ' '.toUInt8 field_width out else some (field_width, out)

/-- Actual output. -/
def put_text (size : Nat) (c : Conv) (out : Mem × Nat) : Option (Mem × Nat) :=
  if c.flags.WIDE then loop (put_wide size c.array) (c.len + 1) (c.len, c.s, out)
  else some ((Mem.bytes c.array c.s c.len).foldl (putc size) out)

/-- From `output:` to the end of the turn. -/
def output (size : Nat) (c : Conv) (out : Mem × Nat) : Option (Mem × Nat) := do
  let field_width ← int (c.field_width - c.precision)
  let (field_width, out) ← pad_left size c field_width out
  let out := (c.sign.toList).foldl (putc size) out
  let out := if c.flags.SPECIAL then putc size (putc size out '0'.toUInt8) ('X'.toUInt8 ||| case_bit c.flags.SMALL) else out
  let out := (List.replicate (c.precision.toNat - c.len) '0'.toUInt8).foldl (putc size) out
  let out ← put_text size c out
  let (_, out) ← pad size ' '.toUInt8 field_width out
  some out

/-- A turn over the format: the rest of it, the arguments and the output. -/
def turn (m : Mem) (size : Nat) :
    List UInt8 × List Arg × (Mem × Nat) → ControlFlow (List UInt8 × List Arg × (Mem × Nat)) (Option (Mem × Nat))
  | ([], _, out) => .done (some out)
  | (c :: fmt, args, out) =>
    if c ≠ '%'.toUInt8 then .cont (fmt, args, putc size out c)
    else if fmt.head? = some '%'.toUInt8 then .cont (fmt.tail, args, putc size out '%'.toUInt8)
    else
      match directive m fmt args with
      | none => .done none
      | some (none, _, _) => .done (some out)
      | some (some conv, fmt, args) =>
        match output size conv out with
        | none => .done none
        | some out => .cont (fmt, args, out)

/-- The buffer, and how long the whole text is, as an `int`. -/
def vsnprintf (m : Mem) (buf : Mem) (size : Nat) (fmt : List UInt8) (args : List Arg) : Option (Mem × Int) := do
  let (buf, pos) ← (loop (turn m size) (fmt.length + 1) (fmt, args, (buf, 0))).join
  some (if size ≠ 0 then buf.set (min pos (size - 1)) 0 else buf, (UInt32.ofNat pos).toInt32.toInt)

end McLinOS.Vsprintf
