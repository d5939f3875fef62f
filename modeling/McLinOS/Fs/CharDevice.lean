import Mathlib.Algebra.Group.Nat.Defs
import McLinOS.CLib.Pool
/-!
# Character devices

The table of `fs/char_device.c`. Its numbers are 32-bit ones, `minorct` is compared
and added as an unsigned one. Entries and cdevs live in pools.
-/
open CLib

set_option linter.style.nameCheck false

namespace McLinOS.CharDevice

def CHRDEV_MAJOR_HASH_SIZE : Nat := 127
def CHRDEV_MAJOR_MAX : Nat := 512
def CHRDEV_MAJOR_DYN_END : Nat := 234
def CHRDEV_MAJOR_DYN_EXT_START : Nat := 511
def CHRDEV_MAJOR_DYN_EXT_END : Nat := 384

def MINORBITS : Nat := 20
def MINORMASK : Nat := 2 ^ MINORBITS - 1

def MAJOR (dev : Nat) : Nat := dev / 2 ^ MINORBITS
def MINOR (dev : Nat) : Nat := dev % 2 ^ MINORBITS
def MKDEV (ma mi : Nat) : Nat := (ma <<< MINORBITS ||| mi) % 2 ^ 32

def ENOMEM : Int := 12
def EBUSY : Int := 16
def EINVAL : Int := 22

structure char_device_struct where
  major : Nat
  baseminor : Nat
  minorct : Nat
  cdev : Option Nat
  deriving Inhabited

/-- `ops` is a pointer to the `file_operations`. -/
structure cdev where
  ops : Nat
  dev : Nat
  count : Nat
  deriving Inhabited

/-- `freed` are the cdevs that `cdev_del` was called for. `null_cleared` is set when
zeros were written from the address 0 on. -/
structure Table where
  chrdevs : Nat → List Nat
  cds : Pool char_device_struct
  cdevs : Pool cdev
  freed : List Nat
  null_cleared : Bool

def major_to_index (major : Nat) : Nat := major % CHRDEV_MAJOR_HASH_SIZE

/-- The minor behind the range. -/
def char_device_struct.ends (cd : char_device_struct) : Nat := (cd.baseminor + cd.minorct) % 2 ^ 32

/-- The first loop ends at once, as the table is too short for it. -/
def find_dynamic_major (s : Table) : Option Nat :=
  match ((List.range CHRDEV_MAJOR_HASH_SIZE).reverse.takeWhile (CHRDEV_MAJOR_DYN_END ≤ ·)).find? fun i => s.chrdevs i = [] with
  | some i => some i
  | none =>
    (List.range' CHRDEV_MAJOR_DYN_EXT_END (CHRDEV_MAJOR_DYN_EXT_START - CHRDEV_MAJOR_DYN_EXT_END + 1)).reverse.find? fun i =>
      (s.chrdevs (major_to_index i)).all fun cd => (s.cds.get cd).major ≠ i

/-- The loop over a bucket: what comes before the new range and what behind it. -/
def place (s : Table) (major baseminor minorct : Nat) : List Nat → Option (List Nat × List Nat)
  | [] => some ([], [])
  | curr :: next =>
    let cd := s.cds.get curr
    if cd.major < major then (place s major baseminor minorct next).map fun r => (curr :: r.1, r.2)
    else if cd.major > major then some ([], curr :: next)
    else if cd.ends ≤ baseminor then (place s major baseminor minorct next).map fun r => (curr :: r.1, r.2)
    else if cd.baseminor ≥ (baseminor + minorct) % 2 ^ 32 then some ([], curr :: next)
    else none

/-- What `kzalloc` does besides returning a block: it clears what `__smalloc__` gave
it before its caller tests that, so a failure, for which `mem` is false, clears `NULL`. -/
def kzalloc (mem : Bool) (s : Table) : Table := { s with null_cleared := s.null_cleared || !mem }

/-- `mem` says if `__smalloc__` succeeds. -/
def __register_chrdev_region (mem : Bool) (s : Table) (major baseminor minorct : Nat) : Table × Except Int Nat :=
  if major ≥ CHRDEV_MAJOR_MAX then (s, .error (-EINVAL))
  else if minorct > (MINORMASK + 1 + 2 ^ 32 - baseminor) % 2 ^ 32 then (s, .error (-EINVAL))
  else if mem = false then (kzalloc mem s, .error (-ENOMEM))
  else
    match if major = 0 then find_dynamic_major s else some major with
    | none => (s, .error (-EBUSY))
    | some major =>
      let i := major_to_index major
      match place s major baseminor minorct (s.chrdevs i) with
      | none => (s, .error (-EBUSY))
      | some (prev, curr) =>
        let cd := s.cds.next
        ({ s with
            cds := s.cds.alloc { major, baseminor, minorct, cdev := none }
            chrdevs := Function.update s.chrdevs i (prev ++ cd :: curr) }, .ok cd)

def __unregister_chrdev_region (s : Table) (major baseminor minorct : Nat) : Table × Option Nat :=
  let i := major_to_index major
  let found := (s.chrdevs i).find? fun cd =>
    (s.cds.get cd).major = major ∧ (s.cds.get cd).baseminor = baseminor ∧ (s.cds.get cd).minorct = minorct
  match found with
  | none => (s, none)
  | some cd => ({ s with chrdevs := Function.update s.chrdevs i ((s.chrdevs i).erase cd) }, some cd)

section Region
-- `__smalloc__` for the entry that starts at a device number.
variable (mem : Nat → Bool)

/-- The loop at `fail`, from `n` on. `fuel` bounds the turns of a loop. -/
def unregister_until (to_dev : Nat) : Nat → Table → Nat → Option Table
  | 0, _, _ => none
  | fuel + 1, s, n =>
    if n < to_dev then
      let next := MKDEV (MAJOR n + 1) 0
      unregister_until to_dev fuel (__unregister_chrdev_region s (MAJOR n) (MINOR n) ((next + 2 ^ 32 - n) % 2 ^ 32)).1 next
    else some s

def register_from (from_dev to_dev : Nat) : Nat → Table → Nat → Option (Table × Int)
  | 0, _, _ => none
  | fuel + 1, s, n =>
    if n < to_dev then
      let next := if MKDEV (MAJOR n + 1) 0 > to_dev then to_dev else MKDEV (MAJOR n + 1) 0
      match __register_chrdev_region (mem n) s (MAJOR n) (MINOR n) ((next + 2 ^ 32 - n) % 2 ^ 32) with
      | (s, .error e) => (unregister_until n fuel s from_dev).map fun s => (s, e)
      | (s, .ok _) => register_from from_dev to_dev fuel s next
    else some (s, 0)

def register_chrdev_region (fuel : Nat) (s : Table) (from_dev count : Nat) : Option (Table × Int) :=
  register_from mem from_dev ((from_dev + count) % 2 ^ 32) fuel s from_dev

end Region

def alloc_chrdev_region (mem : Bool) (s : Table) (baseminor count : Nat) : Table × Except Int Nat :=
  match __register_chrdev_region mem s 0 baseminor count with
  | (s, .error e) => (s, .error e)
  | (s, .ok cd) => (s, .ok (MKDEV (s.cds.get cd).major (s.cds.get cd).baseminor))

/-- Of the two allocations, `mem` is that of the entry and `mem'` that of the cdev. -/
def __register_chrdev (mem mem' : Bool) (s : Table) (major baseminor count fops : Nat) : Table × Int :=
  match __register_chrdev_region mem s major baseminor count with
  | (s, .error e) => (s, e)
  | (s, .ok cd) =>
    let major' := (s.cds.get cd).major
    if mem' = false then ((__unregister_chrdev_region (kzalloc mem' s) major' baseminor count).1, -ENOMEM)
    else
      let cdev := s.cdevs.next
      ({ s with
          cdevs := s.cdevs.alloc { ops := fops, dev := MKDEV major' baseminor, count }
          cds := s.cds.modify cd ({ · with cdev := some cdev }) }, if major ≠ 0 then 0 else major')

def unregister_from (to_dev : Nat) : Nat → Table → Nat → Option Table
  | 0, _, _ => none
  | fuel + 1, s, n =>
    if n < to_dev then
      let next := if MKDEV (MAJOR n + 1) 0 > to_dev then to_dev else MKDEV (MAJOR n + 1) 0
      unregister_from to_dev fuel (__unregister_chrdev_region s (MAJOR n) (MINOR n) ((next + 2 ^ 32 - n) % 2 ^ 32)).1 next
    else some s

def unregister_chrdev_region (fuel : Nat) (s : Table) (from_dev count : Nat) : Option Table :=
  unregister_from ((from_dev + count) % 2 ^ 32) fuel s from_dev

def cdev_del (s : Table) (p : Nat) : Table := { s with freed := p :: s.freed }

def __unregister_chrdev (s : Table) (major baseminor count : Nat) : Table :=
  match __unregister_chrdev_region s major baseminor count with
  | (s, none) => s
  | (s, some cd) =>
    match (s.cds.get cd).cdev with
    | none => s
    | some cdev => cdev_del s cdev

/-- `some none` is `NULL`. `none` reads through a cdev that is not there. -/
def find_chrdev (s : Table) (major minor : Nat) : Option (Option Nat) :=
  let found := (s.chrdevs (major_to_index major)).find? fun cd =>
    (s.cds.get cd).major = major ∧ (s.cds.get cd).baseminor ≤ minor ∧ minor < (s.cds.get cd).ends
  match found with
  | none => some none
  | some cd =>
    match (s.cds.get cd).cdev with
    | none => none
    | some cdev => if cdev < s.cdevs.next ∧ cdev ∉ s.freed then some (some (s.cdevs.get cdev).ops) else none

/-! ## Runs -/

/-- The calls, with what `__smalloc__` answers in them. -/
inductive Call where
  | register_chrdev (mem mem' : Bool) (major baseminor count fops : Nat)
  | register_chrdev_region (mem : Nat → Bool) (from_dev count : Nat)
  | alloc_chrdev_region (mem : Bool) (baseminor count : Nat)
  | unregister_chrdev (major baseminor count : Nat)
  | unregister_chrdev_region (from_dev count : Nat)

/-- What a call that returns does. -/
inductive Step : Table → Call → Table → Prop
  | register_chrdev (mem mem' : Bool) (s : Table) (major baseminor count fops : Nat) :
      Step s (.register_chrdev mem mem' major baseminor count fops) (__register_chrdev mem mem' s major baseminor count fops).1
  | register_chrdev_region (mem : Nat → Bool) (fuel : Nat) {s s' : Table} {from_dev count : Nat} {ret : Int} :
      CharDevice.register_chrdev_region mem fuel s from_dev count = some (s', ret) →
      Step s (.register_chrdev_region mem from_dev count) s'
  | alloc_chrdev_region (mem : Bool) (s : Table) (baseminor count : Nat) :
      Step s (.alloc_chrdev_region mem baseminor count) (CharDevice.alloc_chrdev_region mem s baseminor count).1
  | unregister_chrdev (s : Table) (major baseminor count : Nat) :
      Step s (.unregister_chrdev major baseminor count) (__unregister_chrdev s major baseminor count)
  | unregister_chrdev_region (fuel : Nat) {s s' : Table} {from_dev count : Nat} :
      CharDevice.unregister_chrdev_region fuel s from_dev count = some s' → Step s (.unregister_chrdev_region from_dev count) s'

def empty : Table := { chrdevs := fun _ => [], cds := .empty, cdevs := .empty, freed := [], null_cleared := false }

/-- The table after the calls, the last one first. -/
inductive Run : List Call → Table → Prop
  | nil : Run [] empty
  | step {calls : List Call} {s s' : Table} {c : Call} : Run calls s → Step s c s' → Run (c :: calls) s'

/-! ## What is asked of it -/

def Current (s : Table) (cd : Nat) : Prop := ∃ i, cd ∈ s.chrdevs i

/-- The minor is in the range, without wrapping. -/
def Holds (s : Table) (major minor cd : Nat) : Prop :=
  (s.cds.get cd).major = major ∧ (s.cds.get cd).baseminor ≤ minor ∧
    minor < (s.cds.get cd).baseminor + (s.cds.get cd).minorct

/-- Between two ranges of a bucket. -/
def Before (a b : char_device_struct) : Prop :=
  a.major < b.major ∨ (a.major = b.major ∧ a.baseminor + a.minorct ≤ b.baseminor)

/-- Every bucket is sorted, without ranges that meet. -/
def Ordered (s : Table) : Prop :=
  ∀ i, (s.chrdevs i).Nodup ∧ (s.chrdevs i).Pairwise fun x y => Before (s.cds.get x) (s.cds.get y)

/-- A lookup returns the operations of the only registration with that number, or
`NULL`. -/
structure Right (s : Table) (major minor : Nat) : Prop where
  found : ∀ cd, Current s cd → Holds s major minor cd →
    find_chrdev s major minor = some ((s.cds.get cd).cdev.map fun c => (s.cdevs.get c).ops) ∧
      ∀ cd', Current s cd' → Holds s major minor cd' → cd' = cd
  missing : (∀ cd, Current s cd → ¬Holds s major minor cd) → find_chrdev s major minor = some none

/-- The range of the call ends before the 32-bit numbers do, or the check of
`__register_chrdev_region` sees that it does not. -/
def RangeFits (baseminor count : Nat) : Prop := baseminor ≤ MINORMASK + 1 ∨ baseminor + count < 2 ^ 32

def Fits : Call → Prop
  | .register_chrdev _ _ _ baseminor count _ | .alloc_chrdev_region _ baseminor count => RangeFits baseminor count
  | _ => True

/-- There is memory for what the call allocates. -/
def Supplied : Call → Prop
  | .register_chrdev mem mem' .. => mem = true ∧ mem' = true
  | .register_chrdev_region mem .. => ∀ n, mem n = true
  | .alloc_chrdev_region mem .. => mem = true
  | _ => True

end McLinOS.CharDevice
