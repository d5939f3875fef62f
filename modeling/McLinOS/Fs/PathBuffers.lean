import McLinOS.CLib.Buffer
import McLinOS.CLib.Loop
import McLinOS.Fs.Path
/-!
# Paths and their buffers

The walkers of `fs/vfs.c` with the bytes they copy. `file_name` and `component`
are buffers on the stack. What is done with a name is up to the file system `fs`,
and `NUL` ends a string.
-/
open CLib

set_option linter.style.nameCheck false

namespace McLinOS.PathBuffers

open Fs (Name Path ENOENT EEXIST ENOTDIR S_IFREG S_IFDIR O_CREAT get_dir_number)

def NAME_MAX : Nat := 255
def ENAMETOOLONG : Int := 63
def ENODEV : Int := 19

def NUL : Char := '\x00'

/-- What goes wrong with a buffer: a byte is written outside of it, or it is used
as a name without having been written. -/
inductive Harm where
  | overflow
  | uninitialised
  deriving DecidableEq, Repr

/-- What the walkers call. The state includes everything that decides how
allocations and devices answer. -/
structure FileSystem (S : Type) where
  root_dentry : S → Nat
  find_dentry : S → Nat → Name → S × Except Int Nat
  create_dentry : S → Nat → Name → Nat → S × Except Int Nat
  /-- `(d_inode->i_mode & S_IFMT) == S_IFDIR` -/
  S_ISDIR : S → Nat → Bool
  __remove_dentry : S → Nat → S
  mount : S → Nat → S × Int

/-- The dentries over initramfs. A call that goes on with a pointer to no object
leaves `none`. -/
def vfs (stray : Bool) (mount : Option Fs.FS → Nat → Option Fs.FS × Int) : FileSystem (Option Fs.FS) where
  root_dentry s := (s.map (·.root_dentry)).getD 0
  find_dentry s dir name :=
    match s.bind fun s => Fs.find_dentry s dir name with
    | some (s, r) => (some s, r)
    | none => (none, .error (-ENOENT))
  create_dentry s dir name i_mode :=
    match s.bind fun s => Fs.create_dentry s dir name i_mode with
    | some (s, r) => (some s, r)
    | none => (none, .error (-ENOENT))
  S_ISDIR s d := s.any fun s => (s.dentries.get d).d_inode.any fun i => (s.inodes.get i).i_mode &&& Fs.S_IFMT = S_IFDIR
  __remove_dentry s d := s.bind fun s => Fs.__remove_dentry stray s d
  mount := mount

/-! ## `fs/fs.h` -/

def write (b : Buffer Char) (j : Nat) (c : Char) : Except Harm (Buffer Char) :=
  match b.write j c with
  | none => .error .overflow
  | some b => .ok b

/-- The second loop of `get_dir_name`, from the `j`-th byte of the name on. -/
def copy_name (dir_name : Buffer Char) : Path → Nat → Except Harm (Buffer Char)
  | [], j => write dir_name j NUL
  | c :: path, j => do
    let dir_name ← write dir_name j c
    if c = '/' then write dir_name j NUL else copy_name dir_name path (j + 1)

/-- `j` slashes are behind. -/
def get_dir_name_from (dir_name : Buffer Char) (nummber : Nat) : Path → Nat → Except Harm (Buffer Char × Int)
  | [], _ => .ok (dir_name, -1)
  | c :: path, j =>
    let j := if c = '/' then j + 1 else j
    if j = nummber then (copy_name dir_name path 0).map fun b => (b, 0)
    else get_dir_name_from dir_name nummber path j

def get_dir_name (path : Path) (dir_name : Buffer Char) (nummber : Nat) : Except Harm (Buffer Char × Int) :=
  get_dir_name_from dir_name nummber path 0

/-- The buffer is used as a name. -/
def name_of (b : Buffer Char) : Except Harm Name :=
  match b.string NUL with
  | none => .error .uninitialised
  | some name => .ok name

section Walkers
variable {S : Type} (fs : FileSystem S)

/-! ## `select_file` and its callers -/

/-- The loop of `select_file` from the `i`-th component on, `k` of them. What
`get_dir_name` returns is not looked at. -/
def select_from (path : Path) : S → Nat → Buffer Char → Nat → Nat → Except Harm (S × Except Int Nat)
  | s, esarch_dentry, _, _, 0 => .ok (s, .ok esarch_dentry)
  | s, esarch_dentry, file_name, i, k + 1 => do
    let (file_name, _) ← get_dir_name path file_name i
    let name ← name_of file_name
    match fs.find_dentry s esarch_dentry name with
    | (s, .error e) => .ok (s, .error e)
    | (s, .ok d) => select_from path s d file_name (i + 1) k

def select_file (s : S) (path : Path) (offset : Nat) : Except Harm (S × Except Int Nat) :=
  if path = ['/'] then .ok (s, .ok (fs.root_dentry s))
  else select_from fs path s (fs.root_dentry s) (.fresh 128) 1 (get_dir_number path - offset)

def create_new_dentry (s : S) (path : Path) (i_mode : Nat) : Except Harm (S × Except Int Nat) := do
  match ← select_file fs s path 1 with
  | (s, .error _) => .ok (s, .error (-ENOENT))
  | (s, .ok p_dentry) =>
    if fs.S_ISDIR s p_dentry = false then .ok (s, .error (-ENOTDIR))
    else do
      let (file_name, _) ← get_dir_name path (.fresh 128) (get_dir_number path)
      let name ← name_of file_name
      .ok (fs.create_dentry s p_dentry name i_mode)

def mkdir (s : S) (path : Path) (mode : Nat) : Except Harm (S × Except Int Nat) :=
  let mode := if mode = 0 then 0o755 else mode
  create_new_dentry fs s path (S_IFDIR ||| (mode &&& 0o777))

/-- Up to the dentry that is opened. -/
def filp_open (s : S) (path : Path) (flags mode : Nat) : Except Harm (S × Except Int Nat) := do
  match ← select_file fs s path 0 with
  | (s, .ok d) => .ok (s, .ok d)
  | (s, .error e) =>
    if e = -ENOENT ∧ flags &&& O_CREAT ≠ 0 then create_new_dentry fs s path (S_IFREG ||| mode)
    else .ok (s, .error (-ENOENT))

def remove_dentry (s : S) (path : Path) : Except Harm (S × Int) := do
  match ← select_file fs s path 0 with
  | (s, .error _) => .ok (s, -1)
  | (s, .ok d) => .ok (fs.__remove_dentry s d, 0)

/-- `known`: there is a file system type of that name. -/
def sys_mount (known : Bool) (s : S) (dir_name : Path) : Except Harm (S × Int) :=
  if known = false then .ok (s, -ENODEV)
  else do
    match ← select_file fs s dir_name 0 with
    | (s, .error _) => .ok (s, -ENOENT)
    | (s, .ok mount_point) =>
      if fs.S_ISDIR s mount_point = false then .ok (s, -ENOTDIR) else .ok (fs.mount s mount_point)

/-! ## `create_path_and_file` -/

/-- `strchr(start, '/')`: what is in front of the slash, and behind it. -/
def strchr (start : Path) : Option (Path × Path) :=
  match start.dropWhile (· ≠ '/') with
  | [] => none
  | _ :: rest => some (start.takeWhile (· ≠ '/'), rest)

/-- From the `j`-th byte on, `n` bytes. Behind the end of the string they are `NUL`. -/
def strncpy (dst : Buffer Char) : Path → Nat → Nat → Except Harm (Buffer Char)
  | _, _, 0 => .ok dst
  | [], j, n + 1 => do strncpy (← write dst j NUL) [] (j + 1) n
  | c :: src, j, n + 1 => do strncpy (← write dst j c) src (j + 1) n

/-- The variables of the loop, and the names it has looked up. -/
structure Scan (S : Type) where
  state : S
  parent : Nat
  component : Buffer Char
  start : Path
  visited : List Name

/-- How the scan ends. `NULL` is for a path that does not begin with a slash. -/
inductive Found where
  | null
  | error (e : Int)
  | dentry (d : Nat)
  deriving DecidableEq, Repr

/-- One turn: a component in front of a slash. The loop ends without a result at
the name behind the last slash. -/
def scan_body (c : Scan S) : ControlFlow (Scan S) (Except Harm (Scan S × Option Found)) :=
  match strchr c.start with
  | none => .done (.ok (c, none))
  | some (text, rest) =>
    let len := text.length
    if len ≥ NAME_MAX then .done (.ok (c, some (.error (-ENAMETOOLONG))))
    else
      match do
        let component ← write (← strncpy c.component c.start 0 len) len NUL
        let name ← name_of component
        .ok (component, name) with
      | .error harm => .done (.error harm)
      | .ok (component, name) =>
        let c := { c with component, visited := c.visited ++ [name] }
        let r : S × Except Int Nat := match fs.find_dentry c.state c.parent name with
          | (s, .ok d) => (s, .ok d)
          | (s, .error _) => fs.create_dentry s c.parent name (S_IFDIR ||| 0o755)
        match r with
        | (s, .error e) => .done (.ok ({ c with state := s }, some (.error e)))
        | (s, .ok d) =>
          if fs.S_ISDIR s d = false then .done (.ok ({ c with state := s }, some (.error (-ENOTDIR))))
          else .cont { c with state := s, parent := d, start := rest }

/-- Behind the loop. The name behind the last slash is not copied. -/
def last_name (mode : Nat) : Scan S × Option Found → Scan S × Found
  | (c, some found) => (c, found)
  | (c, none) =>
    if c.start = [] then (c, .dentry c.parent)
    else
      let r := fs.create_dentry c.state c.parent c.start mode
      ({ c with state := r.1, visited := c.visited ++ [c.start] },
        match r.2 with
        | .error e => .error e
        | .ok d => .dentry d)

def create_path_and_file (fuel : Nat) (s : S) (path : Path) (mode : Nat) : Option (Except Harm (Scan S × Found)) :=
  let c : Scan S := ⟨s, fs.root_dentry s, .fresh NAME_MAX, path, []⟩
  match path with
  | '/' :: start => (loop (scan_body fs) fuel { c with start }).map fun r => r.map (last_name fs mode)
  | _ => some (.ok (c, .null))

end Walkers

end McLinOS.PathBuffers
