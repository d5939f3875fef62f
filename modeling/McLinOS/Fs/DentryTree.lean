import McLinOS.CLib.Runs
import McLinOS.Fs.Model
/-!
# The tree of cached dentries

`fs/dcache.c` and the path functions of `fs/vfs.c` with the count of each
dentry. What `kmalloc` and the file systems answer is up to each call.
-/
open CLib

namespace McLinOS.DentryTree

open Fs (Name Path S_IFMT S_IFREG S_IFBLK S_IFDIR S_IFCHR ENOENT ENOMEM EEXIST ENOTDIR file_name get_dir_number)

set_option linter.style.nameCheck false

def EROFS : Int := 30

/-- `create` tells whether `i_op->create` is set. -/
structure inode where
  i_mode : Nat
  i_sb : Option Nat
  create : Bool
  deriving Inhabited, DecidableEq, Repr

/-- `count` is `d_lockref.count`. -/
structure dentry where
  d_hash : List Nat
  d_parent : Option Nat
  d_name : Name
  d_inode : Option Nat
  d_sb : Option Nat
  count : Int
  deriving Inhabited

/-- `freed` are the dentries that were freed, `s_root` the roots of the
superblocks. -/
structure State where
  dentries : Pool dentry
  freed : List Nat
  inodes : Pool inode
  s_root : Nat → Nat
  root_dentry : Nat

def Live (s : State) (d : Nat) : Prop := d < s.dentries.next ∧ d ∉ s.freed

instance (s : State) (d : Nat) : Decidable (Live s d) := inferInstanceAs (Decidable (_ ∧ _))

/-! ## Dentries, `fs/dcache.c` -/

def dget_dlock (s : State) (dentry : Nat) : State :=
  { s with dentries := s.dentries.modify dentry fun d => { d with count := d.count + 1 } }

def dput_dlock (s : State) (dentry : Nat) : State :=
  { s with dentries := s.dentries.modify dentry fun d => { d with count := d.count - 1 } }

def new_dentry (parent : Nat) (name : Name) (d_sb : Option Nat) : dentry :=
  { d_hash := [], d_parent := some parent, d_name := name, d_inode := none, d_sb, count := 0 }

/-- Whether `__d_alloc` gets memory for a dentry and its name, and whether a NUL behind
the name's block does harm. -/
structure Memory where
  given : Bool
  nul_harms : Bool

/-- There is memory. For the empty name `kmalloc` is asked for 0 bytes. -/
def Memory.holds (mem : Memory) (name : Name) : Bool := mem.given && name ≠ []

/-- `dentry_rename` asks for `strlen(name)` bytes, in whole words of 8, and `strcpy`
writes one more. -/
def Memory.overrun (mem : Memory) (name : Name) : Bool := name.length % 8 = 0 && mem.nul_harms

/-- `__d_alloc` gets a block that the name fits. -/
def Allocates (mem : Memory) (name : Name) : Prop := mem.holds name = true ∧ mem.overrun name = false

instance (mem : Memory) (name : Name) : Decidable (Allocates mem name) := inferInstanceAs (Decidable (_ ∧ _))

-- Whether stray accesses do no harm: writing through an error pointer, reading
-- `s_root` through `NULL`, and counting down the word behind a dentry.
variable (stray : Bool)

/-- `__d_alloc` fails with `-ENOMEM`, and `d_alloc` looks for `NULL` only: it
counts the parent up and returns the error pointer, here `none`. -/
def d_alloc (mem : Memory) (s : State) (parent : Nat) (name : Name) : Option (State × Option Nat) :=
  if Allocates mem name then
    let d := new_dentry parent name (s.dentries.get parent).d_sb
    some (dget_dlock { s with dentries := s.dentries.alloc d } parent, some s.dentries.next)
  else if mem.holds name then none -- the NUL goes behind the block
  else if stray then some (dget_dlock s parent, none) else none

def __d_drop (s : State) (dentry : Nat) : Option State :=
  (s.dentries.get dentry).d_parent.map fun d_parent =>
    { dput_dlock s d_parent with freed := dentry :: s.freed }

/-- `inode_put(&dentry->d_inode)` counts down the memory behind the dentry. -/
def d_delete (s : State) (dentry : Nat) : Option State := if stray then __d_drop s dentry else none

/-- The lock is that of the parent's inode. -/
def d_add (s : State) (dentry inode : Nat) : Option State := do
  let d_parent ← (s.dentries.get dentry).d_parent
  let _ ← (s.dentries.get d_parent).d_inode
  let dentries := s.dentries.modify dentry fun d => { d with d_inode := some inode, d_sb := (s.inodes.get inode).i_sb }
  some { s with dentries := dentries.modify d_parent fun d => { d with d_hash := dentry :: d.d_hash } }

/-- `hlist_del`: the dentry goes from the list it is in. -/
def __d_put (s : State) (dentry : Nat) : State :=
  { s with dentries := { s.dentries with
      get := fun x => { s.dentries.get x with d_hash := (s.dentries.get x).d_hash.erase dentry } } }

def simple_unlink (s : State) (dentry : Nat) : Option State := d_delete stray (__d_put s dentry) dentry

def d_lookup_dentry (s : State) (parent : Nat) (name : Name) : Option Nat :=
  (s.dentries.get parent).d_hash.find? fun d => (s.dentries.get d).d_name = name

/-! ## The VFS, `fs/vfs.c` -/

/-- What a call of `find_dentry` meets: memory for the dentry, and the inode that
the file system's `lookup` finds, if it finds one and can make it. -/
structure Answer where
  mem : Memory
  lookup : Option inode

/-- What a call of `create_dentry` meets: the same for its `find_dentry`, memory
for the dentry, and the inode that `create` or `mkdir` makes if it succeeds. -/
structure Creation where
  find : Answer
  mem : Memory
  made : Option inode

/-- A file system that finds or makes a file makes its inode and calls `d_add`. -/
def bind_inode (s : State) (dentry : Nat) (i : inode) : Option State :=
  d_add { s with inodes := s.inodes.alloc i } dentry s.inodes.next

def find_dentry (ans : Answer) (s : State) (dir : Nat) (dentry_name : Name) : Option (State × Except Int Nat) :=
  match d_lookup_dentry s dir dentry_name with
  | some son_dentry => some (s, .ok son_dentry)
  | none => do
    let (s, son_dentry) ← d_alloc stray ans.mem s dir dentry_name
    match son_dentry with
    | none => some (s, .error (-ENOMEM))
    | some son_dentry =>
      let _ ← (s.dentries.get dir).d_inode
      match ans.lookup with
      | none => some (← __d_drop s son_dentry, .error (-ENOENT))
      | some i => some (← bind_inode s son_dentry i, .ok son_dentry)

/-- Behind the second `d_alloc`, whose result is only compared with `NULL`. -/
def create_in (made : Option inode) (s : State) (dir next_dentry i_mode : Nat) : Option (State × Except Int Nat) := do
  let d_inode ← (s.dentries.get dir).d_inode
  if (s.inodes.get d_inode).create = false then some (← __d_drop s next_dentry, .error (-EROFS))
  else
    let file := i_mode &&& S_IFMT = S_IFREG ∨ i_mode &&& S_IFMT = S_IFDIR
    match if file then made else none with
    | none => some (← __d_drop s next_dentry, .error (-ENOMEM))
    | some i => some (← bind_inode s next_dentry i, .ok next_dentry)

def create_dentry (env : Creation) (s : State) (dir : Nat) (name : Name) (i_mode : Nat) :
    Option (State × Except Int Nat) := do
  let (s, found) ← find_dentry stray env.find s dir name
  match found with
  | .ok _ => some (s, .error (-EEXIST))
  | .error _ =>
    let (s, next_dentry) ← d_alloc stray env.mem s dir name
    -- An error pointer is used like a dentry.
    create_in env.made s dir (← next_dentry) i_mode

/-- The loop of `select_file` from the `i`-th component on, `k` of them. -/
def select_from (ans : Nat → Answer) (path : Path) : State → Nat → Nat → Nat → Option (State × Except Int Nat)
  | s, esarch_dentry, _, 0 => some (s, .ok esarch_dentry)
  | s, esarch_dentry, i, k + 1 => do
    let name ← file_name path i
    let (s, found) ← find_dentry stray (ans i) s esarch_dentry name
    match found with
    | .error e => some (s, .error e)
    | .ok d => select_from ans path s d (i + 1) k

def select_file (ans : Nat → Answer) (s : State) (path : Path) (offset : Nat) : Option (State × Except Int Nat) :=
  if path = ['/'] then some (s, .ok s.root_dentry)
  else select_from stray ans path s s.root_dentry 1 (get_dir_number path - offset)

def IsDir (s : State) (d : Nat) : Prop :=
  ∃ i, (s.dentries.get d).d_inode = some i ∧ (s.inodes.get i).i_mode &&& S_IFMT = S_IFDIR

def create_new_dentry (ans : Nat → Answer) (env : Creation) (s : State) (path : Path) (i_mode : Nat) :
    Option (State × Except Int Nat) := do
  let (s, p_dentry) ← select_file stray ans s path 1
  match p_dentry with
  | .error _ => some (s, .error (-ENOENT))
  | .ok p_dentry =>
    let d_inode ← (s.dentries.get p_dentry).d_inode
    if (s.inodes.get d_inode).i_mode &&& S_IFMT ≠ S_IFDIR then some (s, .error (-ENOTDIR))
    else
      let name ← file_name path (get_dir_number path)
      create_dentry stray env s p_dentry name i_mode

def mkdir (ans : Nat → Answer) (env : Creation) (s : State) (path : Path) (mode : Nat) :
    Option (State × Except Int Nat) :=
  let mode := if mode = 0 then 0o755 else mode
  create_new_dentry stray ans env s path (S_IFDIR ||| (mode &&& 0o777))

/-- `dentry->d_sb->s_root == dentry` -/
def is_s_root (s : State) (dentry : Nat) : Option Bool :=
  match (s.dentries.get dentry).d_sb with
  | none => if stray then some false else none
  | some sb => some (s.s_root sb = dentry)

/-- The branch for directories, `(i_mode & S_IFDIR) == S_IFCHR`, is never taken.
What `unlink` of the file system says is not looked at. -/
def __remove_dentry (s : State) (dentry : Nat) : Option State := do
  if ← is_s_root stray s dentry then some s
  else
    let d_inode ← (s.dentries.get dentry).d_inode
    let i_mode := (s.inodes.get d_inode).i_mode
    if i_mode &&& S_IFMT = S_IFCHR ∨ i_mode &&& S_IFMT = S_IFBLK then some s
    else simple_unlink stray s dentry

def remove_dentry (ans : Nat → Answer) (s : State) (path : Path) : Option (State × Int) := do
  let (s, dentry) ← select_file stray ans s path 0
  match dentry with
  | .error _ => some (s, -1)
  | .ok dentry => some (← __remove_dentry stray s dentry, 0)

/-! ## Runs -/

inductive Call where
  | select_file (ans : Nat → Answer) (path : Path) (offset : Nat)
  | create_new_dentry (ans : Nat → Answer) (env : Creation) (path : Path) (i_mode : Nat)
  | mkdir (ans : Nat → Answer) (env : Creation) (path : Path) (mode : Nat)
  | remove_dentry (ans : Nat → Answer) (path : Path)

def call (s : State) : Call → Option State
  | .select_file ans path offset => (select_file stray ans s path offset).map (·.1)
  | .create_new_dentry ans env path i_mode => (create_new_dentry stray ans env s path i_mode).map (·.1)
  | .mkdir ans env path mode => (mkdir stray ans env s path mode).map (·.1)
  | .remove_dentry ans path => (remove_dentry stray ans s path).map (·.1)

/-- After `mount_root_fs` there is the root. -/
structure Init (s : State) : Prop where
  live : ∀ d, Live s d ↔ d = s.root_dentry
  freed : ∀ d ∈ s.freed, d < s.dentries.next
  hash : (s.dentries.get s.root_dentry).d_hash = []
  parent : (s.dentries.get s.root_dentry).d_parent = none
  inode : ∃ i, (s.dentries.get s.root_dentry).d_inode = some i
  sb : ∃ sb, (s.dentries.get s.root_dentry).d_sb = some sb ∧ s.s_root sb = s.root_dentry
  count : (s.dentries.get s.root_dentry).count = 0

/-- The live dentries with that parent. -/
def children (s : State) (p : Nat) : List Nat :=
  (List.range s.dentries.next).filter fun d => Live s d ∧ (s.dentries.get d).d_parent = some p

/-- Each live dentry but the root is once in one list, that of its live parent.
Lists hold live dentries with names of their own, and the counts are right. -/
structure Tree (s : State) : Prop where
  placed : ∀ d, Live s d → d ≠ s.root_dentry → ∃ p, (s.dentries.get d).d_parent = some p ∧ Live s p ∧
    (s.dentries.get p).d_hash.count d = 1 ∧ ∀ q, Live s q → d ∈ (s.dentries.get q).d_hash → q = p
  listed : ∀ p, Live s p → ∀ d ∈ (s.dentries.get p).d_hash, Live s d
  names : ∀ p, Live s p → ((s.dentries.get p).d_hash.map fun d => (s.dentries.get d).d_name).Nodup
  counted : ∀ p, Live s p → (s.dentries.get p).count = (children s p).length

end McLinOS.DentryTree
