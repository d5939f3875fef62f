import Mathlib.Data.Finset.Basic
import McLinOS.Fs.Model
/-!
# Creating a file, with the memory that fails

`create_new_dentry` of `fs/vfs.c` down to the allocations of `fs/dcache.c` and
`fs/initramfs/initramfs.c`. `none` is a call that goes on with an error pointer, with
a name that `get_dir_name` has not written, or behind the block of a name.
-/
open CLib

set_option linter.style.nameCheck false

namespace McLinOS.Creation

open Fs (Name Path S_IFMT S_IFREG S_IFDIR ENOENT ENOMEM EEXIST ENOTDIR initramfs_inode initramfs_dentry file_name
  get_dir_number)

/-- What is allocated: the objects, and the names of dentries and entries. -/
inductive Block where
  | dentry (d : Nat)
  | d_name (d : Nat)
  | inode (i : Nat)
  | initram_inode (n : Nat)
  | initram_dentry (e : Nat)
  | initram_name (e : Nat)
  deriving DecidableEq, Repr

structure inode where
  i_mode : Nat
  i_private : Nat
  deriving Inhabited

/-- `count` is `d_lockref.count`. -/
structure dentry where
  d_hash : List Nat
  d_parent : Option Nat
  d_name : Name
  d_inode : Option Nat
  d_fsdata : Option Nat
  count : Int
  deriving Inhabited

structure State where
  dentries : Pool dentry
  inodes : Pool inode
  initramfs_inodes : Pool initramfs_inode
  initramfs_dentries : Pool initramfs_dentry
  inode_list_head : List Nat
  root_dentry : Nat
  heap : Finset Block

/-- Which of the allocations of one step succeed, and whether a NUL behind the block
of `d_name` does harm. -/
structure Memory where
  dentry : Bool
  d_name : Bool
  nul_harms : Bool
  inode : Bool
  initram_inode : Bool
  initram_dentry : Bool
  initram_name : Bool
  deriving DecidableEq, Repr

def kfree (s : State) (b : Block) : State := { s with heap := s.heap.erase b }

/-! ## `fs/dcache.c` -/

def DNAME_INLINE_LEN : Nat := 44

/-- Of a dentry without a name. `kmalloc` of 0 bytes gives `NULL`. It is asked for
`strlen(name)` bytes, in whole words of 8, and `strcpy` writes one more. -/
def dentry_rename (mem : Memory) (s : State) (d : Nat) (name : Name) : Option (State × Int) :=
  if mem.d_name = false ∨ name = [] then some (s, -ENOMEM)
  else if name.length % 8 = 0 ∧ mem.nul_harms = true then none
  else
    let s := { s with heap := insert (.d_name d) s.heap }
    -- A short name is kept in the dentry.
    let s := if name.length + 1 < DNAME_INLINE_LEN then kfree s (.d_name d) else s
    some ({ s with dentries := s.dentries.modify d ({ · with d_name := name }) }, 0)

/-- No dentry is `-ENOMEM`. -/
def __d_alloc (mem : Memory) (s : State) (name : Name) : Option (State × Option Nat) :=
  if mem.dentry = false then some (s, none)
  else
    let d := s.dentries.next
    let s := { s with dentries := s.dentries.alloc default, heap := insert (.dentry d) s.heap }
    match dentry_rename mem s d name with
    | none => none
    | some (s, err) => if err < 0 then some (kfree s (.dentry d), none) else some (s, some d)

def dget_dlock (s : State) (dentry : Nat) : State :=
  { s with dentries := s.dentries.modify dentry fun d => { d with count := d.count + 1 } }

def dput_dlock (s : State) (dentry : Nat) : State :=
  { s with dentries := s.dentries.modify dentry fun d => { d with count := d.count - 1 } }

/-- Only `NULL` is tested for: `d_parent` is written through an error pointer too. -/
def d_alloc (mem : Memory) (s : State) (parent : Nat) (name : Name) : Option (State × Nat) :=
  match __d_alloc mem s name with
  | none => none
  | some (_, none) => none
  | some (s, some d) =>
    let s := dget_dlock s parent
    some ({ s with dentries := s.dentries.modify d ({ · with d_parent := some parent }) }, d)

def __d_drop (s : State) (dentry : Nat) : Option State :=
  (s.dentries.get dentry).d_parent.map fun d_parent =>
    let s := dput_dlock s d_parent
    kfree (if (s.dentries.get dentry).d_name.length + 1 < DNAME_INLINE_LEN then s else kfree s (.d_name dentry))
      (.dentry dentry)

/-- The lock is that of the parent's inode. -/
def d_add (s : State) (dentry inode : Nat) : Option State := do
  let d_parent ← (s.dentries.get dentry).d_parent
  let _ ← (s.dentries.get d_parent).d_inode
  let dentries := s.dentries.modify dentry ({ · with d_inode := some inode })
  some { s with dentries := dentries.modify d_parent fun d => { d with d_hash := dentry :: d.d_hash } }

def d_lookup_dentry (s : State) (parent : Nat) (name : Name) : Option Nat :=
  (s.dentries.get parent).d_hash.find? fun d => (s.dentries.get d).d_name = name

/-! ## `fs/initramfs/initramfs.c` -/

def initramfs_create_empty_inode (mem : Memory) (s : State) : State × Option Nat :=
  if mem.initram_inode then
    let n := s.initramfs_inodes.next
    ({ s with
        initramfs_inodes := s.initramfs_inodes.alloc
          { i_mode := S_IFREG ||| 0o755, dentry_count := 0, dentry_list_head := [] }
        inode_list_head := n :: s.inode_list_head
        heap := insert (.initram_inode n) s.heap }, some n)
  else (s, none)

def initramfs_inode_put (s : State) (node : Nat) : State := kfree s (.initram_inode node)

def initramfs_create_dentry (mem : Memory) (s : State) (parent_dentry_inode target_inode : Nat) (name : Name) :
    State × Option Nat :=
  if mem.initram_dentry = false then (s, none)
  else
    let e := s.initramfs_dentries.next
    let s := { s with
      initramfs_dentries := s.initramfs_dentries.alloc { name, target_inode }
      heap := insert (.initram_dentry e) s.heap }
    if mem.initram_name = false then (kfree s (.initram_dentry e), none)
    else
      let inodes := s.initramfs_inodes.modify target_inode fun i => { i with dentry_count := i.dentry_count + 1 }
      ({ s with
          heap := insert (.initram_name e) s.heap
          initramfs_inodes := inodes.modify parent_dentry_inode fun i =>
            { i with dentry_list_head := e :: i.dentry_list_head } }, some e)

def initramfs_create_inode (mem : Memory) (s : State) (parent_dentry_inode : Nat) (name : Name) : State × Option Nat :=
  match initramfs_create_empty_inode mem s with
  | (s, none) => (s, none)
  | (s, some new_inode) =>
    match initramfs_create_dentry mem s parent_dentry_inode new_inode name with
    | (s, none) =>
      (initramfs_inode_put { s with inode_list_head := s.inode_list_head.erase new_inode } new_inode, none)
    | (s, some new_dentry) => (s, some new_dentry)

def set_target_mode (s : State) (e mode : Nat) : State :=
  { s with initramfs_inodes :=
      s.initramfs_inodes.modify (s.initramfs_dentries.get e).target_inode ({ · with i_mode := mode }) }

def initramfs_create_file (mem : Memory) (s : State) (parent_dentry_inode : Nat) (name : Name) : State × Option Nat :=
  initramfs_create_inode mem s parent_dentry_inode name

def initramfs_create_dir (mem : Memory) (s : State) (parent_dentry_inode : Nat) (name : Name) : State × Option Nat :=
  match initramfs_create_inode mem s parent_dentry_inode name with
  | (s, none) => (s, none)
  | (s, some dentry) => (set_target_mode s dentry (S_IFDIR ||| 0o755), some dentry)

def initramfs_lookup (s : State) (dentry_inode : Nat) (name : Name) : Option Nat :=
  let i := s.initramfs_inodes.get dentry_inode
  if i.i_mode &&& S_IFMT ≠ S_IFDIR then none
  else i.dentry_list_head.find? fun pos => (s.initramfs_dentries.get pos).name = name

def initramfs_get_inode (mem : Memory) (s : State) (initram_node : Nat) : State × Option Nat :=
  if mem.inode then
    let i := s.inodes.next
    ({ s with
        inodes := s.inodes.alloc { i_mode := (s.initramfs_inodes.get initram_node).i_mode, i_private := initram_node }
        heap := insert (.inode i) s.heap }, some i)
  else (s, none)

def initramfs_get_dentry (s : State) (vdentry dentry : Nat) : State :=
  { s with dentries := s.dentries.modify vdentry ({ · with d_fsdata := some dentry }) }

/-- The dentry gets a new VFS inode, if there is memory for it. -/
def bind_dentry (mem : Memory) (s : State) (dentry file node : Nat) : Option (State × Bool) :=
  match initramfs_get_inode mem (initramfs_get_dentry s dentry file) node with
  | (s, none) => some (s, false)
  | (s, some i) => (d_add s dentry i).map fun s => (s, true)

def initramfs_vfs_lookup (mem : Memory) (s : State) (dir dentry : Nat) : Option (State × Option Nat) :=
  match initramfs_lookup s (s.inodes.get dir).i_private (s.dentries.get dentry).d_name with
  | none => some (s, none)
  | some pos =>
    (bind_dentry mem s dentry pos (s.initramfs_dentries.get pos).target_inode).map fun
      | (s, true) => (s, some dentry)
      | (s, false) => (s, none)

/-- The rest of `initramfs_create` and `initramfs_mkdir`, with the file that was
found or made. -/
def finish (mem : Memory) (mode dentry : Nat) (node : State → Nat → Nat) : State × Option Nat → Option (State × Int)
  | (s, none) => some (s, -1)
  | (s, some file) =>
    let s := set_target_mode s file mode
    (bind_dentry mem s dentry file (node s file)).map fun
      | (s, true) => (s, 0)
      | (s, false) => (s, -1)

def initramfs_create (mem : Memory) (s : State) (dir dentry mode : Nat) : Option (State × Int) :=
  let dinode := (s.inodes.get dir).i_private
  let name := (s.dentries.get dentry).d_name
  finish mem mode dentry (fun s file => (s.initramfs_dentries.get file).target_inode) <|
    match initramfs_lookup s dinode name with
    | some file => (s, some file)
    | none => initramfs_create_file mem s dinode name

/-- The mode is that of a file, and the VFS inode is made for the parent. -/
def initramfs_mkdir (mem : Memory) (s : State) (dir dentry mode : Nat) : Option (State × Int) :=
  let dinode := (s.inodes.get dir).i_private
  let name := (s.dentries.get dentry).d_name
  finish mem (S_IFREG ||| (mode &&& 0o777)) dentry (fun _ _ => dinode) <|
    match initramfs_lookup s dinode name with
    | some file => (s, some file)
    | none => initramfs_create_dir mem s dinode name

/-! ## `fs/vfs.c` -/

def find_dentry (mem : Memory) (s : State) (dir : Nat) (dentry_name : Name) : Option (State × Except Int Nat) :=
  match d_lookup_dentry s dir dentry_name with
  | some son_dentry => some (s, .ok son_dentry)
  | none => do
    let (s, son_dentry) ← d_alloc mem s dir dentry_name
    let d_inode ← (s.dentries.get dir).d_inode
    match ← initramfs_vfs_lookup mem s d_inode son_dentry with
    | (s, none) => some (← __d_drop s son_dentry, .error (-ENOENT))
    | (s, some d) => some (s, .ok d)

/-- Behind the second `d_alloc`. -/
def create_in (mem : Memory) (s : State) (dir next_dentry i_mode : Nat) : Option (State × Except Int Nat) := do
  let d_inode ← (s.dentries.get dir).d_inode
  let (s, err) ←
    if i_mode &&& S_IFMT = S_IFREG then initramfs_create mem s d_inode next_dentry i_mode
    else if i_mode &&& S_IFMT = S_IFDIR then initramfs_mkdir mem s d_inode next_dentry i_mode
    else some (s, -1)
  if err < 0 then some (← __d_drop s next_dentry, .error (-ENOMEM)) else some (s, .ok next_dentry)

/-- Memory for `find_dentry`, and for what comes after it. -/
def create_dentry (find create : Memory) (s : State) (dir : Nat) (name : Name) (i_mode : Nat) :
    Option (State × Except Int Nat) := do
  match ← find_dentry find s dir name with
  | (s, .ok _) => some (s, .error (-EEXIST))
  | (s, .error _) =>
    let (s, next_dentry) ← d_alloc create s dir name
    create_in create s dir next_dentry i_mode

section Create
-- Memory for the lookup of the `i`-th component, for that of the new name, and
-- behind the last index for the new file.
variable (mem : Nat → Memory)

/-- The loop of `select_file` from the `i`-th component on, `k` of them. -/
def select_from (path : Path) : State → Nat → Nat → Nat → Option (State × Except Int Nat)
  | s, esarch_dentry, _, 0 => some (s, .ok esarch_dentry)
  | s, esarch_dentry, i, k + 1 => do
    let name ← file_name path i
    match ← find_dentry (mem i) s esarch_dentry name with
    | (s, .error e) => some (s, .error e)
    | (s, .ok d) => select_from path s d (i + 1) k

def select_file (s : State) (path : Path) (offset : Nat) : Option (State × Except Int Nat) :=
  if path = ['/'] then some (s, .ok s.root_dentry)
  else select_from mem path s s.root_dentry 1 (get_dir_number path - offset)

def IsDir (s : State) (d : Nat) : Prop :=
  ∃ i, (s.dentries.get d).d_inode = some i ∧ (s.inodes.get i).i_mode &&& S_IFMT = S_IFDIR

def create_new_dentry (s : State) (path : Path) (i_mode : Nat) : Option (State × Except Int Nat) := do
  match ← select_file mem s path 1 with
  | (s, .error _) => some (s, .error (-ENOENT))
  | (s, .ok p_dentry) =>
    let d_inode ← (s.dentries.get p_dentry).d_inode
    if (s.inodes.get d_inode).i_mode &&& S_IFMT ≠ S_IFDIR then some (s, .error (-ENOTDIR))
    else
      let number := get_dir_number path
      let name ← file_name path number
      create_dentry (mem number) (mem (number + 1)) s p_dentry name i_mode

end Create

/-! ## What is asked of it -/

def Live (s : State) (d : Nat) : Prop := .dentry d ∈ s.heap

/-- The inode of initramfs behind a dentry. -/
def node_of (s : State) (d : Nat) : Option Nat := (s.dentries.get d).d_inode.map fun i => (s.inodes.get i).i_private

/-- The root and what is in the lists. -/
def Cached (s : State) (d : Nat) : Prop := d = s.root_dentry ∨ ∃ p, Live s p ∧ d ∈ (s.dentries.get p).d_hash

/-- What is allocated has been numbered, every cached dentry has an inode, and the
lists lead to what is allocated. -/
structure Tree (s : State) : Prop where
  fresh_dentry : ∀ d, .dentry d ∈ s.heap ∨ .d_name d ∈ s.heap → d < s.dentries.next
  fresh_inode : ∀ i, .inode i ∈ s.heap → i < s.inodes.next
  fresh_node : ∀ n, .initram_inode n ∈ s.heap → n < s.initramfs_inodes.next
  fresh_entry : ∀ e, .initram_dentry e ∈ s.heap ∨ .initram_name e ∈ s.heap → e < s.initramfs_dentries.next
  root : Live s s.root_dentry
  child : ∀ d, Live s d → ∀ c ∈ (s.dentries.get d).d_hash, Live s c
  bound : ∀ d, Cached s d → ∃ i, (s.dentries.get d).d_inode = some i ∧ .inode i ∈ s.heap ∧
    .initram_inode (s.inodes.get i).i_private ∈ s.heap
  entry : ∀ n, .initram_inode n ∈ s.heap → ∀ e ∈ (s.initramfs_inodes.get n).dentry_list_head,
    .initram_dentry e ∈ s.heap ∧ .initram_inode (s.initramfs_dentries.get e).target_inode ∈ s.heap
  listed : ∀ n ∈ s.inode_list_head, .initram_inode n ∈ s.heap

/-- No entry, no reference and no memory more or less. -/
structure Undone (s s' : State) : Prop where
  heap : s'.heap = s.heap
  cached : ∀ d, Live s d → (s'.dentries.get d).d_hash = (s.dentries.get d).d_hash
  count : ∀ d, Live s d → (s'.dentries.get d).count = (s.dentries.get d).count
  directory : ∀ n, .initram_inode n ∈ s.heap →
    (s'.initramfs_inodes.get n).dentry_list_head = (s.initramfs_inodes.get n).dentry_list_head
  dentry_count : ∀ n, .initram_inode n ∈ s.heap →
    (s'.initramfs_inodes.get n).dentry_count = (s.initramfs_inodes.get n).dentry_count
  inode_list : s'.inode_list_head = s.inode_list_head

/-- The new dentry `d` is the one entry more in the cache, and the directory of its
parent has one more. -/
structure Added (s s' : State) (d : Nat) : Prop where
  new : ¬Live s d ∧ Live s' d
  cached : ∃ p, Live s p ∧ (s'.dentries.get p).d_hash = d :: (s.dentries.get p).d_hash ∧
    (∀ q, Live s q → q ≠ p → (s'.dentries.get q).d_hash = (s.dentries.get q).d_hash) ∧
    ∃ n e, node_of s p = some n ∧ .initram_dentry e ∉ s.heap ∧
      (s'.initramfs_inodes.get n).dentry_list_head = e :: (s.initramfs_inodes.get n).dentry_list_head ∧
      ∀ m, .initram_inode m ∈ s.heap → m ≠ n →
        (s'.initramfs_inodes.get m).dentry_list_head = (s.initramfs_inodes.get m).dentry_list_head

def Done (s s' : State) : Except Int Nat → Prop
  | .error _ => Undone s s'
  | .ok d => Added s s' d

/-- The call returns, and has done everything or nothing. -/
def Atomic (mem : Nat → Memory) (s : State) (path : Path) (i_mode : Nat) : Prop :=
  ∃ s' r, create_new_dentry mem s path i_mode = some (s', r) ∧ Done s s' r

/-- `__d_alloc` gets its memory, and the name fits its block. -/
def Allocates (mem : Memory) (name : Name) : Prop :=
  mem.dentry = true ∧ mem.d_name = true ∧ name ≠ [] ∧ ¬(name.length % 8 = 0 ∧ mem.nul_harms = true)

/-- There is an entry of that name in the directory. -/
def Exists (s : State) (dir : Nat) (name : Name) : Prop := ∃ n ∈ node_of s dir, (initramfs_lookup s n name).isSome

/-- A lookup that leaves everything as it was. -/
def Misses (mem : Memory) (s : State) (dir : Nat) (name : Name) : Prop :=
  Allocates mem name ∧ (Exists s dir name → mem.inode = false)

/-- All that a new file of initramfs needs. -/
def Makes (mem : Memory) : Prop := mem.initram_inode = true ∧ mem.initram_dentry = true ∧ mem.initram_name = true

/-- A new file gets its VFS inode too, or it is not made, and one that is there gets
none. -/
def FileFits (mem : Memory) (s : State) (dir : Nat) (name : Name) : Prop :=
  (Exists s dir name → mem.inode = false) ∧ (¬Exists s dir name → Makes mem → mem.inode = true)

/-- In the directory: the name is cached, or nothing is found. -/
def CreateFits (find create : Memory) (s : State) (dir : Nat) (name : Name) (i_mode : Nat) : Prop :=
  (d_lookup_dentry s dir name).isSome ∨
    (Misses find s dir name ∧ Allocates create name ∧
      (i_mode &&& S_IFMT = S_IFREG ∨ i_mode &&& S_IFMT = S_IFDIR → FileFits create s dir name))

/-- The directories on the way are cached, or the first one that is not is not found. -/
def PathFits (mem : Nat → Memory) (path : Path) (s : State) (k : Nat → Prop) : Nat → Nat → Nat → Prop
  | d, _, 0 => k d
  | d, i, n + 1 => ∃ name, file_name path i = some name ∧
    match d_lookup_dentry s d name with
    | some d => PathFits mem path s k d (i + 1) n
    | none => Misses (mem i) s d name

def AtomicFits (mem : Nat → Memory) (s : State) (path : Path) (i_mode : Nat) : Prop :=
  PathFits mem path s (fun p => IsDir s p → ∃ name, file_name path (get_dir_number path) = some name ∧
      CreateFits (mem (get_dir_number path)) (mem (get_dir_number path + 1)) s p name i_mode)
    s.root_dentry 1 (get_dir_number path - 1)

end McLinOS.Creation
