import Mathlib.Data.Nat.Bitwise
import McLinOS.CLib.Pool
/-!
# The VFS over initramfs

The objects of `fs/vfs.c`, `fs/dcache.c` and `fs/initramfs/initramfs.c` live in
pools, a pointer is a number. Allocation succeeds. A function gives `none` when
the code goes on with a pointer that does not point to an object, or writes
behind a block where that does harm.
-/
open CLib

namespace McLinOS.Fs

abbrev Name := List Char
abbrev Path := List Char

/-! ## Modes and errors -/

def S_IFMT : Nat := 0o170000
def S_IFREG : Nat := 0o100000
def S_IFBLK : Nat := 0o060000
def S_IFDIR : Nat := 0o040000
def S_IFCHR : Nat := 0o020000

def O_CREAT : Nat := 0o100

def ENOENT : Int := 2
def ENOMEM : Int := 12
def EEXIST : Int := 17
def ENOTDIR : Int := 20

/-! ## Objects -/

structure initramfs_inode where
  i_mode : Nat
  dentry_count : Int
  dentry_list_head : List Nat
  deriving Inhabited

structure initramfs_dentry where
  name : Name
  target_inode : Nat
  deriving Inhabited

/-- `i_private` is the inode of initramfs, `i_sb` a superblock or `NULL`. -/
structure inode where
  i_mode : Nat
  i_sb : Option Nat
  i_private : Nat
  deriving Inhabited

/-- `d_hash` lists the cached children. `d_fsdata` is the dentry of initramfs. -/
structure dentry where
  d_hash : List Nat
  d_parent : Option Nat
  d_name : Name
  d_inode : Option Nat
  d_sb : Option Nat
  d_fsdata : Option Nat
  deriving Inhabited

structure super_block where
  s_root : Nat
  deriving Inhabited

/-- `nul_harms` is no memory of the code: it tells for which names of 8, 16, …
letters it does harm that `dentry_rename` writes a NUL behind the block it copies
the name to. -/
structure FS where
  initramfs_inodes : Pool initramfs_inode
  initramfs_dentries : Pool initramfs_dentry
  inodes : Pool inode
  dentries : Pool dentry
  supers : Pool super_block
  root_dentry : Nat
  nul_harms : Name → Bool

/-! ## Paths, `fs/fs.h` -/

/-- The text behind the `number`-th slash, up to the next one. `none` is -1,
with `dir_name` left as it was. -/
def get_dir_name : Path → Nat → Nat → Option Name
  | [], _, _ => none
  | c :: path, j, number =>
    let j := if c = '/' then j + 1 else j
    if j = number then some (path.takeWhile (· ≠ '/')) else get_dir_name path j number

def get_dir_number : Path → Nat
  | [] => 0
  | c :: path => (if c = '/' ∧ path ≠ [] then 1 else 0) + get_dir_number path

/-- `get_dir_name` into the callers' `char file_name[128]`. -/
def file_name (path : Path) (number : Nat) : Option Name :=
  match get_dir_name path 0 number with
  | none => none
  | some name => if name.length < 128 then some name else none

/-! ## Dentries, `fs/dcache.c` -/

/-- What `d_alloc` fills in of a new dentry. -/
def new_dentry (parent : Nat) (name : Name) (d_sb : Option Nat) : dentry :=
  { d_hash := [], d_parent := some parent, d_name := name, d_inode := none, d_sb, d_fsdata := none }

/-- Whether a new dentry can be given the name. `dentry_rename` asks `kmalloc`
for `strlen(name)` bytes. An empty name gets `NULL`, and in the multiple of 8
bytes that the block has there is no room for the NUL of a name that fills them. -/
def FS.fits (s : FS) (name : Name) : Bool :=
  name ≠ [] && (name.length % 8 ≠ 0 || !s.nul_harms name)

/-- For an empty name `__d_alloc` returns `-ENOMEM`, and `d_alloc` only tests for
`NULL`. -/
def d_alloc (s : FS) (parent : Nat) (name : Name) : Option (FS × Nat) :=
  if s.fits name then
    let d := new_dentry parent name (s.dentries.get parent).d_sb
    some ({ s with dentries := s.dentries.alloc d }, s.dentries.next)
  else none

def d_add (s : FS) (dentry inode : Nat) : Option FS :=
  match (s.dentries.get dentry).d_parent with
  | none => none
  | some d_parent =>
    let dentries := s.dentries.modify dentry fun d =>
      { d with d_inode := some inode, d_sb := (s.inodes.get inode).i_sb }
    some { s with dentries := dentries.modify d_parent fun d => { d with d_hash := dentry :: d.d_hash } }

def d_lookup_dentry (s : FS) (parent : Nat) (name : Name) : Option Nat :=
  (s.dentries.get parent).d_hash.find? fun d => (s.dentries.get d).d_name = name

/-! ## initramfs -/

def initramfs_create_empty_inode (s : FS) : FS × Nat :=
  let initram_inode : initramfs_inode := { i_mode := S_IFREG ||| 0o755, dentry_count := 0, dentry_list_head := [] }
  ({ s with initramfs_inodes := s.initramfs_inodes.alloc initram_inode }, s.initramfs_inodes.next)

def initramfs_create_dentry (s : FS) (parent_dentry_inode target_inode : Nat) (name : Name) : FS × Nat :=
  let new_dentry := s.initramfs_dentries.next
  let inodes := s.initramfs_inodes.modify target_inode fun i => { i with dentry_count := i.dentry_count + 1 }
  ({ s with
      initramfs_dentries := s.initramfs_dentries.alloc { name, target_inode }
      initramfs_inodes := inodes.modify parent_dentry_inode fun i =>
        { i with dentry_list_head := new_dentry :: i.dentry_list_head } }, new_dentry)

def initramfs_create_inode (s : FS) (parent_dentry_inode : Nat) (name : Name) : FS × Nat :=
  let r := initramfs_create_empty_inode s
  initramfs_create_dentry r.1 parent_dentry_inode r.2 name

def initramfs_create_file (s : FS) (parent_dentry_inode : Nat) (name : Name) : FS × Nat :=
  initramfs_create_inode s parent_dentry_inode name

def set_target_mode (s : FS) (dentry mode : Nat) : FS :=
  let target_inode := (s.initramfs_dentries.get dentry).target_inode
  { s with initramfs_inodes := s.initramfs_inodes.modify target_inode fun i => { i with i_mode := mode } }

def initramfs_create_dir (s : FS) (parent_dentry_inode : Nat) (name : Name) : FS × Nat :=
  let r := initramfs_create_inode s parent_dentry_inode name
  (set_target_mode r.1 r.2 (S_IFDIR ||| 0o755), r.2)

def dentry_put (s : FS) (dentry : Nat) : FS :=
  let target_inode := (s.initramfs_dentries.get dentry).target_inode
  { s with initramfs_inodes := s.initramfs_inodes.modify target_inode fun i =>
      { i with dentry_count := i.dentry_count - 1 } }

/-- A directory that is not empty stays. -/
def initramfs_delete_dentry (s : FS) (parent_dentry_inode delete_dentry : Nat) : FS :=
  let target := s.initramfs_inodes.get (s.initramfs_dentries.get delete_dentry).target_inode
  if target.i_mode &&& S_IFMT = S_IFDIR ∧ target.dentry_list_head ≠ [] then s
  else
    let inodes := s.initramfs_inodes.modify parent_dentry_inode fun i =>
      { i with dentry_list_head := i.dentry_list_head.erase delete_dentry }
    dentry_put { s with initramfs_inodes := inodes } delete_dentry

def initramfs_lookup (s : FS) (dentry_inode : Nat) (name : Name) : Option Nat :=
  let i := s.initramfs_inodes.get dentry_inode
  if i.i_mode &&& S_IFMT ≠ S_IFDIR then none
  else i.dentry_list_head.find? fun pos => (s.initramfs_dentries.get pos).name = name

def initramfs_get_inode (s : FS) (initram_node : Nat) (sb : Option Nat) : FS × Nat :=
  let i : inode := { i_mode := (s.initramfs_inodes.get initram_node).i_mode, i_sb := sb, i_private := initram_node }
  ({ s with inodes := s.inodes.alloc i }, s.inodes.next)

def initramfs_get_dentry (s : FS) (vdentry dentry : Nat) : FS :=
  { s with dentries := s.dentries.modify vdentry fun d => { d with d_fsdata := some dentry } }

/-- Binds `dentry` to the file `file` of initramfs, with a new VFS inode for
the inode `node`. -/
def bind_dentry (s : FS) (dentry file node : Nat) (sb : Option Nat) : Option FS :=
  let r := initramfs_get_inode (initramfs_get_dentry s dentry file) node sb
  d_add r.1 dentry r.2

def initramfs_create (s : FS) (dir dentry mode : Nat) : Option FS :=
  let dinode := (s.inodes.get dir).i_private
  let name := (s.dentries.get dentry).d_name
  let r := match initramfs_lookup s dinode name with
    | some file => (s, file)
    | none => initramfs_create_file s dinode name
  let s := set_target_mode r.1 r.2 mode
  bind_dentry s dentry r.2 (s.initramfs_dentries.get r.2).target_inode (s.inodes.get dir).i_sb

def initramfs_vfs_lookup (s : FS) (dir dentry : Nat) : Option (FS × Option Nat) :=
  let dir_inode := (s.inodes.get dir).i_private
  match initramfs_lookup s dir_inode (s.dentries.get dentry).d_name with
  | none => some (s, none)
  | some pos =>
    (bind_dentry s dentry pos (s.initramfs_dentries.get pos).target_inode (s.inodes.get dir).i_sb).map fun s =>
      (s, some dentry)

def initramfs_unlink (s : FS) (dir dentry : Nat) : Option FS :=
  match (s.dentries.get dentry).d_fsdata with
  | none => none
  | some delete_dentry => some (initramfs_delete_dentry s (s.inodes.get dir).i_private delete_dentry)

/-- The new directory is given the mode of a regular file, and its VFS inode is
made for `dinode`, the directory it is created in. -/
def initramfs_mkdir (s : FS) (dir dentry mode : Nat) : Option FS :=
  let dinode := (s.inodes.get dir).i_private
  let name := (s.dentries.get dentry).d_name
  let r := match initramfs_lookup s dinode name with
    | some file => (s, file)
    | none => initramfs_create_dir s dinode name
  let s := set_target_mode r.1 r.2 (S_IFREG ||| (mode &&& 0o777))
  bind_dentry s dentry r.2 dinode (s.inodes.get dir).i_sb

/-! ## The VFS, `fs/vfs.c` -/

def find_dentry (s : FS) (dir : Nat) (dentry_name : Name) : Option (FS × Except Int Nat) :=
  match d_lookup_dentry s dir dentry_name with
  | some son_dentry => some (s, .ok son_dentry)
  | none => do
    let (s, son_dentry) ← d_alloc s dir dentry_name
    let d_inode ← (s.dentries.get dir).d_inode
    let (s, son_dentry_) ← initramfs_vfs_lookup s d_inode son_dentry
    match son_dentry_ with
    | none => some (s, .error (-ENOENT))
    | some son_dentry_ => some (s, .ok son_dentry_)

def create_dentry (s : FS) (dir : Nat) (name : Name) (i_mode : Nat) : Option (FS × Except Int Nat) := do
  let (s, found) ← find_dentry s dir name
  match found with
  | .ok _ => some (s, .error (-EEXIST))
  | .error _ =>
    let (s, next_dentry) ← d_alloc s dir name
    let d_inode ← (s.dentries.get dir).d_inode
    if i_mode &&& S_IFMT = S_IFREG then
      let s ← initramfs_create s d_inode next_dentry i_mode
      some (s, .ok next_dentry)
    else if i_mode &&& S_IFMT = S_IFDIR then
      let s ← initramfs_mkdir s d_inode next_dentry i_mode
      some (s, .ok next_dentry)
    else some (s, .error (-ENOMEM))

/-- The loop of `select_file` from the `i`-th component on, `k` of them. -/
def select_from (path : Path) : FS → Nat → Nat → Nat → Option (FS × Except Int Nat)
  | s, esarch_dentry, _, 0 => some (s, .ok esarch_dentry)
  | s, esarch_dentry, i, k + 1 => do
    let name ← file_name path i
    let (s, found) ← find_dentry s esarch_dentry name
    match found with
    | .error e => some (s, .error e)
    | .ok d => select_from path s d (i + 1) k

def select_file (s : FS) (path : Path) (offset : Nat) : Option (FS × Except Int Nat) :=
  if path = ['/'] then some (s, .ok s.root_dentry)
  else select_from path s s.root_dentry 1 (get_dir_number path - offset)

def create_new_dentry (s : FS) (path : Path) (i_mode : Nat) : Option (FS × Except Int Nat) := do
  let (s, p_dentry) ← select_file s path 1
  match p_dentry with
  | .error _ => some (s, .error (-ENOENT))
  | .ok p_dentry =>
    let d_inode ← (s.dentries.get p_dentry).d_inode
    if (s.inodes.get d_inode).i_mode &&& S_IFMT ≠ S_IFDIR then some (s, .error (-ENOTDIR))
    else
      -- For the path "/" there is no name, and `file_name` is used as it is.
      let name ← file_name path (get_dir_number path)
      create_dentry s p_dentry name i_mode

def mkdir (s : FS) (path : Path) (mode : Nat) : Option (FS × Except Int Nat) :=
  let mode := if mode = 0 then 0o755 else mode
  create_new_dentry s path (S_IFDIR ||| (mode &&& 0o777))

/-- The dentry that is opened. Opening it changes nothing but reference counts. -/
def filp_open (s : FS) (path : Path) (flags mode : Nat) : Option (FS × Except Int Nat) := do
  let (s, file_dentry) ← select_file s path 0
  match file_dentry with
  | .ok d => some (s, .ok d)
  | .error e =>
    if e = -ENOENT ∧ flags &&& O_CREAT ≠ 0 then create_new_dentry s path (S_IFREG ||| mode)
    else some (s, .error (-ENOENT))

section Remove
-- Whether a stray access does no harm: reading `s_root` through `NULL` gives no
-- dentry's address, and counting down the word behind a dentry hits nothing.
variable (stray : Bool)

/-- `d_delete` calls `inode_put(&dentry->d_inode)`: the reference count it
counts down is not in an inode but in the memory behind the dentry. -/
def d_delete (s : FS) : Option FS := if stray then some s else none

def simple_unlink (s : FS) (dentry : Nat) : Option FS :=
  match (s.dentries.get dentry).d_parent with
  | none => none
  | some d_parent => d_delete stray { s with
      dentries := s.dentries.modify d_parent fun d => { d with d_hash := d.d_hash.erase dentry } }

/-- `dentry->d_sb->s_root == dentry` -/
def is_s_root (s : FS) (dentry : Nat) : Option Bool :=
  match (s.dentries.get dentry).d_sb with
  | none => if stray then some false else none
  | some sb => some ((s.supers.get sb).s_root = dentry)

set_option linter.style.nameCheck false in
/-- The branch for directories, `(i_mode & S_IFDIR) == S_IFCHR`, is never taken. -/
def __remove_dentry (s : FS) (dentry : Nat) : Option FS := do
  if ← is_s_root stray s dentry then some s
  else
    let d_inode ← (s.dentries.get dentry).d_inode
    let i_mode := (s.inodes.get d_inode).i_mode
    if i_mode &&& S_IFMT = S_IFCHR ∨ i_mode &&& S_IFMT = S_IFBLK then some s
    else
      let d_parent ← (s.dentries.get dentry).d_parent
      let p_inode ← (s.dentries.get d_parent).d_inode
      let s ← initramfs_unlink s p_inode dentry
      simple_unlink stray s dentry

def remove_dentry (s : FS) (path : Path) : Option (FS × Int) := do
  let (s, dentry) ← select_file s path 0
  match dentry with
  | .error _ => some (s, -1)
  | .ok dentry =>
    let s ← __remove_dentry stray s dentry
    some (s, 0)

end Remove

/-! ## The root file system -/

/-- After `initramfs_mount` and `mount_root_fs`. The root's VFS inode is made
with `NULL` for its superblock. -/
def root_fs (nul_harms : Name → Bool) : FS where
  initramfs_inodes := Pool.empty.alloc { i_mode := S_IFDIR ||| 0o755, dentry_count := 1, dentry_list_head := [] }
  initramfs_dentries := Pool.empty.alloc { name := [], target_inode := 0 }
  inodes := Pool.empty.alloc { i_mode := S_IFDIR ||| 0o755, i_sb := none, i_private := 0 }
  dentries := Pool.empty.alloc { d_hash := [], d_parent := none, d_name := ['r', 'o', 'o', 't'], d_inode := some 0,
                                 d_sb := some 0, d_fsdata := some 0 }
  supers := Pool.empty.alloc { s_root := 0 }
  root_dentry := 0
  nul_harms

end McLinOS.Fs
