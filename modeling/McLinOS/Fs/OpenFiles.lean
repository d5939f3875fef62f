import McLinOS.Fs.Steps
/-!
# Open files

`fs/fs_file.c`, the file operations of initramfs and the reference counts of
`fs/fs_inode.c`. An object that was freed is listed, and code that goes on with
one gives `none`. What was written to a file is kept beside it.
-/
open CLib

namespace McLinOS.OpenFiles

open Fs

def PAGE_SIZE : Nat := 4096
def O_ACCMODE : Nat := 3
def O_RDONLY : Nat := 0
def O_RDWR : Nat := 2
def EBADF : Int := 9

/-! ## Objects -/

/-- A VFS inode, an inode of initramfs or a page. -/
inductive Object where
  | inode (i : Nat)
  | node (n : Nat)
  | page (p : Nat)
  deriving DecidableEq

structure page where
  refcount : Int
  data : Nat → UInt8

instance : Inhabited page := ⟨⟨0, fun _ => 0⟩⟩

/-- Files opened alike are alike. -/
structure file where
  f_inode : Nat
  f_flags : Nat
  deriving DecidableEq

/-- `i_count` belongs to the VFS inodes, `i_page`, `size` and `read_only` to the
inodes of initramfs. `content` is what writes that began in the page put there.
`addr` is where the bytes of a page lie. -/
structure State where
  fs : FS
  i_count : Nat → Int
  i_page : Nat → Option Nat
  size : Nat → Nat
  read_only : Nat → Bool
  pages : Pool page
  addr : Nat → UInt32
  files : List file
  freed : List Object
  content : Nat → Nat → Option UInt8

/-- `new` laid over `old` at `pos`. -/
def overlay {α : Type} (old : Nat → α) (pos : Nat) (new : List α) : Nat → α :=
  fun k => if pos ≤ k then new.getD (k - pos) (old k) else old k

/-! ## Reference counts -/

def inode_get (s : State) (i : Nat) : Option State :=
  if .inode i ∈ s.freed then none
  else some { s with i_count := Function.update s.i_count i (s.i_count i + 1) }

def inode_put (s : State) (i : Nat) : Option State :=
  if .inode i ∈ s.freed then none
  else
    let s := { s with i_count := Function.update s.i_count i (s.i_count i - 1) }
    if s.i_count i = 0 ∨ s.i_count i < 0 then some { s with freed := .inode i :: s.freed } else some s

def put_page (s : State) (p : Nat) : Option State :=
  if .page p ∈ s.freed then none
  else
    let s := { s with pages := s.pages.modify p fun x => { x with refcount := x.refcount - 1 } }
    if (s.pages.get p).refcount = 0 ∨ (s.pages.get p).refcount < 0 then some { s with freed := .page p :: s.freed }
    else some s

/-- `node->i_page` after `alloc_page` and `get_page`, with what the memory
held. -/
def new_page (s : State) (n : Nat) (size : Nat) (data : Nat → UInt8) : State :=
  { s with
    pages := (s.pages.alloc { refcount := 0, data }).modify s.pages.next fun x => { x with refcount := x.refcount + 1 }
    i_page := Function.update s.i_page n (some s.pages.next)
    size := Function.update s.size n size }

/-! ## Opening and closing -/

def f_get (s : State) (dentry flags : Nat) : Option (State × file) := do
  let f_inode ← (s.fs.dentries.get dentry).d_inode
  let s ← inode_get s f_inode
  some ({ s with files := ⟨f_inode, flags⟩ :: s.files }, ⟨f_inode, flags⟩)

def filp_open (s : State) (path : Path) (flags mode : Nat) : Option (State × Except Int file) := do
  let (fs, file_dentry) ← Fs.filp_open s.fs path flags mode
  match file_dentry with
  | .error e => some ({ s with fs }, .error e)
  | .ok file_dentry =>
    let (s, file) ← f_get { s with fs } file_dentry flags
    some (s, .ok file)

def f_put (s : State) (file : file) : Option State :=
  (inode_put s file.f_inode).map fun s => { s with files := s.files.erase file }

def filp_close (s : State) (file : file) : Option State := f_put s file

/-! ## Reading and writing -/

/-- The inode of initramfs behind an open file. -/
def file_node (s : State) (file : file) : Option Nat :=
  if .inode file.f_inode ∈ s.freed then none
  else
    let n := (s.fs.inodes.get file.f_inode).i_private
    if .node n ∈ s.freed then none else some n

/-- The end of the access, `*offset + size`, which is a `loff_t`. -/
def access_end (pos : Int) (count : Nat) : Option Int :=
  if 2 ^ 63 ≤ pos + count then none else some (pos + count)

/-- The result and what was read. `before` is what lies before the page. -/
def kernel_read (before : Int → UInt8) (s : State) (file : file) (count : Nat) (pos : Int) : Option (Int × List UInt8) := do
  let n ← file_node s file
  match s.i_page n with
  | none => some (0, [])
  | some p =>
    if (← access_end pos count) > s.size n then some (0, [])
    else if .page p ∈ s.freed then none
    else some (count, (List.range count).map fun k : Nat =>
      if pos + k < 0 then before (pos + k) else (s.pages.get p).data (pos + k).toNat)

/-- Of the memory only the pages are seen. -/
def memcpy (addr : Nat → UInt32) (pages : Pool page) (dst : UInt32) (src : List UInt8) : Pool page :=
  { pages with get := fun q => { pages.get q with
      data := fun k => src.getD (addr q + UInt32.ofNat k - dst).toNat ((pages.get q).data k) } }

section Write
-- What the memory of a new page held before.
variable (junk : Nat → UInt8)

/-- The page of a file that has none yet. -/
def with_page (s : State) (n : Nat) : State := if s.i_page n = none then new_page s n PAGE_SIZE junk else s

/-- `alloc_page` tells whether there is memory for a page. The bytes of a write
that begins before its page go where they come to lie. -/
def kernel_write (alloc_page : Bool) (s : State) (file : file) (buf : List UInt8) (pos : Int) : Option (State × Int) :=
  if file.f_flags &&& O_ACCMODE = O_RDONLY then some (s, -EBADF)
  else do
    let n ← file_node s file
    if s.read_only n then some (s, 0)
    else if s.i_page n = none ∧ alloc_page = false then some (s, -ENOMEM)
    else
      let s := with_page junk s n
      if (← access_end pos buf.length) > PAGE_SIZE then some (s, 0)
      else
        let p ← s.i_page n
        if .page p ∈ s.freed then none
        else if pos < 0 then
          some ({ s with pages := memcpy s.addr s.pages (s.addr p + UInt32.ofInt pos) buf }, buf.length)
        else
          some ({ s with
            pages := s.pages.modify p fun x => { x with data := overlay x.data pos.toNat buf }
            content := Function.update s.content n (overlay (s.content n) pos.toNat (buf.map some)) }, buf.length)

/-- A file of the boot image: its page is where the image holds it. -/
def initram_fs_mount_file (s : State) (inode : Nat) (filedata : List UInt8) : Option State := do
  let n ← file_node s ⟨inode, 0⟩
  if s.i_page n ≠ none then some s
  else
    let s := new_page s n filedata.length (overlay junk 0 filedata)
    some { s with
      read_only := Function.update s.read_only n true
      content := Function.update s.content n (overlay (s.content n) 0 (filedata.map some)) }

/-- The calls before have created the file that is there now. -/
def mountfile_to_initramfs (s : State) (path : Path) (filedata : List UInt8) : Option State := do
  let (fs, file) ← select_file s.fs path 0
  match file with
  | .error _ => some { s with fs }
  | .ok file => initram_fs_mount_file junk { s with fs } (← (fs.dentries.get file).d_inode) filedata

end Write

/-! ## Removing -/

def initramfs_inode_put (s : State) (node : Nat) : Option State := do
  let s ← match s.i_page node with
    | some p => put_page s p
    | none => some s
  some { s with freed := .node node :: s.freed }

def dentry_put (s : State) (dentry : Nat) : Option State :=
  let target_inode := (s.fs.initramfs_dentries.get dentry).target_inode
  if .node target_inode ∈ s.freed then none
  else
    let s := { s with fs := Fs.dentry_put s.fs dentry }
    if (s.fs.initramfs_inodes.get target_inode).dentry_count = 0 then initramfs_inode_put s target_inode else some s

def initramfs_delete_dentry (s : State) (parent_dentry_inode delete_dentry : Nat) : Option State :=
  let target_inode := (s.fs.initramfs_dentries.get delete_dentry).target_inode
  let target := s.fs.initramfs_inodes.get target_inode
  if .node target_inode ∈ s.freed then none
  else if target.i_mode &&& S_IFMT = S_IFDIR ∧ target.dentry_list_head ≠ [] then some s
  else
    let inodes := s.fs.initramfs_inodes.modify parent_dentry_inode fun i =>
      { i with dentry_list_head := i.dentry_list_head.erase delete_dentry }
    dentry_put { s with fs := { s.fs with initramfs_inodes := inodes } } delete_dentry

def initramfs_unlink (s : State) (dir dentry : Nat) : Option State := do
  let delete_dentry ← (s.fs.dentries.get dentry).d_fsdata
  initramfs_delete_dentry s (s.fs.inodes.get dir).i_private delete_dentry

section Remove
variable (stray : Bool)

set_option linter.style.nameCheck false in
def __remove_dentry (s : State) (dentry : Nat) : Option State := do
  if ← is_s_root stray s.fs dentry then some s
  else
    let d_inode ← (s.fs.dentries.get dentry).d_inode
    let i_mode := (s.fs.inodes.get d_inode).i_mode
    if i_mode &&& S_IFMT = S_IFCHR ∨ i_mode &&& S_IFMT = S_IFBLK then some s
    else
      let d_parent ← (s.fs.dentries.get dentry).d_parent
      let p_inode ← (s.fs.dentries.get d_parent).d_inode
      let s ← initramfs_unlink s p_inode dentry
      let fs ← simple_unlink stray s.fs dentry
      some { s with fs }

def remove_dentry (s : State) (path : Path) : Option (State × Int) := do
  let (fs, dentry) ← select_file s.fs path 0
  match dentry with
  | .error _ => some ({ s with fs }, -1)
  | .ok dentry =>
    let s ← __remove_dentry stray { s with fs } dentry
    some (s, 0)

end Remove

/-! ## Runs -/

inductive Call where
  | mkdir (path : Path) (mode : Nat)
  | mount_file (path : Path) (filedata : List UInt8)
  | filp_open (path : Path) (flags mode : Nat)
  | kernel_read (before : Int → UInt8) (file : file) (count : Nat) (pos : Int)
  | kernel_write (alloc_page : Bool) (file : file) (buf : List UInt8) (pos : Int)
  | filp_close (file : file)
  | remove_dentry (path : Path)

/-- Only open files are read, written and closed. The length of a file of the
image is an `int`. -/
def call (stray : Bool) (junk : Nat → UInt8) (s : State) : Call → Option State
  | .mkdir path mode => (Fs.mkdir s.fs path mode).map fun r => { s with fs := r.1 }
  | .mount_file path filedata =>
    if filedata.length < 2 ^ 31 then mountfile_to_initramfs junk s path filedata else none
  | .filp_open path flags mode => (filp_open s path flags mode).map Prod.fst
  | .kernel_read before file count pos =>
    if file ∈ s.files then (kernel_read before s file count pos).map fun _ => s else none
  | .kernel_write alloc_page file buf pos =>
    if file ∈ s.files then (kernel_write junk alloc_page s file buf pos).map Prod.fst else none
  | .filp_close file => if file ∈ s.files then filp_close s file else none
  | .remove_dentry path => (remove_dentry stray s path).map Prod.fst

def Step (stray : Bool) (junk : Nat → UInt8) (s s' : State) : Prop := ∃ c, call stray junk s c = some s'

/-- The root file system, with no file open. `new_inode` counts one reference. -/
def boot (nul_harms : Name → Bool) (addr : Nat → UInt32) : State where
  fs := root_fs nul_harms
  i_count _ := 1
  i_page _ := none
  size _ := 0
  read_only _ := false
  pages := Pool.empty
  addr
  files := []
  freed := []
  content _ _ := none

/-! ## What the counts are for -/

def InodeRef (s : State) (i : Nat) : Prop :=
  (∃ d, Cached s.fs d ∧ (s.fs.dentries.get d).d_inode = some i) ∨ ∃ file ∈ s.files, file.f_inode = i

/-- An inode of initramfs stays as long as an entry leads to it. -/
def NodeRef (s : State) (n : Nat) : Prop :=
  (∃ m, ∃ f ∈ (s.fs.initramfs_inodes.get m).dentry_list_head, (s.fs.initramfs_dentries.get f).target_inode = n) ∨
    ∃ i, InodeRef s i ∧ (s.fs.inodes.get i).i_private = n

/-- Open files and their data are there, and inodes are freed once when nothing
leads to them any more. -/
structure Survive (s : State) : Prop where
  inode : ∀ file ∈ s.files, .inode file.f_inode ∉ s.freed
  node : ∀ file ∈ s.files, .node (s.fs.inodes.get file.f_inode).i_private ∉ s.freed
  page : ∀ file ∈ s.files, ∀ p ∈ s.i_page (s.fs.inodes.get file.f_inode).i_private, .page p ∉ s.freed
  reads : ∀ file ∈ s.files, ∀ (pos : Nat) (data : List UInt8), data ≠ [] →
    (∀ k b, data[k]? = some b → s.content (s.fs.inodes.get file.f_inode).i_private (pos + k) = some b) →
    ∀ before, kernel_read before s file data.length pos = some ((data.length : Int), data)
  inode_once : ∀ i < s.fs.inodes.next,
    (InodeRef s i → s.freed.count (.inode i) = 0) ∧ (¬InodeRef s i → s.freed.count (.inode i) = 1)
  node_once : ∀ n < s.fs.initramfs_inodes.next,
    (NodeRef s n → s.freed.count (.node n) = 0) ∧ (¬NodeRef s n → s.freed.count (.node n) = 1)

/-- Nothing but the root is found to be removed. -/
def removes_nothing (s : State) : Call → Prop
  | .remove_dentry path => ∀ fs d, select_file s.fs path 0 = some (fs, .ok d) → d = fs.root_dentry
  | _ => True

/-- A write is refused, has no bytes or begins in its page. -/
def in_page (s : State) : Call → Prop
  | .kernel_write alloc_page file buf pos =>
    file.f_flags &&& O_ACCMODE = O_RDONLY ∨ s.read_only (s.fs.inodes.get file.f_inode).i_private = true ∨
      (s.i_page (s.fs.inodes.get file.f_inode).i_private = none ∧ alloc_page = false) ∨
      PAGE_SIZE < pos + buf.length ∨ buf = [] ∨ 0 ≤ pos
  | _ => True

/-- A step that removes nothing and whose write, if it is one, stays in its page. -/
def KeepStep (stray : Bool) (junk : Nat → UInt8) (s s' : State) : Prop :=
  ∃ c, removes_nothing s c ∧ in_page s c ∧ call stray junk s c = some s'

end McLinOS.OpenFiles
