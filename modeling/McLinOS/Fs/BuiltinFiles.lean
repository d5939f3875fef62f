import McLinOS.Fs.OpenFiles
/-!
# Files of the boot image

`initram_fs_mount_file` of `fs/initramfs/initramfs.c` and the files behind it, with
the lengths that `i_size` gives.
-/
open CLib

namespace McLinOS.Builtin

open Fs
open OpenFiles (page file Call file_node in_page O_RDWR)

/-- `i_size` belongs to the VFS inodes. -/
structure State where
  files : OpenFiles.State
  i_size : Nat → Nat

/-- `initramfs_get_inode` gives a new VFS inode the size of its inode of initramfs. -/
def State.after (s : State) (files : OpenFiles.State) : State where
  files
  i_size i := if i < s.files.fs.inodes.next then s.i_size i else files.size (files.fs.inodes.get i).i_private

section
-- What the memory of a new page held before.
variable (stray : Bool) (junk : Nat → UInt8)

/-- `virt_to_page` gives -ENOMEM when there is no memory for a `struct page`, and
the code, which tests for `NULL`, goes on with it. -/
def initram_fs_mount_file (kmalloc : Bool) (s : State) (inode : Nat) (filedata : List UInt8) : Option State := do
  let n ← file_node s.files ⟨inode, 0⟩
  if s.files.i_page n ≠ none then some s
  else if kmalloc then
    let files ← OpenFiles.initram_fs_mount_file junk s.files inode filedata
    some { files, i_size := Function.update s.i_size inode filedata.length }
  else none

def mountfile_to_initramfs (kmalloc : Bool) (s : State) (path : Path) (filedata : List UInt8) : Option State := do
  let (fs, file) ← select_file s.files.fs path 0
  let s := s.after { s.files with fs }
  match file with
  | .error _ => some s
  | .ok file => initram_fs_mount_file junk kmalloc s (← (fs.dentries.get file).d_inode) filedata

/-! ## Runs -/

def call (kmalloc : Bool) (s : State) : Call → Option State
  | .mount_file path filedata =>
    if filedata.length < 2 ^ 31 then mountfile_to_initramfs junk kmalloc s path filedata else none
  | c => (OpenFiles.call stray junk s.files c).map s.after

def Step (s s' : State) : Prop := ∃ kmalloc c, call stray junk kmalloc s c = some s'

end

def boot (nul_harms : Name → Bool) (addr : Nat → UInt32) : State := ⟨OpenFiles.boot nul_harms addr, fun _ => 0⟩

/-- A step whose write, if it is one, stays in its page. -/
def InPageStep (stray : Bool) (junk : Nat → UInt8) (s s' : State) : Prop :=
  ∃ kmalloc c, in_page s.files c ∧ call stray junk kmalloc s c = some s'

/-! ## What is expected of a file of the image -/

/-- What a read of `filedata` returns: all that is asked for or nothing. -/
def image_read (filedata : List UInt8) (count pos : Nat) : Int × List UInt8 :=
  if pos + count ≤ filedata.length then (count, (filedata.drop pos).take count) else (0, [])

/-- The VFS inode `i` and the inode `n` of initramfs are those of a file that holds
`filedata`. Nothing that is done with the file changes it. -/
structure Holds (junk : Nat → UInt8) (i n : Nat) (filedata : List UInt8) (s : State) : Prop where
  inode : (s.files.fs.inodes.get i).i_private = n
  bytes : ∃ p, s.files.i_page n = some p ∧ .page p ∉ s.files.freed ∧
    ∀ k b, filedata[k]? = some b → (s.files.pages.get p).data k = b
  length : s.files.size n = filedata.length ∧ s.i_size i = filedata.length
  reads : ∀ file : file, (s.files.fs.inodes.get file.f_inode).i_private = n → ∀ count pos : Nat,
    count < 2 ^ 32 → pos < 2 ^ 62 →
    ∀ before, OpenFiles.kernel_read before s.files file count pos = some (image_read filedata count pos)
  writes : ∀ file : file, (s.files.fs.inodes.get file.f_inode).i_private = n → ∀ alloc_page buf pos,
    ∃ ret, OpenFiles.kernel_write junk alloc_page s.files file buf pos = some (s.files, ret)
  mount : ∀ j, (s.files.fs.inodes.get j).i_private = n → ∀ kmalloc other,
    initram_fs_mount_file junk kmalloc s j other = some s

end McLinOS.Builtin
