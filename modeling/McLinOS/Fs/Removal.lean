import McLinOS.Fs.MountTheorems
/-!
# Removal where file systems are mounted

`remove_dentry` of `fs/vfs.c` on a tree with mounts: the functions of the
dentry's file system are given the directory of whatever file system is mounted
there now.
-/
open CLib

namespace McLinOS.Removal

open Fs

/-! ## The file systems -/

/-- The words between `lock` and `sb` in an inode of that type of file system. -/
def sb_words (type : Name) : Nat :=
  if type = "initramfs".toList then 2 else if type = "pipefs".toList then 0 else 1

/-- The type of the file system whose VFS inode it is. -/
def i_type (s : VFS) (i : Nat) : Name := s.fs_type (s.fs.inodes.get i).i_private

/-- The entry is in a directory. One that is in none was freed. -/
def Listed (s : FS) (f : Nat) : Prop :=
  ∃ n < s.initramfs_inodes.next, f ∈ (s.initramfs_inodes.get n).dentry_list_head

instance (s : FS) (f : Nat) : Decidable (Listed s f) := inferInstanceAs (Decidable (∃ n < _, _))

/-- The entry goes from the list it is in. -/
def list_del (s : FS) (f : Nat) : FS :=
  { s with initramfs_inodes := { s.initramfs_inodes with
      get := fun n => { s.initramfs_inodes.get n with
        dentry_list_head := (s.initramfs_inodes.get n).dentry_list_head.erase f } } }

/-- The entry leads to a directory that has entries. -/
def Occupied (s : FS) (f : Nat) : Prop :=
  (s.initramfs_inodes.get (s.initramfs_dentries.get f).target_inode).i_mode &&& S_IFMT = S_IFDIR ∧
    (s.initramfs_inodes.get (s.initramfs_dentries.get f).target_inode).dentry_list_head ≠ []

instance (s : FS) (f : Nat) : Decidable (Occupied s f) := inferInstanceAs (Decidable (_ ∧ _))

/-- `sb` tells whether the superblock it is given is one. -/
def initramfs_delete_dentry (s : FS) (sb : Bool) (delete_dentry : Nat) : Option FS :=
  if ¬Listed s delete_dentry then none
  else if Occupied s delete_dentry then some s
  else if sb then some (dentry_put (list_del s delete_dentry) delete_dentry)
  else none

/-- The file system of `d_inode` looks for the superblock in the inode of `dir`,
which may be another file system's. -/
def initramfs_unlink (s : VFS) (d_inode dir dentry : Nat) : Option FS :=
  match (s.fs.dentries.get dentry).d_fsdata with
  | none => none
  | some delete_dentry =>
    initramfs_delete_dentry s.fs (sb_words (i_type s d_inode) = sb_words (i_type s dir)) delete_dentry

/-! ## The VFS -/

section
variable (stray : Bool)

set_option linter.style.nameCheck false in
def __remove_dentry (s : VFS) (dentry : Nat) : Option (VFS × Int) := do
  if ← is_s_root stray s.fs dentry then some (s, -1)
  else
    let d_inode ← (s.fs.dentries.get dentry).d_inode
    let i_mode := (s.fs.inodes.get d_inode).i_mode
    if i_mode &&& S_IFMT = S_IFCHR ∨ i_mode &&& S_IFMT = S_IFBLK then some (s, -1)
    else
      let d_parent ← (s.fs.dentries.get dentry).d_parent
      let p_inode ← (s.fs.dentries.get d_parent).d_inode
      let fs ← initramfs_unlink s d_inode p_inode dentry
      let fs ← simple_unlink stray fs dentry
      some ({ s with fs }, 0)

/-- The result of `__remove_dentry` is not looked at. -/
def remove_dentry (s : VFS) (path : Path) : Option (VFS × Int) := do
  let (fs, dentry) ← select_file s.fs path 0
  match dentry with
  | .error _ => some ({ s with fs }, -1)
  | .ok dentry =>
    let (s, _) ← __remove_dentry stray { s with fs } dentry
    some (s, 0)

end

/-! ## What removal is for -/

/-- A dentry that a superblock was mounted on: it has the inode of the
superblock's root. -/
def MountPoint (s : FS) (d : Nat) : Prop :=
  ∃ sb, (s.dentries.get d).d_sb = some sb ∧ (s.supers.get sb).s_root ≠ d ∧
    (s.dentries.get (s.supers.get sb).s_root).d_inode = (s.dentries.get d).d_inode

def IsDir (s : FS) (d : Nat) : Prop :=
  ∃ i, (s.dentries.get d).d_inode = some i ∧ (s.inodes.get i).i_mode &&& S_IFMT = S_IFDIR

/-- The root of the tree or of a file system, a mount point, or a directory
below which a name resolves. -/
def Refused (s : FS) (d : Nat) : Prop :=
  (d = s.root_dentry ∨ ∃ sb, (s.dentries.get d).d_sb = some sb ∧ (s.supers.get sb).s_root = d) ∨
    MountPoint s d ∨ (IsDir s d ∧ ∃ name, resolve s d [name] ≠ none)

/-- The dentry `d` and the entry `f` behind it are gone from where they were,
and nothing else is. -/
structure RemovedOne (s s' : FS) (d f : Nat) : Prop where
  fsdata : (s.dentries.get d).d_fsdata = some f
  was_cached : ∃ p, d ∈ (s.dentries.get p).d_hash
  was_listed : Listed s f
  dentries : ∀ x, s'.dentries.get x =
    { s.dentries.get x with d_hash := (s.dentries.get x).d_hash.filter (· ≠ d) }
  modes : ∀ n, (s'.initramfs_inodes.get n).i_mode = (s.initramfs_inodes.get n).i_mode
  lists : ∀ n, (s'.initramfs_inodes.get n).dentry_list_head =
    (s.initramfs_inodes.get n).dentry_list_head.filter (· ≠ f)
  entries : s'.initramfs_dentries = s.initramfs_dentries
  inodes : s'.inodes = s.inodes
  supers : s'.supers = s.supers
  root : s'.root_dentry = s.root_dentry

/-- The path is looked up, and whatever it leads to is refused, and nothing happens
to the trees, or it is the one thing that is removed from them. -/
def Removes (stray : Bool) (s : VFS) (path : Path) : Prop :=
  select_file s.fs path 0 ≠ none ∧ ∀ fs d, select_file s.fs path 0 = some (fs, .ok d) →
    (Refused fs d → ∃ e < 0, remove_dentry stray s path = some ({ s with fs }, e)) ∧
      (¬Refused fs d → ∃ s' f, remove_dentry stray s path = some (s', 0) ∧ RemovedOne fs s'.fs d f)

/-- The dentry is not to be refused and is no device, its entry is there, and the
superblock is found from the directory it is in. -/
structure Removable (stray : Bool) (s : VFS) (d : Nat) : Prop where
  stray : stray = true
  not_refused : ¬Refused s.fs d
  no_device : ∀ i, (s.fs.dentries.get d).d_inode = some i →
    (s.fs.inodes.get i).i_mode &&& S_IFMT ≠ S_IFCHR ∧ (s.fs.inodes.get i).i_mode &&& S_IFMT ≠ S_IFBLK
  entry : ∀ f, (s.fs.dentries.get d).d_fsdata = some f → Listed s.fs f
  sb : ∀ i p j, (s.fs.dentries.get d).d_inode = some i → (s.fs.dentries.get d).d_parent = some p →
    (s.fs.dentries.get p).d_inode = some j → sb_words (i_type s i) = sb_words (i_type s j)

/-- The path can be looked up, and leads to something that can be removed or to
nothing. -/
def good_removal (stray : Bool) (s : VFS) (path : Path) : Prop :=
  select_file s.fs path 0 ≠ none ∧ ∀ fs d, select_file s.fs path 0 = some (fs, .ok d) → Removable stray { s with fs } d

end McLinOS.Removal
