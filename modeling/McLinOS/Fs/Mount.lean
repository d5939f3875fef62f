import McLinOS.Fs.Resolve
/-!
# Mounting

`sys_mount` of `fs/mount.c`, and removal where file systems are mounted. The
file systems are copies of one template, so their objects share the pools of
initramfs and only the type of an object's file system is kept beside it. A
superblock that was allocated is returned.
-/
open CLib

namespace McLinOS.Fs

def ENODEV : Int := 19

/-- `fs_type` is the type of the file system an inode of a file system belongs
to, `d_lock` tells which dentries are locked. -/
structure VFS where
  fs : FS
  fs_type : Nat → Name
  d_lock : Nat → Bool

/-- What is read through an error pointer: an error pointer, NULL or something
else. -/
inductive StrayWord where
  | error
  | null
  | other
  deriving DecidableEq, Repr

/-! ## Mounting a file system -/

/-- `pipefs_mount`, like the mount function of each of the file systems, when
allocation succeeds: a new superblock, whose root directory is empty. The result
is the root's dentry. -/
def pipefs_mount (s : FS) : FS × Nat :=
  let rootinode := s.initramfs_inodes.next
  let dentry := s.initramfs_dentries.next
  let root_inode := s.inodes.next
  let sb := s.supers.next
  let root := s.dentries.next
  ({ s with
      initramfs_inodes := s.initramfs_inodes.alloc { i_mode := root_mode, dentry_count := 1, dentry_list_head := [] }
      initramfs_dentries := s.initramfs_dentries.alloc { name := [], target_inode := rootinode }
      inodes := s.inodes.alloc { i_mode := root_mode, i_sb := none, i_private := rootinode }
      supers := s.supers.alloc { s_root := root }
      dentries := s.dentries.alloc { d_hash := [], d_parent := none, d_name := ['r', 'o', 'o', 't'],
                                     d_inode := some root_inode, d_sb := some sb, d_fsdata := some dentry } }, root)

/-- A held lock is waited for. -/
def spin_lock (s : VFS) (d : Nat) : Option VFS :=
  if s.d_lock d then none else some { s with d_lock := Function.update s.d_lock d true }

def spin_unlock (s : VFS) (d : Nat) : VFS := { s with d_lock := Function.update s.d_lock d false }

/-- `mount_point->d_sb` and `mount_point->d_inode`. -/
def set_mount (s : FS) (mount_point sb : Nat) : FS :=
  { s with dentries := s.dentries.modify mount_point fun d =>
      { d with d_sb := some sb, d_inode := (s.dentries.get (s.supers.get sb).s_root).d_inode } }

/-- `types` are the registered types, `mem` tells whether the mount function can
allocate what it needs. Where it cannot, `d_sb` is read through an error pointer,
and the lock is still held at each `return`. -/
def sys_mount (types : List Name) (mem : Bool) (stray : StrayWord) (s : VFS) (dir_name : Path) (type : Name) :
    Option (VFS × Int) :=
  if type ∉ types then some (s, -ENODEV)
  else do
    let (fs, mount_point) ← select_file s.fs dir_name 0
    let s := { s with fs }
    match mount_point with
    | .error _ => some (s, -ENOENT)
    | .ok mount_point =>
      let d_inode ← (s.fs.dentries.get mount_point).d_inode
      if (s.fs.inodes.get d_inode).i_mode &&& S_IFMT ≠ S_IFDIR then some (s, -ENOTDIR)
      else
        let s ← spin_lock s mount_point
        if mem then
          let rootinode := s.fs.initramfs_inodes.next
          let (fs, root) := pipefs_mount s.fs
          let s := { s with fs, fs_type := Function.update s.fs_type rootinode type }
          match (s.fs.dentries.get root).d_sb with
          | none => some (s, -ENOMEM)
          | some mount_sb => some (spin_unlock { s with fs := set_mount s.fs mount_point mount_sb } mount_point, 0)
        else
          match stray with
          | .error => some (s, 0)
          | .null => some (s, -ENOMEM)
          | .other => none

/-! ## What a mount is for -/

/-- The inode behind a result of `select_file`. -/
def result_node (s : FS) : Except Int Nat → Option Nat
  | .ok d => node s d
  | .error _ => none

/-- The path resolves to that inode of a file system, or to none. -/
def ResolvesTo (s : FS) (path : Path) (o : Option Nat) : Prop :=
  ∃ s' r, select_file s path 0 = some (s', r) ∧ result_node s' r = o

/-- An absolute path whose components all fit. -/
def Plain (s : FS) (path : Path) : Prop := Absolute path ∧ ∀ x ∈ components path, s.fits x = true

instance (s : FS) (path : Path) : Decidable (Plain s path) := inferInstanceAs (Decidable (_ ∧ _))

/-- Below `dir` is the file system whose root is the inode `m`, everything else
is as it was in `s`. -/
structure Switched (s s' : FS) (dir : Path) (m : Nat) : Prop where
  here : ResolvesTo s' dir (some m)
  below : ∀ path, Plain s path → ∀ names, names ≠ [] → components path = components dir ++ names →
    ResolvesTo s' path (fs_walk s' m names)
  elsewhere : ∀ path, Plain s path → ¬components dir <+: components path →
    ∀ o, ResolvesTo s' path o ↔ ResolvesTo s path o

/-- The inodes and superblocks of the dentries are as they were, and the locks. -/
def Unharmed (s s' : VFS) : Prop :=
  (∀ d, Cached s.fs d → (s'.fs.dentries.get d).d_sb = (s.fs.dentries.get d).d_sb ∧
    (s'.fs.dentries.get d).d_inode = (s.fs.dentries.get d).d_inode) ∧ s'.d_lock = s.d_lock

/-- The directory the path leads to, once it is cached. -/
def mount_dir (s : FS) (dir : Path) : Option (FS × Nat) :=
  match select_file s dir 0 with
  | some (s₁, .ok mount_point) =>
    match (s₁.dentries.get mount_point).d_inode with
    | some i => if (s₁.inodes.get i).i_mode &&& S_IFMT = S_IFDIR then some (s₁, mount_point) else none
    | none => none
  | _ => none

/-- A mount of a known type on a directory succeeds and switches what is below
it to the new superblock's root, any other fails and does no harm. -/
def Mounts (types : List Name) (mem : Bool) (stray : StrayWord) (s : VFS) (dir : Path) (type : Name) : Prop :=
  match mount_dir s.fs dir with
  | some (_, mount_point) =>
    if type ∈ types ∧ mem = true then
      ∃ s' sb m, sys_mount types mem stray s dir type = some (s', 0) ∧
        (s'.fs.dentries.get mount_point).d_sb = some sb ∧ s.fs.supers.next ≤ sb ∧
        node s'.fs (s'.fs.supers.get sb).s_root = some m ∧ Switched s.fs s'.fs dir m
    else ∃ s' e, sys_mount types mem stray s dir type = some (s', e) ∧ e < 0 ∧ Unharmed s s'
  | none => ∃ s' e, sys_mount types mem stray s dir type = some (s', e) ∧ e < 0 ∧ Unharmed s s'

/-- If the type is known, the names that are looked up all fit, and on a directory
the file system is mounted and nothing below it is cached. -/
def good_mount (types : List Name) (mem : Bool) (s : FS) (dir : Path) (type : Name) : Prop :=
  type ∈ types → FitsOn s s.root_dentry (components dir) ∧
    ∀ r ∈ mount_dir s dir, mem = true ∧ (r.1.dentries.get r.2).d_hash = []

end McLinOS.Fs
