import Mathlib.Data.Finset.Card
import McLinOS.CLib.Runs
import McLinOS.Fs.Model
/-!
# Link counts of initramfs

The inodes and directory entries of one superblock of
`fs/initramfs/initramfs.c`, with the memory that fails and the objects that are
freed. Of the VFS a function is given what it reads there: the inode behind
`dir`, the entry behind `dentry`, its name.
-/
open CLib

namespace McLinOS.LinkCounts

open Fs (Name S_IFMT S_IFREG S_IFDIR ENOMEM initramfs_inode initramfs_dentry)

/-- `inode_list_head` is the superblock's list of inodes. The lists of freed
objects have the latest first. -/
structure State where
  inodes : Pool initramfs_inode
  dentries : Pool initramfs_dentry
  inode_list_head : List Nat
  rootinode : Nat
  freed_inodes : List Nat
  freed_dentries : List Nat

def Live (s : State) (n : Nat) : Prop := n < s.inodes.next ∧ n ∉ s.freed_inodes

instance (s : State) (n : Nat) : Decidable (Live s n) := inferInstanceAs (Decidable (_ ∧ _))

/-- Which of the allocations succeed: of an inode, an entry, its name, and the VFS
inode. -/
structure Memory where
  inode : Bool
  dentry : Bool
  name : Bool
  vfs_inode : Bool
  deriving DecidableEq, Repr

/-! ## Inodes and entries -/

def initramfs_create_empty_inode (mem : Memory) (s : State) : State × Option Nat :=
  if mem.inode then
    let initram_inode : initramfs_inode := { i_mode := S_IFREG ||| 0o755, dentry_count := 0, dentry_list_head := [] }
    ({ s with
        inodes := s.inodes.alloc initram_inode
        inode_list_head := s.inodes.next :: s.inode_list_head }, some s.inodes.next)
  else (s, none)

def initramfs_inode_put (s : State) (node : Nat) : State := { s with freed_inodes := node :: s.freed_inodes }

/-- An entry without memory for its name is freed again. -/
def initramfs_create_dentry (mem : Memory) (s : State) (parent_dentry_inode target_inode : Nat) (name : Name) :
    State × Option Nat :=
  if mem.dentry = false ∨ mem.name = false then (s, none)
  else
    let new_dentry := s.dentries.next
    let inodes := s.inodes.modify target_inode fun i => { i with dentry_count := i.dentry_count + 1 }
    ({ s with
        dentries := s.dentries.alloc { name, target_inode }
        inodes := inodes.modify parent_dentry_inode fun i =>
          { i with dentry_list_head := new_dentry :: i.dentry_list_head } }, some new_dentry)

def initramfs_create_inode (mem : Memory) (s : State) (parent_dentry_inode : Nat) (name : Name) : State × Option Nat :=
  match initramfs_create_empty_inode mem s with
  | (s, none) => (s, none)
  | (s, some new_inode) =>
    match initramfs_create_dentry mem s parent_dentry_inode new_inode name with
    | (s, none) =>
      (initramfs_inode_put { s with inode_list_head := s.inode_list_head.erase new_inode } new_inode, none)
    | (s, some new_dentry) => (s, some new_dentry)

def initramfs_create_file (mem : Memory) (s : State) (parent_dentry_inode : Nat) (name : Name) : State × Option Nat :=
  initramfs_create_inode mem s parent_dentry_inode name

def target_inode (s : State) (dentry : Nat) : Nat := (s.dentries.get dentry).target_inode

def set_target_mode (s : State) (dentry mode : Nat) : State :=
  { s with inodes := s.inodes.modify (target_inode s dentry) fun i => { i with i_mode := mode } }

def initramfs_create_dir (mem : Memory) (s : State) (parent_dentry_inode : Nat) (name : Name) : State × Option Nat :=
  match initramfs_create_inode mem s parent_dentry_inode name with
  | (s, none) => (s, none)
  | (s, some dentry) => (set_target_mode s dentry (S_IFDIR ||| 0o755), some dentry)

def dentry_put (s : State) (dentry : Nat) : State :=
  let target := target_inode s dentry
  let s := { s with inodes := s.inodes.modify target fun i => { i with dentry_count := i.dentry_count - 1 } }
  let s := if (s.inodes.get target).dentry_count = 0 then
      initramfs_inode_put { s with inode_list_head := s.inode_list_head.erase target } target
    else s
  { s with freed_dentries := dentry :: s.freed_dentries }

/-- The entry goes from the list it is in. -/
def list_del (s : State) (dentry : Nat) : State :=
  { s with inodes := { s.inodes with
      get := fun n => { s.inodes.get n with dentry_list_head := (s.inodes.get n).dentry_list_head.erase dentry } } }

/-- The entry leads to a directory that is not empty. -/
def Refused (s : State) (dentry : Nat) : Prop :=
  (s.inodes.get (target_inode s dentry)).i_mode &&& S_IFMT = S_IFDIR ∧
    (s.inodes.get (target_inode s dentry)).dentry_list_head ≠ []

instance (s : State) (dentry : Nat) : Decidable (Refused s dentry) := inferInstanceAs (Decidable (_ ∧ _))

def initramfs_delete_dentry (s : State) (delete_dentry : Nat) : State :=
  if Refused s delete_dentry then s else dentry_put (list_del s delete_dentry) delete_dentry

def initramfs_superblock_create : State where
  inodes := Pool.empty.alloc { i_mode := S_IFDIR ||| 0o755, dentry_count := 1, dentry_list_head := [] }
  dentries := Pool.empty
  inode_list_head := [0]
  rootinode := 0
  freed_inodes := []
  freed_dentries := []

def initramfs_lookup (s : State) (dentry_inode : Nat) (name : Name) : Option Nat :=
  let i := s.inodes.get dentry_inode
  if i.i_mode &&& S_IFMT ≠ S_IFDIR then none
  else i.dentry_list_head.find? fun pos => (s.dentries.get pos).name = name

/-! ## The operations -/

/-- What `initramfs_create` and `initramfs_mkdir` do with the file they found or
made. -/
def finish (mem : Memory) (mode : Nat) : State × Option Nat → State × Int
  | (s, none) => (s, -1)
  | (s, some file) => (set_target_mode s file mode, if mem.vfs_inode then 0 else -1)

def initramfs_create (mem : Memory) (s : State) (dinode : Nat) (file_name : Name) (mode : Nat) : State × Int :=
  finish mem mode <| match initramfs_lookup s dinode file_name with
    | some file => (s, some file)
    | none => initramfs_create_file mem s dinode file_name

def initramfs_link (mem : Memory) (s : State) (old_inode dir_inode : Nat) (name : Name) : State × Int :=
  match initramfs_create_dentry mem s dir_inode old_inode name with
  | (s, none) => (s, -ENOMEM)
  | (s, some _) => (s, 0)

def initramfs_unlink (s : State) (delete_dentry : Nat) : State × Int := (initramfs_delete_dentry s delete_dentry, 0)

def initramfs_mkdir (mem : Memory) (s : State) (dinode : Nat) (file_name : Name) (mode : Nat) : State × Int :=
  -- The mode of a file, also for the directory it made.
  finish mem (S_IFREG ||| (mode &&& 0o777)) <| match initramfs_lookup s dinode file_name with
    | some file => (s, some file)
    | none => initramfs_create_dir mem s dinode file_name

-- No `list_del` comes before.
def initramfs_release_dentry (s : State) (fs_dentry : Nat) : State := dentry_put s fs_dentry

/-- `simple_unlink` works on the VFS. -/
def initramfs_rmdir (s : State) (fs_dentry : Nat) : State × Int := (initramfs_release_dentry s fs_dentry, 0)

/-! ## Runs -/

inductive Call where
  | create (mem : Memory) (dir : Nat) (name : Name) (mode : Nat)
  | mkdir (mem : Memory) (dir : Nat) (name : Name) (mode : Nat)
  | link (mem : Memory) (old dir : Nat) (name : Name)
  | unlink (dir dentry : Nat)
  | rmdir (dir dentry : Nat)

def call (s : State) : Call → State × Int
  | .create mem dir name mode => initramfs_create mem s dir name mode
  | .mkdir mem dir name mode => initramfs_mkdir mem s dir name mode
  | .link mem old dir name => initramfs_link mem s old dir name
  | .unlink _ dentry => initramfs_unlink s dentry
  | .rmdir _ dentry => initramfs_rmdir s dentry

/-- The call is for a directory of the superblock, and for an entry in it or an
inode that is there. -/
def Valid (s : State) : Call → Prop
  | .create _ dir _ _ => Live s dir
  | .mkdir _ dir _ _ => Live s dir
  | .link _ old dir _ => Live s old ∧ Live s dir
  | .unlink dir dentry => Live s dir ∧ dentry ∈ (s.inodes.get dir).dentry_list_head
  | .rmdir dir dentry => Live s dir ∧ dentry ∈ (s.inodes.get dir).dentry_list_head

/-- The entry is in a directory. -/
def Listed (s : State) (dentry : Nat) : Prop := ∃ n < s.inodes.next, Live s n ∧ dentry ∈ (s.inodes.get n).dentry_list_head

instance (s : State) (dentry : Nat) : Decidable (Listed s dentry) := inferInstanceAs (Decidable (∃ n < _, _))

/-- The directory entries that lead to the inode. -/
def entries_of (s : State) (n : Nat) : Finset Nat :=
  (Finset.range s.dentries.next).filter fun e => Listed s e ∧ target_inode s e = n

/-- Counts are the numbers of entries, one more for the root. An inode is on the
superblock's list while its count is positive and freed, once, when it is 0. No
directory has a freed entry. -/
structure Links (s : State) : Prop where
  counted : ∀ n, Live s n →
    (s.inodes.get n).dentry_count = ((entries_of s n).card + if n = s.rootinode then 1 else 0 : Nat)
  listed : ∀ n, n ∈ s.inode_list_head ↔ n < s.inodes.next ∧ 0 < (s.inodes.get n).dentry_count
  freed : ∀ n, n ∈ s.freed_inodes ↔ n < s.inodes.next ∧ (s.inodes.get n).dentry_count = 0
  once : s.freed_inodes.Nodup
  entries : ∀ n, Live s n → ∀ e ∈ (s.inodes.get n).dentry_list_head, e ∉ s.freed_dentries

/-- The last entry of an inode takes no other entries with it, and only the last
entry of a directory that leads to itself is given to `initramfs_rmdir`. -/
def good (s : State) : Call → Prop
  | .unlink _ dentry => Refused s dentry ∨ (s.inodes.get (target_inode s dentry)).dentry_count ≠ 1 ∨
      ∀ e ∈ (s.inodes.get (target_inode s dentry)).dentry_list_head, e = dentry
  | .rmdir dir dentry => target_inode s dentry = dir ∧ (s.inodes.get dir).dentry_count = 1 ∧
      ∀ e ∈ (s.inodes.get dir).dentry_list_head, e = dentry
  | _ => True

def Step (s s' : State) : Prop := ∃ c, Valid s c ∧ good s c ∧ s' = (call s c).1

def Init (s : State) : Prop := s = initramfs_superblock_create

end McLinOS.LinkCounts
