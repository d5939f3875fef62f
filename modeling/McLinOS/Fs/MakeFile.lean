import McLinOS.Fs.Resolve
/-!
# Making a file

`initramfs_create` and `initramfs_mkdir` make a file in a directory where the name
is not found.
-/
open CLib

namespace McLinOS.Fs

/-- The state with a new file in the directory whose dentry is `d` and whose
inode is `i`. The new VFS inode is made for `bound`. -/
def made_in (s : FS) (d i : Nat) (name : Name) (mode bound : Nat) : FS :=
  let nodes := (s.initramfs_inodes.alloc { i_mode := mode, dentry_count := 1, dentry_list_head := [] }).modify
    (s.inodes.get i).i_private fun n => { n with dentry_list_head := s.initramfs_dentries.next :: n.dentry_list_head }
  { s with
    initramfs_inodes := nodes
    initramfs_dentries := s.initramfs_dentries.alloc { name, target_inode := s.initramfs_inodes.next }
    inodes := s.inodes.alloc { i_mode := (nodes.get bound).i_mode, i_sb := (s.inodes.get i).i_sb, i_private := bound }
    dentries := (looked_up s d name s.initramfs_dentries.next i).dentries }

theorem set_target_mode_twice (s : FS) (f m m' : Nat) :
    set_target_mode (set_target_mode s f m) f m' = set_target_mode s f m' := by
  simp only [set_target_mode, Pool.modify_modify]
  rfl

theorem create_file_eq (s : FS) {parent : Nat} (hp : parent ≠ s.initramfs_inodes.next) (name : Name) (mode : Nat) :
    set_target_mode (initramfs_create_file s parent name).1 (initramfs_create_file s parent name).2 mode =
      { s with
        initramfs_inodes := (s.initramfs_inodes.alloc
          { i_mode := mode, dentry_count := 1, dentry_list_head := [] }).modify parent
            fun i => { i with dentry_list_head := s.initramfs_dentries.next :: i.dentry_list_head }
        initramfs_dentries := s.initramfs_dentries.alloc { name, target_inode := s.initramfs_inodes.next } } := by
  simp only [set_target_mode, initramfs_create_file, initramfs_create_inode, initramfs_create_empty_inode,
    initramfs_create_dentry, Pool.get_alloc_next]
  rw [Pool.alloc_modify_next, Pool.modify_comm _ hp, Pool.alloc_modify_next]
  rfl

section
variable {s : FS} {d i : Nat} {name : Name}

/-- Filling in the dentry allocated last and adding it to its parent. -/
theorem bind_dentry_eq (s : FS) (x : dentry) {p : Nat} (hp : x.d_parent = some p) (file node : Nat) (sb : Option Nat) :
    bind_dentry { s with dentries := s.dentries.alloc x } s.dentries.next file node sb = some { s with
      inodes := s.inodes.alloc { i_mode := (s.initramfs_inodes.get node).i_mode, i_sb := sb, i_private := node }
      dentries := (s.dentries.alloc { x with d_fsdata := some file, d_inode := some s.inodes.next, d_sb := sb }).modify p
        fun d => { d with d_hash := s.dentries.next :: d.d_hash } } := by
  simp only [bind_dentry, initramfs_get_inode, initramfs_get_dentry, d_add, Pool.alloc_modify_next, Pool.get_alloc_next, hp]

/-- The new file's inode in initramfs. -/
theorem create_file_target (s : FS) (parent : Nat) (name : Name) (mode : Nat) :
    let r := initramfs_create_file s parent name
    ((set_target_mode r.1 r.2 mode).initramfs_dentries.get r.2).target_inode = s.initramfs_inodes.next := by
  simp [set_target_mode, initramfs_create_file, initramfs_create_inode, initramfs_create_empty_inode,
    initramfs_create_dentry]

theorem create_in (d : Nat) (hn : (s.inodes.get i).i_private < s.initramfs_inodes.next)
    (hnone : initramfs_lookup s (s.inodes.get i).i_private name = none) (mode : Nat) :
    initramfs_create (dropped s d name) i s.dentries.next mode =
      some (made_in s d i name mode s.initramfs_inodes.next) := by
  have hname : ((dropped s d name).dentries.get s.dentries.next).d_name = name := by simp [dropped, new_dentry]
  have hlook : initramfs_lookup (dropped s d name) (s.inodes.get i).i_private name = none := hnone
  have hinodes : (dropped s d name).inodes = s.inodes := rfl
  have hfile := create_file_eq (dropped s d name) (Nat.ne_of_lt hn) name mode
  have htarget := create_file_target (dropped s d name) (s.inodes.get i).i_private name mode
  simp only [initramfs_create, hname, hinodes, hlook, htarget]
  rw [hfile]
  exact bind_dentry_eq { s with
    initramfs_inodes := (made_in s d i name mode s.initramfs_inodes.next).initramfs_inodes
    initramfs_dentries := (made_in s d i name mode s.initramfs_inodes.next).initramfs_dentries }
    (new_dentry d name (s.dentries.get d).d_sb) rfl s.initramfs_dentries.next s.initramfs_inodes.next
    (s.inodes.get i).i_sb

theorem mkdir_in (d : Nat) (hn : (s.inodes.get i).i_private < s.initramfs_inodes.next)
    (hnone : initramfs_lookup s (s.inodes.get i).i_private name = none) (mode : Nat) :
    initramfs_mkdir (dropped s d name) i s.dentries.next mode =
      some (made_in s d i name (S_IFREG ||| (mode &&& 0o777)) (s.inodes.get i).i_private) := by
  have hname : ((dropped s d name).dentries.get s.dentries.next).d_name = name := by simp [dropped, new_dentry]
  have hlook : initramfs_lookup (dropped s d name) (s.inodes.get i).i_private name = none := hnone
  have hinodes : (dropped s d name).inodes = s.inodes := rfl
  have hfile := create_file_eq (dropped s d name) (Nat.ne_of_lt hn) name (S_IFREG ||| (mode &&& 0o777))
  rw [initramfs_create_file] at hfile
  simp only [initramfs_mkdir, hname, hinodes, hlook, initramfs_create_dir]
  rw [set_target_mode_twice, hfile]
  exact bind_dentry_eq { s with
    initramfs_inodes := (made_in s d i name (S_IFREG ||| (mode &&& 0o777)) 0).initramfs_inodes
    initramfs_dentries := (made_in s d i name (S_IFREG ||| (mode &&& 0o777)) 0).initramfs_dentries }
    (new_dentry d name (s.dentries.get d).d_sb) rfl s.initramfs_dentries.next (s.inodes.get i).i_private
    (s.inodes.get i).i_sb

end

end McLinOS.Fs
