import McLinOS.Fs.OpenFilesTheorems
import McLinOS.Fs.RemovalTheorems
/-!
# What a removal leaks

Each VFS inode has one dentry. Once that is removed and no file is open any more,
nothing leads to the inode, and its count is still 1.
-/
open CLib

namespace McLinOS.OpenFiles

open Fs Removal

/-! ## A removal -/

section
variable {stray : Bool} {junk : Nat → UInt8} {s s' : State} {d : Nat}

theorem put_page_fs {p : Nat} (h : put_page s p = some s') : s'.fs = s.fs := by
  unfold put_page at h
  split at h
  · cases h
  · dsimp only at h
    split at h <;> obtain rfl := Option.some.inj h <;> rfl

theorem inode_put_fs {n : Nat} (h : initramfs_inode_put s n = some s') : s'.fs = s.fs := by
  unfold initramfs_inode_put at h
  cases hp : s.i_page n with
  | some p =>
    simp only [hp, Option.bind_eq_bind, Option.bind_eq_some_iff] at h
    obtain ⟨s₁, hput, h⟩ := h
    obtain rfl := Option.some.inj h
    show s₁.fs = s.fs
    exact put_page_fs hput
  | none =>
    simp only [hp, Option.bind_eq_bind, Option.bind_some, Option.some.injEq] at h
    rw [← h]

/-- The functions of initramfs leave the dentries and the VFS inodes alone. -/
theorem delete_dentry_fs {n f : Nat} (h : initramfs_delete_dentry s n f = some s') :
    s'.fs.dentries = s.fs.dentries ∧ s'.fs.inodes = s.fs.inodes ∧ s'.fs.root_dentry = s.fs.root_dentry := by
  unfold initramfs_delete_dentry at h
  dsimp only at h
  split at h
  · cases h
  · split at h
    · obtain rfl := Option.some.inj h
      exact ⟨rfl, rfl, rfl⟩
    · unfold OpenFiles.dentry_put at h
      dsimp only at h
      split at h
      · cases h
      · split at h
        · rw [inode_put_fs h]
          exact ⟨rfl, rfl, rfl⟩
        · obtain rfl := Option.some.inj h
          exact ⟨rfl, rfl, rfl⟩

/-- A dentry that is not the root is taken from its parent. -/
theorem remove_unhashed (h : Wf s.fs) (hs : Sole s.fs) (hd : Parented s.fs d) (hne : d ≠ s.fs.root_dentry)
    (hremove : OpenFiles.__remove_dentry stray s d = some s') : ∃ fs p, d ∈ (s.fs.dentries.get p).d_hash ∧
      fs.dentries = s.fs.dentries ∧ fs.inodes = s.fs.inodes ∧ fs.root_dentry = s.fs.root_dentry ∧
      s'.fs = unhashed fs p d := by
  obtain ⟨p, hp, hmem⟩ := hd.resolve_left hne
  have hc : Cached s.fs d := .inr ⟨p, hmem⟩
  obtain ⟨i, hi, hlt, -⟩ := h.bound d hc
  obtain ⟨j, hj, -⟩ := h.bound p hp
  have hparent := (h.child p d hmem).parent
  have hdevice : ¬((s.fs.inodes.get i).i_mode &&& S_IFMT = S_IFCHR ∨ (s.fs.inodes.get i).i_mode &&& S_IFMT = S_IFBLK) := by
    rcases hs.i_mode i hlt with hmode | hmode <;> rw [hmode] <;> decide
  obtain ⟨root, hroot, hremove⟩ := Option.bind_eq_some_iff.1 hremove
  have hfalse : root = false := by
    simp only [is_s_root, hs.d_sb d hc hne] at hroot
    split at hroot
    · exact (Option.some.inj hroot).symm
    · cases hroot
  subst hfalse
  simp only [Bool.false_eq_true, if_false, hi, Option.bind_eq_bind, Option.bind_some, if_neg hdevice, hparent, hj,
    Option.bind_eq_some_iff] at hremove
  obtain ⟨s₁, hunlink, fs, hsimple, hs'⟩ := hremove
  obtain rfl := Option.some.inj hs'
  obtain ⟨f, -, hdelete⟩ := Option.bind_eq_some_iff.1 hunlink
  obtain ⟨hdentries, hinodes, hroot⟩ := delete_dentry_fs hdelete
  have hparent' : (s₁.fs.dentries.get d).d_parent = some p := by
    rw [hdentries]
    exact hparent
  exact ⟨s₁.fs, p, hmem, hdentries, hinodes, hroot, (simple_unlink_some hparent' hsimple).2⟩

/-- After a removal no cached dentry has the inode of the dentry removed. -/
theorem removal_leaks {path : Path} {e : Int} {fs : FS} (h : Kept s.fs)
    (hremove : OpenFiles.remove_dentry stray s path = some (s', e)) (hfound : select_file s.fs path 0 = some (fs, .ok d))
    (hne : d ≠ fs.root_dentry) :
    ∃ i < s'.fs.inodes.next, ∀ x, Cached s'.fs x → (s'.fs.dentries.get x).d_inode ≠ some i := by
  obtain ⟨⟨hwf, hsole, -⟩, -⟩ := kept_steps h (select_file_returned h.wf hfound).steps
  have hparented := select_file_parented h.wf hfound
  simp only [OpenFiles.remove_dentry, hfound, Option.bind_eq_bind, Option.bind_some, Option.bind_eq_some_iff] at hremove
  obtain ⟨s₁, hinner, hs'⟩ := hremove
  obtain ⟨rfl, -⟩ := Prod.mk.inj (Option.some.inj hs')
  obtain ⟨fs', p, hmem, hdentries, hinodes, hroot, hfs⟩ :=
    @remove_unhashed stray { s with fs } s₁ d hwf hsole hparented hne hinner
  have hmem : d ∈ (fs.dentries.get p).d_hash := hmem
  obtain ⟨i, hi, hlt, -⟩ := hwf.bound d (.inr ⟨p, hmem⟩)
  refine ⟨i, ?_, ?_⟩
  · rw [hfs]
    show i < fs'.inodes.next
    rw [hinodes]
    exact hlt
  · intro x hx hxi
    rw [hfs] at hx hxi
    rw [get_unhashed, hdentries] at hxi
    have hold : ∀ {y q}, y ∈ ((unhashed fs' p d).dentries.get q).d_hash → y ∈ (fs.dentries.get q).d_hash := by
      intro y q hy
      have hy := mem_hash_unhashed hy
      rw [hdentries] at hy
      exact hy
    have hxc : Cached fs x := hx.imp (fun heq => heq.trans hroot) fun ⟨q, hq⟩ => ⟨q, hold hq⟩
    obtain rfl : x = d := hsole.d_inode x d i hxc (.inr ⟨p, hmem⟩) hxi hi
    rcases hx with heq | ⟨q, hq⟩
    · exact hne (heq.trans hroot)
    · -- Its parent was the only one to list it.
      obtain rfl : q = p := Option.some.inj ((hwf.child q x (hold hq)).parent.symm.trans (hwf.child p x hmem).parent)
      rw [get_unhashed, if_pos rfl, hdentries] at hq
      exact (hsole.hash q).not_mem_erase hq

/-! ## Closing what is open -/

/-- An open file is closed. -/
def Closes (s s' : State) : Prop := ∃ file ∈ s.files, filp_close s file = some s'

theorem close_some (h : Counted s) (file : file) : ∃ s', filp_close s file = some s' := by
  simp only [filp_close, f_put, inode_put, if_neg (h.kept file.f_inode)]
  split <;> exact ⟨_, rfl⟩

/-- All files can be closed, and that changes nothing of the tree. -/
theorem close_all (h : Counted s) : ∃ s', Relation.ReflTransGen Closes s s' ∧ Counted s' ∧ s'.files = [] ∧ s'.fs = s.fs := by
  generalize hn : s.files.length = n
  induction n generalizing s with
  | zero => exact ⟨s, .refl, h, List.eq_nil_of_length_eq_zero hn, rfl⟩
  | succ n ih =>
    obtain ⟨file, files, hfiles⟩ := List.exists_cons_of_ne_nil (List.ne_nil_of_length_eq_add_one hn)
    have hmem : file ∈ s.files := by simp [hfiles]
    obtain ⟨s₁, hclose⟩ := close_some h file
    obtain ⟨hs₁, h₁⟩ := h.filp_close hmem hclose
    have hlen : s₁.files.length = n := by
      rw [hs₁]
      simp only [List.length_erase_of_mem hmem, hn, Nat.add_sub_cancel]
    obtain ⟨s', hclosed, h', hempty, hfs⟩ := ih h₁ hlen
    exact ⟨s', .head ⟨file, hmem, hclose⟩ hclosed, h', hempty, hfs.trans (by rw [hs₁])⟩

end

/-- After a call whose write, if it is one, stays in its page, open files survive
until they are closed, and their inodes are freed then, exactly when the call
removes nothing. -/
theorem files_survive_iff {stray : Bool} {junk : Nat → UInt8} {nul_harms : Name → Bool} {addr : Nat → UInt32}
    {s s' : State} {c : Call} (h : Reachable (· = boot nul_harms addr) (KeepStep stray junk) s) (hin : in_page s c)
    (hcall : call stray junk s c = some s') :
    (∀ s'', Relation.ReflTransGen Closes s' s'' → Survive s'') ↔ removes_nothing s c := by
  have hinv : Inv s := by
    refine h.inv Inv ?_ fun _ _ => Inv.step
    rintro _ rfl
    exact inv_boot _ _
  constructor
  · intro hsurvive
    by_contra hremoves
    cases c with
    | remove_dentry path =>
      simp only [removes_nothing, not_forall] at hremoves
      obtain ⟨fs, d, hfound, hne⟩ := hremoves
      obtain ⟨⟨s₁, e⟩, hremove, rfl⟩ := Option.map_eq_some_iff.1 hcall
      obtain ⟨i, hlt, hout⟩ := removal_leaks hinv.kept hremove hfound hne
      obtain ⟨s₂, hclosed, hcounted, hempty, hfs⟩ := close_all (hinv.counted.remove_dentry hremove)
      have hone := (hsurvive s₂ hclosed).inode_once i (by rw [hfs]; exact hlt)
      have hnoref : ¬InodeRef s₂ i := by
        rintro (⟨x, hx, hxi⟩ | ⟨file, hfile, -⟩)
        · rw [hfs] at hx hxi
          exact hout x hx hxi
        · simp [hempty] at hfile
      have hzero := List.count_eq_zero.2 (hcounted.kept i)
      have hcount := hone.2 hnoref
      omega
    | _ => exact hremoves trivial
  · intro hnothing s'' hclosed
    have hinv' : Inv s' := hinv.step ⟨c, hnothing, hin, hcall⟩
    have hclose : Inv s'' := by
      clear hnothing hin hcall
      induction hclosed with
      | refl => exact hinv'
      | tail _ hstep ih =>
        obtain ⟨file, hfile, hclose⟩ := hstep
        exact ih.filp_close hfile hclose
    exact hclose.survive

end McLinOS.OpenFiles
