import McLinOS.Fs.OpenFilesTheorems
import McLinOS.Fs.BuiltinFiles
/-!
# Files of the boot image stay as they are

VFS inodes are only added, and a page is only written or freed through the inode of
initramfs that it belongs to. `Touch` says what a call can do to inodes and pages;
what holds of a file of the image is preserved by each case of it.
-/
open CLib

namespace McLinOS.Builtin

open Fs
open Relation (ReflTransGen)
open OpenFiles (page file Object Call file_node file_node_eq new_page overlay access_end in_page O_RDWR)

/-! ## VFS inodes are only added -/

structure Extends (s s' : FS) : Prop where
  next : s.inodes.next ≤ s'.inodes.next
  same : ∀ i < s.inodes.next, s'.inodes.get i = s.inodes.get i

section Extends
variable {s s' s₁ : FS} {d i n f dir mode : Nat} {name : Name} {path : Path} {sb : Option Nat} {r : Except Int Nat}

theorem Extends.of_eq (h : s'.inodes = s.inodes) : Extends s s' :=
  ⟨Nat.le_of_eq (by rw [h]), fun i _ => by rw [h]⟩

theorem Extends.refl (s : FS) : Extends s s := .of_eq rfl

theorem Extends.trans (h : Extends s s₁) (h' : Extends s₁ s') : Extends s s' :=
  ⟨Nat.le_trans h.next h'.next, fun i hi => (h'.same i (Nat.lt_of_lt_of_le hi h.next)).trans (h.same i hi)⟩

theorem Extends.of_left (h : Extends s₁ s') (hinodes : s₁.inodes = s.inodes) : Extends s s' :=
  (Extends.of_eq hinodes).trans h

theorem d_alloc_extends (h : d_alloc s d name = some (s', n)) : Extends s s' := by
  obtain ⟨-, h⟩ := Option.ite_none_right_eq_some.1 h
  obtain ⟨rfl, -⟩ := Prod.mk.inj (Option.some.inj h)
  exact .of_eq rfl

theorem d_add_inodes (h : d_add s d i = some s') : s'.inodes = s.inodes := by
  unfold d_add at h
  split at h
  · cases h
  · obtain rfl := Option.some.inj h
    rfl

/-- The one place where a VFS inode is made. -/
theorem bind_dentry_extends (h : bind_dentry s d f n sb = some s') : Extends s s' := by
  have hinodes : s'.inodes = s.inodes.alloc _ := d_add_inodes h
  constructor
  · rw [hinodes, Pool.next_alloc]
    exact Nat.le_succ _
  · intro i hi
    rw [hinodes]
    exact Pool.get_alloc_lt hi _

theorem create_extends (h : initramfs_create s dir d mode = some s') : Extends s s' := by
  unfold initramfs_create at h
  dsimp only at h
  split at h <;> exact (bind_dentry_extends h).of_left rfl

theorem initramfs_mkdir_extends (h : initramfs_mkdir s dir d mode = some s') : Extends s s' := by
  unfold initramfs_mkdir at h
  dsimp only at h
  split at h <;> exact (bind_dentry_extends h).of_left rfl

theorem vfs_lookup_extends {found : Option Nat} (h : initramfs_vfs_lookup s dir d = some (s', found)) : Extends s s' := by
  unfold initramfs_vfs_lookup at h
  dsimp only at h
  split at h
  · obtain ⟨rfl, -⟩ := Prod.mk.inj (Option.some.inj h)
    exact .refl s
  · obtain ⟨s₁, hbind, h⟩ := Option.map_eq_some_iff.1 h
    obtain ⟨rfl, -⟩ := Prod.mk.inj h
    exact bind_dentry_extends hbind

theorem find_dentry_extends (h : find_dentry s d name = some (s', r)) : Extends s s' := by
  unfold find_dentry at h
  split at h
  · obtain ⟨rfl, -⟩ := Prod.mk.inj (Option.some.inj h)
    exact .refl s
  · obtain ⟨⟨s₁, son⟩, halloc, h⟩ := Option.bind_eq_some_iff.1 h
    obtain ⟨i, -, h⟩ := Option.bind_eq_some_iff.1 h
    obtain ⟨⟨s₂, found⟩, hlookup, h⟩ := Option.bind_eq_some_iff.1 h
    have hext := (d_alloc_extends halloc).trans (vfs_lookup_extends hlookup)
    cases found with
    | none =>
      obtain ⟨rfl, -⟩ := Prod.mk.inj (Option.some.inj h)
      exact hext
    | some found =>
      obtain ⟨rfl, -⟩ := Prod.mk.inj (Option.some.inj h)
      exact hext

theorem create_dentry_extends (h : create_dentry s d name mode = some (s', r)) : Extends s s' := by
  obtain ⟨⟨s₁, found⟩, hfind, h⟩ := Option.bind_eq_some_iff.1 h
  apply (find_dentry_extends hfind).trans
  cases found with
  | ok found =>
    obtain ⟨rfl, -⟩ := Prod.mk.inj (Option.some.inj h)
    exact .refl _
  | error e =>
    obtain ⟨⟨s₂, next⟩, halloc, h⟩ := Option.bind_eq_some_iff.1 h
    obtain ⟨i, -, h⟩ := Option.bind_eq_some_iff.1 h
    apply (d_alloc_extends halloc).trans
    split at h
    · obtain ⟨s₃, hcreate, h⟩ := Option.bind_eq_some_iff.1 h
      obtain ⟨rfl, -⟩ := Prod.mk.inj (Option.some.inj h)
      exact create_extends hcreate
    · split at h
      · obtain ⟨s₃, hmkdir, h⟩ := Option.bind_eq_some_iff.1 h
        obtain ⟨rfl, -⟩ := Prod.mk.inj (Option.some.inj h)
        exact initramfs_mkdir_extends hmkdir
      · obtain ⟨rfl, -⟩ := Prod.mk.inj (Option.some.inj h)
        exact .refl _

theorem select_from_extends {k : Nat} (h : select_from path s d i k = some (s', r)) : Extends s s' := by
  induction k generalizing s d i with
  | zero =>
    obtain ⟨rfl, -⟩ := Prod.mk.inj (Option.some.inj h)
    exact .refl s
  | succ k ih =>
    obtain ⟨name, -, h⟩ := Option.bind_eq_some_iff.1 h
    obtain ⟨⟨s₁, found⟩, hfind, h⟩ := Option.bind_eq_some_iff.1 h
    apply (find_dentry_extends hfind).trans
    cases found with
    | error e =>
      obtain ⟨rfl, -⟩ := Prod.mk.inj (Option.some.inj h)
      exact .refl _
    | ok found => exact ih h

theorem select_file_extends {offset : Nat} (h : select_file s path offset = some (s', r)) : Extends s s' := by
  unfold select_file at h
  split at h
  · obtain ⟨rfl, -⟩ := Prod.mk.inj (Option.some.inj h)
    exact .refl s
  · exact select_from_extends h

theorem create_new_dentry_extends (h : create_new_dentry s path mode = some (s', r)) : Extends s s' := by
  obtain ⟨⟨s₁, found⟩, hselect, h⟩ := Option.bind_eq_some_iff.1 h
  apply (select_file_extends hselect).trans
  cases found with
  | error e =>
    obtain ⟨rfl, -⟩ := Prod.mk.inj (Option.some.inj h)
    exact .refl _
  | ok found =>
    obtain ⟨i, -, h⟩ := Option.bind_eq_some_iff.1 h
    split at h
    · obtain ⟨rfl, -⟩ := Prod.mk.inj (Option.some.inj h)
      exact .refl _
    · obtain ⟨name, -, h⟩ := Option.bind_eq_some_iff.1 h
      exact create_dentry_extends h

theorem filp_open_extends {flags : Nat} (h : Fs.filp_open s path flags mode = some (s', r)) : Extends s s' := by
  obtain ⟨⟨s₁, found⟩, hselect, h⟩ := Option.bind_eq_some_iff.1 h
  apply (select_file_extends hselect).trans
  cases found with
  | ok found =>
    obtain ⟨rfl, -⟩ := Prod.mk.inj (Option.some.inj h)
    exact .refl _
  | error e =>
    dsimp only at h
    split at h
    · exact create_new_dentry_extends h
    · obtain ⟨rfl, -⟩ := Prod.mk.inj (Option.some.inj h)
      exact .refl _

theorem simple_unlink_extends {stray : Bool} (h : simple_unlink stray s d = some s') : Extends s s' := by
  unfold simple_unlink d_delete at h
  split at h
  · cases h
  · obtain ⟨-, h⟩ := Option.ite_none_right_eq_some.1 h
    obtain rfl := Option.some.inj h
    exact .of_eq rfl

end Extends

/-! ## What a call can do -/

/-- A change of inodes and pages: none, a new page for an inode without one, a write
to a page that can be written, or the page of a file that goes with the file. -/
inductive Touch (s s' : OpenFiles.State) : Prop
  | same (hfs : Extends s.fs s'.fs) (hpage : s'.i_page = s.i_page) (hsize : s'.size = s.size)
      (hro : s'.read_only = s.read_only) (hpages : s'.pages = s.pages) (hold : ∀ o ∈ s.freed, o ∈ s'.freed)
      (hnew : ∀ q, Object.page q ∈ s'.freed → Object.page q ∈ s.freed)
  | made (m size : Nat) (data : Nat → UInt8) (ro : Nat → Bool) (hm : s.i_page m = none)
      (hro : ∀ l, l ≠ m → ro l = s.read_only l)
      (hs' : s' = { new_page s m size data with read_only := ro, content := s'.content })
  | stored (m q : Nat) (f : page → page) (hm : s.i_page m = some q) (hro : s.read_only m = false)
      (hs' : s' = { s with pages := s.pages.modify q f, content := s'.content })
  | put (m q : Nat) (f : page → page) (hm : s.i_page m = some q) (hgone : .node m ∈ s'.freed)
      (hold : ∀ o ∈ s.freed, o ∈ s'.freed) (hnew : ∀ r, Object.page r ∈ s'.freed → Object.page r ∈ s.freed ∨ r = q)
      (hs' : s' = { s with pages := s.pages.modify q f, freed := s'.freed })

/-- Pages are the ones that were made. -/
structure Paged (s : OpenFiles.State) : Prop where
  i_page : ∀ m q, s.i_page m = some q → q < s.pages.next
  freed : ∀ q, .page q ∈ s.freed → q < s.pages.next

/-- The page `p` of the inode `n` of initramfs, which the VFS inode `i` leads to, holds
`filedata` and belongs to nothing else. -/
structure Attached (i n p : Nat) (filedata : List UInt8) (s : OpenFiles.State) : Prop where
  lt : i < s.fs.inodes.next
  inode : (s.fs.inodes.get i).i_private = n
  i_page : s.i_page n = some p
  own : ∀ m, s.i_page m = some p → m = n
  there : .page p ∉ s.freed
  size : s.size n = filedata.length
  read_only : s.read_only n = true
  data : ∀ k b, filedata[k]? = some b → (s.pages.get p).data k = b

section Touch
variable {s s' : OpenFiles.State} {i n p : Nat} {filedata : List UInt8}

theorem Touch.of_fs {fs : FS} (h : Extends s.fs fs) : Touch s { s with fs } :=
  .same h rfl rfl rfl rfl (fun _ => id) fun _ => id

theorem Touch.freed (h : Touch s s') {o : Object} (ho : o ∈ s.freed) : o ∈ s'.freed := by
  cases h with
  | same _ _ _ _ _ hold => exact hold o ho
  | made m size data ro hm hro hs' =>
    rw [hs']
    exact ho
  | stored m q f hm hro hs' =>
    rw [hs']
    exact ho
  | put m q f hm hgone hold => exact hold o ho

theorem Paged.touch (h : Paged s) (ht : Touch s s') : Paged s' := by
  cases ht with
  | same hfs hpage hsize hro hpages hold hnew =>
    constructor
    · rw [hpage, hpages]
      exact h.i_page
    · intro q hq
      rw [hpages]
      exact h.freed q (hnew q hq)
  | made m size data ro hm hro hs' =>
    rw [hs']
    constructor
    · intro l q hq
      simp only [new_page, Function.update_apply] at hq
      split at hq
      · obtain rfl := Option.some.inj hq
        exact Nat.lt_succ_self _
      · exact Nat.lt_succ_of_lt (h.i_page l q hq)
    · exact fun q hq => Nat.lt_succ_of_lt (h.freed q hq)
  | stored m q f hm hro hs' =>
    rw [hs']
    exact ⟨h.i_page, h.freed⟩
  | put m q f hm hgone hold hnew hs' =>
    refine ⟨?_, ?_⟩
    · rw [hs']
      exact h.i_page
    · intro r hr
      have hlt : r < s.pages.next := by
        rcases hnew r hr with hr | rfl
        · exact h.freed r hr
        · exact h.i_page m r hm
      rw [hs']
      exact hlt

/-- The file stays as it is unless it is removed. -/
theorem Attached.touch (h : Attached i n p filedata s) (hp : Paged s) (ht : Touch s s') (hn : .node n ∉ s'.freed) :
    Attached i n p filedata s' := by
  cases ht with
  | same hfs hpage hsize hro hpages hold hnew =>
    refine ⟨Nat.lt_of_lt_of_le h.lt hfs.next, ?_, ?_, ?_, fun hfreed => h.there (hnew p hfreed), ?_, ?_, ?_⟩
    · rw [hfs.same i h.lt, h.inode]
    · rw [hpage, h.i_page]
    · rw [hpage]
      exact h.own
    · rw [hsize, h.size]
    · rw [hro, h.read_only]
    · rw [hpages]
      exact h.data
  | made m size data ro hm hro hs' =>
    -- The file has its page already, and that is not the new one.
    have hmn : n ≠ m := by
      rintro rfl
      exact absurd (h.i_page.symm.trans hm) (by simp)
    have hpage : p ≠ s.pages.next := Nat.ne_of_lt (hp.i_page n p h.i_page)
    rw [hs']
    refine ⟨h.lt, h.inode, ?_, ?_, h.there, ?_, ?_, ?_⟩
    · simp only [new_page, Function.update_apply, if_neg hmn, h.i_page]
    · intro l hl
      simp only [new_page, Function.update_apply] at hl
      split at hl
      · exact absurd (Option.some.inj hl).symm hpage
      · exact h.own l hl
    · simp only [new_page, Function.update_apply, if_neg hmn, h.size]
    · exact (hro n hmn).trans h.read_only
    · intro k b hb
      simp only [new_page, Pool.get_modify_ne hpage, Pool.get_alloc, if_neg hpage]
      exact h.data k b hb
  | stored m q f hm hro hs' =>
    -- The page of a file that can be written is another one.
    have hpq : p ≠ q := by
      rintro rfl
      obtain rfl := h.own m hm
      exact absurd (h.read_only.symm.trans hro) (by simp)
    rw [hs']
    refine ⟨h.lt, h.inode, h.i_page, h.own, h.there, h.size, h.read_only, fun k b hb => ?_⟩
    simp only [Pool.get_modify_ne hpq]
    exact h.data k b hb
  | put m q f hm hgone hold hnew hs' =>
    -- So is the page of a file that is removed.
    have hpq : p ≠ q := by
      rintro rfl
      obtain rfl := h.own m hm
      exact hn hgone
    have hthere : .page p ∉ s'.freed := fun hfreed => (hnew p hfreed).elim h.there hpq
    rw [hs']
    refine ⟨h.lt, h.inode, h.i_page, h.own, hthere, h.size, h.read_only, fun k b hb => ?_⟩
    simp only [Pool.get_modify_ne hpq]
    exact h.data k b hb

theorem freed_mono (h : ReflTransGen Touch s s') {o : Object} (ho : o ∈ s.freed) : o ∈ s'.freed := by
  induction h with
  | refl => exact ho
  | tail _ ht ih => exact ht.freed ih

theorem Paged.touches (h : Paged s) (ht : ReflTransGen Touch s s') : Paged s' := by
  induction ht with
  | refl => exact h
  | tail _ ht ih => exact ih.touch ht

theorem Attached.touches (h : Attached i n p filedata s) (hp : Paged s) (ht : ReflTransGen Touch s s')
    (hn : .node n ∉ s'.freed) : Attached i n p filedata s' := by
  induction ht with
  | refl => exact h
  | tail hs ht ih => exact (ih fun hfreed => hn (ht.freed hfreed)).touch (hp.touches hs) ht hn

end Touch

/-! ## Each call -/

section Calls
variable {stray : Bool} {junk : Nat → UInt8} {s s' : OpenFiles.State} {file : file} {buf : List UInt8} {pos e : Int}

/-- The page that a write makes. -/
theorem touch_with_page (junk : Nat → UInt8) (s : OpenFiles.State) (n : Nat) :
    ReflTransGen Touch s (OpenFiles.with_page junk s n) := by
  unfold OpenFiles.with_page
  split
  · rename_i hnone
    exact .single (.made n OpenFiles.PAGE_SIZE junk s.read_only hnone (fun _ _ => rfl) rfl)
  · exact .refl

theorem touch_write {alloc_page : Bool} (hin : in_page s (.kernel_write alloc_page file buf pos))
    (h : OpenFiles.kernel_write junk alloc_page s file buf pos = some (s', e)) : ReflTransGen Touch s s' := by
  have hpage := touch_with_page junk s (s.fs.inodes.get file.f_inode).i_private
  cases OpenFiles.kernel_write_written h with
  | nothing => exact .refl
  | paged hro => exact hpage
  | before p hro hnone =>
    obtain rfl := hnone hin
    exact hpage
  | stored p hro hp hend =>
    rw [← OpenFiles.with_page_read_only junk] at hro
    exact hpage.tail (.stored _ p (fun x => { x with data := overlay x.data pos.toNat buf }) hp hro rfl)

/-- Whatever bytes a write hits, it gives no page away. -/
theorem Paged.write {alloc_page : Bool} (hs : Paged s)
    (h : OpenFiles.kernel_write junk alloc_page s file buf pos = some (s', e)) : Paged s' := by
  have hpage := hs.touches (touch_with_page junk s (s.fs.inodes.get file.f_inode).i_private)
  cases OpenFiles.kernel_write_written h with
  | nothing => exact hs
  | paged => exact hpage
  | before => exact ⟨hpage.i_page, hpage.freed⟩
  | stored => exact ⟨hpage.i_page, hpage.freed⟩

theorem touch_attach {i : Nat} {filedata : List UInt8} (h : OpenFiles.initram_fs_mount_file junk s i filedata = some s') :
    ReflTransGen Touch s s' := by
  obtain ⟨n, -, h⟩ := Option.bind_eq_some_iff.1 h
  split at h
  · obtain rfl := Option.some.inj h
    exact .refl
  · rename_i hnone
    obtain rfl := Option.some.inj h
    exact .single (.made n filedata.length (overlay junk 0 filedata) _ (not_not.1 hnone)
      (fun l hl => Function.update_of_ne hl _ _) rfl)

theorem touch_open {path : Path} {flags mode : Nat} {r : Except Int OpenFiles.file}
    (h : OpenFiles.filp_open s path flags mode = some (s', r)) : ReflTransGen Touch s s' := by
  obtain ⟨⟨fs, found⟩, hopen, h⟩ := Option.bind_eq_some_iff.1 h
  have hfs : ReflTransGen Touch s { s with fs } := .single (.of_fs (filp_open_extends hopen))
  cases found with
  | error e =>
    obtain ⟨rfl, -⟩ := Prod.mk.inj (Option.some.inj h)
    exact hfs
  | ok d =>
    obtain ⟨⟨s₁, f⟩, hget, h⟩ := Option.bind_eq_some_iff.1 h
    obtain ⟨rfl, -⟩ := Prod.mk.inj (Option.some.inj h)
    obtain ⟨i, -, hget⟩ := Option.bind_eq_some_iff.1 hget
    obtain ⟨s₂, hcount, hget⟩ := Option.bind_eq_some_iff.1 hget
    obtain ⟨rfl, -⟩ := Prod.mk.inj (Option.some.inj hget)
    obtain ⟨-, hcount⟩ := Option.ite_none_left_eq_some.1 hcount
    obtain rfl := Option.some.inj hcount
    exact hfs.tail (.same (.refl fs) rfl rfl rfl rfl (fun _ => id) fun _ => id)

theorem touch_close (h : OpenFiles.filp_close s file = some s') : Touch s s' := by
  obtain ⟨s₁, hput, rfl⟩ := Option.map_eq_some_iff.1 h
  obtain ⟨-, hput⟩ := Option.ite_none_left_eq_some.1 hput
  dsimp only at hput
  split at hput
  · obtain rfl := Option.some.inj hput
    exact .same (.refl _) rfl rfl rfl rfl (fun o => List.mem_cons_of_mem _) fun q hq => by simpa using hq
  · obtain rfl := Option.some.inj hput
    exact .same (.refl _) rfl rfl rfl rfl (fun _ => id) fun _ => id

/-- The inode of a file that is removed goes with its page. -/
theorem touch_inode_put {n : Nat} (h : OpenFiles.initramfs_inode_put s n = some s') : Touch s s' := by
  unfold OpenFiles.initramfs_inode_put at h
  cases hpage : s.i_page n with
  | none =>
    simp only [hpage, Option.bind_eq_bind, Option.bind_some, Option.some.injEq] at h
    subst h
    exact .same (.refl _) rfl rfl rfl rfl (fun o => List.mem_cons_of_mem _) fun q hq => by simpa using hq
  | some q =>
    simp only [hpage, Option.bind_eq_bind, Option.bind_eq_some_iff] at h
    obtain ⟨s₁, hput, h⟩ := h
    obtain rfl := Option.some.inj h
    obtain ⟨-, hput⟩ := Option.ite_none_left_eq_some.1 hput
    dsimp only at hput
    split at hput
    · obtain rfl := Option.some.inj hput
      refine .put n q (fun x => { x with refcount := x.refcount - 1 }) hpage List.mem_cons_self (fun o ho => ?_)
        (fun r hr => ?_) rfl
      · exact List.mem_cons_of_mem _ (List.mem_cons_of_mem _ ho)
      · simpa [or_comm] using hr
    · obtain rfl := Option.some.inj hput
      exact .put n q (fun x => { x with refcount := x.refcount - 1 }) hpage List.mem_cons_self
        (fun o => List.mem_cons_of_mem _) (fun r hr => .inl (by simpa using hr)) rfl

theorem touch_delete {n f : Nat} (h : OpenFiles.initramfs_delete_dentry s n f = some s') : ReflTransGen Touch s s' := by
  obtain ⟨-, h⟩ := Option.ite_none_left_eq_some.1 h
  split at h
  · obtain rfl := Option.some.inj h
    exact .refl
  · obtain ⟨-, h⟩ := Option.ite_none_left_eq_some.1 h
    dsimp only at h
    split at h
    · refine .head ?_ (.single (touch_inode_put h))
      exact .of_fs (.of_eq rfl)
    · obtain rfl := Option.some.inj h
      exact .single (.of_fs (.of_eq rfl))

theorem touch_remove {path : Path} (h : OpenFiles.remove_dentry stray s path = some (s', e)) : ReflTransGen Touch s s' := by
  obtain ⟨⟨fs, found⟩, hselect, h⟩ := Option.bind_eq_some_iff.1 h
  have hfs : ReflTransGen Touch s { s with fs } := .single (.of_fs (select_file_extends hselect))
  cases found with
  | error e =>
    obtain ⟨rfl, -⟩ := Prod.mk.inj (Option.some.inj h)
    exact hfs
  | ok d =>
    obtain ⟨s₁, hinner, h⟩ := Option.bind_eq_some_iff.1 h
    obtain ⟨rfl, -⟩ := Prod.mk.inj (Option.some.inj h)
    apply hfs.trans
    obtain ⟨root, -, hinner⟩ := Option.bind_eq_some_iff.1 hinner
    split at hinner
    · exact Option.some.inj hinner ▸ .refl
    · obtain ⟨i, -, hinner⟩ := Option.bind_eq_some_iff.1 hinner
      dsimp only at hinner
      split at hinner
      · exact Option.some.inj hinner ▸ .refl
      · simp only [Option.bind_eq_bind, Option.bind_eq_some_iff] at hinner
        obtain ⟨p, -, j, -, s₂, hunlink, fs₂, hsimple, hs₁⟩ := hinner
        obtain rfl := Option.some.inj hs₁
        obtain ⟨f, -, hdelete⟩ := Option.bind_eq_some_iff.1 hunlink
        exact (touch_delete hdelete).tail (.of_fs (simple_unlink_extends hsimple))

theorem touch_mountfile {path : Path} {filedata : List UInt8}
    (h : OpenFiles.mountfile_to_initramfs junk s path filedata = some s') : ReflTransGen Touch s s' := by
  obtain ⟨⟨fs, found⟩, hselect, h⟩ := Option.bind_eq_some_iff.1 h
  have hfs : ReflTransGen Touch s { s with fs } := .single (.of_fs (select_file_extends hselect))
  cases found with
  | error e =>
    obtain rfl := Option.some.inj h
    exact hfs
  | ok d =>
    obtain ⟨i, -, h⟩ := Option.bind_eq_some_iff.1 h
    exact hfs.trans (touch_attach h)

/-- What is done to inodes and pages in one call. -/
theorem touch_call {c : Call} (hin : in_page s c) (h : OpenFiles.call stray junk s c = some s') :
    ReflTransGen Touch s s' := by
  cases c with
  | mkdir path mode =>
    obtain ⟨r, hmkdir, rfl⟩ := Option.map_eq_some_iff.1 h
    exact .single (.of_fs (create_new_dentry_extends hmkdir))
  | mount_file path filedata =>
    exact touch_mountfile (OpenFiles.mount_file_call h).2
  | filp_open path flags mode =>
    obtain ⟨r, hopen, rfl⟩ := Option.map_eq_some_iff.1 h
    exact touch_open hopen
  | kernel_read before file count pos =>
    rw [OpenFiles.kernel_read_call h]
  | kernel_write alloc_page file buf pos =>
    obtain ⟨-, e, hwrite⟩ := OpenFiles.kernel_write_call h
    exact touch_write hin hwrite
  | filp_close file =>
    exact .single (touch_close (OpenFiles.filp_close_call h).2)
  | remove_dentry path =>
    obtain ⟨r, hremove, rfl⟩ := Option.map_eq_some_iff.1 h
    exact touch_remove hremove

theorem Paged.call {c : Call} (hs : Paged s) (h : OpenFiles.call stray junk s c = some s') : Paged s' := by
  cases c with
  | kernel_write alloc_page file buf pos =>
    obtain ⟨-, e, hwrite⟩ := OpenFiles.kernel_write_call h
    exact hs.write hwrite
  | _ => exact hs.touches (touch_call (by trivial) h)

end Calls

/-! ## The calls of the open files -/

section Files
variable {stray : Bool} {junk : Nat → UInt8} {kmalloc : Bool} {s s' : State} {c : Call} {i : Nat}
  {path : Path} {filedata : List UInt8}

/-- An attach that comes to an end. -/
theorem attach_files (h : initram_fs_mount_file junk kmalloc s i filedata = some s') :
    OpenFiles.initram_fs_mount_file junk s.files i filedata = some s'.files := by
  obtain ⟨n, hn, h⟩ := Option.bind_eq_some_iff.1 h
  split at h
  · rename_i hpage
    obtain rfl := Option.some.inj h
    simp only [OpenFiles.initram_fs_mount_file, hn, Option.bind_eq_bind, Option.bind_some, if_pos hpage]
  · obtain ⟨-, h⟩ := Option.ite_none_right_eq_some.1 h
    obtain ⟨files, hfiles, h⟩ := Option.bind_eq_some_iff.1 h
    obtain rfl := Option.some.inj h
    exact hfiles

theorem mountfile_files (h : mountfile_to_initramfs junk kmalloc s path filedata = some s') :
    OpenFiles.mountfile_to_initramfs junk s.files path filedata = some s'.files := by
  obtain ⟨⟨fs, found⟩, hselect, h⟩ := Option.bind_eq_some_iff.1 h
  rw [OpenFiles.mountfile_to_initramfs, hselect, Option.bind_eq_bind, Option.bind_some]
  cases found with
  | error e =>
    obtain rfl := Option.some.inj h
    rfl
  | ok d =>
    obtain ⟨i, hi, h⟩ := Option.bind_eq_some_iff.1 h
    dsimp only at hi ⊢
    rw [hi, Option.bind_eq_bind, Option.bind_some]
    exact attach_files h

/-- A call is one of the open files. -/
theorem call_files (h : call stray junk kmalloc s c = some s') :
    OpenFiles.call stray junk s.files c = some s'.files := by
  cases c with
  | mount_file path filedata =>
    obtain ⟨hlen, h⟩ := Option.ite_none_right_eq_some.1 h
    rw [OpenFiles.call, if_pos hlen]
    exact mountfile_files h
  | _ =>
    obtain ⟨files, hcall, rfl⟩ := Option.map_eq_some_iff.1 h
    exact hcall

end Files

/-! ## What is known of every state -/

section Runs
variable {stray : Bool} {junk : Nat → UInt8} {kmalloc : Bool} {s s' : State} {c : Call}
  {i n p : Nat} {filedata : List UInt8}

structure Sound (s : OpenFiles.State) : Prop where
  counted : OpenFiles.Counted s
  paged : Paged s

theorem Sound.call (h : Sound s.files) (hcall : call stray junk kmalloc s c = some s') : Sound s'.files :=
  ⟨h.counted.step ⟨c, call_files hcall⟩, h.paged.call (call_files hcall)⟩

theorem after_i_size (files : OpenFiles.State) (hi : i < s.files.fs.inodes.next) : (s.after files).i_size i = s.i_size i :=
  if_pos hi

/-- An inode whose file has a page is not given another length. -/
theorem attach_i_size {j : Nat} (h : initram_fs_mount_file junk kmalloc s j filedata = some s')
    (hpage : s.files.i_page (s.files.fs.inodes.get i).i_private ≠ none) : s'.i_size i = s.i_size i := by
  obtain ⟨n, hn, h⟩ := Option.bind_eq_some_iff.1 h
  split at h
  · obtain rfl := Option.some.inj h
    rfl
  · rename_i hnone
    obtain ⟨-, h⟩ := Option.ite_none_right_eq_some.1 h
    obtain ⟨files, -, h⟩ := Option.bind_eq_some_iff.1 h
    obtain rfl := Option.some.inj h
    -- The inode that is given the length had no page.
    refine Function.update_of_ne ?_ _ _
    rintro rfl
    exact hpage (file_node_eq hn ▸ not_not.1 hnone)

theorem i_size_kept (h : call stray junk kmalloc s c = some s') (hi : i < s.files.fs.inodes.next)
    (hpage : s.files.i_page (s.files.fs.inodes.get i).i_private ≠ none) : s'.i_size i = s.i_size i := by
  have hafter : ∀ r : Option OpenFiles.State, r.map s.after = some s' → s'.i_size i = s.i_size i := by
    intro r hr
    obtain ⟨files, -, rfl⟩ := Option.map_eq_some_iff.1 hr
    exact after_i_size files hi
  cases c with
  | mount_file path filedata =>
    obtain ⟨-, h⟩ := Option.ite_none_right_eq_some.1 h
    obtain ⟨⟨fs, found⟩, hselect, h⟩ := Option.bind_eq_some_iff.1 h
    cases found with
    | error e =>
      obtain rfl := Option.some.inj h
      exact after_i_size _ hi
    | ok d =>
      obtain ⟨j, -, h⟩ := Option.bind_eq_some_iff.1 h
      have hinode : fs.inodes.get i = s.files.fs.inodes.get i := (select_file_extends hselect).same i hi
      rw [attach_i_size h (by rw [State.after, hinode]; exact hpage)]
      exact after_i_size _ hi
  | _ => exact hafter _ h

/-! ## A file of the image -/

structure Image (i n p : Nat) (filedata : List UInt8) (s : State) : Prop where
  sound : Sound s.files
  attached : Attached i n p filedata s.files
  i_size : s.i_size i = filedata.length

theorem Image.call (h : Image i n p filedata s) (hin : in_page s.files c)
    (hcall : call stray junk kmalloc s c = some s') (hn : .node n ∉ s'.files.freed) : Image i n p filedata s' := by
  refine ⟨h.sound.call hcall, h.attached.touches h.sound.paged (touch_call hin (call_files hcall)) hn, ?_⟩
  rw [i_size_kept hcall h.attached.lt, h.i_size]
  rw [h.attached.inode, h.attached.i_page]
  exact Option.some_ne_none p

theorem Image.run (h : Image i n p filedata s) (hrun : ReflTransGen (InPageStep stray junk) s s')
    (hn : .node n ∉ s'.files.freed) : Image i n p filedata s' := by
  induction hrun with
  | refl => exact h
  | tail _ hstep ih =>
    obtain ⟨kmalloc, c, hin, hcall⟩ := hstep
    exact (ih fun hfreed => hn (freed_mono (touch_call hin (call_files hcall)) hfreed)).call hin hcall hn

section Kept
variable (h : Image i n p filedata s) (hn : Object.node n ∉ s.files.freed)
include h hn

theorem Image.file_node {file : file} (hfile : (s.files.fs.inodes.get file.f_inode).i_private = n) :
    file_node s.files file = some n := by
  have hnode : .node (s.files.fs.inodes.get file.f_inode).i_private ∉ s.files.freed := by
    rw [hfile]
    exact hn
  rw [OpenFiles.file_node, if_neg (h.sound.counted.kept _), if_neg hnode, hfile]

/-- A read gets what is asked for of the image, or nothing. -/
theorem Image.reads {file : file} (hfile : (s.files.fs.inodes.get file.f_inode).i_private = n) {count pos : Nat}
    (hcount : count < 2 ^ 32) (hpos : pos < 2 ^ 62) (before : Int → UInt8) :
    OpenFiles.kernel_read before s.files file count pos = some (image_read filedata count pos) := by
  have hend : access_end pos count = some ((pos : Int) + count) := by rw [access_end, if_neg (by omega)]
  rw [OpenFiles.kernel_read, h.file_node hn hfile, Option.bind_eq_bind, Option.bind_some]
  simp only [h.attached.i_page, hend, Option.bind_eq_bind, Option.bind_some, h.attached.size, if_neg h.attached.there]
  by_cases hfits : pos + count ≤ filedata.length
  · rw [if_neg (by omega), image_read, if_pos hfits]
    refine congrArg (fun data => some ((count : Int), data)) (List.ext_getElem ?_ fun k hk hk' => ?_)
    · rw [List.length_map, List.length_range, List.length_take, List.length_drop]
      omega
    · have hlt : k < count := by simpa using hk
      rw [List.getElem_map, List.getElem_range, List.getElem_take, List.getElem_drop, if_neg (by omega),
        ← Int.natCast_add, Int.toNat_natCast]
      exact h.attached.data _ _ (List.getElem?_eq_getElem _)
  · rw [if_pos (by omega), image_read, if_neg hfits]

theorem Image.writes {file : file} (hfile : (s.files.fs.inodes.get file.f_inode).i_private = n) (alloc_page : Bool)
    (buf : List UInt8) (pos : Int) :
    ∃ ret, OpenFiles.kernel_write junk alloc_page s.files file buf pos = some (s.files, ret) := by
  unfold OpenFiles.kernel_write
  split
  · exact ⟨_, rfl⟩
  · rw [h.file_node hn hfile, Option.bind_eq_bind, Option.bind_some, if_pos h.attached.read_only]
    exact ⟨_, rfl⟩

theorem Image.mount {j : Nat} (hj : (s.files.fs.inodes.get j).i_private = n) (kmalloc : Bool) (other : List UInt8) :
    initram_fs_mount_file junk kmalloc s j other = some s := by
  have hpage : s.files.i_page n ≠ none := by
    rw [h.attached.i_page]
    exact Option.some_ne_none p
  rw [initram_fs_mount_file, h.file_node hn hj, Option.bind_eq_bind, Option.bind_some, if_pos hpage]

theorem Image.holds : Holds junk i n filedata s where
  inode := h.attached.inode
  bytes := ⟨p, h.attached.i_page, h.attached.there, h.attached.data⟩
  length := ⟨h.attached.size, h.i_size⟩
  reads _ hfile _ _ hcount hpos before := h.reads hn hfile hcount hpos before
  writes _ hfile alloc_page buf pos := h.writes hn hfile alloc_page buf pos
  mount _ hj kmalloc other := h.mount hn hj kmalloc other

end Kept

end Runs

/-- A file that is there and has no page is attached as soon as there is memory for
the `struct page`. -/
theorem attaches_iff {junk : Nat → UInt8} {kmalloc : Bool} {s : State} {i n : Nat} {filedata : List UInt8}
    (hnode : file_node s.files ⟨i, 0⟩ = some n) (hnone : s.files.i_page n = none) :
    (∃ s₀, initram_fs_mount_file junk kmalloc s i filedata = some s₀) ↔ kmalloc = true := by
  rw [initram_fs_mount_file, OpenFiles.initram_fs_mount_file, hnode, Option.bind_eq_bind, Option.bind_some,
    if_neg (not_not.2 hnone)]
  cases kmalloc with
  | false => exact iff_of_false (by simp) (by simp)
  | true =>
    rw [if_pos rfl, Option.bind_eq_bind, Option.bind_eq_bind, Option.bind_some, if_neg (not_not.2 hnone)]
    exact iff_of_true ⟨_, rfl⟩ rfl

end McLinOS.Builtin
