import McLinOS.Fs.MakeFile
/-!
# Where the VFS shows the tree

A run that makes no directory refines the directory tree. A directory that is
made is a regular file to initramfs and an alias of its parent to the VFS.
-/
open CLib

namespace McLinOS.Fs

section
variable {s : FS} {es : List Entry}

/-! ## Creating a file -/

/-- The objects that `create_dentry` makes for a new file in the root. -/
def new_entry (s : FS) (name : Name) (mode : Nat) : Entry :=
  { name, mode, dentry := s.dentries.next, inode := s.inodes.next, file := s.initramfs_dentries.next,
    node := s.initramfs_inodes.next }

/-- The state with them. -/
def created (s : FS) (name : Name) (mode : Nat) : FS :=
  { s with
    initramfs_inodes := (s.initramfs_inodes.alloc { i_mode := mode, dentry_count := 1, dentry_list_head := [] }).modify 0
      fun i => { i with dentry_list_head := s.initramfs_dentries.next :: i.dentry_list_head }
    initramfs_dentries := s.initramfs_dentries.alloc { name, target_inode := s.initramfs_inodes.next }
    inodes := s.inodes.alloc { i_mode := mode, i_sb := none, i_private := s.initramfs_inodes.next }
    dentries := (s.dentries.alloc { new_dentry 0 name none with
      d_inode := some s.inodes.next, d_fsdata := some s.initramfs_dentries.next }).modify 0
        fun d => { d with d_hash := s.dentries.next :: d.d_hash } }

/-- In the root nothing is found under a name that no entry has. -/
theorem Flat.missing (h : Flat s es) {name : Name} (hno : ∀ e ∈ es, e.name ≠ name) :
    (s.inodes.get 0).i_private < s.initramfs_inodes.next ∧
      initramfs_lookup s (s.inodes.get 0).i_private name = none := by
  rw [h.inode_eq]
  refine ⟨h.pos.2.2.2, ?_⟩
  rw [h.lookup, find?_none hno, Option.map_none]

/-- `initramfs_create` for a file in the root that is not there yet. -/
theorem Flat.create (h : Flat s es) {name : Name} (hno : ∀ e ∈ es, e.name ≠ name) (mode : Nat) :
    initramfs_create (dropped s 0 name) 0 s.dentries.next mode = some (created s name mode) := by
  obtain ⟨hn, hnone⟩ := h.missing hno
  have hmode : ∀ f : initramfs_inode → initramfs_inode, ∀ i : initramfs_inode,
      ((s.initramfs_inodes.alloc i).modify 0 f).get s.initramfs_inodes.next = i := by
    intro f i
    rw [Pool.get_modify_ne (Nat.ne_of_gt h.pos.2.2.2)]
    exact Pool.get_alloc_next _ _
  rw [create_in 0 hn hnone, made_in, created, looked_up, h.inode_eq]
  dsimp only
  rw [hmode]
  rfl

theorem EntryOk.created {e : Entry} (h : EntryOk s e) (name : Name) (mode : Nat) : EntryOk (created s name mode) e where
  dentry_eq := by
    dsimp only [Fs.created, new_entry]
    rw [Pool.get_modify_ne (Nat.ne_of_gt h.dentry_lt.1), Pool.get_alloc_lt h.dentry_lt.2, h.dentry_eq]
  inode_eq := by
    dsimp only [Fs.created, new_entry]
    rw [Pool.get_alloc_lt h.inode_lt.2, h.inode_eq]
  file_eq := by
    dsimp only [Fs.created, new_entry]
    rw [Pool.get_alloc_lt h.file_lt.2, h.file_eq]
  node_eq := by
    dsimp only [Fs.created, new_entry]
    rw [Pool.get_modify_ne (Nat.ne_of_gt h.node_lt.1), Pool.get_alloc_lt h.node_lt.2, h.node_eq]
  regular := h.regular
  named := h.named
  dentry_lt := ⟨h.dentry_lt.1, Nat.lt_succ_of_lt h.dentry_lt.2⟩
  inode_lt := ⟨h.inode_lt.1, Nat.lt_succ_of_lt h.inode_lt.2⟩
  file_lt := ⟨h.file_lt.1, Nat.lt_succ_of_lt h.file_lt.2⟩
  node_lt := ⟨h.node_lt.1, Nat.lt_succ_of_lt h.node_lt.2⟩

theorem new_entry_ok (h : Flat s es) {name : Name} (hfit : s.fits name = true) {mode : Nat} (hmode : mode &&& S_IFMT = S_IFREG) :
    EntryOk (created s name mode) (new_entry s name mode) where
  dentry_eq := by
    dsimp only [Fs.created, new_entry]
    rw [Pool.get_modify_ne (Nat.ne_of_gt h.pos.1), Pool.get_alloc_next]
    rfl
  inode_eq := Pool.get_alloc_next _ _
  file_eq := Pool.get_alloc_next _ _
  node_eq := by
    dsimp only [Fs.created, new_entry]
    rw [Pool.get_modify_ne (Nat.ne_of_gt h.pos.2.2.2), Pool.get_alloc_next]
  regular := hmode
  named := hfit
  dentry_lt := ⟨h.pos.1, Nat.lt_succ_self _⟩
  inode_lt := ⟨h.pos.2.1, Nat.lt_succ_self _⟩
  file_lt := ⟨h.pos.2.2.1, Nat.lt_succ_self _⟩
  node_lt := ⟨h.pos.2.2.2, Nat.lt_succ_self _⟩

theorem flat_created (h : Flat s es) {name : Name} (hfit : s.fits name = true) (hno : ∀ e ∈ es, e.name ≠ name) {mode : Nat}
    (hmode : mode &&& S_IFMT = S_IFREG) : Flat (created s name mode) (new_entry s name mode :: es) where
  root_dentry := h.root_dentry
  super := h.super
  dentry_eq := by
    dsimp only [Fs.created, new_entry]
    rw [Pool.get_modify, if_pos rfl, Pool.get_alloc_lt h.pos.1, h.dentry_eq]
    rfl
  inode_eq := by
    dsimp only [Fs.created, new_entry]
    rw [Pool.get_alloc_lt h.pos.2.1, h.inode_eq]
  file_eq := by
    dsimp only [Fs.created, new_entry]
    rw [Pool.get_alloc_lt h.pos.2.2.1, h.file_eq]
  node_eq := by
    dsimp only [Fs.created, new_entry]
    rw [Pool.get_modify, if_pos rfl, Pool.get_alloc_lt h.pos.2.2.2, h.node_eq]
    rfl
  pos := ⟨Nat.succ_pos _, Nat.succ_pos _, Nat.succ_pos _, Nat.succ_pos _⟩
  entries := List.forall_mem_cons.2 ⟨new_entry_ok h hfit hmode, fun e he => (h.entries e he).created name mode⟩
  apart := by
    refine List.pairwise_cons.2 ⟨fun e he => ?_, h.apart⟩
    have hok := h.entries e he
    exact ⟨(hno e he).symm, Nat.ne_of_gt hok.dentry_lt.2, Nat.ne_of_gt hok.file_lt.2, Nat.ne_of_gt hok.node_lt.2⟩

theorem d_alloc_root (s : FS) {name : Name} (hfit : s.fits name = true) :
    d_alloc s 0 name = some (dropped s 0 name, s.dentries.next) := by
  rw [d_alloc, if_pos hfit]
  rfl

/-- A new file in the root directory. -/
theorem Flat.create_dentry (h : Flat s es) {name : Name} (hfit : s.fits name = true) (hno : ∀ e ∈ es, e.name ≠ name) {mode : Nat}
    (hmode : mode &&& S_IFMT = S_IFREG) :
    ∃ s' d e, Fs.create_dentry s 0 name mode = some (s', .ok d) ∧ Flat s' (e :: es) ∧ e.name = name ∧
      s'.nul_harms = s.nul_harms := by
  have hd := flat_dropped h 0 name
  have hcreate := hd.create hno mode
  have hinode := (flat_dropped hd 0 name).dentry_eq
  refine ⟨_, (dropped s 0 name).dentries.next, _, ?_, flat_created hd hfit hno hmode, rfl, rfl⟩
  have halloc : d_alloc (dropped s 0 name) 0 name = _ := d_alloc_root _ hfit
  simp only [Fs.create_dentry, h.find_root_none hfit hno, halloc, Option.bind_eq_bind, Option.bind_some, hinode,
    hmode, if_true, hcreate]

/-- A mode that is neither a file's nor a directory's. -/
theorem Flat.create_dentry_type (h : Flat s es) {name : Name} (hfit : s.fits name = true) (hno : ∀ e ∈ es, e.name ≠ name) {mode : Nat}
    (hfile : mode &&& S_IFMT ≠ S_IFREG) (hdir : mode &&& S_IFMT ≠ S_IFDIR) :
    ∃ s', Fs.create_dentry s 0 name mode = some (s', .error (-ENOMEM)) ∧ Flat s' es ∧ s'.nul_harms = s.nul_harms := by
  have hd := flat_dropped (flat_dropped h 0 name) 0 name
  have hinode := hd.dentry_eq
  refine ⟨_, ?_, hd, rfl⟩
  have halloc : d_alloc (dropped s 0 name) 0 name = _ := d_alloc_root _ hfit
  simp only [Fs.create_dentry, h.find_root_none hfit hno, halloc, Option.bind_eq_bind, Option.bind_some, hinode,
    hfile, hdir, if_false]

theorem Flat.create_dentry_exists (h : Flat s es) {e : Entry} (he : e ∈ es) (mode : Nat) :
    Fs.create_dentry s 0 e.name mode = some (s, .error (-EEXIST)) := by
  simp only [Fs.create_dentry, h.find_root he, Option.bind_eq_bind, Option.bind_some]

/-! ## Removing a file -/

/-- The state after `e` left the root directory, its initramfs inode counted
down. -/
def removed (s : FS) (e : Entry) : FS :=
  { s with
    initramfs_inodes := (s.initramfs_inodes.modify 0 fun i =>
      { i with dentry_list_head := i.dentry_list_head.erase e.file }).modify e.node fun i =>
        { i with dentry_count := i.dentry_count - 1 }
    dentries := s.dentries.modify 0 fun d => { d with d_hash := d.d_hash.erase e.dentry } }

theorem Flat.remove (h : Flat s es) {e : Entry} (he : e ∈ es) :
    __remove_dentry true s e.dentry = some (removed s e) := by
  have hok := h.entries e he
  have hsb : is_s_root true s e.dentry = some false := by simp [is_s_root, hok.dentry_eq]
  have hmode : e.mode &&& S_IFMT ≠ S_IFCHR ∧ e.mode &&& S_IFMT ≠ S_IFBLK ∧ e.mode &&& S_IFMT ≠ S_IFDIR := by
    rw [hok.regular]
    decide
  have hdelete : initramfs_delete_dentry s 0 e.file = { removed s e with dentries := s.dentries } := by
    simp [initramfs_delete_dentry, hok.file_eq, hok.node_eq, hmode.2.2, dentry_put, removed]
  simp [__remove_dentry, hsb, hok.dentry_eq, hok.inode_eq, hmode, h.dentry_eq, initramfs_unlink, h.inode_eq, hdelete,
    simple_unlink, d_delete, removed]

/-- The other files. -/
def others (e : Entry) (es : List Entry) : List Entry := es.filter fun e' => e'.name ≠ e.name

theorem erase_map {g : Entry → Nat} {e : Entry} (hnodup : (es.map g).Nodup)
    (hg : ∀ e' ∈ es, g e' = g e ↔ e'.name = e.name) : (es.map g).erase (g e) = (others e es).map g := by
  rw [hnodup.erase_eq_filter, List.filter_map, others]
  congr 1
  refine List.filter_congr fun e' he' => ?_
  have hkey := hg e' he'
  by_cases hname : e'.name = e.name
  · simp [hname, hkey.2 hname]
  · simp [hname, mt hkey.1 hname]

theorem Flat.mem_others (h : Flat s es) {e e' : Entry} (he : e ∈ es) (he' : e' ∈ others e es) : e' ∈ es ∧ Apart e' e := by
  obtain ⟨hmem, hname⟩ := List.mem_filter.1 he'
  refine ⟨hmem, (h.eq_or_apart hmem he).resolve_left ?_⟩
  rintro rfl
  simp at hname

theorem flat_removed (h : Flat s es) {e : Entry} (he : e ∈ es) : Flat (removed s e) (others e es) := by
  have hkey : ∀ g : Entry → Nat, (∀ e₁ e₂, Apart e₁ e₂ → g e₁ ≠ g e₂) →
      (es.map g).Nodup ∧ ∀ e' ∈ es, g e' = g e ↔ e'.name = e.name := by
    intro g hg
    refine ⟨List.pairwise_map.2 (h.apart.imp fun hap => hg _ _ hap), fun e' he' => ?_⟩
    rcases h.eq_or_apart he' he with rfl | hap
    · simp
    · exact iff_of_false (hg _ _ hap) hap.1
  obtain ⟨hd, hd'⟩ := hkey (·.dentry) fun _ _ hap => hap.2.1
  obtain ⟨hf, hf'⟩ := hkey (·.file) fun _ _ hap => hap.2.2.1
  have hnode : (0 : Nat) ≠ e.node := Nat.ne_of_lt (h.entries e he).node_lt.1
  refine ⟨h.root_dentry, h.super, ?_, h.inode_eq, h.file_eq, ?_, h.pos, ?_, h.apart.filter _⟩
  · dsimp only [removed]
    rw [Pool.get_modify, if_pos rfl, h.dentry_eq]
    dsimp only
    rw [erase_map hd hd']
  · dsimp only [removed]
    rw [Pool.get_modify_ne hnode, Pool.get_modify, if_pos rfl, h.node_eq]
    dsimp only
    rw [erase_map hf hf']
  · intro e' he'
    obtain ⟨hmem, hap⟩ := h.mem_others he he'
    have hok := h.entries e' hmem
    refine ⟨?_, hok.inode_eq, hok.file_eq, ?_, hok.regular, hok.named, hok.dentry_lt, hok.inode_lt, hok.file_lt, hok.node_lt⟩
    · dsimp only [removed]
      rw [Pool.get_modify_ne (Nat.ne_of_gt hok.dentry_lt.1), hok.dentry_eq]
    · dsimp only [removed]
      rw [Pool.get_modify_ne hap.2.2.2, Pool.get_modify_ne (Nat.ne_of_gt hok.node_lt.1), hok.node_eq]

theorem tree_others {e : Entry} (es : List Entry) : tree (others e es) = (tree es).filter fun q => q.1 ≠ [e.name] := by
  simp only [tree, others, List.filter_map]
  congr 1
  refine List.filter_congr fun e' _ => ?_
  simp

/-! ## Operations -/

theorem reaches_unfit_append {fits : Name → Bool} {t : Tree} {pre p q : List Name}
    (h : t.reaches_unfit fits pre (p ++ q) = false) : t.reaches_unfit fits pre p = false := by
  induction p generalizing pre with
  | nil => rfl
  | cons name p ih =>
    rw [List.cons_append] at h
    simp only [Tree.reaches_unfit, Bool.and_eq_false_iff, Bool.or_eq_false_iff] at h ⊢
    exact h.imp_right fun h => ⟨h.1, ih h.2⟩

theorem reaches_unfit_dropLast {fits : Name → Bool} {t : Tree} {p : List Name}
    (h : t.reaches_unfit fits [] p = false) : t.reaches_unfit fits [] p.dropLast = false := by
  obtain ⟨q, hq⟩ := List.dropLast_prefix p
  rw [← hq] at h
  exact reaches_unfit_append h

/-- `create_new_dentry` goes on to `create_dentry` in the root directory only. -/
theorem Flat.create_new_dentry (h : Flat s es) {path : Path} (habs : Absolute path) (hne : components path ≠ [])
    (hwalk : (tree es).reaches_unfit s.fits [] (components path).dropLast = false) (mode : Nat) :
    (∃ name, components path = [name] ∧ Fs.create_new_dentry s path mode = Fs.create_dentry s 0 name mode) ∨
      ((tree es).kind (components path).dropLast ≠ some .dir ∧
        ∃ s' err, Fs.create_new_dentry s path mode = some (s', .error err) ∧ Flat s' es ∧
          s'.nul_harms = s.nul_harms) := by
  have hselect := h.select_file habs 1
  rw [← List.dropLast_eq_take] at hselect
  rcases h.walk hwalk with ⟨hnil, hw⟩ | ⟨e, he, hp, hw⟩ | ⟨hp, hno, s', hw, hs', hharms⟩
  · left
    obtain ⟨names, name, hcomps⟩ := List.eq_nil_or_concat (components path) |>.resolve_left hne
    obtain rfl : names = [] := by simpa [hcomps] using hnil
    have hcomps : components path = [name] := by simpa using hcomps
    have hlast : file_name path (get_dir_number path) = some name := by
      have hname := file_name_components habs (i := 0) (by simp [hcomps])
      simp only [hcomps, List.getElem_cons_zero] at hname
      rw [get_dir_number_components, hcomps]
      exact hname
    have hroot : root_mode &&& S_IFMT = S_IFDIR := by decide
    refine ⟨name, hcomps, ?_⟩
    simp [Fs.create_new_dentry, hselect, hw, h.dentry_eq, h.inode_eq, hroot, hlast]
  · right
    have hok := h.entries e he
    have hdir : ¬S_IFREG = S_IFDIR := by decide
    refine ⟨by simp [hp, tree_kind_file he], s, -ENOTDIR, ?_, h, rfl⟩
    simp [Fs.create_new_dentry, hselect, hw, hok.dentry_eq, hok.inode_eq, hok.regular, hdir]
  · right
    refine ⟨by simp [tree_kind_none hp hno], s', -ENOENT, ?_, hs', hharms⟩
    simp [Fs.create_new_dentry, hselect, hw]

/-- What one operation does under its condition: the same to the tree and to
the file system, with the same result. -/
def StepOk (stray : Bool) (s : FS) (es : List Entry) (op : Op) : Prop :=
  ∃ s' es', exec stray s op = some (s', (spec (tree es) op).2) ∧ Flat s' es' ∧ tree es' = (spec (tree es) op).1 ∧
    s'.nul_harms = s.nul_harms

theorem mkdir_step (h : Flat s es) (stray : Bool) {path : Path} {mode : Nat} (habs : Absolute path)
    (hgood : Op.good stray s.fits (tree es) (.mkdir path mode)) : StepOk stray s es (.mkdir path mode) := by
  obtain ⟨hne, hwalk, hold⟩ := hgood
  have hfail : spec (tree es) (.mkdir path mode) = (tree es, false) := by
    simp only [spec, Tree.create]
    rw [if_neg]
    rintro ⟨hnone, hdir⟩
    exact (hold hdir).2 hnone
  rcases h.create_new_dentry habs hne hwalk (S_IFDIR ||| ((if mode = 0 then 0o755 else mode) &&& 0o777)) with
    ⟨name, hname, hcreate⟩ | ⟨-, s', err, hcreate, hs', hharms⟩
  · have hkind := (hold (by simp [hname, Tree.kind])).2
    obtain ⟨e, he, rfl⟩ : ∃ e ∈ es, name = e.name := by
      by_contra hno
      refine hkind (tree_kind_none hne fun e he hp => hno ⟨e, he, ?_⟩)
      simpa [hname] using hp
    rw [h.create_dentry_exists he] at hcreate
    exact ⟨s, es, by simp [exec, mkdir, hcreate, hfail], h, by rw [hfail], rfl⟩
  · exact ⟨s', es, by simp [exec, mkdir, hcreate, hfail], hs', by rw [hfail], hharms⟩

/-- `S_IFREG` stays in a mode, so that it is not a directory's. -/
theorem regular_not_dir (mode : Nat) : (S_IFREG ||| mode) &&& S_IFMT ≠ S_IFDIR := by
  intro h
  have hbit := congrArg (Nat.testBit · 15) h
  have hreg : S_IFREG.testBit 15 = true := by decide
  have hmask : S_IFMT.testBit 15 = true := by decide
  have hdir : S_IFDIR.testBit 15 = false := by decide
  simp [hreg, hmask, hdir] at hbit

theorem filp_open_step (h : Flat s es) (stray : Bool) {path : Path} {flags mode : Nat} (habs : Absolute path)
    (hgood : Op.good stray s.fits (tree es) (.filp_open path flags mode)) : StepOk stray s es (.filp_open path flags mode) := by
  have hgood : (tree es).reaches_unfit s.fits [] (components path) = false := hgood
  have hselect := h.select_file habs 0
  rw [Nat.sub_zero, List.take_length] at hselect
  rcases h.walk hgood with ⟨hp, hw⟩ | ⟨e, he, hp, hw⟩ | ⟨hp, hno, s₁, hw, h₁, hharms₁⟩
  · have hfound := hselect.trans hw
    have hspec : spec (tree es) (.filp_open path flags mode) = (tree es, true) := by simp [spec, hp, Tree.kind]
    exact ⟨s, es, by simp [exec, filp_open, hfound, hspec], h, by rw [hspec], rfl⟩
  · have hfound := hselect.trans hw
    have hspec : spec (tree es) (.filp_open path flags mode) = (tree es, true) := by
      simp [spec, hp, tree_kind_file he]
    exact ⟨s, es, by simp [exec, filp_open, hfound, hspec], h, by rw [hspec], rfl⟩
  have hmiss := hselect.trans hw
  have hnone := tree_kind_none hp hno
  by_cases hflags : flags &&& O_CREAT = 0
  · have hspec : spec (tree es) (.filp_open path flags mode) = (tree es, false) := by simp [spec, hnone, hflags]
    exact ⟨s₁, es, by simp [exec, filp_open, hmiss, hflags, hspec], h₁, by rw [hspec], hharms₁⟩
  rw [← fits_congr hharms₁] at hgood
  rcases h₁.create_new_dentry habs hp (reaches_unfit_dropLast hgood) (S_IFREG ||| mode) with
    ⟨name, hname, hcreate⟩ | ⟨hdir, s₂, err, hcreate, h₂, hharms₂⟩
  · have hne : s₁.fits name = true := by
      rw [hname] at hgood
      simpa [Tree.reaches_unfit, Tree.kind] using hgood
    have hfresh : ∀ e ∈ es, e.name ≠ name := fun e he hn => hno e he (by rw [hname, hn])
    have hkind : (tree es).kind [name] = none := hname ▸ hnone
    by_cases hmode : (S_IFREG ||| mode) &&& S_IFMT = S_IFREG
    · obtain ⟨s₂, d, e, hnew, h₂, rfl, hharms₂⟩ := h₁.create_dentry hne hfresh hmode
      have hspec : spec (tree es) (.filp_open path flags mode) = (([e.name], .file) :: tree es, true) := by
        have hroot : (tree es).kind [] = some .dir := rfl
        simp [spec, hname, hkind, hflags, hmode, Tree.create, hroot]
      exact ⟨s₂, e :: es, by simp [exec, filp_open, hmiss, hflags, hcreate, hnew, hspec], h₂, by rw [hspec]; rfl,
        hharms₂.trans hharms₁⟩
    · obtain ⟨s₂, hnew, h₂, hharms₂⟩ := h₁.create_dentry_type hne hfresh hmode (regular_not_dir mode)
      have hspec : spec (tree es) (.filp_open path flags mode) = (tree es, false) := by simp [spec, hnone, hmode]
      exact ⟨s₂, es, by simp [exec, filp_open, hmiss, hflags, hcreate, hnew, hspec], h₂, by rw [hspec],
        hharms₂.trans hharms₁⟩
  · have hspec : spec (tree es) (.filp_open path flags mode) = (tree es, false) := by
      simp only [spec, hnone, Option.isSome_none, Bool.false_eq_true, if_false, Tree.create, hdir, and_false]
      split <;> rfl
    exact ⟨s₂, es, by simp [exec, filp_open, hmiss, hflags, hcreate, hspec], h₂, by rw [hspec], hharms₂.trans hharms₁⟩

theorem remove_step (h : Flat s es) (stray : Bool) {path : Path} (habs : Absolute path)
    (hgood : Op.good stray s.fits (tree es) (.remove_dentry path)) : StepOk stray s es (.remove_dentry path) := by
  obtain ⟨hwalk, hfound⟩ := hgood
  have hselect := h.select_file habs 0
  rw [Nat.sub_zero, List.take_length] at hselect
  rcases h.walk hwalk with ⟨hp, hw⟩ | ⟨e, he, hp, hw⟩ | ⟨hp, hno, s₁, hw, h₁, hharms₁⟩
  · have hroot := hselect.trans hw
    have hspec : spec (tree es) (.remove_dentry path) = (tree es, true) := by simp [spec, Tree.remove, hp, Tree.kind]
    have hmount : __remove_dentry stray s 0 = some s := by simp [__remove_dentry, is_s_root, h.dentry_eq, h.super]
    exact ⟨s, es, by simp [exec, remove_dentry, hroot, hmount, hspec], h, by rw [hspec], rfl⟩
  · have hfile := hselect.trans hw
    have hkind := tree_kind_file he
    obtain rfl : stray = true := by
      rcases hfound with hs | hs | hs
      · exact hs
      · simp [hs] at hp
      · rw [hp, hkind] at hs
        simp at hs
    have hleaf : ∀ q ∈ tree es, q.1.dropLast ≠ [e.name] := by
      intro q hq
      obtain ⟨e', -, rfl⟩ := List.mem_map.1 hq
      simp
    have hspec : spec (tree es) (.remove_dentry path) = (tree (others e es), true) := by
      simp only [spec, Tree.remove, hp, hkind, Option.isSome_some]
      rw [if_pos ⟨by simp, hleaf⟩, tree_others]
    exact ⟨removed s e, others e es, by simp [exec, remove_dentry, hfile, h.remove he, hspec], flat_removed h he,
      by rw [hspec], rfl⟩
  · have hmiss := hselect.trans hw
    have hnone := tree_kind_none hp hno
    have hkeep : (tree es).filter (fun q => q.1 ≠ components path) = tree es := by
      refine List.filter_eq_self.2 fun q hq => ?_
      obtain ⟨e, he, rfl⟩ := List.mem_map.1 hq
      simpa using fun hpe => hno e he hpe.symm
    have hspec : spec (tree es) (.remove_dentry path) = (tree es, false) := by
      simp only [spec, Tree.remove, hnone, Option.isSome_none, hkeep]
      split <;> rfl
    exact ⟨s₁, es, by simp [exec, remove_dentry, hmiss, hspec], h₁, by rw [hspec], hharms₁⟩

theorem step_ok (h : Flat s es) (stray : Bool) {op : Op} (habs : Absolute op.path)
    (hgood : op.good stray s.fits (tree es)) : StepOk stray s es op := by
  cases op with
  | mkdir path mode => exact mkdir_step h stray habs hgood
  | filp_open path flags mode => exact filp_open_step h stray habs hgood
  | remove_dentry path => exact remove_step h stray habs hgood

/-! ## Refinement -/

theorem Flat.hasKind_root (h : Flat s es) : HasKind s 0 .dir := by
  have hroot : root_mode &&& S_IFMT = S_IFDIR := by decide
  exact ⟨⟨0, by rw [h.dentry_eq], by rw [h.inode_eq]; exact hroot, by rw [h.inode_eq, h.node_eq]; exact hroot⟩,
    ⟨0, by rw [h.dentry_eq], by rw [h.file_eq, h.node_eq]; exact hroot⟩⟩

theorem EntryOk.hasKind {e : Entry} (h : EntryOk s e) : HasKind s e.dentry .file :=
  ⟨⟨e.inode, by rw [h.dentry_eq], by rw [h.inode_eq]; exact h.regular, by rw [h.inode_eq, h.node_eq]; exact h.regular⟩,
    ⟨e.file, by rw [h.dentry_eq], by rw [h.file_eq, h.node_eq]; exact h.regular⟩⟩

theorem Flat.node_root (h : Flat s es) : Fs.node s 0 = some 0 := by simp [Fs.node, h.dentry_eq, h.inode_eq]

theorem EntryOk.node_entry {e : Entry} (h : EntryOk s e) : Fs.node s e.dentry = some e.node := by
  simp [Fs.node, h.dentry_eq, h.inode_eq]

/-- What a path that resolves stands for. -/
theorem Flat.resolved (h : Flat s es) {path : Path} {s' : FS} {d : Nat} (habs : Absolute path)
    (hr : Fs.select_file s path 0 = some (s', .ok d)) :
    s' = s ∧ ((components path = [] ∧ d = 0) ∨ ∃ e ∈ es, components path = [e.name] ∧ d = e.dentry) := by
  rw [h.select_file habs, Nat.sub_zero, List.take_length] at hr
  by_cases hwalk : (tree es).reaches_unfit s.fits [] (components path) = true
  · rw [h.walk_unfit hwalk] at hr
    cases hr
  rcases h.walk (Bool.eq_false_of_not_eq_true hwalk) with ⟨hp, hw⟩ | ⟨e, he, hp, hw⟩ | ⟨-, -, s₁, hw, -⟩ <;>
    rw [hw] at hr <;> simp only [Option.some.injEq, Prod.mk.injEq, Except.ok.injEq, reduceCtorEq, and_false] at hr
  · obtain ⟨rfl, rfl⟩ := hr
    exact ⟨rfl, .inl ⟨hp, rfl⟩⟩
  · obtain ⟨rfl, rfl⟩ := hr
    exact ⟨rfl, .inr ⟨e, he, hp, rfl⟩⟩

theorem Flat.refines (h : Flat s es) : Refines s (tree es) where
  resolves path habs hwalk := by
    have hselect := h.select_file habs 0
    rw [Nat.sub_zero, List.take_length] at hselect
    rcases h.walk hwalk with ⟨hp, hw⟩ | ⟨e, he, hp, hw⟩ | ⟨hp, hno, s₁, hw, -⟩
    · exact ⟨s, .ok 0, hselect.trans hw, by simp [hp, Tree.kind]⟩
    · exact ⟨s, .ok e.dentry, hselect.trans hw, by simp [hp, tree_kind_file he]⟩
    · exact ⟨s₁, .error (-ENOENT), hselect.trans hw, by simp [tree_kind_none hp hno]⟩
  kinds path s' d habs hr := by
    obtain ⟨rfl, ⟨hp, rfl⟩ | ⟨e, he, hp, rfl⟩⟩ := h.resolved habs hr
    · exact ⟨.dir, by simp [hp, Tree.kind], h.hasKind_root⟩
    · exact ⟨.file, by rw [hp, tree_kind_file he], (h.entries e he).hasKind⟩
  injective path₁ path₂ s₁ s₂ d₁ d₂ habs₁ habs₂ hr₁ hr₂ hnode := by
    obtain ⟨rfl, h₁⟩ := h.resolved habs₁ hr₁
    obtain ⟨rfl, h₂⟩ := h.resolved habs₂ hr₂
    rcases h₁ with ⟨hp₁, rfl⟩ | ⟨e₁, he₁, hp₁, rfl⟩ <;> rcases h₂ with ⟨hp₂, rfl⟩ | ⟨e₂, he₂, hp₂, rfl⟩
    · rw [hp₁, hp₂]
    · rw [h.node_root, (h.entries e₂ he₂).node_entry, Option.some.injEq] at hnode
      exact absurd hnode (Nat.ne_of_lt (h.entries e₂ he₂).node_lt.1)
    · rw [h.node_root, (h.entries e₁ he₁).node_entry, Option.some.injEq] at hnode
      exact absurd hnode (Nat.ne_of_gt (h.entries e₁ he₁).node_lt.1)
    · rw [(h.entries e₁ he₁).node_entry, (h.entries e₂ he₂).node_entry, Option.some.injEq] at hnode
      rcases h.eq_or_apart he₁ he₂ with rfl | hap
      · rw [hp₁, hp₂]
      · exact absurd hnode hap.2.2.2

end

end McLinOS.Fs
