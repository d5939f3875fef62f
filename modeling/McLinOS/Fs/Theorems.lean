import McLinOS.Fs.Refine
/-!
# Runs of the VFS

A run refines the directory tree exactly when every operation meets its
condition: the first one that does not leaves a state that does not show the
tree, or none.
-/
open CLib

namespace McLinOS.Fs

/-! ## Making a directory -/

theorem type_perm {t : Nat} (ht : t &&& S_IFMT = t) (mode : Nat) : (t ||| (mode &&& 0o777)) &&& S_IFMT = t := by
  have hperm : 0o777 &&& S_IFMT = 0 := by decide
  rw [Nat.and_or_distrib_right, ht, Nat.and_assoc, hperm, Nat.and_zero, Nat.or_zero]

section
variable {s : FS} {es : List Entry}

/-- The state with a new directory: initramfs has it as a regular file, and its
VFS inode is another one for the root. -/
def made (s : FS) (name : Name) (mode : Nat) : FS :=
  { s with
    initramfs_inodes := (s.initramfs_inodes.alloc
      { i_mode := S_IFREG ||| (mode &&& 0o777), dentry_count := 1, dentry_list_head := [] }).modify 0
        fun i => { i with dentry_list_head := s.initramfs_dentries.next :: i.dentry_list_head }
    initramfs_dentries := s.initramfs_dentries.alloc { name, target_inode := s.initramfs_inodes.next }
    inodes := s.inodes.alloc { i_mode := root_mode, i_sb := none, i_private := 0 }
    dentries := (s.dentries.alloc { new_dentry 0 name none with
      d_inode := some s.inodes.next, d_fsdata := some s.initramfs_dentries.next }).modify 0
        fun d => { d with d_hash := s.dentries.next :: d.d_hash } }

/-- `initramfs_mkdir` for a directory in the root that is not there yet. -/
theorem Flat.mkdir (h : Flat s es) {name : Name} (hno : ∀ e ∈ es, e.name ≠ name) (mode : Nat) :
    initramfs_mkdir (dropped s 0 name) 0 s.dentries.next mode = some (made s name mode) := by
  obtain ⟨hn, hnone⟩ := h.missing hno
  have hmode : ∀ f : initramfs_inode → initramfs_inode, ∀ i : initramfs_inode,
      ((s.initramfs_inodes.alloc i).modify 0 f).get 0 = f (s.initramfs_inodes.get 0) := by
    intro f i
    rw [Pool.get_modify, if_pos rfl, Pool.get_alloc_lt h.pos.2.2.2]
  rw [mkdir_in 0 hn hnone, made_in, made, looked_up, h.inode_eq]
  dsimp only
  rw [hmode, h.node_eq]
  rfl

theorem Flat.create_dentry_dir (h : Flat s es) {name : Name} (hfit : s.fits name = true) (hno : ∀ e ∈ es, e.name ≠ name)
    {mode : Nat} (hmode : mode &&& S_IFMT = S_IFDIR) :
    Fs.create_dentry s 0 name mode =
      some (made (dropped s 0 name) name mode, .ok (dropped s 0 name).dentries.next) := by
  have hd := flat_dropped h 0 name
  have hmkdir := hd.mkdir hno mode
  have hinode := (flat_dropped hd 0 name).dentry_eq
  have htype : ¬S_IFDIR = S_IFREG := by decide
  have halloc : d_alloc (dropped s 0 name) 0 name = _ := d_alloc_root _ hfit
  simp only [Fs.create_dentry, h.find_root_none hfit hno, halloc, Option.bind_eq_bind, Option.bind_some,
    hinode, hmode, htype, if_false, if_true, hmkdir]

/-- The new directory resolves to a dentry whose initramfs file is regular. -/
theorem made_not_refines (h : Flat s es) {path : Path} {name : Name} (habs : Absolute path)
    (hcomps : components path = [name]) (mode : Nat) {t : Tree} (ht : t.kind [name] = some .dir) :
    ¬Refines (made s name mode) t := by
  intro hr
  have hroot : (made s name mode).dentries.get 0 = { s.dentries.get 0 with
      d_hash := s.dentries.next :: (s.dentries.get 0).d_hash } := by
    dsimp only [made]
    rw [Pool.get_modify, if_pos rfl, Pool.get_alloc_lt h.pos.1]
  have hnew : (made s name mode).dentries.get s.dentries.next = { new_dentry 0 name none with
      d_inode := some s.inodes.next, d_fsdata := some s.initramfs_dentries.next } := by
    dsimp only [made]
    rw [Pool.get_modify_ne (Nat.ne_of_gt h.pos.1), Pool.get_alloc_next]
  have hlook : d_lookup_dentry (made s name mode) 0 name = some s.dentries.next := by
    simp [d_lookup_dentry, hroot, hnew, new_dentry]
  have hselect : Fs.select_file (made s name mode) path 0 = some (made s name mode, .ok s.dentries.next) := by
    rw [select_file_walk habs, hcomps]
    have hr0 : (made s name mode).root_dentry = 0 := h.root_dentry
    simp [Fs.walk, hr0, find_dentry, hlook]
  obtain ⟨k, hk, hkind⟩ := hr.kinds path _ _ habs hselect
  obtain rfl : .dir = k := by simpa [hcomps, ht] using hk
  obtain ⟨f, hf, htype⟩ := hkind.initramfs
  obtain rfl : s.initramfs_dentries.next = f := by simpa [hnew] using hf
  have hfile : (made s name mode).initramfs_dentries.get s.initramfs_dentries.next =
      { name, target_inode := s.initramfs_inodes.next } := Pool.get_alloc_next _ _
  have hnode : ((made s name mode).initramfs_inodes.get s.initramfs_inodes.next).i_mode =
      S_IFREG ||| (mode &&& 0o777) := by
    dsimp only [made]
    rw [Pool.get_modify_ne (Nat.ne_of_gt h.pos.2.2.2), Pool.get_alloc_next]
  rw [hfile, hnode, type_perm (by decide)] at htype
  exact absurd htype (by decide)

/-! ## Steps that break the condition -/

/-- The operation leaves no state, or one that does not show its tree. -/
def StepBad (stray : Bool) (s : FS) (t : Tree) (op : Op) : Prop :=
  ∀ s' b, exec stray s op = some (s', b) → ¬Refines s' (spec t op).1

theorem mkdir_bad (h : Flat s es) (stray : Bool) {path : Path} {mode : Nat} (habs : Absolute path)
    (hbad : ¬Op.good stray s.fits (tree es) (.mkdir path mode)) : StepBad stray s (tree es) (.mkdir path mode) := by
  intro s' b hexec
  by_cases hroot : components path = []
  · -- There is no name in "/", and `file_name` is not written.
    obtain rfl := (components_nil habs).1 hroot
    have hname : file_name ['/'] (get_dir_number ['/']) = none := by decide
    have hdir : root_mode &&& S_IFMT = S_IFDIR := by decide
    simp [exec, Fs.mkdir, Fs.create_new_dentry, Fs.select_file, h.root_dentry, h.dentry_eq, h.inode_eq, hdir, hname] at hexec
  by_cases hwalk : (tree es).reaches_unfit s.fits [] (components path).dropLast = true
  · have hselect := h.select_file habs 1
    rw [← List.dropLast_eq_take, h.walk_unfit hwalk] at hselect
    simp [exec, Fs.mkdir, Fs.create_new_dentry, hselect] at hexec
  obtain ⟨hdir, hnew⟩ : (tree es).kind (components path).dropLast = some .dir ∧
      ((∃ name ∈ (components path).getLast?, s.fits name = false) ∨ (tree es).kind (components path) = none) := by
    simp only [Op.good, ne_eq, hroot, not_false_eq_true, true_and, hwalk] at hbad
    rw [Classical.not_imp, not_and_or, not_not] at hbad
    refine hbad.imp_right (Or.imp_left fun hname => ?_)
    simpa using hname
  have hwalk' := Bool.eq_false_of_not_eq_true hwalk
  rcases h.create_new_dentry habs hroot hwalk' (S_IFDIR ||| ((if mode = 0 then 0o755 else mode) &&& 0o777)) with
    ⟨name, hname, hcreate⟩ | ⟨hno, -⟩
  · cases hfit : s.fits name with
    | false =>
      have hunfit := find_dentry_unfit hfit (h.unfit_uncached hfit)
      simp [exec, Fs.mkdir, hcreate, Fs.create_dentry, hunfit] at hexec
    | true =>
      have hnone : (tree es).kind [name] = none := by simpa [hname, hfit] using hnew
      have hfresh : ∀ e ∈ es, e.name ≠ name := by
        rintro e he rfl
        simp [tree_kind_file he] at hnone
      rw [h.create_dentry_dir hfit hfresh (type_perm (by decide) _)] at hcreate
      simp only [exec, Fs.mkdir, hcreate, Option.map_some, Option.some.injEq, Prod.mk.injEq] at hexec
      rw [← hexec.1]
      apply made_not_refines (flat_dropped h 0 name) habs hname _
      have hrootdir : (tree es).kind [] = some .dir := rfl
      simp [spec, hname, Tree.create, hnone, hrootdir]
      simp [Tree.kind]
  · exact absurd hdir hno

theorem filp_open_bad (h : Flat s es) (stray : Bool) {path : Path} {flags mode : Nat} (habs : Absolute path)
    (hbad : ¬Op.good stray s.fits (tree es) (.filp_open path flags mode)) :
    StepBad stray s (tree es) (.filp_open path flags mode) := by
  intro s' b hexec
  have hwalk : (tree es).reaches_unfit s.fits [] (components path) = true := by simpa [Op.good] using hbad
  have hselect := h.select_file habs 0
  rw [Nat.sub_zero, List.take_length, h.walk_unfit hwalk] at hselect
  simp [exec, filp_open, hselect] at hexec

theorem remove_bad (h : Flat s es) (stray : Bool) {path : Path} (habs : Absolute path)
    (hbad : ¬Op.good stray s.fits (tree es) (.remove_dentry path)) : StepBad stray s (tree es) (.remove_dentry path) := by
  intro s' b hexec
  have hselect := h.select_file habs 0
  rw [Nat.sub_zero, List.take_length] at hselect
  by_cases hwalk : (tree es).reaches_unfit s.fits [] (components path) = true
  · rw [h.walk_unfit hwalk] at hselect
    simp [exec, remove_dentry, hselect] at hexec
  obtain ⟨hstray, hp0, hk⟩ : stray = false ∧ components path ≠ [] ∧ (tree es).kind (components path) ≠ none := by
    simpa [Op.good, hwalk] using hbad
  rcases h.walk (Bool.eq_false_of_not_eq_true hwalk) with ⟨hp, -⟩ | ⟨e, he, -, hw⟩ | ⟨hp, hno, -⟩
  · exact absurd hp hp0
  · have hsb : is_s_root stray s e.dentry = none := by simp [is_s_root, (h.entries e he).dentry_eq, hstray]
    rw [hw] at hselect
    simp [exec, remove_dentry, hselect, __remove_dentry, hsb] at hexec
  · exact absurd (tree_kind_none hp hno) hk

theorem step_bad (h : Flat s es) (stray : Bool) {op : Op} (habs : Absolute op.path)
    (hbad : ¬op.good stray s.fits (tree es)) : StepBad stray s (tree es) op := by
  cases op with
  | mkdir path mode => exact mkdir_bad h stray habs hbad
  | filp_open path flags mode => exact filp_open_bad h stray habs hbad
  | remove_dentry path => exact remove_bad h stray habs hbad

/-! ## Runs -/

theorem run_ok (h : Flat s es) (stray : Bool) {ops : List Op} (habs : ∀ op ∈ ops, Absolute op.path)
    (hgood : good_run stray s.fits ops (tree es)) : ∃ s' es', exec_run stray ops s = some (s', (spec_run ops (tree es)).2) ∧
      Flat s' es' ∧ tree es' = (spec_run ops (tree es)).1 := by
  induction ops generalizing s es with
  | nil => exact ⟨s, es, rfl, h, rfl⟩
  | cons op ops ih =>
    obtain ⟨s₁, es₁, hexec, h₁, ht₁, hharms⟩ := step_ok h stray (habs op (by simp)) hgood.1
    obtain ⟨s₂, es₂, hrun, h₂, ht₂⟩ := ih h₁ (fun op hop => habs op (by simp [hop]))
      (by rw [fits_congr hharms, ht₁]; exact hgood.2)
    rw [ht₁] at hrun ht₂
    exact ⟨s₂, es₂, by simp [exec_run, hexec, hrun, spec_run], h₂, ht₂⟩

theorem prefix_good_run {stray : Bool} {fits : Name → Bool} {ops ops' : List Op} {t : Tree} (hp : ops' <+: ops)
    (h : good_run stray fits ops t) : good_run stray fits ops' t := by
  obtain ⟨rest, rfl⟩ := hp
  induction ops' generalizing t with
  | nil => trivial
  | cons op ops' ih => exact ⟨h.1, ih h.2⟩

/-- A run that shows its tree after every operation meets the condition. -/
theorem run_good (h : Flat s es) (stray : Bool) {ops : List Op} (habs : ∀ op ∈ ops, Absolute op.path)
    (hshows : ∀ ops', ops' <+: ops → ∃ s', exec_run stray ops' s = some (s', (spec_run ops' (tree es)).2) ∧
      Refines s' (spec_run ops' (tree es)).1) : good_run stray s.fits ops (tree es) := by
  induction ops generalizing s es with
  | nil => trivial
  | cons op ops ih =>
    -- A first operation that misses its condition already shows another tree.
    have hgood : op.good stray s.fits (tree es) := by
      by_contra hbad
      obtain ⟨s', hrun, href⟩ := hshows [op] (List.prefix_append [op] ops)
      cases hexec : exec stray s op with
      | none => simp [exec_run, hexec] at hrun
      | some r =>
        obtain rfl : r.1 = s' := by
          simp only [exec_run, hexec, Option.bind_eq_bind, Option.bind_some, Option.some.injEq, Prod.mk.injEq] at hrun
          exact hrun.1
        exact step_bad h stray (habs op (by simp)) hbad _ _ hexec href
    obtain ⟨s₁, es₁, hexec, h₁, ht₁, hharms⟩ := step_ok h stray (habs op (by simp)) hgood
    refine ⟨hgood, ht₁ ▸ fits_congr hharms ▸ ih h₁ (fun op hop => habs op (by simp [hop])) fun ops' hp => ?_⟩
    obtain ⟨s', hrun, href⟩ := hshows (op :: ops') ((List.prefix_cons_inj op).2 hp)
    refine ⟨s', ?_, by rw [ht₁]; exact href⟩
    rw [ht₁]
    simp only [exec_run, hexec, Option.bind_eq_bind, Option.bind_some, spec_run] at hrun
    cases hrest : exec_run stray ops' s₁ with
    | none => simp [hrest] at hrun
    | some r =>
      obtain ⟨h1, h2⟩ : r.1 = s' ∧ r.2 = (spec_run ops' (spec (tree es) op).1).2 := by simpa [hrest] using hrun
      rw [← h1, ← h2]

end

/-- A run shows its tree after every operation if and only if every operation
meets its condition. -/
theorem vfs_refines_iff (stray : Bool) (nul_harms : Name → Bool) {ops : List Op}
    (habs : ∀ op ∈ ops, Absolute op.path) :
    (∀ ops', ops' <+: ops → Shows stray nul_harms ops') ↔ good_run stray (root_fs nul_harms).fits ops [] := by
  have hroot := flat_root nul_harms
  constructor
  · exact run_good hroot stray habs
  · intro hgood ops' hp
    obtain ⟨s, es, hrun, h, ht⟩ := run_ok hroot stray (fun op hop => habs op (hp.subset hop)) (prefix_good_run hp hgood)
    exact ⟨s, hrun, ht ▸ h.refines⟩

/-- A file created, not a directory to create in, and removed. -/
theorem vfs_refines_file : Shows true (fun _ => true) [.filp_open ['/', 'f'] O_CREAT 0o644, .mkdir ['/', 'f', '/', 'x'] 0,
    .remove_dentry ['/', 'f'], .filp_open ['/', 'f'] 0 0] :=
  (vfs_refines_iff true _ (by decide)).2 (by decide) _ List.prefix_rfl

/-- With two directories, what is created in one of them exists in the other. -/
theorem vfs_not_refines : ¬∀ ops : List Op, (∀ op ∈ ops, Absolute op.path) → Shows true (fun _ => false) ops := by
  intro h
  let ops : List Op := [.mkdir ['/', 'a'] 0, .mkdir ['/', 'b'] 0, .filp_open ['/', 'a', '/', 'x'] O_CREAT 0o644]
  obtain ⟨s, hrun, href⟩ := h ops (by decide)
  have hcomps : components ['/', 'b', '/', 'x'] = [['b'], ['x']] := by decide
  have hfits : s.fits ['b'] = true ∧ s.fits ['x'] = true := ⟨rfl, rfl⟩
  obtain ⟨s', r, hselect, hr⟩ := href.resolves ['/', 'b', '/', 'x'] (by decide)
    (by simp [hcomps, Tree.reaches_unfit, hfits])
  have hnone : ((spec_run ops []).1.kind (components ['/', 'b', '/', 'x'])).isSome = false := by decide
  have hfound : (exec_run true ops (root_fs fun _ => false)).bind (fun r => (select_file r.1 ['/', 'b', '/', 'x'] 0).map (·.2.isOk)) =
      some true := by decide
  rw [hrun, Option.bind_some, hselect, Option.map_some, hr, hnone] at hfound
  simp at hfound

end McLinOS.Fs
