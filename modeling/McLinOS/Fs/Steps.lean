import Mathlib.Data.List.TakeWhile
import McLinOS.Fs.Theorems
/-!
# What the calls do to the file system

Whatever the path and the tree, a call that returns has cached what it looked up
and made at most one file.
-/
open CLib

namespace McLinOS.Fs

/-- Caching a lookup, or making a file. The VFS inode of a directory is made for
the directory it is in. -/
inductive FsStep : FS → FS → Prop where
  | cache {s s' : FS} : CacheStep s s' → FsStep s s'
  | make {s : FS} {d : Nat} {name : Name} {i : Nat} (mode bound : Nat) : Miss s d name i → mode &&& S_IFMT = S_IFREG →
      bound = s.initramfs_inodes.next ∨ bound = (s.inodes.get i).i_private → FsStep s (made_in s d i name mode bound)

section
variable {s s' : FS} {d i : Nat} {name : Name}

/-! ## Well-formedness -/

theorem get_made_in {mode bound n : Nat} (h : (s.inodes.get i).i_private < s.initramfs_inodes.next) :
    (made_in s d i name mode bound).initramfs_inodes.get n =
      if n = (s.inodes.get i).i_private then { s.initramfs_inodes.get n with
        dentry_list_head := s.initramfs_dentries.next :: (s.initramfs_inodes.get n).dentry_list_head }
      else if n = s.initramfs_inodes.next then { i_mode := mode, dentry_count := 1, dentry_list_head := [] }
      else s.initramfs_inodes.get n := by
  simp only [made_in, Pool.get_modify, Pool.get_alloc]
  by_cases hn : n = (s.inodes.get i).i_private
  · subst hn
    simp [Nat.ne_of_lt h]
  · simp [hn]

theorem Wf.made_in (h : Wf s) (hm : Miss s d name i) (mode : Nat) {bound : Nat}
    (hb : bound = s.initramfs_inodes.next ∨ bound = (s.inodes.get i).i_private) : Wf (made_in s d i name mode bound) := by
  obtain ⟨j, hj, -, hlt⟩ := h.bound d hm.cached
  obtain rfl : j = i := Option.some.inj (hj.symm.trans hm.d_inode)
  refine ⟨Nat.lt_succ_of_lt h.root_lt, (parent_looked_up h.root_lt).trans h.root_parent, ?_, ?_, ?_⟩
  · intro p x hx
    have hc := child_looked_up h hm s.initramfs_dentries.next p x hx
    exact ⟨hc.parent_lt, hc.lt, hc.parent, hc.valid⟩
  · intro x hx
    rcases (cached_looked_up h hm.cached).1 hx with hx | rfl
    · obtain ⟨k, hk, hklt, hp⟩ := h.bound x hx
      have hget : (Fs.made_in s d j name mode bound).inodes.get k = s.inodes.get k := Pool.get_alloc_lt hklt _
      refine ⟨k, (inode_looked_up (h.lt hx)).trans hk, Nat.lt_succ_of_lt hklt, ?_⟩
      rw [hget]
      exact Nat.lt_succ_of_lt hp
    · have hnew : (Fs.made_in s d j name mode bound).inodes.get s.inodes.next = _ := Pool.get_alloc_next s.inodes _
      refine ⟨s.inodes.next, ?_, Nat.lt_succ_self _, ?_⟩
      · exact congrArg dentry.d_inode (get_looked_up_next (h.lt hm.cached))
      · rw [hnew]
        rcases hb with rfl | rfl
        · exact Nat.lt_succ_self _
        · exact Nat.lt_succ_of_lt hlt
  · intro n f hf
    have hold : ∀ m, f ∈ (s.initramfs_inodes.get m).dentry_list_head →
        f < s.initramfs_dentries.next + 1 ∧ ((Fs.made_in s d j name mode bound).initramfs_dentries.get f).target_inode <
          s.initramfs_inodes.next + 1 := by
      intro m hmem
      obtain ⟨h1, h2⟩ := h.entry m f hmem
      have hget : (Fs.made_in s d j name mode bound).initramfs_dentries.get f = s.initramfs_dentries.get f :=
        Pool.get_alloc_lt h1 _
      rw [hget]
      exact ⟨Nat.lt_succ_of_lt h1, Nat.lt_succ_of_lt h2⟩
    rw [get_made_in hlt] at hf
    split at hf
    · rcases List.mem_cons.1 hf with rfl | hf
      · have hget : (Fs.made_in s d j name mode bound).initramfs_dentries.get s.initramfs_dentries.next = _ :=
          Pool.get_alloc_next s.initramfs_dentries _
        rw [hget]
        exact ⟨Nat.lt_succ_self _, Nat.lt_succ_self _⟩
      · exact hold _ hf
    · split at hf
      · simp at hf
      · exact hold n hf

theorem FsStep.wf (h : Wf s) (hs : FsStep s s') : Wf s' := by
  cases hs with
  | cache hc => exact hc.wf h
  | make mode bound hm hmode hb => exact h.made_in hm mode hb

theorem fs_steps_wf (h : Wf s) (hs : Relation.ReflTransGen FsStep s s') : Wf s' := by
  induction hs with
  | refl => exact h
  | tail _ hstep ih => exact hstep.wf ih

/-! ## The calls -/

/-- What a call that returned a dentry or an error has done. -/
structure Returned (s s' : FS) (r : Except Int Nat) : Prop where
  steps : Relation.ReflTransGen FsStep s s'
  cached : ∀ c, r = .ok c → Cached s' c

theorem Returned.after {s₁ : FS} {r : Except Int Nat} (h : Returned s₁ s' r) (hs : Relation.ReflTransGen FsStep s s₁) :
    Returned s s' r := ⟨hs.trans h.steps, h.cached⟩

theorem Returned.error (hs : Relation.ReflTransGen FsStep s s') (e : Int) : Returned s s' (.error e) := by
  refine ⟨hs, ?_⟩
  rintro c hc
  cases hc

/-- A lookup that returns was of a valid name. -/
theorem find_dentry_returned {r : Except Int Nat} (h : Wf s) (hd : Cached s d) (hn : '/' ∉ name ∧ name.length < 128)
    (hf : find_dentry s d name = some (s', r)) : Valid s name ∧ Returned s s' r := by
  have hv : Valid s name := by
    refine ⟨Bool.eq_true_of_not_eq_false fun hfit => ?_, hn⟩
    rw [h.find_unfit d hfit] at hf
    cases hf
  refine ⟨hv, ?_⟩
  rcases find_dentry_spec h hd hv with ⟨c, hc, hfind⟩ | ⟨i, hm, ⟨hnone, hfind⟩ | ⟨f, hlook, hfind⟩⟩
  · obtain ⟨rfl, rfl⟩ : s = s' ∧ .ok c = r := by simpa [hfind] using hf
    refine ⟨.refl, ?_⟩
    rintro _ ⟨⟩
    exact .inr ⟨d, (mem_of_d_lookup hc).1⟩
  · obtain ⟨rfl, rfl⟩ : dropped s d name = s' ∧ .error (-ENOENT) = r := by simpa [hfind] using hf
    exact .error (.single (.cache (.drop hm hnone))) _
  · obtain ⟨rfl, rfl⟩ : looked_up s d name f i = s' ∧ .ok s.dentries.next = r := by simpa [hfind] using hf
    refine ⟨.single (.cache (.add hm hlook)), ?_⟩
    rintro _ ⟨⟩
    exact (cached_looked_up h hd).2 (.inr rfl)

theorem get_dir_name_no_slash {path : Path} {j number : Nat} (h : get_dir_name path j number = some name) : '/' ∉ name := by
  induction path generalizing j with
  | nil => cases h
  | cons c path ih =>
    have hhere : ∀ j, (if j = number then some (path.takeWhile (· ≠ '/')) else get_dir_name path j number) = some name →
        '/' ∉ name := by
      intro j h
      split at h
      · obtain rfl := Option.some.inj h
        exact fun hmem => by simpa using List.mem_takeWhile_imp hmem
      · exact ih h
    exact hhere _ h

theorem file_name_spec {path : Path} {number : Nat} (h : file_name path number = some name) :
    '/' ∉ name ∧ name.length < 128 := by
  unfold file_name at h
  cases hget : get_dir_name path 0 number with
  | none => simp [hget] at h
  | some x =>
    simp only [hget] at h
    split at h
    · rename_i hlen
      obtain rfl := Option.some.inj h
      exact ⟨get_dir_name_no_slash hget, hlen⟩
    · cases h

theorem select_from_returned {path : Path} {k : Nat} {r : Except Int Nat} (h : Wf s) (hd : Cached s d)
    (hf : select_from path s d i k = some (s', r)) : Returned s s' r := by
  induction k generalizing s d i with
  | zero =>
    obtain ⟨rfl, rfl⟩ : s = s' ∧ .ok d = r := by simpa [select_from] using hf
    refine ⟨.refl, ?_⟩
    rintro _ ⟨⟩
    exact hd
  | succ k ih =>
    simp only [select_from, Option.bind_eq_bind, Option.bind_eq_some_iff] at hf
    obtain ⟨name, hname, ⟨s₁, found⟩, hfind, hrest⟩ := hf
    obtain ⟨-, hret⟩ := find_dentry_returned h hd (file_name_spec hname) hfind
    cases found with
    | error e =>
      obtain ⟨rfl, rfl⟩ : s₁ = s' ∧ .error e = r := by simpa using hrest
      exact hret
    | ok c => exact (ih (fs_steps_wf h hret.steps) (hret.cached c rfl) hrest).after hret.steps

theorem select_file_returned {path : Path} {offset : Nat} {r : Except Int Nat} (h : Wf s)
    (hf : select_file s path offset = some (s', r)) : Returned s s' r := by
  unfold select_file at hf
  split at hf
  · obtain ⟨rfl, rfl⟩ : s = s' ∧ .ok s.root_dentry = r := by simpa using hf
    refine ⟨.refl, ?_⟩
    rintro _ ⟨⟩
    exact .inl rfl
  · exact select_from_returned h (.inl rfl) hf

/-- A dentry allocated for a name that was missed is missed again. -/
theorem Miss.again (h : Wf s) (hm : Miss s d name i) : Miss (dropped s d name) d name i where
  cached := (cached_dropped h).2 hm.cached
  valid := hm.valid
  d_inode := by
    rw [get_dropped d name (h.lt hm.cached)]
    exact hm.d_inode
  not_cached := by
    have hlook : d_lookup_dentry (dropped s d name) d name = d_lookup_dentry s d name :=
      d_lookup_congr (by rw [get_dropped d name (h.lt hm.cached)])
        (fun y hy => by rw [get_dropped d name (h.child d y hy).lt]) name
    rw [hlook, hm.not_cached]

theorem create_dentry_returned {mode : Nat} {r : Except Int Nat} (h : Wf s) (hd : Cached s d)
    (hn : '/' ∉ name ∧ name.length < 128) (hf : create_dentry s d name mode = some (s', r)) : Returned s s' r := by
  simp only [create_dentry, Option.bind_eq_bind, Option.bind_eq_some_iff] at hf
  obtain ⟨⟨s₁, found⟩, hfind, hrest⟩ := hf
  obtain ⟨hv, hret⟩ := find_dentry_returned h hd hn hfind
  cases found with
  | ok c =>
    obtain ⟨rfl, rfl⟩ : s₁ = s' ∧ .error (-EEXIST) = r := by simpa using hrest
    exact .error hret.steps _
  | error e =>
    obtain ⟨i, hm, hnone, rfl⟩ : ∃ i, Miss s d name i ∧ initramfs_lookup s (s.inodes.get i).i_private name = none ∧
        dropped s d name = s₁ := by
      rcases find_dentry_spec h hd hv with ⟨c, -, hspec⟩ | ⟨i, hm, ⟨hnone, hspec⟩ | ⟨f, -, hspec⟩⟩
      · simp [hspec] at hfind
      · simp only [hspec, Option.some.injEq, Prod.mk.injEq] at hfind
        exact ⟨i, hm, hnone, hfind.1⟩
      · simp [hspec] at hfind
    have h₁ := h.dropped d name
    have hm₁ := hm.again h
    have hdrop : FsStep s (dropped s d name) := .cache (.drop hm hnone)
    have hlt₁ := h₁.lt hm₁.cached
    obtain ⟨j, hj, -, hp⟩ := h₁.bound d hm₁.cached
    obtain rfl : j = i := Option.some.inj (hj.symm.trans hm₁.d_inode)
    have hinode : ((dropped (dropped s d name) d name).dentries.get d).d_inode = some j := by
      rw [get_dropped d name hlt₁]
      exact hj
    have halloc : d_alloc (dropped s d name) d name =
        some (dropped (dropped s d name) d name, (dropped s d name).dentries.next) := by
      rw [d_alloc, if_pos hm₁.valid.1]
      rfl
    simp only [halloc, Option.bind_some, hinode] at hrest
    have hmade : ∀ mode bound, mode &&& S_IFMT = S_IFREG →
        bound = (dropped s d name).initramfs_inodes.next ∨ bound = ((dropped s d name).inodes.get j).i_private →
        Returned s (made_in (dropped s d name) d j name mode bound) (.ok (dropped s d name).dentries.next) := by
      intro mode bound hmode hb
      refine ⟨.tail (.single hdrop) (.make mode bound hm₁ hmode hb), ?_⟩
      rintro _ ⟨⟩
      exact (cached_looked_up h₁ hm₁.cached).2 (.inr rfl)
    split at hrest
    · rename_i hmode
      have hcreate := create_in d hp hnone mode
      simp only [hcreate, Option.bind_some, Option.some.injEq, Prod.mk.injEq] at hrest
      obtain ⟨rfl, rfl⟩ := hrest
      exact hmade _ _ hmode (.inl rfl)
    · split at hrest
      · have hmkdir := mkdir_in d hp hnone mode
        simp only [hmkdir, Option.bind_some, Option.some.injEq, Prod.mk.injEq] at hrest
        obtain ⟨rfl, rfl⟩ := hrest
        exact hmade _ _ (type_perm (by decide) mode) (.inr rfl)
      · simp only [Option.some.injEq, Prod.mk.injEq] at hrest
        obtain ⟨rfl, rfl⟩ := hrest
        exact .error (.tail (.single hdrop) (.cache (.drop hm₁ hnone))) _

theorem create_new_dentry_returned {path : Path} {mode : Nat} {r : Except Int Nat} (h : Wf s)
    (hf : create_new_dentry s path mode = some (s', r)) : Returned s s' r := by
  simp only [create_new_dentry, Option.bind_eq_bind, Option.bind_eq_some_iff] at hf
  obtain ⟨⟨s₁, found⟩, hselect, hrest⟩ := hf
  have hret := select_file_returned h hselect
  cases found with
  | error e =>
    obtain ⟨rfl, rfl⟩ : s₁ = s' ∧ .error (-ENOENT) = r := by simpa using hrest
    exact .error hret.steps _
  | ok p =>
    obtain ⟨j, hj, hrest⟩ := Option.bind_eq_some_iff.1 hrest
    split at hrest
    · obtain ⟨rfl, rfl⟩ : s₁ = s' ∧ .error (-ENOTDIR) = r := by simpa using hrest
      exact .error hret.steps _
    · obtain ⟨name, hname, hcreate⟩ := Option.bind_eq_some_iff.1 hrest
      exact (create_dentry_returned (fs_steps_wf h hret.steps) (hret.cached p rfl) (file_name_spec hname) hcreate).after
        hret.steps

theorem mkdir_returned {path : Path} {mode : Nat} {r : Except Int Nat} (h : Wf s)
    (hf : mkdir s path mode = some (s', r)) : Returned s s' r := create_new_dentry_returned h hf

theorem filp_open_returned {path : Path} {flags mode : Nat} {r : Except Int Nat} (h : Wf s)
    (hf : filp_open s path flags mode = some (s', r)) : Returned s s' r := by
  simp only [filp_open, Option.bind_eq_bind, Option.bind_eq_some_iff] at hf
  obtain ⟨⟨s₁, found⟩, hselect, hrest⟩ := hf
  have hret := select_file_returned h hselect
  cases found with
  | ok c =>
    obtain ⟨rfl, rfl⟩ : s₁ = s' ∧ .ok c = r := by simpa using hrest
    exact hret
  | error e =>
    dsimp only at hrest
    split at hrest
    · exact (create_new_dentry_returned (fs_steps_wf h hret.steps) hrest).after hret.steps
    · obtain ⟨rfl, rfl⟩ : s₁ = s' ∧ .error (-ENOENT) = r := by simpa using hrest
      exact .error hret.steps _

end

/-! ## Dentries that paths lead to -/

/-- The root, or in the list of its parent, which is cached. -/
def Parented (s : FS) (d : Nat) : Prop := d = s.root_dentry ∨ ∃ p, Cached s p ∧ d ∈ (s.dentries.get p).d_hash

theorem find_dentry_parented {s s' : FS} {d c : Nat} {name : Name} (h : Wf s) (hd : Cached s d)
    (hn : '/' ∉ name ∧ name.length < 128) (hf : find_dentry s d name = some (s', .ok c)) : Parented s' c := by
  obtain ⟨hv, -⟩ := find_dentry_returned h hd hn hf
  rcases find_dentry_spec h hd hv with ⟨c', hc, hfind⟩ | ⟨i, hm, ⟨hnone, hfind⟩ | ⟨f, hlook, hfind⟩⟩
  · obtain ⟨rfl, rfl⟩ : s = s' ∧ c' = c := by simpa [hfind] using hf
    exact .inr ⟨d, hd, (mem_of_d_lookup hc).1⟩
  · simp [hfind] at hf
  · obtain ⟨rfl, rfl⟩ : looked_up s d name f i = s' ∧ s.dentries.next = c := by simpa [hfind] using hf
    refine .inr ⟨d, (cached_looked_up h hd).2 (.inl hd), ?_⟩
    rw [hash_looked_up (h.lt hd), if_pos rfl]
    exact List.mem_cons_self

theorem select_from_parented {path : Path} {s s' : FS} {d i k c : Nat} (h : Wf s) (hd : Cached s d)
    (hparent : Parented s d) (hf : select_from path s d i k = some (s', .ok c)) : Parented s' c := by
  induction k generalizing s d i with
  | zero =>
    obtain ⟨rfl, rfl⟩ : s = s' ∧ d = c := by simpa [select_from] using hf
    exact hparent
  | succ k ih =>
    simp only [select_from, Option.bind_eq_bind, Option.bind_eq_some_iff] at hf
    obtain ⟨name, hname, ⟨s₁, found⟩, hfind, hrest⟩ := hf
    obtain ⟨-, hret⟩ := find_dentry_returned h hd (file_name_spec hname) hfind
    cases found with
    | error e => simp at hrest
    | ok x =>
      exact ih (fs_steps_wf h hret.steps) (hret.cached x rfl)
        (find_dentry_parented h hd (file_name_spec hname) hfind) hrest

theorem select_file_parented {path : Path} {s s' : FS} {c : Nat} (h : Wf s)
    (hf : select_file s path 0 = some (s', .ok c)) : Parented s' c := by
  unfold select_file at hf
  split at hf
  · obtain ⟨rfl, rfl⟩ : s = s' ∧ s.root_dentry = c := by simpa using hf
    exact .inl rfl
  · exact select_from_parented h (.inl rfl) (.inl rfl) hf

/-! ## The root file system -/

theorem root_hash (nul_harms : Name → Bool) (p : Nat) : ((root_fs nul_harms).dentries.get p).d_hash = [] := by
  simp only [root_fs, Pool.get_alloc, Pool.empty]
  split <;> rfl

theorem root_list (nul_harms : Name → Bool) (n : Nat) : ((root_fs nul_harms).initramfs_inodes.get n).dentry_list_head = [] := by
  simp only [root_fs, Pool.get_alloc, Pool.empty]
  split <;> rfl

/-- The root file system is well formed. -/
theorem wf_root (nul_harms : Name → Bool) : Wf (root_fs nul_harms) := by
  refine ⟨Nat.zero_lt_one, rfl, ?_, ?_, ?_⟩
  · intro p d hd
    simp [root_hash] at hd
  · intro d hd
    rcases hd with rfl | ⟨p, hp⟩
    · exact ⟨0, rfl, Nat.zero_lt_one, Nat.zero_lt_one⟩
    · simp [root_hash] at hp
  · intro n f hf
    simp [root_list] at hf

end McLinOS.Fs
