import McLinOS.CLib.Runs
import McLinOS.Fs.OpenFiles
/-!
# Files that are not removed stay

As long as nothing is removed, each inode is behind a cached dentry, which is
the one reference that is never given back. No count comes to 0 then.
-/
open CLib

namespace McLinOS.OpenFiles

open Fs

/-! ## One dentry for each inode -/

/-- The type of a file or a directory. -/
def PlainType (mode : Nat) : Prop := mode &&& S_IFMT = S_IFREG ∨ mode &&& S_IFMT = S_IFDIR

/-- Each inode has one dentry, and only the root has a superblock. -/
structure Sole (s : FS) : Prop where
  hash : ∀ p, (s.dentries.get p).d_hash.Nodup
  d_inode : ∀ x y i, Cached s x → Cached s y → (s.dentries.get x).d_inode = some i →
    (s.dentries.get y).d_inode = some i → x = y
  d_sb : ∀ x, Cached s x → x ≠ s.root_dentry → (s.dentries.get x).d_sb = none
  i_sb : ∀ i < s.inodes.next, (s.inodes.get i).i_sb = none
  i_mode : ∀ i < s.inodes.next, PlainType (s.inodes.get i).i_mode
  node_mode : ∀ n < s.initramfs_inodes.next, PlainType (s.initramfs_inodes.get n).i_mode

section
variable {s s' : FS} {d i f : Nat} {name : Name}

theorem sole_dropped (h : Wf s) (hs : Sole s) (d : Nat) (name : Name) : Sole (dropped s d name) where
  hash := hash_nodup_dropped hs.hash d name
  d_inode := by
    intro x y i hx hy hxi hyi
    have hx := (cached_dropped h).1 hx
    have hy := (cached_dropped h).1 hy
    rw [get_dropped d name (h.lt hx)] at hxi
    rw [get_dropped d name (h.lt hy)] at hyi
    exact hs.d_inode x y i hx hy hxi hyi
  d_sb := by
    intro x hx hne
    have hx := (cached_dropped h).1 hx
    rw [get_dropped d name (h.lt hx)]
    exact hs.d_sb x hx hne
  i_sb := hs.i_sb
  i_mode := hs.i_mode
  node_mode := hs.node_mode

/-- The inode of the new dentry is no other dentry's. -/
theorem d_inode_looked_up (h : Wf s) (hs : Sole s) (hd : Cached s d) {f x y j : Nat}
    (hx : Cached (looked_up s d name f i) x) (hy : Cached (looked_up s d name f i) y)
    (hxj : ((looked_up s d name f i).dentries.get x).d_inode = some j)
    (hyj : ((looked_up s d name f i).dentries.get y).d_inode = some j) : x = y := by
  have hold : ∀ z, Cached s z → ((looked_up s d name f i).dentries.get z).d_inode = some j →
      (s.dentries.get z).d_inode = some j ∧ j < s.inodes.next := by
    intro z hz hzj
    rw [inode_looked_up (h.lt hz)] at hzj
    obtain ⟨k, hk, hlt, -⟩ := h.bound z hz
    obtain rfl := Option.some.inj (hk.symm.trans hzj)
    exact ⟨hzj, hlt⟩
  have hnew : ((looked_up s d name f i).dentries.get s.dentries.next).d_inode = some j → j = s.inodes.next := by
    intro hj
    rw [get_looked_up_next (h.lt hd)] at hj
    exact (Option.some.inj hj).symm
  rcases (cached_looked_up h hd).1 hx with hx | rfl <;> rcases (cached_looked_up h hd).1 hy with hy | rfl
  · exact hs.d_inode x y j hx hy (hold x hx hxj).1 (hold y hy hyj).1
  · exact absurd (hold x hx hxj).2 (Nat.not_lt_of_le (Nat.le_of_eq (hnew hyj).symm))
  · exact absurd (hold y hy hyj).2 (Nat.not_lt_of_le (Nat.le_of_eq (hnew hxj).symm))
  · rfl

theorem d_sb_looked_up (h : Wf s) (hs : Sole s) (hm : Miss s d name i) (f : Nat) {x : Nat}
    (hx : Cached (looked_up s d name f i) x) (hne : x ≠ s.root_dentry) :
    ((looked_up s d name f i).dentries.get x).d_sb = none := by
  rcases (cached_looked_up h hm.cached).1 hx with hx | rfl
  · rw [sb_looked_up (h.lt hx)]
    exact hs.d_sb x hx hne
  · obtain ⟨j, hj, hlt, -⟩ := h.bound d hm.cached
    obtain rfl := Option.some.inj (hj.symm.trans hm.d_inode)
    rw [get_looked_up_next (h.lt hm.cached)]
    exact hs.i_sb j hlt

theorem sole_looked_up (h : Wf s) (hs : Sole s) (hm : Miss s d name i)
    (hf : initramfs_lookup s (s.inodes.get i).i_private name = some f) : Sole (looked_up s d name f i) := by
  obtain ⟨j, hj, hlt, -⟩ := h.bound d hm.cached
  obtain rfl : j = i := Option.some.inj (hj.symm.trans hm.d_inode)
  have hnew : (looked_up s d name f j).inodes.get s.inodes.next = _ := Pool.get_alloc_next s.inodes _
  refine ⟨hash_nodup_looked_up h hm.cached hs.hash f j, fun x y k => d_inode_looked_up h hs hm.cached,
    fun x => d_sb_looked_up h hs hm f, ?_, ?_, hs.node_mode⟩
  · intro k hk
    rcases Nat.lt_succ_iff_lt_or_eq.1 hk with hk | rfl
    · rw [inodes_looked_up hk]
      exact hs.i_sb k hk
    · rw [hnew]
      exact hs.i_sb j hlt
  · intro k hk
    rcases Nat.lt_succ_iff_lt_or_eq.1 hk with hk | rfl
    · rw [inodes_looked_up hk]
      exact hs.i_mode k hk
    · rw [hnew]
      exact hs.node_mode _ (h.entry _ f (mem_of_lookup hf)).2

theorem sole_made_in (h : Wf s) (hs : Sole s) (hm : Miss s d name i) {mode bound : Nat}
    (hmode : mode &&& S_IFMT = S_IFREG)
    (hb : bound = s.initramfs_inodes.next ∨ bound = (s.inodes.get i).i_private) :
    Sole (made_in s d i name mode bound) := by
  obtain ⟨j, hj, hjlt, hlt⟩ := h.bound d hm.cached
  obtain rfl : j = i := Option.some.inj (hj.symm.trans hm.d_inode)
  have hnode : ∀ n < s.initramfs_inodes.next + 1,
      PlainType ((made_in s d j name mode bound).initramfs_inodes.get n).i_mode := by
    intro n hn
    rw [get_made_in hlt]
    split
    · rename_i hdir
      exact hs.node_mode n (hdir ▸ hlt)
    · rcases Nat.lt_succ_iff_lt_or_eq.1 hn with hn | rfl
      · rw [if_neg (Nat.ne_of_lt hn)]
        exact hs.node_mode n hn
      · rw [if_pos rfl]
        exact .inl hmode
  have hnew : (made_in s d j name mode bound).inodes.get s.inodes.next = _ := Pool.get_alloc_next s.inodes _
  have hold : ∀ k < s.inodes.next, (made_in s d j name mode bound).inodes.get k = s.inodes.get k :=
    fun k hk => Pool.get_alloc_lt hk _
  refine ⟨hash_nodup_looked_up h hm.cached hs.hash _ j, fun x y k => d_inode_looked_up h hs hm.cached,
    fun x => d_sb_looked_up h hs hm _, ?_, ?_, hnode⟩
  · intro k hk
    rcases Nat.lt_succ_iff_lt_or_eq.1 hk with hk | rfl
    · rw [hold k hk]
      exact hs.i_sb k hk
    · rw [hnew]
      exact hs.i_sb j hjlt
  · intro k hk
    rcases Nat.lt_succ_iff_lt_or_eq.1 hk with hk | rfl
    · rw [hold k hk]
      exact hs.i_mode k hk
    · rw [hnew]
      apply hnode bound
      rcases hb with rfl | rfl
      · exact Nat.lt_succ_self _
      · exact Nat.lt_succ_of_lt hlt

theorem sole_root (nul_harms : Name → Bool) : Sole (root_fs nul_harms) := by
  have hdir : (S_IFDIR ||| 0o755) &&& S_IFMT = S_IFDIR := by decide
  have honly : ∀ x, Cached (root_fs nul_harms) x → x = 0 := by
    rintro x (rfl | ⟨p, hp⟩)
    · rfl
    · simp [root_hash] at hp
  refine ⟨?_, ?_, ?_, ?_, ?_, ?_⟩
  · intro p
    rw [root_hash]
    exact List.nodup_nil
  · intro x y i hx hy _ _
    rw [honly x hx, honly y hy]
  · intro x hx hne
    exact absurd (honly x hx) hne
  · intro i hi
    obtain rfl : i = 0 := Nat.lt_one_iff.1 hi
    rfl
  · intro i hi
    obtain rfl : i = 0 := Nat.lt_one_iff.1 hi
    exact .inr hdir
  · intro n hn
    obtain rfl : n = 0 := Nat.lt_one_iff.1 hn
    exact .inr hdir

end

/-! ## The tree -/

/-- Every object has something that leads to it. -/
structure Kept (s : FS) : Prop where
  wf : Wf s
  sole : Sole s
  root_sb : ∃ sb, (s.dentries.get s.root_dentry).d_sb = some sb ∧ (s.supers.get sb).s_root = s.root_dentry
  inode : ∀ i < s.inodes.next, ∃ d, Cached s d ∧ (s.dentries.get d).d_inode = some i
  node : ∀ n < s.initramfs_inodes.next,
    (∃ m < s.initramfs_inodes.next, ∃ f ∈ (s.initramfs_inodes.get m).dentry_list_head,
      (s.initramfs_dentries.get f).target_inode = n) ∨ ∃ i < s.inodes.next, (s.inodes.get i).i_private = n

section
variable {s s' : FS} {d i f : Nat} {name : Name}

/-- The dentry that a lookup caches has the inode that it makes. -/
theorem inode_of_looked_up (h : Kept s) (hd : Cached s d) (f : Nat) {j : Nat} (hj : j < s.inodes.next + 1) :
    ∃ x, Cached (looked_up s d name f i) x ∧ ((looked_up s d name f i).dentries.get x).d_inode = some j := by
  rcases Nat.lt_succ_iff_lt_or_eq.1 hj with hj | rfl
  · obtain ⟨x, hx, hinode⟩ := h.inode j hj
    refine ⟨x, (cached_looked_up h.wf hd).2 (.inl hx), ?_⟩
    rw [inode_looked_up (h.wf.lt hx)]
    exact hinode
  · refine ⟨s.dentries.next, (cached_looked_up h.wf hd).2 (.inr rfl), ?_⟩
    rw [get_looked_up_next (h.wf.lt hd)]

theorem kept_dropped (h : Kept s) (d : Nat) (name : Name) : Kept (dropped s d name) where
  wf := h.wf.dropped d name
  sole := sole_dropped h.wf h.sole d name
  root_sb := by
    show ∃ sb, ((dropped s d name).dentries.get s.root_dentry).d_sb = some sb ∧ _
    rw [get_dropped d name h.wf.root_lt]
    exact h.root_sb
  inode := by
    intro i hi
    obtain ⟨x, hx, hinode⟩ := h.inode i hi
    refine ⟨x, (cached_dropped h.wf).2 hx, ?_⟩
    rw [get_dropped d name (h.wf.lt hx)]
    exact hinode
  node := h.node

theorem kept_looked_up (h : Kept s) (hm : Miss s d name i)
    (hf : initramfs_lookup s (s.inodes.get i).i_private name = some f) : Kept (looked_up s d name f i) where
  wf := h.wf.looked_up hm hf
  sole := sole_looked_up h.wf h.sole hm hf
  root_sb := by
    show ∃ sb, ((looked_up s d name f i).dentries.get s.root_dentry).d_sb = some sb ∧ _
    rw [sb_looked_up h.wf.root_lt]
    exact h.root_sb
  inode _ hj := inode_of_looked_up h hm.cached f hj
  node := by
    intro n hn
    apply (h.node n hn).imp_right
    rintro ⟨j, hj, hnode⟩
    refine ⟨j, Nat.lt_succ_of_lt hj, ?_⟩
    rw [inodes_looked_up hj]
    exact hnode

theorem kept_made_in (h : Kept s) (hm : Miss s d name i) {mode bound : Nat} (hmode : mode &&& S_IFMT = S_IFREG)
    (hb : bound = s.initramfs_inodes.next ∨ bound = (s.inodes.get i).i_private) :
    Kept (made_in s d i name mode bound) where
  wf := h.wf.made_in hm mode hb
  sole := sole_made_in h.wf h.sole hm hmode hb
  root_sb := by
    show ∃ sb, ((looked_up s d name _ i).dentries.get s.root_dentry).d_sb = some sb ∧ _
    rw [sb_looked_up h.wf.root_lt]
    exact h.root_sb
  inode _ hj := inode_of_looked_up h hm.cached _ hj
  node := by
    obtain ⟨j, hj, -, hlt⟩ := h.wf.bound d hm.cached
    obtain rfl : j = i := Option.some.inj (hj.symm.trans hm.d_inode)
    intro n hn
    rcases Nat.lt_succ_iff_lt_or_eq.1 hn with hn | rfl
    · rcases h.node n hn with ⟨m, hm, f, hf, htarget⟩ | ⟨k, hk, hnode⟩
      · refine .inl ⟨m, Nat.lt_succ_of_lt hm, f, ?_, ?_⟩
        · rw [get_made_in hlt]
          split
          · exact List.mem_cons_of_mem _ hf
          · rw [if_neg (Nat.ne_of_lt hm)]
            exact hf
        · have hget : (made_in s d j name mode bound).initramfs_dentries.get f = s.initramfs_dentries.get f :=
            Pool.get_alloc_lt (h.wf.entry m f hf).1 _
          rw [hget]
          exact htarget
      · refine .inr ⟨k, Nat.lt_succ_of_lt hk, ?_⟩
        have hget : (made_in s d j name mode bound).inodes.get k = s.inodes.get k := Pool.get_alloc_lt hk _
        rw [hget]
        exact hnode
    · refine .inl ⟨(s.inodes.get j).i_private, Nat.lt_succ_of_lt hlt, s.initramfs_dentries.next, ?_, ?_⟩
      · rw [get_made_in hlt, if_pos rfl]
        exact List.mem_cons_self
      · have hget : (made_in s d j name mode bound).initramfs_dentries.get s.initramfs_dentries.next = _ :=
          Pool.get_alloc_next s.initramfs_dentries _
        rw [hget]

theorem kept_step (h : Kept s) (hs : FsStep s s') : Kept s' := by
  cases hs with
  | cache hc =>
    cases hc with
    | drop hm hnone => exact kept_dropped h _ _
    | add hm hf => exact kept_looked_up h hm hf
  | make mode bound hm hmode hb => exact kept_made_in h hm hmode hb

theorem le_of_step (hs : FsStep s s') :
    s.inodes.next ≤ s'.inodes.next ∧ s.initramfs_inodes.next ≤ s'.initramfs_inodes.next := by
  cases hs with
  | cache hc =>
    cases hc with
    | drop => exact ⟨Nat.le_refl _, Nat.le_refl _⟩
    | add => exact ⟨Nat.le_succ _, Nat.le_refl _⟩
  | make => exact ⟨Nat.le_succ _, Nat.le_succ _⟩

theorem kept_steps (h : Kept s) (hs : Relation.ReflTransGen FsStep s s') :
    Kept s' ∧ s.inodes.next ≤ s'.inodes.next ∧ s.initramfs_inodes.next ≤ s'.initramfs_inodes.next := by
  induction hs with
  | refl => exact ⟨h, Nat.le_refl _, Nat.le_refl _⟩
  | tail _ hstep ih =>
    obtain ⟨hk, hi, hn⟩ := ih
    obtain ⟨hi', hn'⟩ := le_of_step hstep
    exact ⟨kept_step hk hstep, hi.trans hi', hn.trans hn'⟩

theorem kept_root (nul_harms : Name → Bool) : Kept (root_fs nul_harms) := by
  refine ⟨wf_root _, sole_root _, ⟨0, rfl, rfl⟩, ?_, ?_⟩
  · intro i hi
    obtain rfl : i = 0 := Nat.lt_one_iff.1 hi
    exact ⟨0, .inl rfl, rfl⟩
  · intro n hn
    obtain rfl : n = 0 := Nat.lt_one_iff.1 hn
    exact .inr ⟨0, Nat.zero_lt_one, rfl⟩

end

/-! ## Counts -/

/-- Each count is the number of open files and one more, so no VFS inode is
freed. -/
structure Counted (s : State) : Prop where
  count : ∀ i, s.i_count i = 1 + (s.files.countP fun file => file.f_inode = i)
  kept : ∀ i, .inode i ∉ s.freed

section
variable {s s' : State}

theorem Counted.congr (h : Counted s) (hcount : s'.i_count = s.i_count) (hfiles : s'.files = s.files)
    (hfreed : ∀ i, Object.inode i ∈ s'.freed → Object.inode i ∈ s.freed) : Counted s' := by
  refine ⟨fun i => ?_, fun i hi => h.kept i (hfreed i hi)⟩
  rw [hcount, hfiles]
  exact h.count i

/-- Opening a dentry counts its inode up. -/
theorem Counted.f_get (h : Counted s) {d flags : Nat} {r : State × file} (hget : f_get s d flags = some r) :
    ∃ i, (s.fs.dentries.get d).d_inode = some i ∧ r.1 = { s with
      i_count := Function.update s.i_count i (s.i_count i + 1), files := ⟨i, flags⟩ :: s.files } ∧ Counted r.1 := by
  obtain ⟨i, hi, hget⟩ := Option.bind_eq_some_iff.1 hget
  simp only [inode_get, h.kept i, if_false, Option.bind_eq_bind, Option.bind_some, Option.some.injEq] at hget
  subst hget
  refine ⟨i, hi, rfl, fun j => ?_, h.kept⟩
  have hj := h.count j
  simp only [Function.update_apply, List.countP_cons, decide_eq_true_eq]
  by_cases hji : j = i
  · subst hji
    simp only [if_true]
    omega
  · simp only [if_neg hji, if_neg (Ne.symm hji)]
    omega

/-- Closing an open file gives back a count that is not the last. -/
theorem Counted.filp_close (h : Counted s) {file : OpenFiles.file} (hfile : file ∈ s.files)
    (hclose : filp_close s file = some s') : s' = { s with
      i_count := Function.update s.i_count file.f_inode (s.i_count file.f_inode - 1)
      files := s.files.erase file } ∧ Counted s' := by
  have hpos : 0 < s.files.countP fun x => x.f_inode = file.f_inode := List.countP_pos_iff.2 ⟨file, hfile, by simp⟩
  have hcount := h.count file.f_inode
  have hkeep : ¬(s.i_count file.f_inode - 1 = 0 ∨ s.i_count file.f_inode - 1 < 0) := by omega
  simp only [OpenFiles.filp_close, f_put, inode_put, h.kept, if_false, Function.update_self, hkeep,
    Option.map_some, Option.some.injEq] at hclose
  subst hclose
  refine ⟨rfl, fun j => ?_, h.kept⟩
  have hperm := (List.perm_cons_erase hfile).countP_eq fun x => x.f_inode = j
  have hj := h.count j
  simp only [List.countP_cons, decide_eq_true_eq] at hperm
  simp only [Function.update_apply]
  by_cases hi : j = file.f_inode
  · subst hi
    simp only [if_true] at hperm ⊢
    omega
  · simp only [if_neg hi, if_neg (Ne.symm hi)] at hperm ⊢
    omega

end

/-! ## The invariant -/

/-- Nothing is freed, and the pages hold what was written. -/
structure Inv (s : State) : Prop where
  kept : Kept s.fs
  counted : Counted s
  f_inode : ∀ file ∈ s.files, file.f_inode < s.fs.inodes.next
  freed : s.freed = []
  i_page : ∀ n p, s.i_page n = some p → n < s.fs.initramfs_inodes.next ∧ p < s.pages.next ∧ s.size n < 2 ^ 31
  page_inj : ∀ n m p, s.i_page n = some p → s.i_page m = some p → n = m
  writable : ∀ n, s.i_page n ≠ none → s.read_only n = false → s.size n = PAGE_SIZE
  content : ∀ n k b, s.content n k = some b → ∃ p, s.i_page n = some p ∧ k < s.size n ∧ (s.pages.get p).data k = b

section
variable {s s' : State} {file : file}

theorem Inv.with_fs {fs : FS} (h : Inv s) (hs : Relation.ReflTransGen FsStep s.fs fs) : Inv { s with fs } := by
  obtain ⟨hkept, hi, hn⟩ := kept_steps h.kept hs
  refine ⟨hkept, h.counted.congr rfl rfl fun _ => id, ?_, h.freed, ?_, h.page_inj, h.writable, h.content⟩
  · intro x hx
    exact Nat.lt_of_lt_of_le (h.f_inode x hx) hi
  · intro n p hp
    obtain ⟨hlt, hrest⟩ := h.i_page n p hp
    exact ⟨Nat.lt_of_lt_of_le hlt hn, hrest⟩

/-- The inode of an open file has one of initramfs. -/
theorem Inv.private_lt (h : Inv s) {i : Nat} (hi : i < s.fs.inodes.next) :
    (s.fs.inodes.get i).i_private < s.fs.initramfs_inodes.next := by
  obtain ⟨d, hd, hinode⟩ := h.kept.inode i hi
  obtain ⟨j, hj, -, hlt⟩ := h.kept.wf.bound d hd
  obtain rfl := Option.some.inj (hinode.symm.trans hj)
  exact hlt

theorem Inv.file_node (h : Inv s) (file : OpenFiles.file) :
    file_node s file = some (s.fs.inodes.get file.f_inode).i_private := by
  simp [OpenFiles.file_node, h.freed]

theorem Inv.f_get (h : Inv s) {d flags : Nat} {r : State × OpenFiles.file} (hd : Cached s.fs d)
    (hget : f_get s d flags = some r) : Inv r.1 := by
  obtain ⟨i, hi, hr, hcounted⟩ := h.counted.f_get hget
  obtain ⟨j, hj, hlt, -⟩ := h.kept.wf.bound d hd
  obtain rfl := Option.some.inj (hi.symm.trans hj)
  rw [hr] at hcounted ⊢
  exact ⟨h.kept, hcounted, List.forall_mem_cons.2 ⟨hlt, h.f_inode⟩, h.freed, h.i_page, h.page_inj, h.writable, h.content⟩

theorem Inv.filp_close (h : Inv s) (hfile : file ∈ s.files) (hclose : filp_close s file = some s') : Inv s' := by
  obtain ⟨hs', hcounted⟩ := h.counted.filp_close hfile hclose
  rw [hs'] at hcounted ⊢
  exact ⟨h.kept, hcounted, fun x hx => h.f_inode x (List.mem_of_mem_erase hx), h.freed, h.i_page, h.page_inj, h.writable,
    h.content⟩

/-- What the overlay has from the new data is that data in both. -/
theorem overlay_content {data : Nat → UInt8} {content : Nat → Option UInt8} (hold : ∀ k b, content k = some b → data k = b)
    (pos : Nat) (buf : List UInt8) (k : Nat) (b : UInt8) (hb : overlay content pos (buf.map some) k = some b) :
    overlay data pos buf k = b ∧ (content k = some b ∨ k < pos + buf.length) := by
  simp only [overlay] at hb ⊢
  split at hb
  · rename_i hpos
    rw [if_pos hpos]
    by_cases hlt : k - pos < buf.length
    · rw [List.getD_eq_getElem _ _ (by simpa using hlt), List.getElem_map] at hb
      rw [List.getD_eq_getElem _ _ hlt, Option.some.inj hb]
      exact ⟨rfl, .inr (by omega)⟩
    · rw [List.getD_eq_default _ _ (by simpa using Nat.le_of_not_lt hlt)] at hb
      rw [List.getD_eq_default _ _ (Nat.le_of_not_lt hlt)]
      exact ⟨hold k b hb, .inl hb⟩
  · rename_i hpos
    rw [if_neg hpos]
    exact ⟨hold k b hb, .inl hb⟩

/-- A page for an inode that has none. -/
theorem Inv.new_page (h : Inv s) {n : Nat} (hn : n < s.fs.initramfs_inodes.next) (hnone : s.i_page n = none) {size : Nat}
    (hsize : size < 2 ^ 31) (data : Nat → UInt8) (hwrite : s.read_only n = false → size = PAGE_SIZE) :
    Inv (new_page s n size data) := by
  have hfresh : ∀ m, s.i_page m ≠ some s.pages.next := fun m hm => Nat.lt_irrefl _ (h.i_page m _ hm).2.1
  refine ⟨h.kept, h.counted.congr rfl rfl fun _ => id, h.f_inode, h.freed, ?_, ?_, ?_, ?_⟩
  · intro m p hp
    simp only [OpenFiles.new_page, Function.update_apply] at hp ⊢
    split at hp
    · rename_i hmn
      obtain rfl := Option.some.inj hp
      rw [if_pos hmn, hmn]
      exact ⟨hn, Nat.lt_succ_self _, hsize⟩
    · rename_i hmn
      obtain ⟨hlt, hp, hs⟩ := h.i_page m p hp
      rw [if_neg hmn]
      exact ⟨hlt, Nat.lt_succ_of_lt hp, hs⟩
  · intro m l p hm hl
    simp only [OpenFiles.new_page, Function.update_apply] at hm hl
    split at hm <;> split at hl
    · simp_all
    · obtain rfl := Option.some.inj hm
      exact absurd hl (hfresh l)
    · obtain rfl := Option.some.inj hl
      exact absurd hm (hfresh m)
    · exact h.page_inj m l p hm hl
  · intro m hm hro
    simp only [OpenFiles.new_page, Function.update_apply] at hm hro ⊢
    split
    · rename_i hmn
      exact hwrite (hmn ▸ hro)
    · rename_i hmn
      rw [if_neg hmn] at hm
      exact h.writable m hm hro
  · intro m k b hb
    obtain ⟨p, hp, hk, hdata⟩ := h.content m k b hb
    have hmn : m ≠ n := by
      rintro rfl
      rw [hnone] at hp
      cases hp
    refine ⟨p, ?_, ?_, ?_⟩
    · simp only [OpenFiles.new_page, Function.update_apply, if_neg hmn, hp]
    · simpa only [OpenFiles.new_page, Function.update_apply, if_neg hmn] using hk
    · have hp_ne : p ≠ s.pages.next := Nat.ne_of_lt (h.i_page m p hp).2.1
      simp only [OpenFiles.new_page, Pool.get_modify_ne hp_ne, Pool.get_alloc, if_neg hp_ne, hdata]

/-- New content for an inode whose page holds it. -/
theorem Inv.store (h : Inv s) {n p : Nat} (hp : s.i_page n = some p) {pages : Pool page} {content : Nat → Option UInt8}
    (hnext : pages.next = s.pages.next) (hother : ∀ q, q ≠ p → pages.get q = s.pages.get q)
    (hcontent : ∀ k b, content k = some b → k < s.size n ∧ (pages.get p).data k = b) :
    Inv { s with pages, content := Function.update s.content n content } := by
  refine ⟨h.kept, h.counted.congr rfl rfl fun _ => id, h.f_inode, h.freed, ?_, h.page_inj, h.writable, ?_⟩
  · intro m q hq
    rw [hnext]
    exact h.i_page m q hq
  · intro m k b hb
    simp only [Function.update_apply] at hb
    split at hb
    · rename_i hmn
      subst hmn
      exact ⟨p, hp, hcontent k b hb⟩
    · rename_i hmn
      obtain ⟨q, hq, hk, hdata⟩ := h.content m k b hb
      have hqp : q ≠ p := by
        rintro rfl
        exact hmn (h.page_inj m n q hq hp)
      exact ⟨q, hq, hk, by rw [hother q hqp, hdata]⟩

theorem access_end_eq {pos e : Int} {count : Nat} (h : access_end pos count = some e) : e = pos + count := by
  unfold access_end at h
  split at h
  · cases h
  · exact (Option.some.inj h).symm

/-- The page that a write makes. -/
theorem Inv.with_page (h : Inv s) (junk : Nat → UInt8) {n : Nat} (hn : n < s.fs.initramfs_inodes.next) :
    Inv (with_page junk s n) := by
  unfold OpenFiles.with_page
  split
  · rename_i hnone
    exact h.new_page hn hnone (by decide) junk fun _ => rfl
  · exact h

theorem with_page_read_only (junk : Nat → UInt8) (s : State) (n : Nat) :
    (with_page junk s n).read_only = s.read_only := by
  unfold with_page
  split <;> rfl

/-! ### What a write does -/

theorem file_node_eq {n : Nat} (h : file_node s file = some n) : (s.fs.inodes.get file.f_inode).i_private = n := by
  obtain ⟨-, h⟩ := Option.ite_none_left_eq_some.1 h
  obtain ⟨-, h⟩ := Option.ite_none_left_eq_some.1 h
  exact Option.some.inj h

/-- What a write to the inode `n` leaves: all as it was, a page for the inode, or the bytes
before its page or in it. A write that stays in its page has no bytes before it. -/
inductive Written (junk : Nat → UInt8) (alloc_page : Bool) (s : State) (file : OpenFiles.file) (n : Nat)
    (buf : List UInt8) (pos : Int) : State → Prop
  | nothing : Written junk alloc_page s file n buf pos s
  | paged (hro : s.read_only n = false) : Written junk alloc_page s file n buf pos (with_page junk s n)
  | before (p : Nat) (hro : s.read_only n = false) (hnone : in_page s (.kernel_write alloc_page file buf pos) → buf = []) :
      Written junk alloc_page s file n buf pos { with_page junk s n with
        pages := memcpy (with_page junk s n).addr (with_page junk s n).pages
          ((with_page junk s n).addr p + UInt32.ofInt pos) buf }
  | stored (p : Nat) (hro : s.read_only n = false) (hp : (with_page junk s n).i_page n = some p)
      (hend : pos.toNat + buf.length ≤ PAGE_SIZE) :
      Written junk alloc_page s file n buf pos { with_page junk s n with
        pages := (with_page junk s n).pages.modify p fun x => { x with data := overlay x.data pos.toNat buf }
        content := Function.update (with_page junk s n).content n
          (overlay ((with_page junk s n).content n) pos.toNat (buf.map some)) }

theorem kernel_write_written {junk : Nat → UInt8} {alloc_page : Bool} {buf : List UInt8} {pos e : Int}
    (h : kernel_write junk alloc_page s file buf pos = some (s', e)) :
    Written junk alloc_page s file (s.fs.inodes.get file.f_inode).i_private buf pos s' := by
  unfold kernel_write at h
  split at h
  · obtain ⟨rfl, -⟩ := Prod.mk.inj (Option.some.inj h)
    exact .nothing
  rename_i hflags
  obtain ⟨n, hn, h⟩ := Option.bind_eq_some_iff.1 h
  obtain rfl := file_node_eq hn
  split at h
  · obtain ⟨rfl, -⟩ := Prod.mk.inj (Option.some.inj h)
    exact .nothing
  rename_i hro
  split at h
  · obtain ⟨rfl, -⟩ := Prod.mk.inj (Option.some.inj h)
    exact .nothing
  rename_i hmem
  have hwritable := Bool.eq_false_iff.2 hro
  obtain ⟨last, hlast, h⟩ := Option.bind_eq_some_iff.1 h
  obtain rfl := access_end_eq hlast
  split at h
  · obtain ⟨rfl, -⟩ := Prod.mk.inj (Option.some.inj h)
    exact .paged hwritable
  rename_i hend
  obtain ⟨p, hp, h⟩ := Option.bind_eq_some_iff.1 h
  split at h
  · cases h
  split at h
  · rename_i hneg
    obtain ⟨rfl, -⟩ := Prod.mk.inj (Option.some.inj h)
    refine .before p hwritable ?_
    rintro (hin | hin | hin | hin | hin | hin)
    · exact absurd hin hflags
    · exact absurd hin hro
    · exact absurd hin hmem
    · omega
    · exact hin
    · omega
  · obtain ⟨rfl, -⟩ := Prod.mk.inj (Option.some.inj h)
    exact .stored p hwritable hp (by omega)

theorem Inv.kernel_write {junk : Nat → UInt8} {alloc_page : Bool} {buf : List UInt8} {pos e : Int} (h : Inv s)
    (hfile : file ∈ s.files) (hin : in_page s (.kernel_write alloc_page file buf pos))
    (hwrite : kernel_write junk alloc_page s file buf pos = some (s', e)) : Inv s' := by
  have hn := h.private_lt (h.f_inode file hfile)
  have hwritten := kernel_write_written hwrite
  generalize (s.fs.inodes.get file.f_inode).i_private = n at hn hwritten
  have h₁ := h.with_page junk hn
  cases hwritten with
  | nothing => exact h
  | paged hro => exact h₁
  | before p hro hnone =>
    obtain rfl := hnone hin
    exact h₁
  | stored p hro hp hend =>
    rw [← with_page_read_only junk s n] at hro
    generalize OpenFiles.with_page junk s n = s₁ at h₁ hro hp
    have hsize := h₁.writable n (by simp [hp]) hro
    have hold : ∀ k b, s₁.content n k = some b → k < s₁.size n ∧ (s₁.pages.get p).data k = b := by
      intro k b hb
      obtain ⟨q, hq, hk, hdata⟩ := h₁.content n k b hb
      obtain rfl := Option.some.inj (hp.symm.trans hq)
      exact ⟨hk, hdata⟩
    refine h₁.store hp rfl (fun q hq => Pool.get_modify_ne hq _) fun k b hb => ?_
    obtain ⟨hdata, hwhere⟩ := overlay_content (fun k b hb => (hold k b hb).2) pos.toNat buf k b hb
    refine ⟨?_, ?_⟩
    · rcases hwhere with hkept | hnew
      · exact (hold k b hkept).1
      · rw [hsize]
        omega
    · rw [Pool.get_modify, if_pos rfl]
      exact hdata

theorem Inv.mount_file {junk : Nat → UInt8} {filedata : List UInt8} {i : Nat} (h : Inv s) (hi : i < s.fs.inodes.next)
    (hlen : filedata.length < 2 ^ 31) (hmount : initram_fs_mount_file junk s i filedata = some s') : Inv s' := by
  have hn := h.private_lt hi
  rw [initram_fs_mount_file, h.file_node, Option.bind_eq_bind, Option.bind_some] at hmount
  dsimp only at hmount
  generalize (s.fs.inodes.get i).i_private = n at hmount hn
  split at hmount
  · obtain rfl := Option.some.inj hmount
    exact h
  · rename_i hnone
    have hnone : s.i_page n = none := not_not.1 hnone
    obtain rfl := Option.some.inj hmount
    have hro : Inv { s with read_only := Function.update s.read_only n true } := by
      refine ⟨h.kept, h.counted.congr rfl rfl fun _ => id, h.f_inode, h.freed, h.i_page, h.page_inj, fun m hm hro => ?_, h.content⟩
      have hmn : m ≠ n := by
        rintro rfl
        exact hm hnone
      exact h.writable m hm (by simpa [Function.update_apply, hmn] using hro)
    have hpage := hro.new_page hn hnone hlen (overlay junk 0 filedata) (by simp)
    have hp : (OpenFiles.new_page { s with read_only := Function.update s.read_only n true } n filedata.length
        (overlay junk 0 filedata)).i_page n = some s.pages.next := by simp [OpenFiles.new_page]
    refine hpage.store hp rfl (fun q _ => rfl) fun k b hb => ?_
    have hempty : ∀ k, s.content n k = none := by
      intro k
      cases hc : s.content n k with
      | none => rfl
      | some b =>
        obtain ⟨p, hp, -⟩ := h.content n k b hc
        rw [hnone] at hp
        cases hp
    obtain ⟨hdata, hwhere⟩ := @overlay_content junk (s.content n) (fun k b hb => by simp [hempty] at hb) 0 filedata k b hb
    refine ⟨?_, ?_⟩
    · rcases hwhere with hkept | hnew
      · simp [hempty] at hkept
      · simpa [OpenFiles.new_page] using hnew
    · simpa [OpenFiles.new_page, Pool.get_modify] using hdata

end

/-! ## Runs without removals -/

section
variable {stray : Bool} {junk : Nat → UInt8} {s s' : State}

theorem Inv.filp_open {path : Path} {flags mode : Nat} {r : Except Int file} (h : Inv s)
    (hopen : filp_open s path flags mode = some (s', r)) : Inv s' := by
  obtain ⟨⟨fs, found⟩, hfs, hrest⟩ := Option.bind_eq_some_iff.1 hopen
  have hret := filp_open_returned h.kept.wf hfs
  cases found with
  | error e =>
    obtain ⟨rfl, -⟩ := Prod.mk.inj (Option.some.inj hrest)
    exact h.with_fs hret.steps
  | ok d =>
    obtain ⟨r, hget, hrest⟩ := Option.bind_eq_some_iff.1 hrest
    obtain ⟨rfl, -⟩ := Prod.mk.inj (Option.some.inj hrest)
    exact (h.with_fs hret.steps).f_get (hret.cached d rfl) hget

theorem Inv.mountfile {path : Path} {filedata : List UInt8} (h : Inv s) (hlen : filedata.length < 2 ^ 31)
    (hmount : mountfile_to_initramfs junk s path filedata = some s') : Inv s' := by
  obtain ⟨⟨fs, found⟩, hselect, hrest⟩ := Option.bind_eq_some_iff.1 hmount
  have hret := select_file_returned h.kept.wf hselect
  have hfs := h.with_fs hret.steps
  cases found with
  | error e =>
    obtain rfl := Option.some.inj hrest
    exact hfs
  | ok d =>
    obtain ⟨i, hi, hrest⟩ := Option.bind_eq_some_iff.1 hrest
    obtain ⟨j, hj, hlt, -⟩ := hfs.kept.wf.bound d (hret.cached d rfl)
    obtain rfl := Option.some.inj (hi.symm.trans hj)
    exact hfs.mount_file hlt hlen hrest

/-- A removal that finds nothing but the root does nothing. -/
theorem Inv.removes_nothing {path : Path} {e : Int} (h : Inv s) (hnothing : removes_nothing s (.remove_dentry path))
    (hremove : remove_dentry stray s path = some (s', e)) : Inv s' := by
  obtain ⟨⟨fs, found⟩, hselect, hrest⟩ := Option.bind_eq_some_iff.1 hremove
  have hfs := h.with_fs (select_file_returned h.kept.wf hselect).steps
  cases found with
  | error e =>
    obtain ⟨rfl, -⟩ := Prod.mk.inj (Option.some.inj hrest)
    exact hfs
  | ok d =>
    obtain rfl := hnothing fs d hselect
    have his_root : is_s_root stray fs fs.root_dentry = some true := by
      obtain ⟨sb, hsb, hroot⟩ : ∃ sb, (fs.dentries.get fs.root_dentry).d_sb = some sb ∧
        (fs.supers.get sb).s_root = fs.root_dentry := hfs.kept.root_sb
      simp [is_s_root, hsb, hroot]
    simp only [__remove_dentry, his_root, Option.bind_eq_bind, Option.bind_some, if_true, Option.some.injEq,
      Prod.mk.injEq] at hrest
    rw [← hrest.1]
    exact hfs

theorem mount_file_call {path : Path} {filedata : List UInt8} (h : call stray junk s (.mount_file path filedata) = some s') :
    filedata.length < 2 ^ 31 ∧ mountfile_to_initramfs junk s path filedata = some s' :=
  Option.ite_none_right_eq_some.1 h

/-- Reading changes nothing. -/
theorem kernel_read_call {before : Int → UInt8} {file : file} {count : Nat} {pos : Int}
    (h : call stray junk s (.kernel_read before file count pos) = some s') : s' = s := by
  obtain ⟨-, h⟩ := Option.ite_none_right_eq_some.1 h
  obtain ⟨_, -, rfl⟩ := Option.map_eq_some_iff.1 h
  rfl

theorem kernel_write_call {alloc_page : Bool} {file : file} {buf : List UInt8} {pos : Int}
    (h : call stray junk s (.kernel_write alloc_page file buf pos) = some s') :
    file ∈ s.files ∧ ∃ e, kernel_write junk alloc_page s file buf pos = some (s', e) := by
  obtain ⟨hfile, h⟩ := Option.ite_none_right_eq_some.1 h
  obtain ⟨r, hwrite, rfl⟩ := Option.map_eq_some_iff.1 h
  exact ⟨hfile, r.2, hwrite⟩

theorem filp_close_call {file : file} (h : call stray junk s (.filp_close file) = some s') :
    file ∈ s.files ∧ filp_close s file = some s' :=
  Option.ite_none_right_eq_some.1 h

theorem Inv.step (h : Inv s) (hs : KeepStep stray junk s s') : Inv s' := by
  obtain ⟨c, hnothing, hin, hcall⟩ := hs
  cases c with
  | mkdir path mode =>
    obtain ⟨r, hmkdir, rfl⟩ := Option.map_eq_some_iff.1 hcall
    exact h.with_fs (mkdir_returned h.kept.wf hmkdir).steps
  | mount_file path filedata =>
    obtain ⟨hlen, hmount⟩ := mount_file_call hcall
    exact h.mountfile hlen hmount
  | filp_open path flags mode =>
    obtain ⟨r, hopen, rfl⟩ := Option.map_eq_some_iff.1 hcall
    exact h.filp_open hopen
  | kernel_read before file count pos =>
    rw [kernel_read_call hcall]
    exact h
  | kernel_write alloc_page file buf pos =>
    obtain ⟨hfile, e, hwrite⟩ := kernel_write_call hcall
    exact h.kernel_write hfile hin hwrite
  | filp_close file =>
    obtain ⟨hfile, hclose⟩ := filp_close_call hcall
    exact h.filp_close hfile hclose
  | remove_dentry path =>
    obtain ⟨r, hremove, rfl⟩ := Option.map_eq_some_iff.1 hcall
    exact h.removes_nothing hnothing hremove

theorem inv_boot (nul_harms : Name → Bool) (addr : Nat → UInt32) : Inv (boot nul_harms addr) where
  kept := kept_root _
  counted := ⟨fun _ => rfl, fun _ => List.not_mem_nil⟩
  f_inode := by simp [boot]
  freed := rfl
  i_page := nofun
  page_inj := nofun
  writable := fun _ h => absurd rfl h
  content := nofun

/-! ## What was written is read -/

theorem Inv.reads (h : Inv s) (file : file) (pos : Nat) {data : List UInt8} (hne : data ≠ [])
    (hdata : ∀ k b, data[k]? = some b → s.content (s.fs.inodes.get file.f_inode).i_private (pos + k) = some b) :
    ∀ before, kernel_read before s file data.length pos = some ((data.length : Int), data) := by
  intro before
  have hlen : 0 < data.length := List.length_pos_iff.2 hne
  have hlast := hdata (data.length - 1) _ (List.getElem?_eq_getElem (Nat.sub_lt hlen Nat.zero_lt_one))
  obtain ⟨p, hp, hend, -⟩ := h.content _ _ _ hlast
  obtain ⟨-, -, hsize⟩ := h.i_page _ p hp
  have hfits : access_end pos data.length = some ((pos : Int) + data.length) := by
    rw [access_end, if_neg (by omega)]
  have hinside : ¬((pos : Int) + data.length > s.size (s.fs.inodes.get file.f_inode).i_private) := by omega
  have hvalid : Object.page p ∉ s.freed := by simp [h.freed]
  simp only [OpenFiles.kernel_read, h.file_node, Option.bind_eq_bind, Option.bind_some, hp, hfits, if_neg hinside,
    if_neg hvalid, Option.some.injEq, Prod.mk.injEq, true_and]
  refine List.ext_getElem (by simp) fun k hk hk' => ?_
  obtain ⟨q, hq, -, hbyte⟩ := h.content _ _ _ (hdata k _ (List.getElem?_eq_getElem hk'))
  obtain rfl := Option.some.inj (hp.symm.trans hq)
  rw [List.getElem_map, List.getElem_range, if_neg (by omega), ← Int.natCast_add, Int.toNat_natCast]
  exact hbyte

theorem Inv.survive (h : Inv s) : Survive s where
  inode := by simp [h.freed]
  node := by simp [h.freed]
  page := by simp [h.freed]
  reads file _ pos data hne hdata := h.reads file pos hne hdata
  inode_once i hi := by
    refine ⟨fun _ => by simp [h.freed], fun hout => absurd ?_ hout⟩
    exact .inl (h.kept.inode i hi)
  node_once n hn := by
    refine ⟨fun _ => by simp [h.freed], fun hout => absurd ?_ hout⟩
    rcases h.kept.node n hn with ⟨m, -, hm⟩ | ⟨i, hi, hnode⟩
    · exact .inl ⟨m, hm⟩
    · exact .inr ⟨i, .inl (h.kept.inode i hi), hnode⟩

end

/-! ## Runs with removals -/

section
variable {stray : Bool} {junk : Nat → UInt8} {s s' : State}

theorem Counted.with_page (h : Counted s) (junk : Nat → UInt8) (n : Nat) : Counted (with_page junk s n) := by
  unfold OpenFiles.with_page
  split
  · exact h.congr rfl rfl fun _ => id
  · exact h

theorem Counted.kernel_write {alloc_page : Bool} {file : file} {buf : List UInt8} {pos e : Int} (h : Counted s)
    (hwrite : kernel_write junk alloc_page s file buf pos = some (s', e)) : Counted s' := by
  have h₁ := h.with_page junk (s.fs.inodes.get file.f_inode).i_private
  cases kernel_write_written hwrite with
  | nothing => exact h
  | paged => exact h₁
  | before => exact h₁.congr rfl rfl fun _ => id
  | stored => exact h₁.congr rfl rfl fun _ => id

theorem Counted.mountfile {path : Path} {filedata : List UInt8} (h : Counted s)
    (hmount : mountfile_to_initramfs junk s path filedata = some s') : Counted s' := by
  obtain ⟨⟨fs, found⟩, -, hrest⟩ := Option.bind_eq_some_iff.1 hmount
  cases found with
  | error e =>
    obtain rfl := Option.some.inj hrest
    exact h.congr rfl rfl fun _ => id
  | ok d =>
    obtain ⟨i, -, hrest⟩ := Option.bind_eq_some_iff.1 hrest
    obtain ⟨n, -, hrest⟩ := Option.bind_eq_some_iff.1 hrest
    split at hrest <;> obtain rfl := Option.some.inj hrest <;> exact h.congr rfl rfl fun _ => id

theorem Counted.put_page {p : Nat} (h : Counted s) (hput : put_page s p = some s') : Counted s' := by
  unfold OpenFiles.put_page at hput
  split at hput
  · cases hput
  · dsimp only at hput
    split at hput <;> obtain rfl := Option.some.inj hput
    · exact h.congr rfl rfl fun i hi => by simpa using hi
    · exact h.congr rfl rfl fun _ => id

theorem Counted.node_put {n : Nat} (h : Counted s) (hput : initramfs_inode_put s n = some s') : Counted s' := by
  unfold initramfs_inode_put at hput
  cases hpage : s.i_page n with
  | some p =>
    simp only [hpage, Option.bind_eq_bind, Option.bind_eq_some_iff] at hput
    obtain ⟨s₁, hpage, hput⟩ := hput
    obtain rfl := Option.some.inj hput
    exact (h.put_page hpage).congr rfl rfl fun i hi => by simpa using hi
  | none =>
    simp only [hpage, Option.bind_eq_bind, Option.bind_some, Option.some.injEq] at hput
    subst hput
    exact h.congr rfl rfl fun i hi => by simpa using hi

theorem Counted.delete_dentry {n f : Nat} (h : Counted s) (hdelete : initramfs_delete_dentry s n f = some s') :
    Counted s' := by
  unfold initramfs_delete_dentry at hdelete
  dsimp only at hdelete
  split at hdelete
  · cases hdelete
  · split at hdelete
    · exact Option.some.inj hdelete ▸ h
    · unfold dentry_put at hdelete
      dsimp only at hdelete
      split at hdelete
      · cases hdelete
      · split at hdelete
        · refine Counted.node_put ?_ hdelete
          exact h.congr rfl rfl fun _ => id
        · obtain rfl := Option.some.inj hdelete
          exact h.congr rfl rfl fun _ => id

theorem Counted.remove_dentry {path : Path} {e : Int} (h : Counted s)
    (hremove : remove_dentry stray s path = some (s', e)) : Counted s' := by
  obtain ⟨⟨fs, found⟩, -, hrest⟩ := Option.bind_eq_some_iff.1 hremove
  have hfs : Counted { s with fs } := h.congr rfl rfl fun _ => id
  cases found with
  | error e =>
    obtain ⟨rfl, -⟩ := Prod.mk.inj (Option.some.inj hrest)
    exact hfs
  | ok d =>
    obtain ⟨s₁, hinner, hrest⟩ := Option.bind_eq_some_iff.1 hrest
    obtain ⟨rfl, -⟩ := Prod.mk.inj (Option.some.inj hrest)
    obtain ⟨root, -, hinner⟩ := Option.bind_eq_some_iff.1 hinner
    split at hinner
    · exact Option.some.inj hinner ▸ hfs
    · obtain ⟨i, -, hinner⟩ := Option.bind_eq_some_iff.1 hinner
      dsimp only at hinner
      split at hinner
      · exact Option.some.inj hinner ▸ hfs
      · simp only [Option.bind_eq_bind, Option.bind_eq_some_iff] at hinner
        obtain ⟨p, -, j, -, s₂, hunlink, fs₂, -, hs₁⟩ := hinner
        obtain rfl := Option.some.inj hs₁
        obtain ⟨f, -, hdelete⟩ := Option.bind_eq_some_iff.1 hunlink
        exact (hfs.delete_dentry hdelete).congr rfl rfl fun _ => id

theorem Counted.step (h : Counted s) (hs : Step stray junk s s') : Counted s' := by
  obtain ⟨c, hcall⟩ := hs
  cases c with
  | mkdir path mode =>
    obtain ⟨r, -, rfl⟩ := Option.map_eq_some_iff.1 hcall
    exact h.congr rfl rfl fun _ => id
  | mount_file path filedata =>
    exact h.mountfile (mount_file_call hcall).2
  | filp_open path flags mode =>
    obtain ⟨⟨s₁, r⟩, hopen, rfl⟩ := Option.map_eq_some_iff.1 hcall
    obtain ⟨⟨fs, found⟩, -, hrest⟩ := Option.bind_eq_some_iff.1 hopen
    have hfs : Counted { s with fs } := h.congr rfl rfl fun _ => id
    cases found with
    | error e =>
      obtain ⟨rfl, -⟩ := Prod.mk.inj (Option.some.inj hrest)
      exact hfs
    | ok d =>
      obtain ⟨r, hget, hrest⟩ := Option.bind_eq_some_iff.1 hrest
      obtain ⟨rfl, -⟩ := Prod.mk.inj (Option.some.inj hrest)
      obtain ⟨i, -, -, hcounted⟩ := hfs.f_get hget
      exact hcounted
  | kernel_read before file count pos =>
    rw [kernel_read_call hcall]
    exact h
  | kernel_write alloc_page file buf pos =>
    obtain ⟨-, e, hwrite⟩ := kernel_write_call hcall
    exact h.kernel_write hwrite
  | filp_close file =>
    obtain ⟨hfile, hclose⟩ := filp_close_call hcall
    exact (h.filp_close hfile hclose).2
  | remove_dentry path =>
    obtain ⟨r, hremove, rfl⟩ := Option.map_eq_some_iff.1 hcall
    exact h.remove_dentry hremove

/-- In no run is a VFS inode ever freed: the one reference that `new_inode`
counts is not given back. -/
theorem inode_never_freed {nul_harms : Name → Bool} {addr : Nat → UInt32}
    (h : Reachable (· = boot nul_harms addr) (Step stray junk) s) (i : Nat) : .inode i ∉ s.freed := by
  refine (h.inv Counted ?_ fun _ _ => Counted.step).kept i
  rintro _ rfl
  exact (inv_boot _ _).counted

end

/-- In every run that removes nothing and writes inside of pages, open files
survive. -/
theorem files_survive {stray : Bool} {junk : Nat → UInt8} {nul_harms : Name → Bool} {addr : Nat → UInt32} {s : State}
    (h : Reachable (· = boot nul_harms addr) (KeepStep stray junk) s) : Survive s := by
  refine (h.inv Inv ?_ fun _ _ => Inv.step).survive
  rintro _ rfl
  exact inv_boot _ _

/-- A file that was opened and written. -/
theorem written_file_survives : ∃ s, (call true (fun _ => 0) (boot (fun _ => true) fun _ => 0x20000000)
      (.filp_open ['/', 'f'] (O_CREAT ||| O_RDWR) 0o644)).bind
    (fun s => call true (fun _ => 0) s (.kernel_write true ⟨1, O_CREAT ||| O_RDWR⟩ [7] 0)) = some s ∧ s.files ≠ [] ∧
      s.content 1 0 = some 7 ∧ Survive s := by
  have hrun : (([.filp_open ['/', 'f'] (O_CREAT ||| O_RDWR) 0o644, .kernel_write true ⟨1, O_CREAT ||| O_RDWR⟩ [7] 0] :
      List Call).foldlM (call true fun _ => 0) (boot (fun _ => true) fun _ => 0x20000000)).map (fun s => (s.files, s.content 1 0)) =
      some ([⟨1, O_CREAT ||| O_RDWR⟩], some 7) := by decide
  obtain ⟨s, hs, hsummary⟩ := Option.map_eq_some_iff.1 hrun
  obtain ⟨hfiles, hcontent⟩ := Prod.mk.inj hsummary
  have hreach : Reachable (· = boot (fun _ => true) fun _ => 0x20000000) (KeepStep true fun _ => 0) s := by
    refine ⟨_, rfl, run_of_foldlM (fun c hc s s' hcall => ⟨c, ?_, ?_, hcall⟩) hs⟩ <;>
      simp only [List.mem_cons, List.not_mem_nil, or_false] at hc
    · rcases hc with rfl | rfl <;> trivial
    · rcases hc with rfl | rfl
      · trivial
      · exact .inr (.inr (.inr (.inr (.inr (Int.le_refl 0)))))
  refine ⟨s, ?_, by simp [hfiles], hcontent, files_survive hreach⟩
  simpa using hs

/-- A file that is open loses its inode when it is removed. -/
theorem removed_while_open : ¬∀ (stray : Bool) (junk : Nat → UInt8) (nul_harms : Name → Bool) (addr : Nat → UInt32)
    (s : State), Reachable (· = boot nul_harms addr) (Step stray junk) s → Survive s := by
  intro h
  have hrun : (([.filp_open ['/', 'f'] (O_CREAT ||| O_RDWR) 0o644, .kernel_write true ⟨1, O_CREAT ||| O_RDWR⟩ [7] 0,
      .remove_dentry ['/', 'f']] : List Call).foldlM (call true fun _ => 0)
        (boot (fun _ => false) fun _ => 0x20000000)).map (fun s => (s.files, s.freed, (s.fs.inodes.get 1).i_private)) =
      some ([⟨1, O_CREAT ||| O_RDWR⟩], [.node 1, .page 0], 1) := by decide
  obtain ⟨s, hs, hsummary⟩ := Option.map_eq_some_iff.1 hrun
  simp only [Prod.mk.injEq] at hsummary
  obtain ⟨hfiles, hfreed, hprivate⟩ := hsummary
  have hsurvive := h true (fun _ => 0) _ _ s ⟨_, rfl, run_of_foldlM (fun c _ s s' hcall => ⟨c, hcall⟩) hs⟩
  have hnode := hsurvive.node ⟨1, O_CREAT ||| O_RDWR⟩ (by simp [hfiles])
  simp [hfreed, hprivate] at hnode

end McLinOS.OpenFiles
