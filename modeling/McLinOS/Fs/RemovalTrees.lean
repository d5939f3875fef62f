import McLinOS.Fs.Removal
/-!
# The two trees

Each cached dentry is behind an entry, and an entry is in one directory. Calls,
mounts and removals keep it so; a removal can only leave a dentry behind whose
entry is gone.
-/
open CLib

namespace McLinOS.Removal

open Fs

/-! ## The invariant -/

/-- The dentry `d` was made for the entry `f`. If `f` is a directory, `d` has
its inode, unless something is mounted there. -/
structure Linked (s : FS) (d f : Nat) : Prop where
  fsdata : (s.dentries.get d).d_fsdata = some f
  lt : f < s.initramfs_dentries.next
  target_lt : (s.initramfs_dentries.get f).target_inode < s.initramfs_inodes.next
  dir : (s.initramfs_inodes.get (s.initramfs_dentries.get f).target_inode).i_mode &&& S_IFMT = S_IFDIR →
    MountPoint s d ∨ (IsDir s d ∧ node s d = some (s.initramfs_dentries.get f).target_inode)

/-- The superblock of a dentry that is not its root is mounted there. -/
structure Super (s : FS) (d sb : Nat) : Prop where
  lt : sb < s.supers.next
  root : (s.supers.get sb).s_root = d ∨ ((s.supers.get sb).s_root < s.dentries.next ∧
    ¬Cached s (s.supers.get sb).s_root ∧
    (s.dentries.get (s.supers.get sb).s_root).d_inode = (s.dentries.get d).d_inode)

structure Tree (s : FS) : Prop where
  wf : Wf s
  hash : ∀ p, (s.dentries.get p).d_hash.Nodup
  list : ∀ n, (s.initramfs_inodes.get n).dentry_list_head.Nodup
  list_lt : ∀ n, ∀ f ∈ (s.initramfs_inodes.get n).dentry_list_head, n < s.initramfs_inodes.next
  one_list : ∀ n m f, f ∈ (s.initramfs_inodes.get n).dentry_list_head →
    f ∈ (s.initramfs_inodes.get m).dentry_list_head → n = m
  linked : ∀ p, ∀ d ∈ (s.dentries.get p).d_hash, ∃ f, Linked s d f
  super : ∀ d sb, Cached s d → (s.dentries.get d).d_sb = some sb → Super s d sb
  no_sb : ∀ i < s.inodes.next, (s.inodes.get i).i_sb = none

/-! ## What a growing state keeps -/

/-- What there was is still there, but for the superblock and inode of `mp`. -/
structure Grows (s s' : FS) (mp : Option Nat) : Prop where
  entries_le : s.initramfs_dentries.next ≤ s'.initramfs_dentries.next
  nodes_le : s.initramfs_inodes.next ≤ s'.initramfs_inodes.next
  supers_le : s.supers.next ≤ s'.supers.next
  dentries_le : s.dentries.next ≤ s'.dentries.next
  entry : ∀ f < s.initramfs_dentries.next, s'.initramfs_dentries.get f = s.initramfs_dentries.get f
  mode : ∀ n < s.initramfs_inodes.next, (s'.initramfs_inodes.get n).i_mode = (s.initramfs_inodes.get n).i_mode
  inode : ∀ i < s.inodes.next, s'.inodes.get i = s.inodes.get i
  super : ∀ sb < s.supers.next, s'.supers.get sb = s.supers.get sb
  fsdata : ∀ x < s.dentries.next, (s'.dentries.get x).d_fsdata = (s.dentries.get x).d_fsdata
  d_inode : ∀ x < s.dentries.next, some x ≠ mp → (s'.dentries.get x).d_inode = (s.dentries.get x).d_inode
  d_sb : ∀ x < s.dentries.next, some x ≠ mp → (s'.dentries.get x).d_sb = (s.dentries.get x).d_sb
  cached : ∀ x < s.dentries.next, Cached s' x → Cached s x

section
variable {s s' : FS} {mp : Option Nat} {d f : Nat}

/-- The dentry that a superblock's root is not mounted over. -/
theorem Tree.root_ne (h : Tree s) (hmp : ∀ x ∈ mp, Cached s x) (hd : Cached s d) (hne : some d ≠ mp) {sb : Nat}
    (hsb : (s.dentries.get d).d_sb = some sb) : (s.supers.get sb).s_root < s.dentries.next ∧
      some (s.supers.get sb).s_root ≠ mp := by
  rcases (h.super d sb hd hsb).root with hroot | ⟨hlt, hout, -⟩
  · rw [hroot]
    exact ⟨h.wf.lt hd, hne⟩
  · exact ⟨hlt, fun heq => hout (hmp _ heq.symm)⟩

theorem Super.grows (hg : Grows s s' mp) (h : Tree s) (hmp : ∀ x ∈ mp, Cached s x) (hd : Cached s d)
    (hne : some d ≠ mp) {sb : Nat} (hsb : (s.dentries.get d).d_sb = some sb) : Super s' d sb := by
  have hs := h.super d sb hd hsb
  have hsuper := hg.super sb hs.lt
  obtain ⟨hlt, hroot⟩ := h.root_ne hmp hd hne hsb
  refine ⟨Nat.lt_of_lt_of_le hs.lt hg.supers_le, ?_⟩
  rw [hsuper]
  apply hs.root.imp_right
  rintro ⟨-, hout, hinode⟩
  refine ⟨Nat.lt_of_lt_of_le hlt hg.dentries_le, fun hc => hout (hg.cached _ hlt hc), ?_⟩
  rw [hg.d_inode _ hlt hroot, hg.d_inode d (h.wf.lt hd) hne, hinode]

theorem Linked.grows (hg : Grows s s' mp) (h : Tree s) (hmp : ∀ x ∈ mp, Cached s x) (hd : Cached s d)
    (hne : some d ≠ mp) (hl : Linked s d f) : Linked s' d f := by
  have hlt := h.wf.lt hd
  have hentry := hg.entry f hl.lt
  refine ⟨(hg.fsdata d hlt).trans hl.fsdata, Nat.lt_of_lt_of_le hl.lt hg.entries_le, ?_, ?_⟩
  · rw [hentry]
    exact Nat.lt_of_lt_of_le hl.target_lt hg.nodes_le
  · rw [hentry, hg.mode _ hl.target_lt]
    intro hdir
    rcases hl.dir hdir with ⟨sb, hsb, hroot, hinode⟩ | ⟨⟨i, hi, hmode⟩, hnode⟩
    · obtain ⟨hroot_lt, hroot_ne⟩ := h.root_ne hmp hd hne hsb
      refine .inl ⟨sb, (hg.d_sb d hlt hne).trans hsb, ?_⟩
      rw [hg.super sb (h.super d sb hd hsb).lt, hg.d_inode _ hroot_lt hroot_ne, hg.d_inode d hlt hne]
      exact ⟨hroot, hinode⟩
    · obtain ⟨j, hj, hjlt, -⟩ := h.wf.bound d hd
      obtain rfl := Option.some.inj (hi.symm.trans hj)
      have hi' := (hg.d_inode d hlt hne).trans hi
      have hget := hg.inode i hjlt
      refine .inr ⟨⟨i, hi', by rwa [hget]⟩, ?_⟩
      simp only [node, hi, Option.map_some] at hnode
      simpa only [node, hi', Option.map_some, hget] using hnode

/-- The invariant of a state that has grown: what is to show is what is new, and
the two trees' shapes. -/
theorem Tree.grow (h : Tree s) (hg : Grows s s' mp) (hmp : ∀ x ∈ mp, Cached s x) (hwf : Wf s')
    (hhash : ∀ p, (s'.dentries.get p).d_hash.Nodup)
    (hlist : ∀ n, (s'.initramfs_inodes.get n).dentry_list_head.Nodup ∧
      ∀ f ∈ (s'.initramfs_inodes.get n).dentry_list_head, n < s'.initramfs_inodes.next)
    (hone : ∀ n m f, f ∈ (s'.initramfs_inodes.get n).dentry_list_head →
      f ∈ (s'.initramfs_inodes.get m).dentry_list_head → n = m)
    (hlinked : ∀ p, ∀ d ∈ (s'.dentries.get p).d_hash,
      ((∃ q, d ∈ (s.dentries.get q).d_hash) ∧ some d ≠ mp) ∨ ∃ f, Linked s' d f)
    (hsuper : ∀ d, Cached s' d → (Cached s d ∧ some d ≠ mp) ∨
      ∀ sb, (s'.dentries.get d).d_sb = some sb → Super s' d sb)
    (hno_sb : ∀ i < s'.inodes.next, s.inodes.next ≤ i → (s'.inodes.get i).i_sb = none) : Tree s' where
  wf := hwf
  hash := hhash
  list n := (hlist n).1
  list_lt n := (hlist n).2
  one_list := hone
  linked := by
    intro p d hd
    rcases hlinked p d hd with ⟨⟨q, hq⟩, hne⟩ | hnew
    · obtain ⟨f, hf⟩ := h.linked q d hq
      exact ⟨f, hf.grows hg h hmp (.inr ⟨q, hq⟩) hne⟩
    · exact hnew
  super := by
    intro d sb hd hsb
    rcases hsuper d hd with ⟨hold, hne⟩ | hnew
    · rw [hg.d_sb d (h.wf.lt hold) hne] at hsb
      exact .grows hg h hmp hold hne hsb
    · exact hnew sb hsb
  no_sb := by
    intro i hi
    by_cases hold : i < s.inodes.next
    · rw [hg.inode i hold]
      exact h.no_sb i hold
    · exact hno_sb i hi (Nat.le_of_not_lt hold)

end

/-! ## Lookups and new files -/

section
variable {s : FS} {d i f : Nat} {name : Name}

theorem grows_dropped (h : Tree s) (d : Nat) (name : Name) : Grows s (dropped s d name) none where
  entries_le := Nat.le_refl _
  nodes_le := Nat.le_refl _
  supers_le := Nat.le_refl _
  dentries_le := Nat.le_succ _
  entry _ _ := rfl
  mode _ _ := rfl
  inode _ _ := rfl
  super _ _ := rfl
  fsdata x hx := by rw [get_dropped d name hx]
  d_inode x hx _ := by rw [get_dropped d name hx]
  d_sb x hx _ := by rw [get_dropped d name hx]
  cached _ _ := (cached_dropped h.wf).1

theorem tree_dropped (h : Tree s) (d : Nat) (name : Name) : Tree (dropped s d name) :=
  h.grow (grows_dropped h d name) (by simp) (h.wf.dropped d name) (hash_nodup_dropped h.hash d name)
    (fun n => ⟨h.list n, h.list_lt n⟩) h.one_list
    (fun p _ hx => .inl ⟨⟨p, mem_hash_dropped hx⟩, nofun⟩)
    (fun _ hx => .inl ⟨(cached_dropped h.wf).1 hx, nofun⟩)
    (fun j hj hle => absurd hj (Nat.not_lt_of_le hle))

theorem cached_of_looked_up (h : Tree s) (hd : Cached s d) {x : Nat} (hx : x < s.dentries.next)
    (hc : Cached (looked_up s d name f i) x) : Cached s x :=
  ((cached_looked_up h.wf hd).1 hc).resolve_right (Nat.ne_of_lt hx)

/-- The inode of a cached dentry has no superblock. -/
theorem Tree.miss_sb (h : Tree s) (hm : Miss s d name i) : (s.inodes.get i).i_sb = none := by
  obtain ⟨j, hj, hlt, -⟩ := h.wf.bound d hm.cached
  obtain rfl := Option.some.inj (hj.symm.trans hm.d_inode)
  exact h.no_sb j hlt

theorem grows_looked_up (h : Tree s) (hm : Miss s d name i) (f : Nat) : Grows s (looked_up s d name f i) none where
  entries_le := Nat.le_refl _
  nodes_le := Nat.le_refl _
  supers_le := Nat.le_refl _
  dentries_le := Nat.le_succ _
  entry _ _ := rfl
  mode _ _ := rfl
  inode _ hj := inodes_looked_up hj
  super _ _ := rfl
  fsdata _ hx := fsdata_looked_up hx
  d_inode _ hx _ := inode_looked_up hx
  d_sb _ hx _ := sb_looked_up hx
  cached _ hx := cached_of_looked_up h hm.cached hx

theorem tree_looked_up (h : Tree s) (hm : Miss s d name i)
    (hf : initramfs_lookup s (s.inodes.get i).i_private name = some f) : Tree (looked_up s d name f i) := by
  have hlt := h.wf.lt hm.cached
  have hsb := h.miss_sb hm
  have hnew : (looked_up s d name f i).inodes.get s.inodes.next = _ := Pool.get_alloc_next s.inodes _
  have hdentry := @get_looked_up_next s d i f name hlt
  obtain ⟨hflt, htarget⟩ := h.wf.entry _ f (mem_of_lookup hf)
  refine h.grow (grows_looked_up h hm f) (by simp) (h.wf.looked_up hm hf) (hash_nodup_looked_up h.wf hm.cached h.hash f i)
    (fun n => ⟨h.list n, h.list_lt n⟩) h.one_list ?_ ?_ ?_
  · intro p x hx
    rcases mem_hash_looked_up hlt hx with hx | ⟨rfl, -⟩
    · exact .inl ⟨⟨p, hx⟩, nofun⟩
    · refine .inr ⟨f, ?_, hflt, htarget, fun hdir => .inr ⟨⟨s.inodes.next, ?_, ?_⟩, ?_⟩⟩
      · rw [hdentry]
      · rw [hdentry]
      · rw [hnew]
        exact hdir
      · simp only [node, hdentry, Option.map_some, hnew]
        rfl
  · intro x hx
    rcases (cached_looked_up h.wf hm.cached).1 hx with hx | rfl
    · exact .inl ⟨hx, nofun⟩
    · refine .inr fun sb hx => ?_
      rw [hdentry] at hx
      simp [hsb] at hx
  · intro j hj hle
    obtain rfl : j = s.inodes.next := Nat.le_antisymm (Nat.le_of_lt_succ hj) hle
    rw [hnew]
    exact hsb

theorem grows_made_in (h : Tree s) (hm : Miss s d name i) (mode bound : Nat)
    (hn : (s.inodes.get i).i_private < s.initramfs_inodes.next) : Grows s (made_in s d i name mode bound) none where
  entries_le := Nat.le_succ _
  nodes_le := Nat.le_succ _
  supers_le := Nat.le_refl _
  dentries_le := Nat.le_succ _
  entry _ hf := Pool.get_alloc_lt hf _
  mode n hn' := by
    rw [get_made_in hn]
    split
    · rfl
    · rw [if_neg (Nat.ne_of_lt hn')]
  inode _ hj := Pool.get_alloc_lt hj _
  super _ _ := rfl
  fsdata _ hx := fsdata_looked_up hx
  d_inode _ hx _ := inode_looked_up hx
  d_sb _ hx _ := sb_looked_up hx
  cached _ hx := cached_of_looked_up h hm.cached hx

/-- An entry of the new state is an old one, where it was, or the new one. -/
theorem mem_list_made_in {mode bound n x : Nat} (hn : (s.inodes.get i).i_private < s.initramfs_inodes.next)
    (hx : x ∈ ((made_in s d i name mode bound).initramfs_inodes.get n).dentry_list_head) :
    x ∈ (s.initramfs_inodes.get n).dentry_list_head ∨
      (x = s.initramfs_dentries.next ∧ n = (s.inodes.get i).i_private) := by
  rw [get_made_in hn] at hx
  split at hx
  · rename_i hdir
    rcases List.mem_cons.1 hx with hx | hx
    · exact .inr ⟨hx, hdir⟩
    · exact .inl hx
  · split at hx
    · simp at hx
    · exact .inl hx

theorem tree_made_in (h : Tree s) (hm : Miss s d name i) {mode bound : Nat} (hmode : mode &&& S_IFMT = S_IFREG)
    (hb : bound = s.initramfs_inodes.next ∨ bound = (s.inodes.get i).i_private) :
    Tree (made_in s d i name mode bound) := by
  have hlt := h.wf.lt hm.cached
  obtain ⟨j, hj, -, hn⟩ := h.wf.bound d hm.cached
  obtain rfl : j = i := Option.some.inj (hj.symm.trans hm.d_inode)
  have hsb := h.miss_sb hm
  have hfresh : ∀ n, s.initramfs_dentries.next ∉ (s.initramfs_inodes.get n).dentry_list_head :=
    fun n hmem => Nat.lt_irrefl _ (h.wf.entry n _ hmem).1
  have hentry : (made_in s d j name mode bound).initramfs_dentries.get s.initramfs_dentries.next = _ :=
    Pool.get_alloc_next s.initramfs_dentries _
  have hnew : (made_in s d j name mode bound).inodes.get s.inodes.next = _ := Pool.get_alloc_next s.inodes _
  have hdentry : (made_in s d j name mode bound).dentries.get s.dentries.next = _ := get_looked_up_next hlt
  refine h.grow (grows_made_in h hm mode bound hn) (by simp) (h.wf.made_in hm mode hb)
    (fun p => hash_nodup_looked_up h.wf hm.cached h.hash _ j p) ?_ ?_ ?_ ?_ ?_
  · intro n
    constructor
    · rw [get_made_in hn]
      split
      · exact List.nodup_cons.2 ⟨hfresh n, h.list n⟩
      · split
        · exact List.nodup_nil
        · exact h.list n
    · intro x hx
      rcases mem_list_made_in hn hx with hx | ⟨-, rfl⟩
      · exact Nat.lt_succ_of_lt (h.list_lt n x hx)
      · exact Nat.lt_succ_of_lt hn
  · intro n m x hx hx'
    rcases mem_list_made_in hn hx with hx | ⟨rfl, rfl⟩ <;> rcases mem_list_made_in hn hx' with hx' | ⟨heq, rfl⟩
    · exact h.one_list n m x hx hx'
    · exact absurd hx (heq ▸ hfresh n)
    · exact absurd hx' (hfresh m)
    · rfl
  · intro p x hx
    rcases mem_hash_looked_up hlt hx with hx | ⟨rfl, -⟩
    · exact .inl ⟨⟨p, hx⟩, nofun⟩
    · refine .inr ⟨s.initramfs_dentries.next, ?_, Nat.lt_succ_self _, ?_, ?_⟩
      · rw [hdentry]
      · rw [hentry]
        exact Nat.lt_succ_self _
      · rw [hentry, get_made_in hn, if_neg (Nat.ne_of_gt hn), if_pos rfl]
        intro hdir
        rw [hmode] at hdir
        exact absurd hdir (by decide)
  · intro x hx
    rcases (cached_looked_up h.wf hm.cached).1 hx with hx | rfl
    · exact .inl ⟨hx, nofun⟩
    · refine .inr fun sb hx => ?_
      rw [hdentry] at hx
      simp [hsb] at hx
  · intro k hk hle
    obtain rfl : k = s.inodes.next := Nat.le_antisymm (Nat.le_of_lt_succ hk) hle
    rw [hnew]
    exact hsb

end

theorem tree_step {s s' : FS} (h : Tree s) (hs : FsStep s s') : Tree s' := by
  cases hs with
  | cache hc =>
    cases hc with
    | drop hm hnone => exact tree_dropped h _ _
    | add hm hf => exact tree_looked_up h hm hf
  | make mode bound hm hmode hb => exact tree_made_in h hm hmode hb

theorem tree_steps {s s' : FS} (h : Tree s) (hs : Relation.ReflTransGen FsStep s s') : Tree s' := by
  induction hs with
  | refl => exact h
  | tail _ hstep ih => exact tree_step ih hstep

/-! ## Mounts -/

section
variable {s : FS} {mp : Nat}

theorem grows_mounted (h : Tree s) (hmp : Cached s mp) : Grows s (mounted s mp) (some mp) where
  entries_le := Nat.le_succ _
  nodes_le := Nat.le_succ _
  supers_le := Nat.le_succ _
  dentries_le := Nat.le_succ _
  entry _ hf := Pool.get_alloc_lt hf _
  mode n hn := by
    have hget : (mounted s mp).initramfs_inodes.get n = s.initramfs_inodes.get n := Pool.get_alloc_lt hn _
    rw [hget]
  inode _ hj := Pool.get_alloc_lt hj _
  super _ hsb := Pool.get_alloc_lt hsb _
  fsdata x hx := by rw [get_mounted hx, apply_ite dentry.d_fsdata, ite_self]
  d_inode x hx hne := by rw [get_mounted hx, if_neg (fun heq => hne (congrArg some heq))]
  d_sb x hx hne := by rw [get_mounted hx, if_neg (fun heq => hne (congrArg some heq))]
  cached _ _ := (cached_mounted h.wf (h.wf.lt hmp)).1

theorem mem_list_mounted {n x : Nat}
    (hx : x ∈ ((mounted s mp).initramfs_inodes.get n).dentry_list_head) :
    x ∈ (s.initramfs_inodes.get n).dentry_list_head := by
  have hx : x ∈ ((s.initramfs_inodes.alloc _).get n).dentry_list_head := hx
  rw [Pool.get_alloc] at hx
  split at hx
  · simp at hx
  · exact hx

/-- The mount point of the new superblock. -/
theorem get_mounted_root (h : Tree s) (hmp : Cached s mp) :
    ((mounted s mp).supers.get s.supers.next).s_root = s.dentries.next ∧
      ((mounted s mp).dentries.get s.dentries.next).d_inode = some s.inodes.next ∧
      ((mounted s mp).dentries.get mp).d_inode = some s.inodes.next ∧
      ((mounted s mp).dentries.get mp).d_sb = some s.supers.next := by
  have hlt := h.wf.lt hmp
  refine ⟨(mounted_root s).1, ?_, ?_, ?_⟩
  · simp only [mounted, set_mount, Pool.get_modify_ne (Nat.ne_of_gt hlt), (mounted_root s).2.1]
  · rw [get_mounted hlt, if_pos rfl]
  · rw [get_mounted hlt, if_pos rfl]

theorem tree_mounted (h : Tree s) (hmp : Cached s mp) : Tree (mounted s mp) := by
  have hlt := h.wf.lt hmp
  have hg := grows_mounted h hmp
  obtain ⟨hroot, hroot_inode, hinode, hsb⟩ := get_mounted_root h hmp
  have hwf := h.wf.mounted hmp
  refine h.grow hg (by simpa using hmp) hwf ?_ ?_ ?_ ?_ ?_ ?_
  · intro p
    by_cases hp : p < s.dentries.next
    · rw [hash_mounted hp]
      exact h.hash p
    · have hnil : ((mounted s mp).dentries.get p).d_hash = [] := by
        refine List.eq_nil_iff_forall_not_mem.2 fun x hx => hp ?_
        exact (h.wf.child p x (mem_hash_mounted hlt hx)).parent_lt
      rw [hnil]
      exact List.nodup_nil
  · intro n
    constructor
    · show ((s.initramfs_inodes.alloc _).get n).dentry_list_head.Nodup
      rw [Pool.get_alloc]
      split
      · exact List.nodup_nil
      · exact h.list n
    · exact fun x hx => Nat.lt_succ_of_lt (h.list_lt n x (mem_list_mounted hx))
  · exact fun n m x hx hx' => h.one_list n m x (mem_list_mounted hx) (mem_list_mounted hx')
  · intro p x hx
    have hold := mem_hash_mounted hlt hx
    by_cases hne : x = mp
    · subst hne
      obtain ⟨f, hl⟩ := h.linked p x hold
      refine .inr ⟨f, (hg.fsdata x hlt).trans hl.fsdata, Nat.lt_succ_of_lt hl.lt, ?_, ?_⟩
      · rw [hg.entry f hl.lt]
        exact Nat.lt_succ_of_lt hl.target_lt
      · refine fun _ => .inl ⟨s.supers.next, hsb, ?_, ?_⟩
        · rw [hroot]
          exact Nat.ne_of_gt hlt
        · rw [hroot, hroot_inode, hinode]
    · exact .inl ⟨⟨p, hold⟩, by simpa using hne⟩
  · intro x hx
    have hold := (cached_mounted h.wf hlt).1 hx
    by_cases hne : x = mp
    · subst hne
      refine .inr fun sb hx_sb => ?_
      obtain rfl := Option.some.inj (hsb.symm.trans hx_sb)
      refine ⟨Nat.lt_succ_self _, .inr ?_⟩
      rw [hroot, hroot_inode, hinode]
      refine ⟨Nat.lt_succ_self _, fun hc => ?_, rfl⟩
      exact Nat.lt_irrefl _ (h.wf.lt ((cached_mounted h.wf hlt).1 hc))
    · exact .inl ⟨hold, by simpa using hne⟩
  · intro j hj hle
    obtain rfl : j = s.inodes.next := Nat.le_antisymm (Nat.le_of_lt_succ hj) hle
    have hnew : (mounted s mp).inodes.get s.inodes.next = _ := Pool.get_alloc_next s.inodes _
    rw [hnew]

/-- Whatever a mount comes to. -/
theorem sys_mount_tree {types : List Name} {mem : Bool} {word : StrayWord} {s s' : VFS} {dir : Path} {type : Name}
    {e : Int} (h : Tree s.fs) (hmount : sys_mount types mem word s dir type = some (s', e)) : Tree s'.fs := by
  unfold sys_mount at hmount
  split at hmount
  · obtain ⟨rfl, -⟩ := Prod.mk.inj (Option.some.inj hmount)
    exact h
  · simp only [Option.bind_eq_bind, Option.bind_eq_some_iff] at hmount
    obtain ⟨⟨fs, found⟩, hselect, hrest⟩ := hmount
    have hret := select_file_returned h.wf hselect
    have htree := tree_steps h hret.steps
    cases found with
    | error e =>
      obtain ⟨rfl, -⟩ := Prod.mk.inj (Option.some.inj hrest)
      exact htree
    | ok mp =>
      obtain ⟨i, hi, hrest⟩ := Option.bind_eq_some_iff.1 hrest
      split at hrest
      · obtain ⟨rfl, -⟩ := Prod.mk.inj (Option.some.inj hrest)
        exact htree
      · obtain ⟨s₁, hlock, hrest⟩ := Option.bind_eq_some_iff.1 hrest
        obtain rfl : { s with fs, d_lock := Function.update s.d_lock mp true } = s₁ := by
          simp only [spin_lock] at hlock
          split at hlock
          · cases hlock
          · exact Option.some.inj hlock
        split at hrest
        · have hsb : ((pipefs_mount fs).1.dentries.get (pipefs_mount fs).2).d_sb = some fs.supers.next :=
            (mounted_root fs).2.2
          simp only [hsb] at hrest
          obtain ⟨rfl, -⟩ := Prod.mk.inj (Option.some.inj hrest)
          exact tree_mounted htree (hret.cached mp rfl)
        · cases word with
          | other => cases hrest
          | _ =>
            obtain ⟨rfl, -⟩ := Prod.mk.inj (Option.some.inj hrest)
            exact htree

end

end McLinOS.Removal
