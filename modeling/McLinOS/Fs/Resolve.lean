import Mathlib.Data.List.Find
import Mathlib.Logic.Relation
import McLinOS.Fs.Flat
/-!
# Name resolution

On any directory tree and with any cache: what `select_file` finds is what the
cached dentries and, below them, initramfs have under the names. A lookup that
is cached changes nothing of it.
-/
open CLib

namespace McLinOS.Fs

/-! ## Resolving without caching -/

/-- The walk in initramfs alone. -/
def fs_walk (s : FS) : Nat → List Name → Option Nat
  | n, [] => some n
  | n, name :: names =>
    (initramfs_lookup s n name).bind fun f => fs_walk s (s.initramfs_dentries.get f).target_inode names

/-- The initramfs inode that the names lead to from a dentry: cached dentries
come first. -/
def resolve (s : FS) : Nat → List Name → Option Nat
  | d, [] => node s d
  | d, name :: names =>
    match d_lookup_dentry s d name with
    | some c => resolve s c names
    | none => (node s d).bind fun n => fs_walk s n (name :: names)

/-! ## Well-formed file systems -/

/-- A dentry in the tree of cached dentries. -/
def Cached (s : FS) (d : Nat) : Prop := d = s.root_dentry ∨ ∃ p, d ∈ (s.dentries.get p).d_hash

/-- A component of a path that a dentry can be given. -/
def Valid (s : FS) (name : Name) : Prop := s.fits name = true ∧ '/' ∉ name ∧ name.length < 128

structure Child (s : FS) (p d : Nat) : Prop where
  parent_lt : p < s.dentries.next
  lt : d < s.dentries.next
  parent : (s.dentries.get d).d_parent = some p
  valid : Valid s (s.dentries.get d).d_name

/-- The dentry has an inode, whose initramfs inode exists. -/
def Bound (s : FS) (d : Nat) : Prop :=
  ∃ i, (s.dentries.get d).d_inode = some i ∧ i < s.inodes.next ∧ (s.inodes.get i).i_private < s.initramfs_inodes.next

structure Wf (s : FS) : Prop where
  root_lt : s.root_dentry < s.dentries.next
  root_parent : (s.dentries.get s.root_dentry).d_parent = none
  child : ∀ p, ∀ d ∈ (s.dentries.get p).d_hash, Child s p d
  bound : ∀ d, Cached s d → Bound s d
  entry : ∀ n, ∀ f ∈ (s.initramfs_inodes.get n).dentry_list_head,
    f < s.initramfs_dentries.next ∧ (s.initramfs_dentries.get f).target_inode < s.initramfs_inodes.next

section
variable {s : FS} {d i f : Nat} {name : Name}

theorem Wf.lt (h : Wf s) (hd : Cached s d) : d < s.dentries.next := by
  rcases hd with rfl | ⟨p, hp⟩
  · exact h.root_lt
  · exact (h.child p d hp).lt

/-! ## Caching -/

/-- The state after a lookup found the file `f` in the directory whose dentry is
`d` and whose inode is `i`. -/
def looked_up (s : FS) (d : Nat) (name : Name) (f i : Nat) : FS :=
  let target := (s.initramfs_dentries.get f).target_inode
  { s with
    inodes := s.inodes.alloc
      { i_mode := (s.initramfs_inodes.get target).i_mode, i_sb := (s.inodes.get i).i_sb, i_private := target }
    dentries := (s.dentries.alloc { new_dentry d name (s.dentries.get d).d_sb with
      d_inode := some s.inodes.next, d_sb := (s.inodes.get i).i_sb, d_fsdata := some f }).modify d
        fun x => { x with d_hash := s.dentries.next :: x.d_hash } }

/-- A lookup that misses the cache. -/
structure Miss (s : FS) (d : Nat) (name : Name) (i : Nat) : Prop where
  cached : Cached s d
  valid : Valid s name
  d_inode : (s.dentries.get d).d_inode = some i
  not_cached : d_lookup_dentry s d name = none

/-- What one lookup does to the state when it misses the cache. -/
inductive CacheStep : FS → FS → Prop where
  | drop {s : FS} {d : Nat} {name : Name} {i : Nat} : Miss s d name i →
      initramfs_lookup s (s.inodes.get i).i_private name = none → CacheStep s (dropped s d name)
  | add {s : FS} {d : Nat} {name : Name} {i f : Nat} : Miss s d name i →
      initramfs_lookup s (s.inodes.get i).i_private name = some f → CacheStep s (looked_up s d name f i)

theorem mem_of_d_lookup {c : Nat} (h : d_lookup_dentry s d name = some c) :
    c ∈ (s.dentries.get d).d_hash ∧ (s.dentries.get c).d_name = name :=
  ⟨List.mem_of_find?_eq_some h, by simpa using List.find?_some h⟩

theorem mem_of_lookup {n : Nat} (h : initramfs_lookup s n name = some f) :
    f ∈ (s.initramfs_inodes.get n).dentry_list_head := by
  unfold initramfs_lookup at h
  dsimp only at h
  split at h
  · cases h
  · exact List.mem_of_find?_eq_some h

theorem find_dentry_cached {c : Nat} (h : d_lookup_dentry s d name = some c) :
    find_dentry s d name = some (s, .ok c) := by simp only [find_dentry, h]

theorem get_dropped (d : Nat) (name : Name) {x : Nat} (h : x < s.dentries.next) : (dropped s d name).dentries.get x = s.dentries.get x :=
  Pool.get_alloc_lt h _

theorem Miss.find_none (h : Miss s d name i) (hd : d < s.dentries.next)
    (hnone : initramfs_lookup s (s.inodes.get i).i_private name = none) :
    find_dentry s d name = some (dropped s d name, .error (-ENOENT)) := by
  refine find_dentry_none h.valid.1 h.not_cached ?_ hnone
  rw [get_dropped d name hd]
  exact h.d_inode

theorem Miss.find_some (h : Miss s d name i) (hd : d < s.dentries.next)
    (hfound : initramfs_lookup s (s.inodes.get i).i_private name = some f) :
    find_dentry s d name = some (looked_up s d name f i, .ok s.dentries.next) := by
  have hname : ((dropped s d name).dentries.get s.dentries.next).d_name = name := by simp [dropped, new_dentry]
  have hinode : ((dropped s d name).dentries.get d).d_inode = some i := by
    rw [get_dropped d name hd]
    exact h.d_inode
  have hlook : initramfs_lookup (dropped s d name) (s.inodes.get i).i_private name = some f := hfound
  have hvfs : initramfs_vfs_lookup (dropped s d name) i s.dentries.next =
      some (looked_up s d name f i, some s.dentries.next) := by
    have hinodes : (dropped s d name).inodes = s.inodes := rfl
    have hparent : (new_dentry d name (s.dentries.get d).d_sb).d_parent = some d := rfl
    simp only [initramfs_vfs_lookup, hname, hinodes, hlook, bind_dentry, initramfs_get_inode, initramfs_get_dentry,
      d_add]
    simp only [dropped, Pool.alloc_modify_next, Pool.get_alloc_next, hparent]
    rfl
  simp only [dropped] at hinode hvfs
  simp only [find_dentry, h.not_cached, d_alloc, if_pos h.valid.1, Option.bind_eq_bind, Option.bind_some, hinode, hvfs]

/-- A lookup is answered by the cache, or it is one step. -/
theorem find_dentry_spec (h : Wf s) (hd : Cached s d) (hname : Valid s name) :
    (∃ c, d_lookup_dentry s d name = some c ∧ find_dentry s d name = some (s, .ok c)) ∨
      ∃ i, Miss s d name i ∧
        ((initramfs_lookup s (s.inodes.get i).i_private name = none ∧
            find_dentry s d name = some (dropped s d name, .error (-ENOENT))) ∨
          ∃ f, initramfs_lookup s (s.inodes.get i).i_private name = some f ∧
            find_dentry s d name = some (looked_up s d name f i, .ok s.dentries.next)) := by
  cases hcache : d_lookup_dentry s d name with
  | some c => exact .inl ⟨c, rfl, find_dentry_cached hcache⟩
  | none =>
    obtain ⟨i, hi, -⟩ := h.bound d hd
    have hmiss : Miss s d name i := ⟨hd, hname, hi, hcache⟩
    refine .inr ⟨i, hmiss, ?_⟩
    cases hlook : initramfs_lookup s (s.inodes.get i).i_private name with
    | none => exact .inl ⟨rfl, hmiss.find_none (h.lt hd) hlook⟩
    | some f => exact .inr ⟨f, rfl, hmiss.find_some (h.lt hd) hlook⟩

/-! ## What a step keeps -/

theorem mem_hash_dropped {p x : Nat} (h : x ∈ ((dropped s d name).dentries.get p).d_hash) :
    x ∈ (s.dentries.get p).d_hash := by
  simp only [dropped, Pool.get_alloc] at h
  split at h
  · simp [new_dentry] at h
  · exact h

/-- The dentries that were there differ only in the children of `d`. -/
theorem get_looked_up {x : Nat} (h : x < s.dentries.next) : (looked_up s d name f i).dentries.get x =
    if x = d then { s.dentries.get x with d_hash := s.dentries.next :: (s.dentries.get x).d_hash }
    else s.dentries.get x := by
  simp only [looked_up, Pool.get_modify]
  split
  · rename_i hx
    rw [Pool.get_alloc_lt (hx ▸ h), hx]
  · rw [Pool.get_alloc_lt h]

/-- The new dentry. -/
theorem get_looked_up_next (h : d < s.dentries.next) : (looked_up s d name f i).dentries.get s.dentries.next =
    { new_dentry d name (s.dentries.get d).d_sb with
      d_inode := some s.inodes.next, d_sb := (s.inodes.get i).i_sb, d_fsdata := some f } := by
  simp only [looked_up, Pool.get_modify_ne (Nat.ne_of_gt h), Pool.get_alloc_next]

theorem hash_looked_up {x : Nat} (h : x < s.dentries.next) : ((looked_up s d name f i).dentries.get x).d_hash =
    if x = d then s.dentries.next :: (s.dentries.get x).d_hash else (s.dentries.get x).d_hash := by
  rw [get_looked_up h, apply_ite dentry.d_hash]

theorem mem_hash_looked_up {p x : Nat} (hd : d < s.dentries.next)
    (h : x ∈ ((looked_up s d name f i).dentries.get p).d_hash) :
    x ∈ (s.dentries.get p).d_hash ∨ (x = s.dentries.next ∧ p = d) := by
  simp only [looked_up, Pool.get_modify, Pool.get_alloc, if_neg (Nat.ne_of_lt hd)] at h
  split at h
  · rename_i hp
    rcases List.mem_cons.1 h with h | h
    · exact .inr ⟨h, hp⟩
    · exact .inl (hp ▸ h)
  · split at h
    · simp [new_dentry] at h
    · exact .inl h

theorem name_looked_up {x : Nat} (h : x < s.dentries.next) :
    ((looked_up s d name f i).dentries.get x).d_name = (s.dentries.get x).d_name := by
  rw [get_looked_up h, apply_ite dentry.d_name, ite_self]

theorem inode_looked_up {x : Nat} (h : x < s.dentries.next) :
    ((looked_up s d name f i).dentries.get x).d_inode = (s.dentries.get x).d_inode := by
  rw [get_looked_up h, apply_ite dentry.d_inode, ite_self]

theorem parent_looked_up {x : Nat} (h : x < s.dentries.next) :
    ((looked_up s d name f i).dentries.get x).d_parent = (s.dentries.get x).d_parent := by
  rw [get_looked_up h, apply_ite dentry.d_parent, ite_self]

theorem sb_looked_up {x : Nat} (h : x < s.dentries.next) :
    ((looked_up s d name f i).dentries.get x).d_sb = (s.dentries.get x).d_sb := by
  rw [get_looked_up h, apply_ite dentry.d_sb, ite_self]

theorem fsdata_looked_up {x : Nat} (h : x < s.dentries.next) :
    ((looked_up s d name f i).dentries.get x).d_fsdata = (s.dentries.get x).d_fsdata := by
  rw [get_looked_up h, apply_ite dentry.d_fsdata, ite_self]

theorem inodes_looked_up {x : Nat} (h : x < s.inodes.next) :
    (looked_up s d name f i).inodes.get x = s.inodes.get x := Pool.get_alloc_lt h _

/-- A list of children has each child once. -/
theorem hash_nodup_dropped (hh : ∀ p, (s.dentries.get p).d_hash.Nodup) (d : Nat) (name : Name) (p : Nat) :
    ((dropped s d name).dentries.get p).d_hash.Nodup := by
  simp only [dropped, Pool.get_alloc]
  split
  · exact List.nodup_nil
  · exact hh p

theorem hash_nodup_looked_up (h : Wf s) (hd : Cached s d) (hh : ∀ p, (s.dentries.get p).d_hash.Nodup) (f i p : Nat) :
    ((looked_up s d name f i).dentries.get p).d_hash.Nodup := by
  have hfresh : s.dentries.next ∉ (s.dentries.get d).d_hash :=
    fun hmem => Nat.lt_irrefl _ (h.child d _ hmem).lt
  simp only [looked_up, Pool.get_modify, Pool.get_alloc, if_neg (Nat.ne_of_lt (h.lt hd))]
  split
  · exact List.nodup_cons.2 ⟨hfresh, hh d⟩
  · split
    · exact List.nodup_nil
    · exact hh p

theorem cached_dropped (h : Wf s) {x : Nat} : Cached (dropped s d name) x ↔ Cached s x := by
  refine or_congr Iff.rfl ⟨?_, ?_⟩
  · rintro ⟨p, hp⟩
    exact ⟨p, mem_hash_dropped hp⟩
  · rintro ⟨p, hp⟩
    refine ⟨p, ?_⟩
    rw [get_dropped d name (h.child p x hp).parent_lt]
    exact hp

theorem cached_looked_up (h : Wf s) (hd : Cached s d) {x : Nat} :
    Cached (looked_up s d name f i) x ↔ Cached s x ∨ x = s.dentries.next := by
  constructor
  · rintro (hx | ⟨p, hp⟩)
    · exact .inl (.inl hx)
    · rcases mem_hash_looked_up (h.lt hd) hp with hp | ⟨hx, -⟩
      · exact .inl (.inr ⟨p, hp⟩)
      · exact .inr hx
  · rintro ((hx | ⟨p, hp⟩) | rfl)
    · exact .inl hx
    · refine .inr ⟨p, ?_⟩
      rw [hash_looked_up (h.child p x hp).parent_lt]
      split
      · exact List.mem_cons_of_mem _ hp
      · exact hp
    · refine .inr ⟨d, ?_⟩
      rw [hash_looked_up (h.lt hd), if_pos rfl]
      exact List.mem_cons_self

theorem Wf.dropped (h : Wf s) (d : Nat) (name : Name) : Wf (dropped s d name) where
  root_lt := Nat.lt_succ_of_lt h.root_lt
  root_parent := by
    show ((Fs.dropped s d name).dentries.get s.root_dentry).d_parent = none
    rw [get_dropped d name h.root_lt]
    exact h.root_parent
  child := by
    intro p x hx
    have hc := h.child p x (mem_hash_dropped hx)
    have hget := get_dropped d name hc.lt
    exact ⟨Nat.lt_succ_of_lt hc.parent_lt, Nat.lt_succ_of_lt hc.lt, hget ▸ hc.parent, hget ▸ hc.valid⟩
  bound := by
    intro x hx
    have hx := (cached_dropped h).1 hx
    have hget := get_dropped d name (h.lt hx)
    obtain ⟨i, hi, hb⟩ := h.bound x hx
    exact ⟨i, hget ▸ hi, hb⟩
  entry := h.entry

theorem child_looked_up (h : Wf s) (hm : Miss s d name i) (f : Nat) (p : Nat) :
    ∀ x ∈ ((looked_up s d name f i).dentries.get p).d_hash, Child (looked_up s d name f i) p x := by
  intro x hx
  rcases mem_hash_looked_up (h.lt hm.cached) hx with hx | ⟨rfl, rfl⟩
  · have hc := h.child p x hx
    refine ⟨Nat.lt_succ_of_lt hc.parent_lt, Nat.lt_succ_of_lt hc.lt, ?_, ?_⟩
    · rw [parent_looked_up hc.lt]
      exact hc.parent
    · rw [name_looked_up hc.lt]
      exact hc.valid
  · have hlt := h.lt hm.cached
    refine ⟨Nat.lt_succ_of_lt hlt, Nat.lt_succ_self _, ?_, ?_⟩
    · rw [get_looked_up_next hlt]
      rfl
    · rw [get_looked_up_next hlt]
      exact hm.valid

theorem Wf.looked_up (h : Wf s) (hm : Miss s d name i) (hf : initramfs_lookup s (s.inodes.get i).i_private name = some f) :
    Wf (looked_up s d name f i) where
  root_lt := Nat.lt_succ_of_lt h.root_lt
  root_parent := (parent_looked_up h.root_lt).trans h.root_parent
  child := child_looked_up h hm f
  bound := by
    intro x hx
    rcases (cached_looked_up h hm.cached).1 hx with hx | rfl
    · obtain ⟨j, hj, hlt, hp⟩ := h.bound x hx
      refine ⟨j, ?_, Nat.lt_succ_of_lt hlt, ?_⟩
      · rw [inode_looked_up (h.lt hx)]
        exact hj
      · rw [inodes_looked_up hlt]
        exact hp
    · refine ⟨s.inodes.next, ?_, Nat.lt_succ_self _, ?_⟩
      · rw [get_looked_up_next (h.lt hm.cached)]
      · have hnew : (Fs.looked_up s d name f i).inodes.get s.inodes.next = _ := Pool.get_alloc_next s.inodes _
        rw [hnew]
        exact (h.entry _ f (mem_of_lookup hf)).2
  entry := h.entry

theorem CacheStep.wf {s' : FS} (h : Wf s) (hs : CacheStep s s') : Wf s' := by
  cases hs with
  | drop hm hnone => exact h.dropped _ _
  | add hm hf => exact h.looked_up hm hf

theorem CacheStep.cached {s' : FS} (h : Wf s) (hs : CacheStep s s') {x : Nat} (hx : Cached s x) : Cached s' x := by
  cases hs with
  | drop hm hnone => exact (cached_dropped h).2 hx
  | add hm hf => exact (cached_looked_up h hm.cached).2 (.inl hx)

/-! ## Resolving and caching -/

theorem fs_walk_congr {s' : FS} (hi : s'.initramfs_inodes = s.initramfs_inodes)
    (hf : s'.initramfs_dentries = s.initramfs_dentries) (n : Nat) (names : List Name) :
    fs_walk s' n names = fs_walk s n names := by
  induction names generalizing n with
  | nil => rfl
  | cons name names ih => simp only [fs_walk, initramfs_lookup, hi, hf, ih]

/-- Which names fit stays. -/
theorem CacheStep.fits {s' : FS} (hs : CacheStep s s') (x : Name) : s'.fits x = s.fits x := by
  cases hs <;> rfl

theorem CacheStep.fs {s' : FS} (hs : CacheStep s s') :
    s'.initramfs_inodes = s.initramfs_inodes ∧ s'.initramfs_dentries = s.initramfs_dentries := by
  cases hs <;> exact ⟨rfl, rfl⟩

/-- The inode of a dentry stays. -/
theorem CacheStep.node {s' : FS} (h : Wf s) (hs : CacheStep s s') {c : Nat} (hc : Cached s c) :
    Fs.node s' c = Fs.node s c := by
  obtain ⟨j, hj, hlt, -⟩ := h.bound c hc
  cases hs with
  | @drop d name i hm hnone =>
    simp only [Fs.node, get_dropped d name (h.lt hc)]
    rfl
  | add hm hf => simp only [Fs.node, inode_looked_up (h.lt hc), hj, Option.map_some, inodes_looked_up hlt]

/-- Below a dentry without cached children there is only initramfs. -/
theorem resolve_uncached {s : FS} {c n : Nat} (hh : (s.dentries.get c).d_hash = []) (hn : Fs.node s c = some n)
    (names : List Name) : resolve s c names = fs_walk s n names := by
  cases names with
  | nil => simp [resolve, hn, fs_walk]
  | cons name names =>
    have hnone : d_lookup_dentry s c name = none := by simp [d_lookup_dentry, hh]
    simp [resolve, hnone, hn]

theorem d_lookup_congr {s s' : FS} {c : Nat} (hh : (s'.dentries.get c).d_hash = (s.dentries.get c).d_hash)
    (hnames : ∀ x ∈ (s.dentries.get c).d_hash, (s'.dentries.get x).d_name = (s.dentries.get x).d_name) (name : Name) :
    d_lookup_dentry s' c name = d_lookup_dentry s c name := by
  unfold d_lookup_dentry
  rw [hh]
  exact List.find?_congr fun x hx => by rw [hnames x hx]

/-- Through the new dentry the names lead to where they led without it. -/
theorem d_lookup_looked_up (h : Wf s) (hm : Miss s d name i)
    (hf : initramfs_lookup s (s.inodes.get i).i_private name = some f) {c : Nat} (hc : Cached s c) (x : Name) :
    d_lookup_dentry (looked_up s d name f i) c x =
      if c = d ∧ x = name then some s.dentries.next else d_lookup_dentry s c x := by
  have hlt := h.lt hm.cached
  have hnames : ∀ y ∈ (s.dentries.get c).d_hash,
      ((looked_up s d name f i).dentries.get y).d_name = (s.dentries.get y).d_name :=
    fun y hy => name_looked_up (h.child c y hy).lt
  by_cases hcd : c = d
  · subst hcd
    have hhash : ((looked_up s c name f i).dentries.get c).d_hash = s.dentries.next :: (s.dentries.get c).d_hash := by
      rw [hash_looked_up hlt, if_pos rfl]
    have hnew : ((looked_up s c name f i).dentries.get s.dentries.next).d_name = name := by
      rw [get_looked_up_next hlt]
      rfl
    have hrest : (s.dentries.get c).d_hash.find? (fun y => ((looked_up s c name f i).dentries.get y).d_name = x) =
        d_lookup_dentry s c x := List.find?_congr fun y hy => by rw [hnames y hy]
    rw [d_lookup_dentry, hhash, List.find?_cons, hnew, hrest]
    by_cases hx : x = name
    · subst hx
      simp
    · simp [hx, Ne.symm hx]
  · rw [if_neg (fun h => hcd h.1)]
    exact d_lookup_congr (by rw [hash_looked_up (h.lt hc), if_neg hcd]) hnames x

/-- A lookup does not change what names resolve to. -/
theorem CacheStep.resolve {s' : FS} (h : Wf s) (hs : CacheStep s s') (names : List Name) {c : Nat} (hc : Cached s c) :
    resolve s' c names = resolve s c names := by
  have hwalk := fs_walk_congr hs.fs.1 hs.fs.2
  induction names generalizing c with
  | nil => exact hs.node h hc
  | cons x names ih =>
    have hold : d_lookup_dentry s' c x = d_lookup_dentry s c x → Fs.resolve s' c (x :: names) = Fs.resolve s c (x :: names) := by
      intro hlook
      rw [Fs.resolve, Fs.resolve, hlook]
      cases hfound : d_lookup_dentry s c x with
      | some y => exact ih (.inr ⟨c, (mem_of_d_lookup hfound).1⟩)
      | none => simp only [hs.node h hc, hwalk]
    cases hs with
    | @drop d name i hm hnone =>
      refine hold (d_lookup_congr (by rw [get_dropped d name (h.lt hc)]) (fun y hy => ?_) x)
      rw [get_dropped d name (h.child c y hy).lt]
    | @add d name i f hm hf =>
      by_cases hnew : c = d ∧ x = name
      · obtain ⟨rfl, rfl⟩ := hnew
        have hlt := h.lt hc
        have hlook := d_lookup_looked_up h hm hf hc x
        rw [if_pos ⟨rfl, rfl⟩] at hlook
        have hhash : ((looked_up s c x f i).dentries.get s.dentries.next).d_hash = [] := by
          rw [get_looked_up_next hlt]
          rfl
        have hinode : (looked_up s c x f i).inodes.get s.inodes.next = _ := Pool.get_alloc_next s.inodes _
        have hnode : Fs.node (looked_up s c x f i) s.dentries.next = some (s.initramfs_dentries.get f).target_inode := by
          simp only [Fs.node, get_looked_up_next hlt, Option.map_some, hinode]
        have hnode_c : Fs.node s c = some (s.inodes.get i).i_private := by simp only [Fs.node, hm.d_inode, Option.map_some]
        simp only [Fs.resolve, hlook, resolve_uncached hhash hnode, hm.not_cached, hnode_c, Option.bind_some, fs_walk, hf,
          hwalk]
      · apply hold
        rw [d_lookup_looked_up h hm hf hc, if_neg hnew]

theorem steps_wf {s s' : FS} (h : Wf s) (hs : Relation.ReflTransGen CacheStep s s') : Wf s' := by
  induction hs with
  | refl => exact h
  | tail _ hstep ih => exact hstep.wf ih

theorem steps_fits {s s' : FS} (hs : Relation.ReflTransGen CacheStep s s') (x : Name) : s'.fits x = s.fits x := by
  induction hs with
  | refl => rfl
  | tail _ hstep ih => rw [hstep.fits, ih]

theorem steps_cached {s s' : FS} (h : Wf s) (hs : Relation.ReflTransGen CacheStep s s') {c : Nat} (hc : Cached s c) :
    Cached s' c := by
  induction hs with
  | refl => exact hc
  | tail hr hstep ih => exact hstep.cached (steps_wf h hr) ih

theorem steps_resolve {s s' : FS} (h : Wf s) (hs : Relation.ReflTransGen CacheStep s s') {c : Nat} (hc : Cached s c)
    (names : List Name) : resolve s' c names = resolve s c names := by
  induction hs with
  | refl => rfl
  | tail hr hstep ih => rw [hstep.resolve (steps_wf h hr) names (steps_cached h hr hc), ih]

/-! ## Walks -/

/-- What a walk comes to, after the lookups it takes. -/
structure WalkTo (s : FS) (d : Nat) (names : List Name) (s' : FS) (r : Except Int Nat) : Prop where
  walk : Fs.walk s d names = some (s', r)
  steps : Relation.ReflTransGen CacheStep s s'
  found : ∀ c, r = .ok c → Cached s' c ∧ Fs.node s' c = Fs.resolve s d names
  missing : ∀ e, r = .error e → e = -ENOENT ∧ Fs.resolve s d names = none

/-- The walk from the dentry `d` looks up only names that fit. -/
def FitsOn (s : FS) (d : Nat) (names : List Name) : Prop :=
  ∀ pre name post, names = pre ++ name :: post → (resolve s d pre).isSome = true → s.fits name = true

theorem fitsOn_nil (s : FS) (d : Nat) : FitsOn s d [] := by
  intro pre name post hnames
  simp at hnames

theorem resolve_nil_isSome (h : Wf s) (hd : Cached s d) : (resolve s d []).isSome = true := by
  obtain ⟨i, hi, -⟩ := h.bound d hd
  simp [resolve, node, hi]

/-- The first name is looked up in any case. -/
theorem FitsOn.head {x : Name} {names : List Name} (hfit : FitsOn s d (x :: names)) (h : Wf s) (hd : Cached s d) :
    s.fits x = true :=
  hfit [] x names rfl (resolve_nil_isSome h hd)

theorem FitsOn.of_all {names : List Name} (h : ∀ x ∈ names, s.fits x = true) : FitsOn s d names := by
  rintro pre name post rfl -
  exact h name (by simp)

/-- The first name is looked up, and the others from where it leads. -/
theorem fitsOn_cons {s' : FS} {c : Nat} {x : Name} {names : List Name} (h : Wf s) (hd : Cached s d)
    (hfits : ∀ y, s'.fits y = s.fits y) (hres : ∀ names, resolve s d (x :: names) = resolve s' c names) :
    FitsOn s d (x :: names) ↔ s.fits x = true ∧ FitsOn s' c names := by
  constructor
  · intro hfit
    refine ⟨hfit.head h hd, ?_⟩
    rintro pre y post rfl hsome
    rw [hfits]
    exact hfit (x :: pre) y post rfl (by rw [hres]; exact hsome)
  · rintro ⟨hx, hfit⟩ pre y post hnames hsome
    cases pre with
    | nil => rwa [← (List.cons.inj hnames).1]
    | cons z pre =>
      obtain ⟨rfl, rfl⟩ := List.cons.inj hnames
      rw [← hfits]
      exact hfit pre y post rfl (by rw [← hres]; exact hsome)

/-- What is known of a component before it is looked up. -/
def Component (name : Name) : Prop := '/' ∉ name ∧ name.length < 128

/-- A name that does not fit is not cached, and its lookup does not return. -/
theorem Wf.find_unfit (h : Wf s) (d : Nat) (hfit : s.fits name = false) : find_dentry s d name = none := by
  refine find_dentry_unfit hfit ?_
  cases hc : d_lookup_dentry s d name with
  | none => rfl
  | some c =>
    obtain ⟨hmem, rfl⟩ := mem_of_d_lookup hc
    simp [(h.child d c hmem).valid.1] at hfit

theorem resolve_cached_cons {c : Nat} (hlook : d_lookup_dentry s d name = some c) (names : List Name) :
    resolve s d (name :: names) = resolve s c names := by simp only [resolve, hlook]

theorem resolve_missed {names : List Name} (hm : Miss s d name i)
    (hnone : initramfs_lookup s (s.inodes.get i).i_private name = none) : resolve s d (name :: names) = none := by
  simp [resolve, hm.not_cached, node, hm.d_inode, fs_walk, hnone]

theorem resolve_looked_up_cons (h : Wf s) (hm : Miss s d name i)
    (hf : initramfs_lookup s (s.inodes.get i).i_private name = some f) (names : List Name) :
    resolve s d (name :: names) = resolve (looked_up s d name f i) s.dentries.next names := by
  have hlook := d_lookup_looked_up h hm hf hm.cached name
  rw [if_pos ⟨rfl, rfl⟩] at hlook
  rw [← (CacheStep.add hm hf).resolve h (name :: names) hm.cached, resolve_cached_cons hlook]

/-- A walk that looks up only names that fit ends at what they resolve to. -/
theorem walk_spec {names : List Name} (h : Wf s) (hd : Cached s d) (hnames : ∀ x ∈ names, Component x)
    (hfit : FitsOn s d names) : ∃ s' r, WalkTo s d names s' r := by
  induction names generalizing s d with
  | nil =>
    refine ⟨s, .ok d, rfl, .refl, ?_, ?_⟩
    · rintro c hc
      obtain rfl := Except.ok.inj hc
      exact ⟨hd, rfl⟩
    · intro e he
      cases he
  | cons x names ih =>
    rw [List.forall_mem_cons] at hnames
    have hx : Valid s x := ⟨hfit.head h hd, hnames.1⟩
    rcases find_dentry_spec h hd hx with ⟨c, hlook, hfind⟩ | ⟨i, hm, ⟨hnone, hfind⟩ | ⟨f, hf, hfind⟩⟩
    · have hrest := ((fitsOn_cons h hd (fun _ => rfl) (resolve_cached_cons hlook)).1 hfit).2
      obtain ⟨s', r, hw⟩ := ih h (.inr ⟨d, (mem_of_d_lookup hlook).1⟩) hnames.2 hrest
      have hres := resolve_cached_cons hlook names
      refine ⟨s', r, ?_, hw.steps, ?_, ?_⟩
      · simp only [Fs.walk, hfind, Option.bind_eq_bind, Option.bind_some, hw.walk]
      · rw [hres]
        exact hw.found
      · rw [hres]
        exact hw.missing
    · refine ⟨dropped s d x, .error (-ENOENT), ?_, .single (.drop hm hnone), ?_, ?_⟩
      · simp only [Fs.walk, hfind, Option.bind_eq_bind, Option.bind_some]
      · intro c hc
        cases hc
      · intro e he
        exact ⟨(Except.error.inj he).symm, resolve_missed hm hnone⟩
    · have hstep := CacheStep.add hm hf
      have hnew : Cached (looked_up s d x f i) s.dentries.next := (cached_looked_up h hd).2 (.inr rfl)
      have hrest := ((fitsOn_cons h hd hstep.fits (resolve_looked_up_cons h hm hf)).1 hfit).2
      obtain ⟨s', r, hw⟩ := ih (h.looked_up hm hf) hnew hnames.2 hrest
      have hres := resolve_looked_up_cons h hm hf names
      refine ⟨s', r, ?_, .head hstep hw.steps, ?_, ?_⟩
      · simp only [Fs.walk, hfind, Option.bind_eq_bind, Option.bind_some, hw.walk]
      · rw [hres]
        exact hw.found
      · rw [hres]
        exact hw.missing

/-- Any other walk does not end. -/
theorem walk_unfit {names : List Name} (h : Wf s) (hd : Cached s d) (hnames : ∀ x ∈ names, Component x)
    (hfit : ¬FitsOn s d names) : Fs.walk s d names = none := by
  induction names generalizing s d with
  | nil => exact absurd (fitsOn_nil s d) hfit
  | cons x names ih =>
    rw [List.forall_mem_cons] at hnames
    cases hx : s.fits x with
    | false => simp only [Fs.walk, h.find_unfit d hx, Option.bind_eq_bind, Option.bind_none]
    | true =>
      rcases find_dentry_spec h hd ⟨hx, hnames.1⟩ with ⟨c, hlook, hfind⟩ | ⟨i, hm, ⟨hnone, hfind⟩ | ⟨f, hf, hfind⟩⟩
      · have hrest : ¬FitsOn s c names := fun hrest =>
          hfit ((fitsOn_cons h hd (fun _ => rfl) (resolve_cached_cons hlook)).2 ⟨hx, hrest⟩)
        simp only [Fs.walk, hfind, Option.bind_eq_bind, Option.bind_some]
        exact ih h (.inr ⟨d, (mem_of_d_lookup hlook).1⟩) hnames.2 hrest
      · -- The walk ends at `x`, so that it is all that is looked up.
        refine absurd ?_ hfit
        rintro (_ | ⟨y, pre⟩) z post hnames hsome
        · rwa [← (List.cons.inj hnames).1]
        · obtain ⟨rfl, -⟩ := List.cons.inj hnames
          simp [resolve_missed hm hnone] at hsome
      · have hstep := CacheStep.add hm hf
        have hrest : ¬FitsOn (looked_up s d x f i) s.dentries.next names := fun hrest =>
          hfit ((fitsOn_cons h hd hstep.fits (resolve_looked_up_cons h hm hf)).2 ⟨hx, hrest⟩)
        simp only [Fs.walk, hfind, Option.bind_eq_bind, Option.bind_some]
        exact ih (h.looked_up hm hf) ((cached_looked_up h hd).2 (.inr rfl)) hnames.2 hrest

theorem splitOn_no_slash {path : Path} : ∀ x ∈ path.splitOn '/', '/' ∉ x := by
  induction path with
  | nil => simp
  | cons c path ih =>
    by_cases hc : c = '/'
    · subst hc
      rw [splitOn_slash]
      exact List.forall_mem_cons.2 ⟨by simp, ih⟩
    · rw [splitOn_cons hc]
      cases hs : path.splitOn '/' with
      | nil => exact absurd hs (List.splitOn_ne_nil _ _)
      | cons y ys =>
        rw [hs, List.forall_mem_cons] at ih
        exact List.forall_mem_cons.2 ⟨by simpa [Ne.symm hc] using ih.1, ih.2⟩

/-- A walk that ends has looked up only names that fit. -/
theorem walk_fits {names : List Name} {a : FS × Except Int Nat} (h : Wf s) (hd : Cached s d)
    (hnames : ∀ x ∈ names, Component x) (hw : Fs.walk s d names = some a) : FitsOn s d names := by
  by_contra hfit
  rw [walk_unfit h hd hnames hfit] at hw
  cases hw

theorem components_component {path : Path} (habs : Absolute path) : ∀ x ∈ components path, Component x := by
  intro x hx
  refine ⟨?_, habs.2 x hx⟩
  exact splitOn_no_slash x ((prefix_drop_trailing _).subset (List.mem_of_mem_tail hx))

/-- `select_file` along a path. -/
theorem select_file_spec {path : Path} (h : Wf s) (habs : Absolute path)
    (hfit : FitsOn s s.root_dentry (components path)) :
    ∃ s' r, select_file s path 0 = some (s', r) ∧ WalkTo s s.root_dentry (components path) s' r := by
  obtain ⟨s', r, hw⟩ := walk_spec h (.inl rfl) (components_component habs) hfit
  refine ⟨s', r, ?_, hw⟩
  rw [select_file_walk habs, Nat.sub_zero, List.take_length, hw.walk]

/-- The lookup of a path returns exactly when the names it looks up fit. -/
theorem select_file_returns {path : Path} (h : Wf s) (habs : Absolute path) :
    select_file s path 0 ≠ none ↔ FitsOn s s.root_dentry (components path) := by
  constructor
  · rw [select_file_walk habs, Nat.sub_zero, List.take_length]
    intro hsome
    by_contra hfit
    exact hsome (walk_unfit h (.inl rfl) (components_component habs) hfit)
  · intro hfit
    obtain ⟨s', r, hselect, -⟩ := select_file_spec h habs hfit
    simp [hselect]

end

end McLinOS.Fs
