import Mathlib.Data.List.Nodup
import McLinOS.Fs.DentryTree
/-!
# Theorems about the tree of dentries

A call attaches a new dentry, drops one that was never attached, or unlinks one.
The tree is kept as long as memory lasts and nothing with cached children goes.
-/
open CLib

namespace McLinOS.DentryTree

open Fs (Name Path S_IFMT S_IFREG S_IFBLK S_IFDIR S_IFCHR ENOENT ENOMEM EEXIST ENOTDIR file_name get_dir_number)

/-! ## What happens to the dentries -/

/-- A new dentry, the next one, in the list of `p`. -/
structure Attached (s s' : State) (p : Nat) (name : Name) : Prop where
  next : s'.dentries.next = s.dentries.next + 1
  freed : s'.freed = s.freed
  root : s'.root_dentry = s.root_dentry
  s_root : s'.s_root = s.s_root
  new : ∃ i sb, s'.dentries.get s.dentries.next =
    { d_hash := [], d_parent := some p, d_name := name, d_inode := some i, d_sb := sb, count := 0 }
  parent : s'.dentries.get p = { s.dentries.get p with
    d_hash := s.dentries.next :: (s.dentries.get p).d_hash, count := (s.dentries.get p).count + 1 }
  others : ∀ x, x ≠ s.dentries.next → x ≠ p → s'.dentries.get x = s.dentries.get x

/-- The next dentry came and went. -/
structure Dropped (s s' : State) : Prop where
  next : s'.dentries.next = s.dentries.next + 1
  freed : s'.freed = s.dentries.next :: s.freed
  root : s'.root_dentry = s.root_dentry
  s_root : s'.s_root = s.s_root
  others : ∀ x, x ≠ s.dentries.next → s'.dentries.get x = s.dentries.get x

/-- The dentry `d` below `p` is gone. -/
structure Unlinked (s s' : State) (d p : Nat) : Prop where
  next : s'.dentries.next = s.dentries.next
  freed : s'.freed = d :: s.freed
  root : s'.root_dentry = s.root_dentry
  s_root : s'.s_root = s.s_root
  parent : s'.dentries.get p = { s.dentries.get p with
    d_hash := (s.dentries.get p).d_hash.erase d, count := (s.dentries.get p).count - 1 }
  others : ∀ x, x ≠ p → s'.dentries.get x = { s.dentries.get x with d_hash := (s.dentries.get x).d_hash.erase d }

section Functions
variable {stray : Bool} {s s₁ s' : State} {dir d : Nat} {name : Name} {mem : Memory}

/-- `d_alloc` with memory. -/
theorem d_alloc_some (h : d_alloc stray mem s dir name = some (s₁, some d)) :
    Allocates mem name ∧ d = s.dentries.next ∧ s₁ = dget_dlock
      { s with dentries := s.dentries.alloc (new_dentry dir name (s.dentries.get dir).d_sb) } dir := by
  unfold d_alloc at h
  split at h
  · rename_i ha
    simp only [Option.some.injEq, Prod.mk.injEq] at h
    exact ⟨ha, h.2.symm, h.1.symm⟩
  · split at h
    · simp at h
    · split at h <;> simp at h

/-- `d_alloc` without. -/
theorem d_alloc_none (h : d_alloc stray mem s dir name = some (s₁, none)) :
    ¬Allocates mem name ∧ s₁ = dget_dlock s dir := by
  unfold d_alloc at h
  split at h
  · simp at h
  · rename_i ha
    split at h
    · simp at h
    · split at h
      · simp only [Option.some.injEq, Prod.mk.injEq, and_true] at h
        exact ⟨ha, h.symm⟩
      · simp at h

theorem alloc_drop (hdir : dir < s.dentries.next) (h : d_alloc stray mem s dir name = some (s₁, some d))
    (h' : __d_drop s₁ d = some s') : Dropped s s' := by
  obtain ⟨-, rfl, rfl⟩ := d_alloc_some h
  have hne : s.dentries.next ≠ dir := Nat.ne_of_gt hdir
  obtain ⟨p, hp, rfl⟩ := Option.map_eq_some_iff.1 h'
  simp only [dget_dlock, Pool.get_modify, if_neg hne, Pool.get_alloc_next, new_dentry, Option.some.injEq] at hp
  subst hp
  refine ⟨rfl, rfl, rfl, rfl, fun x hx => ?_⟩
  simp only [dput_dlock, dget_dlock, Pool.get_modify, Pool.get_alloc, if_neg hx, if_neg hne.symm, if_true]
  split
  · rename_i hxd
    subst hxd
    simp
  · rfl

/-- The dentry's inode. -/
def HasInode (s : State) (d : Nat) (i : inode) : Prop := ∃ j, (s.dentries.get d).d_inode = some j ∧ s.inodes.get j = i

theorem alloc_bind {i : inode} (hdir : dir < s.dentries.next) (h : d_alloc stray mem s dir name = some (s₁, some d))
    (h' : bind_inode s₁ d i = some s') : Attached s s' dir name ∧ HasInode s' s.dentries.next i := by
  obtain ⟨-, rfl, rfl⟩ := d_alloc_some h
  have hne : s.dentries.next ≠ dir := Nat.ne_of_gt hdir
  unfold bind_inode d_add at h'
  obtain ⟨p, hp, h'⟩ := Option.bind_eq_some_iff.1 h'
  simp only [dget_dlock, Pool.get_modify, if_neg hne, Pool.get_alloc_next, new_dentry, Option.some.injEq] at hp
  subst hp
  obtain ⟨j, -, h'⟩ := Option.bind_eq_some_iff.1 h'
  simp only [Option.some.injEq] at h'
  subst h'
  refine ⟨⟨rfl, rfl, rfl, rfl, ?_, ?_, ?_⟩, s.inodes.next, ?_, ?_⟩
  · simp [dget_dlock, Pool.get_modify, hne, new_dentry]
  · simp [dget_dlock, Pool.get_modify, Pool.get_alloc, hne.symm, new_dentry]
  · intro x hx hxd
    simp [dget_dlock, Pool.get_modify, Pool.get_alloc, hx, hxd]
  · simp [dget_dlock, Pool.get_modify, hne]
  · exact Pool.get_alloc_next _ _

/-- What `find_dentry` does. -/
inductive Finds (ans : Answer) (s : State) (dir : Nat) (name : Name) : State → Except Int Nat → Prop
  | cached {d : Nat} : d_lookup_dentry s dir name = some d → Finds ans s dir name s (.ok d)
  | no_memory : d_lookup_dentry s dir name = none → ¬Allocates ans.mem name →
      Finds ans s dir name (dget_dlock s dir) (.error (-ENOMEM))
  | missing {s' : State} : d_lookup_dentry s dir name = none → Allocates ans.mem name → ans.lookup = none →
      Dropped s s' → Finds ans s dir name s' (.error (-ENOENT))
  | found {s' : State} {i : inode} : d_lookup_dentry s dir name = none → Allocates ans.mem name → ans.lookup = some i →
      Attached s s' dir name → HasInode s' s.dentries.next i → Finds ans s dir name s' (.ok s.dentries.next)

theorem find_dentry_cases {ans : Answer} {r : Except Int Nat} (hdir : dir < s.dentries.next)
    (h : find_dentry stray ans s dir name = some (s', r)) : Finds ans s dir name s' r := by
  unfold find_dentry at h
  split at h
  · rename_i d hd
    obtain ⟨rfl, rfl⟩ := Prod.mk.inj (Option.some.inj h)
    exact .cached hd
  rename_i hnone
  obtain ⟨⟨s₁, son⟩, halloc, h⟩ := Option.bind_eq_some_iff.1 h
  cases son with
  | none =>
    obtain ⟨hmem, rfl⟩ := d_alloc_none halloc
    obtain ⟨rfl, rfl⟩ := Prod.mk.inj (Option.some.inj h)
    exact .no_memory hnone hmem
  | some son =>
    obtain ⟨hmem, rfl, -⟩ := d_alloc_some halloc
    obtain ⟨_, -, h⟩ := Option.bind_eq_some_iff.1 h
    split at h
    · rename_i hlookup
      obtain ⟨s₂, hdrop, h⟩ := Option.bind_eq_some_iff.1 h
      obtain ⟨rfl, rfl⟩ := Prod.mk.inj (Option.some.inj h)
      exact .missing hnone hmem hlookup (alloc_drop hdir halloc hdrop)
    · rename_i i hlookup
      obtain ⟨s₂, hbind, h⟩ := Option.bind_eq_some_iff.1 h
      obtain ⟨rfl, rfl⟩ := Prod.mk.inj (Option.some.inj h)
      obtain ⟨hatt, hinode⟩ := alloc_bind hdir halloc hbind
      exact .found hnone hmem hlookup hatt hinode

/-- The rest of `create_dentry` attaches the dentry or drops it. -/
theorem create_in_cases {made : Option inode} {i_mode : Nat} {r : Except Int Nat} (hdir : dir < s.dentries.next)
    (halloc : d_alloc stray mem s dir name = some (s₁, some d)) (h : create_in made s₁ dir d i_mode = some (s', r)) :
    Dropped s s' ∨ Attached s s' dir name := by
  unfold create_in at h
  obtain ⟨d_inode, -, h⟩ := Option.bind_eq_some_iff.1 h
  split at h
  · obtain ⟨s₂, hdrop, h⟩ := Option.bind_eq_some_iff.1 h
    obtain ⟨rfl, -⟩ := Prod.mk.inj (Option.some.inj h)
    exact .inl (alloc_drop hdir halloc hdrop)
  · dsimp only at h
    split at h
    · obtain ⟨s₂, hdrop, h⟩ := Option.bind_eq_some_iff.1 h
      obtain ⟨rfl, -⟩ := Prod.mk.inj (Option.some.inj h)
      exact .inl (alloc_drop hdir halloc hdrop)
    · obtain ⟨s₂, hbind, h⟩ := Option.bind_eq_some_iff.1 h
      obtain ⟨rfl, -⟩ := Prod.mk.inj (Option.some.inj h)
      exact .inr (alloc_bind hdir halloc hbind).1

theorem simple_unlink_cases (h : simple_unlink stray s d = some s') :
    ∃ p, (s.dentries.get d).d_parent = some p ∧ Unlinked s s' d p := by
  unfold simple_unlink d_delete at h
  split at h
  · obtain ⟨p, hp, rfl⟩ := Option.map_eq_some_iff.1 h
    refine ⟨p, hp, rfl, rfl, rfl, rfl, ?_, ?_⟩
    · simp [dput_dlock, __d_put, Pool.get_modify]
    · intro x hx
      simp [dput_dlock, __d_put, Pool.get_modify, hx]
  · simp at h

end Functions

/-! ## The invariant -/

/-- The tree, but the count of `p` is off by `off p`. Parents are older than
their children. -/
structure Inv (off : Nat → Int) (s : State) : Prop where
  root : Live s s.root_dentry
  root_parent : (s.dentries.get s.root_dentry).d_parent = none
  root_sb : ∃ sb, (s.dentries.get s.root_dentry).d_sb = some sb ∧ s.s_root sb = s.root_dentry
  bound : ∀ d ∈ s.freed, d < s.dentries.next
  inode : ∀ d, Live s d → ∃ i, (s.dentries.get d).d_inode = some i
  placed : ∀ d, Live s d → d ≠ s.root_dentry →
    ∃ p, (s.dentries.get d).d_parent = some p ∧ Live s p ∧ p < d ∧ d ∈ (s.dentries.get p).d_hash
  listed : ∀ p, Live s p → ∀ d ∈ (s.dentries.get p).d_hash, Live s d ∧ (s.dentries.get d).d_parent = some p
  names : ∀ p, Live s p → ((s.dentries.get p).d_hash.map fun d => (s.dentries.get d).d_name).Nodup
  counted : ∀ p, Live s p → (s.dentries.get p).count = (s.dentries.get p).d_hash.length + off p

section Invariant
variable {off : Nat → Int} {s s' : State} {d p : Nat} {name : Name}

theorem init_inv (h : Init s) : Inv (fun _ => 0) s := by
  have hroot := (h.live _).2 rfl
  refine ⟨hroot, h.parent, h.sb, h.freed, ?_, ?_, ?_, ?_, ?_⟩
  · intro d hd
    rw [(h.live d).1 hd]
    exact h.inode
  · exact fun d hd hne => absurd ((h.live d).1 hd) hne
  · intro p hp d hd
    rw [(h.live p).1 hp, h.hash] at hd
    exact absurd hd (List.not_mem_nil)
  · intro p hp
    rw [(h.live p).1 hp, h.hash]
    exact List.nodup_nil
  · intro p hp
    rw [(h.live p).1 hp, h.hash, h.count]
    rfl

theorem Inv.hash_nodup (hi : Inv off s) (hp : Live s p) : (s.dentries.get p).d_hash.Nodup :=
  List.Nodup.of_map _ (hi.names p hp)

theorem Inv.fresh (hi : Inv off s) : s.dentries.next ∉ s.freed := fun h => Nat.lt_irrefl _ (hi.bound _ h)

/-- A dentry is in no list but its parent's. -/
theorem Inv.parent_unique {q : Nat} (hi : Inv off s) (hp : Live s p) (hq : Live s q)
    (hdp : d ∈ (s.dentries.get p).d_hash) (hdq : d ∈ (s.dentries.get q).d_hash) : q = p := by
  have h1 := (hi.listed p hp d hdp).2
  have h2 := (hi.listed q hq d hdq).2
  exact Option.some.inj (h2.symm.trans h1)

theorem Attached.live (h : Attached s s' p name) (hi : Inv off s) (x : Nat) :
    Live s' x ↔ Live s x ∨ x = s.dentries.next := by
  unfold Live
  rw [h.next, h.freed]
  exact Pool.live_alloc hi.fresh

/-- Attaching changes the list and the count of the parent only. -/
theorem Attached.same (h : Attached s s' p name) {x : Nat} (hx : x ≠ s.dentries.next) :
    (s'.dentries.get x).d_parent = (s.dentries.get x).d_parent ∧ (s'.dentries.get x).d_name = (s.dentries.get x).d_name ∧
      (s'.dentries.get x).d_inode = (s.dentries.get x).d_inode ∧ (s'.dentries.get x).d_sb = (s.dentries.get x).d_sb := by
  by_cases hxp : x = p
  · rw [hxp, h.parent]
    exact ⟨rfl, rfl, rfl, rfl⟩
  · rw [h.others x hx hxp]
    exact ⟨rfl, rfl, rfl, rfl⟩

theorem Inv.attached (hi : Inv off s) (h : Attached s s' p name) (hp : Live s p)
    (hname : ∀ d ∈ (s.dentries.get p).d_hash, (s.dentries.get d).d_name ≠ name) (hoff : off s.dentries.next = 0) :
    Inv off s' := by
  have hlive := h.live hi
  have hold : ∀ {x}, Live s x → x ≠ s.dentries.next := fun hx => Nat.ne_of_lt hx.1
  obtain ⟨i, sb, hnew⟩ := h.new
  have hroot := h.same (hold hi.root)
  -- The lists of the old dentries, and what is in them.
  have hhash : ∀ q, Live s q → ∀ x ∈ (s'.dentries.get q).d_hash,
      x ∈ (s.dentries.get q).d_hash ∨ (q = p ∧ x = s.dentries.next) := by
    intro q hq x hx
    by_cases hqp : q = p
    · subst hqp
      rw [h.parent] at hx
      rcases List.mem_cons.1 hx with rfl | hx
      · exact .inr ⟨rfl, rfl⟩
      · exact .inl hx
    · rw [h.others q (hold hq) hqp] at hx
      exact .inl hx
  refine ⟨?_, ?_, ?_, ?_, ?_, ?_, ?_, ?_, ?_⟩
  · rw [h.root]
    exact (hlive _).2 (.inl hi.root)
  · rw [h.root, hroot.1]
    exact hi.root_parent
  · rw [h.root, hroot.2.2.2, h.s_root]
    exact hi.root_sb
  · intro d hd
    rw [h.freed] at hd
    rw [h.next]
    exact Nat.lt_succ_of_lt (hi.bound d hd)
  · intro d hd
    rcases (hlive d).1 hd with hd | rfl
    · rw [(h.same (hold hd)).2.2.1]
      exact hi.inode d hd
    · rw [hnew]
      exact ⟨i, rfl⟩
  · intro d hd hne
    rw [h.root] at hne
    rcases (hlive d).1 hd with hd | rfl
    · obtain ⟨q, hq, hlq, hlt, hmem⟩ := hi.placed d hd hne
      refine ⟨q, by rw [(h.same (hold hd)).1, hq], (hlive q).2 (.inl hlq), hlt, ?_⟩
      by_cases hqp : q = p
      · subst hqp
        rw [h.parent]
        exact List.mem_cons_of_mem _ hmem
      · rwa [h.others q (hold hlq) hqp]
    · refine ⟨p, by rw [hnew], (hlive p).2 (.inl hp), hp.1, ?_⟩
      rw [h.parent]
      exact List.mem_cons_self
  · intro q hq d hd
    rcases (hlive q).1 hq with hq | rfl
    · rcases hhash q hq d hd with hd | ⟨rfl, rfl⟩
      · obtain ⟨hl, hpar⟩ := hi.listed q hq d hd
        exact ⟨(hlive d).2 (.inl hl), by rw [(h.same (hold hl)).1, hpar]⟩
      · exact ⟨(hlive _).2 (.inr rfl), by rw [hnew]⟩
    · rw [hnew] at hd
      exact absurd hd List.not_mem_nil
  · intro q hq
    rcases (hlive q).1 hq with hq | rfl
    · have hmap : ((s.dentries.get q).d_hash.map fun d => (s'.dentries.get d).d_name) =
          (s.dentries.get q).d_hash.map fun d => (s.dentries.get d).d_name :=
        List.map_congr_left fun d hd => (h.same (hold (hi.listed q hq d hd).1)).2.1
      by_cases hqp : q = p
      · subst hqp
        rw [h.parent, List.map_cons, hmap, hnew]
        refine List.nodup_cons.2 ⟨fun hmem => ?_, hi.names q hq⟩
        obtain ⟨d, hd, hdn⟩ := List.mem_map.1 hmem
        exact hname d hd hdn
      · rw [h.others q (hold hq) hqp, hmap]
        exact hi.names q hq
    · rw [hnew]
      exact List.nodup_nil
  · intro q hq
    rcases (hlive q).1 hq with hq | rfl
    · have hcount := hi.counted q hq
      by_cases hqp : q = p
      · subst hqp
        rw [h.parent]
        dsimp only
        rw [hcount, List.length_cons]
        push_cast
        omega
      · rwa [h.others q (hold hq) hqp]
    · rw [hnew, hoff]
      rfl

theorem Dropped.live (h : Dropped s s') (x : Nat) : Live s' x ↔ Live s x := by
  unfold Live
  rw [h.next, h.freed, List.mem_cons, not_or]
  constructor
  · rintro ⟨h1, h2, h3⟩
    exact ⟨by omega, h3⟩
  · rintro ⟨h1, h2⟩
    exact ⟨by omega, by omega, h2⟩

/-- A dentry that came and went leaves the tree. -/
theorem Inv.dropped (hi : Inv off s) (h : Dropped s s') : Inv off s' := by
  have hlive := h.live
  have hget : ∀ x, Live s x → s'.dentries.get x = s.dentries.get x := fun x hx => h.others x (Nat.ne_of_lt hx.1)
  refine ⟨?_, ?_, ?_, ?_, ?_, ?_, ?_, ?_, ?_⟩
  · rw [h.root]
    exact (hlive _).2 hi.root
  · rw [h.root, hget _ hi.root]
    exact hi.root_parent
  · rw [h.root, hget _ hi.root, h.s_root]
    exact hi.root_sb
  · intro d hd
    rw [h.freed] at hd
    rw [h.next]
    rcases List.mem_cons.1 hd with rfl | hd
    · exact Nat.lt_succ_self _
    · exact Nat.lt_succ_of_lt (hi.bound d hd)
  · intro d hd
    rw [hlive] at hd
    rw [hget d hd]
    exact hi.inode d hd
  · intro d hd hne
    rw [hlive] at hd
    rw [h.root] at hne
    obtain ⟨q, hq, hlq, hlt, hmem⟩ := hi.placed d hd hne
    exact ⟨q, by rw [hget d hd, hq], (hlive q).2 hlq, hlt, by rwa [hget q hlq]⟩
  · intro q hq d hd
    rw [hlive] at hq
    rw [hget q hq] at hd
    obtain ⟨hl, hpar⟩ := hi.listed q hq d hd
    exact ⟨(hlive d).2 hl, by rw [hget d hl, hpar]⟩
  · intro q hq
    rw [hlive] at hq
    rw [hget q hq, List.map_congr_left fun d hd => by rw [hget d (hi.listed q hq d hd).1]]
    exact hi.names q hq
  · intro q hq
    rw [hlive] at hq
    rw [hget q hq]
    exact hi.counted q hq

theorem dget_dlock_get (s : State) (p x : Nat) :
    ∃ c, (dget_dlock s p).dentries.get x = { s.dentries.get x with count := c } := by
  unfold dget_dlock
  simp only [Pool.get_modify]
  split
  · rename_i hx
    exact ⟨_, by rw [hx]⟩
  · exact ⟨_, rfl⟩

theorem dget_dlock_hash (s : State) (p x : Nat) :
    ((dget_dlock s p).dentries.get x).d_hash = (s.dentries.get x).d_hash := by
  obtain ⟨c, hc⟩ := dget_dlock_get s p x
  rw [hc]

theorem dget_dlock_parent (s : State) (p x : Nat) :
    ((dget_dlock s p).dentries.get x).d_parent = (s.dentries.get x).d_parent := by
  obtain ⟨c, hc⟩ := dget_dlock_get s p x
  rw [hc]

theorem dget_dlock_name (s : State) (p x : Nat) :
    ((dget_dlock s p).dentries.get x).d_name = (s.dentries.get x).d_name := by
  obtain ⟨c, hc⟩ := dget_dlock_get s p x
  rw [hc]

/-- Counting a dentry up spoils its count and nothing else. -/
theorem Inv.counted_up (hi : Inv off s) (p : Nat) :
    Inv (Function.update off p (off p + 1)) (dget_dlock s p) := by
  refine ⟨hi.root, ?_, ?_, hi.bound, ?_, ?_, ?_, ?_, ?_⟩
  · rw [dget_dlock_parent]
    exact hi.root_parent
  · obtain ⟨c, hc⟩ := dget_dlock_get s p s.root_dentry
    have hroot : (dget_dlock s p).root_dentry = s.root_dentry := rfl
    rw [hroot, hc]
    exact hi.root_sb
  · intro d hd
    obtain ⟨c, hc⟩ := dget_dlock_get s p d
    rw [hc]
    exact hi.inode d hd
  · intro d hd hne
    rw [dget_dlock_parent]
    simp only [dget_dlock_hash]
    exact hi.placed d hd hne
  · intro q hq d hd
    rw [dget_dlock_hash] at hd
    rw [dget_dlock_parent]
    exact hi.listed q hq d hd
  · intro q hq
    simp only [dget_dlock_hash, dget_dlock_name]
    exact hi.names q hq
  · intro q hq
    rw [dget_dlock_hash]
    have hcount := hi.counted q hq
    by_cases hqp : q = p
    · subst hqp
      simp only [dget_dlock, Pool.get_modify, if_true, Function.update_self]
      omega
    · simp only [dget_dlock, Pool.get_modify, if_neg hqp, Function.update_of_ne hqp]
      exact hcount

/-- A dentry without cached children goes. -/
theorem Inv.unlinked (hi : Inv off s) (h : Unlinked s s' d p) (hd : Live s d)
    (hparent : (s.dentries.get d).d_parent = some p) (hempty : (s.dentries.get d).d_hash = []) : Inv off s' := by
  have hdroot : d ≠ s.root_dentry := by
    rintro rfl
    rw [hi.root_parent] at hparent
    cases hparent
  obtain ⟨p', hp', hp, hlt, hmem⟩ := hi.placed d hd hdroot
  obtain rfl : p = p' := Option.some.inj (hparent.symm.trans hp')
  have hlive : ∀ x, Live s' x ↔ Live s x ∧ x ≠ d := by
    intro x
    unfold Live
    rw [h.next, h.freed, List.mem_cons, not_or]
    tauto
  -- Only the parent's list has the dentry.
  have hhash : ∀ q, Live s q → (s'.dentries.get q).d_hash = (s.dentries.get q).d_hash.erase d := by
    intro q hq
    by_cases hqp : q = p
    · rw [hqp, h.parent]
    · rw [h.others q hqp]
  have hsame : ∀ x, (s'.dentries.get x).d_parent = (s.dentries.get x).d_parent ∧
      (s'.dentries.get x).d_name = (s.dentries.get x).d_name ∧
      (s'.dentries.get x).d_inode = (s.dentries.get x).d_inode ∧
      (s'.dentries.get x).d_sb = (s.dentries.get x).d_sb := by
    intro x
    by_cases hxp : x = p
    · rw [hxp, h.parent]
      exact ⟨rfl, rfl, rfl, rfl⟩
    · rw [h.others x hxp]
      exact ⟨rfl, rfl, rfl, rfl⟩
  have hin : ∀ q, Live s q → ∀ x, x ∈ (s'.dentries.get q).d_hash ↔ x ∈ (s.dentries.get q).d_hash ∧ x ≠ d := by
    intro q hq x
    rw [hhash q hq, (hi.hash_nodup hq).mem_erase_iff, and_comm]
  refine ⟨?_, ?_, ?_, ?_, ?_, ?_, ?_, ?_, ?_⟩
  · rw [h.root]
    exact (hlive _).2 ⟨hi.root, hdroot.symm⟩
  · rw [h.root, (hsame _).1]
    exact hi.root_parent
  · rw [h.root, (hsame _).2.2.2, h.s_root]
    exact hi.root_sb
  · intro x hx
    rw [h.freed] at hx
    rw [h.next]
    rcases List.mem_cons.1 hx with rfl | hx
    · exact hd.1
    · exact hi.bound x hx
  · intro x hx
    rw [(hsame x).2.2.1]
    exact hi.inode x ((hlive x).1 hx).1
  · intro x hx hne
    rw [h.root] at hne
    obtain ⟨hx, hxd⟩ := (hlive x).1 hx
    obtain ⟨q, hq, hlq, hqx, hxq⟩ := hi.placed x hx hne
    have hqd : q ≠ d := by
      rintro rfl
      rw [hempty] at hxq
      cases hxq
    exact ⟨q, by rw [(hsame x).1, hq], (hlive q).2 ⟨hlq, hqd⟩, hqx, (hin q hlq x).2 ⟨hxq, hxd⟩⟩
  · intro q hq x hx
    obtain ⟨hq, -⟩ := (hlive q).1 hq
    obtain ⟨hx, hxd⟩ := (hin q hq x).1 hx
    obtain ⟨hl, hpar⟩ := hi.listed q hq x hx
    exact ⟨(hlive x).2 ⟨hl, hxd⟩, by rw [(hsame x).1, hpar]⟩
  · intro q hq
    obtain ⟨hq, -⟩ := (hlive q).1 hq
    simp only [fun x => (hsame x).2.1]
    rw [hhash q hq]
    exact (hi.names q hq).sublist (List.erase_sublist.map _)
  · intro q hq
    obtain ⟨hq, -⟩ := (hlive q).1 hq
    have hcount := hi.counted q hq
    by_cases hqp : q = p
    · subst hqp
      have hlen := List.length_erase_of_mem hmem
      have hpos := List.length_pos_of_mem hmem
      rw [hhash q hq, h.parent]
      dsimp only
      omega
    · have hno : d ∉ (s.dentries.get q).d_hash := fun hdq => hqp (hi.parent_unique hp hq hmem hdq)
      rw [hhash q hq, h.others q hqp, List.erase_of_not_mem hno]
      exact hcount

/-- The list of a dentry has the live dentries below it. -/
theorem Inv.children_perm (hi : Inv off s) (hp : Live s p) : (children s p).Perm (s.dentries.get p).d_hash := by
  refine (List.perm_ext_iff_of_nodup (List.nodup_range.filter _) (hi.hash_nodup hp)).2 fun d => ?_
  simp only [List.mem_filter, List.mem_range, decide_eq_true_eq]
  constructor
  · rintro ⟨-, hd, hparent⟩
    have hne : d ≠ s.root_dentry := by
      rintro rfl
      rw [hi.root_parent] at hparent
      cases hparent
    obtain ⟨q, hq, -, -, hmem⟩ := hi.placed d hd hne
    rwa [Option.some.inj (hparent.symm.trans hq)]
  · intro hd
    obtain ⟨hl, hparent⟩ := hi.listed p hp d hd
    exact ⟨hl.1, hl, hparent⟩

theorem Inv.tree (hi : Inv (fun _ => 0) s) : Tree s where
  placed := by
    intro d hd hne
    obtain ⟨p, hp, hlp, -, hmem⟩ := hi.placed d hd hne
    refine ⟨p, hp, hlp, List.count_eq_one_of_mem (hi.hash_nodup hlp) hmem, fun q hq hdq => ?_⟩
    exact hi.parent_unique hlp hq hmem hdq
  listed := fun p hp d hd => (hi.listed p hp d hd).1
  names := hi.names
  counted := by
    intro p hp
    rw [(hi.children_perm hp).length_eq, hi.counted p hp]
    exact Int.add_zero _

/-- A count that is off is seen. -/
theorem Inv.not_tree (hi : Inv off s) (hp : Live s p) (hoff : off p ≠ 0) : ¬Tree s := by
  intro ht
  have h1 := ht.counted p hp
  rw [(hi.children_perm hp).length_eq, hi.counted p hp] at h1
  omega

/-- A dentry with cached children goes, and they stay. -/
theorem Inv.orphans (hi : Inv off s) (h : Unlinked s s' d p) (hd : Live s d) (hfull : (s.dentries.get d).d_hash ≠ []) :
    ¬Tree s' := by
  intro ht
  obtain ⟨c, hc⟩ := List.exists_mem_of_ne_nil _ hfull
  obtain ⟨hlc, hparent⟩ := hi.listed d hd c hc
  have hne : c ≠ s.root_dentry := by
    rintro rfl
    rw [hi.root_parent] at hparent
    cases hparent
  obtain ⟨q, hq, -, hlt, -⟩ := hi.placed c hlc hne
  obtain rfl : d = q := Option.some.inj (hparent.symm.trans hq)
  have hlive : Live s' c := by
    refine ⟨by rw [h.next]; exact hlc.1, ?_⟩
    rw [h.freed, List.mem_cons, not_or]
    exact ⟨Nat.ne_of_gt hlt, hlc.2⟩
  obtain ⟨q, hq', hlq, -⟩ := ht.placed c hlive (by rw [h.root]; exact hne)
  have hsame : (s'.dentries.get c).d_parent = (s.dentries.get c).d_parent := by
    by_cases hcp : c = p
    · rw [hcp, h.parent]
    · rw [h.others c hcp]
  rw [hsame, hparent] at hq'
  obtain rfl := Option.some.inj hq'
  exact hlq.2 (by rw [h.freed]; exact List.mem_cons_self)

end Invariant

/-! ## The condition -/

section Conditions
variable (stray : Bool) (ans : Nat → Answer)

/-- Where a path leads: to a dentry that is cached, or to the inode that the file
system finds. -/
inductive Place where
  | dentry (d : Nat)
  | inode (i : inode)

/-- The cached dentry of that name. What is not cached has no cached children. -/
def cached_in (s : State) (name : Name) : Place → Option Nat
  | .dentry d => d_lookup_dentry s d name
  | .inode _ => none

/-- Where `k` components from the `i`-th on lead, with memory for the dentries. -/
def leads_from (s : State) (path : Path) : Place → Nat → Nat → Option Place
  | place, _, 0 => some place
  | place, i, k + 1 => (file_name path i).bind fun name =>
      match cached_in s name place with
      | some d => leads_from s path (.dentry d) (i + 1) k
      | none => (ans i).lookup.bind fun j => leads_from s path (.inode j) (i + 1) k

def leads (s : State) (path : Path) (offset : Nat) : Option Place :=
  if path = ['/'] then some (.dentry s.root_dentry)
  else leads_from ans s path (.dentry s.root_dentry) 1 (get_dir_number path - offset)

/-- The `d_alloc` calls for `k` components from the `i`-th on have memory. There is
one for each component that is not cached, up to the first that the file system
does not find. -/
def walk_allocs (s : State) (path : Path) : Place → Nat → Nat → Prop
  | _, _, 0 => True
  | place, i, k + 1 => ∀ name, file_name path i = some name →
      match cached_in s name place with
      | some d => walk_allocs s path (.dentry d) (i + 1) k
      | none => Allocates (ans i).mem name ∧ ∀ j, (ans i).lookup = some j → walk_allocs s path (.inode j) (i + 1) k

/-- Every `d_alloc` of `select_file` has memory. -/
def select_allocs (s : State) (path : Path) (offset : Nat) : Prop :=
  path ≠ ['/'] → walk_allocs ans s path (.dentry s.root_dentry) 1 (get_dir_number path - offset)

/-- Both of `create_dentry` have memory, as far as it gets. -/
def entry_allocs (env : Creation) (s : State) (place : Place) (name : Name) : Prop :=
  cached_in s name place = none → Allocates env.find.mem name ∧ (env.find.lookup = none → Allocates env.mem name)

def Place.IsDir (s : State) : Place → Prop
  | .dentry d => DentryTree.IsDir s d
  | .inode i => i.i_mode &&& S_IFMT = S_IFDIR

/-- So has every one of `create_new_dentry`. -/
def create_allocs (env : Creation) (s : State) (path : Path) : Prop :=
  select_allocs ans s path 1 ∧
    ∀ place, leads ans s path 1 = some place → place.IsDir s →
      ∀ name, file_name path (get_dir_number path) = some name → entry_allocs env s place name

/-- `__remove_dentry` does not refuse the dentry. -/
def Removable (s : State) (d : Nat) : Prop :=
  is_s_root stray s d = some false ∧ ∃ i, (s.dentries.get d).d_inode = some i ∧
    (s.inodes.get i).i_mode &&& S_IFMT ≠ S_IFCHR ∧ (s.inodes.get i).i_mode &&& S_IFMT ≠ S_IFBLK

/-- Every `d_alloc` has memory, and what is removed has no cached children. -/
def good (s : State) : Call → Prop
  | .select_file ans path offset => select_allocs ans s path offset
  | .create_new_dentry ans env path _ => create_allocs ans env s path
  | .mkdir ans env path _ => create_allocs ans env s path
  | .remove_dentry ans path => select_allocs ans s path 0 ∧
      ∀ d, leads ans s path 0 = some (.dentry d) → Removable stray s d → (s.dentries.get d).d_hash = []

/-- A call that meets the condition. -/
def Step (s s' : State) : Prop := ∃ c, good stray s c ∧ call stray s c = some s'

end Conditions

section Calls
variable {stray : Bool} {ans : Nat → Answer} {s s' : State} {path : Path} {r : Except Int Nat}

theorem lookup_none {dir : Nat} {name : Name} (h : d_lookup_dentry s dir name = none) :
    ∀ d ∈ (s.dentries.get dir).d_hash, (s.dentries.get d).d_name ≠ name := by
  intro d hd
  simpa using List.find?_eq_none.1 h d hd

theorem lookup_mem {dir d : Nat} {name : Name} (h : d_lookup_dentry s dir name = some d) :
    d ∈ (s.dentries.get dir).d_hash := List.mem_of_find?_eq_some h

/-- In a state of the walk, the dentry of a place: the cached one, with nothing
changed so far, or a new one without children. -/
def At (s s' : State) (place : Place) (d : Nat) : Prop :=
  match place with
  | .dentry d' => d = d' ∧ s' = s
  | .inode i => HasInode s' d i ∧ (s'.dentries.get d).d_hash = []

theorem At.lookup {s₁ : State} {place : Place} {dir : Nat} (h : At s s₁ place dir) (name : Name) :
    d_lookup_dentry s₁ dir name = cached_in s name place := by
  cases place with
  | dentry d =>
    obtain ⟨rfl, rfl⟩ := h
    rfl
  | inode i =>
    rw [d_lookup_dentry, h.2]
    rfl

/-- Nothing is new where something is cached. -/
theorem At.same {s₁ : State} {place : Place} {dir d : Nat} {name : Name} (h : At s s₁ place dir)
    (hd : cached_in s name place = some d) : s₁ = s := by
  cases place with
  | dentry _ => exact h.2
  | inode i => simp [cached_in] at hd

theorem At.entry {env : Creation} {s₁ : State} {place : Place} {dir : Nat} (h : At s s₁ place dir) (name : Name) :
    entry_allocs env s₁ (.dentry dir) name ↔ entry_allocs env s place name := by
  have hlookup : cached_in s₁ name (.dentry dir) = cached_in s name place := h.lookup name
  unfold entry_allocs
  rw [hlookup]

theorem At.isDir {place : Place} {d : Nat} (h : At s s' place d) : IsDir s' d ↔ place.IsDir s := by
  cases place with
  | dentry d' =>
    obtain ⟨rfl, rfl⟩ := h
    exact Iff.rfl
  | inode i =>
    obtain ⟨⟨j, hj, rfl⟩, -⟩ := h
    simp only [IsDir, Place.IsDir, hj, Option.some.injEq, exists_eq_left']

/-- What a walk ends with, where the path leads to that place or, with `none`,
nowhere. -/
def Arrives (s s' : State) (r : Except Int Nat) (place : Option Place) : Prop :=
  match r, place with
  | .ok d, some place => Live s' d ∧ At s s' place d
  | .error _, none => True
  | _, _ => False

/-- The walk keeps the invariant if its allocations have memory. If not, it ends
with an error where one has none. -/
theorem select_from_spec {s₁ : State} {place : Place} {dir i k : Nat} (hi : Inv (fun _ => 0) s₁) (hdir : Live s₁ dir)
    (hat : At s s₁ place dir) (h : select_from stray ans path s₁ dir i k = some (s', r)) :
    (walk_allocs ans s path place i k → Inv (fun _ => 0) s' ∧ Arrives s s' r (leads_from ans s path place i k)) ∧
      (¬walk_allocs ans s path place i k → ¬Tree s' ∧ ∃ e, r = .error e) := by
  induction k generalizing s₁ place dir i with
  | zero =>
    obtain ⟨rfl, rfl⟩ := Prod.mk.inj (Option.some.inj h)
    exact ⟨fun _ => ⟨hi, hdir, hat⟩, fun hn => absurd trivial hn⟩
  | succ k ih =>
    obtain ⟨name, hname, h⟩ := Option.bind_eq_some_iff.1 h
    obtain ⟨⟨s₂, found⟩, hfind, h⟩ := Option.bind_eq_some_iff.1 h
    have hlookup := hat.lookup name
    simp only [walk_allocs, leads_from, hname, Option.some.injEq, forall_eq', Option.bind_some]
    cases find_dentry_cases hdir.1 hfind with
    | cached hd =>
      rw [hd] at hlookup
      have hsame := hat.same hlookup.symm
      rw [← hlookup]
      exact ih hi (hi.listed dir hdir _ (lookup_mem hd)).1 ⟨rfl, hsame⟩ h
    | no_memory hnone hmem =>
      obtain ⟨rfl, rfl⟩ := Prod.mk.inj (Option.some.inj h)
      rw [← hlookup, hnone]
      refine ⟨fun hg => absurd hg.1 hmem, fun _ => ⟨?_, _, rfl⟩⟩
      exact (hi.counted_up dir).not_tree (p := dir) hdir (by simp)
    | missing hnone hmem hans hdrop =>
      obtain ⟨rfl, rfl⟩ := Prod.mk.inj (Option.some.inj h)
      rw [← hlookup, hnone, hans]
      exact ⟨fun _ => ⟨hi.dropped hdrop, trivial⟩, fun hbad => absurd ⟨hmem, by simp⟩ hbad⟩
    | found hnone hmem hans hatt hinode =>
      have hi₁ := hi.attached hatt hdir (lookup_none hnone) rfl
      have hlive := (hatt.live hi _).2 (.inr rfl)
      obtain ⟨j, sb, hnew⟩ := hatt.new
      have hat₁ : At s s₂ (.inode _) s₁.dentries.next := ⟨hinode, by rw [hnew]⟩
      have hspec := ih hi₁ hlive hat₁ h
      rw [← hlookup, hnone, hans]
      refine ⟨fun hg => hspec.1 (hg.2 _ rfl), fun hbad => hspec.2 fun hf => hbad ⟨hmem, ?_⟩⟩
      rintro _ ⟨⟩
      exact hf

theorem select_file_spec {offset : Nat} (hi : Inv (fun _ => 0) s) (h : select_file stray ans s path offset = some (s', r)) :
    (select_allocs ans s path offset → Inv (fun _ => 0) s' ∧ Arrives s s' r (leads ans s path offset)) ∧
      (¬select_allocs ans s path offset → ¬Tree s' ∧ ∃ e, r = .error e) := by
  unfold select_file at h
  unfold select_allocs leads
  split at h
  · rename_i hroot
    obtain ⟨rfl, rfl⟩ := Prod.mk.inj (Option.some.inj h)
    rw [if_pos hroot]
    exact ⟨fun _ => ⟨hi, hi.root, rfl, rfl⟩, fun hn => absurd (fun hne => absurd hroot hne) hn⟩
  · rename_i hroot
    have hat : At s s (.dentry s.root_dentry) s.root_dentry := ⟨rfl, rfl⟩
    have hspec := select_from_spec hi hi.root hat h
    simpa only [hroot, ne_eq, not_false_eq_true, forall_const, if_false] using hspec

/-- `create_dentry` in a directory, with memory and without. -/
theorem create_dentry_spec {env : Creation} {dir i_mode : Nat} {name : Name} (hi : Inv (fun _ => 0) s) (hdir : Live s dir)
    (h : create_dentry stray env s dir name i_mode = some (s', r)) :
    (entry_allocs env s (.dentry dir) name → Inv (fun _ => 0) s') ∧
      (¬entry_allocs env s (.dentry dir) name → ¬Tree s') := by
  unfold create_dentry at h
  simp only [entry_allocs, cached_in]
  obtain ⟨⟨s₁, found⟩, hfind, h⟩ := Option.bind_eq_some_iff.1 h
  cases find_dentry_cases hdir.1 hfind with
  | cached hd =>
    obtain ⟨rfl, rfl⟩ := Prod.mk.inj (Option.some.inj h)
    exact ⟨fun _ => hi, fun hbad => absurd (fun hnone => by rw [hd] at hnone; cases hnone) hbad⟩
  | no_memory hnone hmem =>
    refine ⟨fun hg => absurd (hg hnone).1 hmem, fun _ => ?_⟩
    obtain ⟨⟨s₂, next_dentry⟩, halloc, h⟩ := Option.bind_eq_some_iff.1 h
    obtain ⟨d, rfl, h⟩ := Option.bind_eq_some_iff.1 h
    have hi₁ := hi.counted_up dir
    -- The count stays one too high, whether the second dentry is kept or not.
    rcases create_in_cases (s := dget_dlock s dir) hdir.1 halloc h with hdrop | hatt
    · exact (hi₁.dropped hdrop).not_tree (p := dir) ((hdrop.live dir).2 hdir) (by simp)
    · have hname : ∀ x ∈ ((dget_dlock s dir).dentries.get dir).d_hash, ((dget_dlock s dir).dentries.get x).d_name ≠ name := by
        intro x hx
        rw [dget_dlock_hash] at hx
        rw [dget_dlock_name]
        exact lookup_none hnone x hx
      have hoff : Function.update (fun _ => (0 : Int)) dir (0 + 1) (dget_dlock s dir).dentries.next = 0 :=
        Function.update_of_ne (Nat.ne_of_gt hdir.1) _ _
      exact (hi₁.attached hatt hdir hname hoff).not_tree (p := dir) ((hatt.live hi₁ dir).2 (.inl hdir)) (by simp)
  | missing hnone hmem hlookup hdrop =>
    obtain ⟨⟨s₂, next_dentry⟩, halloc, h⟩ := Option.bind_eq_some_iff.1 h
    obtain ⟨d, rfl, h⟩ := Option.bind_eq_some_iff.1 h
    have hgood := (d_alloc_some halloc).1
    refine ⟨fun _ => ?_, fun hbad => absurd (fun _ => ⟨hmem, fun _ => hgood⟩) hbad⟩
    have hi₁ := hi.dropped hdrop
    have hdir₁ : Live s₁ dir := (hdrop.live dir).2 hdir
    rcases create_in_cases hdir₁.1 halloc h with hdrop₂ | hatt
    · exact hi₁.dropped hdrop₂
    · refine hi₁.attached hatt hdir₁ (fun x hx => ?_) rfl
      rw [hdrop.others dir (Nat.ne_of_lt hdir.1)] at hx
      have hlx := (hi.listed dir hdir x hx).1
      rw [hdrop.others x (Nat.ne_of_lt hlx.1)]
      exact lookup_none hnone x hx
  | found hnone hmem hlookup hatt =>
    obtain ⟨rfl, rfl⟩ := Prod.mk.inj (Option.some.inj h)
    refine ⟨fun _ => hi.attached hatt hdir (lookup_none hnone) rfl, fun hbad => absurd (fun _ => ⟨hmem, fun hl => ?_⟩) hbad⟩
    rw [hl] at hlookup
    cases hlookup

theorem create_new_dentry_spec {env : Creation} {i_mode : Nat} (hi : Inv (fun _ => 0) s)
    (h : create_new_dentry stray ans env s path i_mode = some (s', r)) :
    (create_allocs ans env s path → Inv (fun _ => 0) s') ∧ (¬create_allocs ans env s path → ¬Tree s') := by
  unfold create_new_dentry at h
  obtain ⟨⟨s₁, p_dentry⟩, hselect, h⟩ := Option.bind_eq_some_iff.1 h
  obtain ⟨hkeep, hlose⟩ := select_file_spec hi hselect
  unfold create_allocs
  by_cases hsel : select_allocs ans s path 1
  · obtain ⟨hi₁, harrives⟩ := hkeep hsel
    rcases hleads : leads ans s path 1 with _ | place <;> rw [hleads] at harrives <;> rcases p_dentry with e | p
    · obtain ⟨rfl, rfl⟩ := Prod.mk.inj (Option.some.inj h)
      exact ⟨fun _ => hi₁, fun hbad => absurd ⟨hsel, by simp⟩ hbad⟩
    · exact harrives.elim
    · exact harrives.elim
    · obtain ⟨hlive, hat⟩ := harrives
      obtain ⟨d_inode, hinode, h⟩ := Option.bind_eq_some_iff.1 h
      simp only [hsel, Option.some.injEq, forall_eq', true_and]
      split at h
      · rename_i hmode
        obtain ⟨rfl, rfl⟩ := Prod.mk.inj (Option.some.inj h)
        refine ⟨fun _ => hi₁, fun hbad => absurd (fun hdir => ?_) hbad⟩
        obtain ⟨j, hj, hjm⟩ := hat.isDir.2 hdir
        rw [hinode] at hj
        cases hj
        exact absurd hjm hmode
      · rename_i hmode
        obtain ⟨name, hname, h⟩ := Option.bind_eq_some_iff.1 h
        have hdir : place.IsDir s := hat.isDir.1 ⟨d_inode, hinode, not_not.1 hmode⟩
        simp only [hname, hdir, Option.some.injEq, forall_eq', forall_const, ← hat.entry]
        exact create_dentry_spec hi₁ hlive h
  · obtain ⟨hlost, e, rfl⟩ := hlose hsel
    obtain ⟨rfl, rfl⟩ := Prod.mk.inj (Option.some.inj h)
    exact ⟨fun hc => absurd hc.1 hsel, fun _ => hlost⟩

/-- `__remove_dentry` refuses the dentry, or unlinks it. -/
theorem remove_cases {d : Nat} (h : __remove_dentry stray s d = some s') :
    (¬Removable stray s d ∧ s' = s) ∨
      (Removable stray s d ∧ ∃ p, (s.dentries.get d).d_parent = some p ∧ Unlinked s s' d p) := by
  unfold __remove_dentry at h
  obtain ⟨root, hroot, h⟩ := Option.bind_eq_some_iff.1 h
  cases root with
  | true =>
    obtain rfl := Option.some.inj h
    refine .inl ⟨fun hr => ?_, rfl⟩
    rw [hr.1] at hroot
    cases hroot
  | false =>
    obtain ⟨i, hinode, h⟩ := Option.bind_eq_some_iff.1 h
    dsimp only at h
    split at h
    · rename_i hdev
      obtain rfl := Option.some.inj h
      refine .inl ⟨?_, rfl⟩
      rintro ⟨-, j, hj, hchr, hblk⟩
      rw [hinode] at hj
      cases hj
      exact hdev.elim hchr hblk
    · rename_i hdev
      rw [not_or] at hdev
      exact .inr ⟨⟨hroot, i, hinode, hdev⟩, simple_unlink_cases h⟩

theorem remove_dentry_spec {rc : Int} (hi : Inv (fun _ => 0) s) (h : remove_dentry stray ans s path = some (s', rc)) :
    (good stray s (.remove_dentry ans path) → Inv (fun _ => 0) s') ∧
      (¬good stray s (.remove_dentry ans path) → ¬Tree s') := by
  unfold remove_dentry at h
  obtain ⟨⟨s₁, dentry⟩, hselect, h⟩ := Option.bind_eq_some_iff.1 h
  obtain ⟨hkeep, hlose⟩ := select_file_spec hi hselect
  simp only [good]
  by_cases hsel : select_allocs ans s path 0
  · obtain ⟨hi₁, harrives⟩ := hkeep hsel
    rcases hleads : leads ans s path 0 with _ | place <;> rw [hleads] at harrives <;> rcases dentry with e | d
    · obtain ⟨rfl, rfl⟩ := Prod.mk.inj (Option.some.inj h)
      exact ⟨fun _ => hi₁, fun hbad => absurd ⟨hsel, by simp⟩ hbad⟩
    · exact harrives.elim
    · exact harrives.elim
    · obtain ⟨hlive, hat⟩ := harrives
      obtain ⟨s₂, hremove, h⟩ := Option.bind_eq_some_iff.1 h
      obtain ⟨rfl, rfl⟩ := Prod.mk.inj (Option.some.inj h)
      have hcond : (select_allocs ans s path 0 ∧ ∀ d, some place = some (.dentry d) → Removable stray s d →
          (s.dentries.get d).d_hash = []) ↔ (Removable stray s₁ d → (s₁.dentries.get d).d_hash = []) := by
        cases place with
        | dentry d' =>
          obtain ⟨rfl, rfl⟩ := hat
          simp only [hsel, true_and, Option.some.injEq, Place.dentry.injEq, forall_eq']
        | inode i =>
          -- A new dentry has no children.
          exact ⟨fun _ _ => hat.2, fun _ => ⟨hsel, by simp⟩⟩
      rw [hcond]
      rcases remove_cases hremove with ⟨hno, rfl⟩ | ⟨hyes, p, hp, hunlink⟩
      · exact ⟨fun _ => hi₁, fun hbad => absurd (fun hr => absurd hr hno) hbad⟩
      · refine ⟨fun hg => hi₁.unlinked hunlink hlive hp (hg hyes), fun hbad => ?_⟩
        exact hi₁.orphans hunlink hlive fun hempty => hbad fun _ => hempty
  · obtain ⟨hlost, e, rfl⟩ := hlose hsel
    obtain ⟨rfl, rfl⟩ := Prod.mk.inj (Option.some.inj h)
    exact ⟨fun hc => absurd hc.1 hsel, fun _ => hlost⟩

/-- The step lemma: a call keeps the tree if and only if it meets the condition. -/
theorem call_spec {c : Call} (hi : Inv (fun _ => 0) s) (h : call stray s c = some s') :
    (good stray s c → Inv (fun _ => 0) s') ∧ (¬good stray s c → ¬Tree s') := by
  cases c with
  | select_file ans path offset =>
    obtain ⟨⟨s₁, r⟩, hcall, rfl⟩ := Option.map_eq_some_iff.1 h
    obtain ⟨hkeep, hlose⟩ := select_file_spec hi hcall
    exact ⟨fun hg => (hkeep hg).1, fun hbad => (hlose hbad).1⟩
  | create_new_dentry ans env path i_mode =>
    obtain ⟨⟨s₁, r⟩, hcall, rfl⟩ := Option.map_eq_some_iff.1 h
    exact create_new_dentry_spec hi hcall
  | mkdir ans env path mode =>
    obtain ⟨⟨s₁, r⟩, hcall, rfl⟩ := Option.map_eq_some_iff.1 h
    exact create_new_dentry_spec hi hcall
  | remove_dentry ans path =>
    obtain ⟨⟨s₁, r⟩, hcall, rfl⟩ := Option.map_eq_some_iff.1 h
    exact remove_dentry_spec hi hcall

theorem reachable_inv (h : Reachable Init (Step stray) s) : Inv (fun _ => 0) s :=
  h.inv _ (fun _ h0 => init_inv h0) fun _ _ hi ⟨_, hg, hc⟩ => (call_spec hi hc).1 hg

/-- In every run whose calls meet the condition the dentries form the tree that
their lists and counts say, and the next call leaves one exactly if it meets the
condition too. -/
theorem dentry_tree (h : Reachable Init (Step stray) s) :
    Tree s ∧ ∀ c s', call stray s c = some s' → (Tree s' ↔ good stray s c) := by
  have hi := reachable_inv h
  refine ⟨hi.tree, fun c s' hc => ?_⟩
  obtain ⟨hkeep, hlose⟩ := call_spec hi hc
  exact ⟨fun ht => by_contra fun hbad => hlose hbad ht, fun hg => (hkeep hg).tree⟩

/-! ## A directory and a file in it -/

/-- The root after `mount_root_fs`. -/
def root_only : State where
  dentries := Pool.empty.alloc { d_hash := [], d_parent := none, d_name := ['r', 'o', 'o', 't'], d_inode := some 0,
                                 d_sb := some 0, count := 0 }
  freed := []
  inodes := Pool.empty.alloc { i_mode := S_IFDIR ||| 0o755, i_sb := none, create := true }
  s_root := fun _ => 0
  root_dentry := 0

theorem root_only_init : Init root_only where
  live := by
    intro d
    simp [Live, root_only, Pool.empty]
  freed := by simp [root_only]
  hash := rfl
  parent := rfl
  inode := ⟨0, rfl⟩
  sb := ⟨0, rfl, rfl⟩
  count := rfl

/-- There is memory, and a byte to spare. -/
def memory : Memory := { given := true, nul_harms := false }

/-- Nothing is found, there is memory. -/
def nothing_found : Nat → Answer := fun _ => { mem := memory, lookup := none }

/-- A file or directory of that mode is made. -/
def makes (i_mode : Nat) : Creation :=
  { find := { mem := memory, lookup := none }, mem := memory, made := some { i_mode, i_sb := none, create := true } }

def mkdir_d : Call := .mkdir nothing_found (makes (S_IFDIR ||| 0o755)) ['/', 'd'] 0o755
def create_d_f : Call := .create_new_dentry nothing_found (makes (S_IFREG ||| 0o644)) ['/', 'd', '/', 'f'] (S_IFREG ||| 0o644)
def remove_d : Call := .remove_dentry nothing_found ['/', 'd']

theorem dentry_tree_mkdir : ∃ s, Live s 2 ∧ s.root_dentry ≠ 2 ∧ Tree s := by
  obtain ⟨s, hs⟩ : ∃ s, call true root_only mkdir_d = some s := ⟨_, rfl⟩
  have hfacts : (call true root_only mkdir_d).map (fun s => (decide (Live s 2), s.root_dentry)) = some (true, 0) := by
    decide
  rw [hs, Option.map_some] at hfacts
  obtain ⟨hlive, hroot⟩ := Prod.mk.inj (Option.some.inj hfacts)
  refine ⟨s, of_decide_eq_true hlive, by rw [hroot]; decide, ?_⟩
  refine (dentry_tree (.next (.start root_only_init) ⟨mkdir_d, ⟨fun _ => trivial, ?_⟩, hs⟩)).1
  intro place _ _ name hname _
  have hd : name = ['d'] := (Option.some.inj hname).symm
  rw [hd]
  exact ⟨⟨rfl, rfl⟩, fun _ => ⟨rfl, rfl⟩⟩

/-- `/d` is removed while `/d/f` is cached: the file stays below a freed dentry. -/
theorem removed_parent : ¬∀ s, Reachable Init (fun s s' => ∃ c, call true s c = some s') s → Tree s := by
  intro hall
  have hrun : ((call true root_only mkdir_d).bind fun s => (call true s create_d_f).bind fun s =>
      call true s remove_d).map (fun s => (decide (Live s 4), (s.dentries.get 4).d_parent, decide (Live s 2), s.root_dentry)) =
      some (true, some 2, false, 0) := by decide
  obtain ⟨s₃, hcalls, hfacts⟩ := Option.map_eq_some_iff.1 hrun
  obtain ⟨s₁, h₁, hcalls⟩ := Option.bind_eq_some_iff.1 hcalls
  obtain ⟨s₂, h₂, h₃⟩ := Option.bind_eq_some_iff.1 hcalls
  simp only [Prod.mk.injEq, decide_eq_true_eq, decide_eq_false_iff_not] at hfacts
  obtain ⟨hlive, hparent, hdead, hroot⟩ := hfacts
  have ht := hall s₃ (.next (.next (.next (.start root_only_init) ⟨_, h₁⟩) ⟨_, h₂⟩) ⟨_, h₃⟩)
  obtain ⟨p, hp, hlp, -⟩ := ht.placed 4 hlive (by rw [hroot]; decide)
  rw [hparent] at hp
  cases hp
  exact hdead hlp

end Calls

end McLinOS.DentryTree
