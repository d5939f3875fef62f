import McLinOS.Fs.Creation
/-!
# Creating a file does everything or nothing

Up to the first allocation that fails there are few ways for a call to end. Each
has a lemma about the state it leaves, and the claim is read off them.
-/
open CLib

set_option linter.style.nameCheck false

namespace McLinOS.Creation

open Fs (Name Path S_IFMT S_IFREG S_IFDIR ENOENT ENOMEM EEXIST ENOTDIR initramfs_inode initramfs_dentry file_name
  get_dir_number)

/-! ## New dentries -/

/-- The heap with a dentry and its name. -/
def held (heap : Finset Block) (d : Nat) (name : Name) : Finset Block :=
  insert (.dentry d) (if name.length + 1 < DNAME_INLINE_LEN then heap else insert (.d_name d) heap)

/-- There is one dentry more, in no list yet, and its parent is counted up. -/
structure NewAt (p p' : Pool dentry) (parent : Nat) (name : Name) : Prop where
  next : p'.next = p.next + 1
  new : (p'.get p.next).d_parent = some parent ∧ (p'.get p.next).d_name = name ∧ (p'.get p.next).d_hash = []
  counted : p'.get parent = { p.get parent with count := (p.get parent).count + 1 }
  other : ∀ x, x ≠ p.next → x ≠ parent → p'.get x = p.get x

section Dentry
variable {mem : Memory} {s s' : State} {parent d : Nat} {name : Name}

theorem Tree.live_lt (h : Tree s) (hd : Live s d) : d < s.dentries.next := h.fresh_dentry d (.inl hd)

theorem Tree.cached_live (h : Tree s) (hd : Cached s d) : Live s d := by
  rcases hd with rfl | ⟨p, hp, hd⟩
  · exact h.root
  · exact h.child p hp d hd

theorem Tree.new_dentry_free (h : Tree s) : .dentry s.dentries.next ∉ s.heap ∧ .d_name s.dentries.next ∉ s.heap :=
  ⟨fun hm => Nat.lt_irrefl _ (h.fresh_dentry _ (.inl hm)), fun hm => Nat.lt_irrefl _ (h.fresh_dentry _ (.inr hm))⟩

theorem dentry_rename_fits (ha : Allocates mem name) (hfree : .d_name d ∉ s.heap) :
    dentry_rename mem { s with heap := insert (.dentry d) s.heap } d name =
      some ({ s with dentries := s.dentries.modify d ({ · with d_name := name }), heap := held s.heap d name }, 0) := by
  obtain ⟨-, hname, hne, hroom⟩ := ha
  have hne' : ¬(mem.d_name = false ∨ name = []) := by simp [hname, hne]
  unfold dentry_rename held
  rw [if_neg hne', if_neg hroom]
  dsimp only
  by_cases hshort : name.length + 1 < DNAME_INLINE_LEN
  · have herase : (insert (Block.d_name d) (insert (Block.dentry d) s.heap)).erase (.d_name d) = insert (.dentry d) s.heap :=
      Finset.erase_insert (by simpa using hfree)
    rw [if_pos hshort, if_pos hshort, kfree]
    dsimp only
    rw [herase]
  · rw [if_neg hshort, if_neg hshort, Finset.insert_comm]

theorem d_alloc_fits (h : Tree s) (hp : Live s parent) (ha : Allocates mem name) : ∃ p : Pool dentry,
    d_alloc mem s parent name = some ({ s with dentries := p, heap := held s.heap s.dentries.next name }, s.dentries.next) ∧
      NewAt s.dentries p parent name := by
  have hmem := ha.1
  have hne' : parent ≠ s.dentries.next := (h.live_lt hp).ne
  have hrename := @dentry_rename_fits mem { s with dentries := s.dentries.alloc default } s.dentries.next name ha
    h.new_dentry_free.2
  refine ⟨(((s.dentries.alloc default).modify s.dentries.next ({ · with d_name := name })).modify parent
    fun d => { d with count := d.count + 1 }).modify s.dentries.next ({ · with d_parent := some parent }), ?_, ?_⟩
  · rw [d_alloc, __d_alloc, if_neg (by simp [hmem])]
    dsimp only at hrename ⊢
    rw [hrename]
    rfl
  · refine ⟨rfl, ?_, ?_, ?_⟩
    · simp only [Pool.get_modify, Pool.get_alloc, hne'.symm, if_true, if_false]
      exact ⟨trivial, trivial, rfl⟩
    · simp [Pool.get_modify, Pool.get_alloc, hne']
    · intro x hx hxp
      simp [Pool.get_modify, Pool.get_alloc, hx, hxp]

theorem d_alloc_none (h : ¬Allocates mem name) : d_alloc mem s parent name = none := by
  rw [d_alloc, __d_alloc]
  by_cases hmem : mem.dentry = false
  · rw [if_pos hmem]
  · rw [if_neg hmem]
    dsimp only
    by_cases hno : mem.d_name = false ∨ name = []
    · -- The error pointer of `__d_alloc`.
      simp only [dentry_rename, if_pos hno]
      rfl
    · -- The NUL goes behind the block.
      have hover : name.length % 8 = 0 ∧ mem.nul_harms = true := by
        by_contra hroom
        obtain ⟨h1, h2⟩ := not_or.1 hno
        exact h ⟨by simpa using hmem, by simpa using h1, h2, hroom⟩
      simp only [dentry_rename, if_neg hno, if_pos hover]

/-- Dropping the dentry that was just allocated. -/
theorem d_drop_fits {heap : Finset Block} (hparent : (s.dentries.get d).d_parent = some parent)
    (hname : (s.dentries.get d).d_name = name) (hheap : s.heap = held heap d name) (hd : .dentry d ∉ heap)
    (hn : .d_name d ∉ heap) :
    __d_drop s d = some { s with
      dentries := s.dentries.modify parent fun d => { d with count := d.count - 1 }
      heap := heap } := by
  have hname' : ((dput_dlock s parent).dentries.get d).d_name = name := by
    rw [← hname, dput_dlock, Pool.get_modify]
    split
    · rename_i heq
      rw [heq]
    · rfl
  unfold held at hheap
  rw [__d_drop, hparent, Option.map_some]
  dsimp only
  rw [hname']
  by_cases hshort : name.length + 1 < DNAME_INLINE_LEN
  · rw [if_pos hshort] at hheap ⊢
    simp only [kfree, dput_dlock, hheap, Finset.erase_insert hd]
  · rw [if_neg hshort] at hheap ⊢
    have hfirst : (insert (Block.dentry d) (insert (Block.d_name d) heap)).erase (.d_name d) = insert (.dentry d) heap := by
      rw [Finset.insert_comm]
      exact Finset.erase_insert (by simpa using hn)
    simp only [kfree, dput_dlock, hheap, hfirst, Finset.erase_insert hd]

/-! ## Looking up -/

/-- What was cached stays cached, under its number. -/
structure Grows (s s' : State) : Prop where
  live : ∀ d, Live s d → Live s' d
  cached : ∀ p, Live s p → ∀ d ∈ (s.dentries.get p).d_hash, d ∈ (s'.dentries.get p).d_hash
  next : s.dentries.next ≤ s'.dentries.next

theorem Grows.refl (s : State) : Grows s s := ⟨fun _ h => h, fun _ _ _ h => h, Nat.le_refl _⟩

theorem Grows.trans {s₁ s₂ : State} (h : Grows s s₁) (h' : Grows s₁ s₂) : Grows s s₂ :=
  ⟨fun d hd => h'.live d (h.live d hd), fun p hp d hd => h'.cached p (h.live p hp) d (h.cached p hp d hd),
    Nat.le_trans h.next h'.next⟩

/-- A dentry was allocated and dropped. -/
structure DroppedAt (p p' : Pool dentry) : Prop where
  next : p'.next = p.next + 1
  same : ∀ x, x ≠ p.next → p'.get x = p.get x

/-- The new dentry is in the directory `dir` and has the inode `i`. -/
structure BoundAt (p p' : Pool dentry) (dir : Nat) (name : Name) (i : Nat) : Prop where
  next : p'.next = p.next + 1
  new : (p'.get p.next).d_inode = some i ∧ (p'.get p.next).d_name = name ∧ (p'.get p.next).d_hash = []
  parent : (p'.get dir).d_hash = p.next :: (p.get dir).d_hash ∧ (p'.get dir).d_inode = (p.get dir).d_inode
  other : ∀ x, x ≠ p.next → x ≠ dir → p'.get x = p.get x

theorem NewAt.fsdata {p p' : Pool dentry} (h : NewAt p p' parent name) (hp : parent ≠ p.next) (f : Option Nat) :
    NewAt p (p'.modify p.next ({ · with d_fsdata := f })) parent name where
  next := h.next
  new := by simpa [Pool.get_modify] using h.new
  counted := by rw [Pool.get_modify_ne hp, h.counted]
  other := fun x hx hxp => by rw [Pool.get_modify_ne hx, h.other x hx hxp]

theorem drop_new {t : State} (hnew : NewAt s.dentries t.dentries parent name) (hp : parent ≠ s.dentries.next)
    (hheap : t.heap = held s.heap s.dentries.next name) (h : Tree s) : ∃ p,
    __d_drop t s.dentries.next = some { t with dentries := p, heap := s.heap } ∧ DroppedAt s.dentries p := by
  refine ⟨_, d_drop_fits hnew.new.1 hnew.new.2.1 hheap h.new_dentry_free.1 h.new_dentry_free.2, hnew.next, fun x hx => ?_⟩
  by_cases hxp : x = parent
  · subst hxp
    rw [Pool.get_modify, if_pos rfl, hnew.counted]
    simp
  · rw [Pool.get_modify_ne hxp, hnew.other x hx hxp]

/-- Binding a new dentry without memory for the inode, and with it. -/
theorem bind_dentry_false {t : State} (hmem : mem.inode = false) (d file node : Nat) :
    bind_dentry mem t d file node = some (initramfs_get_dentry t d file, false) := by
  simp [bind_dentry, initramfs_get_inode, hmem]

theorem bind_dentry_true {t : State} {dir : Nat} (hmem : mem.inode = true) (hnew : NewAt s.dentries t.dentries dir name)
    (hdir : dir ≠ s.dentries.next) (hinode : ∃ i, (s.dentries.get dir).d_inode = some i) (file node : Nat) : ∃ p,
    bind_dentry mem t s.dentries.next file node = some ({ t with
      dentries := p
      inodes := t.inodes.alloc { i_mode := (t.initramfs_inodes.get node).i_mode, i_private := node }
      heap := insert (.inode t.inodes.next) t.heap }, true) ∧
      BoundAt s.dentries p dir name t.inodes.next := by
  obtain ⟨i, hi⟩ := hinode
  have hnew' := hnew.fsdata hdir (some file)
  have hi' : ((t.dentries.modify s.dentries.next ({ · with d_fsdata := some file })).get dir).d_inode = some i := by
    rw [hnew'.counted]
    exact hi
  refine ⟨((t.dentries.modify s.dentries.next ({ · with d_fsdata := some file })).modify s.dentries.next
    ({ · with d_inode := some t.inodes.next })).modify dir
      fun d => { d with d_hash := s.dentries.next :: d.d_hash }, ?_, hnew.next, ?_, ?_, ?_⟩
  · have hget : initramfs_get_inode mem (initramfs_get_dentry t s.dentries.next file) node = ({ t with
        dentries := t.dentries.modify s.dentries.next ({ · with d_fsdata := some file })
        inodes := t.inodes.alloc { i_mode := (t.initramfs_inodes.get node).i_mode, i_private := node }
        heap := insert (.inode t.inodes.next) t.heap }, some t.inodes.next) := by
      simp [initramfs_get_inode, initramfs_get_dentry, hmem]
    rw [bind_dentry, hget]
    dsimp only
    rw [d_add]
    dsimp only
    rw [hnew'.new.1]
    simp only [Option.bind_eq_bind, Option.bind_some, hi', Option.map_some]
  · have hnew := hnew'.new
    simp only [Pool.get_modify_ne hdir.symm, Pool.get_modify, if_true] at hnew ⊢
    exact ⟨trivial, hnew.2⟩
  · have hcounted := hnew'.counted
    rw [Pool.get_modify_ne hdir] at hcounted
    simp only [Pool.get_modify, if_true, if_neg hdir, hcounted]
    exact ⟨trivial, trivial⟩
  · intro x hx hxd
    rw [Pool.get_modify_ne hxd, Pool.get_modify_ne hx, Pool.get_modify_ne hx, hnew.other x hx hxd]

theorem mem_held {heap : Finset Block} {b : Block} : b ∈ held heap d name ↔
    b ∈ heap ∨ b = .dentry d ∨ (b = .d_name d ∧ ¬name.length + 1 < DNAME_INLINE_LEN) := by
  unfold held
  split
  · rename_i hshort
    simp [hshort, or_comm]
  · rename_i hlong
    simp only [Finset.mem_insert, hlong, not_false_eq_true, and_true]
    tauto

theorem Tree.dropped {p : Pool dentry} (h : Tree s) (hp : DroppedAt s.dentries p) : Tree { s with dentries := p } := by
  have hsame : ∀ x, Live s x → p.get x = s.dentries.get x := fun x hx => hp.same x (h.live_lt hx).ne
  refine ⟨?_, h.fresh_inode, h.fresh_node, h.fresh_entry, h.root, ?_, ?_, h.entry, h.listed⟩
  · intro d hd
    have := h.fresh_dentry d hd
    show d < p.next
    rw [hp.next]
    omega
  · intro d hd c hc
    exact h.child d hd c ((congrArg dentry.d_hash (hsame d hd)) ▸ hc)
  · intro d hd
    have hd' : Cached s d := hd.imp_right fun ⟨q, hq, hm⟩ => ⟨q, hq, (congrArg dentry.d_hash (hsame q hq)) ▸ hm⟩
    obtain ⟨i, hi, hrest⟩ := h.bound d hd'
    exact ⟨i, (congrArg dentry.d_inode (hsame d (h.cached_live hd'))).trans hi, hrest⟩

/-- The state in which a new dentry of `dir` has a new inode for `node`. -/
def bound_state (s : State) (p : Pool dentry) (name : Name) (mode node : Nat) : State :=
  { s with
    dentries := p
    inodes := s.inodes.alloc { i_mode := mode, i_private := node }
    heap := insert (.inode s.inodes.next) (held s.heap s.dentries.next name) }

theorem mem_bound {p : Pool dentry} {mode node : Nat} {b : Block} : b ∈ (bound_state s p name mode node).heap ↔
    b = .inode s.inodes.next ∨ b ∈ s.heap ∨ b = .dentry s.dentries.next ∨
      (b = .d_name s.dentries.next ∧ ¬name.length + 1 < DNAME_INLINE_LEN) := by
  rw [bound_state, Finset.mem_insert, mem_held]

theorem bound_live {p : Pool dentry} {mode node x : Nat} :
    Live (bound_state s p name mode node) x ↔ Live s x ∨ x = s.dentries.next := by
  simp [Live, mem_bound]

section Bind
variable {p : Pool dentry} {dir mode node : Nat}

/-- A dentry has the children it had, and perhaps the new one. -/
theorem bound_hash (hp : BoundAt s.dentries p dir name s.inodes.next) {q : Nat} (hq : q ≠ s.dentries.next) {c : Nat} :
    c ∈ (p.get q).d_hash → c ∈ (s.dentries.get q).d_hash ∨ c = s.dentries.next := by
  intro hc
  by_cases hqd : q = dir
  · subst hqd
    rw [hp.parent.1] at hc
    exact (List.mem_cons.1 hc).symm
  · rw [hp.other q hq hqd] at hc
    exact .inl hc

theorem bound_hash_new (hp : BoundAt s.dentries p dir name s.inodes.next) :
    ((bound_state s p name mode node).dentries.get s.dentries.next).d_hash = [] := hp.new.2.2

theorem bound_grows (h : Tree s) (hp : BoundAt s.dentries p dir name s.inodes.next) :
    Grows s (bound_state s p name mode node) := by
  refine ⟨fun d hd => bound_live.2 (.inl hd), ?_, ?_⟩
  · intro q hq c hc
    show c ∈ (p.get q).d_hash
    by_cases hqd : q = dir
    · subst hqd
      rw [hp.parent.1]
      exact List.mem_cons_of_mem _ hc
    · rw [hp.other q (h.live_lt hq).ne hqd]
      exact hc
  · show s.dentries.next ≤ p.next
    rw [hp.next]
    omega

/-- A dentry of the tree keeps its inode. -/
theorem bound_old (h : Tree s) (hp : BoundAt s.dentries p dir name s.inodes.next) {x : Nat} (hx : Cached s x) :
    ∃ i, ((bound_state s p name mode node).dentries.get x).d_inode = some i ∧
      .inode i ∈ (bound_state s p name mode node).heap ∧
      .initram_inode ((bound_state s p name mode node).inodes.get i).i_private ∈ (bound_state s p name mode node).heap := by
  have hinode : (p.get x).d_inode = (s.dentries.get x).d_inode := by
    by_cases hxd : x = dir
    · rw [hxd, hp.parent.2]
    · rw [hp.other x (h.live_lt (h.cached_live hx)).ne hxd]
  obtain ⟨i, hi, hlive, hpriv⟩ := h.bound x hx
  refine ⟨i, hinode.trans hi, mem_bound.2 (.inr (.inl hlive)), mem_bound.2 (.inr (.inl ?_))⟩
  rw [show (bound_state s p name mode node).inodes = s.inodes.alloc _ from rfl, Pool.get_alloc_lt (h.fresh_inode i hlive)]
  exact hpriv

/-- The new dentry has the new inode. -/
theorem bound_new (hp : BoundAt s.dentries p dir name s.inodes.next) (hnode : .initram_inode node ∈ s.heap) :
    ∃ i, ((bound_state s p name mode node).dentries.get s.dentries.next).d_inode = some i ∧
      .inode i ∈ (bound_state s p name mode node).heap ∧
      .initram_inode ((bound_state s p name mode node).inodes.get i).i_private ∈ (bound_state s p name mode node).heap := by
  refine ⟨s.inodes.next, hp.new.1, mem_bound.2 (.inl rfl), mem_bound.2 (.inr (.inl ?_))⟩
  rw [show (bound_state s p name mode node).inodes = s.inodes.alloc _ from rfl, Pool.get_alloc_next]
  exact hnode

theorem Tree.bind (h : Tree s) (hp : BoundAt s.dentries p dir name s.inodes.next) (hnode : .initram_inode node ∈ s.heap) :
    Tree (bound_state s p name mode node) := by
  refine ⟨?_, ?_, ?_, ?_, bound_live.2 (.inl h.root), ?_, ?_, ?_, ?_⟩
  · intro d hd
    show d < p.next
    rw [hp.next]
    have := h.fresh_dentry d
    simp only [mem_bound, reduceCtorEq, false_or, Block.dentry.injEq, Block.d_name.injEq, false_and, or_false] at hd
    rcases hd with (hd | hd) | (hd | hd)
    · exact Nat.lt_succ_of_lt (this (.inl hd))
    · omega
    · exact Nat.lt_succ_of_lt (this (.inr hd))
    · omega
  · intro i hi
    simp only [mem_bound, reduceCtorEq, Block.inode.injEq, false_and, or_false] at hi
    rcases hi with rfl | hi
    · exact Nat.lt_succ_self _
    · exact Nat.lt_succ_of_lt (h.fresh_inode i hi)
  · intro n hn
    simp only [mem_bound, reduceCtorEq, false_and, or_false, false_or] at hn
    exact h.fresh_node n hn
  · intro e he
    simp only [mem_bound, reduceCtorEq, false_and, or_false, false_or] at he
    exact h.fresh_entry e he
  · intro d hd c hc
    rcases bound_live.1 hd with hd | rfl
    · rcases bound_hash hp (h.live_lt hd).ne hc with hc | rfl
      · exact bound_live.2 (.inl (h.child d hd c hc))
      · exact bound_live.2 (.inr rfl)
    · rw [bound_hash_new hp] at hc
      cases hc
  · intro d hd
    rcases hd with hd | ⟨q, hq, hm⟩
    · exact bound_old h hp (.inl hd)
    · rcases bound_live.1 hq with hq | rfl
      · rcases bound_hash hp (h.live_lt hq).ne hm with hm | rfl
        · exact bound_old h hp (.inr ⟨q, hq, hm⟩)
        · exact bound_new hp hnode
      · rw [bound_hash_new hp] at hm
        cases hm
  · intro n hn e he
    simp only [mem_bound, reduceCtorEq, false_and, or_false, false_or] at hn
    obtain ⟨h1, h2⟩ := h.entry n hn e he
    exact ⟨mem_bound.2 (.inr (.inl h1)), mem_bound.2 (.inr (.inl h2))⟩
  · intro n hn
    exact mem_bound.2 (.inr (.inl (h.listed n hn)))

end Bind

/-- What `find_dentry` does. -/
inductive Finds (mem : Memory) (s : State) (dir : Nat) (name : Name) : Option (State × Except Int Nat) → Prop
  | hit {c : Nat} : d_lookup_dentry s dir name = some c → Finds mem s dir name (some (s, .ok c))
  | fault : d_lookup_dentry s dir name = none → ¬Misses mem s dir name → Finds mem s dir name none
  | miss {p : Pool dentry} : d_lookup_dentry s dir name = none → Misses mem s dir name → DroppedAt s.dentries p →
      Finds mem s dir name (some ({ s with dentries := p }, .error (-ENOENT)))
  | bound {s' : State} : d_lookup_dentry s dir name = none → ¬Misses mem s dir name → Tree s' → Grows s s' →
      s.dentries.next ∈ (s'.dentries.get dir).d_hash → Live s' s.dentries.next →
      Finds mem s dir name (some (s', .ok s.dentries.next))

theorem d_lookup_mem {c : Nat} (h : d_lookup_dentry s parent name = some c) : c ∈ (s.dentries.get parent).d_hash :=
  List.mem_of_find?_eq_some h

theorem lookup_mem {n e : Nat} (h : initramfs_lookup s n name = some e) :
    e ∈ (s.initramfs_inodes.get n).dentry_list_head := by
  unfold initramfs_lookup at h
  dsimp only at h
  split at h
  · cases h
  · exact List.mem_of_find?_eq_some h

theorem find_dentry_cases {dir : Nat} (h : Tree s) (hdir : Cached s dir) :
    Finds mem s dir name (find_dentry mem s dir name) := by
  have hlive := h.cached_live hdir
  have hne := (h.live_lt hlive).ne
  obtain ⟨i, hi, hinode, hnode⟩ := h.bound dir hdir
  have hnodeof : node_of s dir = some (s.inodes.get i).i_private := by rw [node_of, hi, Option.map_some]
  unfold find_dentry
  cases hlook : d_lookup_dentry s dir name with
  | some c => exact .hit hlook
  | none =>
    dsimp only
    by_cases halloc : Allocates mem name
    · obtain ⟨p, hd, hnew⟩ := d_alloc_fits h hlive halloc
      have hi' : (p.get dir).d_inode = some i := by rw [hnew.counted, ← hi]
      rw [hd]
      simp only [Option.bind_eq_bind, Option.bind_some, hi', initramfs_vfs_lookup, hnew.new.2.1]
      have hexists : Exists s dir name ↔ (initramfs_lookup s (s.inodes.get i).i_private name).isSome := by
        simp [Exists, hnodeof]
      -- The lookup does not see the new dentry.
      have hsame : initramfs_lookup { s with dentries := p, heap := held s.heap s.dentries.next name }
          (s.inodes.get i).i_private name = initramfs_lookup s (s.inodes.get i).i_private name := rfl
      rw [hsame]
      cases hfile : initramfs_lookup s (s.inodes.get i).i_private name with
      | none =>
        obtain ⟨p', hdrop, hdropped⟩ := drop_new (t := { s with dentries := p, heap := held s.heap s.dentries.next name })
          hnew hne rfl h
        have hno : Misses mem s dir name := ⟨halloc, fun hex => by simp [hexists, hfile] at hex⟩
        simp only [Option.bind_some, hdrop]
        exact .miss hlook hno hdropped
      | some pos =>
        have hex : Exists s dir name := hexists.2 (by rw [hfile]; rfl)
        by_cases hmem : mem.inode = false
        · obtain ⟨p', hdrop, hdropped⟩ := drop_new
            (t := initramfs_get_dentry { s with dentries := p, heap := held s.heap s.dentries.next name } s.dentries.next pos)
            (hnew.fsdata hne _) hne rfl h
          simp only [bind_dentry_false hmem, Option.map_some, Option.bind_some, hdrop]
          exact .miss hlook ⟨halloc, fun _ => hmem⟩ hdropped
        · have hmem' : mem.inode = true := by simpa using hmem
          obtain ⟨p', hbind, hbound⟩ := bind_dentry_true
            (t := { s with dentries := p, heap := held s.heap s.dentries.next name }) hmem' hnew hne ⟨i, hi⟩ pos
            (s.initramfs_dentries.get pos).target_inode
          obtain ⟨-, htarget⟩ := h.entry _ hnode pos (lookup_mem hfile)
          have htree : Tree (bound_state s p' name
              (s.initramfs_inodes.get (s.initramfs_dentries.get pos).target_inode).i_mode
              (s.initramfs_dentries.get pos).target_inode) := h.bind hbound htarget
          simp only [hbind, Option.map_some, Option.bind_some]
          refine .bound hlook (fun hm => hmem (hm.2 hex)) htree (bound_grows h hbound) ?_ (bound_live.2 (.inr rfl))
          show s.dentries.next ∈ (p'.get dir).d_hash
          rw [hbound.parent.1]
          exact List.mem_cons_self
    · rw [d_alloc_none halloc]
      exact .fault hlook fun hm => halloc hm.1

end Dentry

/-! ## New files -/

/-- Lists and counts of the inodes that were there are as before. -/
structure SameLists (q q' : Pool initramfs_inode) : Prop where
  next : q.next ≤ q'.next
  same : ∀ m < q.next, (q'.get m).dentry_list_head = (q.get m).dentry_list_head ∧
    (q'.get m).dentry_count = (q.get m).dentry_count

/-- There is one inode more, and in the directory `n` one entry more. -/
structure MadeAt (q q' : Pool initramfs_inode) (n e : Nat) : Prop where
  next : q'.next = q.next + 1
  new : (q'.get q.next).dentry_list_head = []
  directory : (q'.get n).dentry_list_head = e :: (q.get n).dentry_list_head
  other : ∀ m, m ≠ q.next → m ≠ n → (q'.get m).dentry_list_head = (q.get m).dentry_list_head

/-- The state with a new file of initramfs. -/
def made_state (s : State) (q : Pool initramfs_inode) (name : Name) : State :=
  { s with
    initramfs_inodes := q
    initramfs_dentries := s.initramfs_dentries.alloc { name, target_inode := s.initramfs_inodes.next }
    inode_list_head := s.initramfs_inodes.next :: s.inode_list_head
    heap := insert (.initram_name s.initramfs_dentries.next) (insert (.initram_dentry s.initramfs_dentries.next)
      (insert (.initram_inode s.initramfs_inodes.next) s.heap)) }

/-- The inode that `initramfs_create_empty_inode` makes. -/
def empty_inode : initramfs_inode := { i_mode := S_IFREG ||| 0o755, dentry_count := 0, dentry_list_head := [] }

section File
variable {mem : Memory} {s t : State} {q : Pool initramfs_inode} {n : Nat} {name : Name}

theorem list_mode (q : Pool initramfs_inode) (x m mode : Nat) :
    ((q.modify x ({ · with i_mode := mode })).get m).dentry_list_head = (q.get m).dentry_list_head ∧
      ((q.modify x ({ · with i_mode := mode })).get m).dentry_count = (q.get m).dentry_count := by
  rw [Pool.get_modify]
  split
  · rename_i h
    rw [h]
    exact ⟨rfl, rfl⟩
  · exact ⟨rfl, rfl⟩

theorem SameLists.mode {q' : Pool initramfs_inode} (h : SameLists q q') (x mode : Nat) :
    SameLists q (q'.modify x ({ · with i_mode := mode })) :=
  ⟨h.next, fun m hm => ⟨(list_mode q' x m mode).1.trans (h.same m hm).1, (list_mode q' x m mode).2.trans (h.same m hm).2⟩⟩

theorem MadeAt.mode {q' : Pool initramfs_inode} {e : Nat} (h : MadeAt q q' n e) (x mode : Nat) :
    MadeAt q (q'.modify x ({ · with i_mode := mode })) n e :=
  ⟨h.next, (list_mode q' x _ mode).1.trans h.new, (list_mode q' x _ mode).1.trans h.directory,
    fun m hm hn => (list_mode q' x m mode).1.trans (h.other m hm hn)⟩

theorem create_inode_fails (n : Nat) (name : Name) (hno : ¬Makes mem) (hn : .initram_inode t.initramfs_inodes.next ∉ t.heap)
    (he : .initram_dentry t.initramfs_dentries.next ∉ t.heap) : ∃ q q',
    initramfs_create_inode mem t n name = ({ t with initramfs_inodes := q, initramfs_dentries := q' }, none) ∧
      SameLists t.initramfs_inodes q ∧ t.initramfs_dentries.next ≤ q'.next ∧
      ∀ e < t.initramfs_dentries.next, q'.get e = t.initramfs_dentries.get e := by
  have halloc : ∀ i, SameLists t.initramfs_inodes (t.initramfs_inodes.alloc i) := fun i =>
    ⟨Nat.le_succ _, fun m hm => by rw [Pool.get_alloc_lt hm]; exact ⟨rfl, rfl⟩⟩
  unfold initramfs_create_inode initramfs_create_empty_inode
  by_cases h1 : mem.initram_inode = true
  · rw [if_pos h1]
    dsimp only
    unfold initramfs_create_dentry
    by_cases h2 : mem.initram_dentry = false
    · rw [if_pos h2]
      refine ⟨t.initramfs_inodes.alloc empty_inode, t.initramfs_dentries, ?_, halloc _, Nat.le_refl _, fun _ _ => rfl⟩
      simp only [initramfs_inode_put, kfree, List.erase_cons_head, Finset.erase_insert hn, empty_inode]
    · have h3 : mem.initram_name = false := by
        by_contra h3
        exact hno ⟨h1, by simpa using h2, by simpa using h3⟩
      rw [if_neg h2]
      dsimp only
      rw [if_pos h3]
      refine ⟨t.initramfs_inodes.alloc empty_inode, t.initramfs_dentries.alloc ⟨name, t.initramfs_inodes.next⟩, ?_,
        halloc _, Nat.le_succ _, fun e he => Pool.get_alloc_lt he _⟩
      have he' : Block.initram_dentry t.initramfs_dentries.next ∉
          insert (Block.initram_inode t.initramfs_inodes.next) t.heap := by simpa using he
      simp only [initramfs_inode_put, kfree, List.erase_cons_head, Finset.erase_insert he', Finset.erase_insert hn,
        empty_inode]
  · rw [if_neg h1]
    exact ⟨t.initramfs_inodes, t.initramfs_dentries, rfl, ⟨Nat.le_refl _, fun _ _ => ⟨rfl, rfl⟩⟩, Nat.le_refl _, fun _ _ => rfl⟩

theorem create_inode_makes (name : Name) (hmem : Makes mem) (hn : n ≠ t.initramfs_inodes.next) : ∃ q,
    initramfs_create_inode mem t n name = (made_state t q name, some t.initramfs_dentries.next) ∧
      MadeAt t.initramfs_inodes q n t.initramfs_dentries.next := by
  obtain ⟨h1, h2, h3⟩ := hmem
  refine ⟨((t.initramfs_inodes.alloc empty_inode).modify t.initramfs_inodes.next
    fun i => { i with dentry_count := i.dentry_count + 1 }).modify n
      fun i => { i with dentry_list_head := t.initramfs_dentries.next :: i.dentry_list_head }, ?_, rfl, ?_, ?_,
    ?_⟩
  · simp only [initramfs_create_inode, initramfs_create_empty_inode, h1, if_true, initramfs_create_dentry, h2,
      Bool.true_eq_false, if_false, h3]
    rfl
  · simp [Pool.get_modify, Pool.get_alloc, hn.symm, empty_inode]
  · simp [Pool.get_modify, Pool.get_alloc, hn]
  · intro m hm hmn
    simp [Pool.get_modify, Pool.get_alloc, hm, hmn]

theorem mem_made {b : Block} : b ∈ (made_state s q name).heap ↔ b = .initram_name s.initramfs_dentries.next ∨
    b = .initram_dentry s.initramfs_dentries.next ∨ b = .initram_inode s.initramfs_inodes.next ∨ b ∈ s.heap := by
  simp [made_state]

/-- With a new file the tree is still one. -/
theorem Tree.made (h : Tree s) (hq : MadeAt s.initramfs_inodes q n s.initramfs_dentries.next)
    (hn : .initram_inode n ∈ s.heap) : Tree (made_state s q name) := by
  have hlive : ∀ d, Live (made_state s q name) d ↔ Live s d := fun d => by simp [Live, mem_made]
  have hcached : ∀ d, Cached (made_state s q name) d → Cached s d := fun d hd =>
    hd.imp_right fun ⟨p, hp, hm⟩ => ⟨p, (hlive p).1 hp, hm⟩
  refine ⟨?_, ?_, ?_, ?_, (hlive _).2 h.root, fun d hd c hc =>
    (hlive c).2 (h.child d ((hlive d).1 hd) c hc), ?_, ?_, ?_⟩
  · intro d hd
    simp only [mem_made, reduceCtorEq, false_or] at hd
    exact h.fresh_dentry d hd
  · intro i hi
    simp only [mem_made, reduceCtorEq, false_or] at hi
    exact h.fresh_inode i hi
  · intro m hm
    show m < q.next
    rw [hq.next]
    simp only [mem_made, reduceCtorEq, false_or, Block.initram_inode.injEq] at hm
    rcases hm with rfl | hm
    · exact Nat.lt_succ_self _
    · exact Nat.lt_succ_of_lt (h.fresh_node m hm)
  · intro e he
    show e < s.initramfs_dentries.next + 1
    simp only [mem_made, reduceCtorEq, false_or, Block.initram_dentry.injEq, Block.initram_name.injEq] at he
    have := h.fresh_entry e
    rcases he with (rfl | he) | (rfl | he)
    · exact Nat.lt_succ_self _
    · exact Nat.lt_succ_of_lt (this (.inl he))
    · exact Nat.lt_succ_self _
    · exact Nat.lt_succ_of_lt (this (.inr he))
  · intro d hd
    obtain ⟨i, hi, hinode, hnode⟩ := h.bound d (hcached d hd)
    exact ⟨i, hi, mem_made.2 (.inr (.inr (.inr hinode))), mem_made.2 (.inr (.inr (.inr hnode)))⟩
  · intro m hm e he
    have hnew : e = s.initramfs_dentries.next → .initram_dentry e ∈ (made_state s q name).heap ∧
        .initram_inode ((made_state s q name).initramfs_dentries.get e).target_inode ∈ (made_state s q name).heap := by
      rintro rfl
      refine ⟨mem_made.2 (.inr (.inl rfl)), mem_made.2 (.inr (.inr (.inl ?_)))⟩
      rw [made_state, Pool.get_alloc_next]
    have hold : ∀ m, .initram_inode m ∈ s.heap → e ∈ (s.initramfs_inodes.get m).dentry_list_head →
        .initram_dentry e ∈ (made_state s q name).heap ∧
        .initram_inode ((made_state s q name).initramfs_dentries.get e).target_inode ∈ (made_state s q name).heap := by
      intro m hm he
      obtain ⟨h1, h2⟩ := h.entry m hm e he
      refine ⟨mem_made.2 (.inr (.inr (.inr h1))), mem_made.2 (.inr (.inr (.inr ?_)))⟩
      rw [made_state, Pool.get_alloc_lt (h.fresh_entry e (.inl h1))]
      exact h2
    have he' : e ∈ (q.get m).dentry_list_head := he
    simp only [mem_made, reduceCtorEq, false_or, Block.initram_inode.injEq] at hm
    by_cases hmn : m = n
    · subst hmn
      rw [hq.directory] at he'
      rcases List.mem_cons.1 he' with he' | he'
      · exact hnew he'
      · exact hold m hn he'
    · rcases hm with rfl | hm
      · rw [hq.new] at he'
        cases he'
      · rw [hq.other m (h.fresh_node m hm).ne hmn] at he'
        exact hold m hm he'
  · intro m hm
    have hm' : m ∈ s.initramfs_inodes.next :: s.inode_list_head := hm
    rcases List.mem_cons.1 hm' with rfl | hm'
    · exact mem_made.2 (.inr (.inr (.inl rfl)))
    · exact mem_made.2 (.inr (.inr (.inr (h.listed m hm'))))

/-- Nothing is left of what was tried. -/
theorem kept_state {p : Pool dentry} {q' : Pool initramfs_dentry} (h : Tree s) (hp : DroppedAt s.dentries p)
    (hq : SameLists s.initramfs_inodes q) (hq' : s.initramfs_dentries.next ≤ q'.next)
    (hentries : ∀ e < s.initramfs_dentries.next, q'.get e = s.initramfs_dentries.get e) :
    Tree { s with dentries := p, initramfs_inodes := q, initramfs_dentries := q' } ∧
      Grows s { s with dentries := p, initramfs_inodes := q, initramfs_dentries := q' } ∧
      Undone s { s with dentries := p, initramfs_inodes := q, initramfs_dentries := q' } := by
  have hsame : ∀ x, Live s x → p.get x = s.dentries.get x := fun x hx => hp.same x (h.live_lt hx).ne
  obtain ⟨h1, h2, h3, h4, h5, h6, h7, h8, h9⟩ := h.dropped hp
  refine ⟨⟨h1, h2, fun n hn => Nat.lt_of_lt_of_le (h3 n hn) hq.next, fun e he => Nat.lt_of_lt_of_le (h4 e he) hq', h5, h6,
    h7, ?_, h9⟩, ⟨fun _ hd => hd, ?_, ?_⟩, ⟨rfl, ?_, ?_,
    fun n hn => (hq.same n (h.fresh_node n hn)).1, fun n hn => (hq.same n (h.fresh_node n hn)).2, rfl⟩⟩
  · intro n hn e he
    have he' : e ∈ (q.get n).dentry_list_head := he
    rw [(hq.same n (h.fresh_node n hn)).1] at he'
    obtain ⟨hlive, htarget⟩ := h.entry n hn e he'
    refine ⟨hlive, ?_⟩
    show .initram_inode (q'.get e).target_inode ∈ s.heap
    rw [hentries e (h.fresh_entry e (.inl hlive))]
    exact htarget
  · intro x hx d hd
    exact (congrArg dentry.d_hash (hsame x hx)).symm ▸ hd
  · show s.dentries.next ≤ p.next
    rw [hp.next]
    omega
  · intro d hd
    exact congrArg dentry.d_hash (hsame d hd)
  · intro d hd
    exact congrArg dentry.count (hsame d hd)

/-- Only modes of inodes change. -/
theorem Tree.mode (h : Tree s) (x mode : Nat) :
    Tree { s with initramfs_inodes := s.initramfs_inodes.modify x ({ · with i_mode := mode }) } := by
  refine ⟨h.fresh_dentry, h.fresh_inode, h.fresh_node, h.fresh_entry, h.root, h.child, h.bound, fun n hn e he => ?_, h.listed⟩
  have he' : e ∈ ((s.initramfs_inodes.modify x ({ · with i_mode := mode })).get n).dentry_list_head := he
  rw [(list_mode s.initramfs_inodes x n mode).1] at he'
  exact h.entry n hn e he'

/-- The end of `create_in`: a failed call drops its dentry. -/
def closing (d : Nat) (c : State × Int) : Option (State × Except Int Nat) :=
  if c.2 < 0 then (__d_drop c.1 d).bind fun s => some (s, .error (-ENOMEM)) else some (c.1, .ok d)

/-- The same from `bind_dentry` on. -/
def bound_closing (d : Nat) (c : State × Bool) : Option (State × Except Int Nat) :=
  if c.2 then some (c.1, .ok d) else (__d_drop c.1 d).bind fun s => some (s, .error (-ENOMEM))

theorem finish_closing (d m file : Nat) (node : State → Nat → Nat) :
    (finish mem m d node (t, some file)).bind (closing d) =
      (bind_dentry mem (set_target_mode t file m) d file (node (set_target_mode t file m) file)).bind
        (bound_closing d) := by
  rw [finish]
  cases bind_dentry mem (set_target_mode t file m) d file (node (set_target_mode t file m) file) with
  | none => rfl
  | some c =>
    obtain ⟨u, b⟩ := c
    cases b <;> rfl

/-- A file gets its VFS inode, or its dentry is dropped. -/
theorem bind_closing (mem : Memory) (file : Nat) {p : Pool dentry} {dir node : Nat} (h : Tree s) (hdir : Cached s dir)
    (hnew : NewAt s.dentries p dir name) (hnode : .initram_inode node ∈ s.heap) :
    let o := (bind_dentry mem { s with dentries := p, heap := held s.heap s.dentries.next name } s.dentries.next file
      node).bind (bound_closing s.dentries.next)
    (mem.inode = false → ∃ p', o = some ({ s with dentries := p' }, .error (-ENOMEM)) ∧ DroppedAt s.dentries p') ∧
      (mem.inode = true → ∃ p' mode, o = some (bound_state s p' name mode node, .ok s.dentries.next) ∧
        BoundAt s.dentries p' dir name s.inodes.next ∧ Tree (bound_state s p' name mode node) ∧
        Grows s (bound_state s p' name mode node)) := by
  have hne := (h.live_lt (h.cached_live hdir)).ne
  intro o
  refine ⟨?_, ?_⟩
  · intro hmem
    obtain ⟨p', hdrop, hdropped⟩ := drop_new
      (t := initramfs_get_dentry { s with dentries := p, heap := held s.heap s.dentries.next name } s.dentries.next file)
      (hnew.fsdata hne _) hne rfl h
    refine ⟨p', ?_, hdropped⟩
    simp only [o, bind_dentry_false hmem, Option.bind_some, bound_closing, Bool.false_eq_true, if_false, hdrop]
    rfl
  · intro hmem
    obtain ⟨i, hi, -⟩ := h.bound dir hdir
    obtain ⟨p', hbind, hbound⟩ := bind_dentry_true
      (t := { s with dentries := p, heap := held s.heap s.dentries.next name }) hmem hnew hne ⟨i, hi⟩ file node
    refine ⟨p', (s.initramfs_inodes.get node).i_mode, ?_, hbound, h.bind hbound hnode, bound_grows h hbound⟩
    simp only [o, hbind, Option.bind_some, bound_closing, if_true]
    rfl

/-- What `create_in` comes to: it returns, keeps the tree, and has done everything or
nothing exactly if `fits`. -/
def Ends (s : State) (fits : Prop) (o : Option (State × Except Int Nat)) : Prop :=
  ∃ s' r, o = some (s', r) ∧ Tree s' ∧ Grows s s' ∧ (∀ d, r = .ok d → d = s.dentries.next ∧ Live s' d) ∧
    (Done s s' r ↔ fits)

theorem Ends.error {s' : State} {e : Int} {fits : Prop} (ht : Tree s') (hg : Grows s s') (hdone : Undone s s' ↔ fits) :
    Ends s fits (some (s', .error e)) := ⟨s', .error e, rfl, ht, hg, nofun, hdone⟩

theorem Ends.ok {s' : State} {fits : Prop} (ht : Tree s') (hg : Grows s s') (hlive : Live s' s.dentries.next)
    (hdone : Added s s' s.dentries.next ↔ fits) : Ends s fits (some (s', .ok s.dentries.next)) := by
  refine ⟨s', .ok s.dentries.next, rfl, ht, hg, fun d hr => ?_, hdone⟩
  obtain rfl := Except.ok.inj hr
  exact ⟨rfl, hlive⟩

/-- In a list that got the new dentry, it is the directory's. -/
theorem BoundAt.is_dir {p : Pool dentry} {dir i x : Nat} (h : Tree s) (hp : BoundAt s.dentries p dir name i) (hx : Live s x)
    (hlist : (p.get x).d_hash = s.dentries.next :: (s.dentries.get x).d_hash) : x = dir := by
  by_contra hxd
  rw [hp.other x (h.live_lt hx).ne hxd] at hlist
  exact List.cons_ne_self _ _ hlist.symm

/-- A file that is there gets a second VFS inode, and no second entry. -/
theorem finish_found {p : Pool dentry} {dir file m : Nat} {node : State → Nat → Nat} (h : Tree s) (hdir : Cached s dir)
    (hnew : NewAt s.dentries p dir name)
    (hnode : ∀ u : State, u.initramfs_dentries = s.initramfs_dentries → .initram_inode (node u file) ∈ s.heap) :
    Ends s (mem.inode = false) ((finish mem m s.dentries.next node
      ({ s with dentries := p, heap := held s.heap s.dentries.next name }, some file)).bind (closing s.dentries.next)) := by
  let q := s.initramfs_inodes.modify (s.initramfs_dentries.get file).target_inode ({ · with i_mode := m })
  have hq : SameLists s.initramfs_inodes q := SameLists.mode ⟨Nat.le_refl _, fun _ _ => ⟨rfl, rfl⟩⟩ _ _
  let u : State := { s with initramfs_inodes := q }
  have hu : Tree u := h.mode _ m
  have hset : set_target_mode { s with dentries := p, heap := held s.heap s.dentries.next name } file m =
    { u with dentries := p, heap := held u.heap u.dentries.next name } := rfl
  rw [finish_closing, hset]
  obtain ⟨hfalse, htrue⟩ := bind_closing mem file hu hdir hnew
    (hnode { u with dentries := p, heap := held u.heap u.dentries.next name } rfl)
  by_cases hmem : mem.inode = false
  · obtain ⟨p', ho, hdropped⟩ := hfalse hmem
    obtain ⟨htree, hgrows, hundone⟩ := kept_state h hdropped hq (Nat.le_refl _) fun _ _ => rfl
    exact ho ▸ .error htree hgrows (iff_of_true hundone hmem)
  · obtain ⟨p', mode, ho, hbound, htree, hgrows⟩ := htrue (by simpa using hmem)
    refine ho ▸ .ok htree ⟨hgrows.live, hgrows.cached, hgrows.next⟩ (bound_live.2 (.inr rfl)) (iff_of_false ?_ hmem)
    rintro ⟨-, x, hx, hlist, -, n, e, hn, -, hentry, -⟩
    obtain rfl := hbound.is_dir h hx hlist
    obtain ⟨i, hi, -, hlive⟩ := h.bound x hdir
    rw [node_of, hi, Option.map_some, Option.some.injEq] at hn
    rw [← hn] at hentry
    have hsame : (q.get (s.inodes.get i).i_private).dentry_list_head = _ := (hq.same _ (h.fresh_node _ hlive)).1
    exact List.cons_ne_self _ _ (hentry.symm.trans hsame)

theorem made_held {p : Pool dentry} : made_state { s with dentries := p, heap := held s.heap s.dentries.next name } q name =
    { made_state s q name with
      dentries := p
      heap := held (made_state s q name).heap (made_state s q name).dentries.next name } := by
  have hheap : (made_state { s with dentries := p, heap := held s.heap s.dentries.next name } q name).heap =
      held (made_state s q name).heap s.dentries.next name := by
    ext b
    simp only [mem_made, mem_held]
    tauto
  rw [made_state, State.mk.injEq]
  exact ⟨rfl, rfl, rfl, rfl, rfl, rfl, hheap⟩

theorem made_live {d : Nat} : Live (made_state s q name) d ↔ Live s d := by simp [Live, mem_made]

/-- A new file gets its VFS inode, or stays without one. -/
theorem finish_made {p : Pool dentry} {dir m : Nat} {node : State → Nat → Nat} (h : Tree s) (hdir : Cached s dir)
    (hnew : NewAt s.dentries p dir name) (hn : node_of s dir = some n)
    (hq : MadeAt s.initramfs_inodes q n s.initramfs_dentries.next)
    (hnode : ∀ u : State, u.initramfs_dentries = (made_state s q name).initramfs_dentries →
      .initram_inode (node u s.initramfs_dentries.next) ∈ (made_state s q name).heap) :
    Ends s (mem.inode = true) ((finish mem m s.dentries.next node
      (made_state { s with dentries := p, heap := held s.heap s.dentries.next name } q name,
        some s.initramfs_dentries.next)).bind (closing s.dentries.next)) := by
  obtain ⟨i, hi, -, hlive⟩ := h.bound dir hdir
  rw [node_of, hi, Option.map_some, Option.some.injEq] at hn
  rw [hn] at hlive
  have hdirlive := h.cached_live hdir
  let q' := q.modify s.initramfs_inodes.next ({ · with i_mode := m })
  have hq' : MadeAt s.initramfs_inodes q' n s.initramfs_dentries.next := hq.mode _ m
  have hset : set_target_mode (made_state { s with dentries := p, heap := held s.heap s.dentries.next name } q name)
      s.initramfs_dentries.next m =
      made_state { s with dentries := p, heap := held s.heap s.dentries.next name } q' name := by
    simp only [set_target_mode, made_state, Pool.get_alloc_next, q']
  have hu : Tree (made_state s q' name) := h.made hq' hlive
  have hcached : Cached (made_state s q' name) dir := hdir.imp_right fun ⟨x, hx, hd⟩ => ⟨x, made_live.2 hx, hd⟩
  rw [finish_closing, hset, made_held]
  obtain ⟨hfalse, htrue⟩ := bind_closing mem s.initramfs_dentries.next hu hcached hnew
    (hnode { made_state s q' name with
      dentries := p, heap := held (made_state s q' name).heap (made_state s q' name).dentries.next name } rfl)
  by_cases hmem : mem.inode = true
  · obtain ⟨p', mode, ho, hbound, htree, hgrows⟩ := htrue hmem
    have hgrows' : Grows s _ := ⟨fun d hd => hgrows.live d (made_live.2 hd), fun d hd => hgrows.cached d (made_live.2 hd),
      hgrows.next⟩
    refine ho ▸ .ok htree hgrows' (bound_live.2 (.inr rfl)) (iff_of_true ?_ hmem)
    refine ⟨⟨h.new_dentry_free.1, bound_live.2 (.inr rfl)⟩, dir, hdirlive, hbound.parent.1, ?_, n,
      s.initramfs_dentries.next, ?_, fun he => Nat.lt_irrefl _ (h.fresh_entry _ (.inl he)), hq'.directory,
      fun k hk hkn => hq'.other k (h.fresh_node k hk).ne hkn⟩
    · intro x hx hxd
      exact congrArg dentry.d_hash (hbound.other x (h.live_lt hx).ne hxd)
    · rw [node_of, hi, Option.map_some, hn]
  · obtain ⟨p', ho, hdropped⟩ := hfalse (by simpa using hmem)
    have hgrows : Grows s { made_state s q' name with dentries := p' } := by
      refine ⟨fun d hd => show Live (made_state s q' name) d from made_live.2 hd, ?_, ?_⟩
      · intro d hd c hc
        exact (congrArg dentry.d_hash (hdropped.same d (h.live_lt hd).ne)) ▸ hc
      · show s.dentries.next ≤ p'.next
        exact hdropped.next ▸ Nat.le_succ _
    refine ho ▸ .error (hu.dropped hdropped) hgrows (iff_of_false (fun hundone => ?_) hmem)
    -- The entry of the new file is still in the directory.
    exact List.cons_ne_self _ _ (hq'.directory.symm.trans (hundone.directory n hlive))

/-- How a file and a directory are made in initramfs. -/
structure Creates (create : Memory → State → Nat → Name → State × Option Nat) : Prop where
  fails : ∀ {mem : Memory} {t : State} (n : Nat) (name : Name), ¬Makes mem →
    .initram_inode t.initramfs_inodes.next ∉ t.heap → .initram_dentry t.initramfs_dentries.next ∉ t.heap → ∃ q q',
      create mem t n name = ({ t with initramfs_inodes := q, initramfs_dentries := q' }, none) ∧
        SameLists t.initramfs_inodes q ∧ t.initramfs_dentries.next ≤ q'.next ∧
        ∀ e < t.initramfs_dentries.next, q'.get e = t.initramfs_dentries.get e
  makes : ∀ {mem : Memory} {t : State} {n : Nat} (name : Name), Makes mem → n ≠ t.initramfs_inodes.next → ∃ q,
    create mem t n name = (made_state t q name, some t.initramfs_dentries.next) ∧
      MadeAt t.initramfs_inodes q n t.initramfs_dentries.next

theorem create_file_creates : Creates initramfs_create_file := ⟨create_inode_fails, create_inode_makes⟩

theorem create_dir_creates : Creates initramfs_create_dir := by
  refine ⟨fun {mem t} n name hno hn he => ?_, fun {mem t n} name hmem hn => ?_⟩
  · obtain ⟨q, q', hcreate, hrest⟩ := create_inode_fails n name hno hn he
    exact ⟨q, q', by rw [initramfs_create_dir, hcreate], hrest⟩
  · obtain ⟨q, hcreate, hq⟩ := create_inode_makes name hmem hn
    refine ⟨_, ?_, hq.mode t.initramfs_inodes.next (S_IFDIR ||| 0o755)⟩
    rw [initramfs_create_dir, hcreate]
    simp only [set_target_mode, made_state, Pool.get_alloc_next]

/-- The file is found, made, or not made. -/
theorem finish_ends {create : Memory → State → Nat → Name → State × Option Nat} (hcreate : Creates create)
    {p : Pool dentry} {dir m : Nat} {node : State → Nat → Nat} (h : Tree s) (hdir : Cached s dir)
    (hnew : NewAt s.dentries p dir name) (hn : node_of s dir = some n)
    (hfound : ∀ file ∈ (s.initramfs_inodes.get n).dentry_list_head, ∀ u : State,
      u.initramfs_dentries = s.initramfs_dentries → .initram_inode (node u file) ∈ s.heap)
    (hmade : ∀ q, ∀ u : State, u.initramfs_dentries = (made_state s q name).initramfs_dentries →
      .initram_inode (node u s.initramfs_dentries.next) ∈ (made_state s q name).heap) :
    Ends s (FileFits mem s dir name) ((finish mem m s.dentries.next node
      (match initramfs_lookup s n name with
        | some file => ({ s with dentries := p, heap := held s.heap s.dentries.next name }, some file)
        | none => create mem { s with dentries := p, heap := held s.heap s.dentries.next name } n name)).bind
          (closing s.dentries.next)) := by
  have hexists : Exists s dir name ↔ (initramfs_lookup s n name).isSome := by simp [Exists, hn]
  have hends : ∀ {fits fits' : Prop} {o}, Ends s fits o → (fits ↔ fits') → Ends s fits' o :=
    fun ⟨s', r, ho, ht, hg, hd, hdone⟩ hiff => ⟨s', r, ho, ht, hg, hd, hdone.trans hiff⟩
  cases hfile : initramfs_lookup s n name with
  | some file =>
    have hex : Exists s dir name := hexists.2 (by rw [hfile]; rfl)
    refine hends (finish_found h hdir hnew (hfound file (lookup_mem hfile))) ?_
    exact ⟨fun hm => ⟨fun _ => hm, fun hno => absurd hex hno⟩, fun hfits => hfits.1 hex⟩
  | none =>
    have hno : ¬Exists s dir name := by rw [hexists, hfile]; exact Bool.false_ne_true
    have hn' : n ≠ s.initramfs_inodes.next := by
      obtain ⟨i, hi, -, hlive⟩ := h.bound dir hdir
      rw [node_of, hi, Option.map_some, Option.some.injEq] at hn
      exact (h.fresh_node n (hn ▸ hlive)).ne
    by_cases hmakes : Makes mem
    · obtain ⟨q, hc, hq⟩ := hcreate.makes
        (t := { s with dentries := p, heap := held s.heap s.dentries.next name }) name hmakes hn'
      refine hc ▸ hends (finish_made h hdir hnew hn hq (hmade q)) ?_
      exact ⟨fun hm => ⟨fun hex => absurd hex hno, fun _ _ => hm⟩, fun hfits => hfits.2 hno hmakes⟩
    · have hne := (h.live_lt (h.cached_live hdir)).ne
      obtain ⟨q, q', hc, hq, hq', hentries⟩ := hcreate.fails
        (t := { s with dentries := p, heap := held s.heap s.dentries.next name }) n name hmakes
        (fun hm => Nat.lt_irrefl _ (h.fresh_node _ (by simpa [mem_held] using hm)))
        (fun hm => Nat.lt_irrefl _ (h.fresh_entry _ (.inl (by simpa [mem_held] using hm))))
      obtain ⟨p', hdrop, hdropped⟩ := drop_new (t := { s with
        dentries := p, heap := held s.heap s.dentries.next name, initramfs_inodes := q, initramfs_dentries := q' }) hnew hne
        rfl h
      obtain ⟨htree, hgrows, hundone⟩ := kept_state h hdropped hq hq' hentries
      have hend : (finish mem m s.dentries.next node ({ s with
          dentries := p, heap := held s.heap s.dentries.next name, initramfs_inodes := q, initramfs_dentries := q' },
          none)).bind (closing s.dentries.next) =
          some ({ s with dentries := p', initramfs_inodes := q, initramfs_dentries := q' }, .error (-ENOMEM)) := by
        rw [finish, Option.bind_some, closing, if_pos (show (-1 : Int) < 0 by decide), hdrop]
        rfl
      dsimp only at hc ⊢
      rw [hc, hend]
      exact .error htree hgrows (iff_of_true hundone ⟨fun hex => absurd hex hno, fun _ hm => absurd hm hmakes⟩)

theorem Ends.congr {fits fits' : Prop} {o : Option (State × Except Int Nat)} (h : Ends s fits o) (hiff : fits ↔ fits') :
    Ends s fits' o := by
  obtain ⟨s', r, ho, htree, hgrows, hd, hdone⟩ := h
  exact ⟨s', r, ho, htree, hgrows, hd, hdone.trans hiff⟩

theorem create_in_eq {t : State} {dir d i_mode : Nat} : create_in mem t dir d i_mode =
    (t.dentries.get dir).d_inode.bind fun i =>
      (if i_mode &&& S_IFMT = S_IFREG then initramfs_create mem t i d i_mode
        else if i_mode &&& S_IFMT = S_IFDIR then initramfs_mkdir mem t i d i_mode
        else some (t, -1)).bind (closing d) := by
  unfold create_in
  congr
  funext i
  by_cases hreg : i_mode &&& S_IFMT = S_IFREG
  · rw [if_pos hreg, if_pos hreg]
    rfl
  · rw [if_neg hreg, if_neg hreg]
    by_cases hdir : i_mode &&& S_IFMT = S_IFDIR
    · rw [if_pos hdir, if_pos hdir]
      rfl
    · rw [if_neg hdir, if_neg hdir]
      rfl

theorem create_in_ends {p : Pool dentry} {dir i_mode : Nat} (h : Tree s) (hdir : Cached s dir)
    (hnew : NewAt s.dentries p dir name) :
    Ends s (i_mode &&& S_IFMT = S_IFREG ∨ i_mode &&& S_IFMT = S_IFDIR → FileFits mem s dir name)
      (create_in mem { s with dentries := p, heap := held s.heap s.dentries.next name } dir s.dentries.next i_mode) := by
  have hne := (h.live_lt (h.cached_live hdir)).ne
  obtain ⟨i, hi, -, hlive⟩ := h.bound dir hdir
  have hn : node_of s dir = some (s.inodes.get i).i_private := by rw [node_of, hi, Option.map_some]
  have hi' : (p.get dir).d_inode = some i := by rw [hnew.counted, ← hi]
  have htarget : ∀ file ∈ (s.initramfs_inodes.get (s.inodes.get i).i_private).dentry_list_head, ∀ u : State,
      u.initramfs_dentries = s.initramfs_dentries →
      .initram_inode (u.initramfs_dentries.get file).target_inode ∈ s.heap :=
    fun file hfile u hu => hu ▸ (h.entry _ hlive file hfile).2
  have hmade : ∀ q, ∀ u : State, u.initramfs_dentries = (made_state s q name).initramfs_dentries →
      .initram_inode (u.initramfs_dentries.get s.initramfs_dentries.next).target_inode ∈ (made_state s q name).heap := by
    intro q u hu
    rw [hu, made_state, Pool.get_alloc_next]
    exact mem_made.2 (.inr (.inr (.inl rfl)))
  rw [create_in_eq]
  simp only [hi', Option.bind_some]
  by_cases hreg : i_mode &&& S_IFMT = S_IFREG
  · rw [if_pos hreg, initramfs_create]
    dsimp only
    rw [hnew.new.2.1]
    refine (finish_ends create_file_creates h hdir hnew hn htarget hmade).congr ?_
    exact ⟨fun hfits _ => hfits, fun hfits => hfits (.inl hreg)⟩
  · rw [if_neg hreg]
    by_cases hisdir : i_mode &&& S_IFMT = S_IFDIR
    · rw [if_pos hisdir, initramfs_mkdir]
      dsimp only
      rw [hnew.new.2.1]
      refine (finish_ends create_dir_creates h hdir hnew hn (fun _ _ _ _ => hlive)
        fun q u _ => mem_made.2 (.inr (.inr (.inr hlive)))).congr ?_
      exact ⟨fun hfits _ => hfits, fun hfits => hfits (.inr hisdir)⟩
    · rw [if_neg hisdir, Option.bind_some, closing, if_pos (show (-1 : Int) < 0 by decide)]
      obtain ⟨p', hdrop, hdropped⟩ := drop_new
        (t := { s with dentries := p, heap := held s.heap s.dentries.next name }) hnew hne rfl h
      obtain ⟨htree, hgrows, hundone⟩ := kept_state (q := s.initramfs_inodes) h hdropped
        ⟨Nat.le_refl _, fun _ _ => ⟨rfl, rfl⟩⟩ (Nat.le_refl _) fun _ _ => rfl
      dsimp only
      rw [hdrop]
      exact .error htree hgrows (iff_of_true hundone fun hmode => hmode.elim (absurd · hreg) (absurd · hisdir))

end File

/-! ## The call -/

/-- How a call from a tree ends. -/
inductive Outcome (s : State) (fits : Prop) : Option (State × Except Int Nat) → Prop
  | fault : ¬fits → Outcome s fits none
  | done {s' : State} {r : Except Int Nat} : Tree s' → Grows s s' → (∀ d, r = .ok d → s.dentries.next ≤ d) →
      (Done s s' r ↔ fits) → Outcome s fits (some (s', r))

theorem undone_dropped {s : State} {p : Pool dentry} (h : Tree s) (hp : DroppedAt s.dentries p) :
    Tree { s with dentries := p } ∧ Grows s { s with dentries := p } ∧ Undone s { s with dentries := p } :=
  kept_state (q := s.initramfs_inodes) h hp ⟨Nat.le_refl _, fun _ _ => ⟨rfl, rfl⟩⟩ (Nat.le_refl _) fun _ _ => rfl

theorem Undone.refl (s : State) : Undone s s :=
  ⟨rfl, fun _ _ => rfl, fun _ _ => rfl, fun _ _ => rfl, fun _ _ => rfl, rfl⟩

section Call
variable {s s' : State} {dir : Nat} {name : Name} {fits : Prop} {o : Option (State × Except Int Nat)}

/-- A dropped dentry is not seen. -/
theorem done_dropped {p : Pool dentry} {r : Except Int Nat} (h : Tree s) (hp : DroppedAt s.dentries p) :
    Done { s with dentries := p } s' r ↔ Done s s' r := by
  have hsame : ∀ x, Live s x → p.get x = s.dentries.get x := fun x hx => hp.same x (h.live_lt hx).ne
  cases r with
  | error e =>
    refine ⟨fun ⟨h1, h2, h3, h4, h5, h6⟩ => ⟨h1, fun d hd => (h2 d hd).trans ?_, fun d hd => (h3 d hd).trans ?_, h4, h5, h6⟩,
      fun ⟨h1, h2, h3, h4, h5, h6⟩ => ⟨h1, fun d hd => (h2 d hd).trans ?_, fun d hd => (h3 d hd).trans ?_, h4, h5, h6⟩⟩
    · exact congrArg dentry.d_hash (hsame d hd)
    · exact congrArg dentry.count (hsame d hd)
    · exact (congrArg dentry.d_hash (hsame d hd)).symm
    · exact (congrArg dentry.count (hsame d hd)).symm
  | ok d =>
    have hnode : ∀ x, Live s x → node_of { s with dentries := p } x = node_of s x := fun x hx => by
      rw [node_of, node_of, hsame x hx]
    refine ⟨fun ⟨hnew, x, hx, hlist, hother, n, e, hn, hrest⟩ => ⟨hnew, x, hx, ?_, ?_, n, e, ?_, hrest⟩,
      fun ⟨hnew, x, hx, hlist, hother, n, e, hn, hrest⟩ => ⟨hnew, x, hx, ?_, ?_, n, e, ?_, hrest⟩⟩
    · rw [← hsame x hx]
      exact hlist
    · intro y hy hyx
      rw [← hsame y hy]
      exact hother y hy hyx
    · rw [← hnode x hx]
      exact hn
    · show (s'.dentries.get x).d_hash = d :: (p.get x).d_hash
      rw [hsame x hx]
      exact hlist
    · intro y hy hyx
      show (s'.dentries.get y).d_hash = (p.get y).d_hash
      rw [hsame y hy]
      exact hother y hy hyx
    · rw [hnode x hx]
      exact hn

/-- With a dentry in the cache that is not the one returned, the call has not done
everything or nothing. -/
theorem not_done {d : Nat} {r : Except Int Nat} (hdir : Live s dir) (hd : ¬Live s d) (hlive : Live s' d)
    (hchild : ∀ c ∈ (s.dentries.get dir).d_hash, Live s c) (hmem : d ∈ (s'.dentries.get dir).d_hash)
    (hr : ∀ c, r = .ok c → c ≠ d) : ¬Done s s' r := by
  cases r with
  | error e => exact fun hundone => hd (show Block.dentry d ∈ s.heap from hundone.heap ▸ hlive)
  | ok c =>
    rintro ⟨-, x, hx, hlist, hother, -⟩
    have hold : d ∉ (s.dentries.get dir).d_hash := fun hm => hd (hchild d hm)
    by_cases hxd : dir = x
    · subst hxd
      rw [hlist] at hmem
      rcases List.mem_cons.1 hmem with rfl | hm
      · exact hr _ rfl rfl
      · exact hold hm
    · exact hold (hother dir hdir hxd ▸ hmem)

theorem Outcome.spoiled {fits' : Prop} (h : Tree s) (hdir : Live s dir) (h' : Tree s') (hgrows : Grows s s')
    (hmem : s.dentries.next ∈ (s'.dentries.get dir).d_hash) (hlive : Live s' s.dentries.next) (hfits : ¬fits')
    (ho : Outcome s' fits o) : Outcome s fits' o := by
  cases ho with
  | fault => exact .fault hfits
  | done htree hgrows' hr =>
    refine .done htree (hgrows.trans hgrows') (fun d hd => Nat.le_trans hgrows.next (hr d hd)) (iff_of_false ?_ hfits)
    refine not_done hdir h.new_dentry_free.1 (hgrows'.live _ hlive) (h.child dir hdir)
      (hgrows'.cached dir (hgrows.live dir hdir) _ hmem) fun c hc => ?_
    have := hr c hc
    have := h'.live_lt hlive
    omega

theorem create_dentry_outcome {find create : Memory} {i_mode : Nat} (h : Tree s) (hdir : Cached s dir) :
    Outcome s (CreateFits find create s dir name i_mode) (create_dentry find create s dir name i_mode) := by
  have hlive := h.cached_live hdir
  have hfind : Finds find s dir name (find_dentry find s dir name) := find_dentry_cases h hdir
  have hundone := fun hd => iff_of_true (Undone.refl s) (show CreateFits find create s dir name i_mode from .inl hd)
  rw [create_dentry]
  generalize find_dentry find s dir name = o at hfind
  cases hfind with
  | hit hlook => exact .done h (.refl s) nofun (hundone (by rw [hlook]; rfl))
  | fault hlook hno => exact .fault fun hfits => hfits.elim (fun hd => by simp [hlook] at hd) fun hfits => hno hfits.1
  | bound hlook hno htree hgrows hmem hnew =>
    refine .done htree hgrows nofun (iff_of_false ?_ ?_)
    · exact not_done (r := .error _) hlive h.new_dentry_free.1 hnew (h.child dir hlive) hmem nofun
    · exact fun hfits => hfits.elim (fun hd => by simp [hlook] at hd) fun hfits => hno hfits.1
  | @miss p hlook hmiss hdropped =>
    obtain ⟨htree, hgrows, -⟩ := undone_dropped h hdropped
    have hsame : ∀ x, Live s x → p.get x = s.dentries.get x := fun x hx => hdropped.same x (h.live_lt hx).ne
    have hdir' : Cached { s with dentries := p } dir := hdir.imp_right fun ⟨q, hq, hm⟩ => ⟨q, hq, (hsame q hq) ▸ hm⟩
    have hfits : CreateFits find create s dir name i_mode ↔ Allocates create name ∧
        (i_mode &&& S_IFMT = S_IFREG ∨ i_mode &&& S_IFMT = S_IFDIR → FileFits create s dir name) := by
      simp [CreateFits, hlook, hmiss]
    have hfile : FileFits create { s with dentries := p } dir name ↔ FileFits create s dir name := by
      have hnode : node_of { s with dentries := p } dir = node_of s dir := by rw [node_of, node_of, hsame dir hlive]
      rw [FileFits, FileFits, Exists, Exists, hnode]
      rfl
    simp only [Option.bind_eq_bind, Option.bind_some]
    by_cases halloc : Allocates create name
    · obtain ⟨p', hd, hnew⟩ := d_alloc_fits htree (show Live { s with dentries := p } dir from hlive) halloc
      rw [hd, Option.bind_some]
      obtain ⟨s', r, ho, htree', hgrows', hr, hdone⟩ : Ends _ _ (create_in create _ dir _ i_mode) :=
        create_in_ends htree hdir' hnew
      refine ho ▸ .done htree' (hgrows.trans hgrows') (fun d hd => ?_) ?_
      · rw [(hr d hd).1]
        exact hgrows.next
      · rw [← done_dropped h hdropped, hdone, hfits, hfile]
        exact ⟨fun hm => ⟨halloc, hm⟩, fun hm => hm.2⟩
    · rw [d_alloc_none halloc]
      exact .fault fun hm => halloc (hfits.1 hm).1

section Walk
variable (mem : Nat → Memory) (path : Path) (i_mode : Nat)

/-- In the directory that is found. -/
def DirFits (s : State) (p : Nat) : Prop :=
  IsDir s p → ∃ name, file_name path (get_dir_number path) = some name ∧
    CreateFits (mem (get_dir_number path)) (mem (get_dir_number path + 1)) s p name i_mode

/-- `create_new_dentry` behind `select_file`. -/
def behind_select : State × Except Int Nat → Option (State × Except Int Nat)
  | (s, .error _) => some (s, .error (-ENOENT))
  | (s, .ok p_dentry) => do
    let d_inode ← (s.dentries.get p_dentry).d_inode
    if (s.inodes.get d_inode).i_mode &&& S_IFMT ≠ S_IFDIR then some (s, .error (-ENOTDIR))
    else
      let name ← file_name path (get_dir_number path)
      create_dentry (mem (get_dir_number path)) (mem (get_dir_number path + 1)) s p_dentry name i_mode

theorem create_new_dentry_eq (s : State) : create_new_dentry mem s path i_mode =
    (select_from mem path s s.root_dentry 1 (get_dir_number path - 1)).bind (behind_select mem path i_mode) := by
  have hselect : select_file mem s path 1 = select_from mem path s s.root_dentry 1 (get_dir_number path - 1) := by
    unfold select_file
    split
    · rename_i hroot
      subst hroot
      rfl
    · rfl
  rw [create_new_dentry, hselect]
  exact congrArg _ (funext fun ⟨s, r⟩ => by cases r <;> rfl)

theorem behind_select_outcome {p : Nat} (h : Tree s) (hp : Cached s p) :
    Outcome s (DirFits mem path i_mode s p) (behind_select mem path i_mode (s, .ok p)) := by
  obtain ⟨i, hi, -⟩ := h.bound p hp
  have hdir : IsDir s p ↔ (s.inodes.get i).i_mode &&& S_IFMT = S_IFDIR := by simp [IsDir, hi]
  simp only [behind_select, hi, Option.bind_eq_bind, Option.bind_some]
  by_cases hmode : (s.inodes.get i).i_mode &&& S_IFMT = S_IFDIR
  · rw [if_neg (not_not.2 hmode)]
    cases hname : file_name path (get_dir_number path) with
    | none => exact .fault fun hfits => by simpa [hname] using hfits (hdir.2 hmode)
    | some name =>
      have hfits : DirFits mem path i_mode s p ↔
          CreateFits (mem (get_dir_number path)) (mem (get_dir_number path + 1)) s p name i_mode := by
        simp [DirFits, hdir, hmode, hname]
      rw [hfits]
      exact create_dentry_outcome h hp
  · rw [if_pos hmode]
    exact .done h (.refl s) nofun (iff_of_true (.refl s) fun hd => absurd (hdir.1 hd) hmode)

/-- Over the components: the first one that is not cached decides. -/
theorem walk_outcome (k : Nat) {s : State} {d : Nat} (i : Nat) (h : Tree s) (hd : Cached s d) :
    Outcome s (PathFits mem path s (DirFits mem path i_mode s) d i k)
      ((select_from mem path s d i k).bind (behind_select mem path i_mode)) := by
  induction k generalizing s d i with
  | zero => exact behind_select_outcome mem path i_mode h hd
  | succ k ih =>
    rw [select_from, PathFits]
    cases hname : file_name path i with
    | none => exact .fault fun ⟨_, hsome, _⟩ => by cases hsome
    | some name =>
      have hlive := h.cached_live hd
      have hfind : Finds (mem i) s d name (find_dentry (mem i) s d name) := find_dentry_cases h hd
      simp only [Option.some.injEq, exists_eq_left', Option.bind_eq_bind, Option.bind_some]
      generalize find_dentry (mem i) s d name = o at hfind
      cases hfind with
      | hit hlook =>
        rw [hlook]
        exact ih (i + 1) h (.inr ⟨d, hlive, d_lookup_mem hlook⟩)
      | fault hlook hno =>
        rw [hlook]
        exact .fault hno
      | miss hlook hmiss hdropped =>
        rw [hlook]
        obtain ⟨htree, hgrows, hundone⟩ := undone_dropped h hdropped
        exact .done htree hgrows nofun (iff_of_true hundone hmiss)
      | bound hlook hno htree hgrows hmem hnew =>
        rw [hlook]
        exact (ih (i + 1) htree (.inr ⟨d, hgrows.live d hlive, hmem⟩)).spoiled h hlive htree hgrows hmem hnew hno

theorem create_new_dentry_outcome (h : Tree s) :
    Outcome s (AtomicFits mem s path i_mode) (create_new_dentry mem s path i_mode) := by
  rw [create_new_dentry_eq]
  exact walk_outcome mem path i_mode _ 1 h (.inl rfl)

/-- A call leaves a tree. -/
theorem create_new_dentry_tree {r : Except Int Nat} (h : Tree s) (hcall : create_new_dentry mem s path i_mode = some (s', r)) :
    Tree s' ∧ Grows s s' := by
  have ho := create_new_dentry_outcome mem path i_mode h
  rw [hcall] at ho
  cases ho with
  | done htree hgrows _ _ => exact ⟨htree, hgrows⟩

theorem Outcome.returns (h : Outcome s fits o) : (∃ s' r, o = some (s', r) ∧ Done s s' r) ↔ fits := by
  cases h with
  | fault hno => exact iff_of_false (fun ⟨_, _, hsome, _⟩ => by cases hsome) hno
  | @done s' r _ _ _ hdone =>
    rw [← hdone]
    refine ⟨fun ⟨t, r', hsome, hd⟩ => ?_, fun hd => ⟨s', r, rfl, hd⟩⟩
    obtain ⟨rfl, rfl⟩ := Prod.mk.inj (Option.some.inj hsome)
    exact hd

/-- A call does everything or nothing exactly if its allocations fail in time, and the
lookups on its way find nothing that was not cached. -/
theorem atomic_iff (h : Tree s) : Atomic mem s path i_mode ↔ AtomicFits mem s path i_mode :=
  (create_new_dentry_outcome mem path i_mode h).returns

end Walk

end Call

/-- An empty tree. -/
def root_state : State where
  dentries := ⟨1, fun _ => { d_hash := [], d_parent := none, d_name := ['/'], d_inode := some 0, d_fsdata := none, count := 0 }⟩
  inodes := ⟨1, fun _ => { i_mode := S_IFDIR ||| 0o755, i_private := 0 }⟩
  initramfs_inodes := ⟨1, fun _ => { i_mode := S_IFDIR ||| 0o755, dentry_count := 0, dentry_list_head := [] }⟩
  initramfs_dentries := ⟨0, fun _ => default⟩
  inode_list_head := [0]
  root_dentry := 0
  heap := {.dentry 0, .inode 0, .initram_inode 0}

theorem root_state_tree : Tree root_state := by
  constructor <;> simp [root_state, Live, Cached]

theorem root_state_empty : ¬Exists root_state 0 ['a'] := by
  rintro ⟨n, hn, hsome⟩
  obtain rfl : 0 = n := by simpa [node_of, root_state] using hn
  revert hsome
  decide +kernel

/-- With all the memory, `/a` is made. -/
theorem atomic_made : Atomic (fun _ => ⟨true, true, false, true, true, true, true⟩) root_state ['/', 'a'] S_IFREG :=
  (atomic_iff _ _ _ root_state_tree).2 fun _ => ⟨['a'], by decide +kernel, .inr
    ⟨⟨⟨rfl, rfl, by decide, by decide⟩, fun hex => absurd hex root_state_empty⟩, ⟨rfl, rfl, by decide, by decide⟩,
      fun _ => ⟨fun hex => absurd hex root_state_empty, fun _ _ => rfl⟩⟩⟩

/-- All but the last allocation, that of the VFS inode. -/
def no_inode (i : Nat) : Memory := ⟨true, true, false, decide (i ≠ 2), true, true, true⟩

/-- Without memory for the VFS inode, the entry stays in the directory. -/
theorem atomic_entry_left : ¬∀ (mem : Nat → Memory) (s : State) (path : Path) (i_mode : Nat), Tree s →
    Atomic mem s path i_mode := by
  intro h
  obtain ⟨s', r, hcall, hdone⟩ := h no_inode root_state ['/', 'a'] S_IFREG root_state_tree
  have hleft : (create_new_dentry no_inode root_state ['/', 'a'] S_IFREG).map
      (fun c => (c.2, (c.1.initramfs_inodes.get 0).dentry_list_head)) = some (.error (-ENOMEM), [0]) := by decide +kernel
  rw [hcall, Option.map_some, Option.some.injEq, Prod.mk.injEq] at hleft
  obtain ⟨rfl, hlist⟩ := hleft
  have hsame := hdone.directory 0 (by simp [root_state])
  rw [hlist] at hsame
  cases hsame

end McLinOS.Creation
