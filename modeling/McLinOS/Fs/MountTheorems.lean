import Mathlib.Data.List.Induction
import McLinOS.Fs.Mount
import McLinOS.Fs.Steps
/-!
# What a mount switches

The path of the mount point is cached, and no other path comes through its
dentry. What is cached below it stays in its way.
-/
open CLib

namespace McLinOS.Fs

/-! ## Cached paths -/

/-- The walk through cached dentries. -/
def cached_walk (s : FS) : Nat → List Name → Option Nat
  | d, [] => some d
  | d, name :: names => (d_lookup_dentry s d name).bind fun c => cached_walk s c names

section
variable {s s' : FS} {d c : Nat} {names : List Name}

theorem cached_walk_append (s : FS) (d : Nat) (xs ys : List Name) :
    cached_walk s d (xs ++ ys) = (cached_walk s d xs).bind fun c => cached_walk s c ys := by
  induction xs generalizing d with
  | nil => rfl
  | cons x xs ih =>
    simp only [List.cons_append, cached_walk, Option.bind_assoc]
    exact Option.bind_congr fun c _ => ih c

theorem resolve_cached (h : cached_walk s d names = some c) (more : List Name) :
    resolve s d (names ++ more) = resolve s c more := by
  induction names generalizing d with
  | nil =>
    obtain rfl := Option.some.inj h
    rfl
  | cons x names ih =>
    obtain ⟨y, hy, hrest⟩ := Option.bind_eq_some_iff.1 h
    rw [List.cons_append, resolve, hy]
    exact ih hrest

/-- What is cached stays cached. -/
theorem CacheStep.d_lookup (h : Wf s) (hs : CacheStep s s') (hd : Cached s d) {x : Name}
    (hc : d_lookup_dentry s d x = some c) : d_lookup_dentry s' d x = some c := by
  cases hs with
  | @drop e name i hm hnone =>
    have hnames : ∀ y ∈ (s.dentries.get d).d_hash, ((dropped s e name).dentries.get y).d_name = (s.dentries.get y).d_name :=
      fun y hy => by rw [get_dropped e name (h.child d y hy).lt]
    rw [d_lookup_congr (by rw [get_dropped e name (h.lt hd)]) hnames]
    exact hc
  | add hm hf =>
    rw [d_lookup_looked_up h hm hf hd, if_neg, hc]
    rintro ⟨rfl, rfl⟩
    simp [hm.not_cached] at hc

theorem steps_cached_walk (h : Wf s) (hs : Relation.ReflTransGen CacheStep s s') (hd : Cached s d)
    (hc : cached_walk s d names = some c) : cached_walk s' d names = some c := by
  have hstep : ∀ {s s' : FS}, Wf s → CacheStep s s' → ∀ {names d}, Cached s d → cached_walk s d names = some c →
      cached_walk s' d names = some c := by
    intro s s' h hs names
    induction names with
    | nil => exact fun _ hc => hc
    | cons x names ih =>
      intro d hd hc
      obtain ⟨y, hy, hrest⟩ := Option.bind_eq_some_iff.1 hc
      have hy' := hs.d_lookup h hd hy
      simp only [cached_walk, hy', Option.bind_some]
      exact ih (.inr ⟨d, (mem_of_d_lookup hy).1⟩) hrest
  induction hs with
  | refl => exact hc
  | tail hr hlast ih => exact hstep (steps_wf h hr) hlast (steps_cached h hr hd) ih

/-- A walk that succeeds caches its path. -/
theorem walk_cached {r : Except Int Nat} (h : Wf s) (hd : Cached s d) (hnames : ∀ x ∈ names, Component x)
    (hw : walk s d names = some (s', r)) (hr : r = .ok c) : cached_walk s' d names = some c := by
  induction names generalizing s d with
  | nil =>
    simp only [walk, Option.some.injEq, Prod.mk.injEq] at hw
    obtain ⟨rfl, rfl⟩ := hw
    rw [Except.ok.inj hr]
    rfl
  | cons x names ih =>
    have hx := (walk_fits h hd hnames hw).head h hd
    rw [List.forall_mem_cons] at hnames
    have hfirst : ∀ {s₁ : FS} {y : Nat}, Wf s₁ → Relation.ReflTransGen CacheStep s s₁ → d_lookup_dentry s₁ d x = some y →
        walk s₁ y names = some (s', r) → cached_walk s' d (x :: names) = some c := by
      intro s₁ y h₁ hs₁ hy hw₁
      have hd₁ := steps_cached h hs₁ hd
      have hy₁ : Cached s₁ y := .inr ⟨d, (mem_of_d_lookup hy).1⟩
      obtain ⟨s₂, r₂, hspec⟩ := walk_spec h₁ hy₁ hnames.2 (walk_fits h₁ hy₁ hnames.2 hw₁)
      obtain ⟨rfl, -⟩ : s₂ = s' ∧ r₂ = r := by simpa using hspec.walk.symm.trans hw₁
      have hone : cached_walk s₁ d [x] = some y := by simp [cached_walk, hy]
      have hone' := steps_cached_walk h₁ hspec.steps hd₁ hone
      rw [← List.singleton_append, cached_walk_append, hone', Option.bind_some]
      exact ih h₁ hy₁ hnames.2 hw₁
    rcases find_dentry_spec h hd ⟨hx, hnames.1⟩ with ⟨y, hy, hfind⟩ | ⟨i, hm, ⟨hnone, hfind⟩ | ⟨f, hf, hfind⟩⟩
    · simp only [walk, hfind, Option.bind_eq_bind, Option.bind_some] at hw
      exact hfirst h .refl hy hw
    · simp only [walk, hfind, Option.bind_eq_bind, Option.bind_some, Option.some.injEq, Prod.mk.injEq] at hw
      rw [← hw.2] at hr
      cases hr
    · simp only [walk, hfind, Option.bind_eq_bind, Option.bind_some] at hw
      refine hfirst (h.looked_up hm hf) (.single (.add hm hf)) ?_ hw
      rw [d_lookup_looked_up h hm hf hd, if_pos ⟨rfl, rfl⟩]

theorem cached_walk_mem (hd : Cached s d) (hc : cached_walk s d names = some c) : Cached s c := by
  induction names generalizing d with
  | nil => exact Option.some.inj hc ▸ hd
  | cons x names ih =>
    obtain ⟨y, hy, hrest⟩ := Option.bind_eq_some_iff.1 hc
    exact ih (.inr ⟨d, (mem_of_d_lookup hy).1⟩) hrest

/-- The names of cached dentries are valid. -/
theorem cached_walk_valid (h : Wf s) (hc : cached_walk s d names = some c) : ∀ x ∈ names, Valid s x := by
  induction names generalizing d with
  | nil => simp
  | cons x names ih =>
    obtain ⟨y, hy, hrest⟩ := Option.bind_eq_some_iff.1 hc
    obtain ⟨hmem, hname⟩ := mem_of_d_lookup hy
    exact List.forall_mem_cons.2 ⟨hname ▸ (h.child d y hmem).valid, ih hrest⟩

/-- The last step of a cached path comes from the parent. -/
theorem cached_walk_last (h : Wf s) {x : Name} (hc : cached_walk s d (names ++ [x]) = some c) :
    ∃ p, cached_walk s d names = some p ∧ (s.dentries.get c).d_parent = some p ∧ (s.dentries.get c).d_name = x := by
  rw [cached_walk_append] at hc
  obtain ⟨p, hp, hlast⟩ := Option.bind_eq_some_iff.1 hc
  obtain ⟨y, hy, hyc⟩ := Option.bind_eq_some_iff.1 hlast
  obtain rfl := Option.some.inj hyc
  obtain ⟨hmem, hname⟩ := mem_of_d_lookup hy
  exact ⟨p, hp, (h.child p y hmem).parent, hname⟩

/-- A dentry has one path. -/
theorem cached_walk_unique (h : Wf s) {xs ys : List Name} (hx : cached_walk s s.root_dentry xs = some c)
    (hy : cached_walk s s.root_dentry ys = some c) : xs = ys := by
  induction xs using List.reverseRecOn generalizing ys c with
  | nil =>
    obtain rfl := Option.some.inj hx
    rcases List.eq_nil_or_concat ys with rfl | ⟨zs, z, rfl⟩
    · rfl
    · rw [List.concat_eq_append] at hy
      obtain ⟨p, -, hp, -⟩ := cached_walk_last h hy
      rw [h.root_parent] at hp
      cases hp
  | append_singleton xs x ih =>
    obtain ⟨p, hp, hparent, hname⟩ := cached_walk_last h hx
    rcases List.eq_nil_or_concat ys with rfl | ⟨zs, z, rfl⟩
    · obtain rfl := Option.some.inj hy
      rw [h.root_parent] at hparent
      cases hparent
    · rw [List.concat_eq_append] at hy ⊢
      obtain ⟨q, hq, hparent', hname'⟩ := cached_walk_last h hy
      obtain rfl := Option.some.inj (hparent.symm.trans hparent')
      rw [ih hp hq, ← hname, hname']

/-- What `select_file` finds is what the path resolves to. -/
theorem resolvesTo_iff (h : Wf s) {path : Path} (hp : Plain s path) (o : Option Nat) :
    ResolvesTo s path o ↔ resolve s s.root_dentry (components path) = o := by
  obtain ⟨s₁, r, hselect, hw⟩ := select_file_spec h hp.1 (.of_all hp.2)
  have hr : result_node s₁ r = resolve s s.root_dentry (components path) := by
    cases r with
    | ok d => exact (hw.found d rfl).2
    | error e => exact (hw.missing e rfl).2.symm
  constructor
  · rintro ⟨s₂, r₂, hselect₂, rfl⟩
    obtain ⟨rfl, rfl⟩ : s₂ = s₁ ∧ r₂ = r := by simpa using hselect₂.symm.trans hselect
    exact hr.symm
  · rintro rfl
    exact ⟨s₁, r, hselect, hr⟩

end

/-! ## The mounted state -/

section
variable {s : FS} {mp : Nat}

/-- The state after `pipefs_mount` and with the mount point set. -/
def mounted (s : FS) (mp : Nat) : FS := set_mount (pipefs_mount s).1 mp s.supers.next

/-- What `sys_mount` reads of the new superblock. -/
theorem mounted_root (s : FS) : ((pipefs_mount s).1.supers.get s.supers.next).s_root = s.dentries.next ∧
    ((pipefs_mount s).1.dentries.get s.dentries.next).d_inode = some s.inodes.next ∧
    ((pipefs_mount s).1.dentries.get s.dentries.next).d_sb = some s.supers.next := by
  simp [pipefs_mount]

theorem get_mounted {x : Nat} (h : x < s.dentries.next) : (mounted s mp).dentries.get x =
    if x = mp then { s.dentries.get x with d_sb := some s.supers.next, d_inode := some s.inodes.next }
    else s.dentries.get x := by
  obtain ⟨hroot, hinode, -⟩ := mounted_root s
  simp only [mounted, set_mount, hroot, hinode, Pool.get_modify]
  simp only [pipefs_mount]
  split
  · rename_i hx
    rw [Pool.get_alloc_lt (hx ▸ h), hx]
  · rw [Pool.get_alloc_lt h]

theorem hash_mounted {x : Nat} (h : x < s.dentries.next) :
    ((mounted s mp).dentries.get x).d_hash = (s.dentries.get x).d_hash := by
  rw [get_mounted h, apply_ite dentry.d_hash, ite_self]

theorem parent_mounted {x : Nat} (h : x < s.dentries.next) :
    ((mounted s mp).dentries.get x).d_parent = (s.dentries.get x).d_parent := by
  rw [get_mounted h, apply_ite dentry.d_parent, ite_self]

theorem name_mounted {x : Nat} (h : x < s.dentries.next) :
    ((mounted s mp).dentries.get x).d_name = (s.dentries.get x).d_name := by
  rw [get_mounted h, apply_ite dentry.d_name, ite_self]

theorem mem_hash_mounted {p x : Nat} (hmp : mp < s.dentries.next) (h : x ∈ ((mounted s mp).dentries.get p).d_hash) :
    x ∈ (s.dentries.get p).d_hash := by
  by_cases hp : p < s.dentries.next
  · rw [hash_mounted hp] at h
    exact h
  · have hne : p ≠ mp := fun h => hp (h ▸ hmp)
    simp only [mounted, set_mount, Pool.get_modify_ne hne] at h
    simp only [pipefs_mount, Pool.get_alloc] at h
    split at h
    · simp at h
    · exact h

/-- The directory's file system is the new one. -/
theorem node_mounted (h : mp < s.dentries.next) : node (mounted s mp) mp = some s.initramfs_inodes.next := by
  have hnew : (mounted s mp).inodes.get s.inodes.next = _ := Pool.get_alloc_next s.inodes _
  simp only [node, get_mounted h, if_true, Option.map_some, hnew]

/-- It is that of the new superblock's root. -/
theorem node_mounted_root (h : mp < s.dentries.next) :
    node (mounted s mp) ((mounted s mp).supers.get s.supers.next).s_root = some s.initramfs_inodes.next := by
  have hsuper : ((mounted s mp).supers.get s.supers.next).s_root = s.dentries.next := (mounted_root s).1
  have hnew : (mounted s mp).inodes.get s.inodes.next = _ := Pool.get_alloc_next s.inodes _
  have hinode : ((mounted s mp).dentries.get s.dentries.next).d_inode = some s.inodes.next := by
    simp only [mounted, set_mount, Pool.get_modify_ne (Nat.ne_of_gt h), (mounted_root s).2.1]
  simp only [node, hsuper, hinode, Option.map_some, hnew]

theorem node_mounted_ne (h : Wf s) {x : Nat} (hx : Cached s x) (hne : x ≠ mp) : node (mounted s mp) x = node s x := by
  obtain ⟨i, hi, hlt, -⟩ := h.bound x hx
  have hget : (mounted s mp).inodes.get i = s.inodes.get i := Pool.get_alloc_lt hlt _
  simp only [node, get_mounted (h.lt hx), if_neg hne, hi, Option.map_some, hget]

theorem cached_mounted (h : Wf s) (hmp : mp < s.dentries.next) {x : Nat} :
    Cached (mounted s mp) x ↔ Cached s x := by
  refine or_congr Iff.rfl ⟨?_, ?_⟩
  · rintro ⟨p, hp⟩
    exact ⟨p, mem_hash_mounted hmp hp⟩
  · rintro ⟨p, hp⟩
    refine ⟨p, ?_⟩
    rw [hash_mounted (h.child p x hp).parent_lt]
    exact hp

theorem Wf.mounted (h : Wf s) (hmp : Cached s mp) : Wf (mounted s mp) where
  root_lt := Nat.lt_succ_of_lt h.root_lt
  root_parent := by
    show ((Fs.mounted s mp).dentries.get s.root_dentry).d_parent = none
    rw [parent_mounted h.root_lt]
    exact h.root_parent
  child := by
    intro p x hx
    have hc := h.child p x (mem_hash_mounted (h.lt hmp) hx)
    refine ⟨Nat.lt_succ_of_lt hc.parent_lt, Nat.lt_succ_of_lt hc.lt, ?_, ?_⟩
    · rw [parent_mounted hc.lt]
      exact hc.parent
    · rw [name_mounted hc.lt]
      exact hc.valid
  bound := by
    intro x hx
    have hx := (cached_mounted h (h.lt hmp)).1 hx
    by_cases hne : x = mp
    · subst hne
      have hnew : (Fs.mounted s x).inodes.get s.inodes.next = _ := Pool.get_alloc_next s.inodes _
      refine ⟨s.inodes.next, ?_, Nat.lt_succ_self _, ?_⟩
      · rw [get_mounted (h.lt hmp), if_pos rfl]
      · rw [hnew]
        exact Nat.lt_succ_self _
    · obtain ⟨i, hi, hlt, hp⟩ := h.bound x hx
      have hget : (Fs.mounted s mp).inodes.get i = s.inodes.get i := Pool.get_alloc_lt hlt _
      refine ⟨i, ?_, Nat.lt_succ_of_lt hlt, ?_⟩
      · rw [get_mounted (h.lt hx), if_neg hne]
        exact hi
      · rw [hget]
        exact Nat.lt_succ_of_lt hp
  entry := by
    intro n f hf
    have hold : f ∈ (s.initramfs_inodes.get n).dentry_list_head := by
      have hf : f ∈ ((s.initramfs_inodes.alloc _).get n).dentry_list_head := hf
      rw [Pool.get_alloc] at hf
      split at hf
      · simp at hf
      · exact hf
    obtain ⟨hlt, htarget⟩ := h.entry n f hold
    have hget : (Fs.mounted s mp).initramfs_dentries.get f = s.initramfs_dentries.get f := Pool.get_alloc_lt hlt _
    refine ⟨Nat.lt_succ_of_lt hlt, ?_⟩
    rw [hget]
    exact Nat.lt_succ_of_lt htarget

/-- The new file system is empty, the others are as they were. -/
theorem fs_walk_mounted (h : Wf s) {n : Nat} (hn : n < s.initramfs_inodes.next) (names : List Name) :
    fs_walk (mounted s mp) n names = fs_walk s n names := by
  induction names generalizing n with
  | nil => rfl
  | cons x names ih =>
    have hget : (mounted s mp).initramfs_inodes.get n = s.initramfs_inodes.get n := Pool.get_alloc_lt hn _
    have hfile : ∀ f ∈ (s.initramfs_inodes.get n).dentry_list_head,
        (mounted s mp).initramfs_dentries.get f = s.initramfs_dentries.get f :=
      fun f hf => Pool.get_alloc_lt (h.entry n f hf).1 _
    have hlook : initramfs_lookup (mounted s mp) n x = initramfs_lookup s n x := by
      simp only [initramfs_lookup, hget]
      split
      · rfl
      · exact List.find?_congr fun f hf => by rw [hfile f hf]
    rw [fs_walk, fs_walk, hlook]
    refine Option.bind_congr fun f hf => ?_
    have hmem := mem_of_lookup hf
    rw [hfile f hmem]
    exact ih (h.entry n f hmem).2

theorem fs_walk_new (s : FS) (mp : Nat) {names : List Name} (hne : names ≠ []) :
    fs_walk (mounted s mp) s.initramfs_inodes.next names = none := by
  obtain ⟨x, xs, rfl⟩ := List.exists_cons_of_ne_nil hne
  have hget : (mounted s mp).initramfs_inodes.get s.initramfs_inodes.next = _ := Pool.get_alloc_next s.initramfs_inodes _
  have hlook : initramfs_lookup (mounted s mp) s.initramfs_inodes.next x = none := by
    simp only [initramfs_lookup, hget]
    split <;> rfl
  rw [fs_walk, hlook, Option.bind_none]

theorem d_lookup_mounted (h : Wf s) {c : Nat} (hc : Cached s c) (x : Name) :
    d_lookup_dentry (mounted s mp) c x = d_lookup_dentry s c x :=
  d_lookup_congr (hash_mounted (h.lt hc)) (fun y hy => name_mounted (h.child c y hy).lt) x

theorem cached_walk_mounted (h : Wf s) {d : Nat} (hd : Cached s d) (names : List Name) :
    cached_walk (mounted s mp) d names = cached_walk s d names := by
  induction names generalizing d with
  | nil => rfl
  | cons x names ih =>
    rw [cached_walk, cached_walk, d_lookup_mounted h hd]
    exact Option.bind_congr fun c hc => ih (.inr ⟨d, (mem_of_d_lookup hc).1⟩)

/-- Names that do not lead through the mount point resolve as before. -/
theorem resolve_elsewhere (h : Wf s) {dir pre names : List Name} {c : Nat}
    (hdir : cached_walk s s.root_dentry dir = some mp) (hpre : cached_walk s s.root_dentry pre = some c)
    (hout : ¬dir <+: pre ++ names) : resolve (mounted s mp) c names = resolve s c names := by
  induction names generalizing pre c with
  | nil =>
    have hne : c ≠ mp := by
      rintro rfl
      rw [cached_walk_unique h hdir hpre] at hout
      exact hout (List.prefix_append _ _)
    exact node_mounted_ne h (cached_walk_mem (.inl rfl) hpre) hne
  | cons x names ih =>
    have hc := cached_walk_mem (.inl rfl) hpre
    have hne : c ≠ mp := by
      rintro rfl
      rw [cached_walk_unique h hdir hpre] at hout
      exact hout (List.prefix_append _ _)
    obtain ⟨i, hi, -, hlt⟩ := h.bound c hc
    rw [resolve, resolve, d_lookup_mounted h hc]
    cases hlook : d_lookup_dentry s c x with
    | some y =>
      have hpre' : cached_walk s s.root_dentry (pre ++ [x]) = some y := by
        simp [cached_walk_append, hpre, cached_walk, hlook]
      exact ih hpre' (by rwa [List.append_assoc, List.singleton_append])
    | none =>
      have hnode : node s c = some (s.inodes.get i).i_private := by simp only [node, hi, Option.map_some]
      simp only [node_mounted_ne h hc hne, hnode, Option.bind_some]
      exact fs_walk_mounted h hlt _

/-! ## Paths below the mount point -/

/-- The path of the names. -/
def path_of (names : List Name) : Path := '/' :: ['/'].intercalate names

theorem components_path_of {names : List Name} (hne : names ≠ []) (h : ∀ x ∈ names, Valid s x) :
    components (path_of names) = names := by
  have hslash : ∀ x ∈ names, '/' ∉ x := fun x hx => (h x hx).2.1
  rw [components, path_of, splitOn_slash, List.splitOn_intercalate '/' hslash hne]
  obtain ⟨xs, x, rfl⟩ := (List.eq_nil_or_concat names).resolve_left hne
  rw [List.concat_eq_append] at h ⊢
  have hlast : x ≠ [] := by
    rintro rfl
    exact absurd (h [] (by simp)).1 (by simp [FS.fits])
  rw [drop_trailing, if_neg, List.tail_cons]
  rw [← List.cons_append, List.getLast?_concat]
  simp [hlast]

theorem plain_path_of {names : List Name} (hne : names ≠ []) (h : ∀ x ∈ names, Valid s x) :
    Plain s (path_of names) := by
  refine ⟨⟨rfl, ?_⟩, ?_⟩
  · rw [components_path_of hne h]
    exact fun x hx => (h x hx).2.2
  · rw [components_path_of hne h]
    exact fun x hx => (h x hx).1

/-- Nothing is cached below the mount point exactly when what is below it is
switched. -/
theorem switched_iff {s₀ : FS} {dir : Path} (h₀ : Wf s₀) (habs : Absolute dir) (hs : Relation.ReflTransGen CacheStep s₀ s)
    (hroot : s.root_dentry = s₀.root_dentry) (hmp : cached_walk s s.root_dentry (components dir) = some mp) :
    Switched s₀ (mounted s mp) dir s.initramfs_inodes.next ↔ (s.dentries.get mp).d_hash = [] := by
  have h := steps_wf h₀ hs
  have hc := cached_walk_mem (.inl rfl) hmp
  have hdir : Plain s dir := ⟨habs, fun x hx => (cached_walk_valid h hmp x hx).1⟩
  have hplain : ∀ path, Plain s path ↔ Plain s₀ path := by
    intro path
    simp only [Plain, steps_fits hs]
  have hm := h.mounted hc
  have hroot' : (mounted s mp).root_dentry = s.root_dentry := rfl
  have hmp' : cached_walk (mounted s mp) s.root_dentry (components dir) = some mp := by
    rw [cached_walk_mounted h (.inl rfl), hmp]
  have hnode := node_mounted (h.lt hc)
  have hbelow : ∀ names, resolve (mounted s mp) s.root_dentry (components dir ++ names) = resolve (mounted s mp) mp names :=
    resolve_cached hmp'
  constructor
  · intro hsw
    by_contra hhash
    obtain ⟨c, cs, hcs⟩ := List.exists_cons_of_ne_nil hhash
    have hchild := h.child mp c (by simp [hcs])
    let x := (s.dentries.get c).d_name
    have hx : Valid s x := hchild.valid
    have hne : components dir ++ [x] ≠ [] := by simp
    have hvalid : ∀ y ∈ components dir ++ [x], Valid s y :=
      List.forall_mem_append.2 ⟨cached_walk_valid h hmp, by simpa using hx⟩
    have hres := hsw.below _ ((hplain _).1 (plain_path_of hne hvalid)) [x] (by simp) (components_path_of hne hvalid)
    rw [resolvesTo_iff hm (plain_path_of hne hvalid), components_path_of hne hvalid, hroot', hbelow,
      fs_walk_new s mp (by simp)] at hres
    -- The name of the cached child still leads to a dentry.
    have hlook : d_lookup_dentry (mounted s mp) mp x = some c := by
      rw [d_lookup_mounted h hc, d_lookup_dentry, hcs, List.find?_cons_of_pos]
      simp [x]
    obtain ⟨i, hi, -⟩ := hm.bound c (.inr ⟨mp, (mem_of_d_lookup hlook).1⟩)
    simp [resolve, hlook, node, hi] at hres
  · intro hhash
    have hhash' : ((mounted s mp).dentries.get mp).d_hash = [] := by rw [hash_mounted (h.lt hc), hhash]
    refine ⟨?_, ?_, ?_⟩
    · have hnil := hbelow []
      rw [List.append_nil] at hnil
      rw [resolvesTo_iff hm hdir, hroot', hnil, resolve, hnode]
    · intro path hp names hne hpath
      rw [resolvesTo_iff hm ((hplain path).2 hp), hpath, hroot', hbelow, resolve_uncached hhash' hnode]
    · intro path hp hout o
      have helsewhere := @resolve_elsewhere s mp h (components dir) [] (components path) s.root_dentry hmp rfl hout
      rw [resolvesTo_iff hm ((hplain path).2 hp), resolvesTo_iff h₀ hp, hroot', helsewhere, hroot, steps_resolve h₀ hs (.inl rfl)]

/-! ## sys_mount -/

theorem CacheStep.keeps {s s' : FS} (h : Wf s) (hs : CacheStep s s') {d : Nat} (hd : Cached s d) :
    (s'.dentries.get d).d_sb = (s.dentries.get d).d_sb ∧ (s'.dentries.get d).d_inode = (s.dentries.get d).d_inode := by
  cases hs with
  | @drop e name i hm hnone =>
    rw [get_dropped e name (h.lt hd)]
    exact ⟨rfl, rfl⟩
  | add hm hf =>
    rw [get_looked_up (h.lt hd)]
    split <;> exact ⟨rfl, rfl⟩

theorem CacheStep.root {s s' : FS} (hs : CacheStep s s') : s'.root_dentry = s.root_dentry ∧ s'.supers = s.supers := by
  cases hs <;> exact ⟨rfl, rfl⟩

theorem steps_root {s s' : FS} (hs : Relation.ReflTransGen CacheStep s s') :
    s'.root_dentry = s.root_dentry ∧ s'.supers = s.supers := by
  induction hs with
  | refl => exact ⟨rfl, rfl⟩
  | tail _ hstep ih => exact ⟨hstep.root.1.trans ih.1, hstep.root.2.trans ih.2⟩

/-- Lookups do no harm. -/
theorem steps_unharmed {s : VFS} {fs : FS} (h : Wf s.fs) (hs : Relation.ReflTransGen CacheStep s.fs fs) :
    Unharmed s { s with fs } := by
  refine ⟨fun d hd => ?_, rfl⟩
  show (fs.dentries.get d).d_sb = _ ∧ (fs.dentries.get d).d_inode = _
  induction hs with
  | refl => exact ⟨rfl, rfl⟩
  | tail hr hstep ih =>
    obtain ⟨h1, h2⟩ := hstep.keeps (steps_wf h hr) (steps_cached h hr hd)
    exact ⟨h1.trans ih.1, h2.trans ih.2⟩

end

theorem mount_dir_some {s fs : FS} {dir : Path} {mp : Nat} (h : mount_dir s dir = some (fs, mp)) :
    select_file s dir 0 = some (fs, .ok mp) ∧ ∃ i, (fs.dentries.get mp).d_inode = some i ∧
      (fs.inodes.get i).i_mode &&& S_IFMT = S_IFDIR := by
  unfold mount_dir at h
  split at h
  · rename_i fs' mp' hselect
    cases hi : (fs'.dentries.get mp').d_inode with
    | none => simp [hi] at h
    | some i =>
      simp only [hi] at h
      split at h
      · rename_i hmode
        obtain ⟨rfl, rfl⟩ := Prod.mk.inj (Option.some.inj h)
        exact ⟨hselect, i, hi, hmode⟩
      · cases h
  · cases h

/-- The path to a directory looks up only names that fit. -/
theorem mount_dir_fits {s : FS} {dir : Path} {r : FS × Nat} (h : Wf s) (habs : Absolute dir)
    (hsome : mount_dir s dir = some r) : FitsOn s s.root_dentry (components dir) := by
  by_contra hfit
  have hselect := not_not.1 fun hne => hfit ((select_file_returns h habs).1 hne)
  simp [mount_dir, hselect] at hsome

section
variable {types : List Name} {s : VFS} {fs : FS} {dir : Path} {type : Name} {mp : Nat}

/-- `sys_mount` where the directory was found. -/
theorem sys_mount_tried (mem : Bool) (stray : StrayWord) (htype : type ∈ types)
    (hsome : mount_dir s.fs dir = some (fs, mp)) (hfree : s.d_lock mp = false) :
    sys_mount types mem stray s dir type =
      if mem then
        some (spin_unlock ⟨mounted fs mp, Function.update s.fs_type fs.initramfs_inodes.next type,
          Function.update s.d_lock mp true⟩ mp, 0)
      else
        match stray with
        | .error => some (⟨fs, s.fs_type, Function.update s.d_lock mp true⟩, 0)
        | .null => some (⟨fs, s.fs_type, Function.update s.d_lock mp true⟩, -ENOMEM)
        | .other => none := by
  obtain ⟨hselect, i, hi, hmode⟩ := mount_dir_some hsome
  have hroot : ((pipefs_mount fs).1.dentries.get (pipefs_mount fs).2).d_sb = some fs.supers.next := (mounted_root fs).2.2
  have htype' : ¬type ∉ types := fun h => h htype
  have hmode' : ¬(fs.inodes.get i).i_mode &&& S_IFMT ≠ S_IFDIR := fun h => h hmode
  cases mem with
  | true =>
    simp only [sys_mount, if_neg htype', hselect, Option.bind_eq_bind, Option.bind_some, hi, if_neg hmode', spin_lock, hfree,
      Bool.false_eq_true, if_false, if_true, hroot]
    rfl
  | false =>
    cases stray <;>
      simp only [sys_mount, if_neg htype', hselect, Option.bind_eq_bind, Option.bind_some, hi, if_neg hmode', spin_lock,
        hfree, Bool.false_eq_true, if_false]

/-- The mount that succeeds. -/
theorem mounts_dir (stray : StrayWord) (h : Wf s.fs) (hfree : ∀ d, s.d_lock d = false) (habs : Absolute dir)
    (htype : type ∈ types) (hsome : mount_dir s.fs dir = some (fs, mp)) :
    Mounts types true stray s dir type ↔ (fs.dentries.get mp).d_hash = [] := by
  obtain ⟨fs', r, hselect, hw⟩ := select_file_spec h habs (mount_dir_fits h habs hsome)
  obtain ⟨rfl, rfl⟩ : fs' = fs ∧ r = .ok mp := by simpa using hselect.symm.trans (mount_dir_some hsome).1
  have hmp := (hw.found mp rfl).1
  have hroot := steps_root hw.steps
  have hpath : cached_walk fs' fs'.root_dentry (components dir) = some mp := by
    rw [hroot.1]
    exact walk_cached h (.inl rfl) (components_component habs) hw.walk rfl
  have hcall := sys_mount_tried true stray htype hsome (hfree mp)
  have hlt := (steps_wf h hw.steps).lt hmp
  have hsb : ((mounted fs' mp).dentries.get mp).d_sb = some fs'.supers.next := by rw [get_mounted hlt, if_pos rfl]
  have hnew := node_mounted_root hlt
  have hiff := switched_iff h habs hw.steps hroot.1 hpath
  simp only [Mounts, hsome, htype, and_self, if_true]
  constructor
  · rintro ⟨s', sb, m, hcall', hsb', -, hm, hsw⟩
    obtain rfl := (Prod.mk.inj (Option.some.inj (hcall.symm.trans hcall'))).1
    obtain rfl : fs'.supers.next = sb := Option.some.inj (hsb.symm.trans hsb')
    obtain rfl : fs'.initramfs_inodes.next = m := Option.some.inj (hnew.symm.trans hm)
    exact hiff.1 hsw
  · intro hhash
    exact ⟨_, _, _, hcall, hsb, Nat.le_of_eq (congrArg Pool.next hroot.2).symm, hnew, hiff.2 hhash⟩

/-- Where the mount function fails, the mount point stays locked, whatever is
read through the error pointer. -/
theorem mounts_dir_fails (stray : StrayWord) (hfree : ∀ d, s.d_lock d = false) (htype : type ∈ types)
    (hsome : mount_dir s.fs dir = some (fs, mp)) : ¬Mounts types false stray s dir type := by
  have hcall := sys_mount_tried false stray htype hsome (hfree mp)
  rw [if_neg Bool.false_ne_true] at hcall
  simp only [Mounts, hsome, Bool.false_eq_true, and_false, if_false, hcall]
  rintro ⟨s', e, hres, he, -, hlock⟩
  have hheld : s'.d_lock mp = false := by rw [hlock, hfree]
  cases stray with
  | error =>
    simp only [Option.some.injEq, Prod.mk.injEq] at hres
    omega
  | null =>
    simp only [Option.some.injEq, Prod.mk.injEq] at hres
    simp [← hres.1] at hheld
  | other => cases hres

/-- A mount that is refused. -/
theorem mounts_refused {mem : Bool} {stray : StrayWord} {s' : VFS} {e : Int} (hgood : type ∉ types ∨ mount_dir s.fs dir = none)
    (hcall : sys_mount types mem stray s dir type = some (s', e)) (he : e < 0) (hharmless : Unharmed s s') :
    Mounts types mem stray s dir type := by
  have hfails : ∃ s' e, sys_mount types mem stray s dir type = some (s', e) ∧ e < 0 ∧ Unharmed s s' :=
    ⟨s', e, hcall, he, hharmless⟩
  unfold Mounts
  split
  · rename_i hsome
    rw [if_neg]
    · exact hfails
    · rintro ⟨htype, -⟩
      rcases hgood with hno | hnone
      · exact hno htype
      · simp [hsome] at hnone
  · exact hfails

end

/-- A mount does what it is for if and only if the names looked up fit, nothing
below the directory is cached and the file system's mount function does not fail. -/
theorem mount_switches_iff (types : List Name) (mem : Bool) (stray : StrayWord) {s : VFS} {dir : Path} (type : Name)
    (h : Wf s.fs) (hfree : ∀ d, s.d_lock d = false) (habs : Absolute dir) :
    Mounts types mem stray s dir type ↔ good_mount types mem s.fs dir type := by
  by_cases htype : type ∈ types
  swap
  · have hcall : sys_mount types mem stray s dir type = some (s, -ENODEV) := by simp [sys_mount, htype]
    exact iff_of_true (mounts_refused (.inl htype) hcall (by decide) ⟨fun d _ => ⟨rfl, rfl⟩, rfl⟩) fun h => absurd h htype
  cases hdirectory : mount_dir s.fs dir with
  | some r =>
    obtain ⟨fs, mp⟩ := r
    have hgood : good_mount types mem s.fs dir type ↔ mem = true ∧ (fs.dentries.get mp).d_hash = [] := by
      simp [good_mount, htype, hdirectory, mount_dir_fits h habs hdirectory]
    rw [hgood]
    cases mem with
    | true => simpa using mounts_dir stray h hfree habs htype hdirectory
    | false => simpa using mounts_dir_fails stray hfree htype hdirectory
  | none =>
    by_cases hfit : FitsOn s.fs s.fs.root_dentry (components dir)
    swap
    · have hselect := not_not.1 fun hne => hfit ((select_file_returns h habs).1 hne)
      refine iff_of_false ?_ fun hgood => hfit (hgood htype).1
      simp [Mounts, hdirectory, sys_mount, htype, hselect]
    refine iff_of_true ?_ (by simp [good_mount, hdirectory, hfit])
    obtain ⟨fs, r, hselect, hw⟩ := select_file_spec h habs hfit
    have hharmless := steps_unharmed h hw.steps
    cases r with
    | error e =>
      have hcall : sys_mount types mem stray s dir type = some ({ s with fs }, -ENOENT) := by
        simp [sys_mount, htype, hselect]
      exact mounts_refused (.inr hdirectory) hcall (by decide) hharmless
    | ok mp =>
      obtain ⟨i, hi, -⟩ := (steps_wf h hw.steps).bound mp (hw.found mp rfl).1
      have hmode : (fs.inodes.get i).i_mode &&& S_IFMT ≠ S_IFDIR := by
        intro hmode
        simp [mount_dir, hselect, hi, hmode] at hdirectory
      have hcall : sys_mount types mem stray s dir type = some ({ s with fs }, -ENOTDIR) := by
        simp [sys_mount, htype, hselect, hi, hmode]
      exact mounts_refused (.inr hdirectory) hcall (by decide) hharmless

/-- Over the root directory of a new file system. -/
theorem mount_switches_root :
    Mounts [['p', 'i', 'p', 'e', 'f', 's']] true .other ⟨root_fs fun _ => true, fun _ => [], fun _ => false⟩ ['/']
      ['p', 'i', 'p', 'e', 'f', 's'] :=
  (mount_switches_iff _ _ _ _ (wf_root _) (fun _ => rfl) (by decide)).2 fun _ => ⟨.of_all (by decide), by decide⟩

/-- A file that was opened before the mount still resolves after it. -/
theorem mount_keeps_cached : ¬∀ (types : List Name) (mem : Bool) (stray : StrayWord) (s : VFS) (dir : Path) (type : Name),
    Wf s.fs → (∀ d, s.d_lock d = false) → Plain s.fs dir → Mounts types mem stray s dir type := by
  intro h
  let run := filp_open (root_fs fun _ => false) ['/', 'f'] O_CREAT 0o644
  have hcached : (run.bind fun r => mount_dir r.1 ['/']).map (fun r => (r.1.dentries.get r.2).d_hash) = some [3] := by decide
  obtain ⟨⟨fs', mp⟩, hmount, hthree⟩ := Option.map_eq_some_iff.1 hcached
  have hhash : (fs'.dentries.get mp).d_hash = [3] := hthree
  obtain ⟨⟨fs, r⟩, hopen, hdirectory⟩ := Option.bind_eq_some_iff.1 hmount
  have hwf : Wf fs := fs_steps_wf (wf_root _) (filp_open_returned (wf_root _) hopen).steps
  have hroot : components ['/'] = [] := by decide
  have hmounts := h [['p', 'i', 'p', 'e', 'f', 's']] true .other ⟨fs, fun _ => [], fun _ => false⟩ ['/']
    ['p', 'i', 'p', 'e', 'f', 's'] hwf (fun _ => rfl) ⟨by decide, fun x hx => by simp [hroot] at hx⟩
  have hnil := (mounts_dir .other hwf (fun _ => rfl) (by decide) (by simp) hdirectory).1 hmounts
  rw [hhash] at hnil
  cases hnil

end McLinOS.Fs
