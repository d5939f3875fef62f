import McLinOS.CLib.Runs
import McLinOS.Fs.RemovalTrees
/-!
# What a removal removes

A removal that gets as far as the file system takes the dentry from its parent
and, unless a directory is in its way, the entry from its directory. Whatever it
comes to, the caller is told that it worked.
-/
open CLib

namespace McLinOS.Removal

open Fs

/-! ## The states after a removal -/

/-- The dentry is taken from its parent. -/
def unhashed (s : FS) (p d : Nat) : FS :=
  { s with dentries := s.dentries.modify p fun x => { x with d_hash := x.d_hash.erase d } }

/-- The entry is taken from its directory. -/
def unlisted (s : FS) (f : Nat) : FS := dentry_put (list_del s f) f

section
variable {s : FS} {p d f : Nat}

theorem get_unhashed (s : FS) (p d x : Nat) : (unhashed s p d).dentries.get x = { s.dentries.get x with
    d_hash := if x = p then (s.dentries.get x).d_hash.erase d else (s.dentries.get x).d_hash } := by
  simp only [unhashed, Pool.get_modify]
  split
  · rename_i hx
    rw [hx]
  · rfl

theorem get_unlisted (s : FS) (f n : Nat) : (unlisted s f).initramfs_inodes.get n = { s.initramfs_inodes.get n with
    dentry_count := if n = (s.initramfs_dentries.get f).target_inode then (s.initramfs_inodes.get n).dentry_count - 1
      else (s.initramfs_inodes.get n).dentry_count
    dentry_list_head := (s.initramfs_inodes.get n).dentry_list_head.erase f } := by
  simp only [unlisted, dentry_put, list_del, Pool.get_modify]
  split
  · rename_i hn
    rw [hn]
  · rfl

theorem mem_hash_unhashed {x q : Nat} (hx : x ∈ ((unhashed s p d).dentries.get q).d_hash) :
    x ∈ (s.dentries.get q).d_hash := by
  rw [get_unhashed] at hx
  dsimp only at hx
  split at hx
  · exact List.mem_of_mem_erase hx
  · exact hx

theorem mem_list_unlisted {x n : Nat} (hx : x ∈ ((unlisted s f).initramfs_inodes.get n).dentry_list_head) :
    x ∈ (s.initramfs_inodes.get n).dentry_list_head := by
  rw [get_unlisted] at hx
  exact List.mem_of_mem_erase hx

theorem cached_of_unhashed {x : Nat} (hx : Cached (unhashed s p d) x) : Cached s x :=
  hx.imp id fun ⟨q, hq⟩ => ⟨q, mem_hash_unhashed hq⟩

theorem wf_unhashed (h : Wf s) (p d : Nat) : Wf (unhashed s p d) where
  root_lt := h.root_lt
  root_parent := by
    show ((unhashed s p d).dentries.get s.root_dentry).d_parent = none
    rw [get_unhashed]
    exact h.root_parent
  child := by
    intro q x hx
    obtain ⟨hq, hlt, hparent, hvalid⟩ := h.child q x (mem_hash_unhashed hx)
    refine ⟨hq, hlt, ?_, ?_⟩
    · rw [get_unhashed]
      exact hparent
    · rw [get_unhashed]
      exact hvalid
  bound := by
    intro x hx
    obtain ⟨i, hi, hb⟩ := h.bound x (cached_of_unhashed hx)
    refine ⟨i, ?_, hb⟩
    rw [get_unhashed]
    exact hi
  entry := h.entry

theorem grows_unhashed (s : FS) (p d : Nat) : Grows s (unhashed s p d) none where
  entries_le := Nat.le_refl _
  nodes_le := Nat.le_refl _
  supers_le := Nat.le_refl _
  dentries_le := Nat.le_refl _
  entry _ _ := rfl
  mode _ _ := rfl
  inode _ _ := rfl
  super _ _ := rfl
  fsdata x _ := by rw [get_unhashed]
  d_inode x _ _ := by rw [get_unhashed]
  d_sb x _ _ := by rw [get_unhashed]
  cached _ _ := cached_of_unhashed

theorem tree_unhashed (h : Tree s) (p d : Nat) : Tree (unhashed s p d) := by
  refine h.grow (grows_unhashed s p d) (by simp) (wf_unhashed h.wf p d) (fun q => ?_)
    (fun n => ⟨h.list n, h.list_lt n⟩) h.one_list
    (fun q _ hx => .inl ⟨⟨q, mem_hash_unhashed hx⟩, nofun⟩)
    (fun _ hx => .inl ⟨cached_of_unhashed hx, nofun⟩)
    (fun j hj hle => absurd hj (Nat.not_lt_of_le hle))
  rw [get_unhashed]
  dsimp only
  split
  · exact (h.hash q).erase d
  · exact h.hash q

theorem grows_unlisted (s : FS) (f : Nat) : Grows s (unlisted s f) none where
  entries_le := Nat.le_refl _
  nodes_le := Nat.le_refl _
  supers_le := Nat.le_refl _
  dentries_le := Nat.le_refl _
  entry _ _ := rfl
  mode n _ := by rw [get_unlisted]
  inode _ _ := rfl
  super _ _ := rfl
  fsdata _ _ := rfl
  d_inode _ _ _ := rfl
  d_sb _ _ _ := rfl
  cached _ _ := id

theorem tree_unlisted (h : Tree s) (f : Nat) : Tree (unlisted s f) := by
  have hwf : Wf (unlisted s f) :=
    ⟨h.wf.root_lt, h.wf.root_parent, fun p d hd => ⟨(h.wf.child p d hd).parent_lt, (h.wf.child p d hd).lt,
      (h.wf.child p d hd).parent, (h.wf.child p d hd).valid⟩, h.wf.bound,
      fun n x hx => h.wf.entry n x (mem_list_unlisted hx)⟩
  refine h.grow (grows_unlisted s f) (by simp) hwf h.hash (fun n => ⟨?_, ?_⟩)
    (fun n m x hx hx' => h.one_list n m x (mem_list_unlisted hx) (mem_list_unlisted hx'))
    (fun q _ hx => .inl ⟨⟨q, hx⟩, nofun⟩)
    (fun _ hx => .inl ⟨hx, nofun⟩)
    (fun j hj hle => absurd hj (Nat.not_lt_of_le hle))
  · rw [get_unlisted]
    exact (h.list n).erase f
  · exact fun x hx => h.list_lt n x (mem_list_unlisted hx)

end

/-- In the directory that the entry is in, the file system removes it as it does
where nothing is mounted. -/
theorem unlink_eq {s : VFS} {i j d f : Nat} (h : Tree s.fs) (hf : (s.fs.dentries.get d).d_fsdata = some f)
    (hin : f ∈ (s.fs.initramfs_inodes.get (s.fs.inodes.get j).i_private).dentry_list_head)
    (hsb : sb_words (i_type s i) = sb_words (i_type s j)) :
    initramfs_unlink s i j d = Fs.initramfs_unlink s.fs j d := by
  have hlisted : Listed s.fs f := ⟨_, h.list_lt _ f hin, hin⟩
  have hnodes : (list_del s.fs f).initramfs_inodes =
      s.fs.initramfs_inodes.modify (s.fs.inodes.get j).i_private fun n =>
        { n with dentry_list_head := n.dentry_list_head.erase f } := by
    refine Pool.ext rfl (funext fun n => ?_)
    rw [Pool.get_modify]
    split
    · rename_i hn
      rw [← hn]
      rfl
    · -- An entry is in one list only, so taking it from every list is taking it from this one.
      rename_i hn
      have hout : f ∉ (s.fs.initramfs_inodes.get n).dentry_list_head := fun hmem => hn (h.one_list n _ f hmem hin)
      simp only [list_del, List.erase_of_not_mem hout]
  have hdel : list_del s.fs f = { s.fs with initramfs_inodes := (list_del s.fs f).initramfs_inodes } := rfl
  rw [hnodes] at hdel
  simp only [initramfs_unlink, Fs.initramfs_unlink, hf, initramfs_delete_dentry, Fs.initramfs_delete_dentry, hlisted,
    not_true_eq_false, if_false, Occupied, hsb, decide_true, if_true, hdel]
  split <;> rfl

/-! ## What the code does -/

/-- The ways a removal that returns has gone. -/
inductive Outcome (s : VFS) (d : Nat) : FS → Prop where
  | kept : Outcome s d s.fs
  | unhashed {p f : Nat} : (s.fs.dentries.get d).d_parent = some p → (s.fs.dentries.get d).d_fsdata = some f →
      Occupied s.fs f → Outcome s d (unhashed s.fs p d)
  | removed {i p j f : Nat} : (s.fs.dentries.get d).d_inode = some i →
      ¬((s.fs.inodes.get i).i_mode &&& S_IFMT = S_IFCHR ∨ (s.fs.inodes.get i).i_mode &&& S_IFMT = S_IFBLK) →
      (s.fs.dentries.get d).d_parent = some p → (s.fs.dentries.get p).d_inode = some j →
      (s.fs.dentries.get d).d_fsdata = some f → Listed s.fs f →
      sb_words (i_type s i) = sb_words (i_type s j) →
      Outcome s d (Removal.unhashed (unlisted s.fs f) p d)

section
variable {stray : Bool} {s s' : VFS} {d : Nat} {e : Int}

theorem simple_unlink_some {fs fs' : FS} {p : Nat} (hp : (fs.dentries.get d).d_parent = some p)
    (h : simple_unlink stray fs d = some fs') : stray = true ∧ fs' = unhashed fs p d := by
  simp only [simple_unlink, hp, d_delete] at h
  split at h
  · rename_i hstray
    exact ⟨hstray, (Option.some.inj h).symm⟩
  · cases h

/-- A removal that does something needs the stray accesses to be harmless. -/
theorem remove_outcome (h : __remove_dentry stray s d = some (s', e)) :
    Outcome s d s'.fs ∧ (s'.fs ≠ s.fs → stray = true) := by
  simp only [__remove_dentry, Option.bind_eq_bind, Option.bind_eq_some_iff] at h
  obtain ⟨root, hroot, h⟩ := h
  have hsame : some (s, (-1 : Int)) = some (s', e) → Outcome s d s'.fs ∧ (s'.fs ≠ s.fs → stray = true) := by
    intro heq
    obtain ⟨rfl, -⟩ := Prod.mk.inj (Option.some.inj heq)
    exact ⟨.kept, fun hne => absurd rfl hne⟩
  split at h
  · exact hsame h
  · obtain ⟨i, hi, h⟩ := Option.bind_eq_some_iff.1 h
    split at h
    · exact hsame h
    · rename_i hdevice
      simp only [Option.bind_eq_some_iff] at h
      obtain ⟨p, hp, j, hj, fs₁, hunlink, fs₂, hsimple, hs'⟩ := h
      obtain ⟨rfl, -⟩ := Prod.mk.inj (Option.some.inj hs')
      unfold initramfs_unlink at hunlink
      split at hunlink
      · cases hunlink
      · rename_i f hf
        unfold initramfs_delete_dentry at hunlink
        split at hunlink
        · cases hunlink
        · rename_i hlisted
          split at hunlink
          · -- The entry of an occupied directory is kept, and its dentry is unhashed all the same.
            rename_i hoccupied
            obtain rfl := Option.some.inj hunlink
            obtain ⟨hstray, rfl⟩ := simple_unlink_some hp hsimple
            exact ⟨.unhashed hp hf hoccupied, fun _ => hstray⟩
          · split at hunlink
            · rename_i hsb
              obtain rfl := Option.some.inj hunlink
              obtain ⟨hstray, rfl⟩ := @simple_unlink_some stray d (unlisted s.fs f) _ p hp hsimple
              exact ⟨.removed hi hdevice hp hj hf (not_not.1 hlisted) (by simpa using hsb), fun _ => hstray⟩
            · cases hunlink

/-- Removal keeps the invariant. -/
theorem tree_removed (h : Tree s.fs) (hr : __remove_dentry stray s d = some (s', e)) : Tree s'.fs := by
  have hout := (remove_outcome hr).1
  generalize s'.fs = fs at hout
  cases hout with
  | kept => exact h
  | unhashed => exact tree_unhashed h _ _
  | removed => exact tree_unhashed (tree_unlisted h _) _ _

/-- What the caller sees of it. -/
theorem remove_dentry_found {path : Path} {fs : FS} (hselect : select_file s.fs path 0 = some (fs, .ok d)) :
    remove_dentry stray s path = (__remove_dentry stray { s with fs } d).map fun r => (r.1, 0) := by
  simp only [remove_dentry, hselect, Option.bind_eq_bind, Option.bind_some]
  cases __remove_dentry stray { s with fs } d <;> rfl

end

/-! ## One entry -/

section
variable {s : FS} {p d f : Nat}

/-- A directory whose entry has entries is one below which a name resolves. -/
theorem occupied_refused (h : Wf s) (hl : Linked s d f) (ho : Occupied s f) : Refused s d := by
  obtain ⟨hmode, hne⟩ := ho
  rcases hl.dir hmode with hmount | ⟨hdir, hnode⟩
  · exact .inr (.inl hmount)
  · obtain ⟨g, gs, hlist⟩ := List.exists_cons_of_ne_nil hne
    refine .inr (.inr ⟨hdir, (s.initramfs_dentries.get g).name, ?_⟩)
    rw [resolve]
    cases hlook : d_lookup_dentry s d (s.initramfs_dentries.get g).name with
    | some c =>
      exact Option.isSome_iff_ne_none.1 (resolve_nil_isSome h (.inr ⟨d, (mem_of_d_lookup hlook).1⟩))
    | none =>
      have hfound : initramfs_lookup s (s.initramfs_dentries.get f).target_inode (s.initramfs_dentries.get g).name =
          some g := by
        simp only [initramfs_lookup, ne_eq, hmode, not_true_eq_false, if_false]
        rw [hlist, List.find?_cons_of_pos (by simp)]
      simp [hnode, fs_walk, hfound]

theorem erase_eq_filter {l : List Nat} (h : l.Nodup) (x : Nat) : l.erase x = l.filter (· ≠ x) := by
  rw [h.erase_eq_filter]
  exact List.filter_congr fun y _ => by simp [bne, beq_eq_decide]

/-- Taking the dentry from its parent and the entry from its list is all there
is to it. -/
theorem removed_one (h : Tree s) (hd : d ∈ (s.dentries.get p).d_hash) (hl : Linked s d f) (hlisted : Listed s f) :
    RemovedOne s (unhashed (unlisted s f) p d) d f where
  fsdata := hl.fsdata
  was_cached := ⟨p, hd⟩
  was_listed := hlisted
  dentries := by
    intro x
    have hget : (unlisted s f).dentries.get x = s.dentries.get x := rfl
    rw [get_unhashed, hget]
    split
    · rw [erase_eq_filter (h.hash x)]
    · rename_i hx
      have hout : ∀ y ∈ (s.dentries.get x).d_hash, y ≠ d := by
        rintro y hy rfl
        exact hx (Option.some.inj ((h.wf.child x y hy).parent.symm.trans (h.wf.child p y hd).parent))
      rw [List.filter_eq_self.2 fun y hy => by simpa using hout y hy]
  modes n := by
    show ((unlisted s f).initramfs_inodes.get n).i_mode = _
    rw [get_unlisted]
  lists n := by
    show ((unlisted s f).initramfs_inodes.get n).dentry_list_head = _
    rw [get_unlisted, erase_eq_filter (h.list n)]
  entries := rfl
  inodes := rfl
  supers := rfl
  root := rfl

/-- A state from which something was removed is another one. -/
theorem RemovedOne.unhashed {s' : FS} (h : RemovedOne s s' d f) : ∀ p, d ∉ (s'.dentries.get p).d_hash := by
  intro p
  rw [h.dentries]
  simp

theorem RemovedOne.unlisted {s' : FS} (h : RemovedOne s s' d f) :
    ∀ n, f ∉ (s'.initramfs_inodes.get n).dentry_list_head := by
  intro n
  rw [h.lists]
  simp

end

/-! ## The whole call -/

section
variable {stray : Bool} {s : VFS} {d : Nat} {path : Path}

/-- A dentry that can be removed is. -/
theorem removable_removed (h : Tree s.fs) (hd : Parented s.fs d) (hr : Removable stray s d) :
    ∃ s' f, __remove_dentry stray s d = some (s', 0) ∧ RemovedOne s.fs s'.fs d f := by
  obtain ⟨hroot, hmount⟩ := not_or.1 (not_or.1 hr.not_refused).1
  obtain ⟨p, hp, hmem⟩ := hd.resolve_left hroot
  have hc : Cached s.fs d := .inr ⟨p, hmem⟩
  obtain ⟨f, hl⟩ := h.linked p d hmem
  obtain ⟨i, hi, -⟩ := h.wf.bound d hc
  obtain ⟨j, hj, -⟩ := h.wf.bound p hp
  have hparent := (h.wf.child p d hmem).parent
  have hlisted := hr.entry f hl.fsdata
  have hfree : ¬Occupied s.fs f := fun ho => hr.not_refused (occupied_refused h.wf hl ho)
  have hsb := hr.sb i p j hi hparent hj
  obtain ⟨hchr, hblk⟩ := hr.no_device i hi
  have hstray := hr.stray
  have hs_root : is_s_root stray s.fs d = some false := by
    unfold is_s_root
    cases hsb : (s.fs.dentries.get d).d_sb with
    | none => simp [hstray]
    | some sb => simpa using fun heq => hmount ⟨sb, hsb, heq⟩
  have hunlink : initramfs_unlink s i j d = some (unlisted s.fs f) := by
    simp only [initramfs_unlink, hl.fsdata, initramfs_delete_dentry, not_true_eq_false, hlisted, hfree, hsb,
      decide_true, if_false, if_true]
    rfl
  have hsimple : simple_unlink stray (unlisted s.fs f) d = some (unhashed (unlisted s.fs f) p d) := by
    have hparent' : ((unlisted s.fs f).dentries.get d).d_parent = some p := hparent
    simp only [simple_unlink, hparent', d_delete, hstray, if_true]
    rfl
  refine ⟨{ s with fs := unhashed (unlisted s.fs f) p d }, f, ?_, removed_one h hmem hl hlisted⟩
  simp only [__remove_dentry, hs_root, Option.bind_eq_bind, Option.bind_some, Bool.false_eq_true, if_false, hi, hchr,
    hblk, or_self, hparent, hj, hunlink, hsimple]

/-- A dentry that is not refused and was removed could be. -/
theorem removed_removable {s' : VFS} {f : Nat} {e : Int} (hr : __remove_dentry stray s d = some (s', e))
    (hone : RemovedOne s.fs s'.fs d f) (hne : ¬Refused s.fs d) : Removable stray s d := by
  obtain ⟨hout, hstray⟩ := remove_outcome hr
  have hchanged : s'.fs ≠ s.fs := by
    intro heq
    obtain ⟨p, hp⟩ := hone.was_cached
    exact hone.unhashed p (heq ▸ hp)
  obtain ⟨n, -, hn⟩ := hone.was_listed
  have hgone := hone.unlisted n
  generalize hfs : s'.fs = fs at hout hgone hchanged
  cases hout with
  | kept => exact absurd rfl hchanged
  | unhashed _ _ _ => exact absurd hn hgone
  | removed hi hdevice hp hj hf hlisted hsb =>
    refine ⟨hstray (hfs ▸ hchanged), hne, ?_, ?_, ?_⟩
    · intro k hk
      obtain rfl := Option.some.inj (hi.symm.trans hk)
      exact not_or.1 hdevice
    · intro g hg
      obtain rfl := Option.some.inj (hf.symm.trans hg)
      exact hlisted
    · intro k q l hk hq hl
      obtain rfl := Option.some.inj (hi.symm.trans hk)
      obtain rfl := Option.some.inj (hp.symm.trans hq)
      obtain rfl := Option.some.inj (hj.symm.trans hl)
      exact hsb

end

/-! ## Runs -/

/-- A call that returns, a mount or a removal. -/
inductive Step : FS → FS → Prop where
  | filp_open {s s' : FS} {path : Path} {flags mode : Nat} {r : Except Int Nat} :
      Fs.filp_open s path flags mode = some (s', r) → Step s s'
  | mkdir {s s' : FS} {path : Path} {mode : Nat} {r : Except Int Nat} :
      Fs.mkdir s path mode = some (s', r) → Step s s'
  | sys_mount {s s' : VFS} {types : List Name} {mem : Bool} {word : StrayWord} {dir : Path} {type : Name} {e : Int} :
      Fs.sys_mount types mem word s dir type = some (s', e) → Step s.fs s'.fs
  | remove_dentry {stray : Bool} {s s' : VFS} {path : Path} {e : Int} :
      Removal.remove_dentry stray s path = some (s', e) → Step s.fs s'.fs

theorem tree_root (nul_harms : Name → Bool) : Tree (root_fs nul_harms) := by
  refine ⟨wf_root _, ?_, ?_, ?_, ?_, ?_, ?_, ?_⟩
  · intro p
    rw [root_hash]
    exact List.nodup_nil
  · intro n
    rw [root_list]
    exact List.nodup_nil
  · intro n f hf
    simp [root_list] at hf
  · intro n m f hf
    simp [root_list] at hf
  · intro p d hd
    simp [root_hash] at hd
  · intro d sb hd hsb
    rcases hd with rfl | ⟨p, hp⟩
    · obtain rfl : 0 = sb := Option.some.inj hsb
      exact ⟨Nat.zero_lt_one, .inl rfl⟩
    · simp [root_hash] at hp
  · intro i hi
    obtain rfl : i = 0 := Nat.lt_one_iff.1 hi
    rfl

theorem Step.tree {s s' : FS} (h : Tree s) (hs : Step s s') : Tree s' := by
  cases hs with
  | filp_open hopen => exact tree_steps h (filp_open_returned h.wf hopen).steps
  | mkdir hmkdir => exact tree_steps h (mkdir_returned h.wf hmkdir).steps
  | sys_mount hmount => exact sys_mount_tree h hmount
  | @remove_dentry stray v v' path e hremove =>
    simp only [Removal.remove_dentry, Option.bind_eq_bind, Option.bind_eq_some_iff] at hremove
    obtain ⟨⟨fs, found⟩, hselect, hrest⟩ := hremove
    have htree := tree_steps h (select_file_returned h.wf hselect).steps
    cases found with
    | error e =>
      obtain ⟨rfl, -⟩ := Prod.mk.inj (Option.some.inj hrest)
      exact htree
    | ok d =>
      obtain ⟨⟨v₁, e₁⟩, hinner, hrest⟩ := Option.bind_eq_some_iff.1 hrest
      obtain ⟨rfl, -⟩ := Prod.mk.inj (Option.some.inj hrest)
      exact @tree_removed stray { v with fs } v₁ d e₁ htree hinner

/-- Every state that calls, mounts and removals lead to has the invariant. -/
theorem reachable_tree {nul_harms : Name → Bool} {s : FS} (h : Reachable (· = root_fs nul_harms) Step s) :
    Tree s := by
  refine h.inv Tree ?_ fun _ _ => Step.tree
  rintro _ rfl
  exact tree_root _

/-! ## Removal -/

/-- A removal does what it should exactly when the path leads to something that
can be removed. -/
theorem removes_iff {stray : Bool} {s : VFS} {path : Path} (h : Tree s.fs) :
    Removes stray s path ↔ good_removal stray s path := by
  constructor
  · rintro ⟨hlookup, hr⟩
    refine ⟨hlookup, fun fs d hselect => ?_⟩
    obtain ⟨hrefused, hremoved⟩ := hr fs d hselect
    have hcall := @remove_dentry_found stray s d path fs hselect
    have hne : ¬Refused fs d := by
      intro href
      obtain ⟨e, he, hres⟩ := hrefused href
      rw [hcall, Option.map_eq_some_iff] at hres
      obtain ⟨r, -, hr⟩ := hres
      obtain ⟨-, rfl⟩ := Prod.mk.inj hr
      exact absurd he (by decide)
    obtain ⟨s', f, hres, hone⟩ := hremoved hne
    rw [hcall, Option.map_eq_some_iff] at hres
    obtain ⟨⟨s'', e⟩, hinner, heq⟩ := hres
    obtain ⟨rfl, -⟩ := Prod.mk.inj heq
    exact removed_removable hinner hone hne
  · rintro ⟨hlookup, hr⟩
    refine ⟨hlookup, fun fs d hselect => ?_⟩
    have hgood := hr fs d hselect
    have htree := tree_steps h (select_file_returned h.wf hselect).steps
    refine ⟨fun href => absurd href hgood.not_refused, fun _ => ?_⟩
    obtain ⟨s', f, hinner, hone⟩ := @removable_removed stray { s with fs } d htree
      (select_file_parented h.wf hselect) hgood
    refine ⟨s', f, ?_, hone⟩
    rw [remove_dentry_found hselect, hinner]
    rfl

/-- A file that was opened. -/
theorem removes_file : ∃ s d, filp_open (root_fs fun _ => true) ['/', 'f'] O_CREAT 0o644 = some (s, .ok d) ∧
    Removes true ⟨s, fun _ => [], fun _ => false⟩ ['/', 'f'] := by
  have hopened : (filp_open (root_fs fun _ => true) ['/', 'f'] O_CREAT 0o644).map (fun r => r.2.toOption) = some (some 3) := by decide
  obtain ⟨⟨s, r⟩, hopen, hthree⟩ := Option.map_eq_some_iff.1 hopened
  obtain rfl : r = .ok 3 := by
    cases r with
    | error e => cases hthree
    | ok d => rw [Option.some.inj hthree]
  have htree : Tree s := tree_steps (tree_root _) (filp_open_returned (wf_root _) hopen).steps
  have hselected : (filp_open (root_fs fun _ => true) ['/', 'f'] O_CREAT 0o644).all (fun r => (select_file r.1 ['/', 'f'] 0).all fun q =>
      q.2.toOption.all fun d => d ≠ q.1.root_dentry ∧ (q.1.dentries.get d).d_sb = none ∧
        ((q.1.dentries.get d).d_inode.all fun i => (q.1.inodes.get i).i_mode &&& S_IFMT = S_IFREG) ∧
        ((q.1.dentries.get d).d_fsdata.all fun f => Listed q.1 f)) = true := by decide
  have hcomps : components ['/', 'f'] = [['f']] := by decide
  have hfits : ∀ x ∈ components ['/', 'f'], s.fits x = true := by
    rw [hcomps]
    exact List.forall_mem_singleton.2 rfl
  have hlookup := (select_file_returns htree.wf (by decide)).2 (.of_all hfits)
  refine ⟨s, 3, hopen, (@removes_iff true ⟨s, fun _ => [], fun _ => false⟩ ['/', 'f'] htree).2
    ⟨hlookup, fun fs d hselect => ?_⟩⟩
  have hselect : select_file s ['/', 'f'] 0 = some (fs, .ok d) := hselect
  simp only [hopen, Option.all_some, hselect, Except.toOption, decide_eq_true_eq, Option.all_eq_true] at hselected
  obtain ⟨hroot, hsb, hreg, hlisted⟩ := hselected
  refine ⟨rfl, ?_, ?_, fun f hf => hlisted f hf, fun _ _ _ _ _ _ => rfl⟩
  · rintro ((heq | ⟨sb, hsome, -⟩) | ⟨sb, hsome, -⟩ | ⟨⟨i, hi, hdir⟩, -⟩)
    · exact hroot heq
    · exact Option.some_ne_none sb (hsome.symm.trans hsb)
    · exact Option.some_ne_none sb (hsome.symm.trans hsb)
    · rw [hreg i hi] at hdir
      exact absurd hdir (by decide)
  · intro i hi
    show (fs.inodes.get i).i_mode &&& S_IFMT ≠ S_IFCHR ∧ (fs.inodes.get i).i_mode &&& S_IFMT ≠ S_IFBLK
    rw [hreg i hi]
    exact ⟨by decide, by decide⟩

/-- The root stays, and the caller is told that it was removed. -/
theorem root_removed : ¬∀ (stray : Bool) (s : VFS) (path : Path), Tree s.fs → Removes stray s path := by
  intro h
  have hroot := (h true ⟨root_fs fun _ => false, fun _ => [], fun _ => false⟩ ['/'] (tree_root _)).2 (root_fs _) 0 rfl
  obtain ⟨e, he, hres⟩ := hroot.1 (.inl (.inl rfl))
  have hzero : (remove_dentry true ⟨root_fs fun _ => false, fun _ => [], fun _ => false⟩ ['/']).map Prod.snd = some 0 := by decide
  rw [hres] at hzero
  obtain rfl : e = 0 := Option.some.inj hzero
  exact absurd he (by decide)

end McLinOS.Removal
