import Mathlib.Data.List.Pairwise
import McLinOS.Fs.Tree
/-!
# File systems without subdirectories

As long as no directory is made, the root holds files only. Each file has a
cached dentry, a VFS inode, an initramfs dentry and an initramfs inode, and the
dentry cache and initramfs list them in the same order.
-/
open CLib

namespace McLinOS.Fs

/-- The objects of one file in the root directory. -/
structure Entry where
  name : Name
  mode : Nat
  dentry : Nat
  inode : Nat
  file : Nat
  node : Nat

structure EntryOk (s : FS) (e : Entry) : Prop where
  dentry_eq : s.dentries.get e.dentry =
    { d_hash := [], d_parent := some 0, d_name := e.name, d_inode := some e.inode, d_sb := none, d_fsdata := some e.file }
  inode_eq : s.inodes.get e.inode = { i_mode := e.mode, i_sb := none, i_private := e.node }
  file_eq : s.initramfs_dentries.get e.file = { name := e.name, target_inode := e.node }
  node_eq : s.initramfs_inodes.get e.node = { i_mode := e.mode, dentry_count := 1, dentry_list_head := [] }
  regular : e.mode &&& S_IFMT = S_IFREG
  named : s.fits e.name = true
  dentry_lt : 0 < e.dentry ∧ e.dentry < s.dentries.next
  inode_lt : 0 < e.inode ∧ e.inode < s.inodes.next
  file_lt : 0 < e.file ∧ e.file < s.initramfs_dentries.next
  node_lt : 0 < e.node ∧ e.node < s.initramfs_inodes.next

/-- No two files share a name or an object. -/
def Apart (e e' : Entry) : Prop := e.name ≠ e'.name ∧ e.dentry ≠ e'.dentry ∧ e.file ≠ e'.file ∧ e.node ≠ e'.node

def root_mode : Nat := S_IFDIR ||| 0o755

structure Flat (s : FS) (es : List Entry) : Prop where
  root_dentry : s.root_dentry = 0
  super : s.supers.get 0 = { s_root := 0 }
  dentry_eq : s.dentries.get 0 =
    { d_hash := es.map (·.dentry), d_parent := none, d_name := ['r', 'o', 'o', 't'], d_inode := some 0, d_sb := some 0,
      d_fsdata := some 0 }
  inode_eq : s.inodes.get 0 = { i_mode := root_mode, i_sb := none, i_private := 0 }
  file_eq : s.initramfs_dentries.get 0 = { name := [], target_inode := 0 }
  node_eq : s.initramfs_inodes.get 0 = { i_mode := root_mode, dentry_count := 1, dentry_list_head := es.map (·.file) }
  pos : 0 < s.dentries.next ∧ 0 < s.inodes.next ∧ 0 < s.initramfs_dentries.next ∧ 0 < s.initramfs_inodes.next
  entries : ∀ e ∈ es, EntryOk s e
  apart : es.Pairwise Apart

/-- The tree of such a file system. -/
def tree (es : List Entry) : Tree := es.map fun e => ([e.name], .file)

theorem tree_kind (es : List Entry) (p : List Name) : (tree es).kind p =
    if p = [] then some .dir else if ∃ e ∈ es, p = [e.name] then some .file else none := by
  unfold Tree.kind
  by_cases hp : p = []
  · simp [hp]
  · rw [if_neg hp, if_neg hp, tree, List.find?_map]
    cases hf : es.find? ((fun e => decide (e.1 = p)) ∘ fun e : Entry => ([e.name], Kind.file)) with
    | none =>
      have hno : ¬∃ e ∈ es, p = [e.name] := by
        rintro ⟨e, he, rfl⟩
        simpa using List.find?_eq_none.1 hf e he
      simp [hno]
    | some e =>
      have he := List.mem_of_find?_eq_some hf
      have hpe := List.find?_some hf
      simp only [Function.comp_apply, decide_eq_true_eq] at hpe
      simp [hpe.symm, (⟨e, he, rfl⟩ : ∃ e' ∈ es, e.name = e'.name)]

theorem flat_root (nul_harms : Name → Bool) : Flat (root_fs nul_harms) [] := by
  constructor <;> first | rfl | simp [root_fs, Pool.empty]

section
variable {s : FS} {es : List Entry}

instance : Std.Symm Apart := ⟨fun _ _ h => ⟨h.1.symm, h.2.1.symm, h.2.2.1.symm, h.2.2.2.symm⟩⟩

/-- Two files of one file system are the same or apart. -/
theorem Flat.eq_or_apart (h : Flat s es) {e e' : Entry} (he : e ∈ es) (he' : e' ∈ es) : e = e' ∨ Apart e e' := by
  by_cases hee : e = e'
  · exact .inl hee
  · exact .inr (h.apart.forall he he' hee)

/-- A dentry that was allocated and dropped again changes nothing. -/
theorem EntryOk.garbage {e : Entry} (h : EntryOk s e) (d : dentry) :
    EntryOk { s with dentries := s.dentries.alloc d } e where
  dentry_eq := by
    show (s.dentries.alloc d).get e.dentry = _
    rw [Pool.get_alloc_lt h.dentry_lt.2, h.dentry_eq]
  inode_eq := h.inode_eq
  file_eq := h.file_eq
  node_eq := h.node_eq
  regular := h.regular
  named := h.named
  dentry_lt := ⟨h.dentry_lt.1, Nat.lt_succ_of_lt h.dentry_lt.2⟩
  inode_lt := h.inode_lt
  file_lt := h.file_lt
  node_lt := h.node_lt

theorem Flat.garbage (h : Flat s es) (d : dentry) : Flat { s with dentries := s.dentries.alloc d } es where
  root_dentry := h.root_dentry
  super := h.super
  dentry_eq := by
    show (s.dentries.alloc d).get 0 = _
    rw [Pool.get_alloc_lt h.pos.1, h.dentry_eq]
  inode_eq := h.inode_eq
  file_eq := h.file_eq
  node_eq := h.node_eq
  pos := ⟨Nat.succ_pos _, h.pos.2⟩
  entries := fun e he => (h.entries e he).garbage d
  apart := h.apart

/-! ## Lookups -/

theorem find?_name (g : Entry → Nat) (name_of : Nat → Name) (h : ∀ e ∈ es, name_of (g e) = e.name) (name : Name) :
    (es.map g).find? (fun i => name_of i = name) = (es.find? fun e => e.name = name).map g := by
  induction es with
  | nil => rfl
  | cons e es ih =>
    have he := h e (by simp)
    have hes := ih fun e' he' => h e' (by simp [he'])
    by_cases hn : e.name = name
    · simp [he, hn]
    · simp [he, hn, hes]

theorem Flat.find?_some (h : Flat s es) {e : Entry} (he : e ∈ es) : es.find? (fun e' => e'.name = e.name) = some e := by
  cases hf : es.find? (fun e' => decide (e'.name = e.name)) with
  | none => simpa using List.find?_eq_none.1 hf e he
  | some e' =>
    have hname : e'.name = e.name := by simpa using List.find?_some hf
    rcases h.eq_or_apart (List.mem_of_find?_eq_some hf) he with rfl | hap
    · rfl
    · exact absurd hname hap.1

theorem find?_none {name : Name} (h : ∀ e ∈ es, e.name ≠ name) : es.find? (fun e => e.name = name) = none :=
  List.find?_eq_none.2 fun e he => by simpa using h e he

theorem Flat.d_lookup (h : Flat s es) (name : Name) :
    d_lookup_dentry s 0 name = (es.find? fun e => e.name = name).map (·.dentry) := by
  unfold d_lookup_dentry
  rw [h.dentry_eq]
  exact find?_name _ (fun d => (s.dentries.get d).d_name) (fun e he => by rw [(h.entries e he).dentry_eq]) name

theorem Flat.lookup (h : Flat s es) (name : Name) :
    initramfs_lookup s 0 name = (es.find? fun e => e.name = name).map (·.file) := by
  unfold initramfs_lookup
  rw [h.node_eq]
  dsimp only
  rw [if_neg (by decide)]
  exact find?_name _ (fun f => (s.initramfs_dentries.get f).name) (fun e he => by rw [(h.entries e he).file_eq]) name

/-- initramfs finds nothing in a file. -/
theorem EntryOk.lookup {e : Entry} (h : EntryOk s e) (name : Name) : initramfs_lookup s e.node name = none := by
  have hdir : e.mode &&& S_IFMT ≠ S_IFDIR := by
    rw [h.regular]
    decide
  simp [initramfs_lookup, h.node_eq, hdir]

/-- A file in the root directory is served by the cache. -/
theorem Flat.find_root (h : Flat s es) {e : Entry} (he : e ∈ es) : find_dentry s 0 e.name = some (s, .ok e.dentry) := by
  simp only [find_dentry, h.d_lookup, h.find?_some he, Option.map_some]

/-- The state with a dentry that `find_dentry` allocated in vain. -/
def dropped (s : FS) (dir : Nat) (name : Name) : FS :=
  { s with dentries := s.dentries.alloc (new_dentry dir name (s.dentries.get dir).d_sb) }

theorem find_dentry_none {dir i : Nat} {name : Name} (hfit : s.fits name = true) (hcache : d_lookup_dentry s dir name = none)
    (hi : ((dropped s dir name).dentries.get dir).d_inode = some i)
    (hlook : initramfs_lookup (dropped s dir name) (s.inodes.get i).i_private name = none) :
    find_dentry s dir name = some (dropped s dir name, .error (-ENOENT)) := by
  have hname : ((dropped s dir name).dentries.get s.dentries.next).d_name = name := by
    simp [dropped, Pool.get_alloc, new_dentry]
  simp only [dropped] at hi hlook hname
  simp only [find_dentry, hcache, d_alloc, if_pos hfit, dropped, Option.bind_eq_bind, Option.bind_some, hi,
    initramfs_vfs_lookup, hname, hlook]

theorem flat_dropped (h : Flat s es) (dir : Nat) (name : Name) : Flat (dropped s dir name) es := h.garbage _

/-- Any other name gets a dentry, which is dropped when initramfs does not
know it either. -/
theorem Flat.find_root_none (h : Flat s es) {name : Name} (hfit : s.fits name = true) (hno : ∀ e ∈ es, e.name ≠ name) :
    find_dentry s 0 name = some (dropped s 0 name, .error (-ENOENT)) := by
  have hd := flat_dropped h 0 name
  refine find_dentry_none (i := 0) hfit ?_ (by rw [hd.dentry_eq]) ?_
  · rw [h.d_lookup, find?_none hno, Option.map_none]
  · rw [h.inode_eq]
    dsimp only
    rw [hd.lookup, find?_none hno, Option.map_none]

/-- Below a file there is nothing. -/
theorem Flat.find_file (h : Flat s es) {e : Entry} (he : e ∈ es) {name : Name} (hfit : s.fits name = true) :
    find_dentry s e.dentry name = some (dropped s e.dentry name, .error (-ENOENT)) := by
  have hd := (flat_dropped h e.dentry name).entries e he
  refine find_dentry_none (i := e.inode) hfit ?_ (by rw [hd.dentry_eq]) ?_
  · simp [d_lookup_dentry, (h.entries e he).dentry_eq]
  · rw [(h.entries e he).inode_eq]
    exact hd.lookup name

/-! ## Walks -/

/-- The loop of `select_file` on the names of a path. -/
def walk : FS → Nat → List Name → Option (FS × Except Int Nat)
  | s, d, [] => some (s, .ok d)
  | s, d, name :: names => do
    let (s, found) ← find_dentry s d name
    match found with
    | .error e => some (s, .error e)
    | .ok d => walk s d names

theorem select_from_walk {path : Path} (h : Absolute path) (s : FS) (d i k : Nat)
    (hk : i + k ≤ (components path).length) :
    select_from path s d (i + 1) k = walk s d (((components path).drop i).take k) := by
  induction k generalizing s d i with
  | zero => simp [select_from, walk]
  | succ k ih =>
    have hi : i < (components path).length := by omega
    rw [List.drop_eq_getElem_cons hi, List.take_succ_cons, select_from, walk, file_name_components h hi]
    simp only [Option.bind_eq_bind, Option.bind_some]
    congr 1
    funext r
    rcases r with ⟨s', e | d'⟩
    · rfl
    · exact ih s' d' (i + 1) (by omega)

/-- `select_file` walks along the components, less the last `offset` ones. -/
theorem select_file_walk {path : Path} (h : Absolute path) (s : FS) (offset : Nat) :
    select_file s path offset = walk s s.root_dentry ((components path).take ((components path).length - offset)) := by
  unfold select_file
  by_cases hroot : path = ['/']
  · rw [if_pos hroot, (components_nil h).2 hroot, List.take_nil, walk]
  · rw [if_neg hroot, get_dir_number_components, select_from_walk h s _ 0 _ (by omega), List.drop_zero]

theorem tree_kind_file {e : Entry} (he : e ∈ es) : (tree es).kind [e.name] = some .file := by
  rw [tree_kind, if_neg (List.cons_ne_nil _ _), if_pos ⟨e, he, rfl⟩]

theorem tree_kind_none {p : List Name} (hp : p ≠ []) (hno : ∀ e ∈ es, p ≠ [e.name]) : (tree es).kind p = none := by
  rw [tree_kind, if_neg hp, if_neg]
  rintro ⟨e, he, rfl⟩
  exact hno e he rfl

/-- A walk from the root ends there, at a file, or with `-ENOENT`. -/
theorem Flat.walk (h : Flat s es) {p : List Name} (hp : (tree es).reaches_unfit s.fits [] p = false) :
    (p = [] ∧ walk s 0 p = some (s, .ok 0)) ∨
      (∃ e ∈ es, p = [e.name] ∧ walk s 0 p = some (s, .ok e.dentry)) ∨
      (p ≠ [] ∧ (∀ e ∈ es, p ≠ [e.name]) ∧
        ∃ s', walk s 0 p = some (s', .error (-ENOENT)) ∧ Flat s' es ∧ s'.nul_harms = s.nul_harms) := by
  rcases p with _ | ⟨name, p⟩
  · exact .inl ⟨rfl, rfl⟩
  simp only [Tree.reaches_unfit, Tree.kind, if_true, Option.isSome_some, Bool.true_and, Bool.or_eq_false_iff,
    Bool.not_eq_false', List.nil_append] at hp
  obtain ⟨hname, hp⟩ := hp
  by_cases hfile : ∃ e ∈ es, e.name = name
  · obtain ⟨e, he, rfl⟩ := hfile
    have hfirst := h.find_root he
    rcases p with _ | ⟨name, p⟩
    · refine .inr (.inl ⟨e, he, rfl, ?_⟩)
      simp [Fs.walk, hfirst]
    · simp only [Tree.reaches_unfit, tree_kind_file he, Option.isSome_some, Bool.true_and, Bool.or_eq_false_iff,
        Bool.not_eq_false'] at hp
      refine .inr (.inr ⟨by simp, by simp, dropped s e.dentry name, ?_, flat_dropped h _ _, rfl⟩)
      simp [Fs.walk, hfirst, h.find_file he hp.1]
  · have hno : ∀ e ∈ es, e.name ≠ name := fun e he hn => hfile ⟨e, he, hn⟩
    refine .inr (.inr ⟨by simp, ?_, dropped s 0 name, ?_, flat_dropped h _ _, rfl⟩)
    · rintro e he hpe
      exact hno e he (List.cons.inj hpe).1.symm
    · simp [Fs.walk, h.find_root_none hname hno]

theorem fits_congr {s' : FS} (h : s'.nul_harms = s.nul_harms) : s'.fits = s.fits := by
  funext x
  simp only [FS.fits, h]

/-- A name that does not fit and is not cached gets no dentry. -/
theorem find_dentry_unfit {dir : Nat} {name : Name} (hfit : s.fits name = false)
    (hcache : d_lookup_dentry s dir name = none) : find_dentry s dir name = none := by
  simp [find_dentry, hcache, d_alloc, hfit]

/-- The files' names fit. -/
theorem Flat.unfit_uncached (h : Flat s es) {name : Name} (hfit : s.fits name = false) :
    d_lookup_dentry s 0 name = none := by
  have hno : ∀ e ∈ es, e.name ≠ name := by
    rintro e he rfl
    simp [(h.entries e he).named] at hfit
  rw [h.d_lookup, find?_none hno, Option.map_none]

/-- A walk that comes to a name that does not fit does not end. -/
theorem Flat.walk_unfit (h : Flat s es) {p : List Name} (hp : (tree es).reaches_unfit s.fits [] p = true) :
    Fs.walk s 0 p = none := by
  rcases p with _ | ⟨name, p⟩
  · simp [Tree.reaches_unfit] at hp
  cases hname : s.fits name with
  | false => simp [Fs.walk, find_dentry_unfit hname (h.unfit_uncached hname)]
  | true =>
  simp only [Tree.reaches_unfit, Bool.and_eq_true, Bool.or_eq_true, hname, Bool.not_true, Bool.false_eq_true,
    false_or, List.nil_append] at hp
  obtain ⟨-, hp⟩ := hp
  rcases p with _ | ⟨name', p⟩
  · simp [Tree.reaches_unfit] at hp
  simp only [Tree.reaches_unfit, Bool.and_eq_true, Bool.or_eq_true, Bool.not_eq_true', List.cons_append,
    List.nil_append] at hp
  obtain ⟨hfile, hp⟩ := hp
  obtain ⟨e, he, rfl⟩ : ∃ e ∈ es, e.name = name := by
    by_contra hno
    rw [tree_kind_none (by simp) fun e he hpe => hno ⟨e, he, (List.cons.inj hpe).1.symm⟩] at hfile
    simp at hfile
  have hunfit : s.fits name' = false := by
    refine hp.resolve_right fun hp => ?_
    rcases p with _ | ⟨name'', p⟩
    · simp [Tree.reaches_unfit] at hp
    · simp [Tree.reaches_unfit, tree_kind] at hp
  have hcache : d_lookup_dentry s e.dentry name' = none := by simp [d_lookup_dentry, (h.entries e he).dentry_eq]
  simp [Fs.walk, h.find_root he, find_dentry_unfit hunfit hcache]

theorem Flat.select_file (h : Flat s es) {path : Path} (habs : Absolute path) (offset : Nat) :
    select_file s path offset = Fs.walk s 0 ((components path).take ((components path).length - offset)) := by
  rw [select_file_walk habs, h.root_dentry]

end

end McLinOS.Fs
