import McLinOS.Fs.Path
/-!
# Directory trees

What the operations are for: a tree of directories and files, and what mkdir,
open and remove mean on it.
-/
open CLib

namespace McLinOS.Fs

inductive Kind where
  | dir
  | file
  deriving DecidableEq, Repr

/-- The type bits of a mode. -/
def Kind.type : Kind → Nat
  | .dir => S_IFDIR
  | .file => S_IFREG

/-- The paths below the root with their kinds. -/
abbrev Tree := List (List Name × Kind)

def Tree.kind (t : Tree) (p : List Name) : Option Kind :=
  if p = [] then some .dir else (t.find? fun e => e.1 = p).map (·.2)

/-- A new entry in an existing directory, if there is none of its name. -/
def Tree.create (t : Tree) (p : List Name) (k : Kind) : Tree × Bool :=
  if t.kind p = none ∧ t.kind p.dropLast = some .dir then ((p, k) :: t, true) else (t, false)

/-- Removes a file or an empty directory. -/
def Tree.remove (t : Tree) (p : List Name) : Tree × Bool :=
  if p ≠ [] ∧ ∀ e ∈ t, e.1.dropLast ≠ p then (t.filter fun e => e.1 ≠ p, (t.kind p).isSome)
  else (t, (t.kind p).isSome)

/-- Whether a walk from the existing directory `pre` along `p` comes to a name
that does not fit. -/
def Tree.reaches_unfit (fits : Name → Bool) (t : Tree) : List Name → List Name → Bool
  | _, [] => false
  | pre, name :: p =>
    (t.kind pre).isSome && (!fits name || t.reaches_unfit fits (pre ++ [name]) p)

/-! ## Operations -/

inductive Op where
  | mkdir (path : Path) (mode : Nat)
  | filp_open (path : Path) (flags mode : Nat)
  | remove_dentry (path : Path)
  deriving Repr

def Op.path : Op → Path
  | .mkdir path _ => path
  | .filp_open path _ _ => path
  | .remove_dentry path => path

/-- On the tree: the new tree, and whether the operation succeeds. -/
def spec (t : Tree) : Op → Tree × Bool
  | .mkdir path _ => t.create (components path) .dir
  | .filp_open path flags mode =>
    if (t.kind (components path)).isSome then (t, true)
    else if flags &&& O_CREAT ≠ 0 ∧ (S_IFREG ||| mode) &&& S_IFMT = S_IFREG then t.create (components path) .file
    else (t, false)
  | .remove_dentry path => t.remove (components path)

/-- In the code. -/
def exec (stray : Bool) (s : FS) : Op → Option (FS × Bool)
  | .mkdir path mode => (mkdir s path mode).map fun r => (r.1, r.2.isOk)
  | .filp_open path flags mode => (filp_open s path flags mode).map fun r => (r.1, r.2.isOk)
  | .remove_dentry path => (remove_dentry stray s path).map fun r => (r.1, r.2 = 0)

/-- The condition on an operation, given the tree before it: no name is looked up
that does not fit, mkdir makes no directory, and remove_dentry finds nothing to
remove unless the accesses it makes outside of objects do no harm. -/
def Op.good (stray : Bool) (fits : Name → Bool) (t : Tree) : Op → Prop
  | .mkdir path _ => components path ≠ [] ∧ t.reaches_unfit fits [] (components path).dropLast = false ∧
      (t.kind (components path).dropLast = some .dir →
        (∀ name ∈ (components path).getLast?, fits name = true) ∧ t.kind (components path) ≠ none)
  | .filp_open path _ _ => t.reaches_unfit fits [] (components path) = false
  | .remove_dentry path => t.reaches_unfit fits [] (components path) = false ∧
      (stray = true ∨ components path = [] ∨ t.kind (components path) = none)

instance (stray : Bool) (fits : Name → Bool) (t : Tree) : ∀ op : Op, Decidable (op.good stray fits t)
  | .mkdir _ _ => inferInstanceAs (Decidable (_ ∧ _ ∧ (_ → _)))
  | .filp_open _ _ _ => inferInstanceAs (Decidable (_ = _))
  | .remove_dentry _ => inferInstanceAs (Decidable (_ ∧ _))

/-- Every operation of the run meets its condition. -/
def good_run (stray : Bool) (fits : Name → Bool) : List Op → Tree → Prop
  | [], _ => True
  | op :: ops, t => op.good stray fits t ∧ good_run stray fits ops (spec t op).1

instance decidable_good_run (stray : Bool) (fits : Name → Bool) : ∀ ops t, Decidable (good_run stray fits ops t)
  | [], _ => .isTrue trivial
  | op :: ops, t =>
    have := decidable_good_run stray fits ops (spec t op).1
    inferInstanceAs (Decidable (op.good stray fits t ∧ good_run stray fits ops (spec t op).1))

@[simp] theorem isOk_ok (d : Nat) : (Except.ok d : Except Int Nat).isOk = true := rfl

@[simp] theorem isOk_error (e : Int) : (Except.error e : Except Int Nat).isOk = false := rfl

def spec_run : List Op → Tree → Tree × List Bool
  | [], t => (t, [])
  | op :: ops, t =>
    let r := spec t op
    ((spec_run ops r.1).1, r.2 :: (spec_run ops r.1).2)

def exec_run (stray : Bool) : List Op → FS → Option (FS × List Bool)
  | [], s => some (s, [])
  | op :: ops, s => do
    let (s, b) ← exec stray s op
    let (s, bs) ← exec_run stray ops s
    some (s, b :: bs)

/-! ## Refinement -/

/-- The dentry `d` stands for something of kind `k`, in the VFS inode, in the
initramfs inode behind it, and in the inode initramfs keeps under its name. -/
structure HasKind (s : FS) (d : Nat) (k : Kind) : Prop where
  vfs : ∃ i, (s.dentries.get d).d_inode = some i ∧ (s.inodes.get i).i_mode &&& S_IFMT = k.type ∧
    (s.initramfs_inodes.get (s.inodes.get i).i_private).i_mode &&& S_IFMT = k.type
  initramfs : ∃ f, (s.dentries.get d).d_fsdata = some f ∧
    (s.initramfs_inodes.get (s.initramfs_dentries.get f).target_inode).i_mode &&& S_IFMT = k.type

/-- The initramfs inode a dentry resolves to. -/
def node (s : FS) (d : Nat) : Option Nat := (s.dentries.get d).d_inode.map fun i => (s.inodes.get i).i_private

/-- The file system shows the tree. -/
structure Refines (s : FS) (t : Tree) : Prop where
  resolves : ∀ path, Absolute path → t.reaches_unfit s.fits [] (components path) = false →
    ∃ s' r, select_file s path 0 = some (s', r) ∧ r.isOk = (t.kind (components path)).isSome
  kinds : ∀ path s' d, Absolute path → select_file s path 0 = some (s', .ok d) →
    ∃ k, t.kind (components path) = some k ∧ HasKind s' d k
  injective : ∀ path₁ path₂ s₁ s₂ d₁ d₂, Absolute path₁ → Absolute path₂ → select_file s path₁ 0 = some (s₁, .ok d₁) →
    select_file s path₂ 0 = some (s₂, .ok d₂) → node s₁ d₁ = node s₂ d₂ → components path₁ = components path₂

/-- The run `ops` from the root file system ends, with the results of the tree
and in a state that shows it. -/
def Shows (stray : Bool) (nul_harms : Name → Bool) (ops : List Op) : Prop :=
  ∃ s, exec_run stray ops (root_fs nul_harms) = some (s, (spec_run ops []).2) ∧ Refines s (spec_run ops []).1

end McLinOS.Fs
