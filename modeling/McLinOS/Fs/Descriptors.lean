import Mathlib.Logic.Function.Basic
import McLinOS.CLib.Runs
import McLinOS.Fs.Model
/-!
# File descriptors

`lib/sys/sys_fs.c` over `filp_open`, `f_get` and `f_put`. A `struct file *` is a
32-bit address. What the lookup, the creation, the memory and the driver's
operations give is up to each call.
-/
open CLib Function

namespace McLinOS.Descriptors

def NULL : Nat := 0
def O_ACCMODE : Nat := 3
def O_RDONLY : Nat := 0
def EBADF : Int := 9
def EFAULT : Int := 14
def EMFILE : Int := 24

def IS_ERR (ptr : Nat) : Bool := 2 ^ 32 - 4095 ≤ ptr
def PTR_ERR (ptr : Nat) : Int := (ptr : Int) - 2 ^ 32
def ERR_PTR (error : Int) : Nat := (2 ^ 32 + error).toNat

/-- `opened_by` is the number of the `sys_open` that made the file. -/
structure file where
  f_inode : Nat
  f_pos : Nat
  f_flags : Nat
  f_mode : Nat
  opened_by : Nat
  deriving DecidableEq, Repr

instance : Inhabited file := ⟨⟨0, 0, 0, 0, 0⟩⟩

/-- `files` are the files that are allocated. `opened` has the `sys_open` that
returned a descriptor last, as long as it is not closed. `uses` has, for each
operation on the file of a descriptor, the `sys_open` of the descriptor and the one
of the file. -/
structure State where
  fd_table : Nat → Nat
  files : Nat → Option file
  calls : Nat
  opened : Nat → Option Nat
  uses : List (Option Nat × Option Nat)

/-- What `sys_open` meets: the results of `select_file`, `create_new_dentry` and
`kmalloc`, the inode of the dentry, and the result of the driver's open
operation, if it has one. -/
structure Lookup where
  select_file : Nat
  create_new_dentry : Nat
  kmalloc : Nat
  d_inode : Nat
  open_result : Option Int

/-- What the other calls meet. `f_op` is `none` for a file without operations and
`some none` where its driver lacks this one, else it has the result of the
operation. -/
structure Access where
  kmalloc : Bool
  f_op : Option (Option Int)
  fault : Bool

/-! ## Opening and closing -/

def f_get (env : Lookup) (s : State) : Nat × State :=
  if env.kmalloc = NULL then (ERR_PTR (-Fs.ENOMEM), s)
  else
    let file : file := { f_inode := env.d_inode, f_pos := 0, f_flags := 0, f_mode := 0, opened_by := s.calls }
    (env.kmalloc, { s with files := update s.files env.kmalloc (some file) })

def f_put (file : Nat) (s : State) : State := { s with files := update s.files file none }

/-- The dentry that is found or created, or an error pointer. -/
def open_dentry (env : Lookup) (flags : Nat) : Nat :=
  if IS_ERR env.select_file then
    if PTR_ERR env.select_file = -Fs.ENOENT ∧ flags &&& Fs.O_CREAT ≠ 0 then env.create_new_dentry
    else ERR_PTR (-Fs.ENOENT)
  else env.select_file

def filp_open (env : Lookup) (flags mode : Nat) (s : State) : Nat × State :=
  let file_dentry := open_dentry env flags
  if IS_ERR file_dentry then (file_dentry, s)
  else
    let (file, s) := f_get env s
    if IS_ERR file then (ERR_PTR (-Fs.ENOMEM), s)
    else
      let filled := (s.files file).map fun f => { f with f_pos := 0, f_flags := flags, f_mode := mode }
      let s := { s with files := update s.files file filled }
      if env.open_result.getD 0 < 0 then (NULL, f_put file s) else (file, s)

def filp_close (file : Nat) (s : State) : State := if file = NULL then s else f_put file s

/-! ## The table -/

def install_fd (file : Nat) (s : State) : Int × State :=
  match (List.range 256).find? fun i => s.fd_table i = NULL with
  | some i => (i, { s with fd_table := update s.fd_table i file })
  | none => (-EMFILE, s)

def get_file_from_fd (fd : Nat) (s : State) : Nat := if fd ≥ 256 then NULL else s.fd_table fd

def release_fd (fd : Nat) (s : State) : State :=
  if fd < 256 then { s with fd_table := update s.fd_table fd NULL } else s

def sys_open (env : Lookup) (flags mode : Nat) (s : State) : Int × State :=
  let (filp, s) := filp_open env flags mode s
  if IS_ERR filp then (PTR_ERR filp, s)
  else
    let (fd, s) := install_fd filp s
    if fd < 0 then (fd, filp_close filp s) else (fd, s)

/-! ## Operations -/

/-- The file of the descriptor is used. -/
def use (fd file : Nat) (s : State) : State :=
  { s with uses := (s.opened fd, (s.files file).map (·.opened_by)) :: s.uses }

def kernel_read (env : Access) (file : Nat) : Int := if file = NULL then -1 else env.f_op.join.getD (-EBADF)

def read_only (file : Nat) (s : State) : Prop := ((s.files file).getD default).f_flags &&& O_ACCMODE = O_RDONLY

instance (file : Nat) (s : State) : Decidable (read_only file s) := inferInstanceAs (Decidable (_ = _))

/-- `f_op->write` is called without a test. `none` jumps to the address 0. -/
def kernel_write (env : Access) (file : Nat) (s : State) : Option Int :=
  if file = NULL then some (-1)
  else if read_only file s then some (-EBADF)
  else
    match env.f_op with
    | none => some (-EBADF)
    | some write => write

def vfs_ioctl (env : Access) (file : Nat) (s : State) : Int :=
  if file = NULL then -1 else if read_only file s then -EBADF else env.f_op.join.getD (-EBADF)

def sys_read (env : Access) (fd : Nat) (s : State) : Int × State :=
  let file := get_file_from_fd fd s
  if file = NULL then (-EBADF, s)
  else if env.kmalloc = false then (-Fs.ENOMEM, s)
  else
    let ret := kernel_read env file
    (if ret ≥ 0 ∧ env.fault then -EFAULT else ret, use fd file s)

def sys_write (env : Access) (fd : Nat) (s : State) : Option (Int × State) :=
  let file := get_file_from_fd fd s
  if file = NULL then some (-EBADF, s)
  else if env.kmalloc = false then some (-Fs.ENOMEM, s)
  else if env.fault then some (-EFAULT, s)
  else (kernel_write env file s).map fun ret => (ret, use fd file s)

def sys_ioctl (env : Access) (fd : Nat) (s : State) : Int × State :=
  let file := get_file_from_fd fd s
  if file = NULL then (-EBADF, s) else (vfs_ioctl env file s, use fd file s)

def sys_close (fd : Nat) (s : State) : Int × State :=
  let file := get_file_from_fd fd s
  if file = NULL then (-EBADF, s) else (0, release_fd fd (filp_close file (use fd file s)))

/-! ## Runs -/

inductive Call where
  | sys_open (env : Lookup) (flags mode : Nat)
  | sys_read (env : Access) (fd : Nat)
  | sys_write (env : Access) (fd : Nat)
  | sys_ioctl (env : Access) (fd : Nat)
  | sys_close (fd : Nat)

def call_open (env : Lookup) (flags mode : Nat) (s : State) : Int × State :=
  let (fd, s') := sys_open env flags mode s
  (fd, { s' with calls := s.calls + 1, opened := if fd < 0 then s.opened else update s.opened fd.toNat (some s.calls) })

def call_close (fd : Nat) (s : State) : Int × State :=
  let (ret, s') := sys_close fd s
  (ret, { s' with opened := if ret < 0 then s.opened else update s.opened fd none })

/-- The call, with what it returned kept in `opened`. -/
def call (s : State) : Call → Option (Int × State)
  | .sys_open env flags mode => some (call_open env flags mode s)
  | .sys_read env fd => some (sys_read env fd s)
  | .sys_write env fd => sys_write env fd s
  | .sys_ioctl env fd => some (sys_ioctl env fd s)
  | .sys_close fd => some (call_close fd s)

/-- Pointers have 32 bits, and `kmalloc` gives `NULL` or an address that is not in
use. -/
def Possible (s : State) : Call → Prop
  | .sys_open env _ _ => env.select_file < 2 ^ 32 ∧ env.create_new_dentry < 2 ^ 32 ∧
      (env.kmalloc = NULL ∨ (IS_ERR env.kmalloc = false ∧ s.files env.kmalloc = none))
  | _ => True

/-- The driver's open operation does not fail for a file that was found while a
slot is free, and what is written to has a write operation, or none at all. -/
def served (s : State) : Call → Prop
  | .sys_open env flags _ => IS_ERR (open_dentry env flags) = false → env.kmalloc ≠ NULL →
      (∃ i < 256, s.fd_table i = NULL) → 0 ≤ env.open_result.getD 0
  | .sys_write env fd => get_file_from_fd fd s ≠ NULL → env.kmalloc = true → env.fault = false →
      ¬read_only (get_file_from_fd fd s) s → env.f_op ≠ some none
  | _ => True

def Init (s : State) : Prop :=
  (∀ i, s.fd_table i = NULL) ∧ (∀ a, s.files a = none) ∧ (∀ fd, s.opened fd = none) ∧ s.uses = []

/-- A call that meets the condition. -/
def Step (s s' : State) : Prop := ∃ c, Possible s c ∧ served s c ∧ ∃ ret, call s c = some (ret, s')

/-- Open descriptors denote files of their own, made by the `sys_open` that
returned them, every file has one, and operations used no other file. -/
structure Sound (s : State) : Prop where
  live : ∀ fd n, s.opened fd = some n → fd < 256 ∧ s.fd_table fd ≠ NULL ∧ IS_ERR (s.fd_table fd) = false ∧
    ∃ f, s.files (s.fd_table fd) = some f ∧ f.opened_by = n
  unique : ∀ fd fd', s.opened fd ≠ none → s.opened fd' ≠ none → s.fd_table fd = s.fd_table fd' → fd = fd'
  no_leak : ∀ a, s.files a ≠ none → ∃ fd, s.opened fd ≠ none ∧ s.fd_table fd = a
  uses : ∀ u ∈ s.uses, u.1 ≠ none ∧ u.2 = u.1

/-! ## What the functions do -/

section Functions
variable {s s' : State} {env : Lookup} {flags mode : Nat}

theorem err_ptr_is_err {e : Int} (h : e = Fs.ENOENT ∨ e = Fs.ENOMEM) :
    IS_ERR (ERR_PTR (-e)) = true ∧ PTR_ERR (ERR_PTR (-e)) < 0 := by
  rcases h with rfl | rfl <;> decide

theorem open_dentry_ptr_err (hp : Possible s (.sys_open env flags mode)) (h : IS_ERR (open_dentry env flags) = true) :
    PTR_ERR (open_dentry env flags) < 0 := by
  obtain ⟨-, hcreate, -⟩ := hp
  unfold open_dentry at *
  split at h
  · split at h
    · rename_i hfound hnew
      rw [if_pos hfound, if_pos hnew]
      unfold PTR_ERR
      omega
    · rename_i hfound hnew
      rw [if_pos hfound, if_neg hnew]
      exact (err_ptr_is_err (.inl rfl)).2
  · rename_i hfound
    exact absurd h hfound

/-- An error pointer, `NULL` after the driver has failed, or a new file. -/
theorem filp_open_cases (hp : Possible s (.sys_open env flags mode)) :
    ((IS_ERR (open_dentry env flags) = true ∨ env.kmalloc = NULL) ∧ IS_ERR (filp_open env flags mode s).1 = true ∧
      PTR_ERR (filp_open env flags mode s).1 < 0 ∧ (filp_open env flags mode s).2 = s) ∨
    (IS_ERR (open_dentry env flags) = false ∧ env.kmalloc ≠ NULL ∧ env.open_result.getD 0 < 0 ∧
      filp_open env flags mode s = (NULL, s)) ∨
    (env.kmalloc ≠ NULL ∧ 0 ≤ env.open_result.getD 0 ∧ IS_ERR env.kmalloc = false ∧ s.files env.kmalloc = none ∧
      filp_open env flags mode s =
        (env.kmalloc, { s with files := update s.files env.kmalloc (some ⟨env.d_inode, 0, flags, mode, s.calls⟩) })) := by
  have hnomem := err_ptr_is_err (.inr rfl)
  have hdentry := open_dentry_ptr_err hp
  unfold filp_open
  cases hd : IS_ERR (open_dentry env flags) with
  | true => exact .inl ⟨.inl rfl, by simp [hd], by simpa [hd] using hdentry hd, by simp [hd]⟩
  | false =>
    by_cases hk : env.kmalloc = NULL
    · exact .inl (by simp [hd, f_get, hk, hnomem])
    · obtain ⟨herr, hfree⟩ := hp.2.2.resolve_left hk
      by_cases ho : env.open_result.getD 0 < 0
      · refine .inr (.inl ⟨rfl, hk, ho, ?_⟩)
        simp [hd, f_get, hk, herr, ho, f_put, ← hfree]
      · exact .inr (.inr ⟨hk, by omega, herr, hfree, by simp [hd, f_get, hk, herr, ho]⟩)

/-- The first free slot, or none. -/
theorem install_fd_cases (file : Nat) (s : State) :
    ((∀ i < 256, s.fd_table i ≠ NULL) ∧ install_fd file s = (-EMFILE, s)) ∨
    ∃ i < 256, s.fd_table i = NULL ∧ install_fd file s = ((i : Int), { s with fd_table := update s.fd_table i file }) := by
  unfold install_fd
  cases h : (List.range 256).find? fun i => s.fd_table i = NULL with
  | none => exact .inl ⟨fun i hi => by simpa using List.find?_eq_none.1 h i (List.mem_range.2 hi), rfl⟩
  | some i =>
    exact .inr ⟨i, List.mem_range.1 (List.mem_of_find?_eq_some h), by simpa using List.find?_some h, rfl⟩

theorem filp_close_new {a : Nat} (hne : a ≠ NULL) (hfree : s.files a = none) (f : file) :
    filp_close a { s with files := update s.files a (some f) } = s := by
  rw [filp_close, if_neg hne]
  simp [f_put, ← hfree]

/-- An error, and nothing has changed; a descriptor for a slot that stays free
after the driver has failed; or a new file in a free slot. -/
theorem sys_open_cases (hp : Possible s (.sys_open env flags mode)) :
    (served s (.sys_open env flags mode) ∧ (sys_open env flags mode s).1 < 0 ∧ (sys_open env flags mode s).2 = s) ∨
    (∃ i < 256, s.fd_table i = NULL ∧ ¬served s (.sys_open env flags mode) ∧ sys_open env flags mode s = ((i : Int), s)) ∨
    ∃ i < 256, s.fd_table i = NULL ∧ env.kmalloc ≠ NULL ∧ IS_ERR env.kmalloc = false ∧ s.files env.kmalloc = none ∧
      served s (.sys_open env flags mode) ∧ sys_open env flags mode s = ((i : Int), { s with
        files := update s.files env.kmalloc (some ⟨env.d_inode, 0, flags, mode, s.calls⟩)
        fd_table := update s.fd_table i env.kmalloc }) := by
  have hnull : IS_ERR NULL = false := rfl
  have hfull : 0 < EMFILE := by decide
  unfold sys_open
  rcases filp_open_cases hp with ⟨hnone, herr, hneg, hs⟩ | ⟨hd, hk, ho, heq⟩ | ⟨hk, ho, herr, hfree, heq⟩
  · -- An error pointer or none, as long as there is no file.
    refine .inl ⟨fun hd hk => ?_, by simpa [herr] using hneg, by simpa [herr] using hs⟩
    exact absurd hnone (by simp [hd, hk])
  · rw [heq]
    simp only [hnull, Bool.false_eq_true, if_false]
    rcases install_fd_cases NULL s with ⟨hnone, hfd⟩ | ⟨i, hi, hslot, hfd⟩
    · -- The full table hides that the driver failed.
      refine .inl ⟨fun _ _ ⟨i, hi, hslot⟩ => absurd hslot (hnone i hi), ?_⟩
      simp [hfd, hfull, filp_close]
    · have hsame : update s.fd_table i NULL = s.fd_table := by rw [← hslot, update_eq_self]
      refine .inr (.inl ⟨i, hi, hslot, fun hok => absurd (hok hd hk ⟨i, hi, hslot⟩) (by omega), ?_⟩)
      rw [hfd, hsame]
      simp
  · rw [heq]
    simp only [herr, Bool.false_eq_true, if_false]
    rcases install_fd_cases env.kmalloc
      { s with files := update s.files env.kmalloc (some ⟨env.d_inode, 0, flags, mode, s.calls⟩) } with
      ⟨-, hfd⟩ | ⟨i, hi, hslot, hfd⟩
    · refine .inl ⟨fun _ _ _ => ho, ?_⟩
      simp [hfd, hfull, filp_close_new hk hfree]
    · refine .inr (.inr ⟨i, hi, hslot, hk, trivial, hfree, fun _ _ _ => ho, ?_⟩)
      rw [hfd]
      simp

end Functions

/-! ## Runs -/

section Invariant
variable {s s' : State} {fd : Nat}

/-- The slots of the descriptors that are not open are free. -/
structure Inv (s : State) : Prop extends Sound s where
  free : ∀ fd, s.opened fd = none → s.fd_table fd = NULL

theorem Init.inv (h : Init s) : Inv s := by
  obtain ⟨htable, hfiles, hopened, huses⟩ := h
  exact { live := fun fd n hn => by simp [hopened] at hn
          unique := fun fd fd' hn => absurd (hopened fd) hn
          no_leak := fun a ha => absurd (hfiles a) ha
          uses := by simp [huses]
          free := fun fd _ => htable fd }

/-- A descriptor that has a file is open. -/
theorem Inv.file (h : Inv s) (hf : get_file_from_fd fd s ≠ NULL) : ∃ n f, s.opened fd = some n ∧
    get_file_from_fd fd s = s.fd_table fd ∧ s.files (s.fd_table fd) = some f ∧ f.opened_by = n := by
  unfold get_file_from_fd at *
  split at hf
  · exact absurd rfl hf
  · rename_i hlt
    rw [if_neg hlt]
    cases ho : s.opened fd with
    | none => exact absurd (h.free fd ho) hf
    | some n =>
      obtain ⟨-, -, -, f, hfile, hby⟩ := h.live fd n ho
      exact ⟨n, f, rfl, rfl, hfile, hby⟩

theorem inv_use (h : Inv s) (hf : get_file_from_fd fd s ≠ NULL) : Inv (use fd (get_file_from_fd fd s) s) := by
  obtain ⟨n, f, ho, heq, hfile, hby⟩ := h.file hf
  refine { live := h.live, unique := h.unique, no_leak := h.no_leak, free := h.free, uses := ?_ }
  refine List.forall_mem_cons.2 ⟨?_, h.uses⟩
  rw [ho, heq, hfile]
  simp [hby]

theorem inv_sys_read (h : Inv s) (env : Access) : Inv (sys_read env fd s).2 := by
  unfold sys_read
  dsimp only
  split_ifs with hf hk
  · exact h
  · exact h
  all_goals exact inv_use h hf

/-- The state is as before, or the file was used. -/
theorem sys_write_state {env : Access} {ret : Int} (hw : sys_write env fd s = some (ret, s')) :
    s' = s ∨ (get_file_from_fd fd s ≠ NULL ∧ s' = use fd (get_file_from_fd fd s) s) := by
  unfold sys_write at hw
  dsimp only at hw
  split_ifs at hw with hf hk hfault
  · exact .inl (Prod.mk.inj (Option.some.inj hw)).2.symm
  · exact .inl (Prod.mk.inj (Option.some.inj hw)).2.symm
  · exact .inl (Prod.mk.inj (Option.some.inj hw)).2.symm
  · obtain ⟨_, -, heq⟩ := Option.map_eq_some_iff.1 hw
    exact .inr ⟨hf, (Prod.mk.inj heq).2.symm⟩

theorem inv_sys_write {env : Access} {ret : Int} (h : Inv s) (hw : sys_write env fd s = some (ret, s')) : Inv s' := by
  rcases sys_write_state hw with rfl | ⟨hf, rfl⟩
  · exact h
  · exact inv_use h hf

/-- A write that is not served does not return. -/
theorem sys_write_lost {env : Access} (hbad : ¬served s (.sys_write env fd)) : sys_write env fd s = none := by
  simp only [served, Classical.not_imp, ne_eq, not_not] at hbad
  obtain ⟨hf, hk, hfault, hmode, hop⟩ := hbad
  simp [sys_write, kernel_write, hf, hk, hfault, hmode, hop]

theorem inv_sys_ioctl (h : Inv s) (env : Access) : Inv (sys_ioctl env fd s).2 := by
  unfold sys_ioctl
  dsimp only
  split_ifs with hf
  · exact h
  · exact inv_use h hf

/-- The state after an open descriptor was closed. -/
def closed (fd : Nat) (s : State) : State :=
  { s with
    files := update s.files (s.fd_table fd) none
    fd_table := update s.fd_table fd NULL
    opened := update s.opened fd none }

theorem sys_close_eq (h : Inv s) (hf : get_file_from_fd fd s ≠ NULL) :
    (call_close fd s).2 = closed fd (use fd (get_file_from_fd fd s) s) := by
  obtain ⟨n, f, ho, heq, -, -⟩ := h.file hf
  have hlt := (h.live fd n ho).1
  rw [heq] at hf
  simp [call_close, sys_close, heq, hf, filp_close, f_put, release_fd, hlt, closed, use]

theorem inv_closed {n : Nat} (h : Inv s) (ho : s.opened fd = some n) : Inv (closed fd s) := by
  have hkeep : ∀ fd', (closed fd s).opened fd' ≠ none → fd' ≠ fd ∧ (closed fd s).opened fd' = s.opened fd' ∧
      (closed fd s).fd_table fd' = s.fd_table fd' := by
    intro fd' hn'
    have hne : fd' ≠ fd := by
      rintro rfl
      exact hn' (update_self ..)
    exact ⟨hne, update_of_ne hne .., update_of_ne hne ..⟩
  refine { live := fun fd' n' hn' => ?_, unique := fun fd₁ fd₂ h₁ h₂ he => ?_, no_leak := fun a ha => ?_,
           uses := h.uses, free := fun fd' hn' => ?_ }
  · obtain ⟨hne, hopen, hslot⟩ := hkeep fd' (by simp [hn'])
    rw [hopen] at hn'
    have hother : s.fd_table fd' ≠ s.fd_table fd := fun he => hne (h.unique fd' fd (by simp [hn']) (by simp [ho]) he)
    have hfile : (closed fd s).files (s.fd_table fd') = s.files (s.fd_table fd') := update_of_ne hother ..
    rw [hslot, hfile]
    exact h.live fd' n' hn'
  · obtain ⟨-, hopen₁, hslot₁⟩ := hkeep fd₁ h₁
    obtain ⟨-, hopen₂, hslot₂⟩ := hkeep fd₂ h₂
    rw [hslot₁, hslot₂] at he
    exact h.unique fd₁ fd₂ (hopen₁ ▸ h₁) (hopen₂ ▸ h₂) he
  · have hne : a ≠ s.fd_table fd := by
      rintro rfl
      exact ha (update_self ..)
    have hfile : (closed fd s).files a = s.files a := update_of_ne hne ..
    obtain ⟨fd', ho', hslot⟩ := h.no_leak a (hfile ▸ ha)
    have hfd : fd' ≠ fd := by
      rintro rfl
      exact hne hslot.symm
    exact ⟨fd', (update_of_ne hfd ..).trans_ne ho', (update_of_ne hfd ..).trans hslot⟩
  · by_cases he : fd' = fd
    · rw [he]
      exact update_self ..
    · have hopen : (closed fd s).opened fd' = s.opened fd' := update_of_ne he ..
      exact (update_of_ne he ..).trans (h.free fd' (hopen.symm.trans hn'))

theorem inv_sys_close (h : Inv s) : Inv (call_close fd s).2 := by
  by_cases hf : get_file_from_fd fd s = NULL
  · have hret : 0 < EBADF := by decide
    simpa [call_close, sys_close, hf, hret] using h
  · obtain ⟨n, f, ho, -, -, -⟩ := h.file hf
    rw [sys_close_eq h hf]
    exact inv_closed (inv_use h hf) ho

/-- The state after a file was opened at `a` and put in slot `i`. -/
def installed (i a : Nat) (f : file) (s : State) : State :=
  { s with
    files := update s.files a (some f)
    fd_table := update s.fd_table i a
    calls := s.calls + 1
    opened := update s.opened i (some s.calls) }

theorem inv_installed {i a : Nat} {f : file} (h : Inv s) (hi : i < 256) (hslot : s.fd_table i = NULL) (hne : a ≠ NULL)
    (herr : IS_ERR a = false) (hfree : s.files a = none) (hby : f.opened_by = s.calls) : Inv (installed i a f s) := by
  have hold : ∀ fd n, s.opened fd = some n → fd ≠ i ∧ s.fd_table fd ≠ a := by
    intro fd n ho
    obtain ⟨-, hnull, -, g, hg, -⟩ := h.live fd n ho
    refine ⟨fun he => hnull (he ▸ hslot), fun he => ?_⟩
    rw [he, hfree] at hg
    cases hg
  have hkeep : ∀ fd, fd ≠ i → (installed i a f s).opened fd = s.opened fd ∧
      (installed i a f s).fd_table fd = s.fd_table fd := fun fd hfd => ⟨update_of_ne hfd .., update_of_ne hfd ..⟩
  have hnew : (installed i a f s).fd_table i = a := update_self ..
  -- Another open descriptor has another file.
  have hapart : ∀ fd, fd ≠ i → (installed i a f s).opened fd ≠ none → (installed i a f s).fd_table fd ≠ a := by
    intro fd hfd ho
    rw [(hkeep fd hfd).1] at ho
    rw [(hkeep fd hfd).2]
    obtain ⟨n, ho⟩ := Option.ne_none_iff_exists'.1 ho
    exact (hold fd n ho).2
  refine { live := fun fd n ho => ?_, unique := fun fd₁ fd₂ h₁ h₂ he => ?_, no_leak := fun b hb => ?_,
           uses := h.uses, free := fun fd ho => ?_ }
  · by_cases hfd : fd = i
    · subst hfd
      have hopen : (installed fd a f s).opened fd = some s.calls := update_self ..
      obtain rfl : s.calls = n := Option.some.inj (hopen.symm.trans ho)
      rw [hnew]
      exact ⟨hi, hne, herr, f, update_self .., hby⟩
    · have hother := hapart fd hfd (by simp [ho])
      obtain ⟨hopen, hsame⟩ := hkeep fd hfd
      rw [hsame] at hother ⊢
      have hfile : (installed i a f s).files (s.fd_table fd) = s.files (s.fd_table fd) := update_of_ne hother ..
      rw [hfile]
      exact h.live fd n (hopen ▸ ho)
  · by_cases hfd₁ : fd₁ = i <;> by_cases hfd₂ : fd₂ = i
    · rw [hfd₁, hfd₂]
    · rw [hfd₁, hnew] at he
      exact absurd he.symm (hapart fd₂ hfd₂ h₂)
    · rw [hfd₂, hnew] at he
      exact absurd he (hapart fd₁ hfd₁ h₁)
    · obtain ⟨hopen₁, hsame₁⟩ := hkeep fd₁ hfd₁
      obtain ⟨hopen₂, hsame₂⟩ := hkeep fd₂ hfd₂
      rw [hsame₁, hsame₂] at he
      exact h.unique fd₁ fd₂ (hopen₁ ▸ h₁) (hopen₂ ▸ h₂) he
  · by_cases hba : b = a
    · refine ⟨i, ?_, hnew.trans hba.symm⟩
      exact (update_self ..).trans_ne (Option.some_ne_none _)
    · have hfile : (installed i a f s).files b = s.files b := update_of_ne hba ..
      obtain ⟨fd, ho, hslot'⟩ := h.no_leak b (hfile ▸ hb)
      obtain ⟨n, hn⟩ := Option.ne_none_iff_exists'.1 ho
      obtain ⟨hopen, hsame⟩ := hkeep fd (hold fd n hn).1
      exact ⟨fd, hopen.trans_ne ho, hsame.trans hslot'⟩
  · have hfd : fd ≠ i := by
      rintro rfl
      have hopen : (installed fd a f s).opened fd = some s.calls := update_self ..
      exact Option.some_ne_none _ (hopen.symm.trans ho)
    obtain ⟨hopen, hsame⟩ := hkeep fd hfd
    exact hsame.trans (h.free fd (hopen.symm.trans ho))

theorem Inv.count_call (h : Inv s) : Inv { s with calls := s.calls + 1 } :=
  { live := h.live, unique := h.unique, no_leak := h.no_leak, uses := h.uses, free := h.free }

theorem inv_sys_open {env : Lookup} {flags mode : Nat} (h : Inv s) (hp : Possible s (.sys_open env flags mode))
    (hok : served s (.sys_open env flags mode)) : Inv (call_open env flags mode s).2 := by
  rcases sys_open_cases hp with ⟨-, hneg, hs⟩ | ⟨-, -, -, hbad, -⟩ | ⟨i, hi, hslot, hne, herr, hfree, -, heq⟩
  · simp only [call_open, hneg, if_true, hs]
    exact h.count_call
  · exact absurd hok hbad
  · have hcall : (call_open env flags mode s).2 = installed i env.kmalloc ⟨env.d_inode, 0, flags, mode, s.calls⟩ s := by
      simp [call_open, heq, installed]
    rw [hcall]
    exact inv_installed h hi hslot hne herr hfree rfl

theorem step_inv (h : Inv s) (hs : Step s s') : Inv s' := by
  obtain ⟨c, hp, hok, ret, hcall⟩ := hs
  cases c with
  | sys_open env flags mode =>
    obtain rfl := congrArg Prod.snd (Option.some.inj hcall)
    exact inv_sys_open h hp hok
  | sys_read env fd =>
    obtain rfl := congrArg Prod.snd (Option.some.inj hcall)
    exact inv_sys_read h env
  | sys_write env fd => exact inv_sys_write h hcall
  | sys_ioctl env fd =>
    obtain rfl := congrArg Prod.snd (Option.some.inj hcall)
    exact inv_sys_ioctl h env
  | sys_close fd =>
    obtain rfl := congrArg Prod.snd (Option.some.inj hcall)
    exact inv_sys_close h

/-- A descriptor was returned for a free slot, or the write does not return. -/
theorem unserved_unsound {c : Call} {ret : Int} (hp : Possible s c) (hbad : ¬served s c) (hcall : call s c = some (ret, s')) :
    ¬Sound s' := by
  cases c with
  | sys_open env flags mode =>
    obtain rfl := congrArg Prod.snd (Option.some.inj hcall)
    rcases sys_open_cases hp with ⟨hok, -⟩ | ⟨i, -, hslot, -, heq⟩ | ⟨-, -, -, -, -, -, hok, -⟩
    · exact absurd hok hbad
    · intro hsound
      have hnat : ¬(i : Int) < 0 := by omega
      have hopen : (call_open env flags mode s).2.opened i = some s.calls := by simp [call_open, heq, hnat]
      have htable : (call_open env flags mode s).2.fd_table = s.fd_table := by simp [call_open, heq]
      have hnull := (hsound.live i _ hopen).2.1
      rw [htable] at hnull
      exact hnull hslot
    · exact absurd hok hbad
  | sys_write env fd => exact absurd (hcall.symm.trans (sys_write_lost hbad)) (Option.some_ne_none _)
  | sys_read env fd => exact absurd trivial hbad
  | sys_ioctl env fd => exact absurd trivial hbad
  | sys_close fd => exact absurd trivial hbad

/-- While no driver's open operation fails and none lacks the write operation it is
asked for, every run is sound, and a `sys_open` that gives an error leaves table and
files alone. Where an open operation fails and a slot is free, a descriptor without
a file is returned, and a write without its operation does not return. -/
theorem descriptors_sound (h : Reachable Init Step s) : Sound s ∧
    (∀ env flags mode, Possible s (.sys_open env flags mode) → (sys_open env flags mode s).1 < 0 →
      (call_open env flags mode s).2 = { s with calls := s.calls + 1 }) ∧
    ∀ c, Possible s c → ¬served s c → ¬∃ ret s', call s c = some (ret, s') ∧ Sound s' := by
  have hi : Inv s := h.inv Inv (fun _ h0 => h0.inv) fun _ _ hi hs => step_inv hi hs
  refine ⟨hi.toSound, fun env flags mode hp hret => ?_, fun c hp hbad ⟨ret, s', hcall, hsound⟩ => ?_⟩
  · rcases sys_open_cases hp with ⟨-, -, hs⟩ | ⟨i, -, -, -, heq⟩ | ⟨i, -, -, -, -, -, -, heq⟩
    · simp [call_open, hret, hs]
    · rw [heq] at hret
      exact absurd hret (Int.not_lt.2 (Int.natCast_nonneg i))
    · rw [heq] at hret
      exact absurd hret (Int.not_lt.2 (Int.natCast_nonneg i))
  · exact unserved_unsound hp hbad hcall hsound

end Invariant

/-- No file is open. -/
def no_files : State := { fd_table := fun _ => NULL, files := fun _ => none, calls := 0, opened := fun _ => none, uses := [] }

/-- A file that is there, with memory for the `struct file` at `kmalloc`. -/
def found (kmalloc : Nat) (open_result : Int) : Lookup :=
  { select_file := 0x20000000, create_new_dentry := NULL, kmalloc, d_inode := 0, open_result := some open_result }

/-- Two files are opened, the first is written to and closed and its slot used again. -/
theorem descriptors_sound_reuse : ∃ s, s.opened 0 = some 2 ∧ s.opened 1 = some 1 ∧ Sound s := by
  have h0 : Reachable Init Step no_files := .start ⟨fun _ => rfl, fun _ => rfl, fun _ => rfl, rfl⟩
  have h1 := h0.next ⟨.sys_open (found 0x20001000 0) 2 0, ⟨by decide, by decide, .inr (by decide)⟩,
    fun _ _ _ => by decide, _, rfl⟩
  have h2 := h1.next ⟨.sys_open (found 0x20002000 0) 2 0, ⟨by decide, by decide, .inr (by decide)⟩,
    fun _ _ _ => by decide, _, rfl⟩
  have h3 := h2.next ⟨.sys_write ⟨true, some (some 4), false⟩ 0, trivial, fun _ _ _ _ => by decide, _, rfl⟩
  have h4 := h3.next ⟨.sys_close 0, trivial, trivial, _, rfl⟩
  have h5 := h4.next ⟨.sys_open (found 0x20001000 0) 2 0, ⟨by decide, by decide, .inr (by decide)⟩,
    fun _ _ _ => by decide, _, rfl⟩
  exact ⟨_, by decide, by decide, (descriptors_sound h5).1⟩

/-- The driver fails to open the first file, and descriptor 0 is returned. -/
theorem failed_open_returns_null :
    ¬∀ (s : State) (c : Call) (ret : Int) (s' : State), Init s → Possible s c → call s c = some (ret, s') → Sound s' := by
  intro h
  have hs := h no_files (.sys_open (found 0x20001000 (-5)) 2 0) _ _ ⟨fun _ => rfl, fun _ => rfl, fun _ => rfl, rfl⟩
    ⟨by decide, by decide, .inr (by decide)⟩ rfl
  exact absurd ((hs.live 0 0 (by decide)).2.1) (by decide)

end McLinOS.Descriptors
