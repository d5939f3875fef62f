import Mathlib.Logic.Relation
import McLinOS.Fs.PathBuffers
/-!
# Names in their buffers

A copy fits exactly if the name is shorter than the buffer. `select_file` follows
the components until one is not found, so the condition is about those up to it.
`create_path_and_file` takes the same components off the path one by one.
-/
open CLib

set_option linter.style.nameCheck false

namespace McLinOS.PathBuffers

open Fs (Name Path ENOENT ENOTDIR O_CREAT get_dir_number components drop_trailing)

/-! ## Copying -/

section Copy
variable {b : Buffer Char} {path : Path} {name : Name} {j n : Nat}

theorem write_fits (h : j < b.size) (c : Char) :
    write b j c = .ok ⟨b.size, Function.update b.cells j (some c)⟩ := by
  rw [write, b.write_eq h]

theorem write_overflow (h : b.size ≤ j) (c : Char) : write b j c = .error .overflow := by
  rw [write, b.write_none h]

/-- The `NUL` behind the name. -/
theorem close_fits (h : j < b.size) : ∃ b', write b j NUL = .ok b' ∧ b'.size = b.size ∧
    (∀ i < j, b'.cells i = b.cells i) ∧ b'.Holds j [NUL] :=
  ⟨_, write_fits h NUL, rfl, fun _ hi => Function.update_of_ne (by omega) _ _,
    Buffer.holds_cons.2 ⟨Function.update_self _ _ _, .nil⟩⟩

theorem takeWhile_slash {c : Char} (hc : c ≠ '/') (path : Path) :
    (c :: path).takeWhile (· ≠ '/') = c :: path.takeWhile (· ≠ '/') := List.takeWhile_cons_of_pos (by simpa using hc)

theorem copy_name_fits (h : j + (path.takeWhile (· ≠ '/')).length < b.size) :
    ∃ b', copy_name b path j = .ok b' ∧ b'.size = b.size ∧ (∀ i < j, b'.cells i = b.cells i) ∧
      b'.Holds j (path.takeWhile (· ≠ '/') ++ [NUL]) := by
  induction path generalizing b j with
  | nil => exact close_fits (by simpa using h)
  | cons c path ih =>
    have hj : j < b.size := by omega
    rw [copy_name, write_fits hj]
    by_cases hc : c = '/'
    · subst hc
      obtain ⟨b', hw, hsize, hkept, hholds⟩ := @close_fits ⟨b.size, Function.update b.cells j (some '/')⟩ j hj
      exact ⟨b', hw, hsize, fun i hi => (hkept i hi).trans (Function.update_of_ne (by omega) _ _), by simpa using hholds⟩
    · rw [takeWhile_slash hc] at h ⊢
      rw [List.length_cons] at h
      obtain ⟨b', hw, hsize, hkept, hholds⟩ := @ih ⟨b.size, Function.update b.cells j (some c)⟩ (j + 1) (by
        show _ < b.size
        omega)
      refine ⟨b', (if_neg hc).trans hw, hsize, ?_, Buffer.holds_cons.2 ⟨?_, hholds⟩⟩
      · intro i hi
        exact (hkept i (by omega)).trans (Function.update_of_ne (by omega) _ _)
      · exact (hkept j (by omega)).trans (Function.update_self _ _ _)

theorem copy_name_overflow (hj : j ≤ b.size) (h : b.size ≤ j + (path.takeWhile (· ≠ '/')).length) :
    copy_name b path j = .error .overflow := by
  induction path generalizing b j with
  | nil => exact write_overflow (by simpa using h) NUL
  | cons c path ih =>
    rw [copy_name]
    by_cases hlt : j < b.size
    · have hc : c ≠ '/' := by
        rintro rfl
        simp at h
        omega
      rw [takeWhile_slash hc, List.length_cons] at h
      rw [write_fits hlt]
      refine (if_neg hc).trans (ih hlt ?_)
      show b.size ≤ _
      omega
    · rw [write_overflow (by omega)]
      rfl

theorem name_of_holds {b : Buffer Char} (h : b.Holds 0 (name ++ [NUL])) (hname : NUL ∉ name) (hsize : name.length < b.size) :
    name_of b = .ok name := by
  rw [name_of, h.string hname hsize]

/-- `get_dir_name` copies the text that its number finds. -/
theorem get_dir_name_from_eq (b : Buffer Char) (n : Nat) (path : Path) (j : Nat) :
    match Fs.get_dir_name path j n with
    | none => get_dir_name_from b n path j = .ok (b, -1)
    | some name => ∃ rest, rest <:+ path ∧ name = rest.takeWhile (· ≠ '/') ∧
        get_dir_name_from b n path j = (copy_name b rest 0).map fun b => (b, 0) := by
  induction path generalizing j with
  | nil => rfl
  | cons c path ih =>
    rw [Fs.get_dir_name, get_dir_name_from]
    by_cases hn : (if c = '/' then j + 1 else j) = n
    · rw [if_pos hn, if_pos hn]
      exact ⟨path, List.suffix_cons c path, rfl, rfl⟩
    · rw [if_neg hn, if_neg hn]
      have hrest := ih (if c = '/' then j + 1 else j)
      generalize Fs.get_dir_name path _ n = o at hrest ⊢
      cases o with
      | none => exact hrest
      | some name =>
        obtain ⟨rest, hsuf, hname, heq⟩ := hrest
        exact ⟨rest, hsuf.trans (List.suffix_cons c path), hname, heq⟩

theorem get_dir_name_none (h : Fs.get_dir_name path 0 n = none) : get_dir_name path b n = .ok (b, -1) := by
  have := get_dir_name_from_eq b n path 0
  rwa [h] at this

theorem get_dir_name_fits (hpath : NUL ∉ path) (h : Fs.get_dir_name path 0 n = some name) (hfit : name.length < b.size) :
    ∃ b', get_dir_name path b n = .ok (b', 0) ∧ b'.size = b.size ∧ b'.string NUL = some name ∧ name_of b' = .ok name := by
  have heq := get_dir_name_from_eq b n path 0
  rw [h] at heq
  obtain ⟨rest, hsuf, rfl, heq⟩ := heq
  obtain ⟨b', hcopy, hsize, -, hholds⟩ := @copy_name_fits b rest 0 (by simpa using hfit)
  have hname : NUL ∉ rest.takeWhile (· ≠ '/') := fun hm => hpath (hsuf.subset (List.takeWhile_subset _ hm))
  refine ⟨b', ?_, hsize, hholds.string hname (hsize ▸ hfit), name_of_holds hholds hname (hsize ▸ hfit)⟩
  rw [get_dir_name, heq, hcopy]
  rfl

theorem get_dir_name_overflow (h : Fs.get_dir_name path 0 n = some name) (hlong : b.size ≤ name.length) :
    get_dir_name path b n = .error .overflow := by
  have heq := get_dir_name_from_eq b n path 0
  rw [h] at heq
  obtain ⟨rest, -, rfl, heq⟩ := heq
  rw [get_dir_name, heq, copy_name_overflow (Nat.zero_le _) (by simpa using hlong)]
  rfl

end Copy

/-! ## The walk of `select_file` -/

/-- The components that `select_file` follows. -/
def names (path : Path) (offset : Nat) : List Name := (components path).take ((components path).length - offset)

/-- The name that `create_new_dentry` gives: the last component. In a path without
one it is the text behind the first byte, if that is no slash. -/
def last_text (path : Path) : Option Name :=
  match (components path).getLast? with
  | some name => some name
  | none =>
    match path with
    | [] => none
    | c :: rest => if c = '/' then none else some (rest.takeWhile (· ≠ '/'))

section Walk
variable {S : Type} (fs : FileSystem S)

/-- The dentries on the way, up to the first name that is not found. -/
def walk : S → Nat → List Name → S × Except Int Nat
  | s, d, [] => (s, .ok d)
  | s, d, name :: names =>
    match fs.find_dentry s d name with
    | (s, .error e) => (s, .error e)
    | (s, .ok d) => walk s d names

/-- The names that are looked up fit into the buffer. -/
def Fits : S → Nat → List Name → Prop
  | _, _, [] => True
  | s, d, name :: names => name.length < 128 ∧
    match fs.find_dentry s d name with
    | (_, .error _) => True
    | (s, .ok d) => Fits s d names

/-- Names were looked up, and nothing else. -/
def Looked : S → S → Prop := Relation.ReflTransGen fun s s' => ∃ d name, s' = (fs.find_dentry s d name).1

variable {fs} {path : Path} {s : S} {d : Nat} {b : Buffer Char}

theorem walk_looked (s : S) (d : Nat) (xs : List Name) : Looked fs s (walk fs s d xs).1 := by
  induction xs generalizing s d with
  | nil => exact .refl
  | cons name xs ih =>
    have hstep : Looked fs s (fs.find_dentry s d name).1 := .single ⟨d, name, rfl⟩
    rw [walk]
    generalize fs.find_dentry s d name = r at hstep ⊢
    obtain ⟨s₁, e | d₁⟩ := r
    · exact hstep
    · exact hstep.trans (ih s₁ d₁)

/-- A walk to the end has looked at every name. -/
theorem Fits.all {xs : List Name} {s' : S} {d' : Nat} (h : Fits fs s d xs) (hw : walk fs s d xs = (s', .ok d')) :
    ∀ name ∈ xs, name.length < 128 := by
  induction xs generalizing s d with
  | nil => simp
  | cons name xs ih =>
    obtain ⟨hlen, hrest⟩ := h
    rw [walk] at hw
    generalize fs.find_dentry s d name = r at hrest hw
    obtain ⟨s₁, e | d₁⟩ := r
    · cases hw
    · exact List.forall_mem_cons.2 ⟨hlen, ih hrest hw⟩

/-- The loop does what the walk does, as long as the names fit. -/
theorem select_from_eq (hpath : NUL ∉ path) {i k : Nat} (hk : i + k ≤ (components path).length) (hb : b.size = 128)
    (s : S) (d : Nat) : (Fits fs s d (((components path).drop i).take k) →
      select_from fs path s d b (i + 1) k = .ok (walk fs s d (((components path).drop i).take k))) ∧
    (¬Fits fs s d (((components path).drop i).take k) → select_from fs path s d b (i + 1) k = .error .overflow) := by
  induction k generalizing i s d b with
  | zero => exact ⟨fun _ => rfl, fun h => absurd trivial h⟩
  | succ k ih =>
    have hi : i < (components path).length := by omega
    have hname := Fs.get_dir_name_components hi
    rw [List.drop_eq_getElem_cons hi, List.take_succ_cons, Fits, walk, select_from]
    by_cases hlen : (components path)[i].length < 128
    · obtain ⟨b', hget, hsize, -, hof⟩ := get_dir_name_fits hpath hname (hb ▸ hlen)
      rw [hget]
      show (_ → (name_of b' >>= _) = _) ∧ (_ → (name_of b' >>= _) = _)
      rw [hof]
      show (_ → (match fs.find_dentry s d (components path)[i] with | (s, .error e) => _ | (s, .ok d) => _) = _) ∧
        (_ → (match fs.find_dentry s d (components path)[i] with | (s, .error e) => _ | (s, .ok d) => _) = _)
      generalize fs.find_dentry s d (components path)[i] = r
      obtain ⟨s₁, e | d₁⟩ := r
      · exact ⟨fun _ => rfl, fun h => absurd ⟨hlen, trivial⟩ h⟩
      · obtain ⟨h1, h2⟩ := @ih b' (i + 1) (by omega) (hsize.trans hb) s₁ d₁
        exact ⟨fun h => h1 h.2, fun h => h2 fun hrest => h ⟨hlen, hrest⟩⟩
    · rw [get_dir_name_overflow hname (by omega)]
      exact ⟨fun h => absurd h.1 hlen, fun _ => rfl⟩

/-- "/" has no components, so the test for it changes nothing. -/
theorem select_file_eq (hpath : NUL ∉ path) (s : S) (offset : Nat) :
    (Fits fs s (fs.root_dentry s) (names path offset) →
      select_file fs s path offset = .ok (walk fs s (fs.root_dentry s) (names path offset))) ∧
    (¬Fits fs s (fs.root_dentry s) (names path offset) → select_file fs s path offset = .error .overflow) := by
  unfold select_file
  split
  · rename_i hroot
    have hnil : names path offset = [] := by simp [hroot, names, components, Fs.splitOn_slash, drop_trailing]
    rw [hnil]
    exact ⟨fun _ => rfl, fun h => absurd trivial h⟩
  · rw [Fs.get_dir_number_components]
    exact @select_from_eq _ _ _ (.fresh 128) hpath 0 _ (by omega) rfl s _

/-! ## The calls -/

/-- The name behind the last slash. -/
theorem last_text_eq (path : Path) : Fs.get_dir_name path 0 (get_dir_number path) = last_text path := by
  rw [Fs.get_dir_number_components]
  unfold last_text
  by_cases hnil : components path = []
  · rw [hnil]
    have hnone : ∀ (path : Path) (j : Nat), 0 < j → Fs.get_dir_name path j 0 = none := by
      intro path
      induction path with
      | nil => exact fun _ _ => rfl
      | cons c path ih =>
        intro j hj
        rw [Fs.get_dir_name]
        by_cases hc : c = '/'
        · simp only [hc, if_true, Nat.add_one_ne_zero, if_false, ih _ (Nat.succ_pos j)]
        · simp only [hc, if_false, hj.ne', ih j hj]
    rcases path with _ | ⟨c, path⟩
    · rfl
    · by_cases hc : c = '/'
      · simp [Fs.get_dir_name, hc, hnone path 1]
      · simp [Fs.get_dir_name, hc]
  · have hlen := List.length_pos_iff.2 hnil
    obtain ⟨n, hn⟩ : ∃ n, (components path).length = n + 1 := ⟨_, (Nat.succ_pred_eq_of_pos hlen).symm⟩
    rw [List.getLast?_eq_getElem?, hn, Fs.get_dir_name_components (show n < _ by omega), Nat.add_sub_cancel,
      List.getElem?_eq_getElem]

/-- The text to be named fits, if there is one. -/
def LastFits (path : Path) : Prop := ∃ name, last_text path = some name ∧ name.length < 128

variable (fs) in
/-- When `create_new_dentry` does right by its buffers: every component up to the
first one before the last that is not found fits, and in a directory also the name. -/
def CreateFits (s : S) (path : Path) : Prop :=
  Fits fs s (fs.root_dentry s) (names path 1) ∧
    match walk fs s (fs.root_dentry s) (names path 1) with
    | (s, .ok p_dentry) => fs.S_ISDIR s p_dentry = true → LastFits path
    | (_, .error _) => True

/-- Some component does not fit into the buffer. -/
def TooLong (path : Path) : Prop := ∃ name ∈ components path, 128 ≤ name.length

variable (fs) in
/-- The call stays in its buffers and uses what it has written. If a component is
too long it fails, having looked up names only. -/
def Safe {α : Type} (s : S) (path : Path) (failed : α → Prop) (r : Except Harm (S × α)) : Prop :=
  ∃ s' a, r = .ok (s', a) ∧ (TooLong path → failed a ∧ Looked fs s s')

/-- A dentry was returned as an error pointer. -/
def IsErr (r : Except Int Nat) : Prop := ∃ e, r = .error e

theorem names_all (path : Path) : names path 0 = components path := List.take_length

/-- With all components but the last one and the name, all fit. -/
theorem not_tooLong (hinit : ∀ name ∈ names path 1, name.length < 128) (hlast : LastFits path) : ¬TooLong path := by
  rintro ⟨name, hm, hlong⟩
  have hne : components path ≠ [] := List.ne_nil_of_mem hm
  obtain ⟨last, hlast, hfit⟩ := hlast
  unfold last_text at hlast
  rw [List.getLast?_eq_some_getLast hne] at hlast
  obtain rfl := Option.some.inj hlast
  rw [names, ← List.dropLast_eq_take] at hinit
  rw [← List.dropLast_concat_getLast hne] at hm
  rcases List.mem_append.1 hm with hm | hm
  · exact absurd (hinit name hm) (by omega)
  · obtain rfl := List.mem_singleton.1 hm
    omega

/-- `create_new_dentry` behind its `select_file`. -/
theorem create_eq (hpath : NUL ∉ path) (s : S) (i_mode : Nat) :
    (¬Fits fs s (fs.root_dentry s) (names path 1) → create_new_dentry fs s path i_mode = .error .overflow) ∧
    (Fits fs s (fs.root_dentry s) (names path 1) → create_new_dentry fs s path i_mode =
      match walk fs s (fs.root_dentry s) (names path 1) with
      | (s', .error _) => .ok (s', .error (-ENOENT))
      | (s', .ok p_dentry) =>
        if fs.S_ISDIR s' p_dentry = false then .ok (s', .error (-ENOTDIR))
        else
          match last_text path with
          | none => .error .uninitialised
          | some name => if name.length < 128 then .ok (fs.create_dentry s' p_dentry name i_mode) else .error .overflow) := by
  obtain ⟨hselect, hover⟩ := @select_file_eq _ fs path hpath s 1
  refine ⟨?_, ?_⟩
  · intro h
    rw [create_new_dentry, hover h]
    rfl
  · intro h
    rw [create_new_dentry, hselect h]
    show (match walk fs s _ _ with | (s, .error _) => _ | (s, .ok p_dentry) => _) = _
    generalize walk fs s (fs.root_dentry s) (names path 1) = r
    obtain ⟨s₁, e | p⟩ := r
    · rfl
    · have hlast := last_text_eq path
      dsimp only
      congr 1
      cases hname : last_text path with
      | none =>
        -- There is no name, and the buffer is used as it is.
        rw [get_dir_name_none (hlast.trans hname)]
        rfl
      | some name =>
        dsimp only
        split
        · rename_i hlen
          obtain ⟨b', hget, -, -, hof⟩ := @get_dir_name_fits (.fresh 128) _ _ _ hpath (hlast.trans hname) hlen
          rw [hget]
          show (name_of b' >>= _) = _
          rw [hof]
          rfl
        · rw [get_dir_name_overflow (hlast.trans hname) (show 128 ≤ _ by omega)]
          rfl

theorem create_fits {i_mode : Nat} {r : S × Except Int Nat} (hpath : NUL ∉ path)
    (h : create_new_dentry fs s path i_mode = .ok r) : CreateFits fs s path := by
  obtain ⟨hover, heq⟩ := @create_eq _ fs path hpath s i_mode
  by_cases hfits : Fits fs s (fs.root_dentry s) (names path 1)
  · refine ⟨hfits, ?_⟩
    rw [heq hfits] at h
    generalize walk fs s (fs.root_dentry s) (names path 1) = r₁ at h ⊢
    obtain ⟨s₁, e | p⟩ := r₁
    · trivial
    · intro hdir
      dsimp only at h
      rw [if_neg (by simp [hdir])] at h
      cases hname : last_text path with
      | none =>
        rw [hname] at h
        cases h
      | some name =>
        by_cases hlen : name.length < 128
        · exact ⟨name, hname, hlen⟩
        · simp only [hname, if_neg hlen] at h
          cases h
  · rw [hover hfits] at h
    cases h

theorem create_safe (hpath : NUL ∉ path) (h : CreateFits fs s path) (i_mode : Nat) :
    Safe fs s path IsErr (create_new_dentry fs s path i_mode) := by
  obtain ⟨hfits, hlast⟩ := h
  have hlooked := @walk_looked _ fs s (fs.root_dentry s) (names path 1)
  have hall := fun s' d' => @Fits.all _ fs s (fs.root_dentry s) (names path 1) s' d' hfits
  rw [(create_eq hpath s i_mode).2 hfits]
  generalize walk fs s (fs.root_dentry s) (names path 1) = r at hlooked hall hlast ⊢
  obtain ⟨s₁, e | p⟩ := r
  · exact ⟨s₁, _, rfl, fun _ => ⟨⟨_, rfl⟩, hlooked⟩⟩
  · dsimp only at hlast ⊢
    split
    · exact ⟨s₁, _, rfl, fun _ => ⟨⟨_, rfl⟩, hlooked⟩⟩
    · rename_i hdir
      have hfit := hlast (by simpa using hdir)
      obtain ⟨name, hname, hlen⟩ := id hfit
      rw [hname]
      exact ⟨_, _, if_pos hlen, fun hlong => absurd hlong (not_tooLong (hall s₁ p rfl) hfit)⟩

/-- The result of `select_file` fits, and with a component that is too long it is an
error. -/
theorem select_long {xs : List Name} (hfits : Fits fs s d xs) (hxs : xs = components path) (hlong : TooLong path) :
    IsErr (walk fs s d xs).2 := by
  obtain ⟨name, hm, hlen⟩ := hlong
  have hall := fun s' d' => @Fits.all _ fs s d xs s' d' hfits
  generalize walk fs s d xs = r at hall ⊢
  obtain ⟨s₁, e | d₁⟩ := r
  · exact ⟨e, rfl⟩
  · exact absurd (hall s₁ d₁ rfl name (hxs ▸ hm)) (by omega)

/-- What is done with a dentry that was found is safe in any case. -/
theorem select_safe {α : Type} {failed : α → Prop} (hpath : NUL ∉ path) (s : S)
    (k : S × Except Int Nat → Except Harm (S × α)) (hok : ∀ s' d', ∃ r, k (s', .ok d') = .ok r)
    (herr : ∀ s' e, ∃ a, k (s', .error e) = .ok (s', a) ∧ failed a) :
    Safe fs s path failed (select_file fs s path 0 >>= k) ↔ Fits fs s (fs.root_dentry s) (names path 0) := by
  obtain ⟨hselect, hover⟩ := @select_file_eq _ fs path hpath s 0
  by_cases hfits : Fits fs s (fs.root_dentry s) (names path 0)
  · have hlooked := @walk_looked _ fs s (fs.root_dentry s) (names path 0)
    have hlong := select_long hfits (names_all path)
    rw [hselect hfits]
    show Safe fs s path failed (k (walk fs s _ _)) ↔ _
    refine iff_of_true ?_ hfits
    generalize walk fs s (fs.root_dentry s) (names path 0) = r at hlooked hlong ⊢
    obtain ⟨s₁, e | d₁⟩ := r
    · obtain ⟨a, ha, hfail⟩ := herr s₁ e
      exact ⟨s₁, a, ha, fun _ => ⟨hfail, hlooked⟩⟩
    · obtain ⟨⟨s', a⟩, ha⟩ := hok s₁ d₁
      refine ⟨s', a, ha, fun h => ?_⟩
      obtain ⟨e, he⟩ := hlong h
      cases he
  · refine iff_of_false ?_ hfits
    rintro ⟨s', a, hr, -⟩
    rw [hover hfits] at hr
    cases hr

/-- A call with a path from outside. -/
inductive Call where
  | filp_open (flags mode : Nat)
  | mkdir (mode : Nat)
  | remove_dentry
  | sys_mount (known : Bool)

variable (fs) in
def CallSafe (s : S) (path : Path) : Call → Prop
  | .filp_open flags mode => Safe fs s path IsErr (filp_open fs s path flags mode)
  | .mkdir mode => Safe fs s path IsErr (mkdir fs s path mode)
  | .remove_dentry => Safe fs s path (· < 0) (remove_dentry fs s path)
  | .sys_mount known => Safe fs s path (· < 0) (sys_mount fs known s path)

variable (fs) in
/-- The components fit that the call gets to. `mkdir`, and `filp_open` where it
creates, also need a name that fits. -/
def CallFits (s : S) (path : Path) : Call → Prop
  | .filp_open flags _ => Fits fs s (fs.root_dentry s) (names path 0) ∧
    match walk fs s (fs.root_dentry s) (names path 0) with
    | (s', .error e) => e = -ENOENT ∧ flags &&& O_CREAT ≠ 0 → CreateFits fs s' path
    | (_, .ok _) => True
  | .mkdir _ => CreateFits fs s path
  | .remove_dentry => Fits fs s (fs.root_dentry s) (names path 0)
  | .sys_mount known => known = true → Fits fs s (fs.root_dentry s) (names path 0)

theorem open_safe (hpath : NUL ∉ path) (s : S) (flags mode : Nat) :
    CallSafe fs s path (.filp_open flags mode) ↔ CallFits fs s path (.filp_open flags mode) := by
  obtain ⟨hselect, hover⟩ := @select_file_eq _ fs path hpath s 0
  unfold CallSafe CallFits filp_open
  by_cases hfits : Fits fs s (fs.root_dentry s) (names path 0)
  · have hlooked := @walk_looked _ fs s (fs.root_dentry s) (names path 0)
    have hlong := select_long hfits (names_all path)
    rw [hselect hfits]
    show Safe fs s path IsErr (match walk fs s _ _ with | (s, .ok d) => _ | (s, .error e) => _) ↔ _
    generalize walk fs s (fs.root_dentry s) (names path 0) = r at hlooked hlong ⊢
    obtain ⟨s₁, e | d₁⟩ := r
    · dsimp only
      by_cases hcreat : e = -ENOENT ∧ flags &&& O_CREAT ≠ 0
      · rw [if_pos hcreat]
        constructor
        · rintro ⟨s', a, hr, -⟩
          exact ⟨hfits, fun _ => create_fits hpath hr⟩
        · rintro ⟨-, hfit⟩
          obtain ⟨s', a, hr, hsafe⟩ := create_safe hpath (hfit hcreat) (Fs.S_IFREG ||| mode)
          exact ⟨s', a, hr, fun h => ⟨(hsafe h).1, hlooked.trans (hsafe h).2⟩⟩
      · rw [if_neg hcreat]
        exact iff_of_true ⟨s₁, _, rfl, fun _ => ⟨⟨_, rfl⟩, hlooked⟩⟩ ⟨hfits, fun h => absurd h hcreat⟩
    · refine iff_of_true ⟨s₁, _, rfl, fun h => ?_⟩ ⟨hfits, trivial⟩
      obtain ⟨e, he⟩ := hlong h
      cases he
  · refine iff_of_false ?_ fun h => hfits h.1
    rintro ⟨s', a, hr, -⟩
    rw [hover hfits] at hr
    cases hr

/-- Each call is safe exactly if what it copies fits. -/
theorem call_safe (hpath : NUL ∉ path) (s : S) (c : Call) : CallSafe fs s path c ↔ CallFits fs s path c := by
  cases c with
  | filp_open flags mode => exact open_safe hpath s flags mode
  | mkdir mode => exact ⟨fun ⟨_, _, hr, _⟩ => create_fits hpath hr, fun h => create_safe hpath h _⟩
  | remove_dentry => exact select_safe hpath s _ (fun _ _ => ⟨_, rfl⟩) fun _ _ => ⟨-1, rfl, by decide⟩
  | sys_mount known =>
    cases known with
    | false => exact iff_of_true ⟨s, _, rfl, fun _ => ⟨by decide, .refl⟩⟩ (by simp [CallFits])
    | true =>
      show Safe fs s path (· < 0) (select_file fs s path 0 >>= _) ↔ (true = true → Fits fs s _ _)
      rw [select_safe hpath s _ (fun s' d' => ?_) fun _ _ => ⟨-ENOENT, rfl, by decide⟩]
      · simp
      · dsimp only
        split
        · exact ⟨_, rfl⟩
        · exact ⟨_, rfl⟩

/-! ## The scan of `create_path_and_file` -/

theorem strchr_cons {c : Char} (hc : c ≠ '/') (start : Path) :
    strchr (c :: start) = (strchr start).map fun r => (c :: r.1, r.2) := by
  have hdrop : (c :: start).dropWhile (· ≠ '/') = start.dropWhile (· ≠ '/') :=
    List.dropWhile_cons_of_pos (by simpa using hc)
  unfold strchr
  rw [hdrop, takeWhile_slash hc]
  split <;> rfl

theorem strchr_cases (start : Path) : (strchr start = none ∧ '/' ∉ start) ∨
    ∃ text rest, strchr start = some (text, rest) ∧ start = text ++ '/' :: rest ∧ '/' ∉ text := by
  induction start with
  | nil => exact .inl ⟨rfl, by simp⟩
  | cons c start ih =>
    by_cases hc : c = '/'
    · exact .inr ⟨[], start, by simp [strchr, hc], by simp [hc], by simp⟩
    · rw [strchr_cons hc]
      rcases ih with ⟨h, hno⟩ | ⟨text, rest, h, hstart, hno⟩
      · exact .inl ⟨by rw [h]; rfl, by simp [Ne.symm hc, hno]⟩
      · exact .inr ⟨c :: text, rest, by rw [h]; rfl, by rw [hstart]; rfl, by simp [Ne.symm hc, hno]⟩

theorem splitOn_text {text : Path} (h : '/' ∉ text) (rest : Path) :
    (text ++ '/' :: rest).splitOn '/' = text :: rest.splitOn '/' := by
  induction text with
  | nil => exact Fs.splitOn_slash rest
  | cons c text ih =>
    obtain ⟨hc, ht⟩ := not_or.1 (mt List.mem_cons.2 h)
    rw [List.cons_append, Fs.splitOn_cons (Ne.symm hc), ih ht, List.modifyHead_cons]

theorem splitOn_last {text : Path} (h : '/' ∉ text) : text.splitOn '/' = [text] := by
  induction text with
  | nil => rfl
  | cons c text ih =>
    obtain ⟨hc, ht⟩ := not_or.1 (mt List.mem_cons.2 h)
    rw [Fs.splitOn_cons (Ne.symm hc), ih ht, List.modifyHead_cons]

theorem components_root : components ['/'] = [] := by simp [components, Fs.splitOn_slash, drop_trailing]

theorem components_behind {start : Path} (h : start ≠ []) : components ('/' :: start) = drop_trailing (start.splitOn '/') := by
  rw [components, Fs.splitOn_slash, Fs.drop_trailing_cons (Fs.splitOn_ne_empty h), List.tail_cons]

/-- The name behind the last slash is a component unless it is empty. -/
theorem components_last {start : Path} (h : '/' ∉ start) : components ('/' :: start) = if start = [] then [] else [start] := by
  split
  · rename_i hnil
    rw [hnil, components_root]
  · rename_i hne
    rw [components_behind hne, splitOn_last h]
    rfl

/-- One component is taken off. -/
theorem components_slash {text : Path} (h : '/' ∉ text) (rest : Path) :
    components ('/' :: (text ++ '/' :: rest)) = text :: components ('/' :: rest) := by
  rw [components_behind (by simp), splitOn_text h]
  by_cases hrest : rest = []
  · subst hrest
    rw [components_root]
    rfl
  · rw [Fs.drop_trailing_cons (Fs.splitOn_ne_empty hrest), components_behind hrest]

theorem strncpy_fits {text : Path} (rest : Path) {j : Nat} (h : j + text.length ≤ b.size) :
    ∃ b', strncpy b (text ++ rest) j text.length = .ok b' ∧ b'.size = b.size ∧ (∀ i < j, b'.cells i = b.cells i) ∧
      b'.Holds j text := by
  induction text generalizing b j with
  | nil =>
    refine ⟨b, ?_, rfl, fun _ _ => rfl, .nil⟩
    cases rest <;> rfl
  | cons c text ih =>
    rw [List.length_cons] at h
    obtain ⟨b', hcopy, hsize, hkept, hholds⟩ := @ih ⟨b.size, Function.update b.cells j (some c)⟩ (j + 1) (by
      show _ ≤ b.size
      omega)
    rw [List.cons_append, List.length_cons, strncpy, write_fits (by omega)]
    refine ⟨b', hcopy, hsize, ?_, Buffer.holds_cons.2 ⟨?_, hholds⟩⟩
    · intro i hi
      exact (hkept i (by omega)).trans (Function.update_of_ne (by omega) _ _)
    · exact (hkept j (by omega)).trans (Function.update_self _ _ _)

/-- A component is copied. -/
theorem component_fits {text : Path} (rest : Path) (htext : NUL ∉ text) (h : text.length < b.size) :
    ∃ b₁ b', strncpy b (text ++ rest) 0 text.length = .ok b₁ ∧ write b₁ text.length NUL = .ok b' ∧ b'.size = b.size ∧
      name_of b' = .ok text := by
  obtain ⟨b₁, hcopy, hsize, -, hholds⟩ := @strncpy_fits b text rest 0 (by omega)
  obtain ⟨b', hclose, hsize', hkept, hnul⟩ := @close_fits b₁ text.length (hsize ▸ h)
  have hsize₂ : b'.size = b.size := hsize'.trans hsize
  refine ⟨b₁, b', hcopy, hclose, hsize₂, name_of_holds (Buffer.holds_append.2 ⟨?_, ?_⟩) htext (hsize₂ ▸ h)⟩
  · intro i hi
    rw [hkept (0 + i) (by omega)]
    exact hholds i hi
  · rwa [Nat.zero_add]

variable (fs) in
/-- Every name leads to a directory. -/
def Open : Prop := ∀ s d name, ∃ s' d', fs.find_dentry s d name = (s', .ok d') ∧ fs.S_ISDIR s' d' = true

variable (fs) in
/-- What the loop comes to from `c`: some of the components have been visited, and
all but the last name if it was not cut short. -/
structure Scanned (c c' : Scan S) (found : Option Found) : Prop where
  visited : ∃ more, c'.visited = c.visited ++ more ∧ more <+: components ('/' :: c.start)
  ended : '/' ∉ c'.start → c'.visited ++ components ('/' :: c'.start) = c.visited ++ components ('/' :: c.start)
  through : found = none ↔ '/' ∉ c'.start
  result : ∀ f, found = some f → ∃ e, f = .error e
  all : (∀ name ∈ components ('/' :: c.start), name.length < NAME_MAX) → Open fs → found = none

section Turn
variable {c c' c₁ : Scan S} {found : Option Found} {text rest : Path}

/-- An error cuts the scan short, with at most one component more. -/
theorem Scanned.cut {e : Int} (hstart : c.start = text ++ '/' :: rest) (htext : '/' ∉ text) (hsame : c'.start = c.start)
    (hvis : c'.visited = c.visited ∨ c'.visited = c.visited ++ [text])
    (hall : (∀ name ∈ components ('/' :: c.start), name.length < NAME_MAX) → ¬Open fs) :
    Scanned fs c c' (some (.error e)) := by
  have hcomp : components ('/' :: c.start) = text :: components ('/' :: rest) := by
    rw [hstart, components_slash htext]
  have hslash : '/' ∈ c'.start := by simp [hsame, hstart]
  refine ⟨?_, fun hno => absurd hslash hno, iff_of_false (by simp) (not_not_intro hslash),
    fun f hf => ⟨e, (Option.some.inj hf).symm⟩, fun hlen hopen => absurd hopen (hall hlen)⟩
  rcases hvis with hvis | hvis
  · exact ⟨[], by simpa using hvis, List.nil_prefix⟩
  · exact ⟨[text], hvis, by simp [hcomp]⟩

/-- Behind a component the scan goes on. -/
theorem Scanned.cons (hstart : c.start = text ++ '/' :: rest) (htext : '/' ∉ text)
    (hvis : c₁.visited = c.visited ++ [text]) (hrest : c₁.start = rest) (h : Scanned fs c₁ c' found) :
    Scanned fs c c' found := by
  have hcomp : components ('/' :: c.start) = text :: components ('/' :: rest) := by
    rw [hstart, components_slash htext]
  obtain ⟨⟨more, hmore, hpre⟩, hended, hthrough, hresult, hall⟩ := h
  rw [hrest] at hpre hended hall
  refine ⟨⟨text :: more, ?_, ?_⟩, ?_, hthrough, hresult, fun hlen => hall fun name hm => ?_⟩
  · rw [hmore, hvis]
    exact List.append_assoc _ _ _
  · rw [hcomp]
    exact List.cons_prefix_cons.2 ⟨rfl, hpre⟩
  · intro hno
    rw [hended hno, hvis, hcomp]
    exact List.append_assoc _ _ _
  · apply hlen name
    rw [hcomp]
    exact List.mem_cons_of_mem text hm

/-- One turn at a component: an error, or the scan stands behind it. -/
theorem scan_turn (hsize : c.component.size = NAME_MAX) (hnul : NUL ∉ c.start)
    (hchr : strchr c.start = some (text, rest)) (hstart : c.start = text ++ '/' :: rest) (htext : '/' ∉ text) :
    (∃ c' e, scan_body fs c = .done (.ok (c', some (.error e))) ∧ Scanned fs c c' (some (.error e))) ∨
      ∃ c₁, scan_body fs c = .cont c₁ ∧ c₁.component.size = NAME_MAX ∧ c₁.visited = c.visited ++ [text] ∧
        c₁.start = rest := by
  by_cases hlen : text.length ≥ NAME_MAX
  · refine .inl ⟨c, -ENAMETOOLONG, by simp only [scan_body, hchr, if_pos hlen], .cut hstart htext rfl (.inl rfl) fun h => ?_⟩
    have hmem : text ∈ components ('/' :: c.start) := by simp [hstart, components_slash htext]
    exact absurd (h text hmem) (by omega)
  obtain ⟨b₁, b', hcopy, hclose, hsize', hname⟩ := @component_fits c.component text ('/' :: rest)
    (fun hm => hnul (by simp [hstart, hm])) (by omega)
  rw [← hstart] at hcopy
  let c₁ : Scan S := { c with component := b', visited := c.visited ++ [text] }
  let r : S × Except Int Nat := match fs.find_dentry c.state c.parent text with
    | (s, .ok d) => (s, .ok d)
    | (s, .error _) => fs.create_dentry s c.parent text (Fs.S_IFDIR ||| 0o755)
  have hturn : scan_body fs c = match r with
      | (s, .error e) => .done (.ok ({ c₁ with state := s }, some (.error e)))
      | (s, .ok d) =>
        if fs.S_ISDIR s d = false then .done (.ok ({ c₁ with state := s }, some (.error (-ENOTDIR))))
        else .cont { c₁ with state := s, parent := d, start := rest } := by
    simp only [scan_body, hchr, if_neg hlen, hcopy, bind, Except.bind, hclose, hname]
    rfl
  have hopened : Open fs → ∃ s d, r = (s, .ok d) ∧ fs.S_ISDIR s d = true := by
    intro hopen
    obtain ⟨s', d', hfind, hdir⟩ := hopen c.state c.parent text
    exact ⟨s', d', by simp only [r, hfind], hdir⟩
  generalize r = r at hturn hopened
  obtain ⟨s, e | d⟩ := r
  · refine .inl ⟨_, e, hturn, .cut hstart htext rfl (.inr rfl) fun _ hopen => ?_⟩
    obtain ⟨_, _, h, -⟩ := hopened hopen
    cases h
  · dsimp only at hturn
    by_cases hdir : fs.S_ISDIR s d = false
    · rw [if_pos hdir] at hturn
      refine .inl ⟨_, _, hturn, .cut hstart htext rfl (.inr rfl) fun _ hopen => ?_⟩
      obtain ⟨_, _, h, htrue⟩ := hopened hopen
      obtain ⟨rfl, hd⟩ := Prod.mk.inj h
      obtain rfl := Except.ok.inj hd
      rw [htrue] at hdir
      cases hdir
    · rw [if_neg hdir] at hturn
      exact .inr ⟨_, hturn, hsize'.trans hsize, rfl, rfl⟩

end Turn

theorem scan_runs {c : Scan S} (hsize : c.component.size = NAME_MAX) (hnul : NUL ∉ c.start) {fuel : Nat}
    (hf : c.start.length < fuel) : ∃ c' found, loop (scan_body fs) fuel c = some (.ok (c', found)) ∧ Scanned fs c c' found := by
  induction fuel generalizing c with
  | zero => exact absurd hf (by omega)
  | succ fuel ih =>
    rcases strchr_cases c.start with ⟨hchr, hno⟩ | ⟨text, rest, hchr, hstart, htext⟩
    · exact ⟨c, none, loop_done (by simp only [scan_body, hchr]) fuel, ⟨[], by simp, List.nil_prefix⟩, fun _ => rfl,
        iff_of_true rfl hno, by simp, fun _ _ => rfl⟩
    rcases scan_turn hsize hnul hchr hstart htext with ⟨c', e, hturn, hcut⟩ | ⟨c₁, hturn, hsize₁, hvis, hrest⟩
    · exact ⟨c', _, loop_done hturn fuel, hcut⟩
    · have hnul₁ : NUL ∉ c₁.start := by
        intro hm
        apply hnul
        rw [hstart]
        exact List.mem_append_right text (List.mem_cons_of_mem _ (hrest ▸ hm))
      have hf₁ : c₁.start.length < fuel := by
        rw [hstart, List.length_append, List.length_cons] at hf
        rw [hrest]
        omega
      obtain ⟨c', found, hl, hscan⟩ := ih hsize₁ hnul₁ hf₁
      exact ⟨c', found, (loop_cont hturn fuel).trans hl, hscan.cons hstart htext hvis hrest⟩

variable (fs) in
/-- The scan is not cut short: it succeeds, it gets to the last slash, or every name
leads to a directory. -/
def Through (c : Scan S) (found : Found) : Prop := (∃ d, found = .dentry d) ∨ '/' ∉ c.start ∨ Open fs

theorem create_path_runs (hpath : NUL ∉ path) (s : S) (mode : Nat) {fuel : Nat} (hf : path.length < fuel) :
    ∃ c found, create_path_and_file fs fuel s path mode = some (.ok (c, found)) ∧
      (path.head? = some '/' → c.visited <+: components path ∧
        ((∀ name ∈ components path, name.length < NAME_MAX) → Through fs c found → c.visited = components path)) := by
  by_cases habs : path.head? = some '/'
  · obtain ⟨start, rfl⟩ : ∃ start, path = '/' :: start := by
      cases path with
      | nil => cases habs
      | cons c start => exact ⟨start, by rw [Option.some.inj habs]⟩
    let c₀ : Scan S := ⟨s, fs.root_dentry s, .fresh NAME_MAX, start, []⟩
    obtain ⟨c, found, hl, hscan⟩ := @scan_runs _ fs c₀ rfl (fun hm => hpath (List.mem_cons_of_mem _ hm)) fuel
      (Nat.lt_trans (Nat.lt_succ_self _) hf)
    obtain ⟨more, hvis, hpre⟩ := hscan.visited
    have hvis : c.visited = more := hvis
    have hrun : create_path_and_file fs fuel s ('/' :: start) mode = some (.ok (last_name fs mode (c, found))) :=
      congrArg (Option.map (Except.map (last_name fs mode))) hl
    rw [hrun]
    cases found with
    | some f =>
      obtain ⟨e, rfl⟩ := hscan.result f rfl
      refine ⟨c, _, rfl, fun _ => ⟨hvis ▸ hpre, fun hlen hthrough => ?_⟩⟩
      rcases hthrough with ⟨d, hd⟩ | hno | hopen
      · cases hd
      · cases hscan.through.2 hno
      · cases hscan.all hlen hopen
    | none =>
      have hno := hscan.through.1 rfl
      have hended : c.visited ++ components ('/' :: c.start) = components ('/' :: start) := hscan.ended hno
      rw [components_last hno] at hended
      by_cases hnil : c.start = []
      · rw [if_pos hnil, List.append_nil] at hended
        exact ⟨c, .dentry c.parent, by rw [last_name, if_pos hnil], fun _ =>
          ⟨⟨[], (List.append_nil _).trans hended⟩, fun _ _ => hended⟩⟩
      · rw [if_neg hnil] at hended
        obtain ⟨f, hlast⟩ : ∃ f, last_name fs mode (c, none) = ({ c with
            state := (fs.create_dentry c.state c.parent c.start mode).1, visited := c.visited ++ [c.start] }, f) :=
          ⟨_, if_neg hnil⟩
        rw [hlast]
        exact ⟨_, _, rfl, fun _ => ⟨⟨[], (List.append_nil _).trans hended⟩, fun _ _ => hended⟩⟩
  · refine ⟨⟨s, fs.root_dentry s, .fresh NAME_MAX, path, []⟩, .null, ?_, fun h => absurd h habs⟩
    unfold create_path_and_file
    split
    · exact absurd rfl habs
    · rfl

theorem create_path_mono (s : S) (path : Path) (mode : Nat) :
    FuelMono fun fuel => create_path_and_file fs fuel s path mode := by
  unfold create_path_and_file
  dsimp only
  split
  · simp only [Option.map_eq_bind]
    exact (FuelMono.loop _ _).bind fun _ => .const _
  · exact .const _

/-- The two walkers agree on the components of an absolute path that fit. -/
theorem path_walkers_agree (habs : path.head? = some '/') (hpath : NUL ∉ path)
    (hfit : ∀ name ∈ components path, name.length < 128) (s : S) (mode : Nat) {fuel : Nat} (hf : path.length < fuel) :
    ∃ c found, create_path_and_file fs fuel s path mode = some (.ok (c, found)) ∧
      (Through fs c found → get_dir_number path = c.visited.length) ∧ c.visited.length ≤ get_dir_number path ∧
      ∀ i, 1 ≤ i → i ≤ c.visited.length → ∀ b : Buffer Char, b.size = 128 →
        ∃ b', get_dir_name path b i = .ok (b', 0) ∧ b'.string NUL = c.visited[i - 1]? := by
  obtain ⟨c, found, hrun, hvis⟩ := @create_path_runs _ fs path hpath s mode _ hf
  obtain ⟨hpre, hall⟩ := hvis habs
  refine ⟨c, found, hrun, ?_, ?_, ?_⟩
  · intro hthrough
    rw [hall (fun name hm => Nat.lt_trans (hfit name hm) (by decide)) hthrough, Fs.get_dir_number_components]
  · rw [Fs.get_dir_number_components]
    exact hpre.length_le
  · intro i h1 hi b hb
    obtain ⟨i, rfl⟩ : ∃ k, i = k + 1 := ⟨i - 1, by omega⟩
    have hlt : i < (components path).length := Nat.lt_of_lt_of_le hi hpre.length_le
    obtain ⟨b', hget, -, hstr, -⟩ := get_dir_name_fits hpath (Fs.get_dir_name_components hlt)
      (hb ▸ hfit _ (List.getElem_mem hlt))
    refine ⟨b', hget, hstr.trans ?_⟩
    rw [Nat.add_sub_cancel, List.getElem?_eq_getElem hi, hpre.getElem hi]

/-- A call with a path from outside does right by the buffers exactly if what it
copies fits. `create_path_and_file` always does. -/
theorem path_buffers (hpath : NUL ∉ path) (s : S) :
    (∀ c, CallSafe fs s path c ↔ CallFits fs s path c) ∧
      ∀ fuel mode r, create_path_and_file fs fuel s path mode = some r → ∃ res, r = .ok res := by
  refine ⟨call_safe hpath s, fun fuel mode r h => ?_⟩
  obtain ⟨c, found, hrun, -⟩ := @create_path_runs _ fs path hpath s mode _ (Nat.lt_succ_self _)
  exact ⟨_, (create_path_mono s path mode).det h hrun⟩

end Walk

/-- A file system with one empty directory, which every name leads to. -/
def one_directory : FileSystem Unit where
  root_dentry _ := 0
  find_dentry s _ _ := (s, .ok 0)
  create_dentry s _ _ _ := (s, .ok 0)
  S_ISDIR _ _ := true
  __remove_dentry s _ := s
  mount s _ := (s, 0)

theorem path_walkers_agree_slashes : ∃ c found,
    create_path_and_file one_directory 9 () ['/', 'a', '/', '/', 'b', '/'] 0 = some (.ok (c, found)) ∧
      c.visited.length = 3 := by
  obtain ⟨c, found, hrun, hnumber, -⟩ := @path_walkers_agree _ one_directory
    ['/', 'a', '/', '/', 'b', '/'] rfl (by decide) (by decide +kernel) () 0 9 (by decide)
  exact ⟨c, found, hrun, (hnumber (.inr (.inr fun _ _ _ => ⟨(), 0, rfl, rfl⟩))).symm⟩

/-- The dentries over initramfs, with mounts that do nothing. -/
def root_vfs : FileSystem (Option Fs.FS) := vfs true fun s _ => (s, 0)

theorem path_buffers_short : CallSafe root_vfs (some (Fs.root_fs fun _ => true)) ['/', 'a'] (.mkdir 0) :=
  ((path_buffers (by decide) _).1 (.mkdir 0)).2 ⟨trivial, fun _ => ⟨['a'], by decide +kernel, by decide⟩⟩

/-- A component of 128 bytes, and the path of the root, which has no component. -/
theorem path_buffers_harmed :
    (¬∀ (S : Type) (fs : FileSystem S) (s : S) (path : Path) (c : Call), NUL ∉ path → CallSafe fs s path c) ∧
      remove_dentry root_vfs (some (Fs.root_fs fun _ => true)) ('/' :: List.replicate 128 'a') = .error .overflow ∧
      mkdir root_vfs (some (Fs.root_fs fun _ => true)) ['/'] 0 = .error .uninitialised := by
  have hnul : NUL ∉ '/' :: List.replicate 128 'a' := by decide
  have hnames : names ('/' :: List.replicate 128 'a') 0 = [List.replicate 128 'a'] := by
    rw [names_all, components_last (by decide)]
    rfl
  have hover : remove_dentry root_vfs (some (Fs.root_fs fun _ => true)) ('/' :: List.replicate 128 'a') = .error .overflow := by
    rw [remove_dentry, (@select_file_eq _ root_vfs _ hnul (some (Fs.root_fs fun _ => true)) 0).2]
    · rfl
    · rw [hnames]
      exact fun h => absurd h.1 (by simp)
  refine ⟨fun hall => ?_, hover, rfl⟩
  obtain ⟨s', a, hr, -⟩ := hall _ root_vfs (some (Fs.root_fs fun _ => true)) _ .remove_dentry hnul
  rw [hover] at hr
  cases hr

end McLinOS.PathBuffers
