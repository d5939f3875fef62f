import McLinOS.Fs.Model
/-!
# Absolute paths

What `get_dir_number` and `get_dir_name` read off an absolute path are its
components.
-/

namespace McLinOS.Fs

/-- Without the empty name behind a slash at the end. -/
def drop_trailing (names : List Name) : List Name :=
  if 2 ≤ names.length ∧ names.getLast? = some [] then names.dropLast else names

/-- The components of an absolute path. -/
def components (path : Path) : List Name := (drop_trailing (path.splitOn '/')).tail

/-- An absolute path whose components fit into `file_name`. -/
def Absolute (path : Path) : Prop := path.head? = some '/' ∧ ∀ name ∈ components path, name.length < 128

instance (path : Path) : Decidable (Absolute path) := inferInstanceAs (Decidable (_ ∧ _))

theorem splitOn_slash (path : Path) : ('/' :: path).splitOn '/' = [] :: path.splitOn '/' := by
  simp [List.splitOn, List.splitOnP_cons_eq_if_modifyHead]

theorem splitOn_cons {c : Char} (hc : c ≠ '/') (path : Path) :
    (c :: path).splitOn '/' = (path.splitOn '/').modifyHead (c :: ·) := by
  simp [List.splitOn, List.splitOnP_cons_eq_if_modifyHead, hc]

theorem splitOn_head (path : Path) : (path.splitOn '/').head? = some (path.takeWhile (· ≠ '/')) := by
  induction path with
  | nil => rfl
  | cons c path ih =>
    by_cases hc : c = '/'
    · subst hc
      simp [splitOn_slash]
    · rw [splitOn_cons hc, List.head?_modifyHead, ih]
      simp [hc]

/-- Past `j` slashes, the `number`-th component is the `number - j`-th of the rest. -/
theorem get_dir_name_splitOn (path : Path) {j number : Nat} (h : j < number) :
    get_dir_name path j number = (path.splitOn '/')[number - j]? := by
  induction path generalizing j with
  | nil =>
    have hn : number - j ≠ 0 := by omega
    simp [get_dir_name, hn]
  | cons c path ih =>
    by_cases hc : c = '/'
    · subst hc
      rw [splitOn_slash, get_dir_name]
      obtain ⟨k, hk⟩ : ∃ k, number - j = k + 1 := ⟨number - j - 1, by omega⟩
      rw [hk, List.getElem?_cons_succ]
      by_cases hj : j + 1 = number
      · obtain rfl : k = 0 := by omega
        have hhead := splitOn_head path
        rw [List.head?_eq_getElem?] at hhead
        simp only [if_true, hj, hhead]
      · simp only [if_true, hj, if_false]
        rw [ih (by omega), show number - (j + 1) = k by omega]
    · have hj : j ≠ number := by omega
      rw [splitOn_cons hc, get_dir_name]
      simp only [if_neg hc, if_neg hj, ih h]
      obtain ⟨name, names, hs⟩ := List.exists_cons_of_ne_nil (List.splitOn_ne_nil '/' path)
      obtain ⟨k, hk⟩ : ∃ k, number - j = k + 1 := ⟨number - j - 1, by omega⟩
      simp [hs, hk]

theorem length_drop_trailing {names : List Name} (h : names ≠ []) : (drop_trailing names).length ≠ 0 := by
  unfold drop_trailing
  split
  · rw [List.length_dropLast]
    omega
  · simpa using h

theorem length_drop_trailing_modifyHead (c : Char) (names : List Name) :
    (drop_trailing (names.modifyHead (c :: ·))).length = (drop_trailing names).length := by
  rcases names with _ | ⟨name, _ | ⟨name', names⟩⟩
  · rfl
  · rfl
  · simp [drop_trailing, apply_ite List.length]

theorem splitOn_ne_empty {path : Path} (h : path ≠ []) : path.splitOn '/' ≠ [[]] := by
  intro hs
  have hjoin : ['/'].intercalate (path.splitOn '/') = path := List.intercalate_splitOn '/'
  rw [hs] at hjoin
  exact h hjoin.symm

theorem drop_trailing_cons {first : Name} {names : List Name} (h : names ≠ [[]]) :
    drop_trailing (first :: names) = first :: drop_trailing names := by
  rcases names with _ | ⟨name, _ | ⟨name', names⟩⟩
  · rfl
  · have hname : name ≠ [] := fun hn => h (by rw [hn])
    simp [drop_trailing, hname]
  · simp only [drop_trailing, List.length_cons, List.getLast?_cons_cons, List.dropLast_cons_cons]
    split <;> simp_all

/-- `get_dir_number` does not count the slash at the end. -/
theorem get_dir_number_splitOn (path : Path) :
    get_dir_number path + 1 = (drop_trailing (path.splitOn '/')).length := by
  induction path with
  | nil => rfl
  | cons c path ih =>
    by_cases hc : c = '/'
    · subst hc
      rw [splitOn_slash, get_dir_number]
      rcases path with _ | ⟨c, path⟩
      · rfl
      · rw [drop_trailing_cons (splitOn_ne_empty (List.cons_ne_nil c path)), List.length_cons, ← ih]
        simp only [ne_eq, reduceCtorEq, not_false_eq_true, and_self, if_true]
        omega
    · rw [splitOn_cons hc, length_drop_trailing_modifyHead, ← ih, get_dir_number]
      simp [hc]

theorem get_dir_number_components (path : Path) : get_dir_number path = (components path).length := by
  have h := get_dir_number_splitOn path
  rw [components, List.length_tail]
  omega

theorem prefix_drop_trailing (names : List Name) : drop_trailing names <+: names := by
  unfold drop_trailing
  split
  · exact List.dropLast_prefix names
  · exact List.prefix_refl names

theorem get_dir_name_components {path : Path} {i : Nat} (hi : i < (components path).length) :
    get_dir_name path 0 (i + 1) = some (components path)[i] := by
  have hi' : i + 1 < (drop_trailing (path.splitOn '/')).length := by
    rw [components, List.length_tail] at hi
    omega
  rw [get_dir_name_splitOn path (Nat.succ_pos i), Nat.sub_zero,
    List.getElem?_eq_getElem (Nat.lt_of_lt_of_le hi' (prefix_drop_trailing _).length_le)]
  simp only [components, List.getElem_tail, (prefix_drop_trailing _).getElem hi']

theorem file_name_components {path : Path} (h : Absolute path) {i : Nat} (hi : i < (components path).length) :
    file_name path (i + 1) = some (components path)[i] := by
  simp only [file_name, get_dir_name_components hi, h.2 _ (List.getElem_mem hi), if_true]

/-- A path without components is the root's. -/
theorem components_nil {path : Path} (h : Absolute path) : components path = [] ↔ path = ['/'] := by
  obtain ⟨habs, -⟩ := h
  rcases path with _ | ⟨c, path⟩
  · simp at habs
  · obtain rfl : c = '/' := by simpa using habs
    rcases path with _ | ⟨c, path⟩
    · simp [components, splitOn_slash, drop_trailing]
    · rw [components, splitOn_slash, drop_trailing_cons (splitOn_ne_empty (List.cons_ne_nil c path)), List.tail_cons]
      have := length_drop_trailing (List.splitOn_ne_nil '/' (c :: path))
      simp only [List.cons.injEq, reduceCtorEq, and_false, iff_false]
      intro hnil
      simp [hnil] at this

end McLinOS.Fs
