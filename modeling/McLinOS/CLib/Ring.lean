import Mathlib.Data.List.Iterate
import McLinOS.CLib.Chain
/-!
# Rings

A ring is a chain whose ends are linked to each other. It may be read from any
of its nodes, so an operation on a node is one on the first node.
-/
namespace CLib

open Function

/-- The nodes are linked in a circle. -/
def Ring (nx pv : Nat → Nat) : List Nat → Prop
  | [] => True
  | x :: xs => Chain nx pv (xs.getLastD x) (x :: xs) x

namespace Ring
variable {nx pv nx' pv' : Nat → Nat} {x y n : Nat} {xs ys : List Nat}

theorem singleton : Ring nx pv [x] ↔ pv x = x ∧ nx x = x := Chain.singleton

theorem congr (h : Ring nx pv xs) (hn : ∀ x ∈ xs, nx' x = nx x) (hp : ∀ x ∈ xs, pv' x = pv x) : Ring nx' pv' xs := by
  cases xs with
  | nil => trivial
  | cons x xs => exact Chain.congr h hn hp

theorem rotate_one : Ring nx pv (x :: xs) ↔ Ring nx pv (xs ++ [x]) := by
  cases xs with
  | nil => rfl
  | cons y ys =>
    simp only [Ring, List.cons_append, Chain, List.getLastD_concat, Chain.append, List.headD_cons,
      List.getLastD_cons]
    have hhead : (ys ++ [x]).headD y = ys.headD x := by cases ys <;> rfl
    rw [hhead]
    tauto

/-- A ring may be read from any node. -/
theorem rotate : Ring nx pv (xs ++ ys) ↔ Ring nx pv (ys ++ xs) := by
  induction xs generalizing ys with
  | nil => simp
  | cons x xs ih => rw [List.cons_append, rotate_one, List.append_assoc, ih, List.append_assoc, List.singleton_append]

theorem split_last (x : Nat) (xs : List Nat) : ∃ zs a, x :: xs = zs ++ [a] ∧ xs.getLastD x = a := by
  obtain ⟨zs, a, hzs⟩ := (List.eq_nil_or_concat (x :: xs)).resolve_left (by simp)
  rw [List.concat_eq_append] at hzs
  refine ⟨zs, a, hzs, ?_⟩
  rw [← List.getLastD_cons, hzs, List.getLastD_concat]
  exact x

/-- A new node before the first one. -/
theorem insert (h : Ring nx pv (x :: xs)) (hnd : (x :: xs).Nodup) (hnew : n ∉ x :: xs) :
    Ring (update (update nx n x) (pv x) n) (update (update pv n (pv x)) x n) (x :: xs ++ [n]) := by
  obtain ⟨zs, a, hzs, hlast⟩ := split_last x xs
  have h1 : Chain nx pv a (x :: xs) x := hlast ▸ h
  have hpv : pv x = a := h1.1
  have hna : n ≠ a := by
    rintro rfl
    exact hnew (by simp [hzs])
  have hnx : n ≠ x := by
    rintro rfl
    exact hnew (by simp)
  have h2 : Chain (update (update nx n x) a n) (update pv n a) a (x :: xs) n := by
    have h2 : Chain (update nx n x) (update pv n a) a (x :: xs) x := (h1.update_next hnew).update_priv hnew
    rw [hzs] at h2 ⊢
    refine h2.set_end (fun hm => ?_) n
    rw [hzs] at hnd
    exact (List.nodup_append.1 hnd).2.2 a hm a (by simp) rfl
  rw [hpv]
  show Chain _ _ ((xs ++ [n]).getLastD x) (x :: xs ++ [n]) x
  rw [List.getLastD_concat, Chain.append, Chain.singleton]
  refine ⟨h2.set_start (List.nodup_cons.1 hnd).1 n, ?_, ?_⟩
  · rw [update_of_ne hnx, update_self, List.getLastD_cons, hlast]
  · rw [update_of_ne hna, update_self]

/-- The first of several nodes leaves the ring. -/
theorem unlink (h : Ring nx pv (x :: y :: ys)) (hnd : (x :: y :: ys).Nodup) :
    Ring (update nx (pv x) (nx x)) (update pv (nx x) (pv x)) (y :: ys) := by
  obtain ⟨zs, a, hzs, hlast⟩ := split_last y ys
  obtain ⟨hp, hn, h1⟩ := h
  rw [List.getLastD_cons] at hp
  rw [List.headD_cons] at hn
  have hnd' := (List.nodup_cons.1 hnd).2
  have h2 : Chain (update nx a y) pv x (y :: ys) y := by
    rw [hzs] at h1 ⊢
    refine h1.set_end (fun hm => ?_) y
    rw [hzs] at hnd'
    exact (List.nodup_append.1 hnd').2.2 a hm a (by simp) rfl
  rw [hp, hn, hlast]
  show Chain _ _ (ys.getLastD y) (y :: ys) y
  rw [hlast]
  exact h2.set_start (List.nodup_cons.1 hnd').1 a

theorem priv_next (h : Ring nx pv xs) (hx : x ∈ xs) : pv (nx x) = x := by
  obtain ⟨us, vs, rfl⟩ := List.append_of_mem hx
  have h1 : Ring nx pv (x :: (vs ++ us)) := rotate.1 h
  cases hvs : vs ++ us with
  | nil =>
    rw [hvs, singleton] at h1
    rw [h1.2, h1.1]
  | cons y ys =>
    rw [hvs] at h1
    rw [show nx x = y from h1.2.1, h1.2.2.1]

theorem next_mem (h : Ring nx pv xs) (hx : x ∈ xs) : nx x ∈ xs := by
  obtain ⟨us, vs, rfl⟩ := List.append_of_mem hx
  have h1 : Ring nx pv (x :: (vs ++ us)) := rotate.1 h
  have hnx : nx x = (vs ++ us).headD x := h1.2.1
  rw [hnx]
  cases hvs : vs ++ us with
  | nil => simp
  | cons y ys =>
    have hy : y ∈ vs ++ us := by simp [hvs]
    rw [List.headD_cons, List.mem_append, List.mem_cons]
    rcases List.mem_append.1 hy with hy | hy
    · exact .inr (.inr hy)
    · exact .inl hy

/-- Going round the ring gives its nodes and comes back. -/
theorem iterate (h : Ring nx pv (x :: xs)) :
    List.iterate nx x (xs.length + 1) = x :: xs ∧ nx^[xs.length + 1] x = x := by
  have hwalk : ∀ (p q z : Nat) (zs : List Nat), Chain nx pv p (z :: zs) q →
      List.iterate nx z (zs.length + 1) = z :: zs ∧ nx^[zs.length + 1] z = q := by
    intro p q z zs
    induction zs generalizing p z with
    | nil => exact fun h => ⟨rfl, h.2.1⟩
    | cons w zs ih =>
      intro h
      have hz : nx z = w := h.2.1
      obtain ⟨h1, h2⟩ := ih z w h.2.2
      refine ⟨?_, ?_⟩
      · rw [List.length_cons, List.iterate, hz, h1]
      · rw [List.length_cons, iterate_succ_apply, hz, h2]
  exact hwalk _ _ _ _ h

/-- The same from the node after the first one. -/
theorem iterate_next (h : Ring nx pv (x :: xs)) : List.iterate nx (nx x) (xs.length + 1) = xs ++ [x] := by
  cases xs with
  | nil =>
    rw [(singleton.1 h).2]
    rfl
  | cons y ys =>
    have hnx : nx x = y := h.2.1
    have hlen : (y :: ys).length = (ys ++ [x]).length := by simp
    rw [hnx, hlen]
    exact (rotate_one.1 h).iterate.1

end Ring

end CLib
