import Mathlib.Logic.Function.Basic
import Mathlib.Data.List.Nodup
import Mathlib.Tactic.Common
/-!
# Doubly linked chains

The links of a list of nodes as two functions, `nx` to the node behind and `pv`
to the node before. `Chain` says that they follow a list. A chain splits where
the list splits, and the ends of a piece can be linked anew.
-/
namespace CLib

open Function

/-- The nodes `xs` are linked in this order, with `p` before and `q` behind. -/
def Chain (nx pv : Nat → Nat) : Nat → List Nat → Nat → Prop
  | _, [], _ => True
  | p, x :: xs, q => pv x = p ∧ nx x = xs.headD q ∧ Chain nx pv x xs q

namespace Chain
variable {nx pv nx' pv' : Nat → Nat} {p q x y : Nat} {xs ys : List Nat}

theorem append : Chain nx pv p (xs ++ ys) q ↔ Chain nx pv p xs (ys.headD q) ∧ Chain nx pv (xs.getLastD p) ys q := by
  induction xs generalizing p with
  | nil => simp [Chain]
  | cons x xs ih =>
    simp only [List.cons_append, Chain, ih, List.getLastD_cons, and_assoc]
    cases xs <;> simp

theorem singleton : Chain nx pv p [x] q ↔ pv x = p ∧ nx x = q := by simp [Chain]

/-- The links around a node. -/
theorem split : Chain nx pv p (xs ++ x :: ys) q ↔
    Chain nx pv p xs x ∧ (pv x = xs.getLastD p ∧ nx x = ys.headD q) ∧ Chain nx pv x ys q := by
  rw [append]
  simp [Chain, and_assoc]

theorem congr (h : Chain nx pv p xs q) (hn : ∀ x ∈ xs, nx' x = nx x) (hp : ∀ x ∈ xs, pv' x = pv x) :
    Chain nx' pv' p xs q := by
  induction xs generalizing p with
  | nil => trivial
  | cons x xs ih =>
    refine ⟨(hp x (by simp)).trans h.1, (hn x (by simp)).trans h.2.1, ih h.2.2 ?_ ?_⟩
    · exact fun y hy => hn y (by simp [hy])
    · exact fun y hy => hp y (by simp [hy])

/-- A node outside may be linked anywhere. -/
theorem update_next {v : Nat} (h : Chain nx pv p xs q) (hx : x ∉ xs) : Chain (update nx x v) pv p xs q :=
  h.congr (fun y hy => update_of_ne (by rintro rfl; exact hx hy) _ _) fun _ _ => rfl

theorem update_priv {v : Nat} (h : Chain nx pv p xs q) (hx : x ∉ xs) : Chain nx (update pv x v) p xs q :=
  h.congr (fun _ _ => rfl) fun y hy => update_of_ne (by rintro rfl; exact hx hy) _ _

/-- The last node gets a new one behind it. -/
theorem set_end (h : Chain nx pv p (xs ++ [x]) q) (hx : x ∉ xs) (v : Nat) : Chain (update nx x v) pv p (xs ++ [x]) v := by
  obtain ⟨h1, h2⟩ := append.1 h
  refine append.2 ⟨h1.update_next hx, ?_⟩
  exact singleton.2 ⟨(singleton.1 h2).1, update_self _ _ _⟩

/-- The first node gets a new one before it. -/
theorem set_start (h : Chain nx pv p (y :: ys) q) (hy : y ∉ ys) (v : Nat) :
    Chain nx (update pv y v) v (y :: ys) q := ⟨update_self _ _ _, h.2.1, h.2.2.update_priv hy⟩

/-! ## Inserting -/

/-- A new node between two neighbours. -/
theorem insert {a n : Nat} (h : Chain nx pv p (xs ++ a :: y :: ys) q) (hn : (xs ++ a :: y :: ys).Nodup)
    (hnew : n ∉ xs ++ a :: y :: ys) :
    Chain (update (update nx n y) a n) (update (update pv n a) y n) p (xs ++ a :: n :: y :: ys) q := by
  have e : xs ++ a :: y :: ys = (xs ++ [a]) ++ y :: ys := by simp
  rw [e] at h hn hnew
  obtain ⟨h1, h2⟩ := append.1 h
  obtain ⟨hn1, hn2, hn3⟩ := List.nodup_append.1 hn
  have ha : a ∉ xs := fun hm => (List.nodup_append.1 hn1).2.2 a hm a (by simp) rfl
  have hay : ∀ z ∈ y :: ys, a ≠ z := hn3 a (by simp)
  have hy1 : y ∉ xs ++ [a] := fun hm => hn3 y hm y (by simp) rfl
  have hn1' : n ∉ xs ++ [a] := fun hm => hnew (List.mem_append_left _ hm)
  have hn2' : n ∉ y :: ys := fun hm => hnew (List.mem_append_right _ hm)
  have e' : xs ++ a :: n :: y :: ys = (xs ++ [a]) ++ n :: (y :: ys) := by simp
  rw [e', split, List.getLastD_concat]
  refine ⟨?_, ⟨?_, ?_⟩, ?_⟩
  · exact ((h1.update_next hn1').update_priv hn1').set_end ha n |>.update_priv hy1
  · rw [update_of_ne (by rintro rfl; exact hn2' (by simp)), update_self]
  · rw [update_of_ne (by rintro rfl; exact hn1' (by simp)), update_self]
    rfl
  · rw [List.getLastD_concat] at h2
    exact ((h2.update_next hn2').update_next fun hm => hay a hm rfl).update_priv hn2' |>.set_start
      (List.nodup_cons.1 hn2).1 n

/-- A new last node. -/
theorem push {a n : Nat} (h : Chain nx pv p (xs ++ [a]) q) (ha : a ∉ xs) (hnew : n ∉ xs ++ [a]) (hq : nx n = q) :
    Chain (update nx a n) (update pv n a) p (xs ++ [a, n]) q := by
  have e : xs ++ [a, n] = (xs ++ [a]) ++ [n] := by simp
  rw [e, append, List.getLastD_concat, singleton]
  refine ⟨(h.update_priv hnew).set_end ha n, update_self _ _ _, ?_⟩
  rw [update_of_ne (by rintro rfl; exact hnew (by simp)), hq]

/-! ## Unlinking -/

/-- `x.next` goes to the node before `x`, if there is one. -/
def unlinkNext (nx pv : Nat → Nat) (x : Nat) : Nat → Nat := if pv x ≠ 0 then update nx (pv x) (nx x) else nx

/-- `x.priv` goes to the node behind `x`, if there is one. -/
def unlinkPriv (nx pv : Nat → Nat) (x : Nat) : Nat → Nat := if nx x ≠ 0 then update pv (nx x) (pv x) else pv

theorem unlinkNext_out {z : Nat} (h : pv x ≠ z) : unlinkNext nx pv x z = nx z := by
  unfold unlinkNext
  split
  · exact update_of_ne h.symm _ _
  · rfl

theorem unlinkPriv_out {z : Nat} (h : nx x ≠ z) : unlinkPriv nx pv x z = pv z := by
  unfold unlinkPriv
  split
  · exact update_of_ne h.symm _ _
  · rfl

/-- Unlinking a node of a chain that ends in `NULL` on both sides. -/
theorem unlink (h : Chain nx pv 0 (xs ++ x :: ys) 0) (h0 : 0 ∉ xs ++ x :: ys) (hn : (xs ++ x :: ys).Nodup) :
    Chain (unlinkNext nx pv x) (unlinkPriv nx pv x) 0 (xs ++ ys) 0 := by
  obtain ⟨h1, ⟨hp, hq⟩, h2⟩ := split.1 h
  obtain ⟨hnx, hny, hxy⟩ := List.nodup_append.1 hn
  obtain ⟨hxs, hys⟩ := List.nodup_cons.1 hny
  rw [append]
  constructor
  · -- The nodes before `x`: the last of them now leads behind `x`.
    have hpriv : ∀ z ∈ xs, unlinkPriv nx pv x z = pv z := fun z hz => unlinkPriv_out fun he => by
      rw [hq] at he
      rcases ys with _ | ⟨w, ys⟩
      · obtain rfl : 0 = z := he
        exact h0 (List.mem_append_left _ hz)
      · exact hxy z hz w (by simp) he.symm
    rcases List.eq_nil_or_concat xs with rfl | ⟨zs, z, rfl⟩
    · trivial
    · rw [List.concat_eq_append] at *
      have hz0 : z ≠ 0 := by
        rintro rfl
        exact h0 (by simp)
      rw [List.getLastD_concat] at hp
      have hend : Chain (update nx z (nx x)) pv 0 (zs ++ [z]) (ys.headD 0) := by
        rw [← hq]
        exact h1.set_end (fun hm => (List.nodup_append.1 hnx).2.2 z hm z (by simp) rfl) _
      exact hend.congr (fun w _ => by rw [unlinkNext, hp, if_pos hz0]) hpriv
  · have hnext : ∀ z ∈ ys, unlinkNext nx pv x z = nx z := fun z hz => unlinkNext_out fun he => by
      rw [hp] at he
      rcases List.eq_nil_or_concat xs with rfl | ⟨zs, w, rfl⟩
      · obtain rfl : 0 = z := he
        exact h0 (by simp [hz])
      · rw [List.concat_eq_append, List.getLastD_concat] at he
        exact hxy w (by simp) z (by simp [hz]) he
    rcases ys with _ | ⟨y, ys⟩
    · trivial
    · have hy0 : y ≠ 0 := by
        rintro rfl
        exact h0 (by simp)
      rw [List.headD_cons] at hq
      have hstart : Chain nx (update pv y (pv x)) (xs.getLastD 0) (y :: ys) 0 := by
        rw [← hp]
        exact h2.set_start (List.nodup_cons.1 hys).1 _
      exact hstart.congr hnext fun w _ => by rw [unlinkPriv, hq, if_pos hy0]

end Chain

end CLib
