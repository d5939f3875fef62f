import Mathlib.Logic.Function.Basic
import Mathlib.Tactic.Common
/-!
# Circular buffers

A buffer of `n` cells of which one stays empty. The values are between `tail`,
where they are taken, and `head`, where they are put.
-/
namespace CLib

open Function

variable {α : Type}

/-- The buffer holds `xs`, the oldest first. -/
structure Circular (buffer : Nat → α) (n head tail : Nat) (xs : List α) : Prop where
  tail_lt : tail < n
  head_eq : head = (tail + xs.length) % n
  length_lt : xs.length < n
  cells : ∀ i (h : i < xs.length), buffer ((tail + i) % n) = xs[i]

/-- Once round at most. -/
theorem mod_wrap {a n : Nat} (h : a < 2 * n) : a % n = if a < n then a else a - n := by
  split
  · next hlt => exact Nat.mod_eq_of_lt hlt
  · next hge => rw [Nat.mod_eq_sub_mod (by omega), Nat.mod_eq_of_lt (by omega)]

namespace Circular
variable {buffer : Nat → α} {n head tail : Nat} {xs : List α} {x : α}

theorem empty (h : tail < n) : Circular buffer n tail tail [] where
  tail_lt := h
  head_eq := (Nat.mod_eq_of_lt h).symm
  length_lt := by simp; omega
  cells := fun i hi => absurd hi (by simp)

theorem head_lt (h : Circular buffer n head tail xs) : head < n := by
  rw [h.head_eq]
  exact Nat.mod_lt _ (by have := h.tail_lt; omega)

theorem empty_iff (h : Circular buffer n head tail xs) : head = tail ↔ xs = [] := by
  have h1 := h.tail_lt
  have h2 := h.length_lt
  rw [h.head_eq, mod_wrap (by omega), ← List.length_eq_zero_iff]
  split <;> omega

theorem full_iff (h : Circular buffer n head tail xs) : (head + 1) % n = tail ↔ xs.length + 1 = n := by
  have h1 := h.tail_lt
  have h2 := h.length_lt
  have h3 := h.head_lt
  have h4 := h.head_eq
  rw [mod_wrap (by omega)] at h4 ⊢
  split at h4 <;> split <;> omega

/-- How many values there are. -/
theorem length_eq (h : Circular buffer n head tail xs) : (head + n - tail) % n = xs.length := by
  have h1 := h.tail_lt
  have h2 := h.length_lt
  have h4 := h.head_eq
  rw [mod_wrap (by omega)] at h4
  rw [mod_wrap (by split at h4 <;> omega)]
  split at h4 <;> split <;> omega

theorem push (h : Circular buffer n head tail xs) (hroom : xs.length + 1 ≠ n) (x : α) :
    Circular (update buffer head x) n ((head + 1) % n) tail (xs ++ [x]) where
  tail_lt := h.tail_lt
  head_eq := by
    rw [h.head_eq, Nat.mod_add_mod, List.length_append, List.length_singleton, Nat.add_assoc]
  length_lt := by
    have := h.length_lt
    simp only [List.length_append, List.length_singleton]
    omega
  cells := fun i hi => by
    simp only [List.length_append, List.length_singleton] at hi
    have h1 := h.tail_lt
    have h2 := h.length_lt
    by_cases hlast : i = xs.length
    · subst hlast
      rw [← h.head_eq, update_self, List.getElem_concat_length rfl]
    · have hlt : i < xs.length := by omega
      -- The cell of another value is not the one that is written.
      have hne : (tail + i) % n ≠ head := by
        rw [h.head_eq, mod_wrap (by omega), mod_wrap (by omega)]
        split <;> split <;> omega
      rw [update_of_ne hne, h.cells i hlt, List.getElem_append_left hlt]

theorem pop (h : Circular buffer n head tail (x :: xs)) :
    buffer tail = x ∧ Circular buffer n head ((tail + 1) % n) xs := by
  have h1 := h.tail_lt
  have h2 := h.length_lt
  rw [List.length_cons] at h2
  refine ⟨?_, ⟨Nat.mod_lt _ (by omega), ?_, by omega, ?_⟩⟩
  · have := h.cells 0 (by simp)
    rwa [Nat.add_zero, Nat.mod_eq_of_lt h1] at this
  · rw [h.head_eq, Nat.mod_add_mod, List.length_cons]
    congr 1
    omega
  · intro i hi
    rw [Nat.mod_add_mod]
    have := h.cells (i + 1) (by simp [hi])
    rwa [show tail + (i + 1) = tail + 1 + i by omega, List.getElem_cons_succ] at this

/-- A full buffer gives up its oldest value. -/
theorem overwrite (h : Circular buffer n head tail (x :: xs)) (y : α) :
    Circular (update buffer head y) n ((head + 1) % n) ((tail + 1) % n) (xs ++ [y]) := by
  have hlen := h.length_lt
  rw [List.length_cons] at hlen
  exact h.pop.2.push (by omega) y

end Circular

/-- The last `n` values. -/
def newest (n : Nat) (xs : List α) : List α := xs.drop (xs.length - n)

theorem newest_of_le {n : Nat} {xs : List α} (h : xs.length ≤ n) : newest n xs = xs := by
  rw [newest, Nat.sub_eq_zero_of_le h, List.drop_zero]

theorem length_newest (n : Nat) (xs : List α) : (newest n xs).length = min n xs.length := by
  rw [newest, List.length_drop]
  omega

theorem newest_append (n : Nat) (xs ys : List α) : newest n (newest n xs ++ ys) = newest n (xs ++ ys) := by
  have hlen := length_newest n xs
  have hcut : newest n xs ++ ys = (xs ++ ys).drop (xs.length - n) := by
    rw [List.drop_append_of_le_length (Nat.sub_le _ _), newest]
  rw [newest, List.length_append, hlen, hcut, List.drop_drop, newest, List.length_append]
  congr 1
  omega

end CLib
