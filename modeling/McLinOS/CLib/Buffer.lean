import Mathlib.Logic.Function.Basic
import Mathlib.Tactic.Common
/-!
# Fixed buffers

A buffer of `size` cells that have no value until they are written. A write
outside of it is not made. A string in it ends at the value `stop`.
-/
namespace CLib

open Function

structure Buffer (α : Type) where
  size : Nat
  cells : Nat → Option α

namespace Buffer
variable {α : Type}

/-- A buffer as it is declared. -/
def fresh (size : Nat) : Buffer α := ⟨size, fun _ => none⟩

def write (b : Buffer α) (j : Nat) (x : α) : Option (Buffer α) :=
  if j < b.size then some { b with cells := update b.cells j (some x) } else none

/-- The values from the cell `j` on, up to `stop`. `none` if one of them was never
written, or there is no `stop` in the buffer. -/
def read [DecidableEq α] (b : Buffer α) (stop : α) : Nat → Nat → Option (List α)
  | 0, _ => none
  | n + 1, j =>
    match b.cells j with
    | none => none
    | some x => if x = stop then some [] else (read b stop n (j + 1)).map (x :: ·)

def string [DecidableEq α] (b : Buffer α) (stop : α) : Option (List α) := b.read stop b.size 0

/-- The cells from `j` on hold `xs`. -/
def Holds (b : Buffer α) (j : Nat) (xs : List α) : Prop := ∀ i (h : i < xs.length), b.cells (j + i) = some xs[i]

variable {b b' : Buffer α} {j k : Nat} {x stop : α} {xs ys : List α}

theorem write_eq (h : j < b.size) (x : α) : b.write j x = some { b with cells := update b.cells j (some x) } := if_pos h

theorem write_none (h : b.size ≤ j) (x : α) : b.write j x = none := if_neg (by omega)

theorem Holds.nil : b.Holds j [] := fun i h => absurd h (by simp)

theorem holds_cons : b.Holds j (x :: xs) ↔ b.cells j = some x ∧ b.Holds (j + 1) xs := by
  constructor
  · intro h
    refine ⟨h 0 (by simp), fun i hi => ?_⟩
    have := h (i + 1) (by simpa using hi)
    rwa [show j + (i + 1) = j + 1 + i by omega, List.getElem_cons_succ] at this
  · rintro ⟨h0, h⟩ i hi
    cases i with
    | zero => simpa using h0
    | succ i =>
      have := h i (by simpa using hi)
      rwa [show j + 1 + i = j + (i + 1) by omega] at this

theorem holds_append : b.Holds j (xs ++ ys) ↔ b.Holds j xs ∧ b.Holds (j + xs.length) ys := by
  induction xs generalizing j with
  | nil => simpa using fun _ => Holds.nil
  | cons x xs ih =>
    rw [List.cons_append, holds_cons, ih, holds_cons, and_assoc, List.length_cons,
      show j + (xs.length + 1) = j + 1 + xs.length by omega]

section Read
variable [DecidableEq α]

/-- What was written and closed is read. -/
theorem Holds.read (h : b.Holds j (xs ++ [stop])) (hxs : stop ∉ xs) {n : Nat} (hn : xs.length < n) :
    b.read stop n j = some xs := by
  induction xs generalizing j n with
  | nil =>
    obtain ⟨n, rfl⟩ : ∃ m, n = m + 1 := ⟨n - 1, by simp at hn; omega⟩
    rw [List.nil_append, holds_cons] at h
    rw [Buffer.read, h.1]
    exact if_pos rfl
  | cons x xs ih =>
    obtain ⟨n, rfl⟩ : ∃ m, n = m + 1 := ⟨n - 1, by simp at hn; omega⟩
    rw [List.cons_append, holds_cons] at h
    obtain ⟨hx, hstop⟩ := not_or.1 (mt List.mem_cons.2 hxs)
    rw [Buffer.read, h.1]
    dsimp only
    rw [if_neg (Ne.symm hx), ih h.2 hstop (by simpa using hn), Option.map_some]

theorem Holds.string (h : b.Holds 0 (xs ++ [stop])) (hxs : stop ∉ xs) (hsize : xs.length < b.size) :
    b.string stop = some xs := h.read hxs hsize

end Read

end Buffer

end CLib
