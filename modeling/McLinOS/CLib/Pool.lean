import Mathlib.Tactic.Common
/-!
# Object pools

The structures of one C type that a program has allocated. An object is named
by its number, numbers are never given out twice, and a freed object is one
that nothing names any more.
-/
namespace CLib

@[ext]
structure Pool (α : Type) where
  next : Nat
  get : Nat → α

namespace Pool
variable {α : Type}

/-- A pool without objects. -/
def empty [Inhabited α] : Pool α := ⟨0, fun _ => default⟩

def set (p : Pool α) (i : Nat) (a : α) : Pool α := { p with get := fun j => if j = i then a else p.get j }

def modify (p : Pool α) (i : Nat) (f : α → α) : Pool α := p.set i (f (p.get i))

/-- The pool with one more object, whose number is `p.next`. -/
def alloc (p : Pool α) (a : α) : Pool α := { p.set p.next a with next := p.next + 1 }

@[simp] theorem next_set (p : Pool α) (i : Nat) (a : α) : (p.set i a).next = p.next := rfl

@[simp] theorem next_modify (p : Pool α) (i : Nat) (f : α → α) : (p.modify i f).next = p.next := rfl

@[simp] theorem next_alloc (p : Pool α) (a : α) : (p.alloc a).next = p.next + 1 := rfl

theorem get_set (p : Pool α) (i j : Nat) (a : α) : (p.set i a).get j = if j = i then a else p.get j := rfl

theorem get_modify (p : Pool α) (i j : Nat) (f : α → α) :
    (p.modify i f).get j = if j = i then f (p.get i) else p.get j := get_set p i j _

theorem get_alloc (p : Pool α) (j : Nat) (a : α) : (p.alloc a).get j = if j = p.next then a else p.get j :=
  get_set p p.next j a

/-- Allocating leaves the objects there are alone. -/
theorem get_alloc_lt {p : Pool α} {j : Nat} (h : j < p.next) (a : α) : (p.alloc a).get j = p.get j := by
  rw [get_alloc, if_neg (Nat.ne_of_lt h)]

theorem get_modify_ne {p : Pool α} {i j : Nat} (h : j ≠ i) (f : α → α) : (p.modify i f).get j = p.get j := by
  rw [get_modify, if_neg h]

theorem alloc_modify_next (p : Pool α) (a : α) (f : α → α) : (p.alloc a).modify p.next f = p.alloc (f a) := by
  refine Pool.ext rfl (funext fun j => ?_)
  simp only [get_modify, get_alloc, if_true]
  split <;> rfl

theorem modify_modify (p : Pool α) (i : Nat) (f g : α → α) : (p.modify i f).modify i g = p.modify i (g ∘ f) := by
  refine Pool.ext rfl (funext fun j => ?_)
  simp only [get_modify, if_true]
  split <;> rfl

theorem modify_comm (p : Pool α) {i k : Nat} (h : i ≠ k) (f g : α → α) :
    (p.modify i f).modify k g = (p.modify k g).modify i f := by
  refine Pool.ext rfl (funext fun j => ?_)
  simp only [get_modify, if_neg h, if_neg h.symm]
  split <;> split <;> simp_all

@[simp] theorem get_alloc_next (p : Pool α) (a : α) : (p.alloc a).get p.next = a := by simp [get_alloc]

/-- The objects that are there and not freed, with one more. -/
theorem live_alloc {next n : Nat} {freed : List Nat} (hfresh : next ∉ freed) :
    n < next + 1 ∧ n ∉ freed ↔ (n < next ∧ n ∉ freed) ∨ n = next := by
  constructor
  · rintro ⟨h1, h2⟩
    rcases Nat.lt_succ_iff_lt_or_eq.1 h1 with h1 | h1
    · exact .inl ⟨h1, h2⟩
    · exact .inr h1
  · rintro (⟨h1, h2⟩ | rfl)
    · exact ⟨Nat.lt_succ_of_lt h1, h2⟩
    · exact ⟨Nat.lt_succ_self n, hfresh⟩

end Pool

end CLib
