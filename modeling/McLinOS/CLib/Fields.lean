import Mathlib.Tactic.Common
import McLinOS.CLib.Mem
/-!
# Registers with fields

A register of fields of `w` bits. Field `k` has the bits `i` with `i / w = k`.
-/
namespace CLib

variable {n : Nat}

/-- `r &= ~(mask << pos); r |= v << pos;` -/
def put (r mask v : BitVec n) (pos : Nat) : BitVec n := (r &&& ~~~(mask <<< pos)) ||| (v <<< pos)

/-- The registers are the same outside of field `k`. -/
def SameBut (w k : Nat) (r r' : BitVec n) : Prop := ∀ i, i / w ≠ k → r'.getLsbD i = r.getLsbD i

theorem SameBut.refl {w k : Nat} {r : BitVec n} : SameBut w k r r := fun _ _ => rfl

theorem SameBut.trans {w k : Nat} {r r' r'' : BitVec n} (h : SameBut w k r r') (h' : SameBut w k r' r'') :
    SameBut w k r r'' := by
  intro i hi
  rw [h' i hi, h i hi]

theorem getLsbD_of_small {w : Nat} {v : BitVec n} (hv : v.toNat < 2 ^ w) {i : Nat} (hi : w ≤ i) : v.getLsbD i = false :=
  Nat.testBit_lt_two_pow (Nat.lt_of_lt_of_le hv (Nat.pow_le_pow_right (by decide) hi))

/-- A value of `w` bits stays in its field when it is shifted there. -/
theorem getLsbD_shift_field {w k i : Nat} {v : BitVec n} (hw : 0 < w) (hv : v.toNat < 2 ^ w) (hi : i / w ≠ k) :
    (v <<< (k * w)).getLsbD i = false := by
  rw [BitVec.getLsbD_shiftLeft]
  by_cases hlt : i < k * w
  · simp [hlt]
  · have hbeyond : w ≤ i - k * w := by
      have hdiv := (Nat.le_div_iff_mul_le hw).2 (Nat.not_lt.1 hlt)
      have hnext : k + 1 ≤ i / w := by omega
      have := (Nat.le_div_iff_mul_le hw).1 hnext
      rw [Nat.succ_mul] at this
      omega
    rw [getLsbD_of_small hv hbeyond, Bool.and_false]

/-- Writing one field leaves the others alone. -/
theorem put_same {w k : Nat} {r mask v : BitVec n} (hw : 0 < w) (hmask : mask.toNat < 2 ^ w) (hv : v.toNat < 2 ^ w) :
    SameBut w k r (put r mask v (k * w)) := by
  intro i hi
  rw [put, BitVec.getLsbD_or, BitVec.getLsbD_and, BitVec.getLsbD_not, getLsbD_shift_field hw hmask hi,
    getLsbD_shift_field hw hv hi, Bool.or_false]
  by_cases hlt : i < n
  · simp [hlt]
  · rw [BitVec.getLsbD_of_ge r i (Nat.not_lt.1 hlt), Bool.false_and]

end CLib
