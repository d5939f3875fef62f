import Mathlib.Logic.Function.Iterate
import Mathlib.Tactic.Common
/-!
# Cyclic redundancy checks

Remainders with their bits reflected, of any width and for any polynomial. A step
for one bit is linear in exclusive or, so the steps for a byte can be looked up by
its low bits.
-/
namespace CLib.Crc

variable {w : Nat} (poly : BitVec w)

/-- One bit of the message is divided out. -/
def bit_step (c : BitVec w) : BitVec w := if c.getLsbD 0 = true then (c >>> 1) ^^^ poly else c >>> 1

/-- A byte is added to the remainder and divided out bit by bit. -/
def byte_step (c : BitVec w) (b : BitVec 8) : BitVec w := (bit_step poly)^[8] (c ^^^ b.setWidth w)

/-- The remainder after all the bytes. -/
def serial (c : BitVec w) (bytes : List (BitVec 8)) : BitVec w := bytes.foldl (byte_step poly) c

theorem serial_append (c : BitVec w) (xs ys : List (BitVec 8)) : serial poly c (xs ++ ys) = serial poly (serial poly c xs) ys :=
  List.foldl_append

theorem bit_step_xor (a b : BitVec w) : bit_step poly (a ^^^ b) = bit_step poly a ^^^ bit_step poly b := by
  unfold bit_step
  rw [BitVec.getLsbD_xor, BitVec.ushiftRight_xor_distrib]
  cases a.getLsbD 0 <;> cases b.getLsbD 0
  · rfl
  · exact BitVec.xor_assoc _ _ _
  · show a >>> 1 ^^^ b >>> 1 ^^^ poly = a >>> 1 ^^^ poly ^^^ b >>> 1
    rw [BitVec.xor_assoc, BitVec.xor_comm (b >>> 1), ← BitVec.xor_assoc]
  · show a >>> 1 ^^^ b >>> 1 = a >>> 1 ^^^ poly ^^^ (b >>> 1 ^^^ poly)
    rw [BitVec.xor_comm (b >>> 1) poly, ← BitVec.xor_assoc, BitVec.xor_assoc (a >>> 1) poly poly, BitVec.xor_self,
      BitVec.xor_zero]

theorem bit_steps_xor (n : Nat) (a b : BitVec w) :
    (bit_step poly)^[n] (a ^^^ b) = (bit_step poly)^[n] a ^^^ (bit_step poly)^[n] b := by
  induction n with
  | zero => rfl
  | succ n ih => rw [Function.iterate_succ_apply', ih, bit_step_xor, Function.iterate_succ_apply', Function.iterate_succ_apply']

/-- A remainder whose low bits are 0 is only shifted. -/
theorem bit_steps_high {n : Nat} {c : BitVec w} (h : ∀ i < n, c.getLsbD i = false) : (bit_step poly)^[n] c = c >>> n := by
  induction n with
  | zero => exact (BitVec.ushiftRight_zero c).symm
  | succ n ih =>
    have hlow : (c >>> n).getLsbD 0 = false := by
      rw [BitVec.getLsbD_ushiftRight]
      exact h n (Nat.lt_succ_self n)
    rw [Function.iterate_succ_apply', ih fun i hi => h i (Nat.lt_succ_of_lt hi), bit_step, hlow, if_neg (by decide),
      BitVec.shiftRight_add]

/-- Only the bits of `mask` go through the steps, the others are shifted. -/
theorem bit_steps_split {n : Nat} {mask : BitVec w} (hmask : ∀ i < n, i < w → mask.getLsbD i = true) (c : BitVec w) :
    (bit_step poly)^[n] c = (bit_step poly)^[n] (c &&& mask) ^^^ ((c &&& ~~~mask) >>> n) := by
  have hsplit : c = (c &&& mask) ^^^ (c &&& ~~~mask) := by
    apply BitVec.eq_of_getLsbD_eq
    intro i hi
    rw [BitVec.getLsbD_xor, BitVec.getLsbD_and, BitVec.getLsbD_and, BitVec.getLsbD_not]
    cases c.getLsbD i <;> cases mask.getLsbD i <;> simp [hi]
  have hhigh : ∀ i < n, (c &&& ~~~mask).getLsbD i = false := by
    intro i hi
    rw [BitVec.getLsbD_and, BitVec.getLsbD_not]
    by_cases hw : i < w
    · rw [hmask i hi hw, Bool.not_true, Bool.and_false, Bool.and_false]
    · rw [BitVec.getLsbD_of_ge c i (Nat.not_lt.1 hw), Bool.false_and]
  conv_lhs => rw [hsplit]
  rw [bit_steps_xor, bit_steps_high poly hhigh]

/-- With a mask for the low byte: what goes through the steps is one of 256 values. -/
theorem byte_step_table {mask : BitVec w} (hmask : ∀ i < w, mask.getLsbD i = decide (i < 8)) (c : BitVec w) (b : BitVec 8) :
    byte_step poly c b = (bit_step poly)^[8] ((c ^^^ b.setWidth w) &&& mask) ^^^ (c >>> 8) := by
  have hrest : ((c ^^^ b.setWidth w) &&& ~~~mask) >>> 8 = c >>> 8 := by
    apply BitVec.eq_of_getLsbD_eq
    intro i hi
    rw [BitVec.getLsbD_ushiftRight, BitVec.getLsbD_ushiftRight, BitVec.getLsbD_and, BitVec.getLsbD_xor, BitVec.getLsbD_not,
      BitVec.getLsbD_setWidth, BitVec.getLsbD_of_ge b (8 + i) (Nat.le_add_right 8 i), Bool.and_false, Bool.xor_false]
    by_cases hw : 8 + i < w
    · rw [hmask _ hw, decide_eq_true hw, decide_eq_false (by omega), Bool.not_false, Bool.and_self, Bool.and_true]
    · rw [BitVec.getLsbD_of_ge c _ (Nat.not_lt.1 hw), Bool.false_and]
  have hlow : ∀ i < 8, i < w → mask.getLsbD i = true := by
    intro i hi hw
    rw [hmask i hw, decide_eq_true hi]
  rw [byte_step, bit_steps_split poly hlow, hrest]

end CLib.Crc
