import Mathlib.Data.List.GetD
import McLinOS.CLib.Crc
/-!
# The bits of a checked message

A message is divided bit by bit, the lowest bit of each byte first, or with the
highest first, which is the same with everything reversed. A polynomial with a
constant term loses nothing: each step can be undone, so a burst that is not longer
than the remainder never goes unnoticed.
-/
namespace CLib.Crc

variable {w : Nat} (poly : BitVec w)

/-! ## Bit by bit -/

/-- One bit of the message is added and divided out. -/
def bit_in (c : BitVec w) (b : Bool) : BitVec w := bit_step poly (c ^^^ (BitVec.ofBool b).setWidth w)

/-- The remainder after all the bits. -/
def serial_bits (c : BitVec w) (bits : List Bool) : BitVec w := bits.foldl (bit_in poly) c

theorem serial_bits_append (c : BitVec w) (xs ys : List Bool) :
    serial_bits poly c (xs ++ ys) = serial_bits poly (serial_bits poly c xs) ys := List.foldl_append

/-- The bits as a number, the first one lowest. -/
def low_bits : List Bool → BitVec w
  | [] => 0
  | b :: bits => (low_bits bits <<< 1) ^^^ (BitVec.ofBool b).setWidth w

theorem getLsbD_low_bits (bits : List Bool) {i : Nat} (hi : i < w) : (low_bits bits : BitVec w).getLsbD i = bits.getD i false := by
  induction bits generalizing i with
  | nil => simp [low_bits]
  | cons b bits ih =>
    rw [low_bits, BitVec.getLsbD_xor, BitVec.getLsbD_shiftLeft, BitVec.getLsbD_setWidth, BitVec.getLsbD_ofBool]
    cases i with
    | zero => simp [hi]
    | succ i =>
      have hbelow : i < w := Nat.lt_of_succ_lt hi
      simp [hi, ih hbelow]

/-- Bits that fit are told apart. -/
theorem low_bits_injective {xs ys : List Bool} (hlen : xs.length = ys.length) (hw : xs.length ≤ w)
    (h : (low_bits xs : BitVec w) = low_bits ys) : xs = ys := by
  apply List.ext_getElem hlen
  intro i hx hy
  have hi : i < w := Nat.lt_of_lt_of_le hx hw
  have hbit := congrArg (fun c : BitVec w => c.getLsbD i) h
  rwa [getLsbD_low_bits xs hi, getLsbD_low_bits ys hi, List.getD_eq_getElem _ _ hx, List.getD_eq_getElem _ _ hy] at hbit

/-- A number whose lowest bit is 0 and whose highest bit was not lost is shifted back. -/
theorem bit_step_shifted {bits : List Bool} (hw : bits.length < w) :
    bit_step poly (low_bits bits <<< 1) = (low_bits bits : BitVec w) := by
  have hpos : 0 < w := Nat.zero_lt_of_lt hw
  have hlow : ((low_bits bits : BitVec w) <<< 1).getLsbD 0 = false := by simp
  rw [bit_step, hlow, if_neg Bool.false_ne_true]
  apply BitVec.eq_of_getLsbD_eq
  intro i hi
  rw [BitVec.getLsbD_ushiftRight, BitVec.getLsbD_shiftLeft]
  by_cases hin : 1 + i < w
  · simp [hin]
  · have htop : bits.length ≤ i := by omega
    rw [decide_eq_false hin, Bool.false_and, Bool.false_and, getLsbD_low_bits bits hi, List.getD_eq_default _ _ htop]

/-- Bits that fit may be added all at once. -/
theorem serial_bits_eq (c : BitVec w) (bits : List Bool) (hw : bits.length ≤ w) :
    serial_bits poly c bits = (bit_step poly)^[bits.length] (c ^^^ low_bits bits) := by
  induction bits generalizing c with
  | nil => simp [serial_bits, low_bits]
  | cons b bits ih =>
    have hrest : bits.length < w := hw
    have hfirst : bit_in poly c b ^^^ low_bits bits = bit_step poly (c ^^^ low_bits (b :: bits)) := by
      rw [low_bits, BitVec.xor_comm (low_bits bits <<< 1), ← BitVec.xor_assoc, bit_step_xor, bit_step_shifted poly hrest]
      rfl
    rw [List.length_cons, Function.iterate_succ_apply, ← hfirst]
    exact ih _ (Nat.le_of_lt hrest)

/-! ## Bytes -/

/-- The bits of a byte, the lowest first. -/
def bits_of (b : BitVec 8) : List Bool := (List.range 8).map b.getLsbD

@[simp] theorem length_bits_of (b : BitVec 8) : (bits_of b).length = 8 := by simp [bits_of]

theorem low_bits_bits_of (b : BitVec 8) : (low_bits (bits_of b) : BitVec w) = b.setWidth w := by
  apply BitVec.eq_of_getLsbD_eq
  intro i hi
  rw [getLsbD_low_bits _ hi, BitVec.getLsbD_setWidth, decide_eq_true hi, Bool.true_and]
  by_cases hin : i < 8
  · simp [bits_of, hin]
  · rw [List.getD_eq_default _ _ (by rw [length_bits_of]; omega), BitVec.getLsbD_of_ge b i (by omega)]

theorem byte_step_eq_bits (hw : 8 ≤ w) (c : BitVec w) (b : BitVec 8) : byte_step poly c b = serial_bits poly c (bits_of b) := by
  rw [serial_bits_eq poly c _ (by rw [length_bits_of]; exact hw), length_bits_of, low_bits_bits_of]
  rfl

/-! ## Nothing is lost -/

section Constant
variable {poly}

/-- With a constant term the step can be undone. -/
theorem bit_step_injective (hw : 0 < w) (hpoly : poly.getLsbD (w - 1) = true) {a b : BitVec w}
    (h : bit_step poly a = bit_step poly b) : a = b := by
  have hzero : bit_step poly (a ^^^ b) = 0#w := by rw [bit_step_xor, h, BitVec.xor_self]
  suffices hall : ∀ c : BitVec w, bit_step poly c = 0#w → c = 0#w from BitVec.xor_eq_zero_iff.1 (hall _ hzero)
  intro c hc
  have htop : (c >>> 1).getLsbD (w - 1) = false := by
    rw [BitVec.getLsbD_ushiftRight, BitVec.getLsbD_of_ge c _ (by omega)]
  rw [bit_step] at hc
  by_cases hlow : c.getLsbD 0 = true
  · rw [if_pos hlow] at hc
    have hsame : c >>> 1 = poly := BitVec.xor_eq_zero_iff.1 hc
    rw [hsame, hpoly] at htop
    cases htop
  · rw [if_neg hlow] at hc
    apply BitVec.eq_of_getLsbD_eq
    intro i hi
    rw [BitVec.getLsbD_zero]
    cases i with
    | zero => exact Bool.eq_false_iff.2 hlow
    | succ i =>
      have hbit := congrArg (fun d : BitVec w => d.getLsbD i) hc
      rwa [BitVec.getLsbD_ushiftRight, BitVec.getLsbD_zero, Nat.add_comm] at hbit

theorem bit_steps_injective (hw : 0 < w) (hpoly : poly.getLsbD (w - 1) = true) (n : Nat) :
    Function.Injective (bit_step poly)^[n] :=
  Function.Injective.iterate (fun _ _ h => bit_step_injective hw hpoly h) n

/-- The same bits keep different remainders apart. -/
theorem serial_bits_injective (hw : 0 < w) (hpoly : poly.getLsbD (w - 1) = true) (bits : List Bool) {c d : BitVec w}
    (h : serial_bits poly c bits = serial_bits poly d bits) : c = d := by
  induction bits generalizing c d with
  | nil => exact h
  | cons b bits ih => exact (BitVec.xor_left_inj _).1 (bit_step_injective hw hpoly (ih h))

/-- A burst that is not longer than the remainder is noticed. -/
theorem burst (hw : 0 < w) (hpoly : poly.getLsbD (w - 1) = true) {c : BitVec w} {before xs ys after : List Bool}
    (hlen : xs.length = ys.length) (hshort : xs.length ≤ w)
    (h : serial_bits poly c (before ++ xs ++ after) = serial_bits poly c (before ++ ys ++ after)) : xs = ys := by
  rw [serial_bits_append, serial_bits_append, serial_bits_append, serial_bits_append] at h
  have hmiddle := serial_bits_injective hw hpoly after h
  rw [serial_bits_eq poly _ xs hshort, serial_bits_eq poly _ ys (hlen ▸ hshort), hlen] at hmiddle
  have hsame := bit_steps_injective hw hpoly _ hmiddle
  exact low_bits_injective hlen hshort ((BitVec.xor_right_inj _).1 hsame)

end Constant

/-! ## The highest bit first -/

/-- One bit of the message is divided out, with the highest bit first. -/
def left_step (c : BitVec w) : BitVec w := if c.msb = true then (c <<< 1) ^^^ poly else c <<< 1

def left_bit_in (c : BitVec w) (b : Bool) : BitVec w := left_step poly (c ^^^ ((BitVec.ofBool b).setWidth w <<< (w - 1)))

def left_bits (c : BitVec w) (bits : List Bool) : BitVec w := bits.foldl (left_bit_in poly) c

/-- A byte is added to the highest bits and divided out bit by bit. -/
def left_byte (c : BitVec w) (b : BitVec 8) : BitVec w := (left_step poly)^[8] (c ^^^ (b.setWidth w <<< (w - 8)))

theorem left_bits_append (c : BitVec w) (xs ys : List Bool) :
    left_bits poly c (xs ++ ys) = left_bits poly (left_bits poly c xs) ys := List.foldl_append

theorem reverse_shiftLeft (c : BitVec w) (n : Nat) : (c <<< n).reverse = c.reverse >>> n := by
  apply BitVec.eq_of_getLsbD_eq
  intro i hi
  rw [BitVec.getLsbD_reverse, BitVec.getLsbD_ushiftRight, BitVec.getLsbD_reverse, BitVec.getMsbD_shiftLeft, Nat.add_comm]

theorem reverse_xor (a b : BitVec w) : (a ^^^ b).reverse = a.reverse ^^^ b.reverse := by
  apply BitVec.eq_of_getLsbD_eq
  intro i hi
  rw [BitVec.getLsbD_reverse, BitVec.getMsbD_xor, BitVec.getLsbD_xor, BitVec.getLsbD_reverse, BitVec.getLsbD_reverse]

theorem reverse_left_step (c : BitVec w) : (left_step poly c).reverse = bit_step poly.reverse c.reverse := by
  have hbit : c.reverse.getLsbD 0 = c.msb := by rw [BitVec.getLsbD_reverse, BitVec.msb]
  rw [left_step, bit_step, hbit]
  split
  · rw [reverse_xor, reverse_shiftLeft]
  · rw [reverse_shiftLeft]

theorem reverse_left_steps (n : Nat) (c : BitVec w) :
    ((left_step poly)^[n] c).reverse = (bit_step poly.reverse)^[n] c.reverse := by
  induction n with
  | zero => rfl
  | succ n ih => rw [Function.iterate_succ_apply', reverse_left_step, ih, Function.iterate_succ_apply']

theorem reverse_injective {a b : BitVec w} (h : a.reverse = b.reverse) : a = b := by
  rw [← BitVec.reverse_reverse_eq (x := a), h, BitVec.reverse_reverse_eq]

theorem left_steps_xor (n : Nat) (a b : BitVec w) :
    (left_step poly)^[n] (a ^^^ b) = (left_step poly)^[n] a ^^^ (left_step poly)^[n] b := by
  apply reverse_injective
  rw [reverse_xor, reverse_left_steps, reverse_left_steps, reverse_left_steps, reverse_xor, bit_steps_xor]

/-- A remainder whose high bits are 0 is only shifted. -/
theorem left_steps_low {n : Nat} {c : BitVec w} (h : ∀ i < n, c.getMsbD i = false) : (left_step poly)^[n] c = c <<< n := by
  apply reverse_injective
  rw [reverse_left_steps, reverse_shiftLeft]
  apply bit_steps_high
  intro i hi
  rw [BitVec.getLsbD_reverse]
  exact h i hi

/-- What comes in at the highest bits comes in at the lowest of what is reversed. -/
theorem reverse_high {k : Nat} (hk : k ≤ w) (b : BitVec k) : (b.setWidth w <<< (w - k)).reverse = b.reverse.setWidth w := by
  apply BitVec.eq_of_getLsbD_eq
  intro i hi
  have hshift : i + (w - k) + k - w = i := by omega
  rw [BitVec.getLsbD_reverse, BitVec.getMsbD_shiftLeft, BitVec.getLsbD_setWidth, BitVec.getLsbD_reverse, decide_eq_true hi,
    Bool.true_and, BitVec.getMsbD_setWidth, hshift, decide_eq_true (Nat.le_add_left _ _), Bool.true_and]

theorem reverse_left_bits (hw : 0 < w) (c : BitVec w) (bits : List Bool) :
    (left_bits poly c bits).reverse = serial_bits poly.reverse c.reverse bits := by
  induction bits generalizing c with
  | nil => rfl
  | cons b bits ih =>
    have hbit : (BitVec.ofBool b).reverse = BitVec.ofBool b := by cases b <;> rfl
    have hfirst : (left_bit_in poly c b).reverse = bit_in poly.reverse c.reverse b := by
      rw [left_bit_in, reverse_left_step, reverse_xor, reverse_high hw, hbit]
      rfl
    exact (ih _).trans (by rw [hfirst]; rfl)

theorem left_byte_eq_bits (hw : 8 ≤ w) (c : BitVec w) (b : BitVec 8) :
    left_byte poly c b = left_bits poly c (bits_of b.reverse) := by
  apply reverse_injective
  rw [reverse_left_bits poly (by omega), left_byte, reverse_left_steps, reverse_xor, reverse_high hw, ← byte_step_eq_bits _ hw]
  rfl

/-- What is looked up for a byte is one of 256 values, the rest is shifted. -/
theorem left_byte_table (hw : 8 ≤ w) (c : BitVec w) (b : BitVec 8) :
    left_byte poly c b = (left_step poly)^[8] (((c >>> (w - 8)).setWidth 8 ^^^ b).setWidth w <<< (w - 8)) ^^^ (c <<< 8) := by
  have hsplit : c = ((c >>> (w - 8)).setWidth 8).setWidth w <<< (w - 8) ^^^ (c <<< 8) >>> 8 := by
    apply BitVec.eq_of_getLsbD_eq
    intro i hi
    simp only [BitVec.getLsbD_xor, BitVec.getLsbD_shiftLeft, BitVec.getLsbD_setWidth, BitVec.getLsbD_ushiftRight]
    by_cases hlow : i < w - 8
    · have hin : 8 + i < w := by omega
      simp [hlow, hin]
    · have hback : w - 8 + (i - (w - 8)) = i := by omega
      have hout : ¬8 + i < w := by omega
      have hbyte : i - (w - 8) < 8 := by omega
      have hinside : i - (w - 8) < w := by omega
      simp [hlow, hi, hback, hout, hbyte, hinside]
  have hrest : (left_step poly)^[8] ((c <<< 8) >>> 8) = c <<< 8 := by
    rw [left_steps_low]
    · apply BitVec.eq_of_getLsbD_eq
      intro i hi
      simp only [BitVec.getLsbD_shiftLeft, BitVec.getLsbD_ushiftRight]
      by_cases hlow : i < 8
      · simp [hlow]
      · have hback : 8 + (i - 8) = i := by omega
        simp [hlow, hi, hback]
    · intro i hi
      have hw' : i < w := Nat.lt_of_lt_of_le hi hw
      simp [hi, hw']
  have hmerge : ((c >>> (w - 8)).setWidth 8 ^^^ b).setWidth w <<< (w - 8) =
      ((c >>> (w - 8)).setWidth 8).setWidth w <<< (w - 8) ^^^ b.setWidth w <<< (w - 8) := by
    rw [BitVec.setWidth_xor, BitVec.shiftLeft_xor_distrib]
  rw [left_byte]
  conv_lhs => rw [hsplit]
  rw [BitVec.xor_assoc, BitVec.xor_comm _ (b.setWidth w <<< (w - 8)), ← BitVec.xor_assoc, ← hmerge, left_steps_xor, hrest]

theorem reverse_constant {w : Nat} {poly : BitVec w} (hw : 0 < w) (hpoly : poly.getLsbD 0 = true) :
    poly.reverse.getLsbD (w - 1) = true := by
  rw [BitVec.getLsbD_reverse, BitVec.getMsbD, Nat.sub_self, hpoly, decide_eq_true (by omega), Bool.true_and]

theorem left_steps_injective (hw : 0 < w) (hpoly : poly.getLsbD 0 = true) (n : Nat) : Function.Injective (left_step poly)^[n] := by
  intro a b h
  have hreverse := congrArg BitVec.reverse h
  rw [reverse_left_steps, reverse_left_steps] at hreverse
  exact reverse_injective (bit_steps_injective hw (reverse_constant hw hpoly) n hreverse)

/-- A burst that is not longer than the remainder is noticed. -/
theorem left_burst (hw : 0 < w) (hpoly : poly.getLsbD 0 = true) {c : BitVec w} {before xs ys after : List Bool}
    (hlen : xs.length = ys.length) (hshort : xs.length ≤ w)
    (h : left_bits poly c (before ++ xs ++ after) = left_bits poly c (before ++ ys ++ after)) : xs = ys := by
  have hsame : serial_bits poly.reverse c.reverse (before ++ xs ++ after) =
      serial_bits poly.reverse c.reverse (before ++ ys ++ after) := by
    rw [← reverse_left_bits poly hw, h, reverse_left_bits poly hw]
  exact burst hw (reverse_constant hw hpoly) hlen hshort hsame

end CLib.Crc
