import Mathlib.Data.Nat.Digits.Lemmas
import McLinOS.CLib.Strings
/-!
# The digits of a number

`lib/vsprintf.c` writes a number from its last digit on, in front of what is already
there. Decimal digits are found without a division: with a multiplication and a shift,
four of them at a time.
-/
open CLib

set_option linter.style.nameCheck false

namespace McLinOS.Vsprintf

/-- `*--end = c`. -/
def push (s : Mem × Nat) (c : UInt8) : Mem × Nat := (s.1.set (s.2 - 1) c, s.2 - 1)

/-- The digits of `r`, which is less than 10000. `end` is a copy of the caller's. -/
def put_dec_full4 (m : Mem) (e r : Nat) : Mem :=
  let s := (List.range 3).foldl (fun (s : (Mem × Nat) × Nat) _ =>
    let q := u32 (s.2 * 0xccd) >>> 15
    (push s.1 (UInt8.ofNat ('0'.toNat + u32sub s.2 (u32 (q * 10)))), q)) ((m, e), r)
  (push s.1 (UInt8.ofNat ('0'.toNat + s.2))).1

/-- The quotient, and the memory. -/
def put_dec_helper4 (m : Mem) (e x : Nat) : Nat × Mem :=
  let q := u32 ((x * 0x346DC5D7 % 2 ^ 64) >>> 43)
  (q, put_dec_full4 m e (u32sub x (u32 (q * 10000))))

/-- `while (p < end && *p == '0') ++p`, with so many bytes left. -/
def strip (m : Mem) : Nat → Nat → Nat
  | 0, p => p
  | left + 1, p => if m p = '0'.toUInt8 then strip m left (p + 1) else p

/-- The pointer to the first digit, and the memory. -/
def put_dec (m : Mem) (e n : Nat) : Nat × Mem :=
  let d1 := u32 n >>> 16
  let h := u32 (n >>> 32)
  let d2 := h &&& 0xffff
  let d3 := h >>> 16
  let q := u32 (656 * d3 + 7296 * d2 + 5536 * d1 + (u32 n &&& 0xffff))
  let (q, m) := put_dec_helper4 m e q
  let p := e - 4
  let q := u32 (q + 7671 * d3 + 9496 * d2 + 6 * d1)
  let (q, m) := put_dec_helper4 m p q
  let p := p - 4
  let q := u32 (q + 4749 * d3 + 42 * d2)
  let (q, m) := put_dec_helper4 m p q
  let p := p - 4
  let q := u32 (q + 281 * d3)
  let (q, m) := put_dec_helper4 m p q
  let p := p - 4
  let m := put_dec_full4 m p q
  let p := p - 4
  (strip m (e - p) p, m)

def digits : List UInt8 := "0123456789ABCDEF".toList.map Char.toUInt8

/-- `for (; num != 0; num >>= w) *--end = digit(num & mask)` for a number of 64 bits. -/
def shift_digits (w : Nat) (digit : Nat → UInt8) : Nat → Nat → Mem × Nat → Mem × Nat
  | 0, _, s => s
  | left + 1, num, s =>
    if num ≠ 0 then shift_digits w digit left (num >>> w) (push s (digit (num &&& (2 ^ w - 1)))) else s

/-- `none` for a base that is not 8, 10 or 16. -/
def number (m : Mem) (e num base : Nat) (locase : UInt8) : Option (Nat × Mem) :=
  match base with
  | 10 => some (if num ≠ 0 then put_dec m e num else (e, m))
  | 8 =>
    let (m, p) := shift_digits 3 (fun d => UInt8.ofNat ('0'.toNat + d)) 64 num (m, e)
    some (p, m)
  | 16 =>
    let (m, p) := shift_digits 4 (fun d => digits.getD d 0 ||| locase) 64 num (m, e)
    some (p, m)
  | _ => none

/-! ## Pushing -/

/-- What is pushed one behind the other. -/
def pushes (s : Mem × Nat) (cs : List UInt8) : Mem × Nat := cs.foldl push s

theorem pushes_append (s : Mem × Nat) (xs ys : List UInt8) : pushes s (xs ++ ys) = pushes (pushes s xs) ys := List.foldl_append

theorem pushes_snd (s : Mem × Nat) (cs : List UInt8) : (pushes s cs).2 = s.2 - cs.length := by
  induction cs generalizing s with
  | nil => rfl
  | cons c cs ih =>
    rw [List.length_cons, Nat.add_comm, Nat.sub_add_eq]
    exact ih (push s c)

/-- The first byte that is pushed is the last in memory. -/
theorem pushes_fst (m : Mem) {e : Nat} {cs : List UInt8} (h : cs.length ≤ e) :
    (pushes (m, e) cs).1 = Mem.copy m (e - cs.length) cs.reverse := by
  induction cs generalizing m e with
  | nil =>
    rw [List.reverse_nil, Mem.copy_nil]
    rfl
  | cons c cs ih =>
    rw [List.length_cons] at h
    have hrest : cs.length ≤ e - 1 := by omega
    have hstart : e - 1 - cs.length = e - (cs.length + 1) := by omega
    have hlast : e - (cs.length + 1) + cs.reverse.length = e - 1 := by
      rw [List.length_reverse]
      omega
    refine (ih (m.set (e - 1) c) hrest).trans ?_
    rw [List.reverse_cons, List.length_cons, ← Mem.copy_append, hstart, hlast]
    funext x
    by_cases hx : x = e - 1
    · have hout : e - (cs.length + 1) + cs.reverse.length ≤ x := by omega
      rw [Mem.copy_apply_ne (.inr hout), hx, Mem.set_same, Mem.copy, if_pos (by simp), Nat.sub_self]
      rfl
    · have hout : x < e - 1 ∨ e - 1 + [c].length ≤ x := by
        rw [List.length_singleton]
        omega
      rw [Mem.copy_apply_ne hout]
      unfold Mem.copy
      rw [Mem.set_ne hx]

/-! ## Four digits -/

/-- The digit of a value below 10, as a character. -/
def digit (d : Nat) : UInt8 := UInt8.ofNat ('0'.toNat + d)

/-- The digits of `n` from the `a`th to the last before the `b`th, the lowest first. -/
def digit_run (n a b : Nat) : List UInt8 := (List.range' a (b - a)).map fun j => digit (n / 10 ^ j % 10)

/-- Four digits of a number from its `a`th on are those of a number that agrees with it there. -/
theorem digit_run_congr {n q a : Nat} (h : n / 10 ^ a % 10000 = q % 10000) : digit_run n a (a + 4) = digit_run q 0 4 := by
  have hdigit : ∀ j < 4, n / 10 ^ (a + j) % 10 = q / 10 ^ j % 10 := by
    intro j hj
    rw [Nat.pow_add, ← Nat.div_div_eq_div_mul]
    generalize n / 10 ^ a = k at h
    match j, hj with
    | 0, _ => omega
    | 1, _ => omega
    | 2, _ => omega
    | 3, _ => omega
  have hleft : digit_run n a (a + 4) = (List.range 4).map fun j => digit (n / 10 ^ (a + j) % 10) := by
    rw [digit_run, Nat.add_sub_cancel_left, List.range'_eq_map_range, List.map_map]
    rfl
  rw [hleft]
  apply List.map_congr_left
  intro j hj
  rw [hdigit j (List.mem_range.1 hj)]

theorem put_dec_full4_eq (m : Mem) (e : Nat) {r : Nat} (hr : r < 10000) :
    put_dec_full4 m e r = (pushes (m, e) (digit_run r 0 4)).1 := by
  have hquot : ∀ r < 16389, u32 (r * 0xccd) >>> 15 = r / 10 := by
    intro r hr
    rw [u32_of_lt (by omega), Nat.shiftRight_eq_div_pow]
    omega
  have hrem : ∀ r < 16389, u32sub r (u32 (r / 10 * 10)) = r % 10 := by
    intro r hr
    rw [u32_of_lt (by omega), u32sub_of_le (by omega) (by omega)]
    omega
  have hfour : digit_run r 0 4 = [digit (r % 10), digit (r / 10 % 10), digit (r / 10 / 10 % 10), digit (r / 10 / 10 / 10)] := by
    have h0 : r / 10 ^ 0 % 10 = r % 10 := by omega
    have h1 : r / 10 ^ 1 % 10 = r / 10 % 10 := by omega
    have h2 : r / 10 ^ 2 % 10 = r / 10 / 10 % 10 := by omega
    have h3 : r / 10 ^ 3 % 10 = r / 10 / 10 / 10 := by omega
    rw [← h0, ← h1, ← h2, ← h3]
    rfl
  have hturns : List.range 3 = [0, 1, 2] := rfl
  have h1 : r / 10 < 16389 := by omega
  have h2 : r / 10 / 10 < 16389 := by omega
  simp only [put_dec_full4, hturns, List.foldl_cons, List.foldl_nil, hquot r (by omega), hquot _ h1, hquot _ h2, hrem r (by omega),
    hrem _ h1, hrem _ h2, hfour]
  rfl

theorem put_dec_helper4_eq (m : Mem) (e : Nat) {x : Nat} (hx : x < 1128869999) :
    put_dec_helper4 m e x = (x / 10000, (pushes (m, e) (digit_run x 0 4)).1) := by
  have hquot : u32 ((x * 0x346DC5D7 % 2 ^ 64) >>> 43) = x / 10000 := by
    have hfits : x * 0x346DC5D7 < 2 ^ 64 := by omega
    have hsplit := Nat.div_add_mod x 10000
    have hlow := Nat.mod_lt x (by decide : 10000 > 0)
    -- the multiplier is a little too large, by 7792 / 2^43 for each 10000
    have hdiv : x * 0x346DC5D7 / 2 ^ 43 = x / 10000 := Nat.div_eq_of_lt_le (by omega) (by omega)
    rw [Nat.mod_eq_of_lt hfits, Nat.shiftRight_eq_div_pow, hdiv, u32_of_lt (by omega)]
  have hrem : u32sub x (u32 (x / 10000 * 10000)) = x % 10000 := by
    rw [u32_of_lt (by omega), u32sub_of_le (by omega) (by omega)]
    omega
  have hlow : x % 10000 < 10000 := Nat.mod_lt _ (by decide)
  have hdigits : digit_run (x % 10000) 0 4 = digit_run x 0 4 := digit_run_congr (a := 0) (by omega)
  rw [put_dec_helper4, hquot, hrem, put_dec_full4_eq m e hlow, hdigits]

/-! ## A decimal number -/

theorem digit_run_append {n a b c : Nat} (hab : a ≤ b) (hbc : b ≤ c) : digit_run n a b ++ digit_run n b c = digit_run n a c := by
  have hstart : a + (b - a) = b := by omega
  have hlen : b - a + (c - b) = c - a := by omega
  have hrange : List.range' a (b - a) ++ List.range' b (c - b) = List.range' a (c - a) := by
    have happend : List.range' a (b - a) ++ List.range' (a + (b - a)) (c - b) = List.range' a (b - a + (c - b)) :=
      List.range'_append_1
    rwa [hstart, hlen] at happend
  rw [digit_run, digit_run, digit_run, ← List.map_append, hrange]

@[simp] theorem length_digit_run (n a b : Nat) : (digit_run n a b).length = b - a := by simp [digit_run]

theorem pushes_pair (m : Mem) (e : Nat) (cs : List UInt8) : pushes (m, e) cs = ((pushes (m, e) cs).1, e - cs.length) := by
  rw [← pushes_snd (m, e) cs]

/-- Four more digits in front of those that are there. -/
theorem pushes_four (m : Mem) (e : Nat) {n q a : Nat} (h : n / 10 ^ a % 10000 = q % 10000) :
    (pushes ((pushes (m, e) (digit_run n 0 a)).1, e - a) (digit_run q 0 4)).1 = (pushes (m, e) (digit_run n 0 (a + 4))).1 := by
  have hpair := pushes_pair m e (digit_run n 0 a)
  rw [length_digit_run, Nat.sub_zero] at hpair
  rw [← hpair, ← digit_run_congr h, ← pushes_append, digit_run_append (Nat.zero_le a) (Nat.le_add_right a 4)]

/-- The first four digits. -/
theorem pushes_low (m : Mem) (e : Nat) {n q : Nat} (h : n / 10 ^ 0 % 10000 = q % 10000) :
    (pushes (m, e) (digit_run q 0 4)).1 = (pushes (m, e) (digit_run n 0 4)).1 := by
  rw [← digit_run_congr h]

/-- The sums of `put_dec`, from the 16-bit parts of `n`. -/
structure Sums (n q₀ q₁ q₂ q₃ : Nat) : Prop where
  first : n / 10 ^ 0 % 10000 = q₀ % 10000
  second : n / 10 ^ 4 % 10000 = q₁ % 10000
  third : n / 10 ^ 8 % 10000 = q₂ % 10000
  fourth : n / 10 ^ 12 % 10000 = q₃ % 10000
  last : n / 10 ^ 16 % 10000 = q₃ / 10000 % 10000

theorem sums_of_parts {n d0 d1 d2 d3 q₀ q₁ q₂ q₃ : Nat} (hn : n = d3 * 2 ^ 48 + d2 * 2 ^ 32 + d1 * 2 ^ 16 + d0)
    (h0 : q₀ = 656 * d3 + 7296 * d2 + 5536 * d1 + d0) (h1 : q₁ = q₀ / 10000 + 7671 * d3 + 9496 * d2 + 6 * d1)
    (h2 : q₂ = q₁ / 10000 + 4749 * d3 + 42 * d2) (h3 : q₃ = q₂ / 10000 + 281 * d3) : Sums n q₀ q₁ q₂ q₃ := by
  have hnext : ∀ {N q R : Nat}, N = q + 10000 * R → N % 10000 = q % 10000 ∧ N / 10000 = q / 10000 + R := by
    intro N q R h
    omega
  obtain ⟨hm0, hd0⟩ : n % 10000 = q₀ % 10000 ∧
      n / 10000 = q₀ / 10000 + (7671 * d3 + 9496 * d2 + 6 * d1 + 10000 * (4749 * d3 + 42 * d2 + 10000 * (281 * d3))) :=
    hnext (by omega)
  obtain ⟨hm1, hd1⟩ : n / 10000 % 10000 = q₁ % 10000 ∧
      n / 10000 / 10000 = q₁ / 10000 + (4749 * d3 + 42 * d2 + 10000 * (281 * d3)) := hnext (by omega)
  obtain ⟨hm2, hd2⟩ : n / 10000 / 10000 % 10000 = q₂ % 10000 ∧ n / 10000 / 10000 / 10000 = q₂ / 10000 + 281 * d3 :=
    hnext (by omega)
  have hd3 : n / 10000 / 10000 / 10000 = q₃ := by rw [hd2, h3]
  have h8 : n / 10 ^ 8 = n / 10000 / 10000 := (Nat.div_div_eq_div_mul n 10000 10000).symm
  have h12 : n / 10 ^ 12 = n / 10000 / 10000 / 10000 := by
    rw [← h8]
    exact (Nat.div_div_eq_div_mul n (10 ^ 8) 10000).symm
  have h16 : n / 10 ^ 16 = n / 10000 / 10000 / 10000 / 10000 := by
    rw [← h12]
    exact (Nat.div_div_eq_div_mul n (10 ^ 12) 10000).symm
  refine ⟨?_, hm1, ?_, ?_, ?_⟩
  · rw [Nat.pow_zero, Nat.div_one]
    exact hm0
  · rw [h8]
    exact hm2
  · rw [h12, hd3]
  · rw [h16, hd3]

/-- The parts of `n` as `put_dec` takes them. -/
structure Parts (n d0 d1 d2 d3 : Nat) : Prop where
  sum : n = d3 * 2 ^ 48 + d2 * 2 ^ 32 + d1 * 2 ^ 16 + d0
  small : d0 < 2 ^ 16 ∧ d1 < 2 ^ 16 ∧ d2 < 2 ^ 16 ∧ d3 < 2 ^ 16
  d0 : u32 n &&& 0xffff = d0
  d1 : u32 n >>> 16 = d1
  d2 : u32 (n >>> 32) &&& 0xffff = d2
  d3 : u32 (n >>> 32) >>> 16 = d3

theorem parts_of {n : Nat} (hn : n < 2 ^ 64) : Parts n (n % 2 ^ 16) (n / 2 ^ 16 % 2 ^ 16) (n / 2 ^ 32 % 2 ^ 16) (n / 2 ^ 48) := by
  have hmask : ∀ k, k &&& 0xffff = k % 2 ^ 16 := fun k => Nat.and_two_pow_sub_one_eq_mod k 16
  have hhigh : u32 (n >>> 32) = n / 2 ^ 32 := by
    rw [Nat.shiftRight_eq_div_pow, u32_of_lt (by omega)]
  refine ⟨by omega, ⟨Nat.mod_lt _ (by decide), Nat.mod_lt _ (by decide), Nat.mod_lt _ (by decide), by omega⟩, ?_, ?_, ?_, ?_⟩
  · rw [hmask, u32]
    omega
  · rw [Nat.shiftRight_eq_div_pow, u32]
    omega
  · rw [hhigh, hmask]
  · rw [hhigh, Nat.shiftRight_eq_div_pow]
    exact Nat.div_div_eq_div_mul n (2 ^ 32) (2 ^ 16)

/-- The memory of `put_dec` after each call. -/
theorem put_dec_sums (m : Mem) (e : Nat) {n d0 d1 d2 d3 q₀ q₁ q₂ q₃ : Nat} (hparts : Parts n d0 d1 d2 d3)
    (h0 : q₀ = 656 * d3 + 7296 * d2 + 5536 * d1 + d0) (h1 : q₁ = q₀ / 10000 + 7671 * d3 + 9496 * d2 + 6 * d1)
    (h2 : q₂ = q₁ / 10000 + 4749 * d3 + 42 * d2) (h3 : q₃ = q₂ / 10000 + 281 * d3) :
    put_dec m e n = (strip (pushes (m, e) (digit_run n 0 20)).1 (e - (e - 4 - 4 - 4 - 4 - 4)) (e - 4 - 4 - 4 - 4 - 4),
      (pushes (m, e) (digit_run n 0 20)).1) := by
  obtain ⟨hb0, hb1, hb2, hb3⟩ := hparts.small
  have l0 : q₀ < 1128869999 := by omega
  have l1 : q₁ < 1128869999 := by omega
  have l2 : q₂ < 1128869999 := by omega
  have l3 : q₃ < 100000000 := by omega
  have hsums := sums_of_parts hparts.sum h0 h1 h2 h3
  have e2 : e - 4 - 4 = e - 8 := by omega
  have e3 : e - 4 - 4 - 4 = e - 12 := by omega
  have e4 : e - 4 - 4 - 4 - 4 = e - 16 := by omega
  have u0 : u32 (656 * d3 + 7296 * d2 + 5536 * d1 + d0) = q₀ := by rw [← h0, u32_of_lt (by omega)]
  have u1 : u32 (q₀ / 10000 + 7671 * d3 + 9496 * d2 + 6 * d1) = q₁ := by rw [← h1, u32_of_lt (by omega)]
  have u2 : u32 (q₁ / 10000 + 4749 * d3 + 42 * d2) = q₂ := by rw [← h2, u32_of_lt (by omega)]
  have u3 : u32 (q₂ / 10000 + 281 * d3) = q₃ := by rw [← h3, u32_of_lt (by omega)]
  have c1 : put_dec_helper4 m e q₀ = (q₀ / 10000, (pushes (m, e) (digit_run n 0 4)).1) := by
    rw [put_dec_helper4_eq m e l0, pushes_low m e hsums.first]
  have c2 : put_dec_helper4 (pushes (m, e) (digit_run n 0 4)).1 (e - 4) q₁ = (q₁ / 10000, (pushes (m, e) (digit_run n 0 8)).1) := by
    rw [put_dec_helper4_eq _ _ l1, pushes_four m e hsums.second]
  have c3 : put_dec_helper4 (pushes (m, e) (digit_run n 0 8)).1 (e - 4 - 4) q₂ =
      (q₂ / 10000, (pushes (m, e) (digit_run n 0 12)).1) := by
    rw [put_dec_helper4_eq _ _ l2, e2, pushes_four m e hsums.third]
  have c4 : put_dec_helper4 (pushes (m, e) (digit_run n 0 12)).1 (e - 4 - 4 - 4) q₃ =
      (q₃ / 10000, (pushes (m, e) (digit_run n 0 16)).1) := by
    rw [put_dec_helper4_eq _ _ (by omega), e3, pushes_four m e hsums.fourth]
  have c5 : put_dec_full4 (pushes (m, e) (digit_run n 0 16)).1 (e - 4 - 4 - 4 - 4) (q₃ / 10000) =
      (pushes (m, e) (digit_run n 0 20)).1 := by
    rw [put_dec_full4_eq _ _ (by omega), e4, pushes_four m e hsums.last]
  simp only [put_dec, hparts.d0, hparts.d1, hparts.d2, hparts.d3, u0, c1, u1, c2, u2, c3, u3, c4, c5]

/-! ## What is left of it -/

theorem map_getD_range {α : Type} {xs : List α} {k : Nat} (d : α) (h : xs.length ≤ k) :
    ((List.range k).map fun j => xs.getD j d) = xs ++ List.replicate (k - xs.length) d := by
  apply List.ext_getElem
  · simp [Nat.add_sub_cancel' h]
  · intro j hj hj'
    rw [List.getElem_map, List.getElem_range]
    by_cases hlt : j < xs.length
    · rw [List.getElem_append_left hlt, List.getD_eq_getElem xs d hlt]
    · rw [List.getElem_append_right (by omega), List.getElem_replicate, List.getD_eq_default xs d (by omega)]

/-- The zeros in front are left out, and nothing else. -/
theorem strip_copy (m : Mem) (p k : Nat) {cs : List UInt8} (h : ∀ c ∈ cs.head?, c ≠ '0'.toUInt8) :
    strip (Mem.copy m p (List.replicate k '0'.toUInt8 ++ cs)) (k + cs.length) p = p + k := by
  induction k generalizing m p with
  | zero =>
    cases cs with
    | nil => rfl
    | cons c cs =>
      have hfirst : Mem.copy m p (c :: cs) p ≠ '0'.toUInt8 := by
        rw [Mem.copy, if_pos (by simp), Nat.sub_self]
        exact h c rfl
      rw [List.replicate_zero, List.nil_append, List.length_cons, Nat.zero_add, strip, if_neg hfirst]
      rfl
  | succ k ih =>
    have hfirst : Mem.copy m p (List.replicate (k + 1) '0'.toUInt8 ++ cs) p = '0'.toUInt8 := by
      rw [Mem.copy, if_pos (by simp), Nat.sub_self]
      rfl
    have hleft : k + 1 + cs.length = k + cs.length + 1 := by omega
    rw [hleft, strip, if_pos hfirst, List.replicate_succ, List.cons_append, ← Mem.copy_cons, ih]
    omega

/-- A digit as it is printed. -/
def glyph (small : Bool) (d : Nat) : UInt8 :=
  if d < 10 then UInt8.ofNat ('0'.toNat + d) else UInt8.ofNat ((if small then 'a' else 'A').toNat + (d - 10))

/-- A number in a base, with no digit for 0. -/
def numeral (small : Bool) (base n : Nat) : List UInt8 := ((Nat.digits base n).map (glyph small)).reverse

@[simp] theorem length_numeral (small : Bool) (base n : Nat) : (numeral small base n).length = (Nat.digits base n).length := by
  simp [numeral]

theorem glyph_of_lt (small : Bool) {d : Nat} (h : d < 10) : glyph small d = digit d := if_pos h

theorem glyph_ne_zero (small : Bool) {d : Nat} (h : d < 16) (hd : d ≠ 0) : glyph small d ≠ '0'.toUInt8 := by
  have hall : ∀ small : Bool, ∀ d : Fin 16, d.1 ≠ 0 → glyph small d.1 ≠ '0'.toUInt8 := by decide
  exact hall small ⟨d, h⟩ hd

/-- A number does not begin with a zero. -/
theorem head_numeral (small : Bool) {base n : Nat} (hbase : 1 < base) (hsmall : base ≤ 16) :
    ∀ c ∈ (numeral small base n).head?, c ≠ '0'.toUInt8 := by
  intro c hc
  by_cases hn : n = 0
  · rw [hn, numeral, Nat.digits_zero] at hc
    cases hc
  · have hdigits : Nat.digits base n ≠ [] := Nat.digits_ne_nil_iff_ne_zero.2 hn
    have hlast := Nat.getLast_digit_ne_zero base hn
    have hlt := Nat.digits_lt_base hbase (List.getLast_mem hdigits)
    rw [numeral, List.head?_reverse, List.getLast?_map, List.getLast?_eq_some_getLast hdigits] at hc
    rw [← Option.some.inj hc]
    exact glyph_ne_zero small (by omega) hlast

theorem length_digits_le {base k n : Nat} (hbase : 1 < base) (hn : n < base ^ k) : (Nat.digits base n).length ≤ k :=
  (Nat.digits_length_le_iff hbase n).2 hn

theorem digit_run_digits {n k : Nat} (hn : n < 10 ^ k) :
    (digit_run n 0 k).reverse = List.replicate (k - (Nat.digits 10 n).length) '0'.toUInt8 ++ numeral false 10 n := by
  have hlen := length_digits_le (by decide : 1 < 10) hn
  have hrun : digit_run n 0 k = ((List.range k).map fun j => (Nat.digits 10 n).getD j 0).map digit := by
    rw [digit_run, Nat.sub_zero, ← List.range_eq_range', List.map_map]
    apply List.map_congr_left
    intro j _
    rw [Function.comp_apply, Nat.getD_digits n j (by decide)]
  have hglyphs : (Nat.digits 10 n).map digit = (Nat.digits 10 n).map (glyph false) :=
    List.map_congr_left fun d hd => (glyph_of_lt false (Nat.digits_lt_base (by decide) hd)).symm
  rw [hrun, map_getD_range 0 hlen, List.map_append, List.map_replicate, List.reverse_append, List.reverse_replicate, hglyphs]
  rfl

/-- Every number of 64 bits, with all its digits and no zero before them. -/
theorem put_dec_eq (m : Mem) {e n : Nat} (he : 20 ≤ e) (hn : n < 2 ^ 64) :
    put_dec m e n = (e - (Nat.digits 10 n).length,
      Mem.copy m (e - 20) (List.replicate (20 - (Nat.digits 10 n).length) '0'.toUInt8 ++ numeral false 10 n)) := by
  have hn20 : n < 10 ^ 20 := by omega
  have hlen := length_digits_le (by decide : 1 < 10) hn20
  have hrun : (digit_run n 0 20).length ≤ e := by rwa [length_digit_run]
  have hstart : e - 4 - 4 - 4 - 4 - 4 = e - 20 := by omega
  have hleft : e - (e - 20) = 20 - (Nat.digits 10 n).length + (numeral false 10 n).length := by
    rw [length_numeral]
    omega
  rw [put_dec_sums m e (parts_of hn) rfl rfl rfl rfl, pushes_fst m hrun, length_digit_run, Nat.sub_zero, digit_run_digits hn20, hstart,
    hleft, strip_copy m (e - 20) _ (head_numeral false (by decide) (by decide))]
  congr 1
  omega

theorem shift_digits_eq {w : Nat} (hw : 0 < w) (f : Nat → UInt8) (left : Nat) {n : Nat} (hn : n < 2 ^ left) (s : Mem × Nat) :
    shift_digits w f left n s = pushes s ((Nat.digits (2 ^ w) n).map f) := by
  induction left generalizing n s with
  | zero =>
    have hzero : n = 0 := by omega
    rw [hzero, Nat.digits_zero]
    rfl
  | succ left ih =>
    by_cases hzero : n = 0
    · rw [hzero, Nat.digits_zero]
      rfl
    · have hbase : 1 < 2 ^ w := Nat.one_lt_two_pow hw.ne'
      have hrest : n / 2 ^ w < 2 ^ left := by
        have htwo : 2 ≤ 2 ^ w := hbase
        have hhalf : n / 2 ^ w ≤ n / 2 := Nat.div_le_div_left htwo (by decide)
        have hhalves : n / 2 < 2 ^ left := by
          rw [Nat.pow_succ] at hn
          omega
        exact Nat.lt_of_le_of_lt hhalf hhalves
      have hdigits : Nat.digits (2 ^ w) n = n % 2 ^ w :: Nat.digits (2 ^ w) (n / 2 ^ w) := Nat.digits_def' hbase (by omega)
      rw [shift_digits, if_pos hzero, Nat.and_two_pow_sub_one_eq_mod, Nat.shiftRight_eq_div_pow, ih hrest, hdigits]
      rfl

/-- The bases `number` knows. -/
def Base (base : Nat) : Prop := base = 8 ∨ base = 10 ∨ base = 16

/-- `locase`. -/
def case_bit (small : Bool) : UInt8 := if small then 0x20 else 0

theorem digits_or (small : Bool) {d : Nat} (h : d < 16) : digits.getD d 0 ||| case_bit small = glyph small d := by
  have hall : ∀ small : Bool, ∀ d : Fin 16, digits.getD d.1 0 ||| case_bit small = glyph small d.1 := by decide
  exact hall small ⟨d, h⟩

/-- `cs` in front of `e`, and nothing written beyond `tmp`. -/
structure Printed (m m' : Mem) (e : Nat) (cs : List UInt8) : Prop where
  fits : cs.length ≤ 22
  text : Mem.bytes m' (e - cs.length) cs.length = cs
  frame : ∀ x, x < e - 22 ∨ e ≤ x → m' x = m x

theorem printed_copy (m : Mem) (zeros cs : List UInt8) {e : Nat} (he : 22 ≤ e) (hlen : zeros.length + cs.length ≤ 22) :
    Printed m (Mem.copy m (e - (zeros.length + cs.length)) (zeros ++ cs)) e cs := by
  have hstart : e - (zeros.length + cs.length) + zeros.length = e - cs.length := by omega
  refine ⟨by omega, ?_, ?_⟩
  · rw [← Mem.copy_append, hstart, Mem.bytes_copy]
  · intro x hx
    have hout : x < e - (zeros.length + cs.length) ∨ e - (zeros.length + cs.length) + (zeros ++ cs).length ≤ x := by
      rw [List.length_append]
      omega
    exact Mem.copy_apply_ne hout

/-- The digits that were shifted out, in front of `e`. -/
theorem printed_shift (m : Mem) (w : Nat) (f : Nat → UInt8) (small : Bool) {e n : Nat} (hw : 0 < w) (he : 22 ≤ e) (hn : n < 2 ^ 64)
    (hlen : n < (2 ^ w) ^ 22) (hf : ∀ d < 2 ^ w, f d = glyph small d) :
    ∃ m', shift_digits w f 64 n (m, e) = (m', e - (numeral small (2 ^ w) n).length) ∧
      Printed m m' e (numeral small (2 ^ w) n) := by
  have hbase : 1 < 2 ^ w := Nat.one_lt_two_pow hw.ne'
  have hcount := length_digits_le hbase hlen
  have hmap : (Nat.digits (2 ^ w) n).map f = (Nat.digits (2 ^ w) n).map (glyph small) :=
    List.map_congr_left fun d hd => hf d (Nat.digits_lt_base hbase hd)
  have hfits : ((Nat.digits (2 ^ w) n).map (glyph small)).length ≤ e := by
    rw [List.length_map]
    omega
  refine ⟨_, ?_, printed_copy m [] _ he ?_⟩
  · rw [shift_digits_eq hw f 64 hn, hmap, pushes_pair, pushes_fst m hfits, ← List.length_reverse]
    simp only [List.length_nil, Nat.zero_add, List.nil_append, numeral]
  · rw [List.length_nil, Nat.zero_add, length_numeral]
    exact hcount

/-- Letters are used for the digits from ten on only. -/
theorem numeral_small (small : Bool) {base : Nat} (n : Nat) (hbase : 1 < base) (hten : base ≤ 10) :
    numeral false base n = numeral small base n := by
  have hglyphs : (Nat.digits base n).map (glyph false) = (Nat.digits base n).map (glyph small) := by
    apply List.map_congr_left
    intro d hd
    have hlt := Nat.digits_lt_base hbase hd
    rw [glyph_of_lt false (by omega), glyph_of_lt small (by omega)]
  rw [numeral, numeral, hglyphs]

/-- A number is printed in every base with all its digits. -/
theorem number_eq (m : Mem) {e n base : Nat} (small : Bool) (hbase : Base base) (he : 22 ≤ e) (hn : n < 2 ^ 64) :
    ∃ m', number m e n base (case_bit small) = some (e - (numeral small base n).length, m') ∧ Printed m m' e (numeral small base n) := by
  obtain rfl | rfl | rfl := hbase
  · obtain ⟨m', hrun, hprinted⟩ := printed_shift m 3 (fun d => UInt8.ofNat ('0'.toNat + d)) small (by decide) he hn (by omega)
      fun d hd => (glyph_of_lt small (by omega)).symm
    have hnumber : number m e n 8 (case_bit small) =
        some ((shift_digits 3 (fun d => UInt8.ofNat ('0'.toNat + d)) 64 n (m, e)).2,
          (shift_digits 3 (fun d => UInt8.ofNat ('0'.toNat + d)) 64 n (m, e)).1) := rfl
    rw [hrun] at hnumber
    exact ⟨m', hnumber, hprinted⟩
  · have hlen : (Nat.digits 10 n).length ≤ 20 := length_digits_le (by decide) (by omega : n < 10 ^ 20)
    have hnumber : number m e n 10 (case_bit small) = some (if n ≠ 0 then put_dec m e n else (e, m)) := rfl
    rw [← numeral_small small n (by decide) (by decide), hnumber]
    by_cases hzero : n = 0
    · rw [if_neg (not_not.2 hzero), hzero, numeral, Nat.digits_zero]
      exact ⟨m, rfl, by decide, rfl, fun _ _ => rfl⟩
    · have hcount : (List.replicate (20 - (Nat.digits 10 n).length) '0'.toUInt8).length + (numeral false 10 n).length = 20 := by
        rw [List.length_replicate, length_numeral]
        omega
      have hprinted := printed_copy m (List.replicate (20 - (Nat.digits 10 n).length) '0'.toUInt8) (numeral false 10 n) he
        (by omega)
      rw [hcount] at hprinted
      refine ⟨_, ?_, hprinted⟩
      rw [if_pos hzero, put_dec_eq m (by omega) hn, length_numeral]
  · obtain ⟨m', hrun, hprinted⟩ := printed_shift m 4 (fun d => digits.getD d 0 ||| case_bit small) small (by decide) he hn (by omega)
      fun d hd => digits_or small hd
    have hnumber : number m e n 16 (case_bit small) =
        some ((shift_digits 4 (fun d => digits.getD d 0 ||| case_bit small) 64 n (m, e)).2,
          (shift_digits 4 (fun d => digits.getD d 0 ||| case_bit small) 64 n (m, e)).1) := rfl
    rw [hrun] at hnumber
    exact ⟨m', hnumber, hprinted⟩

/-! ## Reading it back -/

/-- The value of a printed digit. -/
def digit_value (c : UInt8) : Nat :=
  if c.toNat < 'A'.toNat then c.toNat - '0'.toNat else (c ||| 0x20).toNat - 'a'.toNat + 10

theorem digit_value_glyph (small : Bool) {d : Nat} (h : d < 16) : digit_value (glyph small d) = d := by
  have hall : ∀ small : Bool, ∀ d : Fin 16, digit_value (glyph small d.1) = d.1 := by decide
  exact hall small ⟨d, h⟩

theorem numeral_value (small : Bool) {base n : Nat} (hbase : 1 < base) (hsmall : base ≤ 16) :
    Nat.ofDigits base ((numeral small base n).reverse.map digit_value) = n := by
  have hvalues : ((numeral small base n).reverse.map digit_value) = Nat.digits base n := by
    rw [numeral, List.reverse_reverse, List.map_map]
    have hcongr : ∀ d ∈ Nat.digits base n, (digit_value ∘ glyph small) d = id d := by
      intro d hd
      have hlt := Nat.digits_lt_base hbase hd
      exact digit_value_glyph small (by omega)
    rw [List.map_congr_left hcongr, List.map_id]
  rw [hvalues, Nat.ofDigits_digits]

/-- What `number` leaves in front of `end` is read back as the number, begins with no zero, and has room in `tmp`. -/
theorem number_reads_back (m : Mem) {e n base : Nat} (small : Bool) (hbase : Base base) (he : 22 ≤ e) (hn : n < 2 ^ 64) :
    ∃ p m', number m e n base (case_bit small) = some (p, m') ∧ e - 22 ≤ p ∧ p ≤ e ∧
      Nat.ofDigits base ((Mem.bytes m' p (e - p)).reverse.map digit_value) = n ∧
      (∀ c ∈ (Mem.bytes m' p (e - p)).head?, c ≠ '0'.toUInt8) ∧ ∀ x, x < e - 22 ∨ e ≤ x → m' x = m x := by
  obtain ⟨hone, hsixteen⟩ : 1 < base ∧ base ≤ 16 := by
    rcases hbase with h | h | h <;> omega
  obtain ⟨m', hnumber, hprinted⟩ := number_eq m small hbase he hn
  have hfits := hprinted.fits
  have hlen : e - (e - (numeral small base n).length) = (numeral small base n).length := by omega
  refine ⟨_, m', hnumber, by omega, by omega, ?_, ?_, hprinted.frame⟩
  · rw [hlen, hprinted.text]
    exact numeral_value small hone hsixteen
  · rw [hlen, hprinted.text]
    exact head_numeral small hone hsixteen

theorem number_reads_back_max : ∃ p m', number (fun _ => 0) 22 (2 ^ 64 - 1) 8 (case_bit false) = some (p, m') ∧ 22 - 22 ≤ p ∧ p ≤ 22 ∧
    Nat.ofDigits 8 ((Mem.bytes m' p (22 - p)).reverse.map digit_value) = 2 ^ 64 - 1 ∧
    (∀ c ∈ (Mem.bytes m' p (22 - p)).head?, c ≠ '0'.toUInt8) ∧ ∀ x, x < 22 - 22 ∨ 22 ≤ x → m' x = 0 :=
  number_reads_back (fun _ => 0) false (.inl rfl) (by decide) (by decide)

end McLinOS.Vsprintf
