import McLinOS.Lib.CrcTables
/-!
# What the tables compute

Each of the checks is the remainder of the bits of the message, and for CRC-8 the table
that was built is right for every polynomial.
-/
open CLib

set_option linter.style.nameCheck false

namespace McLinOS.CrcTables

/-- The bits of these bytes, the lowest of each byte first. -/
def low_first (data : List (BitVec 8)) : List Bool := data.flatMap Crc.bits_of

/-- The bits of these bytes, the highest of each byte first. -/
def high_first (data : List (BitVec 8)) : List Bool := data.flatMap fun b => Crc.bits_of b.reverse

/-- A step for a byte that divides out its bits does so for all the bytes. -/
theorem foldl_bits {α : Type} {bits_of : BitVec 8 → List Bool} {divide : α → Bool → α} {f : α → BitVec 8 → α}
    (h : ∀ c b, f c b = (bits_of b).foldl divide c) (data : List (BitVec 8)) (c : α) :
    data.foldl f c = (data.flatMap bits_of).foldl divide c := by
  induction data generalizing c with
  | nil => rfl
  | cons b data ih => rw [List.foldl_cons, ih, List.flatMap_cons, List.foldl_append, h]

/-! ## CRC-16 -/

/-- The bits of x^16 + x^15 + x^2 + 1, reflected. -/
def polynomial16 : BitVec 16 := 0xA001

theorem crc16_table_entry {i : Nat} (hi : i < 256) :
    crc16_table.getD i 0 = (Crc.bit_step polynomial16)^[8] (BitVec.ofNat 16 i) := by
  have hall : ∀ i : Fin 256, crc16_table.getD i.val 0 = (Crc.bit_step polynomial16)^[8] (BitVec.ofNat 16 i.val) := by
    decide +kernel
  exact hall ⟨i, hi⟩

theorem mask16_bits : ∀ i < 16, (0xff#16).getLsbD i = decide (i < 8) := by decide

theorem crc16_byte_eq (crc : BitVec 16) (data : BitVec 8) :
    crc16_byte crc data = Crc.serial_bits polynomial16 crc (Crc.bits_of data) := by
  have hindex : ((crc ^^^ data.setWidth 16) &&& 0xff).toNat < 256 := by
    rw [BitVec.toNat_and]
    exact Nat.lt_succ_of_le Nat.and_le_right
  rw [crc16_byte, crc16_table_entry hindex, BitVec.ofNat_toNat, BitVec.setWidth_eq, ← Crc.byte_step_eq_bits _ (by decide),
    Crc.byte_step_table polynomial16 mask16_bits, BitVec.xor_comm]
  rfl

theorem crc16_eq (crc : BitVec 16) (buffer : List (BitVec 8)) :
    crc16 crc buffer = Crc.serial_bits polynomial16 crc (low_first buffer) := foldl_bits crc16_byte_eq buffer crc

/-! ## CRC-7 -/

/-- x^7 + x^3 + 1, without its highest term. -/
def polynomial7 : BitVec 7 := 0x09

/-- Seven bits in the highest bits of a byte. -/
def aligned (c : BitVec 7) : BitVec 8 := c.setWidth 8 <<< 1

theorem crc7_table_entry {i : Nat} (hi : i < 256) :
    crc7_be_syndrome_table.getD i 0 = (Crc.left_step (aligned polynomial7))^[8] (BitVec.ofNat 8 i) := by
  have hall : ∀ i : Fin 256, crc7_be_syndrome_table.getD i.val 0 =
      (Crc.left_step (aligned polynomial7))^[8] (BitVec.ofNat 8 i.val) := by
    decide +kernel
  exact hall ⟨i, hi⟩

/-- The lowest bit of the byte stays 0. -/
theorem aligned_bit_in (c : BitVec 7) (b : Bool) :
    Crc.left_bit_in (aligned polynomial7) (aligned c) b = aligned (Crc.left_bit_in polynomial7 c b) := by
  have hall : ∀ (c : Fin 128) (b : Bool), Crc.left_bit_in (aligned polynomial7) (aligned (BitVec.ofFin c)) b =
      aligned (Crc.left_bit_in polynomial7 (BitVec.ofFin c) b) := by
    decide +kernel
  exact hall c.toFin b

theorem aligned_bits (c : BitVec 7) (bits : List Bool) :
    Crc.left_bits (aligned polynomial7) (aligned c) bits = aligned (Crc.left_bits polynomial7 c bits) := by
  induction bits generalizing c with
  | nil => rfl
  | cons b bits ih => exact (congrArg (bits.foldl _) (aligned_bit_in c b)).trans (ih _)

theorem crc7_be_byte_eq (crc data : BitVec 8) :
    crc7_be_byte crc data = Crc.left_bits (aligned polynomial7) crc (Crc.bits_of data.reverse) := by
  have hbyte : Crc.left_byte (aligned polynomial7) crc data = (Crc.left_step (aligned polynomial7))^[8] (crc ^^^ data) := by
    rw [Crc.left_byte, BitVec.setWidth_eq, Nat.sub_self, BitVec.shiftLeft_zero]
  rw [crc7_be_byte, crc7_table_entry (BitVec.isLt _), BitVec.ofNat_toNat, BitVec.setWidth_eq,
    ← Crc.left_byte_eq_bits _ (by decide), hbyte]

theorem crc7_be_eq (crc : BitVec 7) (buffer : List (BitVec 8)) :
    crc7_be (aligned crc) buffer = aligned (Crc.left_bits polynomial7 crc (high_first buffer)) := by
  rw [← aligned_bits]
  exact foldl_bits crc7_be_byte_eq buffer (aligned crc)

/-! ## CRC-4 -/

/-- x^4 + x^2 + x + 1, without its highest term. -/
def polynomial4 : BitVec 4 := 0x7

/-- The lower `bits` bits of `x` with zeros in front of them, to a multiple of 4. -/
def message (x : BitVec 32) (bits : Nat) : List Bool :=
  (List.range ((bits + 3) / 4 * 4)).map fun k =>
    decide ((bits + 3) / 4 * 4 - 1 - k < bits) && x.getLsbD ((bits + 3) / 4 * 4 - 1 - k)

theorem crc4_tab_entry (c n : BitVec 4) : crc4_tab[(c.setWidth 8 ^^^ n.setWidth 8).toNat]? =
    some ((Crc.left_bits polynomial4 c [n.getLsbD 3, n.getLsbD 2, n.getLsbD 1, n.getLsbD 0]).setWidth 8) := by
  have hall : ∀ c n : Fin 16, crc4_tab[((BitVec.ofFin c : BitVec 4).setWidth 8 ^^^ (BitVec.ofFin n : BitVec 4).setWidth 8).toNat]? =
      some ((Crc.left_bits polynomial4 (BitVec.ofFin c) [(BitVec.ofFin n : BitVec 4).getLsbD 3, (BitVec.ofFin n : BitVec 4).getLsbD 2,
        (BitVec.ofFin n : BitVec 4).getLsbD 1, (BitVec.ofFin n : BitVec 4).getLsbD 0]).setWidth 8) := by
    decide +kernel
  exact hall c.toFin n.toFin

/-- The bit `i` of the mask. -/
theorem mask_bit {bits : Nat} (hbits : bits < 64) (i : Nat) : ((1#64 <<< bits) - 1).getLsbD i = decide (i < bits) := by
  have hmask : ((1#64 <<< bits) - 1).toNat = 2 ^ bits - 1 := by
    have hpow : 2 ^ bits < 2 ^ 64 := Nat.pow_lt_pow_right (by decide) hbits
    have hone : 1 ≤ 2 ^ bits := Nat.one_le_two_pow
    have hshift : (1#64 <<< bits).toNat = 2 ^ bits := by
      rw [BitVec.toNat_shiftLeft, Nat.shiftLeft_eq, BitVec.toNat_ofNat, Nat.one_mod_two_pow_eq_one.2 (by decide), Nat.one_mul,
        Nat.mod_eq_of_lt hpow]
    have hunit : (1 : BitVec 64).toNat = 1 := rfl
    rw [BitVec.toNat_sub, hshift, hunit]
    omega
  rw [← BitVec.testBit_toNat ((1#64 <<< bits) - 1), hmask, Nat.testBit_two_pow_sub_one]

/-- The bit `i` of `x` with its upper bits masked. -/
theorem masked_bit (x : BitVec 32) {bits : Nat} (hbits : bits ≤ 32) (i : Nat) :
    (x &&& ((1#64 <<< bits) - 1).setWidth 32).getLsbD i = (decide (i < bits) && x.getLsbD i) := by
  rw [BitVec.getLsbD_and, BitVec.getLsbD_setWidth, mask_bit (by omega), Bool.and_comm]
  by_cases hi : i < bits
  · have h32 : i < 32 := by omega
    simp [hi, h32]
  · simp [hi]

/-- The lowest four bits. -/
theorem nibble_eq (y : BitVec 32) : (y &&& 0xf).setWidth 8 = (y.setWidth 4).setWidth 8 := by
  apply BitVec.eq_of_toNat_eq
  have hand : y.toNat &&& 15 = y.toNat % 16 := Nat.and_two_pow_sub_one_eq_mod y.toNat 4
  rw [BitVec.toNat_setWidth, BitVec.toNat_and, BitVec.toNat_setWidth, BitVec.toNat_setWidth]
  exact congrArg (· % 2 ^ 8) hand

theorem take_message (x : BitVec 32) (bits : Nat) {n : Nat} (hn : n ≤ (bits + 3) / 4 * 4) :
    (message x bits).take n = (List.range n).map fun k =>
      decide ((bits + 3) / 4 * 4 - 1 - k < bits) && x.getLsbD ((bits + 3) / 4 * 4 - 1 - k) := by
  rw [message, ← List.map_take, List.take_range, Nat.min_eq_left hn]

/-- So many nibbles of the message. -/
theorem crc4_nibbles (c : BitVec 4) (x : BitVec 32) {bits : Nat} (hbits : bits ≤ 32) {n : Nat} (hn : n ≤ (bits + 3) / 4) :
    (List.range n).foldlM (fun c k => crc4_tab[(c ^^^ (((x &&& ((1#64 <<< bits) - 1).setWidth 32) >>> ((bits + 3) / 4 * 4 - 4 - 4 * k)) &&&
        0xf).setWidth 8).toNat]?) (c.setWidth 8) =
      some ((Crc.left_bits polynomial4 c ((message x bits).take (4 * n))).setWidth 8) := by
  induction n with
  | zero => rfl
  | succ n ih =>
    have hbit : ∀ i < 4, (((x &&& ((1#64 <<< bits) - 1).setWidth 32) >>> ((bits + 3) / 4 * 4 - 4 - 4 * n)).setWidth 4).getLsbD i =
        (decide ((bits + 3) / 4 * 4 - 1 - (4 * n + (3 - i)) < bits) && x.getLsbD ((bits + 3) / 4 * 4 - 1 - (4 * n + (3 - i)))) := by
      intro i hi
      have hposition : (bits + 3) / 4 * 4 - 4 - 4 * n + i = (bits + 3) / 4 * 4 - 1 - (4 * n + (3 - i)) := by omega
      rw [BitVec.getLsbD_setWidth, decide_eq_true hi, Bool.true_and, BitVec.getLsbD_ushiftRight, masked_bit x hbits, hposition]
    have htake : (message x bits).take (4 * (n + 1)) = (message x bits).take (4 * n) ++
        [3, 2, 1, 0].map fun i => decide ((bits + 3) / 4 * 4 - 1 - (4 * n + (3 - i)) < bits) &&
          x.getLsbD ((bits + 3) / 4 * 4 - 1 - (4 * n + (3 - i))) := by
      have hfour : 4 * (n + 1) = 4 * n + 1 + 1 + 1 + 1 := by omega
      rw [take_message x bits (by omega), take_message x bits (by omega), hfour, List.range_succ, List.range_succ,
        List.range_succ, List.range_succ]
      simp
    rw [List.range_succ, List.foldlM_append, ih (by omega), Option.bind_eq_bind, Option.bind_some, List.foldlM_cons,
      nibble_eq, crc4_tab_entry, hbit 3 (by decide), hbit 2 (by decide), hbit 1 (by decide), hbit 0 (by decide), htake,
      Crc.left_bits_append]
    rfl

theorem crc4_eq (c : BitVec 4) (x : BitVec 32) {bits : Nat} (hbits : bits ≤ 32) :
    crc4 (c.setWidth 8) x bits = some ((Crc.left_bits polynomial4 c (message x bits)).setWidth 8) := by
  have hall : (message x bits).take (4 * ((bits + 3) / 4)) = message x bits := by
    rw [List.take_of_length_le]
    rw [message, List.length_map, List.length_range]
    omega
  rw [crc4, if_neg (by omega)]
  have hnibbles := crc4_nibbles c x hbits (Nat.le_refl _)
  rw [hall] at hnibbles
  rw [← hnibbles]
  simp only [Nat.mul_div_cancel _ (by decide : 0 < 4)]

/-! ## CRC-8 with the highest bit first -/

section Msb
variable (polynomial : BitVec 8)

theorem shift_msb_eq (t : BitVec 8) : (t <<< 1) ^^^ (if t &&& 0x80 ≠ 0 then polynomial else 0) = Crc.left_step polynomial t := by
  have hbit : (t &&& 0x80 ≠ 0) ↔ t.msb = true := by
    have hall : ∀ t : Fin 256, ((BitVec.ofFin t : BitVec 8) &&& 0x80 ≠ 0) ↔ (BitVec.ofFin t : BitVec 8).msb = true := by
      decide +kernel
    exact hall t.toFin
  rw [Crc.left_step]
  simp only [hbit]
  split
  · rfl
  · exact BitVec.xor_zero

theorem fill_msb_apply (i : Nat) (t : BitVec 8) (table : Table) (x : Nat) :
    fill_msb i t table x = if i ≤ x ∧ x < i + i then table (x - i) ^^^ t else table x := by
  have hloop := foldl_range_rec (f := fun table j => Function.update table (i + j) (table j ^^^ t)) (a := table)
    (motive := fun k table' => ∀ x, table' x = if i ≤ x ∧ x < i + k then table (x - i) ^^^ t else table x) i ?_ ?_
  · exact hloop x
  · intro x
    rw [if_neg (by omega)]
  · intro k hk table' h x
    by_cases hx : x = i + k
    · rw [hx, Function.update_self, h k, if_neg (by omega), if_pos (by omega), Nat.add_sub_cancel_left]
    · rw [Function.update_of_ne hx, h x]
      by_cases hin : i ≤ x ∧ x < i + k
      · rw [if_pos hin, if_pos (by omega)]
      · rw [if_neg hin, if_neg (by omega)]

/-- The eight steps of a power of two are those of `0x80` without the first ones. -/
theorem left_steps_power {k : Nat} (hk : k < 8) :
    (Crc.left_step polynomial)^[8] (BitVec.ofNat 8 (2 ^ k)) = (Crc.left_step polynomial)^[k + 1] 0x80 := by
  have hbits : ∀ k : Fin 8, (∀ i < 7 - k.val, (BitVec.ofNat 8 (2 ^ k.val)).getMsbD i = false) ∧
      BitVec.ofNat 8 (2 ^ k.val) <<< (7 - k.val) = 0x80 := by
    decide
  have hsplit : 8 = k + 1 + (7 - k) := by omega
  calc (Crc.left_step polynomial)^[8] (BitVec.ofNat 8 (2 ^ k))
      = (Crc.left_step polynomial)^[k + 1 + (7 - k)] (BitVec.ofNat 8 (2 ^ k)) :=
        congrArg (fun n => (Crc.left_step polynomial)^[n] (BitVec.ofNat 8 (2 ^ k))) hsplit
    _ = (Crc.left_step polynomial)^[k + 1] 0x80 := by
        rw [Function.iterate_add_apply, Crc.left_steps_low polynomial (hbits ⟨k, hk⟩).1, (hbits ⟨k, hk⟩).2]

/-- The entries below a power of two, and those above it up to the next. -/
theorem ofNat_power_add {k j : Nat} (hk : k < 8) (hj : j < 2 ^ k) :
    BitVec.ofNat 8 (2 ^ k + j) = BitVec.ofNat 8 j ^^^ BitVec.ofNat 8 (2 ^ k) := by
  have hall : ∀ k : Fin 8, ∀ j < 2 ^ k.val, BitVec.ofNat 8 (2 ^ k.val + j) = BitVec.ofNat 8 j ^^^ BitVec.ofNat 8 (2 ^ k.val) := by
    decide +kernel
  exact hall ⟨k, hk⟩ j hj

/-- After `k` turns. -/
structure FilledMsb (k : Nat) (s : Nat × BitVec 8 × Table) : Prop where
  i : s.1 = 2 ^ k
  t : s.2.1 = (Crc.left_step polynomial)^[k] 0x80
  table : ∀ j < 2 ^ k, s.2.2 j = (Crc.left_step polynomial)^[8] (BitVec.ofNat 8 j)

theorem populate_msb_turn {k : Nat} (hk : k < 8) {s : Nat × BitVec 8 × Table} (h : FilledMsb polynomial k s) :
    ∃ s', populate_msb polynomial s = .cont s' ∧ FilledMsb polynomial (k + 1) s' := by
  obtain ⟨i, t, table⟩ := s
  obtain ⟨hi, ht, htable⟩ := h
  dsimp only at hi ht htable
  have hsmall : i < CRC8_TABLE_SIZE := by
    rw [hi]
    exact Nat.pow_lt_pow_right (by decide) hk
  refine ⟨_, if_pos hsmall, ?_, ?_, ?_⟩
  · show i * 2 = 2 ^ (k + 1)
    rw [hi, Nat.pow_succ]
  · show (t <<< 1) ^^^ _ = _
    rw [shift_msb_eq, ht, Function.iterate_succ_apply']
  · intro j hj
    have hstep := Function.iterate_succ_apply' (Crc.left_step polynomial) k 0x80
    show fill_msb i _ table j = _
    rw [shift_msb_eq, ht, ← hstep, ← left_steps_power polynomial hk, fill_msb_apply, hi]
    rw [Nat.pow_succ, Nat.mul_two] at hj
    by_cases hlow : j < 2 ^ k
    · rw [if_neg (by omega), htable j hlow]
    · have hback : 2 ^ k + (j - 2 ^ k) = j := by omega
      rw [if_pos ⟨by omega, hj⟩, htable _ (by omega), ← Crc.left_steps_xor, ← ofNat_power_add hk (by omega), hback]

theorem crc8_populate_msb_eq (table : Table) {fuel : Nat} (hfuel : 8 < fuel) :
    ∃ table', crc8_populate_msb fuel table polynomial = some table' ∧
      ∀ j < 256, table' j = (Crc.left_step polynomial)^[8] (BitVec.ofNat 8 j) := by
  apply loop_count (FilledMsb polynomial) (fun table' => ∀ j < 256, table' j = (Crc.left_step polynomial)^[8] (BitVec.ofNat 8 j))
    (fun k hk s h => populate_msb_turn polynomial hk h) ?_ ?_ hfuel
  · rintro ⟨i, t, table'⟩ h
    have hi : i = 256 := h.i
    exact ⟨table', if_neg (hi ▸ Nat.lt_irrefl 256), h.table⟩
  · refine ⟨rfl, rfl, ?_⟩
    intro j hj
    obtain rfl : j = 0 := Nat.lt_one_iff.1 hj
    have hzero : ∀ i < 8, (BitVec.ofNat 8 0).getMsbD i = false := by decide
    exact (Crc.left_steps_low polynomial hzero).symm

end Msb

/-! ## CRC-8 with the lowest bit first -/

section Lsb
variable (polynomial : BitVec 8)

theorem shift_lsb_eq (t : BitVec 8) : (t >>> 1) ^^^ (if t &&& 1 ≠ 0 then polynomial else 0) = Crc.bit_step polynomial t := by
  have hbit : (t &&& 1 ≠ 0) ↔ t.getLsbD 0 = true := by
    have hall : ∀ t : Fin 256, ((BitVec.ofFin t : BitVec 8) &&& 1 ≠ 0) ↔ (BitVec.ofFin t : BitVec 8).getLsbD 0 = true := by
      decide +kernel
    exact hall t.toFin
  rw [Crc.bit_step]
  simp only [hbit]
  split
  · rfl
  · exact BitVec.xor_zero

/-- What one more turn of the inner loop reaches. -/
theorem odd_multiple_lt_succ {i m k x : Nat} (hi : i < m) (hx : x ≠ i + k * m) :
    x % m = i ∧ x < (k + 1) * m ↔ x % m = i ∧ x < k * m := by
  refine and_congr_right fun hmod => ?_
  have hsplit := Nat.div_add_mod x m
  rw [hmod, Nat.mul_comm] at hsplit
  have hquot : x / m ≠ k := by
    rintro rfl
    exact hx (by omega)
  rw [← Nat.div_lt_iff_lt_mul (by omega), ← Nat.div_lt_iff_lt_mul (by omega)]
  omega

/-- The inner loop writes behind the multiples of `2 * i`. -/
theorem fill_lsb_apply {i : Nat} (hi : 0 < i) (t : BitVec 8) (table : Table) {x : Nat} (hx : x < 256) :
    fill_lsb i t table x = if x % (2 * i) = i then table (x - i) ^^^ t else table x := by
  have hless : i < 2 * i := by omega
  rw [fill_lsb]
  generalize 2 * i = m at hless
  have hcover : x < (CRC8_TABLE_SIZE + m - 1) / m * m := by
    have hsplit := Nat.div_add_mod (CRC8_TABLE_SIZE + m - 1) m
    have hmod := Nat.mod_lt (CRC8_TABLE_SIZE + m - 1) (by omega : 0 < m)
    rw [Nat.mul_comm] at hsplit
    unfold CRC8_TABLE_SIZE at hsplit hmod ⊢
    omega
  have hloop := foldl_range_rec (f := fun table k => Function.update table (i + k * m) (table (k * m) ^^^ t)) (a := table)
    (motive := fun k table' => ∀ x, table' x = if x % m = i ∧ x < k * m then table (x - i) ^^^ t else table x)
    ((CRC8_TABLE_SIZE + m - 1) / m) ?_ ?_
  · rw [hloop x]
    simp only [hcover, and_true]
  · intro x
    rw [if_neg (by omega)]
  · intro k hk table' h x
    by_cases hx : x = i + k * m
    · have hmod : (i + k * m) % m = i := by rw [Nat.add_mul_mod_self_right, Nat.mod_eq_of_lt hless]
      have heven : ¬(k * m % m = i ∧ k * m < k * m) := fun h => Nat.lt_irrefl _ h.2
      rw [hx, Function.update_self, h (k * m), if_neg heven, if_pos ⟨hmod, by rw [Nat.succ_mul]; omega⟩, Nat.add_sub_cancel_left]
    · rw [Function.update_of_ne hx, h x]
      simp only [odd_multiple_lt_succ hless hx]

theorem bit_steps_power {k : Nat} (hk : k < 8) :
    (Crc.bit_step polynomial)^[8] (BitVec.ofNat 8 (2 ^ (7 - k))) = (Crc.bit_step polynomial)^[k + 1] 1 := by
  have hbits : ∀ k : Fin 8, (∀ i < 7 - k.val, (BitVec.ofNat 8 (2 ^ (7 - k.val))).getLsbD i = false) ∧
      BitVec.ofNat 8 (2 ^ (7 - k.val)) >>> (7 - k.val) = 1 := by
    decide
  have hsplit : 8 = k + 1 + (7 - k) := by omega
  calc (Crc.bit_step polynomial)^[8] (BitVec.ofNat 8 (2 ^ (7 - k)))
      = (Crc.bit_step polynomial)^[k + 1 + (7 - k)] (BitVec.ofNat 8 (2 ^ (7 - k))) :=
        congrArg (fun n => (Crc.bit_step polynomial)^[n] (BitVec.ofNat 8 (2 ^ (7 - k)))) hsplit
    _ = (Crc.bit_step polynomial)^[k + 1] 1 := by
        rw [Function.iterate_add_apply, Crc.bit_steps_high polynomial (hbits ⟨k, hk⟩).1, (hbits ⟨k, hk⟩).2]

/-- A multiple of `2 * i` and `i`, for the power of two `i`. -/
theorem ofNat_odd_multiple {k j : Nat} (hk : k < 8) (hj : j < 256) (hmod : j % (2 * 2 ^ (7 - k)) = 2 ^ (7 - k)) :
    BitVec.ofNat 8 j = BitVec.ofNat 8 (j - 2 ^ (7 - k)) ^^^ BitVec.ofNat 8 (2 ^ (7 - k)) := by
  have hall : ∀ k : Fin 8, ∀ j : Fin 256, j.val % (2 * 2 ^ (7 - k.val)) = 2 ^ (7 - k.val) →
      BitVec.ofNat 8 j.val = BitVec.ofNat 8 (j.val - 2 ^ (7 - k.val)) ^^^ BitVec.ofNat 8 (2 ^ (7 - k.val)) := by
    decide +kernel
  exact hall ⟨k, hk⟩ ⟨j, hj⟩ hmod

theorem mod_double {i j : Nat} (h : j % i = 0) : j % (2 * i) = 0 ∨ j % (2 * i) = i := by
  rw [Nat.mul_comm, Nat.mod_mul, h, Nat.zero_add]
  rcases Nat.mod_two_eq_zero_or_one (j / i) with heven | hodd
  · exact .inl (by rw [heven, Nat.mul_zero])
  · exact .inr (by rw [hodd, Nat.mul_one])

/-- After `k` turns the multiples of `2 ^ (8 - k)` are there. -/
structure FilledLsb (k : Nat) (s : Nat × BitVec 8 × Table) : Prop where
  i : s.1 = 2 ^ 8 >>> (k + 1)
  t : s.2.1 = (Crc.bit_step polynomial)^[k] 1
  table : ∀ j < 256, j % 2 ^ (8 - k) = 0 → s.2.2 j = (Crc.bit_step polynomial)^[8] (BitVec.ofNat 8 j)

theorem populate_lsb_turn {k : Nat} (hk : k < 8) {s : Nat × BitVec 8 × Table} (h : FilledLsb polynomial k s) :
    ∃ s', populate_lsb polynomial s = .cont s' ∧ FilledLsb polynomial (k + 1) s' := by
  obtain ⟨i, t, table⟩ := s
  obtain ⟨hi, ht, htable⟩ := h
  dsimp only at hi ht htable
  have hpower : i = 2 ^ (7 - k) := by
    have hall : ∀ k : Fin 8, 2 ^ 8 >>> (k.val + 1) = 2 ^ (7 - k.val) := by decide
    rw [hi]
    exact hall ⟨k, hk⟩
  have hpos : 0 < i := hpower ▸ Nat.two_pow_pos _
  have hdouble : 2 ^ (8 - k) = 2 * i := by
    rw [hpower, ← Nat.pow_succ', (by omega : 8 - k = 7 - k + 1)]
  refine ⟨_, if_pos (Nat.pos_iff_ne_zero.1 hpos), ?_, ?_, ?_⟩
  · show i >>> 1 = _
    rw [hi, Nat.shiftRight_succ]
    rfl
  · show (t >>> 1) ^^^ _ = _
    rw [shift_lsb_eq, ht, Function.iterate_succ_apply']
  · intro j hj hmod
    have hstep := Function.iterate_succ_apply' (Crc.bit_step polynomial) k 1
    have hrest : j % i = 0 := by rwa [(by omega : 8 - (k + 1) = 7 - k), ← hpower] at hmod
    show fill_lsb i _ table j = _
    rw [shift_lsb_eq, ht, ← hstep, ← bit_steps_power polynomial hk, fill_lsb_apply hpos _ _ hj, ← hpower]
    rcases mod_double hrest with heven | hodd
    · rw [heven, if_neg (by omega), htable j hj (by rw [hdouble]; exact heven)]
    · have hback : (j - i) % (2 * i) = 0 := by
        have hsplit := Nat.div_add_mod j (2 * i)
        rw [hodd] at hsplit
        have hmultiple : j - i = 2 * i * (j / (2 * i)) := by omega
        rw [hmultiple]
        exact Nat.mul_mod_right _ _
      have hsum := ofNat_odd_multiple hk hj (by rw [← hpower]; exact hodd)
      rw [← hpower] at hsum
      rw [if_pos hodd, htable _ (by omega) (by rw [hdouble]; exact hback), hsum, Crc.bit_steps_xor]

theorem crc8_populate_lsb_eq (table : Table) {fuel : Nat} (hfuel : 8 < fuel) :
    ∃ table', crc8_populate_lsb fuel table polynomial = some table' ∧
      ∀ j < 256, table' j = (Crc.bit_step polynomial)^[8] (BitVec.ofNat 8 j) := by
  apply loop_count (FilledLsb polynomial) (fun table' => ∀ j < 256, table' j = (Crc.bit_step polynomial)^[8] (BitVec.ofNat 8 j))
    (fun k hk s h => populate_lsb_turn polynomial hk h) ?_ ?_ hfuel
  · rintro ⟨i, t, table'⟩ h
    have hi : i = 0 := h.i
    exact ⟨table', if_neg (not_not.2 hi), fun j hj => h.table j hj (Nat.mod_one j)⟩
  · refine ⟨rfl, rfl, ?_⟩
    intro j hj hmod
    obtain rfl : j = 0 := by
      rw [← Nat.mod_eq_of_lt hj]
      exact hmod
    have hzero : ∀ i < 8, (BitVec.ofNat 8 0).getLsbD i = false := by decide
    exact (Crc.bit_steps_high polynomial hzero).symm

end Lsb

/-! ## What a table is good for -/

/-- Messages whose bits differ in a burst of at most `w` bits have different checks. -/
def Detects {α : Type} (w : Nat) (bits : List (BitVec 8) → List Bool) (check : List (BitVec 8) → α) : Prop :=
  ∀ xs ys before us vs after, bits xs = before ++ us ++ after → bits ys = before ++ vs ++ after → us.length = vs.length →
    us.length ≤ w → check xs = check ys → us = vs

theorem detects_low {w : Nat} {polynomial : BitVec w} (hw : 0 < w) (hpoly : polynomial.getLsbD (w - 1) = true) (c : BitVec w) :
    Detects w low_first fun data => Crc.serial_bits polynomial c (low_first data) := by
  intro xs ys before us vs after hxs hys hlen hshort hsame
  dsimp only at hsame
  rw [hxs, hys] at hsame
  exact Crc.burst hw hpoly hlen hshort hsame

theorem detects_high {w : Nat} {polynomial : BitVec w} (hw : 0 < w) (hpoly : polynomial.getLsbD 0 = true) (c : BitVec w) :
    Detects w high_first fun data => Crc.left_bits polynomial c (high_first data) := by
  intro xs ys before us vs after hxs hys hlen hshort hsame
  dsimp only at hsame
  rw [hxs, hys] at hsame
  exact Crc.left_burst polynomial hw hpoly hlen hshort hsame

/-- The table of CRC-16, that of CRC-7 and the nibbles of CRC-4 give the remainders of the bits for
their polynomials, for every message. A burst that is not longer than the remainder changes it. -/
theorem remainders :
    (∀ crc buffer, crc16 crc buffer = Crc.serial_bits polynomial16 crc (low_first buffer)) ∧
    (∀ crc buffer, crc7_be (aligned crc) buffer = aligned (Crc.left_bits polynomial7 crc (high_first buffer))) ∧
    (∀ (c : BitVec 4) (x : BitVec 32) (bits : Nat), bits ≤ 32 →
      crc4 (c.setWidth 8) x bits = some ((Crc.left_bits polynomial4 c (message x bits)).setWidth 8)) ∧
    (∀ crc, Detects 16 low_first (crc16 crc)) ∧ ∀ crc, Detects 7 high_first (crc7_be (aligned crc)) := by
  refine ⟨crc16_eq, crc7_be_eq, fun c x bits hbits => crc4_eq c x hbits, ?_, ?_⟩
  · intro crc xs ys before us vs after hxs hys hlen hshort hsame
    rw [crc16_eq, crc16_eq] at hsame
    exact detects_low (by decide) (by decide) crc xs ys before us vs after hxs hys hlen hshort hsame
  · intro crc xs ys before us vs after hxs hys hlen hshort hsame
    have haligned : ∀ a b : Fin 128, aligned (BitVec.ofFin a) = aligned (BitVec.ofFin b) → a = b := by decide +kernel
    rw [crc7_be_eq, crc7_be_eq] at hsame
    have hinner := congrArg BitVec.ofFin (haligned _ _ hsame)
    exact detects_high (by decide) (by decide) crc xs ys before us vs after hxs hys hlen hshort hinner

theorem crc8_index (crc b : BitVec 8) : ((crc ^^^ b) &&& 0xff).toNat = (crc ^^^ b).toNat := by
  have hall : (crc ^^^ b) &&& 0xff = crc ^^^ b := BitVec.and_allOnes
  rw [hall]

theorem crc8_msb {polynomial : BitVec 8} {table : Table}
    (htable : ∀ j < 256, table j = (Crc.left_step polynomial)^[8] (BitVec.ofNat 8 j)) (pdata : List (BitVec 8)) (crc : BitVec 8) :
    crc8 table pdata crc = Crc.left_bits polynomial crc (high_first pdata) := by
  refine foldl_bits (fun c b => ?_) pdata crc
  have hbyte : Crc.left_byte polynomial c b = (Crc.left_step polynomial)^[8] (c ^^^ b) := by
    rw [Crc.left_byte, BitVec.setWidth_eq, Nat.sub_self, BitVec.shiftLeft_zero]
  rw [crc8_index, htable _ (BitVec.isLt _), BitVec.ofNat_toNat, BitVec.setWidth_eq, ← hbyte, Crc.left_byte_eq_bits _ (by decide)]
  rfl

theorem crc8_lsb {polynomial : BitVec 8} {table : Table}
    (htable : ∀ j < 256, table j = (Crc.bit_step polynomial)^[8] (BitVec.ofNat 8 j)) (pdata : List (BitVec 8)) (crc : BitVec 8) :
    crc8 table pdata crc = Crc.serial_bits polynomial crc (low_first pdata) := by
  refine foldl_bits (fun c b => ?_) pdata crc
  have hbyte : Crc.byte_step polynomial c b = (Crc.bit_step polynomial)^[8] (c ^^^ b) := by
    rw [Crc.byte_step, BitVec.setWidth_eq]
  rw [crc8_index, htable _ (BitVec.isLt _), BitVec.ofNat_toNat, BitVec.setWidth_eq, ← hbyte, Crc.byte_step_eq_bits _ (by decide)]
  rfl

/-- For every polynomial, whatever was in the table before, both ways to fill it give a table with
which `crc8` computes the remainder of the bits, in one bit order or the other. -/
theorem crc8_populated (polynomial : BitVec 8) (table : Table) (more : Nat) :
    (∃ table', crc8_populate_msb (9 + more) table polynomial = some table' ∧
      ∀ pdata crc, crc8 table' pdata crc = Crc.left_bits polynomial crc (high_first pdata)) ∧
    ∃ table', crc8_populate_lsb (9 + more) table polynomial = some table' ∧
      ∀ pdata crc, crc8 table' pdata crc = Crc.serial_bits polynomial crc (low_first pdata) := by
  have hfuel : 8 < 9 + more := by omega
  obtain ⟨msb, hmsb, hentry⟩ := crc8_populate_msb_eq polynomial table hfuel
  obtain ⟨lsb, hlsb, hentry'⟩ := crc8_populate_lsb_eq polynomial table hfuel
  exact ⟨⟨msb, hmsb, crc8_msb hentry⟩, lsb, hlsb, crc8_lsb hentry'⟩

/-- With the complement of the check behind a message it is accepted, with any other byte it is
not, and bursts of up to 8 bits are noticed. -/
structure Protects (bits : List (BitVec 8) → List Bool) (table : Table) (crc : BitVec 8) : Prop where
  good : ∀ data check, crc8 table (data ++ [check]) crc = CRC8_GOOD_VALUE table ↔ check = ~~~crc8 table data crc
  detects : Detects 8 bits fun data => crc8 table data crc

theorem good_value_iff {table : Table} {f : BitVec 8 → BitVec 8} (hf : Function.Injective f)
    (htable : ∀ j < 256, table j = f (BitVec.ofNat 8 j)) (crc : BitVec 8) (data : List (BitVec 8)) (check : BitVec 8) :
    crc8 table (data ++ [check]) crc = CRC8_GOOD_VALUE table ↔ check = ~~~crc8 table data crc := by
  have hlast : crc8 table (data ++ [check]) crc = table ((crc8 table data crc ^^^ check) &&& 0xff).toNat := List.foldl_append
  rw [hlast, crc8_index, CRC8_GOOD_VALUE, htable _ (BitVec.isLt _), htable _ (by decide), hf.eq_iff, BitVec.ofNat_toNat,
    BitVec.setWidth_eq]
  constructor
  · intro h
    have hones : crc8 table data crc ^^^ check = BitVec.allOnes 8 := h
    rw [← BitVec.xor_allOnes, ← hones, ← BitVec.xor_assoc, BitVec.xor_self, BitVec.zero_xor]
  · rintro rfl
    rw [← BitVec.xor_allOnes, ← BitVec.xor_assoc, BitVec.xor_self, BitVec.zero_xor]
    rfl

/-- A polynomial with a constant term protects every message, in both bit orders and from every
start value. -/
theorem crc8_protects (polynomial : BitVec 8) (table table' : Table) (more : Nat) :
    (polynomial.getLsbD 0 = true → crc8_populate_msb (9 + more) table polynomial = some table' →
      ∀ crc, Protects high_first table' crc) ∧
    (polynomial.getLsbD 7 = true → crc8_populate_lsb (9 + more) table polynomial = some table' →
      ∀ crc, Protects low_first table' crc) := by
  have hfuel : 8 < 9 + more := by omega
  constructor
  · intro hconstant hpopulate crc
    obtain ⟨_, hmsb, hentry⟩ := crc8_populate_msb_eq polynomial table hfuel
    obtain rfl := Option.some.inj (hpopulate.symm.trans hmsb)
    refine ⟨good_value_iff (Crc.left_steps_injective polynomial (by decide) hconstant 8) hentry crc, ?_⟩
    simp only [crc8_msb hentry]
    exact detects_high (by decide) hconstant crc
  · intro hconstant hpopulate crc
    obtain ⟨_, hlsb, hentry⟩ := crc8_populate_lsb_eq polynomial table hfuel
    obtain rfl := Option.some.inj (hpopulate.symm.trans hlsb)
    refine ⟨good_value_iff (Crc.bit_steps_injective (by decide) hconstant 8) hentry crc, ?_⟩
    simp only [crc8_lsb hentry]
    exact detects_low (by decide) hconstant crc

/-- The polynomial of the comments in the header, in both bit orders. -/
theorem crc8_protects_header : (∃ t, crc8_populate_msb 9 (fun _ => 0) 0xD5 = some t ∧ ∀ crc, Protects high_first t crc) ∧
    ∃ t, crc8_populate_lsb 9 (fun _ => 0) 0xAB = some t ∧ ∀ crc, Protects low_first t crc := by
  obtain ⟨t, ht, -⟩ := crc8_populate_msb_eq 0xD5 (fun _ => 0) (by decide : 8 < 9)
  obtain ⟨t', ht', -⟩ := crc8_populate_lsb_eq 0xAB (fun _ => 0) (by decide : 8 < 9)
  exact ⟨⟨t, ht, (crc8_protects 0xD5 (fun _ => 0) t 0).1 (by decide) ht⟩,
    t', ht', (crc8_protects 0xAB (fun _ => 0) t' 0).2 (by decide) ht'⟩

end McLinOS.CrcTables
