import McLinOS.CLib.Sink
import McLinOS.Lib.Vsprintf
/-!
# Wide strings

A wide string is UTF-16 and is printed as UTF-8. The length is counted first, over the
words, and the characters are decoded after that.
-/
open CLib

set_option linter.style.nameCheck false

namespace McLinOS.Vsprintf

/-! ## Surrogates -/

theorem word_lt (m : Mem) (s : Nat) : word m s < 2 ^ 16 := Mem.load_lt 2 m s

/-- A mask of the bits from the `k`th on. -/
theorem and_high {c k : Nat} (hc : c < 2 ^ 16) (hk : k ≤ 16) : c &&& (2 ^ 16 - 2 ^ k) = c / 2 ^ k * 2 ^ k := by
  have hsplit : 2 ^ k * 2 ^ (16 - k) = 2 ^ 16 := by rw [← Nat.pow_add, Nat.add_sub_cancel' hk]
  have hmask : 2 ^ 16 - 2 ^ k = (2 ^ (16 - k) - 1) <<< k := by
    rw [Nat.shiftLeft_eq, Nat.sub_mul, Nat.one_mul, Nat.mul_comm, hsplit]
  have hquot : c / 2 ^ k < 2 ^ (16 - k) := by
    rw [Nat.div_lt_iff_lt_mul (Nat.two_pow_pos k), Nat.mul_comm, hsplit]
    exact hc
  apply Nat.eq_of_testBit_eq
  intro i
  rw [hmask, Nat.testBit_and, Nat.testBit_shiftLeft, Nat.testBit_two_pow_sub_one, Nat.testBit_mul_two_pow]
  by_cases hi : k ≤ i
  · rw [Nat.testBit_div_two_pow, Nat.sub_add_cancel hi]
    by_cases htop : i - k < 16 - k
    · simp [hi, htop]
    · have hbit : c.testBit i = false := Nat.testBit_lt_two_pow (Nat.lt_of_lt_of_le hc (Nat.pow_le_pow_right (by decide) (by omega)))
      simp [hbit]
  · simp [hi]

theorem high_iff {c : Nat} (hc : c < 2 ^ 16) : c &&& 0xfc00 = 0xd800 ↔ 0xd800 ≤ c ∧ c < 0xdc00 := by
  have hmask : c &&& 0xfc00 = c / 2 ^ 10 * 2 ^ 10 := and_high (k := 10) hc (by decide)
  rw [hmask]
  omega

theorem low_iff {c : Nat} (hc : c < 2 ^ 16) : c &&& 0xfc00 = 0xdc00 ↔ 0xdc00 ≤ c ∧ c < 0xe000 := by
  have hmask : c &&& 0xfc00 = c / 2 ^ 10 * 2 ^ 10 := and_high (k := 10) hc (by decide)
  rw [hmask]
  omega

theorem surrogate_iff {c : Nat} (hc : c < 2 ^ 16) : c &&& 0xf800 = 0xd800 ↔ 0xd800 ≤ c ∧ c < 0xe000 := by
  have hmask : c &&& 0xf800 = c / 2 ^ 11 * 2 ^ 11 := and_high (k := 11) hc (by decide)
  rw [hmask]
  omega

/-- Among surrogates one bit tells the low ones. -/
theorem low_bit_iff {c : Nat} (hlo : 0xd800 ≤ c) (hhi : c < 0xe000) : c &&& 0x0400 ≠ 0 ↔ 0xdc00 ≤ c := by
  have hbit : c &&& 0x0400 = 2 ^ 10 * (c.testBit 10).toNat := by
    have hpow : (0x0400 : Nat) = 2 ^ 10 := rfl
    rw [hpow, Nat.and_two_pow, Nat.mul_comm]
  have htest : c.testBit 10 = decide (c / 2 ^ 10 % 2 = 1) := Nat.testBit_eq_decide_div_mod_eq
  rw [hbit, htest]
  by_cases h : c / 2 ^ 10 % 2 = 1
  · rw [decide_eq_true h, Bool.toNat_true]
    omega
  · rw [decide_eq_false h, Bool.toNat_false]
    omega

/-- The character that `utf16_to_utf32` reads, and how many words it takes. -/
def decode (c0 c1 : Nat) : Nat × Nat :=
  if c0 < 0xd800 ∨ 0xe000 ≤ c0 then (c0, 1)
  else if c0 < 0xdc00 ∧ 0xdc00 ≤ c1 ∧ c1 < 0xe000 then (0x10000 + (c0 - 0xd800) * 0x400 + (c1 - 0xdc00), 2)
  else (0xfffd, 1)

theorem utf16_to_utf32_eq (m : Mem) (s : Nat) :
    utf16_to_utf32 m s = ((decode (word m s) (word m (s + 2))).1, s + 2 * (decode (word m s) (word m (s + 2))).2) := by
  have h0 := word_lt m s
  have h1 := word_lt m (s + 2)
  unfold utf16_to_utf32 decode
  simp only [ne_eq, surrogate_iff h0, low_iff h1]
  by_cases hplain : word m s < 0xd800 ∨ 0xe000 ≤ word m s
  · rw [if_pos (by omega), if_pos hplain]
    rfl
  · have hlow := low_bit_iff (c := word m s) (by omega) (by omega)
    rw [if_neg (by omega), if_neg hplain]
    by_cases hbit : 0xdc00 ≤ word m s
    · rw [if_pos (hlow.2 hbit), if_neg (by omega)]
      rfl
    · rw [if_neg (mt hlow.1 hbit)]
      by_cases hpair : 0xdc00 ≤ word m (s + 2) ∧ word m (s + 2) < 0xe000
      · have hvalue : ((0x10000 - (0xd800 <<< 10 : Nat) - 0xdc00 : Int) + (word m s <<< 10 : Nat) + word m (s + 2)).toNat =
            0x10000 + (word m s - 0xd800) * 0x400 + (word m (s + 2) - 0xdc00) := by
          rw [Nat.shiftLeft_eq, Nat.shiftLeft_eq]
          omega
        rw [if_neg (not_not.2 hpair), if_pos ⟨by omega, hpair⟩, hvalue]
        rfl
      · rw [if_pos hpair, if_neg (by omega)]
        rfl

theorem decode_valid {c0 c1 : Nat} (h0 : c0 < 2 ^ 16) : (decode c0 c1).1.isValidChar := by
  unfold decode
  split
  · exact (by omega : c0 < 0xd800 ∨ 0xdfff < c0 ∧ c0 < 0x110000)
  · split
    · right
      constructor <;> omega
    · exact .inr ⟨by decide, by decide⟩

/-! ## UTF-8 -/

/-- The octets of a character. -/
def utf8 (c : Nat) : List UInt8 := String.utf8EncodeChar (Char.ofNat c)

/-- How many octets there are behind the first. -/
def trailing (c : Nat) : Nat := (if c ≥ 0x80 then 1 else 0) + (if c ≥ 0x800 then 1 else 0) + (if c ≥ 0x10000 then 1 else 0)

/-- A trailing octet, the `i`th from the last. -/
def octet (c i : Nat) : UInt8 := UInt8.ofNat (c / 64 ^ i % 0x40 + 0x80)

/-- The octets by how many there are. -/
theorem utf8_eq {c : Nat} (hc : c.isValidChar) :
    trailing c = 0 ∧ utf8 c = [UInt8.ofNat c] ∨
      trailing c = 1 ∧ utf8 c = [UInt8.ofNat (c / 64 % 0x20 + 0xc0), octet c 0] ∨
      trailing c = 2 ∧ utf8 c = [UInt8.ofNat (c / 4096 % 0x10 + 0xe0), octet c 1, octet c 0] ∨
      trailing c = 3 ∧ utf8 c = [UInt8.ofNat (c / 262144 % 0x08 + 0xf0), octet c 2, octet c 1, octet c 0] := by
  have hval : (Char.ofNat c).val.toNat = c := by
    rw [Char.ofNat, dif_pos hc]
    rfl
  have h0 : c % 0x40 + 0x80 = c / 64 ^ 0 % 0x40 + 0x80 := by rw [Nat.pow_zero, Nat.div_one]
  unfold utf8 String.utf8EncodeChar trailing octet
  rw [hval, ← h0]
  by_cases h1 : c ≤ 0x7f
  · left
    rw [if_neg (by omega), if_neg (by omega), if_neg (by omega), if_pos h1]
    exact ⟨rfl, rfl⟩
  right
  by_cases h2 : c ≤ 0x7ff
  · left
    rw [if_pos (by omega), if_neg (by omega), if_neg (by omega), if_neg h1, if_pos h2]
    exact ⟨rfl, rfl⟩
  right
  by_cases h3 : c ≤ 0xffff
  · left
    rw [if_pos (by omega), if_pos (by omega), if_neg (by omega), if_neg h1, if_neg h2, if_pos h3]
    exact ⟨rfl, rfl⟩
  · right
    rw [if_pos (by omega), if_pos (by omega), if_pos (by omega), if_neg h1, if_neg h2, if_neg h3]
    exact ⟨rfl, rfl⟩

theorem length_utf8 {c : Nat} (hc : c.isValidChar) : (utf8 c).length = trailing c + 1 := by
  obtain ⟨ht, hu⟩ | ⟨ht, hu⟩ | ⟨ht, hu⟩ | ⟨ht, hu⟩ := utf8_eq hc <;> rw [ht, hu] <;> rfl

/-! ## What is put -/

/-- The trailing octets, from the last on. -/
theorem put_trailing (m : Mem) (s8 c clen : Nat) :
    (List.range clen).foldl (fun (t : Mem × Nat) j =>
        (t.1.set (s8 + clen - j) (UInt8.ofNat (0x80 ||| (t.2 &&& 0x3f))), t.2 >>> 6)) (m, c) =
      (fun x => if s8 < x ∧ x ≤ s8 + clen then octet c (s8 + clen - x) else m x, c / 64 ^ clen) := by
  have hoctet : ∀ k, UInt8.ofNat (0x80 ||| (k &&& 0x3f)) = UInt8.ofNat (k % 0x40 + 0x80) := by
    intro k
    have hall : ∀ d : Fin 64, UInt8.ofNat (0x80 ||| d.1) = UInt8.ofNat (d.1 + 0x80) := by decide
    have hmask : k &&& 0x3f = k % 64 := Nat.and_two_pow_sub_one_eq_mod k 6
    rw [hmask]
    exact hall ⟨k % 64, Nat.mod_lt k (by decide)⟩
  have hfrom : ∀ k ≤ clen, (List.range k).foldl (fun (t : Mem × Nat) j =>
      (t.1.set (s8 + clen - j) (UInt8.ofNat (0x80 ||| (t.2 &&& 0x3f))), t.2 >>> 6)) (m, c) =
        (fun x => if s8 + clen - k < x ∧ x ≤ s8 + clen then octet c (s8 + clen - x) else m x, c / 64 ^ k) := by
    intro k hk
    induction k with
    | zero =>
      refine Prod.ext (funext fun x => ?_) (Nat.div_one c).symm
      exact (if_neg (by omega)).symm
    | succ k ih =>
      rw [List.range_succ, List.foldl_append, ih (by omega), List.foldl_cons, List.foldl_nil, hoctet]
      refine Prod.ext (funext fun x => ?_) ?_ <;> dsimp only
      · by_cases hx : x = s8 + clen - k
        · have hback : s8 + clen - x = k := by omega
          rw [hx, Mem.set_same, if_pos (by omega), ← hx, hback]
          rfl
        · rw [Mem.set_ne hx]
          by_cases hin : s8 + clen - k < x ∧ x ≤ s8 + clen
          · rw [if_pos hin, if_pos (by omega)]
          · rw [if_neg hin, if_neg (by omega)]
      · rw [Nat.shiftRight_eq_div_pow, Nat.div_div_eq_div_mul, Nat.pow_succ 64 k]
  have hall := hfrom clen (Nat.le_refl clen)
  rwa [Nat.add_sub_cancel] at hall

/-- The first octet is put together from its high bits and what is left of the character. -/
theorem lead_octet {c clen : Nat} (hc : c.isValidChar) (hclen : trailing c = clen) (hpos : 0 < clen) :
    ∃ rest, utf8 c = (UInt8.ofNat ((0xf00 >>> 1) >>> clen) ||| UInt8.ofNat (c / 64 ^ clen)) :: rest ∧ rest.length = clen ∧
      ∀ i < clen, rest.getD i 0 = octet c (clen - (i + 1)) := by
  have hbound : c < 0x110000 := by
    rcases hc with h | h
    · exact Nat.lt_trans h (by decide)
    · exact h.2
  have h2 : ∀ d : Fin 0x20, UInt8.ofNat (0x780 >>> 1) ||| UInt8.ofNat d.1 = UInt8.ofNat (d.1 + 0xc0) := by decide
  have h3 : ∀ d : Fin 0x10, UInt8.ofNat (0x780 >>> 2) ||| UInt8.ofNat d.1 = UInt8.ofNat (d.1 + 0xe0) := by decide
  have h4 : ∀ d : Fin 0x08, UInt8.ofNat (0x780 >>> 3) ||| UInt8.ofNat d.1 = UInt8.ofNat (d.1 + 0xf0) := by decide
  obtain ⟨ht, hu⟩ | ⟨ht, hu⟩ | ⟨ht, hu⟩ | ⟨ht, hu⟩ := utf8_eq hc
  · omega
  · obtain rfl : clen = 1 := by omega
    have hlt : c / 64 < 0x20 := by
      unfold trailing at ht
      split_ifs at ht <;> omega
    refine ⟨[octet c 0], hu.trans ?_, rfl, ?_⟩
    · rw [Nat.mod_eq_of_lt hlt, ← h2 ⟨_, hlt⟩, Nat.pow_one]
      rfl
    · intro i hi
      obtain rfl : i = 0 := by omega
      rfl
  · obtain rfl : clen = 2 := by omega
    have hlt : c / 4096 < 0x10 := by
      unfold trailing at ht
      split_ifs at ht <;> omega
    refine ⟨[octet c 1, octet c 0], hu.trans ?_, rfl, ?_⟩
    · rw [Nat.mod_eq_of_lt hlt, ← h3 ⟨_, hlt⟩]
      rfl
    · intro i hi
      match i, hi with
      | 0, _ => rfl
      | 1, _ => rfl
  · obtain rfl : clen = 3 := by omega
    have hlt : c / 262144 < 0x08 := by omega
    refine ⟨[octet c 2, octet c 1, octet c 0], hu.trans ?_, rfl, ?_⟩
    · rw [Nat.mod_eq_of_lt hlt, ← h4 ⟨_, hlt⟩]
      rfl
    · intro i hi
      match i, hi with
      | 0, _ => rfl
      | 1, _ => rfl
      | 2, _ => rfl

/-- What the output is made of: a byte, or a character of a wide string. -/
inductive Piece where
  | byte (b : UInt8)
  | char (c : Nat)

def Piece.chunk : Piece → List UInt8
  | .byte b => [b]
  | .char c => utf8 c

def Piece.Valid : Piece → Prop
  | .byte _ => True
  | .char c => c.isValidChar

def put (size : Nat) (out : Mem × Nat) : Piece → Mem × Nat
  | .byte b => putc size out b
  | .char c => if c < 0x80 then putc size out (UInt8.ofNat c) else put_octets size out c (trailing c)

variable {size : Nat} {buf₀ : Mem} {cs : List (List UInt8)} {out : Mem × Nat}

theorem shown_putc (h : Shown size buf₀ cs out) (hmax : out.2 + 1 < 2 ^ 32) (b : UInt8) :
    Shown size buf₀ (cs ++ [[b]]) (putc size out b) := by
  have hnext : putc size out b = (if out.2 < size then out.1.set out.2 b else out.1, out.2 + [b].length) := by
    rw [putc, u32_of_lt hmax]
    rfl
  rw [hnext]
  by_cases hroom : out.2 + 1 < size
  · have hcopy : out.1.set out.2 b = Mem.copy out.1 out.2 [b] := by rw [← Mem.copy_cons, Mem.copy_nil]
    rw [if_pos (by omega), hcopy]
    exact h.whole hroom
  · refine h.cut Nat.one_pos (Nat.not_lt.1 hroom) ?_ (fun hlt => absurd hlt hroom) ?_
    · intro x hx
      split
      · exact Mem.set_ne (by omega)
      · rfl
    · intro x hx
      split
      · exact Mem.set_ne (by omega)
      · rfl

theorem shown_octets (h : Shown size buf₀ cs out) {c : Nat} (hc : c.isValidChar)
    (hmax : out.2 + (utf8 c).length < 2 ^ 32) (hwide : ¬c < 0x80) :
    Shown size buf₀ (cs ++ [utf8 c]) (put_octets size out c (trailing c)) := by
  have hlen := length_utf8 hc
  have hpos : 0 < trailing c := by
    unfold trailing
    rw [if_pos (by omega)]
    omega
  have hpos2 : u32 ((putc size out 0).2 + trailing c) = out.2 + (utf8 c).length := by
    have hfirst : (putc size out 0).2 = out.2 + 1 := u32_of_lt (by omega)
    rw [hfirst, u32_of_lt (by omega)]
    omega
  unfold put_octets
  simp only [hpos2, put_trailing]
  by_cases hroom : out.2 + (utf8 c).length < size
  · rw [if_neg (by omega)]
    obtain ⟨rest, hutf8, hrest, hoctets⟩ := lead_octet hc rfl hpos
    have hsame : ∀ m : Mem, (∀ x, m x = Mem.copy out.1 out.2 (utf8 c) x) →
        Shown size buf₀ (cs ++ [utf8 c]) (m, out.2 + (utf8 c).length) := by
      intro m hm
      rw [funext hm]
      exact h.whole hroom
    refine hsame _ fun x => ?_
    rw [hutf8]
    by_cases hx : x = out.2
    · rw [hx, Mem.set_same, if_neg (by omega), Mem.set_same, Mem.copy, if_pos (by simp), Nat.sub_self]
      rfl
    · rw [Mem.set_ne hx]
      by_cases hin : out.2 < x ∧ x ≤ out.2 + trailing c
      · have hindex : x - out.2 = x - out.2 - 1 + 1 := by omega
        have hback : trailing c - (x - out.2 - 1 + 1) = out.2 + trailing c - x := by omega
        rw [if_pos hin, Mem.copy, if_pos ⟨by omega, by rw [List.length_cons]; omega⟩, hindex, List.getD_cons_succ,
          hoctets _ (by omega), hback]
      · have hzero : (putc size out 0).1 x = out.1 x := by
          unfold putc
          split
          · exact Mem.set_ne hx
          · rfl
        rw [if_neg hin, Mem.set_ne hx, hzero, Mem.copy_apply_ne (by rw [List.length_cons]; omega)]
  · rw [if_pos (by omega)]
    refine h.cut (by omega) (by omega) ?_ ?_ ?_
    · intro x hx
      unfold putc
      split
      · exact Mem.set_ne (by omega)
      · rfl
    · intro hlt
      unfold putc
      rw [if_pos (by omega)]
      exact Mem.set_same _ _ _
    · intro x hx
      unfold putc
      split
      · exact Mem.set_ne (by omega)
      · rfl

theorem shown_put (h : Shown size buf₀ cs out) {p : Piece} (hp : p.Valid) (hmax : out.2 + p.chunk.length < 2 ^ 32) :
    Shown size buf₀ (cs ++ [p.chunk]) (put size out p) := by
  cases p with
  | byte b => exact shown_putc h hmax b
  | char c =>
    rw [put]
    split
    · rename_i hascii
      have hutf8 : utf8 c = [UInt8.ofNat c] := by
        have hnone : trailing c = 0 := by
          unfold trailing
          rw [if_neg (by omega), if_neg (by omega), if_neg (by omega)]
        obtain ⟨-, hu⟩ | ⟨ht, -⟩ | ⟨ht, -⟩ | ⟨ht, -⟩ := utf8_eq hp
        · exact hu
        all_goals omega
      rw [Piece.chunk, hutf8] at hmax ⊢
      exact shown_putc h hmax _
    · rename_i hwide
      exact shown_octets h hp hmax hwide

/-- Piece by piece. -/
theorem shown_pieces (ps : List Piece) (hps : ∀ p ∈ ps, p.Valid) {cs : List (List UInt8)} {out : Mem × Nat} (h : Shown size buf₀ cs out)
    (hmax : out.2 + (ps.map Piece.chunk).flatten.length < 2 ^ 32) :
    Shown size buf₀ (cs ++ ps.map Piece.chunk) (ps.foldl (put size) out) := by
  induction ps generalizing cs out with
  | nil =>
    rw [List.map_nil, List.append_nil]
    exact h
  | cons p ps ih =>
    rw [List.map_cons, List.flatten_cons, List.length_append] at hmax
    have hfirst := shown_put h (hps p List.mem_cons_self) (by omega)
    have hpos : (put size out p).2 = out.2 + p.chunk.length := by
      rw [hfirst.pos, h.pos, List.flatten_append, List.flatten_singleton, List.length_append]
    have hrest := ih (fun q hq => hps q (List.mem_cons_of_mem p hq)) hfirst (by omega)
    rw [List.append_assoc] at hrest
    exact hrest

/-! ## The characters of a wide string -/

/-- The first characters. -/
def read_chars (array : Mem) : Nat → Nat → List Nat
  | 0, _ => []
  | n + 1, s => (utf16_to_utf32 array s).1 :: read_chars array n (utf16_to_utf32 array s).2

theorem read_chars_valid (array : Mem) (n s : Nat) : ∀ c ∈ read_chars array n s, c.isValidChar := by
  induction n generalizing s with
  | zero =>
    intro c hc
    cases hc
  | succ n ih =>
    intro c hc
    rcases List.mem_cons.1 hc with rfl | hc
    · rw [utf16_to_utf32_eq]
      exact decode_valid (word_lt array s)
    · exact ih _ c hc

/-- How many bytes they are. -/
def utf8_bytes (cs : List Nat) : List UInt8 := cs.flatMap utf8

/-- A word counts for as many bytes as its character has, and one byte less where the character takes two words. -/
theorem length_decode {c0 : Nat} (h0 : c0 < 2 ^ 16) (c1 : Nat) :
    (utf8 (decode c0 c1).1).length =
      1 + (if c0 ≥ 0x80 then 1 else 0) + (if c0 ≥ 0x800 then 1 else 0) + ((decode c0 c1).2 - 1) := by
  rw [length_utf8 (decode_valid h0), trailing, decode]
  split_ifs <;> omega

/-- The pointer behind them. -/
def read_end (array : Mem) : Nat → Nat → Nat
  | 0, s => s
  | n + 1, s => read_end array n (utf16_to_utf32 array s).2

/-- Why the count ends: the string does, or the next character has no room. A surrogate without its other half is only
counted where there is room for a pair. -/
def Stops (m : Mem) (maxlen len e : Nat) : Prop :=
  word m e = 0 ∨ maxlen < len + (utf8 (utf16_to_utf32 m e).1).length ∨
    (utf16_to_utf32 m e).1 = 0xfffd ∧ len + (utf8 (utf16_to_utf32 m e).1).length = maxlen

/-- What is counted are the bytes of the first `n` characters. -/
structure Counted (m : Mem) (maxlen turns s len n : Nat) : Prop where
  count : utf16s_utf8nlen m maxlen turns s len = len + (utf8_bytes (read_chars m n s)).length
  fits : len + (utf8_bytes (read_chars m n s)).length ≤ maxlen
  inside : ∀ i < n, word m (read_end m i s) ≠ 0
  stops : maxlen - len ≤ turns → Stops m maxlen (len + (utf8_bytes (read_chars m n s)).length) (read_end m n s)

theorem utf8_bytes_cons (c : Nat) (cs : List Nat) : utf8_bytes (c :: cs) = utf8 c ++ utf8_bytes cs := List.flatMap_cons

theorem utf16s_utf8nlen_eq (m : Mem) {maxlen : Nat} (turns s : Nat) {len : Nat} (hlen : len ≤ maxlen) :
    ∃ n, Counted m maxlen turns s len n := by
  induction turns generalizing s len with
  | zero =>
    have hchar := length_utf8 (read_chars_valid m 1 s _ List.mem_cons_self)
    refine ⟨0, rfl, hlen, fun i hi => absurd hi (Nat.not_lt_zero i), fun hturns => .inr (.inl ?_)⟩
    have hnone : (utf8_bytes (read_chars m 0 s)).length = 0 := rfl
    rw [hnone, read_end, hchar]
    omega
  | succ turns ih =>
    have h0 := word_lt m s
    have h1 := word_lt m (s + 2)
    have hchar := length_decode h0 (word m (s + 2))
    have hread := utf16_to_utf32_eq m s
    have hhere : (utf16_to_utf32 m s).1 = (decode (word m s) (word m (s + 2))).1 := by rw [hread]
    have hnone : (utf8_bytes (read_chars m 0 s)).length = 0 := rfl
    rw [← hhere] at hchar
    -- one character, of as many bytes as were added
    have hnext : ∀ s' len', (utf16_to_utf32 m s).2 = s' → len' = len + (utf8 (utf16_to_utf32 m s).1).length → len' ≤ maxlen →
        len < len' → word m s ≠ 0 → utf16s_utf8nlen m maxlen (turns + 1) s len = utf16s_utf8nlen m maxlen turns s' len' →
        ∃ n, Counted m maxlen (turns + 1) s len n := by
      intro s' len' hs' hlen' hmax hlt hword hstep
      obtain ⟨n, hn⟩ := ih s' hmax
      have hbytes : len + (utf8_bytes (read_chars m (n + 1) s)).length = len' + (utf8_bytes (read_chars m n s')).length := by
        rw [read_chars, utf8_bytes_cons, List.length_append, hs', hlen', Nat.add_assoc]
      refine ⟨n + 1, ?_, ?_, ?_, ?_⟩
      · rw [hstep, hn.count, hbytes]
      · rw [hbytes]
        exact hn.fits
      · intro i hi
        cases i with
        | zero => exact hword
        | succ i =>
          rw [read_end, hs']
          exact hn.inside i (by omega)
      · intro hturns
        rw [hbytes, read_end, hs']
        exact hn.stops (by omega)
    have hstay : utf16s_utf8nlen m maxlen (turns + 1) s len = len → Stops m maxlen len s → ∃ n, Counted m maxlen (turns + 1) s len n :=
      fun hstep hstop => ⟨0, hstep, hlen, fun i hi => absurd hi (Nat.not_lt_zero i), fun _ => hstop⟩
    rw [utf16s_utf8nlen] at hnext hstay
    simp only [high_iff h0, low_iff h1] at hnext hstay
    generalize hclen : 1 + (if word m s ≥ 0x80 then 1 else 0) + (if word m s ≥ 0x800 then 1 else 0) = clen at hchar hnext hstay
    by_cases hmore : len < maxlen ∧ word m s ≠ 0
    · simp only [if_pos hmore] at hnext hstay
      by_cases hover : len + clen > maxlen
      · exact hstay (if_pos hover) (.inr (.inl (by omega)))
      simp only [if_neg hover] at hnext hstay
      by_cases hhigh : 0xd800 ≤ word m s ∧ word m s < 0xdc00
      · simp only [if_pos hhigh] at hnext hstay
        by_cases hfull : len + clen = maxlen
        · refine hstay (if_pos hfull) ?_
          by_cases hlow : 0xdc00 ≤ word m (s + 2) ∧ word m (s + 2) < 0xe000
          · have hpair : (decode (word m s) (word m (s + 2))).2 = 2 := by
              rw [decode, if_neg (by omega), if_pos ⟨hhigh.2, hlow⟩]
            exact .inr (.inl (by omega))
          · have hlone : decode (word m s) (word m (s + 2)) = (0xfffd, 1) := by
              rw [decode, if_neg (by omega), if_neg (by omega)]
            rw [hlone] at hchar hhere
            exact .inr (.inr ⟨hhere, by omega⟩)
        simp only [if_neg hfull] at hnext
        by_cases hlow : 0xdc00 ≤ word m (s + 2) ∧ word m (s + 2) < 0xe000
        · have hpair : (decode (word m s) (word m (s + 2))).2 = 2 := by
            rw [decode, if_neg (by omega), if_pos ⟨hhigh.2, hlow⟩]
          rw [hpair] at hread hchar
          exact hnext (s + 4) (len + (clen + 1)) (congrArg Prod.snd hread) (by omega) (by omega) (by omega) hmore.2 (if_pos hlow)
        · have hone : (decode (word m s) (word m (s + 2))).2 = 1 := by
            rw [decode, if_neg (by omega), if_neg (by omega)]
          rw [hone] at hread hchar
          exact hnext (s + 2) (len + clen) (congrArg Prod.snd hread) (by omega) (by omega) (by omega) hmore.2 (if_neg hlow)
      · have hone : (decode (word m s) (word m (s + 2))).2 = 1 := by
          unfold decode
          split_ifs
          · rfl
          · omega
          · rfl
        rw [hone] at hread hchar
        exact hnext (s + 2) (len + clen) (congrArg Prod.snd hread) (by omega) (by omega) (by omega) hmore.2 (if_neg hhigh)
    · refine hstay (if_neg hmore) ?_
      by_cases hword : word m s = 0
      · exact .inl hword
      · have hpos := length_utf8 (read_chars_valid m 1 s _ List.mem_cons_self)
        exact .inr (.inl (by omega))

/-- Counted so, the characters are put one by one, and the count ends at zero. -/
theorem put_wide_chars (size : Nat) (array : Mem) (n s : Nat) (out : Mem × Nat) {fuel : Nat}
    (hfuel : (utf8_bytes (read_chars array n s)).length < fuel) (hmax : (utf8_bytes (read_chars array n s)).length < 2 ^ 32) :
    loop (put_wide size array) fuel ((utf8_bytes (read_chars array n s)).length, s, out) =
      some (((read_chars array n s).map Piece.char).foldl (put size) out) := by
  induction n generalizing s out fuel with
  | zero =>
    obtain ⟨fuel, rfl⟩ : ∃ k, fuel = k + 1 := ⟨fuel - 1, by omega⟩
    exact loop_done rfl fuel
  | succ n ih =>
    obtain ⟨fuel, rfl⟩ : ∃ k, fuel = k + 1 := ⟨fuel - 1, by omega⟩
    have hvalid := read_chars_valid array (n + 1) s _ List.mem_cons_self
    have hlen := length_utf8 hvalid
    have hbytes : (utf8_bytes (read_chars array (n + 1) s)).length =
        (utf8_bytes (read_chars array n (utf16_to_utf32 array s).2)).length + trailing (utf16_to_utf32 array s).1 + 1 := by
      rw [read_chars, utf8_bytes_cons, List.length_append, hlen]
      omega
    have hturn : put_wide size array ((utf8_bytes (read_chars array (n + 1) s)).length, s, out) =
        .cont ((utf8_bytes (read_chars array n (utf16_to_utf32 array s).2)).length, (utf16_to_utf32 array s).2,
          put size out (.char (utf16_to_utf32 array s).1)) := by
      rw [hbytes]
      simp only [put_wide, put]
      by_cases hascii : (utf16_to_utf32 array s).1 < 0x80
      · have hnone : trailing (utf16_to_utf32 array s).1 = 0 := by
          unfold trailing
          rw [if_neg (by omega), if_neg (by omega), if_neg (by omega)]
        rw [if_pos hascii, if_pos hascii, hnone]
        rfl
      · have hclen : 1 + (if (utf16_to_utf32 array s).1 ≥ 0x800 then 1 else 0) + (if (utf16_to_utf32 array s).1 ≥ 0x10000 then 1 else 0) =
            trailing (utf16_to_utf32 array s).1 := by
          unfold trailing
          rw [if_pos (by omega : (utf16_to_utf32 array s).1 ≥ 0x80)]
        simp only [hclen]
        rw [if_neg hascii, if_neg hascii, u32sub_of_le (by omega) (by omega), Nat.add_sub_cancel]
    rw [loop_cont hturn, ih _ _ (by omega) (by omega)]
    rfl

/-! ## The text of a wide string -/

/-- The words from `s` on, and the zero behind them. -/
def Words (m : Mem) : Nat → List Nat → Prop
  | s, [] => word m s = 0
  | s, c :: ws => word m s = c ∧ c ≠ 0 ∧ Words m (s + 2) ws

/-- The characters of UTF-16. Half a pair becomes U+FFFD. -/
def code_points : List Nat → List Nat
  | [] => []
  | [c0] => [(decode c0 0).1]
  | c0 :: c1 :: ws =>
    if (decode c0 c1).2 = 2 then (decode c0 c1).1 :: code_points ws else (decode c0 c1).1 :: code_points (c1 :: ws)

theorem Words.step {m : Mem} {s c : Nat} {ws : List Nat} (h : Words m s (c :: ws)) :
    ∃ ws', Words m (utf16_to_utf32 m s).2 ws' ∧ code_points (c :: ws) = (utf16_to_utf32 m s).1 :: code_points ws' := by
  obtain ⟨hc, -, hrest⟩ := h
  rw [utf16_to_utf32_eq, hc]
  cases ws with
  | nil =>
    have hend : word m (s + 2) = 0 := hrest
    have hone : (decode c 0).2 = 1 := by
      unfold decode
      split_ifs
      · rfl
      · omega
      · rfl
    rw [hend, hone]
    exact ⟨[], hrest, rfl⟩
  | cons c1 ws =>
    obtain ⟨hc1, -, hafter⟩ := id hrest
    rw [hc1, code_points]
    by_cases hpair : (decode c c1).2 = 2
    · rw [if_pos hpair, hpair]
      exact ⟨ws, hafter, rfl⟩
    · have hone : (decode c c1).2 = 1 := by
        revert hpair
        unfold decode
        split_ifs
        · exact fun _ => rfl
        · exact fun h => absurd rfl h
        · exact fun _ => rfl
      rw [if_neg hpair, hone]
      exact ⟨c1 :: ws, hrest, rfl⟩

/-- Reading follows the characters of the string, as long as it does not go past its end. -/
theorem Words.read {m : Mem} {s n : Nat} {ws : List Nat} (h : Words m s ws) (hin : ∀ i < n, word m (read_end m i s) ≠ 0) :
    ∃ ws', Words m (read_end m n s) ws' ∧ code_points ws = read_chars m n s ++ code_points ws' := by
  induction n generalizing s ws with
  | zero => exact ⟨ws, h, rfl⟩
  | succ n ih =>
    cases ws with
    | nil => exact absurd h (hin 0 (Nat.succ_pos n))
    | cons c ws =>
      obtain ⟨ws₁, hwords, hpoints⟩ := h.step
      obtain ⟨ws₂, hend, hchars⟩ := ih hwords fun i hi => hin (i + 1) (Nat.succ_lt_succ hi)
      refine ⟨ws₂, hend, ?_⟩
      rw [hpoints, hchars]
      rfl

/-- A character as UTF-16. -/
def utf16 (c : Nat) : List Nat := if c < 0x10000 then [c] else [0xd800 + (c - 0x10000) / 0x400, 0xdc00 + (c - 0x10000) % 0x400]

theorem code_points_utf16 {cs : List Nat} (hcs : ∀ c ∈ cs, c.isValidChar) : code_points (cs.flatMap utf16) = cs := by
  induction cs with
  | nil => rfl
  | cons c cs ih =>
    have hrest := ih fun d hd => hcs d (List.mem_cons_of_mem c hd)
    have hvalid : c < 0xd800 ∨ 0xdfff < c ∧ c < 0x110000 := hcs c List.mem_cons_self
    rw [List.flatMap_cons, utf16]
    by_cases hbmp : c < 0x10000
    · have hplain : ∀ c1, decode c c1 = (c, 1) := fun c1 => if_pos (by omega)
      rw [if_pos hbmp, List.singleton_append]
      cases hws : cs.flatMap utf16 with
      | nil =>
        rw [hws] at hrest
        rw [code_points, hplain, ← hrest, code_points]
      | cons c1 ws =>
        rw [hws] at hrest
        have hone : ¬(c, 1).2 = 2 := Nat.succ_ne_succ_iff.2 Nat.zero_ne_one
        rw [code_points, hplain, if_neg hone, hrest]
    · have hpair : decode (0xd800 + (c - 0x10000) / 0x400) (0xdc00 + (c - 0x10000) % 0x400) = (c, 2) := by
        rw [decode, if_neg (by omega), if_pos (by omega)]
        refine Prod.ext ?_ rfl
        dsimp only
        omega
      rw [if_neg hbmp, List.cons_append, List.singleton_append, code_points, hpair, if_pos rfl, hrest]

/-- A wide string of at most `maxlen` bytes in UTF-8: the octets of its first characters go behind what is in the buffer, as many
as there is room for. -/
theorem wide_string_put {m : Mem} {s : Nat} {ws : List Nat} (h : Words m s ws) {maxlen : Nat}
    (hout : Shown size buf₀ cs out) (hlong : out.2 + maxlen < 2 ^ 32) :
    ∃ n ≤ (code_points ws).length, ∃ out',
      loop (put_wide size m) (utf16s_utf8nlen m maxlen maxlen s 0 + 1) (utf16s_utf8nlen m maxlen maxlen s 0, s, out) = some out' ∧
      Shown size buf₀ (cs ++ ((code_points ws).take n).map utf8) out' ∧
      (utf8_bytes ((code_points ws).take n)).length ≤ maxlen ∧
      (n < (code_points ws).length → maxlen < (utf8_bytes ((code_points ws).take (n + 1))).length ∨
        (code_points ws)[n]? = some 0xfffd ∧ (utf8_bytes ((code_points ws).take (n + 1))).length = maxlen) := by
  obtain ⟨n, hn⟩ := utf16s_utf8nlen_eq m maxlen s (Nat.zero_le maxlen)
  obtain ⟨ws', hend, hpoints⟩ := h.read hn.inside
  have hcount : utf16s_utf8nlen m maxlen maxlen s 0 = (utf8_bytes (read_chars m n s)).length := by rw [hn.count, Nat.zero_add]
  have hfits := hn.fits
  have hlen : ∀ k s, (read_chars m k s).length = k := by
    intro k
    induction k with
    | zero => exact fun _ => rfl
    | succ k ih => exact fun s => congrArg Nat.succ (ih _)
  have htake : (code_points ws).take n = read_chars m n s := by
    rw [hpoints, List.take_left' (hlen n s)]
  rw [Nat.zero_add] at hfits
  have hvalid : ∀ p ∈ (read_chars m n s).map Piece.char, p.Valid := by
    intro p hp
    obtain ⟨c, hc, rfl⟩ := List.mem_map.1 hp
    exact read_chars_valid m n s c hc
  have hchunks : ((read_chars m n s).map Piece.char).map Piece.chunk = (read_chars m n s).map utf8 := List.map_map
  have hbytes : ((read_chars m n s).map utf8).flatten = utf8_bytes (read_chars m n s) := rfl
  refine ⟨n, ?_, ((read_chars m n s).map Piece.char).foldl (put size) out, ?_, ?_, ?_, ?_⟩
  · rw [hpoints, List.length_append, hlen]
    exact Nat.le_add_right n _
  · rw [hcount]
    exact put_wide_chars size m n s out (Nat.lt_succ_self _) (by omega)
  · rw [htake, ← hchunks]
    exact shown_pieces _ hvalid hout (by rw [hchunks, hbytes]; omega)
  · rw [htake]
    exact hfits
  · intro hlt
    cases ws' with
    | nil =>
      rw [hpoints, code_points, List.append_nil, hlen] at hlt
      exact absurd hlt (Nat.lt_irrefl n)
    | cons c ws' =>
      obtain ⟨ws₂, -, hnext⟩ := hend.step
      have hsucc : (code_points ws).take (n + 1) = read_chars m n s ++ [(utf16_to_utf32 m (read_end m n s)).1] := by
        rw [hpoints, hnext, List.take_append, hlen, Nat.add_sub_cancel_left, List.take_of_length_le (by rw [hlen]; omega)]
        rfl
      have hbytes : (utf8_bytes ((code_points ws).take (n + 1))).length =
          (utf8_bytes (read_chars m n s)).length + (utf8 (utf16_to_utf32 m (read_end m n s)).1).length := by
        rw [hsucc, utf8_bytes, List.flatMap_append, List.length_append, List.flatMap_singleton]
        rfl
      have hhead : (code_points ws)[n]? = some (utf16_to_utf32 m (read_end m n s)).1 := by
        rw [hpoints, hnext, List.getElem?_append_right (by rw [hlen]), hlen, Nat.sub_self]
        rfl
      have hstops := hn.stops (Nat.le_of_eq (Nat.sub_zero maxlen))
      rw [Nat.zero_add] at hstops
      rw [hbytes, hhead]
      rcases hstops with hzero | hroom | ⟨hlone, hroom⟩
      · exact absurd (hend.1.symm.trans hzero) hend.2.1
      · exact .inl hroom
      · exact .inr ⟨congrArg some hlone, hroom⟩

/-- U+00E9 and U+1F600, cut behind the first. -/
theorem wide_string_put_pair :
    ∃ n ≤ (code_points [0xe9, 0xd83d, 0xde00]).length, ∃ out',
      loop (put_wide 9 (Mem.copy (fun _ => 0) 0 [0xe9, 0, 0x3d, 0xd8, 0x00, 0xde]))
          (utf16s_utf8nlen (Mem.copy (fun _ => 0) 0 [0xe9, 0, 0x3d, 0xd8, 0x00, 0xde]) 5 5 0 0 + 1)
          (utf16s_utf8nlen (Mem.copy (fun _ => 0) 0 [0xe9, 0, 0x3d, 0xd8, 0x00, 0xde]) 5 5 0 0, 0, (fun _ => 0, 0)) =
        some out' ∧
      Shown 9 (fun _ => 0) ([] ++ ((code_points [0xe9, 0xd83d, 0xde00]).take n).map utf8) out' ∧
      (utf8_bytes ((code_points [0xe9, 0xd83d, 0xde00]).take n)).length ≤ 5 ∧
      (n < (code_points [0xe9, 0xd83d, 0xde00]).length →
        5 < (utf8_bytes ((code_points [0xe9, 0xd83d, 0xde00]).take (n + 1))).length ∨
          (code_points [0xe9, 0xd83d, 0xde00])[n]? = some 0xfffd ∧
            (utf8_bytes ((code_points [0xe9, 0xd83d, 0xde00]).take (n + 1))).length = 5) :=
  have hwords : Words (Mem.copy (fun _ => 0) 0 [0xe9, 0, 0x3d, 0xd8, 0x00, 0xde]) 0 [0xe9, 0xd83d, 0xde00] :=
    ⟨by decide, by decide, by decide, by decide, by decide, by decide, (by decide : word _ 6 = 0)⟩
  wide_string_put hwords (Shown.nothing 9 fun _ => 0) (by decide)

end McLinOS.Vsprintf
