import Mathlib.Tactic.Common
import McLinOS.CLib.Strings
/-!
# Searching memory

`memchr_inv` of `lib/_string.c` looks for a byte that is not `c`: byte by byte up to an
address that 8 divides, then a word for every eight bytes, then byte by byte. The word is
a `u64`, which has four bytes here, so half of each eight is not looked at. 0 is `NULL`.
-/
open CLib

namespace McLinOS.StringSearch

def check_bytes8 (m : Mem) (start : Nat) (value : UInt8) : Nat → Nat
  | 0 => 0
  | bytes + 1 => if m start ≠ value then start else check_bytes8 m (start + 1) value bytes

/-- The byte in all places, without a multiplication. The last shift, by 32, is out of
range for the type; the compiled function leaves it out. -/
def value64 (value : UInt8) : UInt32 :=
  let value64 := value.toUInt32
  let value64 := value64 ||| value64 <<< 8
  value64 ||| value64 <<< 16

/-- The words from `start` on, and then `bytes` bytes. -/
def check_words (m : Mem) (value : UInt8) (bytes : Nat) (start : Nat) : Nat → Nat
  | 0 => check_bytes8 m start value bytes
  | words + 1 =>
    if Mem.load 4 m start ≠ (value64 value).toNat then check_bytes8 m start value 8
    else check_words m value bytes (start + 8) words

def memchr_inv (m : Mem) (start : Nat) (c : Int) (bytes : Nat) : Nat :=
  let value := UInt8.ofInt c
  if bytes ≤ 16 then check_bytes8 m start value bytes
  else if start % 8 ≠ 0 then
    let before := 8 - start % 8
    let r := check_bytes8 m start value before
    if r ≠ 0 then r else check_words m value ((bytes - before) % 8) (start + before) ((bytes - before) / 8)
  else check_words m value (bytes % 8) start (bytes / 8)

/-! ## What is found -/

/-- The addresses whose bytes are compared: those of a short area, of the ends, and of the
lower half of the eight bytes between. -/
def Compared (start bytes x : Nat) : Prop :=
  bytes ≤ 16 ∨ x < (start + 7) / 8 * 8 ∨ (start + bytes) / 8 * 8 ≤ x ∨ x % 8 < 4

/-- `r` is the first of the `n` addresses from `a` on that are compared and do not hold
`value`, or `NULL`. -/
def FirstOther (m : Mem) (value : UInt8) (compared : Nat → Prop) (a n r : Nat) : Prop :=
  (r = 0 ∧ ∀ x, a ≤ x → x < a + n → compared x → m x = value) ∨
    (a ≤ r ∧ r < a + n ∧ compared r ∧ m r ≠ value ∧ ∀ x, a ≤ x → x < r → compared x → m x = value)

section Search
variable {m : Mem} {value : UInt8} {compared : Nat → Prop} {a n k r : Nat}

/-- The same bytes, and then a search behind them. -/
theorem FirstOther.behind (hsame : ∀ x, a ≤ x → x < a + n → compared x → m x = value)
    (h : FirstOther m value compared (a + n) k r) : FirstOther m value compared a (n + k) r := by
  have hall : ∀ b, (∀ x, a + n ≤ x → x < b → compared x → m x = value) → ∀ x, a ≤ x → x < b → compared x → m x = value := by
    intro b hrest x hfrom hto hx
    by_cases hlow : x < a + n
    · exact hsame x hfrom hlow hx
    · exact hrest x (Nat.not_lt.1 hlow) hto hx
  obtain ⟨hr, hrest⟩ | ⟨hfrom, hto, hr, hother, hfirst⟩ := h
  · rw [Nat.add_assoc] at hrest
    exact .inl ⟨hr, hall _ hrest⟩
  · exact .inr ⟨by omega, by omega, hr, hother, hall r hfirst⟩

/-- What was found is not looked for any further. -/
theorem FirstOther.found (h : FirstOther m value compared a n r)
    (hother : ∃ x, a ≤ x ∧ x < a + n ∧ compared x ∧ m x ≠ value) (k : Nat) : FirstOther m value compared a (n + k) r := by
  obtain ⟨-, hsame⟩ | ⟨hfrom, hto, hrest⟩ := h
  · obtain ⟨x, hfrom, hto, hx, hne⟩ := hother
    exact absurd (hsame x hfrom hto hx) hne
  · exact .inr ⟨hfrom, by omega, hrest⟩

/-- The first of all the bytes is the first that is compared. -/
theorem FirstOther.only (h : FirstOther m value (fun _ => True) a n r) (hr : a ≤ r → r < a + n → m r ≠ value → compared r) :
    FirstOther m value compared a n r := by
  obtain ⟨hnull, hsame⟩ | ⟨hfrom, hto, -, hother, hfirst⟩ := h
  · exact .inl ⟨hnull, fun x h1 h2 _ => hsame x h1 h2 trivial⟩
  · exact .inr ⟨hfrom, hto, hr hfrom hto hother, hother, fun x h1 h2 _ => hfirst x h1 h2 trivial⟩

theorem check_bytes8_spec (m : Mem) (a : Nat) (value : UInt8) (n : Nat) :
    FirstOther m value (fun _ => True) a n (check_bytes8 m a value n) := by
  induction n generalizing a with
  | zero => exact .inl ⟨rfl, fun x h1 h2 => by omega⟩
  | succ n ih =>
    rw [check_bytes8]
    by_cases hother : m a ≠ value
    · rw [if_pos hother]
      exact .inr ⟨Nat.le_refl a, by omega, trivial, hother, fun x h1 h2 => by omega⟩
    · rw [if_neg hother, Nat.add_comm n 1]
      refine FirstOther.behind (fun x h1 h2 _ => ?_) (ih (a + 1))
      obtain rfl : x = a := by omega
      exact not_not.1 hother

/-- Where all bytes are compared. -/
theorem check_bytes8_all (hall : ∀ x, a ≤ x → x < a + n → compared x) :
    FirstOther m value compared a n (check_bytes8 m a value n) :=
  (check_bytes8_spec m a value n).only fun h1 h2 _ => hall _ h1 h2

theorem value64_toNat (value : UInt8) : (value64 value).toNat = value.toNat * 0x01010101 := by
  have hall : ∀ n < 256, (value64 (UInt8.ofNat n)).toNat = n * 0x01010101 := by decide +kernel
  have hvalue := hall value.toNat value.toNat_lt
  rwa [UInt8.ofNat_toNat] at hvalue

/-- A word is compared with the right value. -/
theorem word_iff : Mem.load 4 m a = (value64 value).toNat ↔ ∀ i < 4, m (a + i) = value := by
  have hconst : Mem.load 4 (fun _ => value) a = (value64 value).toNat := by
    rw [value64_toNat]
    simp only [Mem.load]
    omega
  rw [← hconst]
  constructor
  · intro h i hi
    exact Mem.load_injective h hi
  · intro h
    refine Mem.load_congr fun x hlow hhigh => ?_
    obtain ⟨i, rfl⟩ := Nat.exists_eq_add_of_le hlow
    exact h i (by omega)

/-- A word that differs leads to the first of its bytes that does. -/
theorem word_differs (hword : Mem.load 4 m a ≠ (value64 value).toNat) (hcompared : ∀ x, a ≤ x → x < a + 4 → compared x) :
    FirstOther m value compared a 8 (check_bytes8 m a value 8) ∧ ∃ x, a ≤ x ∧ x < a + 8 ∧ compared x ∧ m x ≠ value := by
  obtain ⟨i, hi, hne⟩ : ∃ i < 4, m (a + i) ≠ value := by
    by_contra hnone
    exact hword (word_iff.2 fun i hi => not_not.1 fun hne => hnone ⟨i, hi, hne⟩)
  refine ⟨?_, a + i, Nat.le_add_right a i, by omega, hcompared _ (Nat.le_add_right a i) (by omega), hne⟩
  obtain ⟨-, hsame⟩ | ⟨hfrom, hto, -, hother, hfirst⟩ := check_bytes8_spec m a value 8
  · exact absurd (hsame (a + i) (by omega) (by omega) trivial) hne
  -- The first one is not behind the one that is known to differ.
  · have hle : check_bytes8 m a value 8 ≤ a + i := by
      by_contra hlt
      exact hne (hfirst (a + i) (by omega) (by omega) trivial)
    exact .inr ⟨hfrom, hto, hcompared _ hfrom (by omega), hother, fun x h1 h2 _ => hfirst x h1 h2 trivial⟩

theorem check_words_spec (m : Mem) (value : UInt8) (bytes words : Nat) (haligned : a % 8 = 0)
    (hwords : ∀ x, a ≤ x → x < a + 8 * words → (compared x ↔ x % 8 < 4)) (hend : ∀ x, a + 8 * words ≤ x → compared x) :
    FirstOther m value compared a (8 * words + bytes) (check_words m value bytes a words) := by
  induction words generalizing a with
  | zero =>
    rw [Nat.mul_zero, Nat.zero_add]
    exact check_bytes8_all fun x h1 _ => hend x (by omega)
  | succ words ih =>
    have hsum : 8 * (words + 1) + bytes = 8 + (8 * words + bytes) := by omega
    rw [hsum, check_words]
    by_cases hword : Mem.load 4 m a = (value64 value).toNat
    · rw [if_neg (not_not.2 hword)]
      refine FirstOther.behind (fun x h1 h2 hx => ?_) (ih (by omega) (fun x h1 h2 => hwords x (by omega) (by omega))
        fun x h1 => hend x (by omega))
      have hlow := (hwords x h1 (by omega)).1 hx
      obtain ⟨i, rfl⟩ := Nat.exists_eq_add_of_le h1
      exact word_iff.1 hword i (by omega)
    · rw [if_pos hword]
      obtain ⟨hfirst, hother⟩ := word_differs hword fun x h1 h2 => (hwords x h1 (by omega)).2 (by omega)
      exact hfirst.found hother _

/-- Whatever the alignment, the first byte that is compared and is not `c` is found. -/
theorem first_other_found (m : Mem) (start : Nat) (c : Int) (bytes : Nat) :
    FirstOther m (UInt8.ofInt c) (Compared start bytes) start bytes (memchr_inv m start c bytes) := by
  unfold memchr_inv
  by_cases hfew : bytes ≤ 16
  · rw [if_pos hfew]
    exact check_bytes8_all fun x _ _ => .inl hfew
  rw [if_neg hfew]
  have hwords : ∀ x, (start + 7) / 8 * 8 ≤ x → x < (start + bytes) / 8 * 8 → (Compared start bytes x ↔ x % 8 < 4) := by
    intro x h1 h2
    rw [Compared]
    omega
  have hend : ∀ x, (start + bytes) / 8 * 8 ≤ x → Compared start bytes x := fun x h => .inr (.inr (.inl h))
  by_cases haligned : start % 8 = 0
  · rw [if_neg (not_not.2 haligned)]
    have hspec := check_words_spec m (UInt8.ofInt c) (bytes % 8) (bytes / 8) haligned
      (fun x h1 h2 => hwords x (by omega) (by omega)) fun x h1 => hend x (by omega)
    rwa [Nat.div_add_mod] at hspec
  · rw [if_pos haligned]
    have hsum : 8 - start % 8 + (8 * ((bytes - (8 - start % 8)) / 8) + (bytes - (8 - start % 8)) % 8) = bytes := by
      rw [Nat.div_add_mod]
      omega
    have hbefore : FirstOther m (UInt8.ofInt c) (Compared start bytes) start (8 - start % 8)
        (check_bytes8 m start (UInt8.ofInt c) (8 - start % 8)) :=
      check_bytes8_all fun x _ h2 => .inr (.inl (by omega))
    by_cases hr : check_bytes8 m start (UInt8.ofInt c) (8 - start % 8) = 0
    · rw [if_neg (not_not.2 hr)]
      have hspec := check_words_spec m (UInt8.ofInt c) ((bytes - (8 - start % 8)) % 8) ((bytes - (8 - start % 8)) / 8)
        (a := start + (8 - start % 8)) (by omega) (fun x h1 h2 => hwords x (by omega) (by omega)) fun x h1 => hend x (by omega)
      rw [← hsum]
      refine FirstOther.behind ?_ ?_
      · obtain ⟨-, hsame⟩ | ⟨hfrom, -, -, -, -⟩ := hbefore
        · rwa [hsum]
        · omega
      · rw [hsum]
        exact hspec
    · rw [if_pos hr]
      obtain ⟨hnull, -⟩ | ⟨hfrom, hto, hrest⟩ := hbefore
      · exact absurd hnull hr
      · exact .inr ⟨hfrom, by omega, hrest⟩

end Search

/-- In the upper half of eight bytes another byte is not seen. -/
example : memchr_inv (fun x => if x = 13 then 7 else 0) 8 0 24 = 0 := by decide

end McLinOS.StringSearch
