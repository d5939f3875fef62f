import Mathlib.Data.Nat.Bitwise
import Mathlib.Tactic.Common
/-!
# Byte memory

Memory is a function from addresses to bytes. Multi-byte values are stored
little-endian. The lemmas say what a store, a fill or a copy leaves alone, so
that a proof about a structure in memory only has to compare addresses.
-/
namespace CLib

abbrev Mem := Nat → UInt8

/-- A value kept in 32 bits. -/
def u32 (n : Nat) : Nat := n % 2 ^ 32

theorem u32_of_lt {n : Nat} (h : n < 2 ^ 32) : u32 n = n := Nat.mod_eq_of_lt h

theorem u32_lt (n : Nat) : u32 n < 2 ^ 32 := Nat.mod_lt _ (by decide)

/-- 32-bit subtraction. -/
def u32sub (a b : Nat) : Nat := u32 (a + 2 ^ 32 - b)

theorem u32sub_of_le {a b : Nat} (h : b ≤ a) (ha : a < 2 ^ 32) : u32sub a b = a - b := by
  unfold u32sub u32
  omega

namespace Mem

/-! ## Single bytes -/

def set (m : Mem) (a : Nat) (b : UInt8) : Mem := fun x => if x = a then b else m x

@[simp] theorem set_same (m : Mem) (a : Nat) (b : UInt8) : m.set a b a = b := by simp [set]

theorem set_ne {m : Mem} {a x : Nat} {b : UInt8} (h : x ≠ a) : m.set a b x = m x := by simp [set, h]

/-! ## Little-endian values -/

/-- The `w`-byte value at `a`. -/
def load : Nat → Mem → Nat → Nat
  | 0, _, _ => 0
  | w + 1, m, a => (m a).toNat + 256 * load w m (a + 1)

/-- Store the low `w` bytes of `v` at `a`. -/
def store : Nat → Mem → Nat → Nat → Mem
  | 0, m, _, _ => m
  | w + 1, m, a, v => store w (m.set a (UInt8.ofNat v)) (a + 1) (v / 256)

theorem load_lt (w : Nat) (m : Mem) (a : Nat) : load w m a < 256 ^ w := by
  induction w generalizing a with
  | zero => simp [load]
  | succ w ih =>
    have h1 := ih (a + 1)
    have h2 : (m a).toNat < 256 := (m a).toNat_lt
    rw [load, Nat.pow_succ]
    omega

theorem load_congr {w : Nat} {m m' : Mem} {a : Nat} (h : ∀ x, a ≤ x → x < a + w → m' x = m x) :
    load w m' a = load w m a := by
  induction w generalizing a with
  | zero => rfl
  | succ w ih =>
    rw [load, load, h a (by omega) (by omega), ih fun x h1 h2 => h x (by omega) (by omega)]

theorem store_apply_ne {w : Nat} {m : Mem} {a v x : Nat} (h : x < a ∨ a + w ≤ x) : store w m a v x = m x := by
  induction w generalizing m a v with
  | zero => rfl
  | succ w ih =>
    rw [store, ih (by omega), set_ne (by omega)]

theorem load_store_same (w : Nat) (m : Mem) (a v : Nat) : load w (store w m a v) a = v % 256 ^ w := by
  induction w generalizing m a v with
  | zero => simp [load, Nat.mod_one]
  | succ w ih =>
    have hb : (UInt8.ofNat v).toNat = v % 256 := UInt8.toNat_ofNat'
    rw [load, store, ih, store_apply_ne (by omega), set_same, hb, Nat.pow_succ', Nat.mod_mul]

theorem load_store_ne {w w' : Nat} {m : Mem} {a b v : Nat} (h : a + w ≤ b ∨ b + w' ≤ a) :
    load w (store w' m b v) a = load w m a :=
  load_congr fun x h1 h2 => store_apply_ne (by omega)

/-! ## Filling -/

/-- `n` bytes from `a` on set to `b`, the way `memset` does. -/
def fill : Mem → Nat → Nat → UInt8 → Mem
  | m, _, 0, _ => m
  | m, a, n + 1, b => fill (m.set a b) (a + 1) n b

theorem fill_apply_ne {m : Mem} {a n x : Nat} {b : UInt8} (h : x < a ∨ a + n ≤ x) : fill m a n b x = m x := by
  induction n generalizing m a with
  | zero => rfl
  | succ n ih => rw [fill, ih (by omega), set_ne (by omega)]

theorem fill_apply {m : Mem} {a n x : Nat} {b : UInt8} (hlo : a ≤ x) (hhi : x < a + n) : fill m a n b x = b := by
  induction n generalizing m a with
  | zero => omega
  | succ n ih =>
    rw [fill]
    by_cases hx : x = a
    · rw [hx, fill_apply_ne (by omega), set_same]
    · exact ih (by omega) (by omega)

theorem load_zero {w : Nat} {m : Mem} {a : Nat} (h : ∀ x, a ≤ x → x < a + w → m x = 0) : load w m a = 0 := by
  induction w generalizing a with
  | zero => rfl
  | succ w ih => rw [load, h a (by omega) (by omega), ih fun x h1 h2 => h x (by omega) (by omega)]; rfl

/-! ## Copying -/

/-- The bytes of `data` written from `a` on, the way `memcpy` does. -/
def copy (m : Mem) (a : Nat) (data : List UInt8) : Mem :=
  fun x => if a ≤ x ∧ x < a + data.length then data.getD (x - a) 0 else m x

/-- The `n` bytes from `a` on. -/
def bytes (m : Mem) (a n : Nat) : List UInt8 := (List.range n).map fun i => m (a + i)

@[simp] theorem length_bytes (m : Mem) (a n : Nat) : (bytes m a n).length = n := by simp [bytes]

theorem getD_bytes {m : Mem} {a n i : Nat} (h : i < n) : (bytes m a n).getD i 0 = m (a + i) := by
  simp [bytes, List.getD_eq_getElem?_getD, h]

theorem copy_apply_ne {m : Mem} {a x : Nat} {data : List UInt8} (h : x < a ∨ a + data.length ≤ x) :
    copy m a data x = m x := if_neg (by omega)

theorem bytes_congr {m m' : Mem} {a n : Nat} (h : ∀ x, a ≤ x → x < a + n → m' x = m x) : bytes m' a n = bytes m a n :=
  List.map_congr_left fun i hi => h _ (Nat.le_add_right a i) (Nat.add_lt_add_left (List.mem_range.1 hi) a)

theorem bytes_copy (m : Mem) (a : Nat) (data : List UInt8) : bytes (copy m a data) a data.length = data := by
  refine List.ext_getElem (by simp) fun i h1 h2 => ?_
  simp [bytes, copy, h2]

theorem copy_nil (m : Mem) (a : Nat) : copy m a [] = m := by
  funext x
  simp [copy]

/-! ## Parts of a memory -/

/-- The `n` bytes from `a` on are those of `f`. -/
def overlay (m : Mem) (a n : Nat) (f : Mem) : Mem := fun x => if a ≤ x ∧ x < a + n then f (x - a) else m x

theorem overlay_zero (m : Mem) (a : Nat) (f : Mem) : overlay m a 0 f = m := by
  funext x
  exact if_neg (by omega)

theorem overlay_congr {m f g : Mem} {a n : Nat} (h : ∀ i < n, f i = g i) : overlay m a n f = overlay m a n g := by
  funext x
  unfold overlay
  split
  · exact h _ (by omega)
  · rfl

theorem overlay_append (m f : Mem) (a n k : Nat) :
    overlay (overlay m a n f) (a + n) k (fun i => f (n + i)) = overlay m a (n + k) f := by
  funext x
  unfold overlay
  by_cases hfirst : a ≤ x ∧ x < a + n
  · rw [if_neg (by omega), if_pos hfirst, if_pos (by omega)]
  by_cases hsecond : a + n ≤ x ∧ x < a + n + k
  · rw [if_pos hsecond, if_pos (by omega)]
    exact congrArg f (by omega)
  · rw [if_neg hsecond, if_neg hfirst, if_neg (by omega)]

theorem copy_bytes (m f : Mem) (a b n : Nat) : copy m a (bytes f b n) = overlay m a n fun i => f (b + i) := by
  funext x
  unfold copy overlay
  rw [length_bytes]
  split
  · exact getD_bytes (by omega)
  · rfl

end Mem

end CLib
