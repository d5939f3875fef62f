import Mathlib.Data.List.GetD
import McLinOS.CLib.Mem
/-!
# Strings of bytes in memory

Bytes written one behind the other, byte by byte or part by part, and strings that end
with 0.
-/
namespace CLib.Mem

theorem copy_cons (m : Mem) (a : Nat) (b : UInt8) (data : List UInt8) : copy (m.set a b) (a + 1) data = copy m a (b :: data) := by
  funext x
  unfold copy set
  rw [List.length_cons]
  by_cases hx : x = a
  · subst hx
    simp
  · by_cases hin : a + 1 ≤ x ∧ x < a + 1 + data.length
    · have hback : x - a = x - (a + 1) + 1 := by omega
      rw [if_pos hin, if_pos (by omega), hback, List.getD_cons_succ]
    · rw [if_neg hin, if_neg hx, if_neg (by omega)]

theorem copy_append (m : Mem) (a : Nat) (xs ys : List UInt8) : copy (copy m a xs) (a + xs.length) ys = copy m a (xs ++ ys) := by
  funext x
  unfold copy
  rw [List.length_append]
  by_cases hfirst : a ≤ x ∧ x < a + xs.length
  · rw [if_neg (by omega), if_pos hfirst, if_pos (by omega), List.getD_append _ _ _ _ (by omega)]
  by_cases hsecond : a + xs.length ≤ x ∧ x < a + xs.length + ys.length
  · rw [if_pos hsecond, if_pos (by omega), List.getD_append_right _ _ _ _ (by omega), Nat.sub_sub]
  · rw [if_neg hsecond, if_neg hfirst, if_neg (by omega)]

/-- Equal values have equal bytes. -/
theorem load_injective {w : Nat} {m m' : Mem} {a b : Nat} (h : load w m a = load w m' b) {i : Nat} (hi : i < w) :
    m (a + i) = m' (b + i) := by
  induction w generalizing a b i with
  | zero => omega
  | succ w ih =>
    rw [load, load] at h
    have hlow : (m a).toNat < 256 := (m a).toNat_lt
    have hlow' : (m' b).toNat < 256 := (m' b).toNat_lt
    cases i with
    | zero => exact UInt8.toNat_inj.1 (by simp only [Nat.add_zero]; omega)
    | succ i =>
      have hrest := ih (a := a + 1) (b := b + 1) (by omega) (Nat.lt_of_succ_lt_succ hi)
      rwa [Nat.add_assoc, Nat.add_assoc, Nat.add_comm 1 i] at hrest

/-! ## Strings that end with 0 -/

/-- The string at `p` is `s`. -/
def StringAt (m : Mem) : Nat → List UInt8 → Prop
  | p, [] => m p = 0
  | p, c :: s => c ≠ 0 ∧ m p = c ∧ StringAt m (p + 1) s

namespace StringAt
variable {m m' : Mem} {p : Nat} {c : UInt8} {s us vs : List UInt8}

theorem congr (h : m.StringAt p s) (hm : ∀ x, p ≤ x → x ≤ p + s.length → m' x = m x) : m'.StringAt p s := by
  induction s generalizing p with
  | nil => exact (hm p (Nat.le_refl p) (Nat.le_refl p)).trans h
  | cons c s ih =>
    obtain ⟨hc, hp, hrest⟩ := h
    refine ⟨hc, (hm p (Nat.le_refl p) (Nat.le_add_right _ _)).trans hp, ih hrest fun x hlow hhigh => ?_⟩
    rw [Nat.add_assoc, Nat.add_comm 1] at hhigh
    exact hm x (Nat.le_of_succ_le hlow) hhigh

theorem behind (h : m.StringAt p (us ++ c :: vs)) : m.StringAt (p + us.length + 1) vs := by
  induction us generalizing p with
  | nil => exact h.2.2
  | cons u us ih =>
    have hrest := ih h.2.2
    rwa [Nat.add_assoc p, Nat.add_comm 1] at hrest

/-- A 0 is stored in the string. -/
theorem cut (h : m.StringAt p (us ++ vs)) : (m.set (p + us.length) 0).StringAt p us := by
  induction us generalizing p with
  | nil => exact set_same m p 0
  | cons u us ih =>
    obtain ⟨hu, hp, hrest⟩ := h
    have hend : p + 1 + us.length = p + (u :: us).length := by rw [Nat.add_assoc, Nat.add_comm 1, List.length_cons]
    refine ⟨hu, (set_ne ?_).trans hp, hend ▸ ih hrest⟩
    rw [List.length_cons]
    omega

end StringAt

end CLib.Mem
