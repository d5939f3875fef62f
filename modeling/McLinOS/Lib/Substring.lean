import McLinOS.CLib.Loop
import McLinOS.CLib.Strings
/-!
# Substrings

`strstr` of `lib/_string.c`. `strlen` and `memcmp`, which it uses, are those of the
architecture, in `arch/arm_m/boot/compressed/string.c`. `none` is `NULL`.
-/
open CLib

namespace McLinOS.Substring

section Functions
variable (fuel : Nat) (m : Mem)

def strlen_body (sc : Nat) : ControlFlow Nat Nat := if m sc = 0 then .done sc else .cont (sc + 1)

def strlen (s : Nat) : Option Nat := (loop (strlen_body m) fuel s).map (· - s)

def memcmp (su1 su2 : Nat) : Nat → Int
  | 0 => 0
  | count + 1 =>
    let res : Int := (m su1).toNat - (m su2).toNat
    if res ≠ 0 then res else memcmp (su1 + 1) (su2 + 1) count

/-- A turn with `s1` and `l1`, which is not 0 as `l2` is not. -/
def strstr_body (s2 l2 : Nat) (st : Nat × Nat) : ControlFlow (Nat × Nat) (Option Nat) :=
  if st.2 < l2 then .done none
  else if memcmp m st.1 s2 l2 = 0 then .done (some st.1)
  else .cont (st.1 + 1, st.2 - 1)

def strstr (s1 s2 : Nat) : Option (Option Nat) := do
  let l2 ← strlen fuel m s2
  if l2 = 0 then return some s1
  let l1 ← strlen fuel m s1
  loop (strstr_body m s2 l2) fuel (s1, l1)

end Functions

section Search
variable {fuel a b p : Nat} {m : Mem} {s text : List UInt8}

theorem strlen_loop (h : m.StringAt p s) (hf : s.length < fuel) : loop (strlen_body m) fuel p = some (p + s.length) := by
  induction s generalizing p fuel with
  | nil =>
    obtain ⟨fuel, rfl⟩ : ∃ k, fuel = k + 1 := ⟨fuel - 1, by omega⟩
    have hturn : strlen_body m p = .done p := if_pos h
    exact loop_done hturn fuel
  | cons c s ih =>
    obtain ⟨fuel, rfl⟩ : ∃ k, fuel = k + 1 := ⟨fuel - 1, by omega⟩
    obtain ⟨hc, hp, hrest⟩ := h
    have hturn : strlen_body m p = .cont (p + 1) := if_neg (hp ▸ hc)
    rw [loop_cont hturn, ih hrest (Nat.lt_of_succ_lt_succ hf), List.length_cons, Nat.add_assoc, Nat.add_comm 1]

theorem strlen_eq (h : m.StringAt p s) (hf : s.length < fuel) : strlen fuel m p = some s.length := by
  rw [strlen, strlen_loop h hf, Option.map_some, Nat.add_sub_cancel_left]

theorem memcmp_succ_iff (m : Mem) (a b n : Nat) : memcmp m a b (n + 1) = 0 ↔ m a = m b ∧ memcmp m (a + 1) (b + 1) n = 0 := by
  have hbytes : ((m a).toNat : Int) - (m b).toNat = 0 ↔ m a = m b := by
    rw [← UInt8.toNat_inj]
    omega
  rw [memcmp]
  by_cases hsame : m a = m b
  · rw [if_neg (not_not.2 (hbytes.2 hsame))]
    exact (and_iff_right hsame).symm
  · have hdiffer := mt hbytes.1 hsame
    rw [if_pos hdiffer]
    exact iff_of_false hdiffer fun hboth => hsame hboth.1

/-- Two strings are compared as far as the second goes. -/
theorem memcmp_iff (ha : m.StringAt a text) (hb : m.StringAt b s) (hlen : s.length ≤ text.length) :
    memcmp m a b s.length = 0 ↔ s <+: text := by
  induction s generalizing a b text with
  | nil => exact iff_of_true rfl List.nil_prefix
  | cons c s ih =>
    cases text with
    | nil => exact absurd hlen (by simp)
    | cons d text =>
      obtain ⟨-, hd, htext⟩ := ha
      obtain ⟨-, hc, hs⟩ := hb
      rw [List.length_cons, memcmp_succ_iff, List.cons_prefix_cons, hd, hc, ih htext hs (Nat.le_of_succ_le_succ hlen)]
      exact and_congr_left fun _ => eq_comm

/-- `r` is where `s` occurs first in the string `text` at `a`. -/
def Occurs (a : Nat) (s text : List UInt8) (r : Option Nat) : Prop :=
  (r = none ∧ ¬s <:+: text) ∨
    ∃ us vs, text = us ++ vs ∧ s <+: vs ∧ r = some (a + us.length) ∧ ∀ i < us.length, ¬s <+: text.drop i

theorem search_spec (ha : m.StringAt a text) (hb : m.StringAt b s) (hs : s ≠ []) (hf : text.length < fuel) :
    ∃ r, loop (strstr_body m b s.length) fuel (a, text.length) = some r ∧ Occurs a s text r := by
  have hpos : 0 < s.length := List.length_pos_iff.2 hs
  induction text generalizing a fuel with
  | nil =>
    obtain ⟨fuel, rfl⟩ : ∃ k, fuel = k + 1 := ⟨fuel - 1, by omega⟩
    have hturn : strstr_body m b s.length (a, 0) = .done none := if_pos hpos
    exact ⟨none, loop_done hturn fuel, .inl ⟨rfl, fun h => hs (List.infix_nil.1 h)⟩⟩
  | cons c text ih =>
    obtain ⟨fuel, rfl⟩ : ∃ k, fuel = k + 1 := ⟨fuel - 1, by omega⟩
    by_cases hshort : (c :: text).length < s.length
    · have hturn : strstr_body m b s.length (a, (c :: text).length) = .done none := if_pos hshort
      exact ⟨none, loop_done hturn fuel, .inl ⟨rfl, fun h => absurd h.length_le (Nat.not_le.2 hshort)⟩⟩
    have hcompare := memcmp_iff ha hb (Nat.not_lt.1 hshort)
    by_cases hhere : s <+: c :: text
    · have hturn : strstr_body m b s.length (a, (c :: text).length) = .done (some a) := by
        rw [strstr_body, if_neg hshort, if_pos (hcompare.2 hhere)]
      exact ⟨some a, loop_done hturn fuel, .inr ⟨[], c :: text, rfl, hhere, rfl, fun i hi => absurd hi (Nat.not_lt_zero i)⟩⟩
    · have hturn : strstr_body m b s.length (a, (c :: text).length) = .cont (a + 1, text.length) := by
        rw [strstr_body, if_neg hshort, if_neg (mt hcompare.1 hhere)]
        rfl
      rw [loop_cont hturn]
      obtain ⟨r, hr, ⟨rfl, hnone⟩ | ⟨us, vs, rfl, hvs, rfl, hfirst⟩⟩ := ih ha.2.2 (Nat.lt_of_succ_lt_succ hf)
      · exact ⟨none, hr, .inl ⟨rfl, fun h => (List.infix_cons_iff.1 h).elim hhere hnone⟩⟩
      · refine ⟨_, hr, .inr ⟨c :: us, vs, rfl, hvs, ?_, fun i hi => ?_⟩⟩
        · rw [List.length_cons, Nat.add_assoc, Nat.add_comm 1]
        · cases i with
          | zero => exact hhere
          | succ i => exact hfirst i (Nat.lt_of_succ_lt_succ hi)

/-- The first occurrence is found, and `NULL` is returned only if there is none. -/
theorem substring_found (ha : m.StringAt a text) (hb : m.StringAt b s) (htext : text.length < fuel) (hs : s.length < fuel) :
    ∃ r, strstr fuel m a b = some r ∧ Occurs a s text r := by
  rw [strstr, strlen_eq hb hs]
  by_cases hempty : s = []
  · subst hempty
    exact ⟨some a, rfl, .inr ⟨[], text, rfl, List.nil_prefix, rfl, fun i hi => absurd hi (Nat.not_lt_zero i)⟩⟩
  · obtain ⟨r, hr, hoccurs⟩ := search_spec ha hb hempty htext
    refine ⟨r, ?_, hoccurs⟩
    have hne : s.length ≠ 0 := mt List.length_eq_zero_iff.1 hempty
    simp [hne, strlen_eq ha htext, hr]

/-- `ab` in `aab`. -/
theorem substring_found_second : ∃ r, strstr 8 (Mem.copy (Mem.copy (fun _ => 0) 100 [97, 97, 98]) 200 [97, 98]) 100 200 = some r ∧
    Occurs 100 [97, 98] [97, 97, 98] r :=
  substring_found ⟨by decide, rfl, by decide, rfl, by decide, rfl, rfl⟩ ⟨by decide, rfl, by decide, rfl, rfl⟩ (by decide)
    (by decide)

end Search

end McLinOS.Substring
