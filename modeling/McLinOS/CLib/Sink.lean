import McLinOS.CLib.Strings
/-!
# A buffer that is too small

A text is made of chunks: a byte, or the bytes of one character. It goes into a buffer
that may be too small for it. A chunk is written whole or not at all, what does not fit
is counted all the same, and a zero closes what was written.
-/
namespace CLib

section Fit

variable {α : Type}

/-- The chunks that fit, up to the first that does not. -/
def fit : Nat → List (List α) → List α
  | _, [] => []
  | room, c :: cs => if c.length ≤ room then c ++ fit (room - c.length) cs else []

theorem length_fit_le (room : Nat) (cs : List (List α)) : (fit room cs).length ≤ room := by
  induction cs generalizing room with
  | nil => exact Nat.zero_le room
  | cons c cs ih =>
    rw [fit]
    split
    · rename_i hc
      have hrest := ih (room - c.length)
      rw [List.length_append]
      omega
    · exact Nat.zero_le room

theorem fit_all {room : Nat} {cs : List (List α)} (h : cs.flatten.length ≤ room) : fit room cs = cs.flatten := by
  induction cs generalizing room with
  | nil => rfl
  | cons c cs ih =>
    rw [List.flatten_cons, List.length_append] at h
    have hc : c.length ≤ room := by omega
    have hrest : cs.flatten.length ≤ room - c.length := by omega
    rw [fit, if_pos hc, ih hrest, List.flatten_cons]

/-- One more chunk: it is taken if everything fits with it. -/
theorem fit_snoc (room : Nat) (cs : List (List α)) (c : List α) :
    fit room (cs ++ [c]) = fit room cs ++ if cs.flatten.length + c.length ≤ room then c else [] := by
  induction cs generalizing room with
  | nil =>
    rw [List.nil_append, fit, fit, fit, List.append_nil, List.nil_append, List.flatten_nil, List.length_nil, Nat.zero_add]
  | cons b cs ih =>
    rw [List.cons_append, fit, fit, List.flatten_cons, List.length_append]
    by_cases hb : b.length ≤ room
    · have hroom : cs.flatten.length + c.length ≤ room - b.length ↔ b.length + cs.flatten.length + c.length ≤ room := by omega
      rw [if_pos hb, if_pos hb, ih, List.append_assoc]
      simp only [hroom]
    · rw [if_neg hb, if_neg hb, if_neg (by omega), List.append_nil]

/-- What fits are the first chunks, as many as there is room for. -/
theorem fit_longest (room : Nat) (cs : List (List α)) :
    ∃ k ≤ cs.length, fit room cs = (cs.take k).flatten ∧ (k < cs.length → room < (cs.take (k + 1)).flatten.length) := by
  induction cs generalizing room with
  | nil => exact ⟨0, Nat.le_refl 0, rfl, fun h => absurd h (Nat.not_lt_zero 0)⟩
  | cons c cs ih =>
    by_cases hc : c.length ≤ room
    · obtain ⟨k, hk, hfit, hnext⟩ := ih (room - c.length)
      refine ⟨k + 1, Nat.succ_le_succ hk, ?_, ?_⟩
      · rw [fit, if_pos hc, hfit, List.take_succ_cons, List.flatten_cons]
      · intro hlt
        have hroom := hnext (Nat.lt_of_succ_lt_succ hlt)
        rw [List.take_succ_cons, List.flatten_cons, List.length_append]
        omega
    · refine ⟨0, Nat.zero_le _, ?_, ?_⟩
      · rw [fit, if_neg hc]
        rfl
      · intro _
        rw [List.take_succ_cons, List.flatten_cons, List.length_append]
        omega

theorem fit_initial (room : Nat) (cs : List (List α)) : fit room cs <+: cs.flatten := by
  obtain ⟨k, -, hk, -⟩ := fit_longest room cs
  refine ⟨(cs.drop k).flatten, ?_⟩
  rw [hk, ← List.flatten_append, List.take_append_drop]

end Fit

namespace Mem

theorem bytes_add (m : Mem) (a n k : Nat) : bytes m a (n + k) = bytes m a n ++ bytes m (a + n) k := by
  rw [bytes, bytes, bytes, List.range_add, List.map_append, List.map_map]
  congr 1
  apply List.map_congr_left
  intro i _
  rw [Function.comp_apply, Nat.add_assoc]

end Mem

/-- The buffer and the next position, after the chunks `cs` have gone into `size` bytes. -/
structure Shown (size : Nat) (buf₀ : Mem) (cs : List (List UInt8)) (s : Mem × Nat) : Prop where
  pos : s.2 = cs.flatten.length
  text : Mem.bytes s.1 0 (fit (size - 1) cs).length = fit (size - 1) cs
  closed : size ≤ s.2 → (fit (size - 1) cs).length < size - 1 → s.1 (fit (size - 1) cs).length = 0
  frame : ∀ x, size ≤ x → s.1 x = buf₀ x

variable {size : Nat} {buf₀ : Mem} {cs : List (List UInt8)} {s : Mem × Nat}

theorem Shown.nothing (size : Nat) (buf₀ : Mem) : Shown size buf₀ [] (buf₀, 0) where
  pos := rfl
  text := rfl
  closed h hlt := by
    have hzero : size = 0 := Nat.le_zero.1 h
    rw [hzero] at hlt
    cases hlt
  frame _ _ := rfl

theorem Shown.flat (h : Shown size buf₀ cs s) (hlt : s.2 < size) : fit (size - 1) cs = cs.flatten := by
  have hpos := h.pos
  exact fit_all (by omega)

/-- A chunk for which there is room, and for the zero behind it. -/
theorem Shown.whole (h : Shown size buf₀ cs s) {c : List UInt8} (hroom : s.2 + c.length < size) :
    Shown size buf₀ (cs ++ [c]) (Mem.copy s.1 s.2 c, s.2 + c.length) := by
  have hpos := h.pos
  have hflat := h.flat (by omega)
  have hfit : fit (size - 1) (cs ++ [c]) = cs.flatten ++ c := by
    rw [fit_snoc, hflat, if_pos (by omega)]
  have hlen : (cs.flatten ++ c).length = s.2 + c.length := by rw [List.length_append, hpos]
  refine ⟨?_, ?_, ?_, ?_⟩
  · rw [List.flatten_append, List.flatten_singleton, hlen]
  · have hbefore : Mem.bytes (Mem.copy s.1 s.2 c) 0 s.2 = Mem.bytes s.1 0 s.2 :=
      Mem.bytes_congr fun x _ hx => Mem.copy_apply_ne (.inl (by omega))
    have htext := h.text
    rw [hflat, ← hpos] at htext
    rw [hfit, hlen, Mem.bytes_add, Nat.zero_add, Mem.bytes_copy, hbefore, htext]
  · intro hle _
    exact absurd hroom (Nat.not_lt.2 hle)
  · intro x hx
    rw [← h.frame x hx]
    exact Mem.copy_apply_ne (.inr (by omega))

/-- A chunk for which there is no room. The memory may change behind what is shown, but begins with a zero there. -/
theorem Shown.cut (h : Shown size buf₀ cs s) {c : List UInt8} {m : Mem} (hc : 0 < c.length) (hroom : size ≤ s.2 + c.length)
    (hbefore : ∀ x < s.2, m x = s.1 x) (hzero : s.2 + 1 < size → m s.2 = 0) (hframe : ∀ x, size ≤ x → m x = s.1 x) :
    Shown size buf₀ (cs ++ [c]) (m, s.2 + c.length) := by
  have hpos := h.pos
  have hfit : fit (size - 1) (cs ++ [c]) = fit (size - 1) cs := by
    rw [fit_snoc, if_neg (by omega), List.append_nil]
  have hshort : (fit (size - 1) cs).length ≤ s.2 := by
    rw [hpos]
    exact (fit_initial (size - 1) cs).length_le
  refine ⟨?_, ?_, ?_, ?_⟩
  · rw [List.flatten_append, List.flatten_singleton, List.length_append, hpos]
  · rw [hfit]
    refine (Mem.bytes_congr fun x _ hx => hbefore x (by omega)).trans h.text
  · intro _ hlt
    rw [hfit] at hlt ⊢
    by_cases hfull : size ≤ s.2
    · exact (hbefore _ (by omega)).trans (h.closed hfull hlt)
    · have hflat := h.flat (by omega)
      rw [hflat, ← hpos] at hlt ⊢
      exact hzero (by omega)
  · intro x hx
    exact (hframe x hx).trans (h.frame x hx)

/-- The last byte of the buffer, or the one behind the text, becomes zero. -/
theorem Shown.close (h : Shown size buf₀ cs s) (hsize : 0 < size) :
    Mem.bytes (s.1.set (min s.2 (size - 1)) 0) 0 (fit (size - 1) cs).length = fit (size - 1) cs ∧
      s.1.set (min s.2 (size - 1)) 0 (fit (size - 1) cs).length = 0 ∧
      ∀ x, size ≤ x → s.1.set (min s.2 (size - 1)) 0 x = buf₀ x := by
  have hpos := h.pos
  have hle := length_fit_le (size - 1) cs
  have hend : (fit (size - 1) cs).length ≤ min s.2 (size - 1) := by
    by_cases hfull : size ≤ s.2
    · omega
    · rw [h.flat (by omega), ← hpos]
      omega
  refine ⟨?_, ?_, ?_⟩
  · refine (Mem.bytes_congr fun x _ hx => ?_).trans h.text
    exact Mem.set_ne (by omega)
  · by_cases hlast : (fit (size - 1) cs).length = min s.2 (size - 1)
    · rw [hlast, Mem.set_same]
    · rw [Mem.set_ne hlast]
      have hfull : size ≤ s.2 := by
        by_contra hroom
        rw [h.flat (by omega), ← hpos] at hlast
        omega
      exact h.closed hfull (by omega)
  · intro x hx
    rw [Mem.set_ne (by omega), h.frame x hx]

end CLib
