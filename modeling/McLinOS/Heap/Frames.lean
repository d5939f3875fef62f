import McLinOS.Heap.Invariant
/-!
# What the calls leave alone

The calls write headers, and the payload of blocks that are or become free. The
payload of every other block in use stays as it was.
-/
open CLib

namespace McLinOS.Heap

/-- `x` is in the payload of a used block of `ps`. -/
def UsedByte (a : Nat) (ps : List Part) (x : Nat) : Prop := ∃ b n, (b, n) ∈ usedAt a ps ∧ b + 20 ≤ x ∧ x < b + 20 + n

section UsedByte
variable {a x : Nat} {ps qs : List Part}

theorem usedByte_append : UsedByte a (ps ++ qs) x ↔ UsedByte a ps x ∨ UsedByte (a + span ps) qs x := by
  simp only [UsedByte, usedAt_append, List.mem_append, or_and_right, exists_or]

theorem usedByte_free {n : Nat} : UsedByte a (⟨n, false⟩ :: ps) x ↔ UsedByte (a + (20 + n)) ps x := by
  simp [UsedByte, usedAt]

theorem UsedByte.bounds (h : UsedByte a ps x) : a + 20 ≤ x ∧ x < a + span ps := by
  obtain ⟨b, n, hb, hlo, hhi⟩ := h
  obtain ⟨us, vs, rfl, hbu⟩ := mem_usedAt.1 hb
  simp only [span_append, span_cons]
  dsimp only at hbu
  omega

end UsedByte

section Frames
variable {m : Mem} {a x : Nat} {xs ys : List Part} {n : Nat} {u : Bool}

/-- The link to the next block. -/
theorem next_at {p : Part} (h : Seg m 0 a (xs ++ p :: ys) 0) :
    next m (a + span xs) = 0 ∨ next m (a + span xs) = a + span xs + (20 + p.size) := by
  rw [(hdr_at h).next]
  split
  · exact .inl rfl
  · exact .inr rfl

/-- `x` is neither in the block of `n` bytes at `b` nor in the link `c` has back
to it, `c` being the block behind it if there is one. -/
def Outside (b n c x : Nat) : Prop := x < b ∨ b + (20 + n) ≤ x ∧ (c = 0 ∨ x < c + 16 ∨ c + 20 ≤ x)

theorem incise_frame {b size : Nat} (hnext : next m b = 0 ∨ next m b = b + (20 + n)) (hsize : block_size m b = n)
    (hhigh : b + (20 + n) ≤ 2 ^ 32) (hfit : size + 20 ≤ n) (hx : Outside b n (next m b) x) :
    (incise_free_block m b size).1 x = m x := by
  have e2 : u32 (20 + size) = 20 + size := u32_of_lt (by omega)
  have e3 : u32 (b + (20 + size)) = b + (20 + size) := u32_of_lt (by omega)
  unfold incise_free_block
  split
  · rfl
  split
  · rfl
  split
  · rfl
  rw [sizeof_memory_block, e2]
  dsimp only
  rw [e3]
  simp (disch := omega) only [next, set_block_size, set_next, reset_block_status, set_flag, flag, set_magic,
    set_priv_block, Mem.load_store_ne]
  simp only [next, Outside] at hnext hx
  simp (disch := omega) only [Mem.store_apply_ne, fix_priv_apply]

theorem use_block_frame {b size slack : Nat} (hnext : next m b = 0 ∨ next m b = b + (20 + n))
    (hsize : block_size m b = n) (hlow : 32 ≤ b) (hhigh : b + (20 + n) ≤ 2 ^ 32) (hn : size ≤ n) (hslack : slack ≤ 8)
    (hx : Outside b n (next m b) x) : (use_block m b size slack).1 x = m x := by
  have e1 : u32 (size + sizeof_memory_block + slack) = size + 20 + slack :=
    u32_of_lt (by simp only [sizeof_memory_block]; omega)
  have hb : b ≠ 0 := by omega
  rw [use_block, if_neg hb, e1, hsize]
  dsimp only
  rw [set_block_status, set_flag, Mem.store_apply_ne (by unfold Outside at hx; omega)]
  split
  · exact incise_frame hnext hsize hhigh (by omega) hx
  · rfl

theorem absorb_frame {b d c k : Nat} (hsize : block_size m d = k) (hbd : b + 20 ≤ d) (hhigh : 20 + k < 2 ^ 32)
    (hc : c = 0 ∨ c = d + (20 + k)) (hx : x < b ∨ d + (20 + k) ≤ x ∧ (c = 0 ∨ x < c + 16 ∨ c + 20 ≤ x)) :
    absorb m b d c x = m x := by
  unfold absorb
  simp only [set_block_size, set_next, set_priv_block]
  rw [clean_block_apply (n := k) _ hhigh (by omega)]
  · simp (disch := omega) only [Mem.store_apply_ne, fix_priv_apply]
  · simp (disch := omega) only [block_size, Mem.load_store_ne, load_fix_priv]
    exact hsize

theorem reset_frame {b : Nat} (hx : x ≠ b) : reset_block_status m b use_flag x = m x :=
  Mem.store_apply_ne (by omega)

/-- `x` is outside the heap, or in the payload of a used block before or behind
the block of `n` bytes between `xs` and `ys`. -/
def Kept (a : Nat) (xs : List Part) (n : Nat) (ys : List Part) (x : Nat) : Prop :=
  x < a ∨ UsedByte a xs x ∨ UsedByte (a + span xs + (20 + n)) ys x ∨ a + span xs + (20 + n) + span ys ≤ x

theorem Kept.bounds (h : Kept a xs n ys x) :
    x < a + span xs ∨ a + span xs + (20 + n) ≤ x ∧ (ys = [] ∨ a + span xs + (20 + n) + 20 ≤ x) := by
  rcases h with h | h | h | h
  · exact .inl (by omega)
  · exact .inl h.bounds.2
  · exact .inr ⟨by have := h.bounds; omega, .inr h.bounds.1⟩
  · refine .inr ⟨by omega, ?_⟩
    by_cases hys : ys = []
    · exact .inl hys
    · have := span_pos hys
      exact .inr (by omega)

/-- A free block behind can be counted to the block itself. -/
theorem kept_right {k : Nat} : Kept a xs n (⟨k, false⟩ :: ys) x ↔ Kept a xs (n + (20 + k)) ys x := by
  have e : a + span xs + (20 + (n + (20 + k))) = a + span xs + (20 + n) + (20 + k) := by omega
  rw [Kept, Kept, usedByte_free, span_cons, e, ← Nat.add_assoc (a + span xs + (20 + n)) (20 + k) (span ys)]

theorem kept_left {k : Nat} : Kept a (xs ++ [⟨k, false⟩]) n ys x ↔ Kept a xs (k + (20 + n)) ys x := by
  have hnone : ¬UsedByte (a + span xs + (20 + k)) [] x := fun ⟨b, j, hb, _⟩ => by simp [usedAt] at hb
  have e : a + span (xs ++ [⟨k, false⟩]) + (20 + n) = a + span xs + (20 + (k + (20 + n))) := by
    simp only [span_append, span_cons, span_nil]
    omega
  rw [Kept, Kept, usedByte_append, usedByte_free, e, or_iff_left hnone]

/-- The link written behind a merged block is 0 or lies where the block ends. -/
theorem Kept.merged {d k c : Nat} (h : Kept a xs n ys x) (hd : d + (20 + k) = a + span xs + (20 + n))
    (hc : c = if ys = [] then 0 else d + (20 + k)) :
    (c = 0 ∨ c = d + (20 + k)) ∧
      (x < a + span xs ∨ d + (20 + k) ≤ x ∧ (c = 0 ∨ x < c + 16 ∨ c + 20 ≤ x)) := by
  subst hc
  split
  · exact ⟨.inl rfl, h.bounds.imp_right fun h => ⟨by omega, .inl rfl⟩⟩
  · rename_i hys
    refine ⟨.inr rfl, h.bounds.imp_right fun h => ⟨by omega, .inr (.inr ?_)⟩⟩
    have := h.2.resolve_left hys
    omega

/-- One turn of the merge loop: some block is free afterwards, and what was in
use around the block freed is in use around it, unchanged. -/
theorem free_block_turn (h : Seg m 0 a (xs ++ ⟨n, u⟩ :: ys) 0) (ha : 0 < a)
    (htop : a + span (xs ++ ⟨n, u⟩ :: ys) ≤ 2 ^ 32) :
    ∃ xs' n' ys', (free_block m (a + span xs)).2 = a + span xs' ∧
      Seg (free_block m (a + span xs)).1 0 a (xs' ++ ⟨n', false⟩ :: ys') 0 ∧
      span (xs' ++ ⟨n', false⟩ :: ys') = span (xs ++ ⟨n, u⟩ :: ys) ∧
      ∀ x, Kept a xs n ys x → (free_block m (a + span xs)).1 x = m x ∧ Kept a xs' n' ys' x := by
  simp only [span_append, span_cons] at htop
  by_cases hxs : UsedBefore xs
  · by_cases hys : UsedAfter ys
    · -- Only the flag of the block itself is written.
      obtain ⟨hb, hseg⟩ := free_block_settled h ha hxs hys
      refine ⟨xs, n, ys, hb, hseg, by simp only [span_append, span_cons], fun x hx => ⟨?_, hx⟩⟩
      rw [free_block_settled_eq h ha hxs hys]
      have := hx.bounds
      exact reset_frame (by omega)
    · rcases ys with _ | ⟨⟨k, _ | _⟩, ys⟩
      · simp [UsedAfter] at hys
      · obtain ⟨hr, heq⟩ := free_block_right_eq h ha hxs
        obtain ⟨hb, hseg⟩ := free_block_right h ha (by simpa using htop) hxs
        have hd : Hdr (reset_block_status m (a + span xs) use_flag) (a + span (xs ++ [⟨n, false⟩])) ⟨k, false⟩ _ _ :=
          hdr_at (by simpa using hr)
        have ed : a + span (xs ++ [⟨n, false⟩]) = a + span xs + (20 + n) := by
          simp only [span_append, span_cons, span_nil]
          omega
        rw [ed] at hd
        simp only [span_cons] at htop
        refine ⟨xs, n + (20 + k), ys, hb, hseg, ?_, fun x hx => ?_⟩
        · simp only [span_append, span_cons]
          omega
        rw [kept_right] at hx
        obtain ⟨hlink, hout⟩ := hx.merged (d := a + span xs + (20 + n)) (k := k) (by omega) rfl
        have hsize : block_size (reset_block_status m (a + span xs) use_flag) (a + span xs + (20 + n)) = k := hd.size
        rw [heq]
        exact ⟨(absorb_frame hsize (by omega) (by omega) hlink hout).trans (reset_frame (by omega)), hx⟩
      · simp [UsedAfter] at hys
  · rcases List.eq_nil_or_concat xs with rfl | ⟨zs, ⟨k, _ | _⟩, rfl⟩
    · simp [UsedBefore] at hxs
    · simp only [List.concat_eq_append, List.append_assoc, List.cons_append, List.nil_append] at *
      have e : a + span (zs ++ [⟨k, false⟩]) = a + span zs + (20 + k) := by
        simp only [span_append, span_cons, span_nil]
        omega
      simp only [span_append, span_cons, span_nil] at htop
      obtain ⟨hr, heq⟩ := free_block_left_eq h ha
      obtain ⟨hb, hseg⟩ := free_block_left h ha (by simp only [span_append, span_cons]; omega)
      have hd : Hdr (reset_block_status m (a + span zs + (20 + k)) use_flag) (a + span (zs ++ [⟨k, false⟩]))
          ⟨n, false⟩ _ _ := hdr_at (by simpa using hr)
      rw [e] at hd ⊢
      refine ⟨zs, k + (20 + n), ys, hb, hseg, ?_, fun x hx => ?_⟩
      · simp only [span_append, span_cons]
        omega
      rw [kept_left] at hx
      obtain ⟨hlink, hout⟩ := hx.merged (d := a + span zs + (20 + k)) (k := n) (by omega) rfl
      have hsize : block_size (reset_block_status m (a + span zs + (20 + k)) use_flag) (a + span zs + (20 + k)) = n :=
        hd.size
      rw [heq]
      exact ⟨(absorb_frame hsize (by omega) (by omega) hlink hout).trans (reset_frame (by omega)), hx⟩
    · simp [UsedBefore] at hxs

/-- The merge loop leaves the other used blocks alone, and everything outside
the heap. -/
theorem free_memory_frame {fuel s : Nat} {m' : Mem} (h : Seg m 0 a (xs ++ ⟨n, u⟩ :: ys) 0) (ha : 0 < a)
    (htop : a + span (xs ++ ⟨n, u⟩ :: ys) ≤ 2 ^ 32) (hloop : loop free_memory_body fuel (m, s, a + span xs) = some m')
    (hx : Kept a xs n ys x) : m' x = m x := by
  induction fuel generalizing m s xs n u ys with
  | zero => cases hloop
  | succ fuel ih =>
    by_cases hs : s = block_size m (a + span xs)
    · have hturn : free_memory_body (m, s, a + span xs) = .done m := by rw [free_memory_body, if_pos hs]
      rw [loop_done hturn] at hloop
      rw [Option.some.inj hloop]
    · obtain ⟨xs', n', ys', hb, hseg, hspan, hkeep⟩ := free_block_turn h ha htop
      have hturn : free_memory_body (m, s, a + span xs) =
          .cont ((free_block m (a + span xs)).1, block_size m (a + span xs), a + span xs') := by
        rw [free_memory_body, if_neg hs, hb]
      rw [loop_cont hturn] at hloop
      obtain ⟨hsame, hx'⟩ := hkeep x hx
      rw [ih hseg (by rw [hspan]; exact htop) hloop hx', hsame]

/-- Clearing a status bit that is off writes the byte back. -/
theorem reset_idle {b : Nat} (h : get_block_status m b use_flag = 0) : reset_block_status m b use_flag = m := by
  have hbit : flag m b &&& use_flag = 0 := by
    unfold get_block_status at h
    split at h
    · cases h
    · rename_i h0
      exact Decidable.not_not.1 h0
  have hkeep : flag m b &&& (255 - use_flag) = (m b).toNat :=
    calc flag m b &&& (255 - use_flag)
      _ = flag m b &&& (255 - use_flag) ||| flag m b &&& use_flag := by rw [hbit, Nat.or_zero]
      _ = flag m b &&& (255 - use_flag ||| use_flag) := (Nat.and_or_distrib_left ..).symm
      _ = flag m b := Nat.and_two_pow_sub_one_of_lt_two_pow (n := 8) (flag_lt m b)
  funext x
  by_cases hx : x = b
  · rw [hx, reset_block_status, set_flag, hkeep, Mem.store, Mem.store, Mem.set_same, UInt8.ofNat_toNat]
  · exact reset_frame hx

/-- The merge loop on a free block of a merged heap changes nothing. -/
theorem free_memory_idle {fuel s : Nat} {m' : Mem} (h : Seg m 0 a (xs ++ ⟨n, false⟩ :: ys) 0) (ha : 0 < a)
    (hc : Coalesced (xs ++ ⟨n, false⟩ :: ys)) (hloop : loop free_memory_body fuel (m, s, a + span xs) = some m') :
    m' = m := by
  have hturn : free_block m (a + span xs) = (m, a + span xs) := by
    rw [free_block_settled_eq h ha hc.before hc.after, reset_idle (hdr_at h).status]
  induction fuel generalizing s with
  | zero => cases hloop
  | succ fuel ih =>
    by_cases hs : s = block_size m (a + span xs)
    · have hdone : free_memory_body (m, s, a + span xs) = .done m := by rw [free_memory_body, if_pos hs]
      rw [loop_done hdone] at hloop
      exact (Option.some.inj hloop).symm
    · have hcont : free_memory_body (m, s, a + span xs) = .cont (m, block_size m (a + span xs), a + span xs) := by
        rw [free_memory_body, if_neg hs, hturn]
      rw [loop_cont hcont] at hloop
      exact ih hloop

end Frames

section Calls
variable {space memory_size : Nat} {s : Sys} {ps : List Part} {m : Mem} {x : Nat}

/-- Outside the block a search found, its use changes nothing but the link back
to it. -/
theorem found_frame {a size slack : Nat} {us vs : List Part} {n : Nat} (h : Holds m a (us ++ ⟨n, false⟩ :: vs))
    (hn : size ≤ n) (hslack : slack ≤ 8) (hx : Outside (a + span us) n (next m (a + span us)) x) :
    (use_block m (a + span us) size slack).1 x = m x := by
  have hlow := h.low
  have hhigh := h.high
  simp only [span_append, span_cons] at hhigh
  have hsize : block_size m (a + span us) = n := (hdr_at h.seg).size
  have hnext := next_at h.seg
  dsimp only at hnext
  exact use_block_frame hnext hsize (by omega) (by omega) hn hslack hx

/-- An allocation leaves the blocks in use alone, and everything outside the heap. -/
theorem fit_frame {a size slack r : Nat} (h : Holds m a ps) (hr : Found a size ps r) (hslack : slack ≤ 8)
    (hx : x < a ∨ UsedByte a ps x ∨ a + span ps ≤ x) : (use_block m r size slack).1 x = m x := by
  rcases hr with ⟨rfl, -⟩ | ⟨us, n, vs, rfl, rfl, hn⟩
  · rfl
  · have hkept : Kept a us n vs x := by
      rw [usedByte_append, usedByte_free, span_append, span_cons] at hx
      rcases hx with hx | (hx | hx) | hx
      · exact .inl hx
      · exact .inr (.inl hx)
      · exact .inr (.inr (.inl hx))
      · exact .inr (.inr (.inr (by dsimp only at hx; omega)))
    exact found_frame h hn hslack (hkept.merged rfl (hdr_at h.seg).next).2

/-- A best-fit call that returned, told by the block its search found. -/
theorem best_fit_block (hi : Inv space memory_size s ps) {fuel size r : Nat} (hs : 0 < size)
    (h : best_fit_alloc fuel s.haper s.mem size = some (m, r)) :
    ∃ b, BestIn space size ps b ∧ use_block s.mem b size minimum_size = (m, r) := by
  have hlow := hi.holds.low
  rw [best_fit_alloc, if_neg (Nat.ne_of_gt hs), hi.start_addr] at h
  obtain ⟨b, hloop, huse⟩ := Option.bind_eq_some_iff.1 h
  obtain ⟨b', hl, hb⟩ := best_search size hi.holds.seg hi.holds.nonempty (by omega) (Nat.lt_succ_self ps.length)
  obtain rfl := (FuelMono.loop _ _).det hl hloop
  exact ⟨b', hb, Option.some.inj huse⟩

theorem first_fit_block (hi : Inv space memory_size s ps) {fuel size r : Nat} (hs : 0 < size)
    (h : first_fit_alloc fuel s.haper s.mem size = some (m, r)) :
    ∃ b, FirstIn space size ps b ∧ use_block s.mem b size 0 = (m, r) := by
  have hlow := hi.holds.low
  rw [first_fit_alloc, if_neg (Nat.ne_of_gt hs), hi.start_addr] at h
  obtain ⟨b, hloop, huse⟩ := Option.bind_eq_some_iff.1 h
  obtain ⟨b', hl, hb⟩ := first_search size hi.holds.seg hi.holds.nonempty (by omega) (Nat.lt_succ_self ps.length)
  obtain rfl := (FuelMono.loop _ _).det hl hloop
  exact ⟨b', hb, Option.some.inj huse⟩

/-- A best-fit call leaves the blocks in use alone, and everything outside the heap. -/
theorem best_fit_kept (hi : Inv space memory_size s ps) {fuel size r : Nat}
    (h : best_fit_alloc fuel s.haper s.mem size = some (m, r))
    (hx : x < space ∨ UsedByte space ps x ∨ space + memory_size ≤ x) : m x = s.mem x := by
  rw [← hi.total] at hx
  rcases Nat.eq_zero_or_pos size with rfl | hs
  · rw [← (Prod.mk.inj (Option.some.inj h)).1]
  · obtain ⟨b, hb, huse⟩ := best_fit_block hi hs h
    rw [← (Prod.mk.inj huse).1]
    exact fit_frame hi.holds hb.found (by decide) hx

theorem first_fit_kept (hi : Inv space memory_size s ps) {fuel size r : Nat}
    (h : first_fit_alloc fuel s.haper s.mem size = some (m, r))
    (hx : x < space ∨ UsedByte space ps x ∨ space + memory_size ≤ x) : m x = s.mem x := by
  rw [← hi.total] at hx
  rcases Nat.eq_zero_or_pos size with rfl | hs
  · rw [← (Prod.mk.inj (Option.some.inj h)).1]
  · obtain ⟨b, hb, huse⟩ := first_fit_block hi hs h
    rw [← (Prod.mk.inj huse).1]
    exact fit_frame hi.holds hb.found (by decide) hx

theorem best_fit_frame (hi : Inv space memory_size s ps) {fuel size r : Nat}
    (h : best_fit_alloc fuel s.haper s.mem size = some (m, r)) (hx : UsedByte space ps x) : m x = s.mem x :=
  best_fit_kept hi h (.inr (.inl hx))

/-- What a free writes: nothing, or the merge loop runs on the block at `ptr`. -/
theorem free_cases (hi : Inv space memory_size s ps) {fuel ptr : Nat} {rc : Int} (hlt : ptr < 2 ^ 32)
    (h : free_haper_block fuel s.haper s.mem ptr = some (m, rc)) :
    m = s.mem ∨ ∃ xs n u ys, ps = xs ++ ⟨n, u⟩ :: ys ∧ ptr = space + span xs + 20 ∧
      loop free_memory_body fuel (s.mem, 0, space + span xs) = some m := by
  unfold free_haper_block at h
  split at h
  · exact .inl (Prod.mk.inj (Option.some.inj h)).1.symm
  · rename_i hptr
    obtain ⟨data, hwalk, hfree⟩ := Option.bind_eq_some_iff.1 h
    have hold := hi.holds
    rw [← hi.start_addr] at hold
    obtain ⟨c, hl, hc⟩ := get_block_search hold hptr hlt (ps.length + 1) (Nat.lt_succ_self _)
    obtain rfl := (FuelMono.loop _ _).det hl hwalk
    dsimp only at hfree
    split at hfree
    · exact .inl (Prod.mk.inj (Option.some.inj hfree)).1.symm
    · rename_i hc0
      obtain ⟨m', hmem, hm⟩ := Option.bind_eq_some_iff.1 hfree
      obtain rfl := (Prod.mk.inj (Option.some.inj hm)).1
      rcases hc with ⟨h0, -⟩ | ⟨xs, ⟨n, u⟩, ys, rfl, rfl, rfl⟩
      · exact absurd h0 hc0
      · unfold free_memory at hmem
        rw [if_neg hc0] at hmem
        rw [hi.start_addr] at hmem ⊢
        exact .inr ⟨xs, n, u, ys, rfl, rfl, hmem⟩

/-- Freeing leaves the blocks in use at other addresses alone. -/
theorem free_frame (hi : Inv space memory_size s ps) {fuel ptr : Nat} {rc : Int} (hlt : ptr < 2 ^ 32)
    (h : free_haper_block fuel s.haper s.mem ptr = some (m, rc)) {b n : Nat} (hb : (b, n) ∈ usedAt space ps)
    (hne : b + 20 ≠ ptr) (hlo : b + 20 ≤ x) (hhi : x < b + 20 + n) : m x = s.mem x := by
  have hlow := hi.holds.low
  rcases free_cases hi hlt h with rfl | ⟨xs, k, u, ys, rfl, rfl, hmem⟩
  · rfl
  · apply free_memory_frame hi.holds.seg (by omega) hi.holds.high hmem
    rw [usedAt_append] at hb
    rcases List.mem_append.1 hb with hb | hb
    · exact .inr (.inl ⟨b, n, hb, hlo, hhi⟩)
    · rcases List.mem_append.1 hb with hb | hb
      · split at hb
        · obtain ⟨rfl, -⟩ := Prod.mk.inj (List.mem_singleton.1 hb)
          exact absurd rfl hne
        · cases hb
      · exact .inr (.inr (.inl ⟨b, n, hb, hlo, hhi⟩))

/-- Freeing writes nothing outside the heap. -/
theorem free_outside (hi : Inv space memory_size s ps) {fuel ptr : Nat} {rc : Int} (hlt : ptr < 2 ^ 32)
    (h : free_haper_block fuel s.haper s.mem ptr = some (m, rc)) (hx : x < space ∨ space + memory_size ≤ x) :
    m x = s.mem x := by
  have hlow := hi.holds.low
  rcases free_cases hi hlt h with rfl | ⟨xs, k, u, ys, rfl, rfl, hmem⟩
  · rfl
  · apply free_memory_frame hi.holds.seg (by omega) hi.holds.high hmem
    rw [← hi.total, span_append, span_cons] at hx
    rcases hx with hx | hx
    · exact .inl hx
    · exact .inr (.inr (.inr (by dsimp only at hx; omega)))

/-- Freeing what is not allocated writes nothing. -/
theorem free_dead_mem (hi : Inv space memory_size s ps) {fuel ptr : Nat} {rc : Int} (hlt : ptr < 2 ^ 32)
    (h : free_haper_block fuel s.haper s.mem ptr = some (m, rc)) (hdead : ¬∃ e ∈ s.live, e.ptr = ptr) : m = s.mem := by
  have hlow := hi.holds.low
  rcases free_cases hi hlt h with rfl | ⟨xs, n, u, ys, rfl, rfl, hmem⟩
  · rfl
  · cases u with
    | true => exact absurd ((live_iff hi _).2 ⟨xs, n, ys, rfl, rfl⟩) hdead
    | false => exact free_memory_idle hi.holds.seg (by omega) hi.coalesced hmem

end Calls

end McLinOS.Heap
