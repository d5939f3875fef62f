import McLinOS.Heap.Frames
import McLinOS.Heap.Theorems
/-!
# kmalloc and kfree

The kernel's allocator in front of the heaps of `haper.c`. With the configured
sizes only the main heap has any memory, so the loops over `hapers` come down
to one best-fit call and one free there.
-/
open CLib

namespace McLinOS.Heap

/-! ## haper.c -/

/-- An expand heap: its size is 0, so `haper2_init` fails on the zeroed struct. -/
def expand_memory_haper : haper2 := { mode := 0, space := 0, memory_size := 0, start_addr := 0 }

/-- `hapers[]`: six expand heaps, then the main one. -/
def hapers (memory_haper : haper2) : List haper2 := List.replicate 6 expand_memory_haper ++ [memory_haper]

/-- `(size + 7) & ~7`, what `smalloc` asks the heaps for. -/
def use_memory_size (size : Nat) : Nat := u32 (size + 7) / 8 * 8

/-- The loop of `smalloc`. -/
def smalloc_from (fuel use_memory_size : Nat) : List haper2 → Mem → Option (Mem × Nat)
  | [], m => some (m, 0)
  | haper :: rest, m => (best_fit_alloc fuel haper m use_memory_size).bind fun r =>
      if r.2 ≠ 0 then some r else smalloc_from fuel use_memory_size rest r.1

def smalloc (fuel : Nat) (memory_haper : haper2) (m : Mem) (size : Nat) : Option (Mem × Nat) :=
  if size = 0 then some (m, 0) else smalloc_from fuel (use_memory_size size) (hapers memory_haper) m

/-- The loop of `sfree`. No `free_haper_block` returns a positive value, so it
tries every heap. -/
def sfree_from (fuel address : Nat) : List haper2 → Mem → Option Mem
  | [], m => some m
  | haper :: rest, m => (free_haper_block fuel haper m address).bind fun r =>
      if r.2 > 0 then some r.1 else sfree_from fuel address rest r.1

def sfree (fuel : Nat) (memory_haper : haper2) (m : Mem) (address : Nat) : Option Mem :=
  sfree_from fuel address (hapers memory_haper) m

/-! ## Down to the main heap -/

theorem best_fit_expand (fuel : Nat) (m : Mem) (size : Nat) :
    best_fit_alloc (fuel + 1) expand_memory_haper m size = some (m, 0) := by
  unfold best_fit_alloc
  split <;> rfl

theorem free_expand (fuel : Nat) (m : Mem) (ptr : Nat) :
    free_haper_block (fuel + 1) expand_memory_haper m ptr = some (m, -1) := by
  unfold free_haper_block
  split <;> rfl

theorem best_fit_zero {size : Nat} (hs : size ≠ 0) (haper : haper2) (m : Mem) : best_fit_alloc 0 haper m size = none := by
  rw [best_fit_alloc, if_neg hs]
  rfl

/-- `smalloc` is a best-fit call on the main heap. -/
theorem smalloc_eq {size : Nat} (hs : use_memory_size size ≠ 0) (fuel : Nat) (haper : haper2) (m : Mem) :
    smalloc fuel haper m size = best_fit_alloc fuel haper m (use_memory_size size) := by
  have hsize : size ≠ 0 := by
    rintro rfl
    exact hs rfl
  rw [smalloc, if_neg hsize]
  rcases fuel with _ | fuel
  · simp only [hapers, List.replicate, List.cons_append, smalloc_from, best_fit_zero hs]
    rfl
  · simp only [hapers, List.replicate, List.cons_append, List.nil_append, smalloc_from, best_fit_expand,
      Option.bind_some, ne_eq, not_true_eq_false, if_false]
    cases best_fit_alloc (fuel + 1) haper m (use_memory_size size) with
    | none => rfl
    | some r =>
      rcases r with ⟨m', r⟩
      by_cases hr : r = 0 <;> simp [hr]

/-- A size that wraps to 0 gets nothing. -/
theorem smalloc_wrap {size : Nat} (hs : use_memory_size size = 0) (fuel : Nat) (haper : haper2) (m : Mem) :
    smalloc fuel haper m size = some (m, 0) := by
  unfold smalloc
  split
  · rfl
  · rw [hs]
    rfl

theorem sfree_zero (fuel : Nat) (haper : haper2) (m : Mem) : sfree fuel haper m 0 = some m := rfl

theorem free_zero_fuel {ptr : Nat} (hp : ptr ≠ 0) (haper : haper2) (m : Mem) : free_haper_block 0 haper m ptr = none := by
  rw [free_haper_block, if_neg hp]
  rfl

/-- `free_haper_block` returns 0 or -1. -/
theorem free_not_pos {fuel ptr : Nat} {haper : haper2} {m m' : Mem} {rc : Int}
    (h : free_haper_block fuel haper m ptr = some (m', rc)) : ¬0 < rc := by
  unfold free_haper_block at h
  split at h
  · rw [← (Prod.mk.inj (Option.some.inj h)).2]
    decide
  · obtain ⟨data, -, h⟩ := Option.bind_eq_some_iff.1 h
    split at h
    · rw [← (Prod.mk.inj (Option.some.inj h)).2]
      decide
    · obtain ⟨m'', -, h⟩ := Option.bind_eq_some_iff.1 h
      rw [← (Prod.mk.inj (Option.some.inj h)).2]
      decide

/-- `sfree` is a free on the main heap. -/
theorem sfree_eq {address : Nat} (ha : address ≠ 0) (fuel : Nat) (haper : haper2) (m : Mem) :
    sfree fuel haper m address = (free_haper_block fuel haper m address).map (·.1) := by
  unfold sfree
  rcases fuel with _ | fuel
  · simp only [hapers, List.replicate, List.cons_append, sfree_from, free_zero_fuel ha]
    rfl
  · simp only [hapers, List.replicate, List.cons_append, List.nil_append, sfree_from, free_expand, Option.bind_some,
      gt_iff_lt, Int.reduceNeg, Int.reduceLT, if_false]
    cases h : free_haper_block (fuel + 1) haper m address with
    | none => rfl
    | some r =>
      rw [Option.bind_some, if_neg (free_not_pos h)]
      rfl

/-! ## The block chosen -/

/-- Best fit for `size` bytes takes the free block of `n` bytes between `xs` and
`ys`: the last of the smallest ones that fit. -/
structure BestFit (size : Nat) (ps xs : List Part) (n : Nat) (ys : List Part) : Prop where
  split : ps = xs ++ ⟨n, false⟩ :: ys
  fits : size ≤ n
  before : ∀ p ∈ xs, Fits size p → n ≤ p.size
  after : ∀ p ∈ ys, Fits size p → n < p.size

/-- What a block of `n` bytes keeps when `size` of them are asked for. -/
def capacity (n size : Nat) : Nat := if size + 20 + minimum_size ≤ n then size else n

theorem capacity_split {n size : Nat} (h : size + 28 ≤ n) : capacity n size = size := if_pos h

theorem capacity_whole {n size : Nat} (h : n < size + 28) : capacity n size = n := if_neg (Nat.not_le.2 h)

section BestFit
variable {a size n k : Nat} {ps xs ys us vs : List Part}

theorem BestFit.unique (h : BestFit size ps xs n ys) (h' : BestFit size ps us k vs) : xs = us ∧ n = k ∧ ys = vs := by
  have hsplit := h.split.symm.trans h'.split
  rcases List.append_eq_append_iff.1 hsplit with ⟨zs, rfl, hz⟩ | ⟨zs, rfl, hz⟩
  · rcases zs with _ | ⟨z, zs⟩
    · obtain ⟨hp, rfl⟩ := List.cons.inj hz
      exact ⟨by simp, (Part.mk.inj hp).1, rfl⟩
    · obtain ⟨rfl, rfl⟩ := List.cons.inj hz
      have h1 := h.after ⟨k, false⟩ (by simp) ⟨rfl, h'.fits⟩
      have h2 := h'.before ⟨n, false⟩ (by simp) ⟨rfl, h.fits⟩
      simp only at h1 h2
      omega
  · rcases zs with _ | ⟨z, zs⟩
    · obtain ⟨hp, rfl⟩ := List.cons.inj hz
      exact ⟨by simp, (Part.mk.inj hp).1.symm, rfl⟩
    · obtain ⟨rfl, rfl⟩ := List.cons.inj hz
      have h1 := h'.after ⟨n, false⟩ (by simp) ⟨rfl, h.fits⟩
      have h2 := h.before ⟨k, false⟩ (by simp) ⟨rfl, h'.fits⟩
      simp only at h1 h2
      omega

theorem BestIn.best_fit (h : BestIn a size ps (a + span xs)) (ha : 0 < a) (hsplit : ps = xs ++ ⟨n, false⟩ :: ys) :
    BestFit size ps xs n ys := by
  rcases h with ⟨h0, -⟩ | ⟨us, k, vs, hs, hspan, hfit, hbefore, hafter⟩
  · omega
  · obtain ⟨rfl, hp, rfl⟩ := split_unique (hsplit.symm.trans hs) (by omega)
    obtain ⟨rfl, -⟩ := Part.mk.inj hp
    exact ⟨hsplit, hfit, hbefore, hafter⟩

theorem mem_usedAt_allotted (e : Nat × Nat) : e ∈ usedAt a (xs ++ (allotted n size minimum_size ++ ys)) ↔
    e = (a + span xs, capacity n size) ∨ e ∈ usedAt a (xs ++ ⟨n, false⟩ :: ys) := by
  have hk : usedAt (a + span xs) (allotted n size minimum_size) = [(a + span xs, capacity n size)] := by
    unfold allotted capacity
    split <;> simp [usedAt]
  simp only [usedAt_append, hk, span_allotted, usedAt, List.mem_append, List.mem_singleton]
  simp only [Bool.false_eq_true, if_false, List.not_mem_nil, false_or]
  exact or_left_comm

/-- No used block starts where a free one does. -/
theorem not_used (k : Nat) : (a + span xs, k) ∉ usedAt a (xs ++ ⟨n, false⟩ :: ys) := by
  intro h
  obtain ⟨us, vs, hsplit, hspan⟩ := mem_usedAt.1 h
  obtain ⟨-, hp, -⟩ := split_unique hsplit (by dsimp only at hspan; omega)
  simp at hp

theorem mem_usedAt_freed (e : Nat × Nat) : e ∈ usedAt a (Heap.freed xs n ys) ↔
    e ∈ usedAt a (xs ++ ⟨n, true⟩ :: ys) ∧ e.1 ≠ a + span xs := by
  have hl : ∀ e ∈ usedAt a xs, e.1 ≠ a + span xs := by
    intro e he
    obtain ⟨us, vs, rfl, hu⟩ := mem_usedAt.1 he
    simp only [span_append, span_cons]
    omega
  have hr : ∀ e ∈ usedAt (a + span xs + (20 + n)) ys, e.1 ≠ a + span xs := by
    intro e he
    obtain ⟨us, vs, rfl, hu⟩ := mem_usedAt.1 he
    omega
  rw [usedAt_freed, usedAt_append]
  simp only [usedAt, if_true, List.mem_append, List.mem_singleton]
  constructor
  · rintro (he | he)
    · exact ⟨.inl he, hl e he⟩
    · exact ⟨.inr (.inr he), hr e he⟩
  · rintro ⟨he | rfl | he, hne⟩
    · exact .inl he
    · exact absurd rfl hne
    · exact .inr he

theorem block_size_at {m : Mem} {b : Nat} (h : Holds m a ps) (hb : (b, n) ∈ usedAt a ps) : block_size m b = n := by
  obtain ⟨us, vs, rfl, rfl⟩ := mem_usedAt.1 hb
  exact (hdr_at h.seg).size

end BestFit

/-! ## The calls -/

section Calls
variable {space memory_size : Nat} {s : Sys} {ps : List Part} {m : Mem} {fuel : Nat}

theorem smalloc_mono (haper : haper2) (m : Mem) (size : Nat) : FuelMono fun fuel => smalloc fuel haper m size := by
  by_cases hs : use_memory_size size = 0
  · simp only [smalloc_wrap hs]
    exact .const _
  · simp only [smalloc_eq hs]
    exact best_fit_alloc_mono _ _ _

theorem sfree_mono (haper : haper2) (m : Mem) (address : Nat) : FuelMono fun fuel => sfree fuel haper m address := by
  rcases Nat.eq_zero_or_pos address with rfl | ha
  · simp only [sfree_zero]
    exact .const _
  · simp only [sfree_eq (Nat.ne_of_gt ha), Option.map_eq_bind]
    exact (free_haper_block_mono _ _ _).bind fun _ => .const _

theorem smalloc_returns (hi : Inv space memory_size s ps) (hf : memory_size + 4 ≤ fuel) (size : Nat) :
    ∃ m r, smalloc fuel s.haper s.mem size = some (m, r) := by
  by_cases hs : use_memory_size size = 0
  · exact ⟨s.mem, 0, smalloc_wrap hs _ _ _⟩
  · rw [smalloc_eq hs]
    exact best_fit_returns hi hf _

theorem sfree_returns (hi : Inv space memory_size s ps) (hf : memory_size + 4 ≤ fuel) {address : Nat}
    (hlt : address < 2 ^ 32) : ∃ m, sfree fuel s.haper s.mem address = some m := by
  rcases Nat.eq_zero_or_pos address with rfl | ha
  · exact ⟨s.mem, rfl⟩
  · obtain ⟨m, rc, h⟩ := free_returns hi hf hlt
    exact ⟨m, by rw [sfree_eq (Nat.ne_of_gt ha), h]; rfl⟩

/-- A `smalloc`, whatever its fuel: nothing fits, or best fit takes a block. -/
theorem smalloc_spec (hi : Inv space memory_size s ps) {size r : Nat}
    (h : smalloc fuel s.haper s.mem size = some (m, r)) :
    (r = 0 ∧ m = s.mem ∧ (use_memory_size size = 0 ∨ ∀ p ∈ ps, ¬Fits (use_memory_size size) p)) ∨
      ∃ xs n ys, BestFit (use_memory_size size) ps xs n ys ∧ 0 < use_memory_size size ∧ r = space + span xs + 20 ∧
        Inv space memory_size (s.allocated m r (use_memory_size size))
          (xs ++ (allotted n (use_memory_size size) minimum_size ++ ys)) := by
  by_cases hs : use_memory_size size = 0
  · rw [smalloc_wrap hs] at h
    obtain ⟨rfl, rfl⟩ := Prod.mk.inj (Option.some.inj h)
    exact .inl ⟨rfl, rfl, .inl hs⟩
  have hpos := Nat.pos_of_ne_zero hs
  rw [smalloc_eq hs] at h
  have hlow := hi.holds.low
  obtain ⟨m', r', hm, hr⟩ := best_fit_alloc_spec (hi.start_addr ▸ hi.holds) hpos (Nat.lt_succ_self ps.length)
  obtain ⟨rfl, rfl⟩ := Prod.mk.inj ((best_fit_alloc_mono _ _ _).det hm h)
  rw [hi.start_addr] at hr
  rcases hr with ⟨hr, hm, hnone⟩ | ⟨xs, n, ys, hbest, hall⟩
  · exact .inl ⟨hr, hm, .inr hnone⟩
  · exact .inr ⟨xs, n, ys, hbest.best_fit (by omega) hall.split, hpos, hall.result, inv_allocated hi hpos hall⟩

theorem smalloc_frame (hi : Inv space memory_size s ps) {size r x : Nat}
    (h : smalloc fuel s.haper s.mem size = some (m, r)) (hx : UsedByte space ps x) : m x = s.mem x := by
  by_cases hs : use_memory_size size = 0
  · rw [smalloc_wrap hs] at h
    rw [(Prod.mk.inj (Option.some.inj h)).1]
  · rw [smalloc_eq hs] at h
    exact best_fit_frame hi h hx

/-- Freeing a used block drops it and leaves the others as they are. -/
theorem sfree_spec (hi : Inv space memory_size s ps) {b n : Nat} (hb : (b, n) ∈ usedAt space ps)
    (h : sfree fuel s.haper s.mem (b + 20) = some m) :
    ∃ ps', Inv space memory_size (s.freed m (b + 20)) ps' ∧
      (∀ e, e ∈ usedAt space ps' ↔ e ∈ usedAt space ps ∧ e.1 ≠ b) ∧
      ∀ c k, (c, k) ∈ usedAt space ps → c ≠ b → Agree s.mem m (c + 20) (c + 20 + k) := by
  obtain ⟨us, vs, rfl, rfl⟩ := mem_usedAt.1 hb
  have hhigh := hi.holds.high
  have hpos := hi.pos ⟨n, true⟩ (by simp) rfl
  simp only [span_append, span_cons] at hhigh hpos
  have hlt : space + span us + 20 < 2 ^ 32 := by omega
  rw [sfree_eq (by omega)] at h
  obtain ⟨⟨m', rc⟩, hfree, rfl⟩ := Option.map_eq_some_iff.1 h
  refine ⟨Heap.freed us n vs, ?_, mem_usedAt_freed, fun c k hc hne x hlo hhi =>
    free_frame hi hlt hfree hc (by omega) hlo hhi⟩
  rcases inv_free hi hlt hfree with ⟨hno, -⟩ | ⟨xs, k, ys, hsplit, hptr, hi'⟩
  · exact absurd ((live_iff hi _).2 ⟨us, n, vs, rfl, rfl⟩) hno
  · obtain ⟨rfl, hp, rfl⟩ := split_unique hsplit (by omega)
    obtain ⟨rfl, -⟩ := Part.mk.inj hp
    exact hi'

end Calls

end McLinOS.Heap
