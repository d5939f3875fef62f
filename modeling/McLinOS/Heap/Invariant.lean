import McLinOS.CLib.Runs
import McLinOS.Heap.Calls
/-!
# Runs of a heap

The states a heap can be in after `haper2_init` and any calls, with the
allocations that are out. Their owners may write to them between the calls.
-/
open CLib

namespace McLinOS.Heap

/-- A live allocation: the pointer an allocator returned and the size asked for. -/
structure Alloc where
  ptr : Nat
  size : Nat
  deriving DecidableEq, Repr

structure Sys where
  haper : haper2
  mem : Mem
  live : List Alloc

/-- After an allocator returned `r`: `NULL` adds no allocation. -/
def Sys.allocated (s : Sys) (m : Mem) (r size : Nat) : Sys :=
  { s with mem := m, live := if r = 0 then s.live else ⟨r, size⟩ :: s.live }

def Sys.freed (s : Sys) (m : Mem) (ptr : Nat) : Sys :=
  { s with mem := m, live := s.live.filter fun e => e.ptr ≠ ptr }

inductive Step : Sys → Sys → Prop
  | best_fit {s : Sys} (fuel size : Nat) {m : Mem} {r : Nat} :
      best_fit_alloc fuel s.haper s.mem size = some (m, r) → Step s (s.allocated m r size)
  | first_fit {s : Sys} (fuel size : Nat) {m : Mem} {r : Nat} :
      first_fit_alloc fuel s.haper s.mem size = some (m, r) → Step s (s.allocated m r size)
  | free {s : Sys} (fuel ptr : Nat) {m : Mem} {rc : Int} :
      ptr < 2 ^ 32 → free_haper_block fuel s.haper s.mem ptr = some (m, rc) → Step s (s.freed m ptr)
  | write {s : Sys} (e : Alloc) (x : Nat) (b : UInt8) :
      e ∈ s.live → e.ptr ≤ x → x < e.ptr + e.size → Step s { s with mem := s.mem.set x b }

/-- A successful `haper2_init` on a space inside the 32-bit address space. -/
def Init (space memory_size : Nat) (s : Sys) : Prop :=
  32 ≤ space ∧ space + memory_size ≤ 2 ^ 32 ∧ s.live = [] ∧
    ∃ m mode, haper2_init m space memory_size mode = (0, s.haper, s.mem)

/-! ## Used blocks -/

/-- Address and size of the used blocks. -/
def usedAt : Nat → List Part → List (Nat × Nat)
  | _, [] => []
  | a, p :: ps => (if p.used then [(a, p.size)] else []) ++ usedAt (a + (20 + p.size)) ps

theorem usedAt_append (a : Nat) (ps qs : List Part) : usedAt a (ps ++ qs) = usedAt a ps ++ usedAt (a + span ps) qs := by
  induction ps generalizing a with
  | nil => rfl
  | cons p ps ih =>
    have e : a + (20 + p.size) + span ps = a + (20 + p.size + span ps) := by omega
    simp only [List.cons_append, usedAt, ih, span_cons, List.append_assoc, e]

theorem mem_usedAt {a : Nat} {ps : List Part} {e : Nat × Nat} :
    e ∈ usedAt a ps ↔ ∃ xs ys, ps = xs ++ ⟨e.2, true⟩ :: ys ∧ e.1 = a + span xs := by
  constructor
  · intro h
    induction ps generalizing a with
    | nil => simp [usedAt] at h
    | cons p ps ih =>
      rcases List.mem_append.1 h with h | h
      · split at h
        · rename_i hu
          obtain rfl := List.mem_singleton.1 h
          exact ⟨[], ps, by simp [← hu], rfl⟩
        · simp at h
      · obtain ⟨xs, ys, rfl, he⟩ := ih h
        exact ⟨p :: xs, ys, rfl, by simp only [span_cons]; omega⟩
  · rintro ⟨xs, ys, rfl, he⟩
    rw [usedAt_append]
    exact List.mem_append_right _ (by simp [usedAt, ← he])

/-- The used blocks come in address order, so no two share an address. -/
theorem usedAt_nodup (a : Nat) (ps : List Part) : ((usedAt a ps).map fun e => e.1 + 20).Nodup := by
  induction ps generalizing a with
  | nil => simp [usedAt]
  | cons p ps ih =>
    rw [usedAt, List.map_append]
    refine List.nodup_append.2 ⟨by split <;> simp, ih _, ?_⟩
    intro x hx y hy
    split at hx
    · obtain rfl : x = a + 20 := by simpa using hx
      obtain ⟨e, he, rfl⟩ := List.mem_map.1 hy
      obtain ⟨xs, ys, -, he⟩ := mem_usedAt.1 he
      omega
    · simp at hx

theorem usedAt_mergeAfter (a n : Nat) (ys : List Part) : usedAt a (mergeAfter n ys) = usedAt (a + (20 + n)) ys := by
  rcases ys with _ | ⟨⟨k, _ | _⟩, ys⟩
  · simp [mergeAfter, usedAt]
  · simp [mergeAfter, usedAt, Nat.add_assoc]
  · simp [mergeAfter, usedAt]

theorem usedAt_freed (a : Nat) (xs : List Part) (n : Nat) (ys : List Part) :
    usedAt a (freed xs n ys) = usedAt a xs ++ usedAt (a + span xs + (20 + n)) ys := by
  unfold Heap.freed
  split
  · rename_i k hk
    obtain ⟨zs, rfl⟩ := List.getLast?_eq_some_iff.1 hk
    simp [usedAt_append, usedAt_mergeAfter, usedAt, Nat.add_assoc]
  · simp [usedAt_append, usedAt_mergeAfter]

theorem usedAt_allotted (b slack : Nat) {n size : Nat} (h : size ≤ n) :
    ∃ k, usedAt b (allotted n size slack) = [(b, k)] ∧ size ≤ k := by
  unfold allotted
  split
  · exact ⟨size, by simp [usedAt], Nat.le_refl _⟩
  · exact ⟨n, by simp [usedAt], h⟩

theorem coalesced_allotted {xs ys : List Part} {n size slack : Nat} (h : Coalesced (xs ++ ⟨n, false⟩ :: ys)) :
    Coalesced (xs ++ (allotted n size slack ++ ys)) := by
  obtain ⟨hx, hy, -⟩ := coalesced_iff.1 h
  unfold allotted
  split
  · have hr : Coalesced ([] ++ ⟨n - (20 + size), false⟩ :: ys) :=
      coalesced_iff.2 ⟨.nil, hy, .inr ⟨by simp [UsedBefore], h.after⟩⟩
    exact coalesced_iff.2 ⟨hx, hr, .inl rfl⟩
  · exact coalesced_iff.2 ⟨hx, hy, .inl rfl⟩

/-! ## The invariant -/

/-- The heap holds the partition `ps` of its whole space, fully merged, and its
used blocks are the live allocations. -/
structure Inv (space memory_size : Nat) (s : Sys) (ps : List Part) : Prop where
  start_addr : s.haper.start_addr = space
  holds : Holds s.mem space ps
  total : span ps = memory_size
  coalesced : Coalesced ps
  pos : ∀ p ∈ ps, p.used = true → 0 < p.size
  live_perm : (s.live.map (·.ptr)).Perm ((usedAt space ps).map fun e => e.1 + 20)
  live_fits : ∀ e ∈ s.live, 0 < e.size ∧ ∃ b n, (b, n) ∈ usedAt space ps ∧ e.ptr = b + 20 ∧ e.size ≤ n

variable {space memory_size : Nat} {s : Sys} {ps : List Part}

theorem init_inv (h : Init space memory_size s) : Inv space memory_size s [⟨memory_size - 20, false⟩] := by
  obtain ⟨hlow, hhigh, hlive, m, mode, hinit⟩ := h
  unfold haper2_init at hinit
  split at hinit
  · simp at hinit
  rename_i hsz
  simp only [Prod.mk.injEq, true_and] at hinit
  obtain ⟨hh, hm⟩ := hinit
  have hsz : 20 ≤ memory_size := by simpa [sizeof_memory_block] using hsz
  have e1 : u32sub memory_size sizeof_memory_block = memory_size - 20 := u32sub_of_le hsz (by omega)
  refine ⟨by rw [← hh], ⟨⟨?_, trivial⟩, by simp, hlow, by simp; omega⟩, by simp; omega, .singleton _, by simp,
    by simp [hlive, usedAt], by simp [hlive]⟩
  rw [← hm, e1]
  simp only [set_block_size, set_next, reset_block_status, set_flag, flag, set_magic, set_priv_block]
  refine ⟨?_, ?_, ?_, ?_, ?_⟩
  · simp (disch := omega) only [magic, Mem.load_store_ne, Mem.load_store_same]
    rfl
  · apply status_of_reset (f := Mem.load 1 m space)
    simp (disch := omega) only [flag, Mem.load_store_ne, Mem.load_store_same]
  · simp (disch := omega) only [block_size, Mem.load_store_ne, Mem.load_store_same]
    exact Nat.mod_eq_of_lt (by omega)
  · simp (disch := omega) only [next, Mem.load_store_same]
    rfl
  · simp (disch := omega) only [priv_block, Mem.load_store_ne, Mem.load_store_same]
    rfl

/-- What an allocator's call does to the invariant. -/
theorem inv_allocated {m' : Mem} {r size slack : Nat} {xs ys : List Part} {n : Nat} (hi : Inv space memory_size s ps)
    (hs : 0 < size) (h : Allocated s.mem space ps size slack m' r xs n ys) :
    Inv space memory_size (s.allocated m' r size) (xs ++ (allotted n size slack ++ ys)) := by
  obtain ⟨rfl, hn, rfl, hold⟩ := h
  obtain ⟨k, hk, hle⟩ := usedAt_allotted (space + span xs) slack hn
  have hold' : usedAt space (xs ++ (allotted n size slack ++ ys)) =
      usedAt space xs ++ (space + span xs, k) :: usedAt (space + span xs + (20 + n)) ys := by
    rw [usedAt_append, usedAt_append, hk, span_allotted]
    rfl
  have hnew : usedAt space (xs ++ ⟨n, false⟩ :: ys) = usedAt space xs ++ usedAt (space + span xs + (20 + n)) ys := by
    rw [usedAt_append]
    rfl
  have hlive : (s.allocated m' (space + span xs + 20) size).live = ⟨space + span xs + 20, size⟩ :: s.live := by
    simp [Sys.allocated]
  have hperm := hi.live_perm
  have hfits := hi.live_fits
  rw [hnew] at hperm hfits
  refine ⟨hi.start_addr, hold, ?_, coalesced_allotted hi.coalesced, ?_, ?_, ?_⟩
  · rw [← hi.total]
    simp only [span_append, span_cons, span_allotted]
  · intro p hp hu
    rcases List.mem_append.1 hp with hp | hp
    · exact hi.pos p (by simp [hp]) hu
    rcases List.mem_append.1 hp with hp | hp
    · unfold allotted at hp
      split at hp
      · simp only [List.mem_cons, List.not_mem_nil, or_false] at hp
        rcases hp with rfl | rfl
        · exact hs
        · simp at hu
      · obtain rfl := List.mem_singleton.1 hp
        exact Nat.lt_of_lt_of_le hs hn
    · exact hi.pos p (by simp [hp]) hu
  · rw [hlive, hold', List.map_append, List.map_cons, List.map_cons]
    rw [List.map_append] at hperm
    exact (hperm.cons _).trans List.perm_middle.symm
  · rw [hlive, hold']
    intro e he
    rcases List.mem_cons.1 he with rfl | he
    · exact ⟨hs, _, _, by simp, rfl, hle⟩
    · obtain ⟨hpos, b, j, hb, hrest⟩ := hfits e he
      refine ⟨hpos, b, j, ?_, hrest⟩
      rcases List.mem_append.1 hb with hb | hb
      · exact List.mem_append_left _ hb
      · exact List.mem_append_right _ (List.mem_cons_of_mem _ hb)

/-- No allocation, and the memory as before. -/
theorem inv_null {size : Nat} (hi : Inv space memory_size s ps) : Inv space memory_size (s.allocated s.mem 0 size) ps :=
  ⟨hi.start_addr, hi.holds, hi.total, hi.coalesced, hi.pos, hi.live_perm, hi.live_fits⟩

theorem inv_freed {m' : Mem} {xs ys : List Part} {n ptr : Nat} (hi : Inv space memory_size s (xs ++ ⟨n, true⟩ :: ys))
    (hptr : ptr = space + span xs + 20) (hold : Holds m' space (Heap.freed xs n ys)) :
    Inv space memory_size (s.freed m' ptr) (Heap.freed xs n ys) := by
  have hu : usedAt space (xs ++ ⟨n, true⟩ :: ys) =
      usedAt space xs ++ (space + span xs, n) :: usedAt (space + span xs + (20 + n)) ys := by
    rw [usedAt_append]
    rfl
  have hperm := hi.live_perm
  have hfits := hi.live_fits
  have hnd := usedAt_nodup space (xs ++ ⟨n, true⟩ :: ys)
  rw [hu] at hperm hfits hnd
  -- The freed block is the only one at `ptr`, so the filter drops exactly it.
  have hkeep : ∀ e ∈ usedAt space xs ++ usedAt (space + span xs + (20 + n)) ys, e.1 + 20 ≠ ptr := by
    rw [List.map_append, List.map_cons] at hnd
    obtain ⟨hne, -⟩ := List.nodup_cons.1 (List.perm_middle.nodup_iff.1 hnd)
    intro e he hp
    apply hne
    rw [← List.map_append, ← hptr, ← hp]
    exact List.mem_map_of_mem he
  refine ⟨hi.start_addr, hold, ?_, coalesced_freed hi.coalesced, ?_, ?_, ?_⟩
  · rw [← hi.total, span_freed]
    simp only [span_append, span_cons]
    omega
  · intro p hp hup
    obtain ⟨us, vs, hsplit⟩ := List.append_of_mem hp
    have hin : (space + span us, p.size) ∈ usedAt space (Heap.freed xs n ys) :=
      mem_usedAt.2 ⟨us, vs, by rw [hsplit, ← hup], rfl⟩
    rw [usedAt_freed] at hin
    have hin' : (space + span us, p.size) ∈ usedAt space (xs ++ ⟨n, true⟩ :: ys) := by
      rw [hu]
      exact List.mem_append.2 ((List.mem_append.1 hin).imp_right (List.mem_cons_of_mem _))
    obtain ⟨us', vs', hsplit', -⟩ := mem_usedAt.1 hin'
    exact hi.pos ⟨p.size, true⟩ (by rw [hsplit']; simp) rfl
  · have hf := hperm.filter fun q => decide (q ≠ ptr)
    rw [List.map_append, List.map_cons, List.filter_append, List.filter_cons, if_neg (by simp [hptr]),
      ← List.filter_append, ← List.map_append] at hf
    rw [usedAt_freed]
    have hall : ((usedAt space xs ++ usedAt (space + span xs + (20 + n)) ys).map fun e => e.1 + 20).filter
        (fun q => decide (q ≠ ptr)) = (usedAt space xs ++ usedAt (space + span xs + (20 + n)) ys).map fun e => e.1 + 20 := by
      refine List.filter_eq_self.2 fun q hq => ?_
      obtain ⟨e, he, rfl⟩ := List.mem_map.1 hq
      simpa using hkeep e he
    rw [hall, List.filter_map] at hf
    exact hf
  · intro e he
    obtain ⟨he, hne⟩ := List.mem_filter.1 he
    obtain ⟨hpos, b, k, hb, hp, hk⟩ := hfits e he
    refine ⟨hpos, b, k, ?_, hp, hk⟩
    rw [usedAt_freed]
    rcases List.mem_append.1 hb with hb | hb
    · exact List.mem_append_left _ hb
    · rcases List.mem_cons.1 hb with hb | hb
      · simp only [Prod.mk.injEq] at hb
        simp only [ne_eq, decide_not, Bool.not_eq_eq_eq_not, Bool.not_true, decide_eq_false_iff_not] at hne
        exact absurd (by omega) hne
      · exact List.mem_append_right _ hb

/-- Memory may change in the payload of a used block. -/
theorem inv_payload {m : Mem} {b n : Nat} (hi : Inv space memory_size s ps) (hb : (b, n) ∈ usedAt space ps)
    (hm : ∀ x, x < b + 20 ∨ b + 20 + n ≤ x → m x = s.mem x) : Inv space memory_size { s with mem := m } ps := by
  obtain ⟨xs, ys, hsplit, hcs⟩ := mem_usedAt.1 hb
  dsimp only at hsplit hcs
  have hseg : Seg m 0 space ps 0 := by
    have hs := hi.holds.seg
    rw [hsplit] at hs ⊢
    refine hs.congr_headers fun h hh y _ _ => hm y ?_
    rw [addrs_append] at hh
    rcases List.mem_append.1 hh with hh | hh
    · have := addrs_bounds hh
      omega
    · rcases List.mem_cons.1 hh with rfl | hh
      · omega
      · have := addrs_bounds hh
        dsimp only at this
        omega
  exact ⟨hi.start_addr, ⟨hseg, hi.holds.nonempty, hi.holds.low, hi.holds.high⟩, hi.total, hi.coalesced, hi.pos,
    hi.live_perm, hi.live_fits⟩

/-- The invariant looks at the heap's own space only. -/
theorem inv_agree {m : Mem} (hi : Inv space memory_size s ps) (hm : Agree s.mem m space (space + memory_size)) :
    Inv space memory_size { s with mem := m } ps := by
  have hseg : Seg m 0 space ps 0 := hi.holds.seg.congr (by rwa [hi.total])
  exact ⟨hi.start_addr, ⟨hseg, hi.holds.nonempty, hi.holds.low, hi.holds.high⟩, hi.total, hi.coalesced, hi.pos,
    hi.live_perm, hi.live_fits⟩

theorem inv_write {e : Alloc} {x : Nat} {b : UInt8} (hi : Inv space memory_size s ps) (he : e ∈ s.live)
    (hlo : e.ptr ≤ x) (hhi : x < e.ptr + e.size) : Inv space memory_size { s with mem := s.mem.set x b } ps := by
  obtain ⟨-, c, n, hc, hp, hn⟩ := hi.live_fits e he
  exact inv_payload hi hc fun y hy => Mem.set_ne (by omega)

/-! ## One step -/

theorem best_fit_alloc_mono (hp : haper2) (m : Mem) (size : Nat) :
    FuelMono fun fuel => best_fit_alloc fuel hp m size := by
  unfold best_fit_alloc
  split
  · exact .const _
  · exact (FuelMono.loop _ _).bind fun _ => .const _

theorem first_fit_alloc_mono (hp : haper2) (m : Mem) (size : Nat) :
    FuelMono fun fuel => first_fit_alloc fuel hp m size := by
  unfold first_fit_alloc
  split
  · exact .const _
  · exact (FuelMono.loop _ _).bind fun _ => .const _

theorem free_memory_mono (m : Mem) (b : Nat) : FuelMono fun fuel => free_memory fuel m b := by
  unfold free_memory
  split
  · exact .const _
  · exact .loop _ _

theorem free_haper_block_mono (hp : haper2) (m : Mem) (ptr : Nat) :
    FuelMono fun fuel => free_haper_block fuel hp m ptr := by
  unfold free_haper_block
  split
  · exact .const _
  · have hwalk : FuelMono fun fuel => memory_block_laterator fuel hp m get_block (ptr, 0) := .loop _ _
    have hfound : ∀ c : Nat × Nat, FuelMono fun fuel =>
        if c.2 = 0 then some (m, -1) else (free_memory fuel m c.2).bind fun m => some (m, (0 : Int)) := by
      intro c
      split
      · exact .const _
      · exact (free_memory_mono m c.2).bind fun _ => .const _
    exact hwalk.bind hfound

section OneStep

/-- What a search finds with fuel for the whole chain, a call that returned found,
whatever its fuel. `P` and `Q` tell why this block or none. -/
theorem inv_fit {alloc : Nat → Option (Mem × Nat)} {min size fuel : Nat} {P : Prop} {Q : List Part → Prop} {m : Mem} {r : Nat}
    (hi : Inv space memory_size s ps) (hmono : FuelMono alloc) (hzero : size = 0 → alloc fuel = some (s.mem, 0))
    (hspec : 0 < size → ∃ m' r', alloc (ps.length + 1) = some (m', r') ∧
      ((r' = 0 ∧ m' = s.mem ∧ P) ∨
        ∃ xs n ys, Q xs ∧ Allocated s.mem s.haper.start_addr ps size min m' r' xs n ys))
    (h : alloc fuel = some (m, r)) :
    (r = 0 ∧ m = s.mem) ∨ ∃ xs n ys, Allocated s.mem space ps size min m r xs n ys ∧ 0 < size := by
  rcases Nat.eq_zero_or_pos size with hs | hs
  · obtain ⟨rfl, rfl⟩ := Prod.mk.inj (Option.some.inj ((hzero hs).symm.trans h))
    exact .inl ⟨rfl, rfl⟩
  obtain ⟨m', r', hm, hr⟩ := hspec hs
  obtain ⟨rfl, rfl⟩ := Prod.mk.inj (hmono.det hm h)
  rw [hi.start_addr] at hr
  rcases hr with ⟨hr, hm, -⟩ | ⟨xs, n, ys, -, hall⟩
  · exact .inl ⟨hr, hm⟩
  · exact .inr ⟨xs, n, ys, hall, hs⟩

/-- A best-fit call: nothing, or a free block becomes used. -/
theorem inv_best_fit {fuel size : Nat} {m : Mem} {r : Nat} (hi : Inv space memory_size s ps)
    (h : best_fit_alloc fuel s.haper s.mem size = some (m, r)) :
    (r = 0 ∧ m = s.mem) ∨ ∃ xs n ys, Allocated s.mem space ps size minimum_size m r xs n ys ∧ 0 < size := by
  have hold := hi.start_addr ▸ hi.holds
  refine inv_fit hi (best_fit_alloc_mono _ _ _) (fun hs => ?_)
    (fun hs => best_fit_alloc_spec hold hs (Nat.lt_succ_self ps.length)) h
  rw [best_fit_alloc, if_pos hs]

theorem inv_first_fit {fuel size : Nat} {m : Mem} {r : Nat} (hi : Inv space memory_size s ps)
    (h : first_fit_alloc fuel s.haper s.mem size = some (m, r)) :
    (r = 0 ∧ m = s.mem) ∨ ∃ xs n ys, Allocated s.mem space ps size 0 m r xs n ys ∧ 0 < size := by
  have hold := hi.start_addr ▸ hi.holds
  refine inv_fit hi (first_fit_alloc_mono _ _ _) (fun hs => ?_)
    (fun hs => first_fit_alloc_spec hold hs (Nat.lt_succ_self ps.length)) h
  rw [first_fit_alloc, if_pos hs]

/-- The live pointers are the payloads of the used blocks. -/
theorem live_iff (hi : Inv space memory_size s ps) (ptr : Nat) :
    (∃ e ∈ s.live, e.ptr = ptr) ↔ ∃ xs n ys, ps = xs ++ ⟨n, true⟩ :: ys ∧ ptr = space + span xs + 20 := by
  have h := hi.live_perm.mem_iff (a := ptr)
  simp only [List.mem_map, Prod.exists, mem_usedAt] at h
  rw [h]
  constructor
  · rintro ⟨b, n, ⟨xs, ys, hps, rfl⟩, rfl⟩
    exact ⟨xs, n, ys, hps, rfl⟩
  · rintro ⟨xs, n, ys, hps, rfl⟩
    exact ⟨_, n, ⟨xs, ys, hps, rfl⟩, rfl⟩

/-- A free call, whatever its fuel: a live pointer's block is freed and merged,
any other pointer changes nothing. -/
theorem inv_free {fuel ptr : Nat} {m : Mem} {rc : Int} (hi : Inv space memory_size s ps) (hlt : ptr < 2 ^ 32)
    (h : free_haper_block fuel s.haper s.mem ptr = some (m, rc)) :
    ((¬∃ e ∈ s.live, e.ptr = ptr) ∧ Inv space memory_size (s.freed m ptr) ps) ∨
      ∃ xs n ys, ps = xs ++ ⟨n, true⟩ :: ys ∧ ptr = space + span xs + 20 ∧
        Inv space memory_size (s.freed m ptr) (Heap.freed xs n ys) := by
  have hold := hi.start_addr ▸ hi.holds
  obtain ⟨m', rc', hm, hr⟩ := free_haper_block_spec hold hlt hi.coalesced hi.pos (Nat.le_refl (ps.length + 4))
  obtain ⟨rfl, rfl⟩ := Prod.mk.inj ((free_haper_block_mono _ _ _).det hm h)
  rw [hi.start_addr] at hr
  have hkeep : (¬∃ e ∈ s.live, e.ptr = ptr) → Holds m' space ps → Inv space memory_size (s.freed m' ptr) ps := by
    intro hno hold'
    have hl : (s.freed m' ptr).live = s.live :=
      List.filter_eq_self.2 fun e he => by simpa using fun hp => hno ⟨e, he, hp⟩
    exact ⟨hi.start_addr, hold', hi.total, hi.coalesced, hi.pos, by rw [hl]; exact hi.live_perm,
      by rw [hl]; exact hi.live_fits⟩
  rcases hr with ⟨-, rfl, hnone⟩ | ⟨xs, n, u, ys, rfl, hptr, hold'⟩
  · have hno : ¬∃ e ∈ s.live, e.ptr = ptr := by
      rw [live_iff hi]
      rintro ⟨xs, n, ys, hps, hp⟩
      exact hnone xs _ ys hps hp.symm
    exact .inl ⟨hno, hkeep hno hi.holds⟩
  · cases u with
    | true => exact .inr ⟨xs, n, ys, rfl, hptr, inv_freed hi hptr hold'⟩
    | false =>
      have hno : ¬∃ e ∈ s.live, e.ptr = ptr := by
        rw [live_iff hi]
        rintro ⟨us, k, vs, hps, hp⟩
        obtain ⟨-, hpart, -⟩ := split_unique hps (by omega)
        simp at hpart
      exact .inl ⟨hno, hkeep hno hold'⟩

/-- Every step keeps the invariant, for some partition. -/
theorem inv_preserved {s' : Sys} (hi : Inv space memory_size s ps) (hs : Step s s') :
    ∃ ps', Inv space memory_size s' ps' := by
  cases hs with
  | best_fit fuel size h =>
    rcases inv_best_fit hi h with ⟨rfl, rfl⟩ | ⟨xs, n, ys, hall, hpos⟩
    · exact ⟨ps, inv_null hi⟩
    · exact ⟨_, inv_allocated hi hpos hall⟩
  | first_fit fuel size h =>
    rcases inv_first_fit hi h with ⟨rfl, rfl⟩ | ⟨xs, n, ys, hall, hpos⟩
    · exact ⟨ps, inv_null hi⟩
    · exact ⟨_, inv_allocated hi hpos hall⟩
  | free fuel ptr hlt h =>
    rcases inv_free hi hlt h with ⟨-, hi'⟩ | ⟨xs, n, ys, -, -, hi'⟩
    · exact ⟨ps, hi'⟩
    · exact ⟨_, hi'⟩
  | write e x b he hlo hhi => exact ⟨ps, inv_write hi he hlo hhi⟩

end OneStep

theorem reachable_inv (h : Reachable (Init space memory_size) Step s) : ∃ ps, Inv space memory_size s ps :=
  h.inv (fun s => ∃ ps, Inv space memory_size s ps) (fun _ h0 => ⟨_, init_inv h0⟩)
    fun _ _ ⟨_, hi⟩ hs => inv_preserved hi hs

end McLinOS.Heap
