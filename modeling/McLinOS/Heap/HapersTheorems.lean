import Mathlib.Data.Fintype.Order
import Mathlib.Data.List.FinRange
import McLinOS.Heap.Hapers
/-!
# Theorems about the heaps of `haper.c`

Each heap that is set up keeps the invariant of a heap on its own, since no call
on another heap writes in its space. A request is then served by the first
heap asked that has a block, and a pointer is known to one heap only.
-/
open CLib McLinOS.Heap

namespace McLinOS.Hapers

/-! ## One heap among the others -/

/-- `x` is in the space of heap `i`. -/
def In (cfg : Config) (i : Haper) (x : Nat) : Prop := cfg.space i ≤ x ∧ x < cfg.space i + cfg.memory_size i

instance (cfg : Config) (i : Haper) (x : Nat) : Decidable (In cfg i x) := inferInstanceAs (Decidable (_ ∧ _))

/-- Heap `i` on its own, with the allocations in its space. -/
def view (cfg : Config) (S : State) (i : Haper) : Sys :=
  ⟨S.hapers i, S.mem, S.live.filter fun e => In cfg i e.ptr⟩

/-- Heap `i` is set up and in partition `ps`. -/
structure Ready (cfg : Config) (S : State) (i : Haper) (ps : List Part) : Prop where
  room : sizeof_memory_block ≤ cfg.memory_size i
  inv : Heap.Inv (cfg.space i) (cfg.memory_size i) (view cfg S i) ps

/-- Every heap is untouched or set up, and every allocation is in a heap. -/
structure Inv (cfg : Config) (S : State) : Prop where
  heap : ∀ i, (S.hapers i).start_addr = 0 ∨ ∃ ps, Ready cfg S i ps
  owned : ∀ e ∈ S.live, ∃ i ps, Ready cfg S i ps ∧ In cfg i e.ptr

section Spaces
variable {cfg : Config} {S S' : State} {i j : Haper} {ps qs : List Part} {x : Nat}

theorem in_unique (hi : sizeof_memory_block ≤ cfg.memory_size i) (hj : sizeof_memory_block ≤ cfg.memory_size j)
    (hxi : In cfg i x) (hxj : In cfg j x) : i = j := by
  by_contra hne
  have := cfg.apart i j hne hi hj
  unfold In at hxi hxj
  omega

theorem Ready.start_ne (h : Ready cfg S i ps) : (S.hapers i).start_addr ≠ 0 := by
  have hstart : (S.hapers i).start_addr = cfg.space i := h.inv.start_addr
  have hlow := h.inv.holds.low
  omega

theorem Ready.partition (h : Ready cfg S i ps) : Partition (S.hapers i) S.mem ps := by
  have hpart := inv_partition h.inv
  exact hpart

/-- A heap none of whose bytes and allocations changed. -/
theorem Ready.keep (h : Ready cfg S i ps) (hh : S'.hapers i = S.hapers i)
    (hm : ∀ x, In cfg i x → S'.mem x = S.mem x)
    (hl : (S'.live.filter fun e => In cfg i e.ptr) = S.live.filter fun e => In cfg i e.ptr) : Ready cfg S' i ps := by
  refine ⟨h.room, ?_⟩
  have hview : view cfg S' i = { view cfg S i with mem := S'.mem } := by rw [view, view, hh, hl]
  rw [hview]
  exact inv_agree h.inv fun x hlo hhi => hm x ⟨hlo, hhi⟩

/-- What happens in the space of heap `i` leaves the other heaps as they are. -/
theorem Ready.other (h : Ready cfg S j qs) (hne : j ≠ i) (hroom : sizeof_memory_block ≤ cfg.memory_size i)
    (hh : S'.hapers j = S.hapers j) (hm : ∀ x, ¬In cfg i x → S'.mem x = S.mem x)
    (hl : (S'.live.filter fun e => ¬In cfg i e.ptr) = S.live.filter fun e => ¬In cfg i e.ptr) : Ready cfg S' j qs := by
  have hout : ∀ x, In cfg j x → ¬In cfg i x := fun x hj hi => hne (in_unique h.room hroom hj hi)
  refine h.keep hh (fun x hx => hm x (hout x hx)) ?_
  -- What lies in heap `j` lies outside of heap `i`.
  have hsplit : ∀ l : List Alloc, (l.filter fun e => In cfg j e.ptr) =
      (l.filter fun e => ¬In cfg i e.ptr).filter fun e => In cfg j e.ptr := by
    intro l
    rw [List.filter_filter]
    refine List.filter_congr fun e _ => ?_
    by_cases he : In cfg j e.ptr
    · simp [he, hout _ he]
    · simp [he]
  rw [hsplit, hsplit S.live, hl]

/-- The invariant after something happened in the space of heap `i` only. -/
theorem Inv.update (h : Inv cfg S) (hroom : sizeof_memory_block ≤ cfg.memory_size i)
    (hh : ∀ j, j ≠ i → S'.hapers j = S.hapers j) (hm : ∀ x, ¬In cfg i x → S'.mem x = S.mem x)
    (hl : (S'.live.filter fun e => ¬In cfg i e.ptr) = S.live.filter fun e => ¬In cfg i e.ptr)
    (hi : Ready cfg S' i ps) : Inv cfg S' := by
  refine ⟨?_, ?_⟩
  · intro j
    by_cases hj : j = i
    · exact .inr ⟨ps, hj ▸ hi⟩
    · rw [hh j hj]
      exact (h.heap j).imp_right fun ⟨qs, hq⟩ => ⟨qs, hq.other hj hroom (hh j hj) hm hl⟩
  · intro e he
    by_cases hin : In cfg i e.ptr
    · exact ⟨i, ps, hi, hin⟩
    · -- Outside of heap `i` no allocation is new.
      have hold : e ∈ S.live := by
        have : e ∈ S'.live.filter fun e => ¬In cfg i e.ptr := List.mem_filter.2 ⟨he, by simpa using hin⟩
        rw [hl] at this
        exact (List.mem_filter.1 this).1
      obtain ⟨j, qs, hj, hinj⟩ := h.owned e hold
      have hne : j ≠ i := fun hji => hin (hji ▸ hinj)
      exact ⟨j, qs, hj.other hne hroom (hh j hne) hm hl, hinj⟩

/-- The heap an allocation lives in. -/
theorem Inv.mem_view (h : Inv cfg S) {e : Alloc} (he : e ∈ S.live) :
    ∃ i ps, Ready cfg S i ps ∧ e ∈ (view cfg S i).live := by
  obtain ⟨i, ps, hi, hin⟩ := h.owned e he
  exact ⟨i, ps, hi, List.mem_filter.2 ⟨he, by simpa using hin⟩⟩

end Spaces

/-! ## Setting up -/

section Init
variable {cfg : Config} {S : State} {i : Haper}

theorem haper2_init_small {m : Mem} {space space_size mode : Nat} (h : space_size < sizeof_memory_block) :
    haper2_init m space space_size mode = (-1, expand_memory_haper, m) := if_pos h

theorem haper2_init_outside {m : Mem} {space space_size mode x : Nat} (h : sizeof_memory_block ≤ space_size)
    (hx : x < space ∨ space + space_size ≤ x) : (haper2_init m space space_size mode).2.2 x = m x := by
  rw [sizeof_memory_block] at h
  rw [haper2_init, if_neg (by rw [sizeof_memory_block]; omega)]
  dsimp only [set_next, set_priv_block, reset_block_status, set_flag, set_magic, set_block_size]
  repeat rw [Mem.store_apply_ne (by omega)]

theorem haper2_init_returns {m : Mem} {space space_size mode : Nat} (h : sizeof_memory_block ≤ space_size) :
    (haper2_init m space space_size mode).1 = 0 := by
  rw [haper2_init, if_neg (by omega)]

/-- No allocation lies in the space of a heap that is not set up. -/
theorem Inv.unused (h : Inv cfg S) (hi : (S.hapers i).start_addr = 0) (hroom : sizeof_memory_block ≤ cfg.memory_size i) :
    (S.live.filter fun e => In cfg i e.ptr) = [] := by
  refine List.filter_eq_nil_iff.2 fun e he hin => ?_
  obtain ⟨j, ps, hj, hinj⟩ := h.owned e he
  obtain rfl := in_unique hj.room hroom hinj (by simpa using hin)
  exact hj.start_ne hi

theorem inv_init (h : Inv cfg S) (hi : (S.hapers i).start_addr = 0) (mode : Nat) :
    Inv cfg (S.initialised cfg i mode) := by
  have hh : ∀ j, j ≠ i → (S.initialised cfg i mode).hapers j = S.hapers j := fun j hj => Function.update_of_ne hj ..
  have hself : (S.initialised cfg i mode).hapers i =
      (haper2_init S.mem (cfg.space i) (cfg.memory_size i) mode).2.1 := Function.update_self ..
  by_cases hroom : sizeof_memory_block ≤ cfg.memory_size i
  · have hinit : Heap.Init (cfg.space i) (cfg.memory_size i) (view cfg (S.initialised cfg i mode) i) := by
      refine ⟨cfg.low i hroom, cfg.high i hroom, h.unused hi hroom, S.mem, mode, ?_⟩
      exact Prod.ext (haper2_init_returns hroom) (Prod.ext hself.symm rfl)
    refine h.update hroom hh (fun x hx => haper2_init_outside hroom ?_) rfl ⟨hroom, Heap.init_inv hinit⟩
    unfold In at hx
    omega
  · -- Without room for a block the heap stays as it is at the start.
    have hfail : haper2_init S.mem (cfg.space i) (cfg.memory_size i) mode = _ := haper2_init_small (Nat.lt_of_not_le hroom)
    have hmem : (S.initialised cfg i mode).mem = S.mem := congrArg (·.2.2) hfail
    have hkeep : ∀ j ps, Ready cfg S j ps → Ready cfg (S.initialised cfg i mode) j ps := fun j ps hj =>
      hj.keep (hh j fun hji => hroom (hji ▸ hj.room)) (fun x _ => congrFun hmem x) rfl
    refine ⟨?_, ?_⟩
    · intro j
      by_cases hj : j = i
      · refine .inl ?_
        rw [hj, hself, hfail]
        rfl
      · rw [hh j hj]
        exact (h.heap j).imp_right fun ⟨ps, hp⟩ => ⟨ps, hkeep j ps hp⟩
    · intro e he
      obtain ⟨j, ps, hj, hin⟩ := h.owned e he
      exact ⟨j, ps, hkeep j ps hj, hin⟩

end Init

/-! ## Asking the heaps -/

/-- What the proofs use of an allocator of `mempool_super_haper.h`. -/
structure Fitting (policy : Policy) (slack : Nat) (alloc : Allocator) : Prop where
  mono : ∀ haper m size, FuelMono fun fuel => alloc fuel haper m size
  zero : ∀ fuel haper m, alloc fuel haper m 0 = some (m, 0)
  untouched : ∀ fuel haper m size, haper.start_addr = 0 → alloc (fuel + 1) haper m size = some (m, 0)
  ready : ∀ {space memory_size fuel size : Nat} {s : Sys} {ps : List Part}, Heap.Inv space memory_size s ps →
    0 < size → memory_size + 4 ≤ fuel → ∃ m r, alloc fuel s.haper s.mem size = some (m, r) ∧
      Allocates policy size slack s.haper s.mem ps m r ∧
      (r ≠ 0 → space ≤ r ∧ r < space + memory_size ∧ ∃ ps', Heap.Inv space memory_size (s.allocated m r size) ps') ∧
      ∀ x, x < space ∨ UsedByte space ps x ∨ space + memory_size ≤ x → m x = s.mem x

/-- A block that was given is one of the heap. -/
theorem taken_inside {space memory_size size slack r : Nat} {s : Sys} {ps : List Part} {m : Mem}
    (hi : Heap.Inv space memory_size s ps)
    (h : (r = 0 ∧ m = s.mem) ∨ ∃ xs n ys, Allocated s.mem space ps size slack m r xs n ys ∧ 0 < size) (hr : r ≠ 0) :
    space ≤ r ∧ r < space + memory_size ∧ ∃ ps', Heap.Inv space memory_size (s.allocated m r size) ps' := by
  obtain ⟨xs, n, ys, h, hs⟩ := h.resolve_left fun hnull => hr hnull.1
  have hall := inv_allocated hi hs h
  obtain ⟨rfl, hn, rfl, -⟩ := h
  have htotal := hi.total
  simp only [span_append, span_cons] at htotal
  exact ⟨by omega, by omega, _, hall⟩

theorem best_fit_fitting : Fitting BestFit minimum_size best_fit_alloc where
  mono := best_fit_alloc_mono
  zero _ _ _ := rfl
  untouched fuel haper m size h := by
    unfold best_fit_alloc
    split
    · rfl
    · rw [h]
      rfl
  ready {space memory_size fuel size s ps} hi hs hf := by
    obtain ⟨m, r, h⟩ := best_fit_returns hi hf size
    exact ⟨m, r, h, best_fit_allocates hi hs h, taken_inside hi (inv_best_fit hi h), fun x hx => best_fit_kept hi h hx⟩

theorem first_fit_fitting : Fitting FirstFit 0 first_fit_alloc where
  mono := first_fit_alloc_mono
  zero _ _ _ := rfl
  untouched fuel haper m size h := by
    unfold first_fit_alloc
    split
    · rfl
    · rw [h]
      rfl
  ready {space memory_size fuel size s ps} hi hs hf := by
    obtain ⟨m, r, h⟩ := first_fit_returns hi hf size
    exact ⟨m, r, h, first_fit_allocates hi hs h, taken_inside hi (inv_first_fit hi h), fun x hx => first_fit_kept hi h hx⟩

/-- No free block of heap `i` has `size` bytes. -/
def Full (S : State) (size : Nat) (i : Haper) : Prop :=
  ∀ ps, Partition (S.hapers i) S.mem ps → ∀ p ∈ ps, ¬Heap.Fits size p

/-- A free block of heap `i` became a used one of at least `size` bytes at `r`, what
is left of it one free block behind. The rest of the heap, the other heaps and
all that is allocated are as before. -/
structure Given (cfg : Config) (S : State) (i : Haper) (size : Nat) (m : Mem) (r : Nat) : Prop where
  block : ∃ xs n k rest ys, Partition (S.hapers i) S.mem (xs ++ ⟨n, false⟩ :: ys) ∧
    Partition (S.hapers i) m (xs ++ ⟨k, true⟩ :: (rest ++ ys)) ∧
    r = (S.hapers i).start_addr + span xs + sizeof_memory_block ∧ size ≤ k ∧
    ((rest = [] ∧ k = n) ∨ ∃ j, rest = [⟨j, false⟩] ∧ n = k + sizeof_memory_block + j)
  inside : ∀ x, r ≤ x → x < r + size → In cfg i x
  fresh : ∀ e ∈ S.live, ∀ x, e.ptr ≤ x → x < e.ptr + payload_size S.mem e → x < r ∨ r + size ≤ x
  others : ∀ j, j ≠ i → ∀ ps, Partition (S.hapers j) S.mem ps → Partition (S.hapers j) m ps
  outside : ∀ x, ¬In cfg i x → m x = S.mem x
  payloads : ∀ e ∈ S.live, SamePayload S.mem m e

section Ask
variable {cfg : Config} {S S' : State} {i : Haper} {ps : List Part} {policy : Policy} {slack : Nat} {alloc : Allocator}
  {fuel size r : Nat} {m : Mem}

/-- A heap that is not set up has no blocks. -/
theorem untouched_partition {haper : haper2} (h : haper.start_addr = 0) (m : Mem) : Partition haper m ps ↔ ps = [] := by
  have hnil : Partition haper m [] := by
    refine ⟨1, ?_⟩
    rw [partition, memory_block_laterator, h]
    rfl
  exact ⟨fun hp => partition_unique hp hnil, fun hp => hp ▸ hnil⟩

theorem full_iff (h : Partition (S.hapers i) S.mem ps) : Full S size i ↔ ∀ p ∈ ps, ¬Heap.Fits size p :=
  ⟨fun hf => hf ps h, fun hp _ hq => partition_unique hq h ▸ hp⟩

/-- A heap in which nothing changed keeps its partition. -/
theorem partition_keep (h : Inv cfg S) (hready : ∀ ps, Ready cfg S i ps → Ready cfg S' i ps)
    (hh : S'.hapers i = S.hapers i) {m : Mem} (hm : S'.mem = m) (hp : Partition (S.hapers i) S.mem ps) :
    Partition (S.hapers i) m ps := by
  rcases h.heap i with hi | ⟨qs, hi⟩
  · exact (untouched_partition hi m).2 ((untouched_partition hi S.mem).1 hp)
  · obtain rfl := partition_unique hp hi.partition
    have hpart := (hready ps hi).partition
    rwa [hh, hm] at hpart

/-- The bytes of an allocation are in the heap it lives in. -/
theorem Ready.payload_used (h : Ready cfg S i ps) {e : Alloc} (he : e ∈ (view cfg S i).live) {x : Nat}
    (hlo : e.ptr ≤ x) (hhi : x < e.ptr + payload_size S.mem e) : UsedByte (cfg.space i) ps x ∧ In cfg i x := by
  have hx := live_used h.inv he hlo hhi
  have hb := hx.bounds
  rw [h.inv.total] at hb
  exact ⟨hx, by unfold In; omega⟩

/-- The bytes of an allocation are in used blocks of heap `i` or outside of it. -/
theorem Inv.payload_apart (h : Inv cfg S) (hi : Ready cfg S i ps) {e : Alloc} (he : e ∈ S.live) {x : Nat}
    (hlo : e.ptr ≤ x) (hhi : x < e.ptr + payload_size S.mem e) : UsedByte (cfg.space i) ps x ∨ ¬In cfg i x := by
  obtain ⟨j, qs, hj, hmem⟩ := h.mem_view he
  obtain ⟨hx, hin⟩ := hj.payload_used hmem hlo hhi
  by_cases hji : j = i
  · subst hji
    rw [partition_unique hj.partition hi.partition] at hx
    exact .inl hx
  · exact .inr fun hi' => hji (in_unique hj.room hi.room hin hi')

/-- No used byte lies in a free block. -/
theorem usedByte_free_apart {a n x : Nat} {xs ys : List Part} (h : UsedByte a (xs ++ ⟨n, false⟩ :: ys) x) :
    x < a + span xs ∨ a + span xs + (20 + n) ≤ x := by
  rw [usedByte_append, usedByte_free] at h
  rcases h with h | h
  · exact .inl h.bounds.2
  · have := h.bounds
    exact .inr (by omega)

theorem takes_block {haper : haper2} {m' : Mem} {xs ys : List Part} {n : Nat}
    (h : Takes policy size slack haper m ps m' r xs n ys) :
    ∃ k rest, Partition haper m' (xs ++ ⟨k, true⟩ :: (rest ++ ys)) ∧ size ≤ k ∧
      ((rest = [] ∧ k = n) ∨ ∃ j, rest = [⟨j, false⟩] ∧ n = k + sizeof_memory_block + j) := by
  by_cases hle : size + sizeof_memory_block + slack ≤ n
  · exact ⟨size, [⟨n - (size + sizeof_memory_block), false⟩], h.halved hle, Nat.le_refl _, .inr ⟨_, rfl, by omega⟩⟩
  · exact ⟨n, [], h.whole (Nat.lt_of_not_le hle), h.fits, .inl ⟨rfl, rfl⟩⟩

/-- What changes inside heap `i` leaves the other heaps in their partitions. -/
theorem Inv.others_keep (h : Inv cfg S) (hi : Ready cfg S i ps) (S' : State) (hh : S'.hapers = S.hapers)
    (hout : ∀ x, ¬In cfg i x → S'.mem x = S.mem x)
    (hl : (S'.live.filter fun e => ¬In cfg i e.ptr) = S.live.filter fun e => ¬In cfg i e.ptr) {m : Mem}
    (hm : S'.mem = m) {j : Haper} (hj : j ≠ i) {qs : List Part} (hq : Partition (S.hapers j) S.mem qs) :
    Partition (S.hapers j) m qs :=
  partition_keep h (fun _ hp => hp.other hj hi.room (congrFun hh j) hout hl) (congrFun hh j) hm hq

theorem view_allocated (hr : r ≠ 0) (hin : In cfg i r) :
    view cfg (S.allocated m r size) i = (view cfg S i).allocated m r size := by
  have hlive : (S.allocated m r size).live = ⟨r, size⟩ :: S.live := if_neg hr
  rw [view, hlive, List.filter_cons, if_pos (by simpa using hin), Sys.allocated, if_neg hr]
  rfl

theorem allocated_outside (hr : r ≠ 0) (hin : In cfg i r) :
    ((S.allocated m r size).live.filter fun e => ¬In cfg i e.ptr) = S.live.filter fun e => ¬In cfg i e.ptr := by
  have hlive : (S.allocated m r size).live = ⟨r, size⟩ :: S.live := if_neg hr
  rw [hlive, List.filter_cons, if_neg (by simpa using hin)]

/-- A block that heap `i` takes for a request is given to it. -/
theorem Inv.given (h : Inv cfg S) (hi : Ready cfg S i ps) (hr : r ≠ 0) (hin : In cfg i r) {xs ys : List Part} {n : Nat}
    (htakes : Takes policy size slack (S.hapers i) S.mem ps m r xs n ys) (hout : ∀ x, ¬In cfg i x → m x = S.mem x)
    (hused : ∀ x, UsedByte (cfg.space i) ps x → m x = S.mem x) : Given cfg S i size m r := by
  obtain ⟨k, rest, hafter, hk, hrest⟩ := takes_block htakes
  have hn := htakes.fits
  have hstart : (S.hapers i).start_addr = cfg.space i := hi.inv.start_addr
  have hptr : r = cfg.space i + span xs + 20 := htakes.result.trans (by rw [hstart]; rfl)
  have hsplit := htakes.split
  have htotal := hi.inv.total
  rw [hsplit, span_append, span_cons] at htotal
  dsimp only at htotal
  have hinside : ∀ x, r ≤ x → x < r + size → In cfg i x := fun x h1 h2 => by unfold In; omega
  refine ⟨⟨xs, n, k, rest, ys, ?_, hafter, htakes.result, hk, hrest⟩, hinside, ?_, ?_, hout, ?_⟩
  · rw [← hsplit]
    exact hi.partition
  · intro e he x hlo hhi
    -- The block was free, and an allocation lies in used blocks.
    rcases h.payload_apart hi he hlo hhi with hx | hx
    · rw [hsplit] at hx
      have := usedByte_free_apart hx
      omega
    · exact Decidable.byContradiction fun hno => hx (hinside x (by omega) (by omega))
  · intro j hj qs hq
    exact h.others_keep hi (S.allocated m r size) rfl hout (allocated_outside hr hin) rfl hj hq
  · intro e he x hlo hhi
    exact (h.payload_apart hi he hlo hhi).elim (hused x) (hout x)

/-- One heap asked for a block. -/
theorem Fitting.ask (hf : Fitting policy slack alloc) (h : Inv cfg S) (hfuel : ∀ i, cfg.memory_size i + 4 ≤ fuel)
    (hs : 0 < size) (i : Haper) :
    ∃ m r, alloc fuel (S.hapers i) S.mem size = some (m, r) ∧
      ((r = 0 ∧ m = S.mem ∧ Full S size i) ∨
        (r ≠ 0 ∧ ¬Full S size i ∧ Given cfg S i size m r ∧ Inv cfg (S.allocated m r size))) := by
  rcases h.heap i with hi | ⟨ps, hi⟩
  · -- A heap that is not set up has no blocks.
    obtain ⟨k, rfl⟩ : ∃ k, fuel = k + 1 := ⟨fuel - 1, by have := hfuel i; omega⟩
    refine ⟨S.mem, 0, hf.untouched k _ S.mem size hi, .inl ⟨rfl, rfl, fun ps hp => ?_⟩⟩
    simp [(untouched_partition hi S.mem).1 hp]
  · obtain ⟨m, r, hm, hall, hnew, hkept⟩ := hf.ready hi.inv hs (hfuel i)
    refine ⟨m, r, hm, ?_⟩
    by_cases hr : r = 0
    · exact .inl ⟨hr, hall.unchanged hr, (full_iff hi.partition).2 (hall.null.1 hr)⟩
    · obtain ⟨hlo, hhi, ps', hinv⟩ := hnew hr
      obtain ⟨xs, n, ys, htakes⟩ := hall.taken hr
      have hin : In cfg i r := ⟨hlo, hhi⟩
      have hout : ∀ x, ¬In cfg i x → m x = S.mem x := fun x hx => hkept x (by unfold In at hx; omega)
      have hself : Ready cfg (S.allocated m r size) i ps' := ⟨hi.room, by rwa [view_allocated hr hin]⟩
      exact .inr ⟨hr, fun hfull => hr (hall.null.2 ((full_iff hi.partition).1 hfull)),
        h.given hi hr hin htakes hout fun x hx => hkept x (.inr (.inl hx)),
        h.update hi.room (fun _ _ => rfl) hout (allocated_outside hr hin) hself⟩

/-- The heaps asked in turn: none has a block, or one of them gives one. -/
theorem Fitting.ask_each (hf : Fitting policy slack alloc) (h : Inv cfg S) (hfuel : ∀ i, cfg.memory_size i + 4 ≤ fuel)
    (hs : 0 < size) (is : List Haper) :
    ∃ m r, ask_each alloc fuel S.hapers size is S.mem = some (m, r) ∧
      ((r = 0 ∧ m = S.mem ∧ ∀ i ∈ is, Full S size i) ∨
        (r ≠ 0 ∧ ∃ i ∈ is, ¬Full S size i ∧ Given cfg S i size m r ∧ Inv cfg (S.allocated m r size))) := by
  induction is with
  | nil => exact ⟨S.mem, 0, rfl, .inl ⟨rfl, rfl, by simp⟩⟩
  | cons i is ih =>
    obtain ⟨m, r, hm, ⟨rfl, rfl, hfull⟩ | ⟨hr, hrest⟩⟩ := hf.ask h hfuel hs i
    · obtain ⟨m, r, hm', hcase⟩ := ih
      refine ⟨m, r, by rw [Hapers.ask_each, hm]; exact hm', hcase.imp ?_ ?_⟩
      · rintro ⟨h1, h2, h3⟩
        exact ⟨h1, h2, List.forall_mem_cons.2 ⟨hfull, h3⟩⟩
      · rintro ⟨h1, j, hj, h2⟩
        exact ⟨h1, j, List.mem_cons_of_mem _ hj, h2⟩
    · exact ⟨m, r, by rw [Hapers.ask_each, hm]; exact if_pos hr, .inr ⟨hr, i, List.mem_cons_self, hrest⟩⟩

theorem Fitting.ask_none (hf : Fitting policy slack alloc) (hapers : Haper → haper2) (m : Mem) (is : List Haper) :
    Hapers.ask_each alloc fuel hapers 0 is m = some (m, 0) := by
  induction is with
  | nil => rfl
  | cons i is ih =>
    rw [Hapers.ask_each, hf.zero]
    exact ih

end Ask

/-! ## Requests -/

/-- `size` rounded up to words of `w` bytes. -/
def round_up (w size : Nat) : Nat := (size + (w - 1)) / w * w

/-- A task's memory comes in words of 4 bytes, everything else in words of 8. -/
def word (flags : Nat) : Nat := if flags = GFP_NOWAIT then 4 else 8

/-- The heaps a request is served from. -/
def eligible (cfg : Config) (flags : Nat) : List Haper :=
  if flags = GFP_NOWAIT then task_hapers cfg else List.finRange haper_count

/-- No eligible heap has a free block of the rounded size. For 0 bytes there is no
block to have. -/
def NoBlock (cfg : Config) (S : State) (flags size : Nat) : Prop :=
  size = 0 ∨ ∀ i ∈ eligible cfg flags, Full S (round_up (word flags) size) i

/-- What a request for `size` bytes promises: `NULL` and nothing written exactly when
there is no block, else a block of `size` bytes of one heap. -/
structure Serves (cfg : Config) (S : State) (flags size : Nat) (m : Mem) (r : Nat) : Prop where
  null : r = 0 ↔ NoBlock cfg S flags size
  unchanged : r = 0 → m = S.mem
  given : r ≠ 0 → ∃ i ∈ eligible cfg flags, Given cfg S i size m r

section Request
variable {cfg : Config} {S : State} {i : Haper} {fuel size r flags : Nat} {m : Mem}

/-- The size asked for is the rounded size, unless that does not fit 32 bits. -/
theorem asked_cases (flags : Nat) (hs : 0 < size) (hsz : size < 2 ^ 32) :
    (asked flags size = round_up (word flags) size ∧ size ≤ asked flags size) ∨
      (asked flags size = 0 ∧ 2 ^ 32 ≤ round_up (word flags) size) := by
  unfold asked word task_memory_size use_memory_size round_up u32
  split
  · omega
  · omega

theorem Given.mono {size' : Nat} (h : Given cfg S i size m r) (hle : size' ≤ size) : Given cfg S i size' m r := by
  obtain ⟨⟨xs, n, k, rest, ys, hbefore, hafter, hptr, hk, hrest⟩, hinside, hfresh, hothers, hout, hpayloads⟩ := h
  exact ⟨⟨xs, n, k, rest, ys, hbefore, hafter, hptr, Nat.le_trans hle hk, hrest⟩,
    fun x h1 h2 => hinside x h1 (by omega), fun e he x h1 h2 => (hfresh e he x h1 h2).imp_right (by omega), hothers,
    hout, hpayloads⟩

/-- No block has `2^32` bytes. -/
theorem Inv.full_large (h : Inv cfg S) (hsz : 2 ^ 32 ≤ size) (i : Haper) : Full S size i := by
  rcases h.heap i with hi | ⟨ps, hi⟩
  · intro ps hp
    simp [(untouched_partition hi S.mem).1 hp]
  · refine (full_iff hi.partition).2 fun p hp hfits => ?_
    obtain ⟨us, vs, rfl⟩ := List.append_of_mem hp
    have hhigh := hi.inv.holds.high
    have hle := hfits.2
    simp only [span_append, span_cons] at hhigh
    omega

theorem Inv.no_block_large (h : Inv cfg S) (flags : Nat) (hsz : 2 ^ 32 ≤ size) : NoBlock cfg S flags size := by
  refine .inr fun i _ => h.full_large ?_ i
  unfold round_up word
  split
  · omega
  · omega

/-- A request that comes to `asked flags size` bytes. -/
theorem smalloc_ask (hs : size ≠ 0) : __smalloc__ fuel cfg S.hapers S.mem size flags =
    if flags = GFP_NOWAIT then ask_each first_fit_alloc fuel S.hapers (asked flags size) (eligible cfg flags) S.mem
    else ask_each best_fit_alloc fuel S.hapers (asked flags size) (eligible cfg flags) S.mem := by
  by_cases hflags : flags = GFP_NOWAIT
  · rw [__smalloc__, if_pos hflags, if_pos hflags, asked, if_pos hflags, eligible, if_pos hflags, __task_malloc,
      if_neg hs]
  · rw [__smalloc__, if_neg hflags, if_neg hflags, asked, if_neg hflags, eligible, if_neg hflags, smalloc, if_neg hs]

theorem smalloc_cases (h : Inv cfg S) (hfuel : ∀ i, cfg.memory_size i + 4 ≤ fuel) (hsz : size < 2 ^ 32) (flags : Nat) :
    ∃ m r, __smalloc__ fuel cfg S.hapers S.mem size flags = some (m, r) ∧
      ((r = 0 ∧ m = S.mem ∧ NoBlock cfg S flags size) ∨
        (r ≠ 0 ∧ ¬NoBlock cfg S flags size ∧ size ≤ asked flags size ∧
          (∃ i ∈ eligible cfg flags, Given cfg S i (asked flags size) m r) ∧
          Inv cfg (S.allocated m r (asked flags size)))) := by
  rcases Nat.eq_zero_or_pos size with rfl | hs
  · refine ⟨S.mem, 0, ?_, .inl ⟨rfl, rfl, .inl rfl⟩⟩
    unfold __smalloc__
    split
    · rfl
    · rfl
  have hask : ∀ {policy slack alloc}, Fitting policy slack alloc →
      ∃ m r, ask_each alloc fuel S.hapers (asked flags size) (eligible cfg flags) S.mem = some (m, r) ∧
        ((r = 0 ∧ m = S.mem ∧ NoBlock cfg S flags size) ∨
          (r ≠ 0 ∧ ¬NoBlock cfg S flags size ∧ size ≤ asked flags size ∧
            (∃ i ∈ eligible cfg flags, Given cfg S i (asked flags size) m r) ∧
            Inv cfg (S.allocated m r (asked flags size)))) := by
    intro policy slack alloc hf
    rcases asked_cases flags hs hsz with ⟨hasked, hle⟩ | ⟨hasked, hlarge⟩
    · obtain ⟨m, r, hm, ⟨hr, hmem, hfull⟩ | ⟨hr, i, hi, hnot, hgiven, hinv⟩⟩ :=
        hf.ask_each h hfuel (Nat.lt_of_lt_of_le hs hle) (eligible cfg flags)
      · exact ⟨m, r, hm, .inl ⟨hr, hmem, .inr (hasked ▸ hfull)⟩⟩
      · refine ⟨m, r, hm, .inr ⟨hr, ?_, hle, ⟨i, hi, hgiven⟩, hinv⟩⟩
        rintro (h0 | hnone)
        · omega
        · exact hnot (hasked ▸ hnone i hi)
    · rw [hasked]
      exact ⟨S.mem, 0, hf.ask_none _ _ _, .inl ⟨rfl, rfl, .inr fun i _ => h.full_large hlarge i⟩⟩
  rw [smalloc_ask (Nat.ne_of_gt hs)]
  by_cases hflags : flags = GFP_NOWAIT
  · rw [if_pos hflags]
    exact hask first_fit_fitting
  · rw [if_neg hflags]
    exact hask best_fit_fitting

theorem smalloc_serves (h : Inv cfg S) (hfuel : ∀ i, cfg.memory_size i + 4 ≤ fuel) (hsz : size < 2 ^ 32)
    (flags : Nat) : ∃ m r, __smalloc__ fuel cfg S.hapers S.mem size flags = some (m, r) ∧ Serves cfg S flags size m r := by
  obtain ⟨m, r, hm, ⟨hr, hmem, hnone⟩ | ⟨hr, hblock, hle, ⟨i, hi, hgiven⟩, -⟩⟩ := smalloc_cases h hfuel hsz flags
  · exact ⟨m, r, hm, iff_of_true hr hnone, fun _ => hmem, fun hr' => absurd hr hr'⟩
  · exact ⟨m, r, hm, iff_of_false hr hblock, fun hr' => absurd hr' hr, fun _ => ⟨i, hi, hgiven.mono hle⟩⟩

/-- A product that wraps is served as the smaller request it wraps to. -/
theorem kmalloc_array_serves (h : Inv cfg S) (hfuel : ∀ i, cfg.memory_size i + 4 ≤ fuel) (n size flags : Nat) :
    ∃ m r, kmalloc_array fuel cfg S.hapers S.mem n size flags = some (m, r) ∧
      (Serves cfg S flags (n * size) m r ↔ n * size < 2 ^ 32 ∨ NoBlock cfg S flags (u32 (n * size))) := by
  obtain ⟨m, r, hm, hserves⟩ := smalloc_serves h hfuel (u32_lt (n * size)) flags
  have hcall : kmalloc_array fuel cfg S.hapers S.mem n size flags = some (m, r) := by
    rw [kmalloc_array, kmalloc, u32_of_lt (u32_lt (n * size)), hm]
  refine ⟨m, r, hcall, ?_⟩
  by_cases hlt : n * size < 2 ^ 32
  · rw [u32_of_lt hlt] at hserves
    exact iff_of_true hserves (.inl hlt)
  · have hnone : NoBlock cfg S flags (n * size) := h.no_block_large flags (Nat.le_of_not_lt hlt)
    rw [or_iff_right hlt]
    constructor
    · intro hs
      exact hserves.null.1 (hs.null.2 hnone)
    · intro hwrapped
      have hr := hserves.null.2 hwrapped
      exact ⟨iff_of_true hr hnone, hserves.unchanged, fun hr' => absurd hr hr'⟩

end Request

/-! ## Freeing -/

/-- The used block of heap `i` whose payload starts at `ptr` was freed and merged,
everything else is as before. -/
structure Released (cfg : Config) (S : State) (i : Haper) (ptr : Nat) (m : Mem) : Prop where
  block : ∃ xs n ys, Partition (S.hapers i) S.mem (xs ++ ⟨n, true⟩ :: ys) ∧
    ptr = (S.hapers i).start_addr + span xs + sizeof_memory_block ∧ Partition (S.hapers i) m (freed xs n ys)
  others : ∀ j, j ≠ i → ∀ ps, Partition (S.hapers j) S.mem ps → Partition (S.hapers j) m ps
  outside : ∀ x, ¬In cfg i x → m x = S.mem x
  payloads : ∀ e ∈ S.live, e.ptr ≠ ptr → SamePayload S.mem m e

section Free
variable {cfg : Config} {S : State} {i : Haper} {ps : List Part} {fuel ptr : Nat} {m : Mem}

/-- A heap in which nothing is allocated at `ptr` does not change. -/
theorem Inv.free_dead (h : Inv cfg S) (hfuel : ∀ i, cfg.memory_size i + 4 ≤ fuel) (hlt : ptr < 2 ^ 32)
    (hdead : ∀ ps, Ready cfg S i ps → ∀ e ∈ S.live, In cfg i e.ptr → e.ptr ≠ ptr) :
    ∃ rc, free_haper_block fuel (S.hapers i) S.mem ptr = some (S.mem, rc) := by
  rcases h.heap i with hi | ⟨ps, hi⟩
  · obtain ⟨k, rfl⟩ : ∃ k, fuel = k + 1 := ⟨fuel - 1, by have := hfuel i; omega⟩
    refine ⟨-1, ?_⟩
    rw [free_haper_block, memory_block_laterator, hi]
    split
    · rfl
    · rfl
  · obtain ⟨m, rc, hm⟩ := free_returns hi.inv (hfuel i) hlt
    have hmem : m = S.mem := by
      apply free_dead_mem hi.inv hlt hm
      rintro ⟨e, he, hptr⟩
      obtain ⟨he, hin⟩ := List.mem_filter.1 he
      exact hdead ps hi e he (by simpa using hin) hptr
    subst hmem
    exact ⟨rc, hm⟩

theorem sfree_from_dead {hapers : Haper → haper2} {is : List Haper}
    (hdead : ∀ i ∈ is, ∃ rc, free_haper_block fuel (hapers i) m ptr = some (m, rc)) :
    sfree_from fuel ptr (is.map hapers) m = some m := by
  induction is with
  | nil => rfl
  | cons i is ih =>
    obtain ⟨rc, hrc⟩ := hdead i List.mem_cons_self
    rw [List.map_cons, sfree_from, hrc, Option.bind_some, if_neg (free_not_pos hrc)]
    exact ih fun j hj => hdead j (List.mem_cons_of_mem _ hj)

/-- The loop goes on after the heap that took the pointer back. -/
theorem sfree_from_live {hapers : Haper → haper2} {is js : List Haper} {m' : Mem} {rc : Int}
    (hbefore : ∀ j ∈ is, ∃ rc, free_haper_block fuel (hapers j) m ptr = some (m, rc))
    (hi : free_haper_block fuel (hapers i) m ptr = some (m', rc))
    (hafter : ∀ j ∈ js, ∃ rc, free_haper_block fuel (hapers j) m' ptr = some (m', rc)) :
    sfree_from fuel ptr ((is ++ i :: js).map hapers) m = some m' := by
  induction is with
  | nil =>
    rw [List.nil_append, List.map_cons, sfree_from, hi, Option.bind_some, if_neg (free_not_pos hi)]
    exact sfree_from_dead hafter
  | cons j is ih =>
    obtain ⟨rc', hrc⟩ := hbefore j List.mem_cons_self
    rw [List.cons_append, List.map_cons, sfree_from, hrc, Option.bind_some, if_neg (free_not_pos hrc)]
    exact ih fun k hk => hbefore k (List.mem_cons_of_mem _ hk)

theorem view_freed (cfg : Config) (S : State) (m : Mem) (ptr : Nat) (i : Haper) :
    view cfg (S.freed m ptr) i = (view cfg S i).freed m ptr := by
  simp only [view, State.freed, Sys.freed, List.filter_filter, Bool.and_comm]

/-- The heap an allocation lives in takes it back. -/
theorem Ready.free_live (h : Inv cfg S) (hi : Ready cfg S i ps) (hfuel : ∀ i, cfg.memory_size i + 4 ≤ fuel)
    (hlt : ptr < 2 ^ 32) {e : Alloc} (he : e ∈ (view cfg S i).live) (hptr : e.ptr = ptr) :
    ∃ m rc, free_haper_block fuel (S.hapers i) S.mem ptr = some (m, rc) ∧ Released cfg S i ptr m ∧
      Inv cfg (S.freed m ptr) := by
  obtain ⟨m, rc, hm⟩ := free_returns hi.inv (hfuel i) hlt
  have hin : In cfg i ptr := by
    have := (List.mem_filter.1 he).2
    rw [hptr] at this
    simpa using this
  have hout : ∀ x, ¬In cfg i x → m x = S.mem x := fun x hx =>
    free_outside hi.inv hlt hm (by unfold In at hx; omega)
  have hl : ((S.freed m ptr).live.filter fun e => ¬In cfg i e.ptr) = S.live.filter fun e => ¬In cfg i e.ptr := by
    rw [State.freed, List.filter_filter]
    refine List.filter_congr fun f _ => ?_
    by_cases hf : f.ptr = ptr
    · simp [hf, hin]
    · simp [hf]
  rcases inv_free hi.inv hlt hm with ⟨hno, -⟩ | ⟨xs, n, ys, rfl, hptr', hfreed⟩
  · exact absurd ⟨e, he, hptr⟩ hno
  -- A live pointer is the payload of a used block.
  have hself : Ready cfg (S.freed m ptr) i (freed xs n ys) := ⟨hi.room, by rwa [view_freed]⟩
  have hstart : (S.hapers i).start_addr = cfg.space i := hi.inv.start_addr
  refine ⟨m, rc, hm, ⟨⟨xs, n, ys, hi.partition, by rw [hptr', hstart]; rfl, hself.partition⟩, ?_,
    hout, ?_⟩, h.update hi.room (fun _ _ => rfl) hout hl hself⟩
  · intro j hj qs hq
    exact h.others_keep hi (S.freed m ptr) rfl hout hl rfl hj hq
  · intro f hf hne
    obtain ⟨j, qs, hj, hmem⟩ := h.mem_view hf
    by_cases hji : j = i
    · subst hji
      have hsame := free_payload hj.inv hlt hm hmem hne
      exact hsame
    · exact fun x hlo hhi => hout x fun hxi => hji (in_unique hj.room hi.room (hj.payload_used hmem hlo hhi).2 hxi)

/-- A pointer is known to one heap at most. -/
theorem sfree_cases (h : Inv cfg S) (hfuel : ∀ i, cfg.memory_size i + 4 ≤ fuel) (hlt : ptr < 2 ^ 32) :
    ∃ m, __sfree__ fuel S.hapers S.mem ptr = some m ∧ Inv cfg (S.freed m ptr) ∧
      (((∀ e ∈ S.live, e.ptr ≠ ptr) ∧ m = S.mem) ∨ ((∃ e ∈ S.live, e.ptr = ptr) ∧ ∃ i, Released cfg S i ptr m)) := by
  by_cases hlive : ∃ e ∈ S.live, e.ptr = ptr
  · obtain ⟨e, he, hptr⟩ := hlive
    obtain ⟨i, ps, hi, hmem⟩ := h.mem_view he
    obtain ⟨m, rc, hm, hreleased, hinv⟩ := hi.free_live h hfuel hlt hmem hptr
    refine ⟨m, ?_, hinv, .inr ⟨⟨e, he, hptr⟩, i, hreleased⟩⟩
    obtain ⟨is, js, hsplit⟩ := List.append_of_mem (List.mem_finRange i)
    have hnodup := List.nodup_finRange haper_count
    rw [hsplit] at hnodup
    rw [__sfree__, hsplit]
    -- The heaps before it do not know the pointer, and those behind it find it freed.
    refine sfree_from_live (fun j hj => ?_) hm fun j _ => ?_
    · refine h.free_dead hfuel hlt fun qs hj' f _ hin hf => ?_
      have hini : In cfg i f.ptr := by
        rw [hf, ← hptr]
        simpa using (List.mem_filter.1 hmem).2
      obtain rfl := in_unique hj'.room hi.room hin hini
      exact (List.nodup_cons.1 (List.nodup_middle.1 hnodup)).1 (List.mem_append_left _ hj)
    · exact hinv.free_dead hfuel hlt fun _ _ f hf _ => by simpa using (List.mem_filter.1 hf).2
  · have hdead : ∀ e ∈ S.live, e.ptr ≠ ptr := fun e he hptr => hlive ⟨e, he, hptr⟩
    have hfreed : S.freed S.mem ptr = S := by
      rw [State.freed, List.filter_eq_self.2 fun e he => by simpa using hdead e he]
    refine ⟨S.mem, ?_, by rw [hfreed]; exact h, .inl ⟨hdead, rfl⟩⟩
    exact sfree_from_dead fun i _ => h.free_dead hfuel hlt fun _ _ e he _ => hdead e he

end Free

/-! ## Owners -/

section Owner
variable {cfg : Config} {S : State} {fuel size flags : Nat} {m : Mem} {e : Alloc}

/-- An owner that writes to its allocation changes no heap. -/
theorem Ready.owner_write (h : Inv cfg S) (he : e ∈ S.live)
    (hm : ∀ x, x < e.ptr ∨ e.ptr + e.size ≤ x → m x = S.mem x) {j : Haper} {ps : List Part} (hj : Ready cfg S j ps) :
    Ready cfg { S with mem := m } j ps := by
  obtain ⟨i, qs, hi, hmem⟩ := h.mem_view he
  obtain ⟨hpos, b, n, hb, hptr, hn⟩ := hi.inv.live_fits e hmem
  by_cases hji : j = i
  · subst hji
    obtain rfl := partition_unique hj.partition hi.partition
    exact ⟨hj.room, inv_payload hj.inv hb fun x hx => hm x (by omega)⟩
  · refine hj.other (i := i) hji hi.room rfl (fun x hx => hm x ?_) rfl
    refine Decidable.byContradiction fun hin => hx (hi.payload_used (x := x) hmem (by omega) ?_).2
    obtain ⟨b', -, -, hsize⟩ := live_block hi.inv hmem
    have : e.size ≤ payload_size S.mem e := hsize
    omega

theorem inv_owner_write (h : Inv cfg S) (he : e ∈ S.live)
    (hm : ∀ x, x < e.ptr ∨ e.ptr + e.size ≤ x → m x = S.mem x) : Inv cfg { S with mem := m } := by
  refine ⟨fun i => (h.heap i).imp_right fun ⟨ps, hi⟩ => ⟨ps, hi.owner_write h he hm⟩, fun f hf => ?_⟩
  obtain ⟨i, ps, hi, hin⟩ := h.owned f hf
  exact ⟨i, ps, hi.owner_write h he hm, hin⟩

/-- A block stays given when its owner clears it. -/
theorem Given.cleared {i : Haper} {r asked : Nat} (h : Inv cfg (S.allocated m r asked)) (hr : r ≠ 0)
    (hle : size ≤ asked) (hgiven : Given cfg S i asked m r) : Given cfg S i size (Mem.fill m r size 0) r := by
  have hlive : (⟨r, asked⟩ : Alloc) ∈ (S.allocated m r asked).live := by
    rw [State.allocated, if_neg hr]
    exact List.mem_cons_self
  have hsame : ∀ x, x < r ∨ r + asked ≤ x → Mem.fill m r size 0 x = m x := fun x hx =>
    Mem.fill_apply_ne (by omega)
  have hkeep : ∀ j ps, Partition (S.hapers j) m ps → Partition (S.hapers j) (Mem.fill m r size 0) ps := fun j ps hp =>
    partition_keep h (fun _ hq => hq.owner_write h hlive hsame) rfl rfl hp
  obtain ⟨⟨xs, n, k, rest, ys, hbefore, hafter, hptr, hk, hrest⟩, hinside, hfresh, hothers, hout, hpayloads⟩ := hgiven
  refine ⟨⟨xs, n, k, rest, ys, hbefore, hkeep i _ hafter, hptr, Nat.le_trans hle hk, hrest⟩,
    fun x h1 h2 => hinside x h1 (by omega), fun f hf x h1 h2 => (hfresh f hf x h1 h2).imp_right (by omega),
    fun j hj ps hp => hkeep j ps (hothers j hj ps hp), ?_, ?_⟩
  · intro x hx
    rw [hsame x (Decidable.byContradiction fun hin => hx (hinside x (by omega) (by omega))), hout x hx]
  · intro f hf x h1 h2
    rw [hsame x (hfresh f hf x h1 h2), hpayloads f hf x h1 h2]

/-- A failed `kzalloc` clears the bytes from address 0 on. -/
theorem kzalloc_serves (h : Inv cfg S) (hfuel : ∀ i, cfg.memory_size i + 4 ≤ fuel) (hsz : size < 2 ^ 32)
    (flags : Nat) : ∃ m r, kzalloc fuel cfg S.hapers S.mem size flags = some (m, r) ∧
      (Serves cfg S flags size m r ↔ ¬NoBlock cfg S flags size ∨ ∀ x < size, S.mem x = 0) := by
  obtain ⟨m, r, hm, ⟨rfl, rfl, hnone⟩ | ⟨hr, hblock, hle, ⟨i, hi, hgiven⟩, hinv⟩⟩ := smalloc_cases h hfuel hsz flags
  · refine ⟨Mem.fill S.mem 0 size 0, 0, by rw [kzalloc, u32_of_lt hsz, hm]; rfl, ?_⟩
    rw [or_iff_right (not_not.2 hnone)]
    constructor
    · intro hs x hx
      rw [← hs.unchanged rfl]
      exact Mem.fill_apply (Nat.zero_le x) (by omega)
    · intro hzero
      -- Clearing what is zero already writes nothing.
      refine ⟨iff_of_true rfl hnone, fun _ => ?_, fun h0 => absurd rfl h0⟩
      funext x
      by_cases hx : x < size
      · rw [hzero x hx]
        exact Mem.fill_apply (Nat.zero_le x) (by omega)
      · exact Mem.fill_apply_ne (.inr (by omega))
  · refine ⟨Mem.fill m r size 0, r, by rw [kzalloc, u32_of_lt hsz, hm]; rfl, ?_⟩
    exact iff_of_true ⟨iff_of_false hr hblock, fun hr' => absurd hr' hr, fun _ => ⟨i, hi, hgiven.cleared hinv hr hle⟩⟩
      (.inl hblock)

end Owner

/-! ## Runs -/

section Runs
variable {cfg : Config} {S S' : State} {fuel : Nat}

theorem Fitting.ask_mono {policy : Policy} {slack : Nat} {alloc : Allocator} (hf : Fitting policy slack alloc)
    (hapers : Haper → haper2) (size : Nat) (is : List Haper) (m : Mem) :
    FuelMono fun fuel => Hapers.ask_each alloc fuel hapers size is m := by
  induction is generalizing m with
  | nil => exact .const _
  | cons i is ih =>
    refine (hf.mono (hapers i) m size).bind fun r => ?_
    split
    · exact .const _
    · exact ih r.1

theorem smalloc_mono (cfg : Config) (S : State) (size flags : Nat) :
    FuelMono fun fuel => __smalloc__ fuel cfg S.hapers S.mem size flags := by
  by_cases hs : size = 0
  · subst hs
    unfold __smalloc__ __task_malloc smalloc
    simp only [if_true]
    split
    · exact .const _
    · exact .const _
  · simp only [smalloc_ask hs]
    split
    · exact first_fit_fitting.ask_mono _ _ _ _
    · exact best_fit_fitting.ask_mono _ _ _ _

theorem sfree_from_mono (hapers : List haper2) (m : Mem) (ptr : Nat) :
    FuelMono fun fuel => sfree_from fuel ptr hapers m := by
  induction hapers generalizing m with
  | nil => exact .const _
  | cons haper rest ih =>
    refine (free_haper_block_mono haper m ptr).bind fun r => ?_
    split
    · exact .const _
    · exact ih r.1

/-- Some fuel serves all heaps. -/
theorem enough_fuel (cfg : Config) : ∃ fuel, ∀ i, cfg.memory_size i + 4 ≤ fuel :=
  Finite.exists_le fun i => cfg.memory_size i + 4

theorem boot_inv (h : Boot S) : Inv cfg S := by
  refine ⟨fun i => .inl ?_, ?_⟩
  · rw [h.1 i]
    rfl
  · intro e he
    rw [h.2] at he
    cases he

/-- Every step keeps the invariant. -/
theorem inv_preserved (h : Inv cfg S) (hs : Step cfg S S') : Inv cfg S' := by
  obtain ⟨enough, hfuel⟩ := enough_fuel cfg
  cases hs with
  | init i mode hi => exact inv_init h hi mode
  | smalloc fuel size flags hsz hcall =>
    obtain ⟨m, r, hm, hcase⟩ := smalloc_cases h hfuel hsz flags
    obtain ⟨rfl, rfl⟩ := Prod.mk.inj ((smalloc_mono cfg S size flags).det hm hcall)
    rcases hcase with ⟨rfl, rfl, -⟩ | ⟨-, -, -, -, hinv⟩
    · exact h
    · exact hinv
  | sfree fuel ptr hlt hcall =>
    obtain ⟨m, hm, hinv, -⟩ := sfree_cases h hfuel hlt
    obtain rfl := (sfree_from_mono _ _ _).det hm hcall
    exact hinv
  | write e x b he hlo hhi => exact inv_owner_write h he fun y hy => Mem.set_ne (by omega)

theorem reachable_inv (h : Reachable Boot (Step cfg) S) : Inv cfg S :=
  h.inv (Inv cfg) (fun _ h0 => boot_inv h0) fun _ _ hi hs => inv_preserved hi hs

theorem Inv.live_lt (h : Inv cfg S) {e : Alloc} (he : e ∈ S.live) : e.ptr < 2 ^ 32 := by
  obtain ⟨i, ps, hi, hin⟩ := h.owned e he
  have hhigh := cfg.high i hi.room
  unfold In at hin
  omega

/-- A header stands between two allocations. -/
theorem Inv.live_apart (h : Inv cfg S) {e f : Alloc} (he : e ∈ S.live) (hf : f ∈ S.live) (hne : e.ptr ≠ f.ptr) :
    e.ptr + e.size + sizeof_memory_block ≤ f.ptr ∨ f.ptr + f.size + sizeof_memory_block ≤ e.ptr := by
  obtain ⟨i, ps, hi, hei⟩ := h.mem_view he
  obtain ⟨j, qs, hj, hfj⟩ := h.mem_view hf
  obtain ⟨-, b, n, hb, heptr, hen⟩ := hi.inv.live_fits e hei
  obtain ⟨-, c, k, hc, hfptr, hfk⟩ := hj.inv.live_fits f hfj
  obtain ⟨xs, ys, hps, hbx⟩ := mem_usedAt.1 hb
  obtain ⟨us, vs, hqs, hcu⟩ := mem_usedAt.1 hc
  dsimp only at hps hbx hqs hcu
  rw [sizeof_memory_block]
  by_cases hij : i = j
  · subst hij
    have hsame : ps = qs := partition_unique hi.partition hj.partition
    rcases split_apart (hps.symm.trans (hsame.trans hqs)) with hxu | hux | ⟨rfl, -, -⟩
    · dsimp only at hxu
      exact .inl (by omega)
    · dsimp only at hux
      exact .inr (by omega)
    · exact absurd (by omega) hne
  · -- Blocks of two heaps lie in two spaces.
    have htotal := hi.inv.total
    have htotal' := hj.inv.total
    rw [hps, span_append, span_cons] at htotal
    rw [hqs, span_append, span_cons] at htotal'
    have hapart := cfg.apart i j hij hi.room hj.room
    dsimp only at htotal htotal'
    omega

/-- No two allocations start at one address. -/
theorem Inv.live_new (h : Inv cfg S) {e : Alloc} {live : List Alloc} (hlive : S.live = e :: live) :
    ∀ f ∈ live, f.ptr ≠ e.ptr := by
  intro f hf hptr
  obtain ⟨i, ps, hi, he⟩ := h.mem_view (hlive ▸ List.mem_cons_self)
  have hin : In cfg i e.ptr := by simpa using (List.mem_filter.1 he).2
  have hnodup : ((view cfg S i).live.map (·.ptr)).Nodup := hi.inv.live_perm.nodup_iff.2 (usedAt_nodup _ _)
  have hview : (view cfg S i).live = e :: live.filter fun e => In cfg i e.ptr := by
    rw [view, hlive, List.filter_cons, if_pos (by simpa using hin)]
  rw [hview, List.map_cons, List.nodup_cons] at hnodup
  exact hnodup.1 (List.mem_map.2 ⟨f, List.mem_filter.2 ⟨hf, by simpa [hptr] using hin⟩, hptr⟩)

/-- In every state of the heaps a request is served or refused as it should, but
for a product that wraps and a cleared block there is none of. A live pointer is
freed in the heap it lives in, any other changes nothing. -/
theorem requests_served (h : Reachable Boot (Step cfg) S) (hfuel : ∀ i, cfg.memory_size i + 4 ≤ fuel) :
    (∀ size < 2 ^ 32, ∀ flags, ∃ m r, __smalloc__ fuel cfg S.hapers S.mem size flags = some (m, r) ∧
      Serves cfg S flags size m r) ∧
    (∀ n < 2 ^ 32, ∀ size < 2 ^ 32, ∀ flags, ∃ m r, kmalloc_array fuel cfg S.hapers S.mem n size flags = some (m, r) ∧
      (Serves cfg S flags (n * size) m r ↔ n * size < 2 ^ 32 ∨ NoBlock cfg S flags (u32 (n * size)))) ∧
    (∀ size < 2 ^ 32, ∀ flags, ∃ m r, kzalloc fuel cfg S.hapers S.mem size flags = some (m, r) ∧
      (Serves cfg S flags size m r ↔ ¬NoBlock cfg S flags size ∨ ∀ x < size, S.mem x = 0)) ∧
    (∀ e ∈ S.live, ∃ m, __sfree__ fuel S.hapers S.mem e.ptr = some m ∧ ∃ i, Released cfg S i e.ptr m) ∧
    ∀ ptr < 2 ^ 32, (∀ e ∈ S.live, e.ptr ≠ ptr) → __sfree__ fuel S.hapers S.mem ptr = some S.mem := by
  have hi := reachable_inv h
  refine ⟨fun size hsz flags => smalloc_serves hi hfuel hsz flags,
    fun n _ size _ flags => kmalloc_array_serves hi hfuel n size flags,
    fun size hsz flags => kzalloc_serves hi hfuel hsz flags, ?_, ?_⟩
  · intro e he
    obtain ⟨m, hm, -, ⟨hdead, -⟩ | ⟨-, i, hreleased⟩⟩ := sfree_cases hi hfuel (hi.live_lt he)
    · exact absurd rfl (hdead e he)
    · exact ⟨m, hm, i, hreleased⟩
  · intro ptr hlt hdead
    obtain ⟨m, hm, -, ⟨-, rfl⟩ | ⟨⟨e, he, hptr⟩, -⟩⟩ := sfree_cases hi hfuel hlt
    · exact hm
    · exact absurd hptr (hdead e he)

/-- A main heap of 100 bytes and no expand heaps. -/
def small_config : Config where
  space _ := 32
  memory_size i := if i = memory_haper then 100 else 0
  run_task _ := false
  low := by decide
  high := by decide
  apart := by decide

/-- The main heap set up in a memory full of ones. -/
def small_heap : State := State.initialised ⟨fun _ => expand_memory_haper, fun _ => 1, []⟩ small_config memory_haper 0

theorem small_heap_reachable : Reachable Boot (Step small_config) small_heap := by
  have hboot : Reachable Boot (Step small_config) ⟨fun _ => expand_memory_haper, fun _ => 1, []⟩ :=
    .start ⟨fun _ => rfl, rfl⟩
  exact hboot.next (.init memory_haper 0 rfl)

theorem small_fuel : ∀ i, small_config.memory_size i + 4 ≤ 104 := by decide

/-- There, 24 bytes are served, a product of 24 bytes too, and a pointer to nothing
changes nothing. -/
theorem requests_served_small :
    (∃ m r, __smalloc__ 104 small_config small_heap.hapers small_heap.mem 24 GFP_NOWAIT = some (m, r) ∧
      Serves small_config small_heap GFP_NOWAIT 24 m r) ∧
    (∃ m r, kmalloc_array 104 small_config small_heap.hapers small_heap.mem 3 8 0 = some (m, r) ∧
      Serves small_config small_heap 0 (3 * 8) m r) ∧
    __sfree__ 104 small_heap.hapers small_heap.mem 52 = some small_heap.mem := by
  obtain ⟨hmalloc, harray, -, -, hdead⟩ := requests_served small_heap_reachable small_fuel
  obtain ⟨m, r, hm, hs⟩ := harray 3 (by decide) 8 (by decide) 0
  exact ⟨hmalloc 24 (by decide) GFP_NOWAIT, ⟨m, r, hm, hs.2 (.inl (by decide))⟩, hdead 52 (by decide) (fun _ he => nomatch he)⟩

theorem small_heap_free : Partition (small_heap.hapers memory_haper) small_heap.mem [⟨80, false⟩] := ⟨3, by decide⟩

/-- In that heap `2^30 + 1` words of 4 bytes get a block of 8 bytes, and a `kzalloc` of
200 bytes, which it does not have, clears memory from address 0 on. -/
theorem wrapped_product_served : Reachable Boot (Step small_config) small_heap ∧
    (∃ m r, kmalloc_array 104 small_config small_heap.hapers small_heap.mem (2 ^ 30 + 1) 4 0 = some (m, r) ∧
      ¬Serves small_config small_heap 0 ((2 ^ 30 + 1) * 4) m r) ∧
    ∃ m r, kzalloc 104 small_config small_heap.hapers small_heap.mem 200 0 = some (m, r) ∧
      ¬Serves small_config small_heap 0 200 m r := by
  have hi := reachable_inv small_heap_reachable
  refine ⟨small_heap_reachable, ?_, ?_⟩
  · obtain ⟨m, r, hm, hs⟩ := kmalloc_array_serves hi small_fuel (2 ^ 30 + 1) 4 0
    refine ⟨m, r, hm, fun hserves => ?_⟩
    rcases hs.1 hserves with hlt | hzero | hfull
    · exact absurd hlt (by decide)
    · exact absurd hzero (by decide)
    · exact hfull memory_haper (List.mem_finRange _) _ small_heap_free ⟨80, false⟩ (List.mem_singleton_self _)
        ⟨rfl, by decide⟩
  · obtain ⟨m, r, hm, hs⟩ := kzalloc_serves hi small_fuel (by decide : 200 < 2 ^ 32) 0
    refine ⟨m, r, hm, fun hserves => ?_⟩
    obtain ⟨m', r', hm', hs'⟩ := smalloc_serves hi small_fuel (by decide : 200 < 2 ^ 32) 0
    have hnull : (__smalloc__ 104 small_config small_heap.hapers small_heap.mem 200 0).map (·.2) = some 0 := by decide
    rw [hm', Option.map_some] at hnull
    rcases hs.1 hserves with hblock | hzero
    · exact hblock (hs'.null.1 (Option.some.inj hnull))
    · exact absurd (hzero 0 (by decide)) (by decide)

end Runs

end McLinOS.Hapers
