import McLinOS.Heap.Kmalloc
/-!
# Memory pools

`mempool_create` puts a small heap of its own into a buffer from `kmalloc`;
`mempool_alloc` and `mempool_free` work on that heap through two callbacks. These
get the size, or the object, first and `pool_data` behind it.
-/
open CLib

namespace McLinOS.Heap

/-- `sizeof(mempool_t)`: eight fields of four bytes. -/
def sizeof_mempool_t : Nat := 32

/-- The callbacks given to `mempool_create`: `best_fit_alloc` and `free_haper_block`
themselves, whose first argument is the `struct haper2 *`, or functions that turn
the arguments round, as `haper_alloc` and `haper_free` do. `haper_alloc` calls a
`fast_alloc` that is defined nowhere, which is `best_fit_alloc` here. -/
inductive Callbacks where
  | direct
  | turned
  deriving DecidableEq, Repr

/-- `mempool_t`. `pool_data` is the address of `haper`. -/
structure mempool_t where
  haper : haper2
  obj_size : Nat
  min_nr : Nat
  curr_nr : Nat
  callbacks : Callbacks
  pool_data : Nat
  haper_data : Nat
  deriving DecidableEq, Repr

/-- The `struct haper2` at an address: the pool's own, or what the bytes there are as
one. -/
def mempool_t.haper2_at (pool : mempool_t) (m : Mem) (addr : Nat) : haper2 :=
  if addr = pool.pool_data then pool.haper
  else
    { mode := Mem.load 1 m addr
      space := Mem.load 4 m (addr + 4)
      memory_size := Mem.load 4 m (addr + 12)
      start_addr := Mem.load 4 m (addr + 16) }

/-- `pool->alloc(size, pool->pool_data)` -/
def mempool_t.alloc (fuel : Nat) (pool : mempool_t) (m : Mem) (size : Nat) : Option (Mem × Nat) :=
  match pool.callbacks with
  | .direct => if size = 0 then some (m, 0) else best_fit_alloc fuel (pool.haper2_at m size) m pool.pool_data
  | .turned => best_fit_alloc fuel (pool.haper2_at m pool.pool_data) m size

/-- `pool->free(obj, pool->pool_data)`, whose result is dropped. -/
def mempool_t.free (fuel : Nat) (pool : mempool_t) (m : Mem) (obj : Nat) : Option Mem :=
  match pool.callbacks with
  | .direct => if obj = 0 then some m else (free_haper_block fuel (pool.haper2_at m obj) m pool.pool_data).map (·.1)
  | .turned => (free_haper_block fuel (pool.haper2_at m pool.pool_data) m obj).map (·.1)

/-- `haper_size` of `mempool_create`, a `size_t`. -/
def haper_size (min_nr obj_size : Nat) : Nat := u32 (min_nr * u32 (obj_size + sizeof_memory_block))

/-- The loop that allocates and gives back `min_nr` objects, with `n` turns to go. -/
def preallocate (fuel : Nat) : Nat → mempool_t → Mem → Option (Mem × mempool_t)
  | 0, pool, m => some (m, pool)
  | n + 1, pool, m => (pool.alloc fuel m pool.obj_size).bind fun r =>
      if r.2 = 0 then preallocate fuel n pool r.1
      else (pool.free fuel r.1 r.2).bind fun m =>
        preallocate fuel n { pool with curr_nr := u32 (pool.curr_nr + 1) } m

/-- The `kfree` calls of the error paths. -/
def kfree_each (fuel : Nat) (memory_haper : haper2) : Mem → List Nat → Option Mem
  | m, [] => some m
  | m, ptr :: ptrs => (sfree fuel memory_haper m ptr).bind fun m => kfree_each fuel memory_haper m ptrs

/-- `kmalloc` and `kfree` are `smalloc` and `sfree` on the main heap; the size of
a `struct haper2` depends on its spinlock's. -/
def mempool_create (callbacks : Callbacks) (sizeof_haper2 fuel : Nat) (memory_haper : haper2) (m : Mem)
    (min_nr obj_size : Nat) : Option (Mem × Option mempool_t) :=
  let fail (m : Mem) (ptrs : List Nat) := (kfree_each fuel memory_haper m ptrs).map fun m => (m, none)
  (smalloc fuel memory_haper m sizeof_mempool_t).bind fun (m, pool) =>
  if pool = 0 then some (m, none)
  else (smalloc fuel memory_haper m sizeof_haper2).bind fun (m, haper) =>
  if haper = 0 then fail m [pool]
  else (smalloc fuel memory_haper m (haper_size min_nr obj_size)).bind fun (m, haper_data) =>
  if haper_data = 0 then fail m [haper, pool]
  else
    let (rc, haper2, m) := haper2_init m haper_data (haper_size min_nr obj_size) 0x00
    if rc < 0 then fail m [haper_data, haper, pool]
    else
      (preallocate fuel min_nr { haper := haper2, obj_size, min_nr, curr_nr := 0, callbacks, pool_data := haper, haper_data } m).map
        fun (m, pool) => (m, some pool)

def mempool_alloc (fuel : Nat) (pool : mempool_t) (m : Mem) : Option (mempool_t × Mem × Nat) :=
  (pool.alloc fuel m pool.obj_size).map fun (m, obj) =>
    (if obj ≠ 0 then { pool with curr_nr := u32 (pool.curr_nr + 1) } else pool, m, obj)

def mempool_free (fuel obj : Nat) (pool : mempool_t) (m : Mem) : Option (mempool_t × Mem) :=
  if obj = 0 then some (pool, m)
  else (pool.free fuel m obj).map fun m =>
    (if 0 < pool.curr_nr then { pool with curr_nr := pool.curr_nr - 1 } else pool, m)

/-! ## Runs of a pool -/

/-- A pool, the memory its heap lies in, and its outstanding objects. -/
structure PoolSys where
  pool : mempool_t
  mem : Mem
  live : List Alloc

/-- The pool's heap. -/
def PoolSys.heap (s : PoolSys) : Sys := { haper := s.pool.haper, mem := s.mem, live := s.live }

/-- Between the calls the owners write to their objects, and everyone writes to
memory outside the pool's buffer. -/
inductive PoolStep : PoolSys → PoolSys → Prop
  | alloc {s : PoolSys} (fuel : Nat) {pool : mempool_t} {m : Mem} {obj : Nat} :
      mempool_alloc fuel s.pool s.mem = some (pool, m, obj) →
      PoolStep s ⟨pool, m, (s.heap.allocated m obj s.pool.obj_size).live⟩
  | free {s : PoolSys} (fuel obj : Nat) {pool : mempool_t} {m : Mem} :
      obj < 2 ^ 32 → mempool_free fuel obj s.pool s.mem = some (pool, m) →
      PoolStep s ⟨pool, m, (s.heap.freed m obj).live⟩
  | write {s : PoolSys} (e : Alloc) (x : Nat) (b : UInt8) :
      e ∈ s.live → e.ptr ≤ x → x < e.ptr + e.size → PoolStep s { s with mem := s.mem.set x b }
  | other {s : PoolSys} (m : Mem) :
      Agree s.mem m s.pool.haper_data (s.pool.haper_data + s.pool.haper.memory_size) → PoolStep s { s with mem := m }

abbrev PoolRun (s₀ s : PoolSys) : Prop := Relation.ReflTransGen PoolStep s₀ s

/-! ## What the calls do to the partition -/

section Turned
variable {pool : mempool_t} (h : pool.callbacks = .turned) (fuel : Nat) (m : Mem)
include h

theorem mempool_t.alloc_turned (size : Nat) : pool.alloc fuel m size = best_fit_alloc fuel pool.haper m size := by
  simp [mempool_t.alloc, mempool_t.haper2_at, h]

theorem mempool_t.free_turned (obj : Nat) :
    pool.free fuel m obj = (free_haper_block fuel pool.haper m obj).map (·.1) := by
  simp [mempool_t.free, mempool_t.haper2_at, h]

end Turned

/-- A heap of `memory_size` bytes at `space` that holds `ps`, with the pool's own
fields and objects of its size. The callbacks reach that heap. -/
structure PoolInv (space memory_size min_nr obj_size : Nat) (s : PoolSys) (ps : List Part) : Prop where
  heap : Inv space memory_size s.heap ps
  turned : s.pool.callbacks = .turned
  data : s.pool.haper_data = space
  total : s.pool.haper.memory_size = memory_size
  nr : s.pool.min_nr = min_nr
  size : s.pool.obj_size = obj_size
  sizes : ∀ e ∈ s.live, e.size = obj_size

/-- The partition after a call: as before, a free block that fits put to use, or
a used block freed. -/
inductive Repartition (obj_size : Nat) : List Part → List Part → Prop
  | same (ps : List Part) : Repartition obj_size ps ps
  | alloc (xs : List Part) (n : Nat) (ys : List Part) : obj_size ≤ n →
      Repartition obj_size (xs ++ ⟨n, false⟩ :: ys) (xs ++ (allotted n obj_size minimum_size ++ ys))
  | free (xs : List Part) (n : Nat) (ys : List Part) :
      Repartition obj_size (xs ++ ⟨n, true⟩ :: ys) (freed xs n ys)

section Steps
variable {space memory_size min_nr obj_size : Nat} {s s' : PoolSys} {ps : List Part}

/-- A memory that is the same inside the space holds the same heap. -/
theorem inv_outside {s : Sys} {m : Mem} (hi : Inv space memory_size s ps)
    (hm : Agree s.mem m space (space + memory_size)) : Inv space memory_size { s with mem := m } ps := by
  have hseg : Seg m 0 space ps 0 := hi.holds.seg.congr (by rw [hi.total]; exact hm)
  exact ⟨hi.start_addr, ⟨hseg, hi.holds.nonempty, hi.holds.low, hi.holds.high⟩, hi.total, hi.coalesced, hi.pos,
    hi.live_perm, hi.live_fits⟩

theorem PoolInv.alloc {fuel obj : Nat} {pool : mempool_t} {m : Mem} (hi : PoolInv space memory_size min_nr obj_size s ps)
    (h : mempool_alloc fuel s.pool s.mem = some (pool, m, obj)) :
    ∃ ps', Repartition obj_size ps ps' ∧
      PoolInv space memory_size min_nr obj_size ⟨pool, m, (s.heap.allocated m obj s.pool.obj_size).live⟩ ps' := by
  have hsize := hi.size
  subst hsize
  obtain ⟨⟨m', obj'⟩, halloc, hr⟩ := Option.map_eq_some_iff.1 h
  rw [mempool_t.alloc_turned hi.turned] at halloc
  simp only [Prod.mk.injEq] at hr
  obtain ⟨rfl, rfl, rfl⟩ := hr
  have hsizes : ∀ e ∈ (s.heap.allocated m' obj' s.pool.obj_size).live, e.size = s.pool.obj_size := by
    intro e he
    simp only [Sys.allocated] at he
    split at he
    · exact hi.sizes e he
    · rcases List.mem_cons.1 he with rfl | he
      · exact hi.size
      · exact hi.sizes e he
  -- Only `curr_nr` of the pool changes.
  have hfields : ∀ ps', Inv space memory_size (s.heap.allocated m' obj' s.pool.obj_size) ps' →
      PoolInv space memory_size min_nr s.pool.obj_size ⟨if obj' ≠ 0 then { s.pool with curr_nr := u32 (s.pool.curr_nr + 1) }
        else s.pool, m', (s.heap.allocated m' obj' s.pool.obj_size).live⟩ ps' := by
    intro ps' hheap
    split
    · exact ⟨hheap, hi.turned, hi.data, hi.total, hi.nr, hi.size, hsizes⟩
    · exact ⟨hheap, hi.turned, hi.data, hi.total, hi.nr, hi.size, hsizes⟩
  rcases inv_best_fit hi.heap halloc with ⟨rfl, rfl⟩ | ⟨xs, n, ys, hall, hpos⟩
  · exact ⟨ps, .same ps, hfields ps (inv_null hi.heap)⟩
  · refine ⟨_, ?_, hfields _ (inv_allocated hi.heap hpos hall)⟩
    rw [hall.split]
    exact .alloc xs n ys hall.fits

theorem PoolInv.free {fuel obj : Nat} {pool : mempool_t} {m : Mem} (hi : PoolInv space memory_size min_nr obj_size s ps)
    (hlt : obj < 2 ^ 32) (h : mempool_free fuel obj s.pool s.mem = some (pool, m)) :
    ∃ ps', Repartition obj_size ps ps' ∧
      PoolInv space memory_size min_nr obj_size ⟨pool, m, (s.heap.freed m obj).live⟩ ps' := by
  have hsizes : ∀ m, ∀ e ∈ (s.heap.freed m obj).live, e.size = obj_size := fun _ e he => hi.sizes e (List.mem_filter.1 he).1
  unfold mempool_free at h
  split at h
  · rename_i hnull
    obtain ⟨rfl, rfl⟩ := Prod.mk.inj (Option.some.inj h)
    have hfree : free_haper_block fuel s.heap.haper s.heap.mem obj = some (s.heap.mem, -1) := by
      rw [free_haper_block, if_pos hnull]
    rcases inv_free hi.heap hlt hfree with ⟨-, hheap⟩ | ⟨xs, n, ys, -, hptr, -⟩
    · exact ⟨ps, .same ps, hheap, hi.turned, hi.data, hi.total, hi.nr, hi.size, hsizes s.mem⟩
    · omega
  · obtain ⟨m', hfree, hr⟩ := Option.map_eq_some_iff.1 h
    rw [mempool_t.free_turned hi.turned] at hfree
    obtain ⟨⟨m'', rc⟩, hcall, rfl⟩ := Option.map_eq_some_iff.1 hfree
    obtain ⟨rfl, rfl⟩ := Prod.mk.inj hr
    have hfields : ∀ ps', Inv space memory_size (s.heap.freed m'' obj) ps' →
        PoolInv space memory_size min_nr obj_size ⟨if 0 < s.pool.curr_nr then { s.pool with
          curr_nr := s.pool.curr_nr - 1 } else s.pool, m'', (s.heap.freed m'' obj).live⟩ ps' := by
      intro ps' hheap
      split
      · exact ⟨hheap, hi.turned, hi.data, hi.total, hi.nr, hi.size, hsizes m''⟩
      · exact ⟨hheap, hi.turned, hi.data, hi.total, hi.nr, hi.size, hsizes m''⟩
    rcases inv_free hi.heap hlt hcall with ⟨-, hheap⟩ | ⟨xs, n, ys, rfl, -, hheap⟩
    · exact ⟨ps, .same ps, hfields ps hheap⟩
    · exact ⟨_, .free xs n ys, hfields _ hheap⟩

/-- Every step keeps the invariant and repartitions the heap. -/
theorem PoolInv.step (hi : PoolInv space memory_size min_nr obj_size s ps) (hs : PoolStep s s') :
    ∃ ps', Repartition obj_size ps ps' ∧ PoolInv space memory_size min_nr obj_size s' ps' := by
  cases hs with
  | alloc fuel h => exact hi.alloc h
  | free fuel obj hlt h => exact hi.free hlt h
  | write e x b he hlo hhi =>
    have hheap := inv_write (b := b) hi.heap he hlo hhi
    exact ⟨ps, .same ps, hheap, hi.turned, hi.data, hi.total, hi.nr, hi.size, hi.sizes⟩
  | other m hm =>
    rw [hi.data, hi.total] at hm
    exact ⟨ps, .same ps, inv_outside hi.heap hm, hi.turned, hi.data, hi.total, hi.nr, hi.size, hi.sizes⟩

/-- The rule for runs: what every change of the partition keeps holds at the end. -/
theorem PoolInv.run {s₀ : PoolSys} {ps₀ : List Part} (shape : List Part → Prop)
    (hi : PoolInv space memory_size min_nr obj_size s₀ ps₀) (h0 : shape ps₀)
    (hstep : ∀ ps ps', span ps = memory_size → shape ps → Repartition obj_size ps ps' → shape ps')
    (h : PoolRun s₀ s) : ∃ ps, shape ps ∧ PoolInv space memory_size min_nr obj_size s ps := by
  induction h with
  | refl => exact ⟨ps₀, h0, hi⟩
  | tail _ hs ih =>
    obtain ⟨ps, hshape, hi⟩ := ih
    obtain ⟨ps', hr, hi'⟩ := hi.step hs
    exact ⟨ps', hstep ps ps' hi.heap.total hshape hr, hi'⟩

end Steps

end McLinOS.Heap
