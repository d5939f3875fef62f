import McLinOS.Heap.Policy
/-!
# The heaps of `haper.c`

Seven heaps share one memory. Each has a space of its own and is a zeroed struct
until `haper2_init` sets it up there. `smalloc` asks them in the order of
`hapers[]`, `__task_malloc` asks the expand heaps the configuration allows and
then the main heap, and `sfree` offers the pointer to all of them.
-/
open CLib McLinOS.Heap

namespace McLinOS.Hapers

/-! ## haper.c -/

/-- An index of `hapers[]`: six expand heaps, then the main one. -/
abbrev Haper := Fin 7

abbrev haper_count : Nat := 7
def memory_haper : Haper := 6

/-- `__GFP_KSWAPD_RECLAIM | __GFP_NOWARN`. -/
def GFP_NOWAIT : Nat := 0x2800

/-- The configured space of each heap, and the `CONFIG_EXPAND_HEAP_n` switches that
let tasks run in it. Spaces that can hold a heap lie apart. -/
structure Config where
  space : Haper → Nat
  memory_size : Haper → Nat
  run_task : Haper → Bool
  low : ∀ i, sizeof_memory_block ≤ memory_size i → 32 ≤ space i
  high : ∀ i, sizeof_memory_block ≤ memory_size i → space i + memory_size i ≤ 2 ^ 32
  apart : ∀ i j, i ≠ j → sizeof_memory_block ≤ memory_size i → sizeof_memory_block ≤ memory_size j →
    space i + memory_size i ≤ space j ∨ space j + memory_size j ≤ space i

/-- An allocator of `mempool_super_haper.h`. -/
abbrev Allocator := Nat → haper2 → Mem → Nat → Option (Mem × Nat)

/-- Asks the heaps of `is` in turn until one gives a block. -/
def ask_each (alloc : Allocator) (fuel : Nat) (hapers : Haper → haper2) (use_memory_size : Nat) :
    List Haper → Mem → Option (Mem × Nat)
  | [], m => some (m, 0)
  | i :: is, m => (alloc fuel (hapers i) m use_memory_size).bind fun r =>
      if r.2 ≠ 0 then some r else ask_each alloc fuel hapers use_memory_size is r.1

/-- `(size + 3) & ~3`. -/
def task_memory_size (size : Nat) : Nat := u32 (size + 3) / 4 * 4

/-- The heaps that stand in `__task_malloc` under the configuration. -/
def task_hapers (cfg : Config) : List Haper := (List.finRange haper_count).filter fun i => i = memory_haper ∨ cfg.run_task i

def smalloc (fuel : Nat) (hapers : Haper → haper2) (m : Mem) (size : Nat) : Option (Mem × Nat) :=
  if size = 0 then some (m, 0)
  else ask_each best_fit_alloc fuel hapers (use_memory_size size) (List.finRange haper_count) m

set_option linter.style.nameCheck false in
def __task_malloc (fuel : Nat) (cfg : Config) (hapers : Haper → haper2) (m : Mem) (size : Nat) : Option (Mem × Nat) :=
  if size = 0 then some (m, 0) else ask_each first_fit_alloc fuel hapers (task_memory_size size) (task_hapers cfg) m

set_option linter.style.nameCheck false in
def __smalloc__ (fuel : Nat) (cfg : Config) (hapers : Haper → haper2) (m : Mem) (size flags : Nat) :
    Option (Mem × Nat) :=
  if flags = GFP_NOWAIT then __task_malloc fuel cfg hapers m size else smalloc fuel hapers m size

set_option linter.style.nameCheck false in
def __sfree__ (fuel : Nat) (hapers : Haper → haper2) (m : Mem) (addr : Nat) : Option Mem :=
  sfree_from fuel addr ((List.finRange haper_count).map hapers) m

/-! ## slab.h -/

def kmalloc (fuel : Nat) (cfg : Config) (hapers : Haper → haper2) (m : Mem) (size flags : Nat) : Option (Mem × Nat) :=
  __smalloc__ fuel cfg hapers m (u32 size) flags

/-- The product of two `size_t` is taken in 32 bits. -/
def kmalloc_array (fuel : Nat) (cfg : Config) (hapers : Haper → haper2) (m : Mem) (n size flags : Nat) :
    Option (Mem × Nat) :=
  kmalloc fuel cfg hapers m (u32 (n * size)) flags

/-- `memset` runs whether or not there is a block. -/
def kzalloc (fuel : Nat) (cfg : Config) (hapers : Haper → haper2) (m : Mem) (size flags : Nat) : Option (Mem × Nat) :=
  (__smalloc__ fuel cfg hapers m (u32 size) flags).map fun r => (Mem.fill r.1 r.2 size 0, r.2)

/-! ## Runs -/

structure State where
  hapers : Haper → haper2
  mem : Mem
  live : List Alloc

/-- The size a heap is asked for when `size` bytes are requested. -/
def asked (flags size : Nat) : Nat := if flags = GFP_NOWAIT then task_memory_size size else use_memory_size size

def State.initialised (S : State) (cfg : Config) (i : Haper) (mode : Nat) : State :=
  let r := haper2_init S.mem (cfg.space i) (cfg.memory_size i) mode
  { S with hapers := Function.update S.hapers i r.2.1, mem := r.2.2 }

/-- After an allocation that returned `r`. -/
def State.allocated (S : State) (m : Mem) (r size : Nat) : State :=
  { S with mem := m, live := if r = 0 then S.live else ⟨r, size⟩ :: S.live }

def State.freed (S : State) (m : Mem) (ptr : Nat) : State :=
  { S with mem := m, live := S.live.filter fun e => e.ptr ≠ ptr }

/-- The heaps are set up once each, in any order and between any other calls. -/
inductive Step (cfg : Config) : State → State → Prop
  | init {S : State} (i : Haper) (mode : Nat) :
      (S.hapers i).start_addr = 0 → Step cfg S (S.initialised cfg i mode)
  | smalloc {S : State} (fuel size flags : Nat) {m : Mem} {r : Nat} :
      size < 2 ^ 32 → __smalloc__ fuel cfg S.hapers S.mem size flags = some (m, r) →
      Step cfg S (S.allocated m r (asked flags size))
  | sfree {S : State} (fuel ptr : Nat) {m : Mem} :
      ptr < 2 ^ 32 → __sfree__ fuel S.hapers S.mem ptr = some m → Step cfg S (S.freed m ptr)
  | write {S : State} (e : Alloc) (x : Nat) (b : UInt8) :
      e ∈ S.live → e.ptr ≤ x → x < e.ptr + e.size → Step cfg S { S with mem := S.mem.set x b }

/-- Before any heap is set up. -/
def Boot (S : State) : Prop := (∀ i, S.hapers i = expand_memory_haper) ∧ S.live = []

end McLinOS.Hapers
