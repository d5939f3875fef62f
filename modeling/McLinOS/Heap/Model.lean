import McLinOS.CLib.Loop
import McLinOS.CLib.Mem
/-!
# The heap of `mempool_super_haper.h`

Block headers live in the memory they describe, so the model works on bytes:
every field access is a load or a store at the block's address. Pointers,
`size_t` and `count_t` are 32-bit values, `0` is `NULL`. The functions take
`haper->lock` around their bodies, so each of them is one step of the heap.
-/
open CLib

namespace McLinOS.Heap

/-- `sizeof(struct memory_block)`: `flag` at 0, `magic` at 2, `owner` at 4,
`block_size` at 8, `next` at 12, `priv_block` at 16. -/
def sizeof_memory_block : Nat := 20

def minimum_size : Nat := 8
def BASE_MAGIC : Nat := 0xABCD
def use_flag : Nat := 0x01

/-- `struct haper2` without its lock. -/
structure haper2 where
  mode : Nat
  space : Nat
  memory_size : Nat
  start_addr : Nat
  deriving DecidableEq, Repr

/-! ## Header fields -/

def flag (m : Mem) (block : Nat) : Nat := Mem.load 1 m block
def magic (m : Mem) (block : Nat) : Nat := Mem.load 2 m (block + 2)
def block_size (m : Mem) (block : Nat) : Nat := Mem.load 4 m (block + 8)
def next (m : Mem) (block : Nat) : Nat := Mem.load 4 m (block + 12)
def priv_block (m : Mem) (block : Nat) : Nat := Mem.load 4 m (block + 16)

def set_flag (m : Mem) (block v : Nat) : Mem := Mem.store 1 m block v
def set_magic (m : Mem) (block v : Nat) : Mem := Mem.store 2 m (block + 2) v
def set_block_size (m : Mem) (block v : Nat) : Mem := Mem.store 4 m (block + 8) v
def set_next (m : Mem) (block v : Nat) : Mem := Mem.store 4 m (block + 12) v
def set_priv_block (m : Mem) (block v : Nat) : Mem := Mem.store 4 m (block + 16) v

/-- `flag &= ~status`, the complement taken in a byte. -/
def reset_block_status (m : Mem) (block status : Nat) : Mem := set_flag m block (flag m block &&& (255 - status))

def set_block_status (m : Mem) (block status : Nat) : Mem := set_flag m block (flag m block ||| status)

def get_block_status (m : Mem) (block status : Nat) : Nat := if flag m block &&& status ≠ 0 then 1 else 0

def get_next_block (m : Mem) (block : Nat) : Nat := next m block
def get_priv_block (m : Mem) (block : Nat) : Nat := priv_block m block
def get_block_size (m : Mem) (block : Nat) : Nat := block_size m block

/-- `length` is an `int`: from `2^31` on it is negative and nothing is cleared. -/
def clean_block (m : Mem) (block : Nat) : Mem :=
  if block = 0 then m
  else
    let length := u32 (sizeof_memory_block + block_size m block)
    if length < 2 ^ 31 then Mem.fill m block length 0 else m

/-! ## Initialisation -/

def haper2_init (m : Mem) (space space_size mode : Nat) : Int × haper2 × Mem :=
  if space_size < sizeof_memory_block then (-1, { mode := 0, space := 0, memory_size := 0, start_addr := 0 }, m)
  else
    let rootblock := space
    let m := set_block_size m rootblock (u32sub space_size sizeof_memory_block)
    let m := set_magic m rootblock BASE_MAGIC
    let m := reset_block_status m rootblock use_flag
    let m := set_priv_block m rootblock 0
    let m := set_next m rootblock 0
    (0, { mode, space, memory_size := space_size, start_addr := rootblock }, m)

/-! ## Splitting and merging -/

def incise_free_block (m : Mem) (father_block size : Nat) : Mem × Nat :=
  if father_block = 0 ∨ size = 0 then (m, 0)
  else if get_block_size m father_block < u32 (size + sizeof_memory_block) then (m, 0)
  else if get_block_status m father_block use_flag = 1 then (m, 0)
  else
    let memory_offset := u32 (sizeof_memory_block + size)
    let newblock := u32 (father_block + memory_offset)
    let m := set_block_size m newblock (u32sub (block_size m father_block) memory_offset)
    let m := set_block_size m father_block size
    let m := reset_block_status m newblock use_flag
    let m := set_next m newblock (next m father_block)
    let m := set_magic m newblock BASE_MAGIC
    let m := if next m father_block ≠ 0 then set_priv_block m (next m father_block) newblock else m
    let m := set_next m father_block newblock
    let m := set_priv_block m newblock father_block
    (m, father_block)

/-- Merges `block` with its free predecessor or else with its free successor,
and returns the block that now covers it. -/
def free_block (m : Mem) (block : Nat) : Mem × Nat :=
  if block = 0 then (m, 0)
  else
    let priv := get_priv_block m block
    let nxt := get_next_block m block
    let m := reset_block_status m block use_flag
    if priv ≠ 0 ∧ get_block_status m priv use_flag = 0 then
      let m := set_block_size m priv (u32 (block_size m priv + u32 (sizeof_memory_block + block_size m block)))
      let m := set_next m priv nxt
      let m := if nxt ≠ 0 then set_priv_block m nxt priv else m
      let m := clean_block m block
      (m, priv)
    else if nxt ≠ 0 ∧ get_block_status m nxt use_flag = 0 then
      let m := set_block_size m block (u32 (block_size m block + u32 (sizeof_memory_block + block_size m nxt)))
      let m := set_next m block (next m nxt)
      let m := if next m nxt ≠ 0 then set_priv_block m (next m nxt) block else m
      let m := clean_block m nxt
      (m, block)
    else (m, block)

/-- The merge loop of `free_memory`: the local `block_size` is the size seen in
the turn before. -/
def free_memory_body : Mem × Nat × Nat → ControlFlow (Mem × Nat × Nat) Mem
  | (m, size, new_block) =>
    if size = block_size m new_block then .done m
    else .cont ((free_block m new_block).1, block_size m new_block, (free_block m new_block).2)

def free_memory (fuel : Nat) (m : Mem) (block : Nat) : Option Mem :=
  if block = 0 then some m else loop free_memory_body fuel (m, 0, block)

/-! ## Walking the blocks -/

/-- Calls `operation` on each block until it returns 0. -/
def memory_block_laterator {δ : Type} (fuel : Nat) (haper : haper2) (m : Mem) (operation : Nat → δ → Nat × δ)
    (data : δ) : Option δ :=
  loop (fun (c : Nat × δ) =>
    if c.1 = 0 then .done c.2
    else
      let r := operation c.1 c.2
      if r.1 = 0 then .done r.2 else .cont (next m c.1, r.2)) fuel (haper.start_addr, data)

/-! ## Allocation -/

/-- One turn of the search in `best_fit_alloc`; `best_block` is 0 until a block
fits. -/
def best_fit_body (m : Mem) (size : Nat) : Nat × Nat → ControlFlow (Nat × Nat) Nat
  | (curr, best_block) =>
    if curr = 0 then .done best_block
    else if get_block_status m curr use_flag = 0 ∧ size ≤ block_size m curr ∧
        (best_block = 0 ∨ block_size m curr ≤ block_size m best_block) then
      .cont (next m curr, curr)
    else .cont (next m curr, best_block)

/-- One turn of the search in `first_fit_alloc`, which breaks at the first
block that fits. -/
def first_fit_body (m : Mem) (size : Nat) : Nat × Nat → ControlFlow (Nat × Nat) Nat
  | (curr, best_block) =>
    if curr = 0 then .done best_block
    else if get_block_status m curr use_flag = 0 ∧ size ≤ block_size m curr ∧
        (best_block = 0 ∨ block_size m curr < block_size m best_block) then
      .done curr
    else .cont (next m curr, best_block)

/-- What both allocators do with the block they found: split it when the
remainder holds a header and `slack` more bytes, mark it used, return the
address behind its header. -/
def use_block (m : Mem) (best_block size slack : Nat) : Mem × Nat :=
  if best_block = 0 then (m, 0)
  else
    let m := if u32 (size + sizeof_memory_block + slack) ≤ block_size m best_block then
      (incise_free_block m best_block size).1 else m
    (set_block_status m best_block use_flag, u32 (best_block + sizeof_memory_block))

def best_fit_alloc (fuel : Nat) (haper : haper2) (m : Mem) (size : Nat) : Option (Mem × Nat) :=
  if size = 0 then some (m, 0)
  else
    (loop (best_fit_body m size) fuel (haper.start_addr, 0)).bind fun best_block =>
      some (use_block m best_block size minimum_size)

def first_fit_alloc (fuel : Nat) (haper : haper2) (m : Mem) (size : Nat) : Option (Mem × Nat) :=
  if size = 0 then some (m, 0)
  else
    (loop (first_fit_body m size) fuel (haper.start_addr, 0)).bind fun best_block =>
      some (use_block m best_block size 0)

/-! ## Freeing -/

/-- The operation of `free_haper_block`'s walk; its data is `struct get_block`,
the address looked for and the block found. -/
def get_block (block : Nat) (arg : Nat × Nat) : Nat × (Nat × Nat) :=
  if block = 0 then (0, arg)
  else if u32 (block + sizeof_memory_block) = arg.1 then (0, (arg.1, block))
  else (1, arg)

def free_haper_block (fuel : Nat) (haper : haper2) (m : Mem) (ptr : Nat) : Option (Mem × Int) :=
  if ptr = 0 then some (m, -1)
  else
    (memory_block_laterator fuel haper m get_block (ptr, 0)).bind fun data =>
      if data.2 = 0 then some (m, -1) else (free_memory fuel m data.2).bind fun m => some (m, 0)

end McLinOS.Heap
