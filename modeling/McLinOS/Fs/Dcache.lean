import McLinOS.Heap.Kmalloc
/-!
# Names of directory entries

`dentry_rename` and `__d_alloc` of `fs/dcache.c` on the bytes of the kernel
heap. A call keeps, next to the heap, the buffers `kmalloc` gave it and the
writes it made itself.
-/
open CLib McLinOS.Heap

set_option linter.style.nameCheck false

namespace McLinOS.Dcache

/-! ## Layout -/

def sizeof_dentry : Nat := 124
def DNAME_INLINE_LEN : Nat := 44
def ENOMEM : Int := 12
def MAX_ERRNO : Int := 4095

def d_name_len (m : Mem) (d : Nat) : Nat := Mem.load 4 m (d + 20)
def d_name_name (m : Mem) (d : Nat) : Nat := Mem.load 4 m (d + 24)
def d_iname (d : Nat) : Nat := d + 28

/-- A NUL-terminated string that is not empty: its bytes before the NUL. -/
structure Name where
  bytes : List UInt8
  nonempty : bytes ≠ []
  no_nul : 0 ∉ bytes

def strlen (name : Name) : Nat := name.bytes.length

/-! ## A call in progress -/

/-- A write of the call itself: memory before and after, and where. -/
structure Write where
  before : Mem
  after : Mem
  addr : Nat
  len : Nat

/-- `blocks` are the buffers `kmalloc` returned, each with the bytes its block
has behind the header. `writes` has the latest write first. -/
structure Ctx where
  sys : Sys
  blocks : List (Nat × Nat)
  writes : List Write

def Ctx.enter (s : Sys) : Ctx := ⟨s, [], []⟩

def Ctx.write (c : Ctx) (addr len : Nat) (m : Mem) : Ctx :=
  { c with sys := { c.sys with mem := m }, writes := ⟨c.sys.mem, m, addr, len⟩ :: c.writes }

/-- Store a 32-bit field. -/
def Ctx.set (c : Ctx) (addr v : Nat) : Ctx := c.write addr 4 (Mem.store 4 c.sys.mem addr v)

def memset (c : Ctx) (addr : Nat) (b : UInt8) (n : Nat) : Ctx := c.write addr n (Mem.fill c.sys.mem addr n b)

/-- The string and its NUL. -/
def strcpy (c : Ctx) (dest : Nat) (name : Name) : Ctx :=
  c.write dest (strlen name + 1) (Mem.copy c.sys.mem dest (name.bytes ++ [0]))

def kmalloc (fuel : Nat) (c : Ctx) (size : Nat) : Option (Nat × Ctx) :=
  (smalloc fuel c.sys.haper c.sys.mem (u32 size)).map fun r =>
    (r.2, { c with
      sys := c.sys.allocated r.1 r.2 (use_memory_size (u32 size))
      blocks := if r.2 = 0 then c.blocks else (r.2, block_size r.1 (r.2 - sizeof_memory_block)) :: c.blocks })

def kfree (fuel : Nat) (c : Ctx) (ptr : Nat) : Option Ctx :=
  (sfree fuel c.sys.haper c.sys.mem ptr).map fun m => { c with sys := c.sys.freed m ptr }

/-! ## dcache.c -/

def d_name_inline (m : Mem) (d : Nat) : Prop := d_name_name m d = d_iname d

instance (m : Mem) (d : Nat) : Decidable (d_name_inline m d) := inferInstanceAs (Decidable (_ = _))

/-- `dentry_rename` behind its first copy: the name goes into the dentry if it
fits there, otherwise the copy replaces the old name. -/
def set_name (fuel d new_name : Nat) (name : Name) (c : Ctx) : Option (Int × Ctx) :=
  let new_name_length := strlen name
  if (d_name_inline c.sys.mem d ∨ d_name_name c.sys.mem d = 0) ∧ new_name_length + 1 < DNAME_INLINE_LEN then
    (kfree fuel c new_name).bind fun c =>
      some (0, (strcpy (c.set (d + 24) (d_iname d)) (d_iname d) name).set (d + 20) new_name_length)
  else
    (if d_name_name c.sys.mem d ≠ 0 ∧ ¬d_name_inline c.sys.mem d then kfree fuel c (d_name_name c.sys.mem d)
      else some c).bind fun c => some (0, (c.set (d + 20) new_name_length).set (d + 24) new_name)

/-- The name is a string in memory, so it is not `NULL`. `new_name_length` is an
`int`: a free block of that size next to the string leaves it below `2^31`. -/
def dentry_rename (fuel d : Nat) (name : Name) (c : Ctx) : Option (Int × Ctx) :=
  if d = 0 then some (-1, c)
  else (kmalloc fuel c (strlen name)).bind fun r =>
    if r.1 = 0 then some (-ENOMEM, r.2) else set_name fuel d r.1 name (strcpy r.2 r.1 name)

/-- `IS_ERR` of a small negative `int` or of an address. -/
def IS_ERR (x : Int) : Prop := -MAX_ERRNO ≤ x ∧ x < 0

instance (x : Int) : Decidable (IS_ERR x) := inferInstanceAs (Decidable (_ ∧ _))

/-- `INIT_HLIST_HEAD`, `INIT_HLIST_NODE`, `spin_lock_init` and `d_sb`, in this order. -/
def init_dentry (dentry sb : Nat) (c : Ctx) : Ctx :=
  ((((c.set dentry 0).set (dentry + 8) 0).set (dentry + 12) 0).set (dentry + 108) 0).set (dentry + 80) sb

def __d_alloc (fuel sb : Nat) (name : Name) (c : Ctx) : Option (Int × Ctx) :=
  (kmalloc fuel c sizeof_dentry).bind fun r =>
    let dentry := r.1
    if dentry = 0 then some (-ENOMEM, r.2)
    else (dentry_rename fuel dentry name (memset r.2 dentry 0 sizeof_dentry)).bind fun r =>
      if IS_ERR r.1 then (kfree fuel r.2 dentry).bind fun c => some (-ENOMEM, c)
      else some (dentry, init_dentry dentry sb r.2)

/-! ## What a call may do -/

/-- The two calls. -/
inductive Call where
  | dentry_rename (d : Nat) (name : Name)
  | __d_alloc (sb : Nat) (name : Name)

def Call.run (fuel : Nat) (s : Sys) : Call → Option (Int × Ctx)
  | .dentry_rename d name => Dcache.dentry_rename fuel d name (.enter s)
  | .__d_alloc sb name => Dcache.__d_alloc fuel sb name (.enter s)

/-- The block at `b` is in use and has `n` bytes. -/
def Used (s : Sys) (b n : Nat) : Prop := ∃ ps, Partition s.haper s.mem ps ∧ (b, n) ∈ usedAt s.haper.start_addr ps

/-- `d` is a `struct dentry` from the heap. Its name is missing, inline, or an
allocation of its own. -/
structure IsDentry (s : Sys) (d : Nat) : Prop where
  block : ∃ b n, Used s b n ∧ d = b + 20 ∧ sizeof_dentry ≤ n
  name : d_name_name s.mem d = 0 ∨ d_name_inline s.mem d ∨
    ∃ b n, Used s b n ∧ d_name_name s.mem d = b + 20 ∧ b + 20 ≠ d

/-- The string lies outside the free blocks of the 32-bit address space. -/
def Beside (s : Sys) (name : Name) : Prop :=
  ∀ ps, Partition s.haper s.mem ps → ∀ p ∈ ps, p.used = false → strlen name + 1 + (20 + p.size) ≤ 2 ^ 32

def Call.Valid (s : Sys) : Call → Prop
  | .dentry_rename d name => IsDentry s d ∧ Beside s name
  | .__d_alloc _ name => Beside s name

def InBuffer (buffers : List (Nat × Nat)) (addr len : Nat) : Prop :=
  ∃ e ∈ buffers, e.1 ≤ addr ∧ addr + len ≤ e.1 + e.2

/-- The buffers a call owns from the start. -/
def Call.own : Call → List (Nat × Nat)
  | .dentry_rename d _ => [(d, sizeof_dentry)]
  | .__d_alloc _ _ => []

/-- The allocations that belong to the call's dentry. -/
def Call.mine (s : Sys) : Call → List Nat
  | .dentry_rename d _ => [d, d_name_name s.mem d]
  | .__d_alloc _ _ => []

/-- The call `c` that began in `s` wrote only to its own buffers, and no header.
The blocks of others are in use as before, with their bytes. Blocks in use now
were in use before or came from `kmalloc`, and the heap is well formed. -/
structure Isolates (space memory_size : Nat) (s : Sys) (own : List (Nat × Nat)) (mine : List Nat) (c : Ctx) : Prop where
  writes : ∀ w ∈ c.writes, InBuffer (own ++ c.blocks) w.addr w.len ∧
    ∃ ps, Partition s.haper w.before ps ∧ Partition s.haper w.after ps
  others : ∀ b n, Used s b n → b + 20 ∉ mine → Used c.sys b n ∧ Agree s.mem c.sys.mem (b + 20) (b + 20 + n)
  fresh : ∀ b n, Used c.sys b n → Used s b n ∨ b + 20 ∈ c.blocks.map (·.1)
  heap : ∃ bs, Tiles c.sys.haper c.sys.mem space memory_size bs ∧ Isolated c.sys.live space memory_size bs

structure Named (s : Sys) (d : Nat) (name : Name) : Prop where
  dentry : IsDentry s d
  len : d_name_len s.mem d = strlen name
  bytes : Mem.bytes s.mem (d_name_name s.mem d) (strlen name + 1) = name.bytes ++ [0]

/-- What a successful call promises of the dentry. -/
def Call.Done (s : Sys) (ret : Int) : Call → Prop
  | .dentry_rename d name => ret = 0 → Named s d name
  | .__d_alloc _ name => ¬IS_ERR ret → ∃ d : Nat, ret = d ∧ Named s d name

def Call.Safe (space memory_size : Nat) (s : Sys) (call : Call) : Prop :=
  ∃ fuel ret c, call.run fuel s = some (ret, c) ∧ Isolates space memory_size s call.own (call.mine s) c ∧
    call.Done c.sys ret

/-! ## When the name fits -/

/-- The copy of a name whose length is no multiple of 8 has room for the NUL in
the rounding. Otherwise the block must be larger than asked for, by too little
to be split. -/
def NameFits (name : Name) (ps : List Part) : Prop :=
  8 ∣ strlen name → ∀ xs n ys, BestFit (strlen name) ps xs n ys →
    strlen name < n ∧ n < strlen name + sizeof_memory_block + minimum_size

/-- `__d_alloc` copies the name after the dentry has got its block. -/
def Call.Fits (ps : List Part) : Call → Prop
  | .dentry_rename _ name => NameFits name ps
  | .__d_alloc _ name => ∀ xs n ys, BestFit (use_memory_size sizeof_dentry) ps xs n ys →
      NameFits name (xs ++ (allotted n (use_memory_size sizeof_dentry) minimum_size ++ ys))

/-- The kernel at work: calls of others and writes to what they own, and calls
whose name fits. -/
inductive KStep : Sys → Sys → Prop
  | heap {s s' : Sys} : Step s s' → KStep s s'
  | call {s : Sys} (call : Call) (fuel : Nat) {ps : List Part} {ret : Int} {c : Ctx} :
      call.Valid s → Partition s.haper s.mem ps → call.Fits ps → call.run fuel s = some (ret, c) → KStep s c.sys

end McLinOS.Dcache
