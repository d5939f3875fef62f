import McLinOS.CLib.Mem
/-!
# MBR partition tables

`block/partition.c`: reading and writing the table in the first sector, and
`mbr_partition_table_format`, which makes a partition. `sector_t` is an
`unsigned long`, 32 bits wide here. The pointers the callers give are not NULL.
-/
open CLib

namespace McLinOS.Block

/-! ## Entries -/

structure mbr_partition where
  boot_ind : UInt8
  start_head : UInt8
  start_sector : UInt8
  start_cyl : UInt8
  sys_ind : UInt8
  end_head : UInt8
  end_sector : UInt8
  end_cyl : UInt8
  start_lba : UInt32
  nr_sectors : UInt32
  deriving DecidableEq, Repr

/-- A `struct partition`, of which slots 0 to 3 are used. -/
abbrev partition := Nat → mbr_partition

/-- The packed structure at `a`. -/
def mbr_partition.load (m : Mem) (a : Nat) : mbr_partition :=
  { boot_ind := m a, start_head := m (a + 1), start_sector := m (a + 2), start_cyl := m (a + 3), sys_ind := m (a + 4),
    end_head := m (a + 5), end_sector := m (a + 6), end_cyl := m (a + 7),
    start_lba := UInt32.ofNat (Mem.load 4 m (a + 8)), nr_sectors := UInt32.ofNat (Mem.load 4 m (a + 12)) }

def mbr_partition.store (m : Mem) (a : Nat) (e : mbr_partition) : Mem :=
  Mem.store 4 (Mem.store 4 (Mem.copy m a
    [e.boot_ind, e.start_head, e.start_sector, e.start_cyl, e.sys_ind, e.end_head, e.end_sector, e.end_cyl])
    (a + 8) e.start_lba.toNat) (a + 12) e.nr_sectors.toNat

def mbr_partition.empty : mbr_partition := ⟨0, 0, 0, 0, 0, 0, 0, 0, 0, 0⟩

/-! ## The table -/

def INVALID_PARTITION : UInt32 := 0xFFFFFFFF

/-- All 16 bytes of the slot are zero. -/
def check_empty_MBR_Table (partition : partition) (number : Nat) : Bool := partition number = .empty

def get_empty_MBR_Table (partition : partition) : Option Nat := (List.range 4).find? (check_empty_MBR_Table partition)

def MBR_partition_table_create (type : UInt8) (start_address size : UInt32) (flag : UInt8) : mbr_partition :=
  { boot_ind := type, start_head := 0x20, start_sector := 0x21, start_cyl := 0x00, sys_ind := flag, end_head := 0xfe,
    end_sector := 0x3f, end_cyl := 0x01, start_lba := start_address, nr_sectors := size }

def get_mbr_partition_size (partition : partition) (number : Int) : UInt32 :=
  if number < 0 ∨ number > 3 then INVALID_PARTITION
  else if check_empty_MBR_Table partition number.toNat then INVALID_PARTITION
  else (partition number.toNat).nr_sectors

def get_mbr_partition_start_address (partition : partition) (number : Int) : UInt32 :=
  if number < 0 ∨ number > 3 then INVALID_PARTITION
  else if check_empty_MBR_Table partition number.toNat then INVALID_PARTITION
  else (partition number.toNat).start_lba

def move_MBR_Table (partition : partition) (src dst : Nat) : Block.partition :=
  Function.update (Function.update partition dst (partition src)) src .empty

/-- One step of the inner loop. `state` tells which slots are in use. -/
def tidy_up_step (p : partition × (Nat → Bool)) (k : Nat) : partition × (Nat → Bool) :=
  if p.2 k = false ∧ p.2 (k + 1) = true then
    (move_MBR_Table p.1 (k + 1) k, Function.update (Function.update p.2 k true) (k + 1) false)
  else p

def tidy_up_pass (p : partition × (Nat → Bool)) (_j : Nat) : partition × (Nat → Bool) :=
  (List.range 3).foldl tidy_up_step p

def tidy_up_MBR_Table (partition : partition) : Block.partition :=
  ((List.range 3).foldl tidy_up_pass (partition, fun i => !check_empty_MBR_Table partition i)).1

/-! ## The first sector -/

/-- What the environment does in a call: whether the two `kmalloc`s give a
block (and what is in the second), and whether the two transfers are made. -/
structure Env where
  load_kmalloc : Bool
  load_transfer : Bool
  update_kmalloc : Option Mem
  update_transfer : Bool

/-- The table in the first 512 bytes of the disk. -/
def table (disk : Mem) : partition := fun i => mbr_partition.load disk (446 + 16 * i)

def mbr_partition_table_load (env : Env) (disk : Mem) : Option partition :=
  if env.load_kmalloc = false then none else if env.load_transfer = false then none else some (table disk)

/-- The sector as the second buffer holds it, over what was in the block. -/
def update_sector (data : Mem) (partition : partition) : Mem :=
  let data := (List.range 4).foldl (fun data i => (partition i).store data (446 + 16 * i)) data
  (data.set 0x01FE 0x55).set 0x01FF 0xAA

/-- Returns -1 where it wrote the sector and 0 where it did not. -/
def mbr_partition_table_update (env : Env) (disk : Mem) (partition : partition) : Int × Mem :=
  match env.update_kmalloc with
  | none => (-1, disk)
  | some data =>
    if env.update_transfer = false then (0, disk)
    else (-1, Mem.copy disk 0 (Mem.bytes (update_sector data partition) 0 512))

/-! ## Making a partition -/

/-- The second field of a `struct block_device`. -/
def bd_nr_sectors (device : Mem) : UInt32 := UInt32.ofNat (Mem.load 4 device 4)

/-- The memory at `device`, taken for a `struct partition`: its table is behind
996 bytes of GPT data (`u64` has 4 bytes), past the end of the `struct block_device`. -/
def as_partition (device : Mem) : partition := fun i => mbr_partition.load device (996 + 16 * i)

/-- The new start and end of the free range before slot `number` is filled, or
`none` where the disk is too small. The slot behind is looked up in `device`. -/
def free_range (device : Mem) (partition : partition) (number : Int) : Option (UInt32 × UInt32) :=
  let last_address :=
    if number - 1 ≥ 0 then get_mbr_partition_start_address partition (number - 1) else INVALID_PARTITION
  if last_address = INVALID_PARTITION ∧ bd_nr_sectors device < 2048 then none
  else
    let start_address :=
      if last_address = INVALID_PARTITION then 2048
      else last_address + get_mbr_partition_size partition (number - 1)
    let start_address := if start_address % 8 > 0 then start_address - start_address % 8 + 8 else start_address
    let end_address :=
      if number + 1 < 4 then get_mbr_partition_start_address (as_partition device) (number + 1) else INVALID_PARTITION
    let end_address := if end_address = INVALID_PARTITION then bd_nr_sectors device - 33 - 1 else end_address
    some (start_address, end_address)

/-- What the function returns and the disk behind it. The result of the update
is not looked at. -/
def mbr_partition_table_format (env : Env) (device disk : Mem) (size : UInt32) (type : UInt8) : Int × Mem :=
  match mbr_partition_table_load env disk with
  | none => (-1, disk)
  | some partition =>
    let size := size / 8 * 8
    match get_empty_MBR_Table partition with
    | none => (-1, disk)
    | some number =>
      match free_range device partition number with
      | none => (-1, disk)
      | some (start_address, end_address) =>
        if end_address < start_address then (-1, disk)
        else
          let size := if end_address ≤ start_address + size then end_address - start_address else size
          if size = 0 then (-1, disk)
          else
            let partition :=
              Function.update partition number (MBR_partition_table_create 0x00 start_address size type)
            (0, (mbr_partition_table_update env disk (tidy_up_MBR_Table partition)).2)

/-! ## Sound tables -/

/-- The sectors of `a` and of `b` are apart. -/
def mbr_partition.Apart (a b : mbr_partition) : Prop :=
  ∀ x, ¬((a.start_lba.toNat ≤ x ∧ x < a.start_lba.toNat + a.nr_sectors.toNat) ∧
    b.start_lba.toNat ≤ x ∧ x < b.start_lba.toNat + b.nr_sectors.toNat)

/-- The entries in use, in slot order. -/
def entries (partition : partition) : List mbr_partition :=
  ((List.range 4).map partition).filter (· ≠ .empty)

/-- The entry lies inside the sectors from 1 to `nr_sectors - 34`. -/
def mbr_partition.Inside (nr_sectors : Nat) (e : mbr_partition) : Prop :=
  1 ≤ e.start_lba.toNat ∧ e.start_lba.toNat + e.nr_sectors.toNat + 33 ≤ nr_sectors

def Sound (nr_sectors : Nat) (partition : partition) : Prop :=
  (∀ e ∈ entries partition, e.Inside nr_sectors) ∧ (entries partition).Pairwise mbr_partition.Apart

/-- One entry `e` is added to a table, for a request of `size` sectors. -/
structure Added (nr_sectors size : Nat) (old new : partition) (e : mbr_partition) : Prop where
  entries : (entries new).Perm (e :: entries old)
  aligned : e.start_lba.toNat % 8 = 0
  start : 2048 ≤ e.start_lba.toNat
  positive : 0 < e.nr_sectors.toNat
  size : e.nr_sectors.toNat ≤ size / 8 * 8
  apart : ∀ o ∈ Block.entries old, e.Apart o
  inside : e.Inside nr_sectors

end McLinOS.Block
