import McLinOS.Block.Partition
import McLinOS.Block.W25qxxRuns
/-!
# Bios of a partition

`block/bio.c` and `block/add_disk.c`: the block devices of the partitions, and the
request that `submit_bio_wait` makes of a bio and hands to the w25qxx driver.
-/
open CLib

set_option linter.style.nameCheck false

namespace McLinOS.Bio

open Block

/-! ## The block devices -/

structure block_device where
  bd_start_sect : UInt32
  bd_nr_sectors : UInt32
  deriving DecidableEq, Repr

def mbr_partiton_startaddress : Nat := 0x01
def mbr_partiton_size : Nat := 0x02
def mbr_partiton_magic : Nat := 0x03

def get_mbr_partition_type (partition : partition) (number : Int) : UInt8 :=
  if number < 0 ∨ number > 3 then 0xff
  else if check_empty_MBR_Table partition number.toNat then 0xff
  else (partition number.toNat).sys_ind

def get_partiton_data (partition : partition) (number : Int) (flag : Nat) : UInt32 :=
  if flag = mbr_partiton_startaddress then get_mbr_partition_start_address partition number
  else if flag = mbr_partiton_size then get_mbr_partition_size partition number
  else if flag = mbr_partiton_magic then (get_mbr_partition_type partition number).toUInt32
  else 0

/-- The device of slot `number`, or `none` where the slot is empty or `kmalloc`
gives nothing. -/
def add_mbr_son_disk (kmalloc : Bool) (partition : partition) (number : Nat) : Option block_device :=
  if kmalloc = false then none
  else if check_empty_MBR_Table partition number then none
  else
    some { bd_start_sect := get_partiton_data partition number mbr_partiton_startaddress
           bd_nr_sectors := get_partiton_data partition number mbr_partiton_size }

/-- The loop over the slots stops at the first that gives no device. -/
def add_son_disks (kmalloc : Nat → Bool) (partition : partition) : List Nat → List block_device
  | [] => []
  | i :: slots =>
    match add_mbr_son_disk (kmalloc i) partition i with
    | none => []
    | some dev => dev :: add_son_disks kmalloc partition slots

def register_son_disk (kmalloc : Nat → Bool) (partition : partition) : List block_device :=
  add_son_disks kmalloc partition (List.range 4)

/-! ## Bios -/

def PAGE_SIZE : UInt32 := 4096

/-- `bv_page` is the address of the page. -/
structure bio_vec where
  bv_page : Nat
  bv_len : UInt32
  bv_offset : UInt32
  deriving DecidableEq, Repr

/-- `bi_vcnt` is the length of `bi_io_vec`, `write` what `op_is_write` says. -/
structure bio where
  write : Bool
  bi_sector : UInt32
  bi_size : UInt32
  bi_max_vecs : UInt16
  bi_io_vec : List bio_vec
  deriving DecidableEq, Repr

def bio_alloc (nr_iovecs : UInt16) (write : Bool) : bio :=
  { write, bi_sector := 0, bi_size := 0, bi_max_vecs := nr_iovecs, bi_io_vec := [] }

/-- A `NULL` page is `none`, and so is `-ENOMEM`. -/
def __bio_add_page (b : bio) (page : Option Nat) (len off : UInt32) : Option bio :=
  match page with
  | none => none
  | some page =>
    if off ≥ PAGE_SIZE then none
    else if b.bi_io_vec.length ≥ b.bi_max_vecs.toNat then none
    else if b.bi_size + len > 256 * PAGE_SIZE then none
    else
      some { b with
        bi_io_vec := b.bi_io_vec ++ [{ bv_page := page, bv_len := len, bv_offset := off }]
        bi_size := b.bi_size + len }

/-- The bytes in the vectors. -/
def bio.length (b : bio) : Nat := (b.bi_io_vec.map fun bv => bv.bv_len.toNat).sum

def bio_vec.bytes (memory : Mem) (bv : bio_vec) : List UInt8 :=
  Mem.bytes memory (bv.bv_page + bv.bv_offset.toNat) bv.bv_len.toNat

/-- The request that `submit_bio_wait` puts in the queue. -/
def bio_request (memory : Mem) (bdev : block_device) (b : bio) : request :=
  { write := b.write
    start := (b.bi_sector + bdev.bd_start_sect).toNat
    bios := [⟨b.bi_io_vec.map (bio_vec.bytes memory)⟩] }

/-- The driver serves the request at once. -/
def submit_bio_wait (memory : Mem) (bdev : block_device) (b : bio) (s : Dev) : Option (Dev × List UInt8) :=
  w25qxx_request s (bio_request memory bdev b)

/-! ## Sectors -/

/-- Sector `x` has a byte of the request. -/
def Touches (req : request) (x : Nat) : Prop := req.start ≤ x ∧ 512 * x < 512 * req.start + req.data.length

/-- The request stays in the sectors of the device. -/
def Confined (bdev : block_device) (req : request) : Prop :=
  ∀ x, Touches req x → bdev.bd_start_sect.toNat ≤ x ∧ x < bdev.bd_start_sect.toNat + bdev.bd_nr_sectors.toNat

/-- The bytes behind the bio's sector fit in the partition. -/
def bio.Inside (bdev : block_device) (b : bio) : Prop := 512 * b.bi_sector.toNat + b.length ≤ 512 * bdev.bd_nr_sectors.toNat

instance (bdev : block_device) (b : bio) : Decidable (b.Inside bdev) := inferInstanceAs (Decidable (_ ≤ _))

/-! ## Registration -/

section Register
variable {kmalloc : Nat → Bool} {partition : partition} {bdev : block_device}

theorem add_mbr_son_disk_eq {k : Bool} {i : Nat} (hi : i < 4) (h : add_mbr_son_disk k partition i = some bdev) :
    check_empty_MBR_Table partition i = false ∧ bdev = ⟨(partition i).start_lba, (partition i).nr_sectors⟩ := by
  have hslot : ¬((i : Int) < 0 ∨ (i : Int) > 3) := by omega
  unfold add_mbr_son_disk at h
  split at h
  · cases h
  split at h
  · cases h
  · rename_i hempty
    rw [Bool.not_eq_true] at hempty
    refine ⟨hempty, (Option.some.inj h).symm.trans ?_⟩
    have hstart : get_partiton_data partition i mbr_partiton_startaddress = (partition i).start_lba := by
      rw [get_partiton_data, if_pos rfl, get_mbr_partition_start_address, if_neg hslot, Int.toNat_natCast, hempty]
      rfl
    have hsize : get_partiton_data partition i mbr_partiton_size = (partition i).nr_sectors := by
      rw [get_partiton_data, if_neg (by decide), if_pos rfl, get_mbr_partition_size, if_neg hslot, Int.toNat_natCast, hempty]
      rfl
    rw [hstart, hsize]

theorem mem_add_son_disks {slots : List Nat} (h : bdev ∈ add_son_disks kmalloc partition slots) :
    ∃ i ∈ slots, add_mbr_son_disk (kmalloc i) partition i = some bdev := by
  induction slots with
  | nil => cases h
  | cons i slots ih =>
    unfold add_son_disks at h
    split at h
    · cases h
    · rename_i dev hdev
      rcases List.mem_cons.1 h with rfl | h
      · exact ⟨i, List.mem_cons_self, hdev⟩
      · obtain ⟨j, hj, hadd⟩ := ih h
        exact ⟨j, List.mem_cons_of_mem _ hj, hadd⟩

/-- Every device has the sectors of an entry of the table. -/
theorem register_entry (h : bdev ∈ register_son_disk kmalloc partition) :
    ∃ i < 4, check_empty_MBR_Table partition i = false ∧
      bdev = ⟨(partition i).start_lba, (partition i).nr_sectors⟩ := by
  obtain ⟨i, hi, hadd⟩ := mem_add_son_disks h
  have hi := List.mem_range.1 hi
  exact ⟨i, hi, add_mbr_son_disk_eq hi hadd⟩

end Register

/-! ## Sizes -/

/-- What `__bio_add_page` makes of a new bio. -/
inductive Built : bio → Prop
  | alloc (n : UInt16) (write : Bool) (sector : UInt32) : Built { bio_alloc n write with bi_sector := sector }
  | add {b b' : bio} {page : Option Nat} {len off : UInt32} : Built b → __bio_add_page b page len off = some b' → Built b'

theorem __bio_add_page_cases {b b' : bio} {page : Option Nat} {len off : UInt32} (h : __bio_add_page b page len off = some b') :
    ∃ a, page = some a ∧ off < PAGE_SIZE ∧ b.bi_io_vec.length < b.bi_max_vecs.toNat ∧
      b' = { b with bi_io_vec := b.bi_io_vec ++ [⟨a, len, off⟩], bi_size := b.bi_size + len } := by
  unfold __bio_add_page at h
  split at h
  · cases h
  split at h
  · cases h
  split at h
  · cases h
  split at h
  · cases h
  · rename_i a hoff hvecs hsize
    exact ⟨a, rfl, UInt32.not_le.1 hoff, Nat.not_le.1 hvecs, (Option.some.inj h).symm⟩

/-- The size kept is that of the vectors in 32 bits, so the check of it does not
bound them. -/
theorem built_size {b : bio} (h : Built b) : b.bi_size.toNat = b.length % 2 ^ 32 ∧ b.bi_io_vec.length ≤ b.bi_max_vecs.toNat := by
  induction h with
  | alloc n write sector => exact ⟨rfl, Nat.zero_le _⟩
  | @add b b' page len off hb hadd ih =>
    obtain ⟨a, -, -, hvecs, rfl⟩ := __bio_add_page_cases hadd
    refine ⟨?_, ?_⟩
    · rw [UInt32.toNat_add, ih.1]
      simp [bio.length, Nat.add_mod]
    · rw [List.length_append]
      exact hvecs

/-! ## Requests -/

section Requests
variable {memory : Mem} {bdev : block_device} {b : bio}

theorem request_start : (bio_request memory bdev b).start = (b.bi_sector.toNat + bdev.bd_start_sect.toNat) % 2 ^ 32 :=
  UInt32.toNat_add ..

theorem request_data_length : (bio_request memory bdev b).data.length = b.length := by
  have hbytes : ∀ bv : bio_vec, (bv.bytes memory).length = bv.bv_len.toNat := fun bv => Mem.length_bytes ..
  simp [request.data, request.segments, bio_request, bio.length, List.length_flatten, Function.comp_def, hbytes]

/-- Where the sum wraps, the request starts before the partition. -/
theorem confined_iff : Confined bdev (bio_request memory bdev b) ↔
    b.length = 0 ∨ (b.bi_sector.toNat + bdev.bd_start_sect.toNat < 2 ^ 32 ∧ b.Inside bdev) := by
  have hs := b.bi_sector.toNat_lt
  have ha := bdev.bd_start_sect.toNat_lt
  unfold Confined Touches bio.Inside
  rw [request_start, request_data_length]
  generalize b.bi_sector.toNat = s at *
  generalize bdev.bd_start_sect.toNat = a at *
  generalize bdev.bd_nr_sectors.toNat = n
  generalize b.length = len
  constructor
  · intro h
    by_contra hno
    -- The first sector shows a wrap, the last one an end that is too far.
    have hfirst := h ((s + a) % 2 ^ 32) (by omega)
    have hlast := h ((s + a) % 2 ^ 32 + (len - 1) / 512) (by omega)
    omega
  · intro h x hx
    omega

/-- The devices have the sectors of the table. The driver is handed the request
of every bio; it stays in the partition where the sum does not wrap and the bytes
fit behind the bio's sector, or there are none. -/
theorem partition_requests {kmalloc : Nat → Bool} {partition : partition} (h : bdev ∈ register_son_disk kmalloc partition) :
    (∃ i < 4, check_empty_MBR_Table partition i = false ∧
      bdev = ⟨(partition i).start_lba, (partition i).nr_sectors⟩) ∧
    ∀ (memory : Mem) (b : bio) (s : Dev),
      submit_bio_wait memory bdev b s = w25qxx_request s (bio_request memory bdev b) ∧
      (bio_request memory bdev b).start = (b.bi_sector.toNat + bdev.bd_start_sect.toNat) % 2 ^ 32 ∧
      (bio_request memory bdev b).data.length = b.length ∧
      (Confined bdev (bio_request memory bdev b) ↔
        b.length = 0 ∨ (b.bi_sector.toNat + bdev.bd_start_sect.toNat < 2 ^ 32 ∧ b.Inside bdev)) :=
  ⟨register_entry h, fun _ _ _ => ⟨rfl, request_start, request_data_length, confined_iff⟩⟩

end Requests

/-- Slot 0 has sectors 2048 to 2055. -/
def one_partition : partition :=
  Function.update (fun _ => mbr_partition.empty) 0 (MBR_partition_table_create 0x00 2048 8 0x83)

theorem one_partition_registered : (⟨2048, 8⟩ : block_device) ∈ register_son_disk (fun _ => true) one_partition := by
  decide

/-- 4096 zero bytes for `sector`. -/
def block_write (sector : UInt32) : bio :=
  { write := true, bi_sector := sector, bi_size := 4096, bi_max_vecs := 1, bi_io_vec := [⟨0, 4096, 0⟩] }

/-- The first block of the partition can be written. -/
theorem partition_requests_first : Confined ⟨2048, 8⟩ (bio_request (fun _ => 0) ⟨2048, 8⟩ (block_write 0)) :=
  ((partition_requests one_partition_registered).2 (fun _ => 0) (block_write 0) ⟨fun _ => 0xff, fun _ => 0⟩).2.2.2.2
    (.inr (by decide))

/-- A write to sector 8 of the partition is served and erases the block behind
it. -/
theorem write_leaves_partition :
    (¬∀ (partition : partition) (bdev : block_device) (memory : Mem) (b : bio),
      bdev ∈ register_son_disk (fun _ => true) partition → Confined bdev (bio_request memory bdev b)) ∧
    ¬∀ (partition : partition) (bdev : block_device) (memory : Mem) (b : bio) (s : Dev),
      bdev ∈ register_son_disk (fun _ => true) partition → ¬Confined bdev (bio_request memory bdev b) →
        submit_bio_wait memory bdev b s = some (s, []) := by
  have hleaves : ¬Confined ⟨2048, 8⟩ (bio_request (fun _ => 0) ⟨2048, 8⟩ (block_write 8)) := by
    rw [confined_iff]
    decide
  refine ⟨fun h => hleaves (h _ _ _ _ one_partition_registered), fun h => ?_⟩
  have hrefused := h _ _ _ _ ⟨fun _ => 0xff, fun _ => 0⟩ one_partition_registered hleaves
  have hflash : (submit_bio_wait (fun _ => 0) ⟨2048, 8⟩ (block_write 8) ⟨fun _ => 0xff, fun _ => 0⟩).map
      (fun r => r.1.flash (512 * 2056)) = some 0 := by decide +kernel
  rw [hrefused] at hflash
  exact absurd (Option.some.inj hflash) (by decide)

/-! ## The blocks of the flash -/

section Blocks
variable {start p q : Nat} {s s' : Dev}

/-- Only bytes of the blocks from `p` to `q` changed. -/
def Keeps (p q : Nat) (s s' : Dev) : Prop := ∀ x, x < 4096 * p ∨ 4096 * q ≤ x → s'.flash x = s.flash x

theorem device_write_keeps {flash buf : Mem} {n x : Nat} (h : 4096 * n + 4096 ≤ 2 ^ 24) (hx : x < 4096 * n ∨ 4096 * n + 4096 ≤ x) :
    W25Qxx_device_write_page flash buf 4096 n x = flash x := by
  rw [device_write_apply buf h, if_neg (by omega)]

/-- A vector is written to the block of the sector and, if it is too long for
that one, to the next. -/
theorem write_segment_keeps {seg : List UInt8} (hp : p ≤ start / 8) (hq : start / 8 < q)
    (hend : 512 * start + seg.length ≤ 4096 * q) (hdev : 4096 * q ≤ 2 ^ 24) (h : write_segment start s seg = some s') :
    Keeps p q s s' := by
  intro x hx
  have h1 : 4096 * (start / 8) + 4096 ≤ 2 ^ 24 := by omega
  have hx1 : x < 4096 * (start / 8) ∨ 4096 * (start / 8) + 4096 ≤ x := by omega
  unfold write_segment at h
  dsimp only at h
  generalize (if 4096 - start % 8 * 512 > seg.length then seg.length else 4096 - start % 8 * 512) = cpoy_length at h
  split at h
  · rename_i hfull
    rw [Option.some.injEq] at h
    subst h
    dsimp only
    rw [hfull.2, device_write_keeps h1 hx1]
  · split at h
    · rename_i hlost
      -- What did not fit goes to the next block.
      have h2 : 4096 * (start / 8 + 1) + 4096 ≤ 4096 * q := by omega
      split at h
      · cases h
      · rw [Option.some.injEq] at h
        subst h
        dsimp only
        rw [device_write_keeps (by omega) (by omega), device_write_keeps h1 hx1]
    · rw [Option.some.injEq] at h
      subst h
      dsimp only
      rw [device_write_keeps h1 hx1]

theorem write_segments_keeps {segs : List (List UInt8)} (hp : p ≤ start / 8) (hq : start / 8 < q)
    (hend : 512 * start + segs.flatten.length ≤ 4096 * q) (hdev : 4096 * q ≤ 2 ^ 24)
    (h : write_segments start segs s = some s') : Keeps p q s s' := by
  induction segs generalizing s with
  | nil =>
    obtain rfl := Option.some.inj h
    exact fun _ _ => rfl
  | cons seg segs ih =>
    obtain ⟨s₁, h₁, h₂⟩ := Option.bind_eq_some_iff.1 h
    rw [List.flatten_cons, List.length_append] at hend
    have hk₁ := write_segment_keeps hp hq (by omega) hdev h₁
    have hk₂ := ih (by omega) h₂
    exact fun x hx => (hk₂ x hx).trans (hk₁ x hx)

/-- A request with data that stays in a partition of whole blocks changes no byte
of the flash outside it. -/
theorem confined_request_keeps {bdev : block_device} {req : request} {out : List UInt8}
    (ha : 8 ∣ bdev.bd_start_sect.toNat) (hn : 8 ∣ bdev.bd_nr_sectors.toNat)
    (hchip : 512 * (bdev.bd_start_sect.toNat + bdev.bd_nr_sectors.toNat) ≤ 2 ^ 24) (hdata : req.data ≠ [])
    (hc : Confined bdev req) (h : w25qxx_request s req = some (s', out)) :
    ∀ x, x < 512 * bdev.bd_start_sect.toNat ∨ 512 * (bdev.bd_start_sect.toNat + bdev.bd_nr_sectors.toNat) ≤ x →
      s'.flash x = s.flash x := by
  have hpos : 0 < req.data.length := List.length_pos_iff.2 hdata
  have hfirst := hc req.start ⟨Nat.le_refl _, by omega⟩
  have hlast := hc (req.start + (req.data.length - 1) / 512) ⟨by omega, by omega⟩
  obtain ⟨p, hp⟩ := ha
  obtain ⟨n, hn⟩ := hn
  rw [hp, hn] at hfirst hlast hchip ⊢
  unfold w25qxx_request at h
  split at h
  · obtain ⟨s₁, h₁, heq⟩ := Option.map_eq_some_iff.1 h
    obtain ⟨rfl, -⟩ := Prod.mk.inj heq
    rw [write_bios_eq] at h₁
    have hlen : (req.bios.map (·.bi_io_vec)).flatten.flatten.length = req.data.length := rfl
    have hkeeps := write_segments_keeps (p := p) (q := p + n) (by omega) (by omega) (by omega) (by omega) h₁
    exact fun x hx => hkeeps x (by omega)
  · obtain ⟨rfl, -⟩ := Prod.mk.inj (Option.some.inj h)
    exact fun _ _ => rfl

end Blocks

end McLinOS.Bio
