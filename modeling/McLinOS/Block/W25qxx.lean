import McLinOS.CLib.Mem
/-!
# The w25qxx block device

`drivers/storage/w25qxx` over a flash chip of at most 16 MiB. The device
functions return the length they were given, which is not negative, so the
driver's error paths are never taken.
-/
open CLib

namespace McLinOS.Block

/-! ## The chip -/

/-- A command carries the low three bytes of an address. -/
def addr24 (addr : Nat) : Nat := addr % 2 ^ 24

/-- Erases the 4096 aligned bytes around `addr`. -/
def erase (flash : Mem) (addr : Nat) : Mem := fun x => if x / 4096 = addr / 4096 then 0xff else flash x

/-- Programs `data` from `addr` on, inside the 256 bytes of one page. -/
def program (flash : Mem) (addr : Nat) (data : List UInt8) : Mem :=
  fun x => if addr ≤ x ∧ x < addr + data.length ∧ x / 256 = addr / 256 then flash x &&& data.getD (x - addr) 0 else flash x

/-! ## The device functions -/

def W25Qxx_erase_sector (flash : Mem) (sector_num : Nat) : Mem := erase flash (addr24 (sector_num * 4096))

def W25Qxx_write (flash : Mem) (buffer : List UInt8) (addr : Nat) : Mem := program flash (addr24 addr) buffer

/-- `numbyte` is a `uint16_t`. -/
def W25Qxx_read (flash : Mem) (addr numbyte : Nat) : List UInt8 :=
  (List.range (numbyte % 2 ^ 16)).map fun i => flash (addr24 (addr + i))

def write_pages (buf : Mem) : Nat → Nat → Nat → Mem → Mem
  | 0, _, _, flash => flash
  | times + 1, i, offset, flash =>
    write_pages buf times (i + 1) (offset + 256) (W25Qxx_write flash (Mem.bytes buf (i * 256) 256) offset)

def W25Qxx_device_write_page (flash buf : Mem) (len page_4k : Nat) : Mem :=
  write_pages buf (len / 256) 0 (page_4k * 4096) (W25Qxx_erase_sector flash page_4k)

/-- The buffer after reading `len` bytes from the 512-byte sector `page_512b` on. -/
def W25Qxx_device_read_page (flash buf : Mem) (len page_512b : Nat) : Mem :=
  Mem.copy buf 0 (W25Qxx_read flash (page_512b * 512) len)

/-! ## Requests -/

structure bio where
  bi_io_vec : List (List UInt8)
  deriving DecidableEq, Repr

/-- `start` is `blk_rq_pos`. Of a write the vectors hold the data, of a read
what is in the pages before. -/
structure request where
  write : Bool
  start : Nat
  bios : List bio
  deriving DecidableEq, Repr

/-- The flash and `w25qxx_buffer`, 4096 bytes. -/
structure Dev where
  flash : Mem
  w25qxx_buffer : Mem

/-- The bytes of a vector's page. -/
def page (buffer : List UInt8) : Mem := fun i => buffer.getD i 0

/-- One vector of a write request. `none` is a `memcpy` past the end of
`w25qxx_buffer`. The block is backed up with `W25Qxx_device_read_page`, which
counts in sectors of 512 bytes. -/
def write_segment (start : Nat) (s : Dev) (buffer : List UInt8) : Option Dev :=
  let data_length := buffer.length
  let page_4k := start / 8
  let page_4k_offset := start % 8
  if page_4k_offset = 0 ∧ data_length = 4096 then
    some { s with flash := W25Qxx_device_write_page s.flash (page buffer) data_length page_4k }
  else
    let lost_data : Int := page_4k_offset * 512 + data_length - 4096
    let buf := W25Qxx_device_read_page s.flash s.w25qxx_buffer 4096 page_4k
    let cpoy_length := if 4096 - page_4k_offset * 512 > data_length then data_length else 4096 - page_4k_offset * 512
    let buf := Mem.copy buf (page_4k_offset * 512) (buffer.take cpoy_length)
    let flash := W25Qxx_device_write_page s.flash buf 4096 page_4k
    if lost_data > 0 then
      let buf := W25Qxx_device_read_page flash buf 4096 (page_4k + 1)
      let cpoy_length := data_length - cpoy_length
      if cpoy_length > 4096 then none
      else
        let buf := Mem.copy buf 0 (buffer.drop (data_length - cpoy_length))
        some { flash := W25Qxx_device_write_page flash buf 4096 (page_4k + 1), w25qxx_buffer := buf }
    else some { flash, w25qxx_buffer := buf }

/-- One vector of a read request. -/
def read_segment (start : Nat) (s : Dev) (buffer : List UInt8) : List UInt8 :=
  Mem.bytes (W25Qxx_device_read_page s.flash (page buffer) buffer.length start) 0 buffer.length

def write_segments (start : Nat) : List (List UInt8) → Dev → Option Dev
  | [], s => some s
  | buffer :: segments, s => (write_segment start s buffer).bind (write_segments start segments)

def write_bios (start : Nat) : List bio → Dev → Option Dev
  | [], s => some s
  | b :: bios, s => (write_segments start b.bi_io_vec s).bind (write_bios start bios)

/-- The device after a request, and the pages of a read. `start` is the same
for every vector of every bio. -/
def w25qxx_request (s : Dev) (req : request) : Option (Dev × List UInt8) :=
  if req.write then (write_bios req.start req.bios s).map fun s => (s, [])
  else some (s, (req.bios.map fun b => (b.bi_io_vec.map (read_segment req.start s)).flatten).flatten)

def w25qxx_requests : List request → Dev → Option (Dev × List (List UInt8))
  | [], s => some (s, [])
  | req :: reqs, s => do
    let (s, out) ← w25qxx_request s req
    let (s, outs) ← w25qxx_requests reqs s
    some (s, out :: outs)

/-! ## The byte array -/

def request.segments (req : request) : List (List UInt8) := (req.bios.map (·.bi_io_vec)).flatten

def request.data (req : request) : List UInt8 := req.segments.flatten

/-- What a request does to an array of bytes, and what it returns. -/
def request.spec (disk : Mem) (req : request) : Mem × List UInt8 :=
  if req.write then (Mem.copy disk (512 * req.start) req.data, [])
  else (disk, Mem.bytes disk (512 * req.start) req.data.length)

def spec_requests : List request → Mem → Mem × List (List UInt8)
  | [], disk => (disk, [])
  | req :: reqs, disk =>
    let r := spec_requests reqs (req.spec disk).1
    (r.1, (req.spec disk).2 :: r.2)

/-- The lengths are multiples of 512, and the request stays inside a device of
`size` bytes. -/
def request.Fits (size : Nat) (req : request) : Prop :=
  (∀ seg ∈ req.segments, 512 ∣ seg.length) ∧ 512 * req.start + req.data.length ≤ size

/-! ## When it is one -/

/-- Of the vectors `segments`, those not empty are the last argument. The driver
gets a write right, whatever the flash holds, when at most one vector is not
empty and no other bytes of a block have to be kept, or when they are those of
the first block, where sectors and blocks are counted alike. -/
def good_write (start : Nat) (segments : List (List UInt8)) : List (List UInt8) → Prop
  | [] => start < 8 ∨ segments = []
  | [seg] =>
    (start < 8 ∧ (512 * start + seg.length ≤ 4096 ∨ 512 * start + seg.length = 8192)) ∨
      (start % 8 = 0 ∧ (seg.length = 4096 ∨ seg.length = 8192) ∧ segments.getLast? = some seg)
  | _ => False

/-- It gets a read right when at most one vector is not empty, and its length
fits in 16 bits. -/
def good_read : List (List UInt8) → Prop
  | [] => True
  | [seg] => seg.length < 2 ^ 16
  | _ => False

def request.good (req : request) : Prop :=
  let nonempty := req.segments.filter (· ≠ [])
  if req.write then good_write req.start req.segments nonempty else good_read nonempty

instance (size : Nat) (req : request) : Decidable (req.Fits size) := inferInstanceAs (Decidable (_ ∧ _))

instance (start : Nat) (segments : List (List UInt8)) : ∀ nonempty, Decidable (good_write start segments nonempty)
  | [] => inferInstanceAs (Decidable (_ ∨ _))
  | [_] => inferInstanceAs (Decidable (_ ∨ _))
  | _ :: _ :: _ => .isFalse id

instance : ∀ nonempty, Decidable (good_read nonempty)
  | [] => .isTrue trivial
  | [_] => inferInstanceAs (Decidable (_ < _))
  | _ :: _ :: _ => .isFalse id

instance (req : request) : Decidable req.good :=
  inferInstanceAs (Decidable (if req.write
    then good_write req.start req.segments (req.segments.filter (· ≠ []))
    else good_read (req.segments.filter (· ≠ []))))

/-! ## The device functions on a block -/

section Block
variable {flash : Mem}

theorem and_erased (b : UInt8) : 0xff &&& b = b := by
  have h : (0xff : UInt8) = -1 := rfl
  rw [h, UInt8.neg_one_and]

theorem erase_apply {n : Nat} (h : 4096 * n + 4096 ≤ 2 ^ 24) (x : Nat) :
    W25Qxx_erase_sector flash n x = if x / 4096 = n then 0xff else flash x := by
  have e : addr24 (n * 4096) / 4096 = n := by
    unfold addr24
    omega
  rw [W25Qxx_erase_sector, erase, e]

theorem write_apply {buf : Mem} {i offset : Nat} (hal : offset % 256 = 0) (h : offset + 256 ≤ 2 ^ 24) (x : Nat) :
    W25Qxx_write flash (Mem.bytes buf (i * 256) 256) offset x =
      if offset ≤ x ∧ x < offset + 256 then flash x &&& buf (i * 256 + (x - offset)) else flash x := by
  have e : addr24 offset = offset := Nat.mod_eq_of_lt (by omega)
  rw [W25Qxx_write, program, e, Mem.length_bytes]
  by_cases hx : offset ≤ x ∧ x < offset + 256
  · rw [if_pos hx, if_pos ⟨hx.1, hx.2, by omega⟩, Mem.getD_bytes (by omega)]
  · rw [if_neg hx, if_neg fun h => hx ⟨h.1, h.2.1⟩]

theorem write_pages_apply (buf : Mem) (times i : Nat) {offset : Nat} (hal : offset % 256 = 0)
    (h : offset + times * 256 ≤ 2 ^ 24) (x : Nat) :
    write_pages buf times i offset flash x =
      if offset ≤ x ∧ x < offset + times * 256 then flash x &&& buf (i * 256 + (x - offset)) else flash x := by
  induction times generalizing i offset flash with
  | zero =>
    have hno : ¬(offset ≤ x ∧ x < offset + 0 * 256) := by omega
    rw [write_pages, if_neg hno]
  | succ times ih =>
    have hal' : (offset + 256) % 256 = 0 := by omega
    have h' : offset + 256 + times * 256 ≤ 2 ^ 24 := by omega
    have hpage : offset + 256 ≤ 2 ^ 24 := by omega
    rw [write_pages, ih (i + 1) hal' h', write_apply hal hpage]
    by_cases h1 : offset + 256 ≤ x ∧ x < offset + 256 + times * 256
    · have h2 : ¬(offset ≤ x ∧ x < offset + 256) := by omega
      have h3 : offset ≤ x ∧ x < offset + (times + 1) * 256 := by omega
      have e : (i + 1) * 256 + (x - (offset + 256)) = i * 256 + (x - offset) := by omega
      rw [if_pos h1, if_neg h2, if_pos h3, e]
    · rw [if_neg h1]
      by_cases h2 : offset ≤ x ∧ x < offset + 256
      · have h3 : offset ≤ x ∧ x < offset + (times + 1) * 256 := by omega
        rw [if_pos h2, if_pos h3]
      · have h3 : ¬(offset ≤ x ∧ x < offset + (times + 1) * 256) := by omega
        rw [if_neg h2, if_neg h3]

/-- A block write puts the buffer into block `n` and leaves the others alone. -/
theorem device_write_apply (buf : Mem) {n : Nat} (h : 4096 * n + 4096 ≤ 2 ^ 24) (x : Nat) :
    W25Qxx_device_write_page flash buf 4096 n x = if x / 4096 = n then buf (x % 4096) else flash x := by
  have e : W25Qxx_device_write_page flash buf 4096 n = write_pages buf 16 0 (n * 4096) (W25Qxx_erase_sector flash n) := rfl
  have h16 : n * 4096 + 16 * 256 ≤ 2 ^ 24 := by omega
  rw [e, write_pages_apply buf 16 0 (by omega) h16, erase_apply h]
  by_cases hx : x / 4096 = n
  · have hin : n * 4096 ≤ x ∧ x < n * 4096 + 16 * 256 := by omega
    have e : 0 * 256 + (x - n * 4096) = x % 4096 := by omega
    rw [if_pos hx, if_pos hx, if_pos hin, and_erased, e]
  · have hout : ¬(n * 4096 ≤ x ∧ x < n * 4096 + 16 * 256) := by omega
    rw [if_neg hx, if_neg hx, if_neg hout]

theorem read_eq {addr numbyte : Nat} (hn : numbyte < 2 ^ 16) :
    W25Qxx_read flash addr numbyte = (List.range numbyte).map fun i => flash (addr24 (addr + i)) := by
  rw [W25Qxx_read, Nat.mod_eq_of_lt hn]

theorem getD_read {addr numbyte i : Nat} (hn : numbyte < 2 ^ 16) (hi : i < numbyte) (h : addr + numbyte ≤ 2 ^ 24) :
    (W25Qxx_read flash addr numbyte).getD i 0 = flash (addr + i) := by
  have e : addr24 (addr + i) = addr + i := Nat.mod_eq_of_lt (by omega)
  simp [read_eq hn, List.getD_eq_getElem?_getD, hi, e]

theorem length_read {addr numbyte : Nat} (hn : numbyte < 2 ^ 16) : (W25Qxx_read flash addr numbyte).length = numbyte := by
  simp [read_eq hn]

/-- The first `len` bytes of the buffer come from sector `n` on. -/
theorem device_read_apply (buf : Mem) {len n i : Nat} (hlen : len < 2 ^ 16) (h : 512 * n + len ≤ 2 ^ 24) (hi : i < len) :
    W25Qxx_device_read_page flash buf len n i = flash (512 * n + i) := by
  rw [W25Qxx_device_read_page, Mem.copy, length_read hlen, if_pos (by omega), Nat.sub_zero,
    getD_read hlen hi (by omega), Nat.mul_comm]

end Block

end McLinOS.Block
