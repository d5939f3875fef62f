import Mathlib.Algebra.Group.Nat.Defs
import McLinOS.CLib.CrcBits
import McLinOS.CLib.Loop
import McLinOS.CLib.Mem
/-!
# The other checks of `lib`

`lib/crc16.c`, `lib/crc7.c`, `lib/crc4.c` and `lib/crc8.c`: tables for single polynomials,
and for CRC-8 a table for any polynomial that is built by doubling.
-/
open CLib

set_option linter.style.nameCheck false

namespace McLinOS.CrcTables

/-! ## CRC-16 -/

def crc16_table : List (BitVec 16) :=
  [
    0x0000, 0xc0c1, 0xc181, 0x0140, 0xc301, 0x03c0, 0x0280, 0xc241, 0xc601, 0x06c0, 0x0780, 0xc741, 0x0500, 0xc5c1, 0xc481, 0x0440,
    0xcc01, 0x0cc0, 0x0d80, 0xcd41, 0x0f00, 0xcfc1, 0xce81, 0x0e40, 0x0a00, 0xcac1, 0xcb81, 0x0b40, 0xc901, 0x09c0, 0x0880, 0xc841,
    0xd801, 0x18c0, 0x1980, 0xd941, 0x1b00, 0xdbc1, 0xda81, 0x1a40, 0x1e00, 0xdec1, 0xdf81, 0x1f40, 0xdd01, 0x1dc0, 0x1c80, 0xdc41,
    0x1400, 0xd4c1, 0xd581, 0x1540, 0xd701, 0x17c0, 0x1680, 0xd641, 0xd201, 0x12c0, 0x1380, 0xd341, 0x1100, 0xd1c1, 0xd081, 0x1040,
    0xf001, 0x30c0, 0x3180, 0xf141, 0x3300, 0xf3c1, 0xf281, 0x3240, 0x3600, 0xf6c1, 0xf781, 0x3740, 0xf501, 0x35c0, 0x3480, 0xf441,
    0x3c00, 0xfcc1, 0xfd81, 0x3d40, 0xff01, 0x3fc0, 0x3e80, 0xfe41, 0xfa01, 0x3ac0, 0x3b80, 0xfb41, 0x3900, 0xf9c1, 0xf881, 0x3840,
    0x2800, 0xe8c1, 0xe981, 0x2940, 0xeb01, 0x2bc0, 0x2a80, 0xea41, 0xee01, 0x2ec0, 0x2f80, 0xef41, 0x2d00, 0xedc1, 0xec81, 0x2c40,
    0xe401, 0x24c0, 0x2580, 0xe541, 0x2700, 0xe7c1, 0xe681, 0x2640, 0x2200, 0xe2c1, 0xe381, 0x2340, 0xe101, 0x21c0, 0x2080, 0xe041,
    0xa001, 0x60c0, 0x6180, 0xa141, 0x6300, 0xa3c1, 0xa281, 0x6240, 0x6600, 0xa6c1, 0xa781, 0x6740, 0xa501, 0x65c0, 0x6480, 0xa441,
    0x6c00, 0xacc1, 0xad81, 0x6d40, 0xaf01, 0x6fc0, 0x6e80, 0xae41, 0xaa01, 0x6ac0, 0x6b80, 0xab41, 0x6900, 0xa9c1, 0xa881, 0x6840,
    0x7800, 0xb8c1, 0xb981, 0x7940, 0xbb01, 0x7bc0, 0x7a80, 0xba41, 0xbe01, 0x7ec0, 0x7f80, 0xbf41, 0x7d00, 0xbdc1, 0xbc81, 0x7c40,
    0xb401, 0x74c0, 0x7580, 0xb541, 0x7700, 0xb7c1, 0xb681, 0x7640, 0x7200, 0xb2c1, 0xb381, 0x7340, 0xb101, 0x71c0, 0x7080, 0xb041,
    0x5000, 0x90c1, 0x9181, 0x5140, 0x9301, 0x53c0, 0x5280, 0x9241, 0x9601, 0x56c0, 0x5780, 0x9741, 0x5500, 0x95c1, 0x9481, 0x5440,
    0x9c01, 0x5cc0, 0x5d80, 0x9d41, 0x5f00, 0x9fc1, 0x9e81, 0x5e40, 0x5a00, 0x9ac1, 0x9b81, 0x5b40, 0x9901, 0x59c0, 0x5880, 0x9841,
    0x8801, 0x48c0, 0x4980, 0x8941, 0x4b00, 0x8bc1, 0x8a81, 0x4a40, 0x4e00, 0x8ec1, 0x8f81, 0x4f40, 0x8d01, 0x4dc0, 0x4c80, 0x8c41,
    0x4400, 0x84c1, 0x8581, 0x4540, 0x8701, 0x47c0, 0x4680, 0x8641, 0x8201, 0x42c0, 0x4380, 0x8341, 0x4100, 0x81c1, 0x8081, 0x4040]

def crc16_byte (crc : BitVec 16) (data : BitVec 8) : BitVec 16 :=
  (crc >>> 8) ^^^ crc16_table.getD ((crc ^^^ data.setWidth 16) &&& 0xff).toNat 0

def crc16 (crc : BitVec 16) (buffer : List (BitVec 8)) : BitVec 16 := buffer.foldl crc16_byte crc

/-! ## CRC-7 -/

def crc7_be_syndrome_table : List (BitVec 8) :=
  [
    0x00, 0x12, 0x24, 0x36, 0x48, 0x5a, 0x6c, 0x7e, 0x90, 0x82, 0xb4, 0xa6, 0xd8, 0xca, 0xfc, 0xee,
    0x32, 0x20, 0x16, 0x04, 0x7a, 0x68, 0x5e, 0x4c, 0xa2, 0xb0, 0x86, 0x94, 0xea, 0xf8, 0xce, 0xdc,
    0x64, 0x76, 0x40, 0x52, 0x2c, 0x3e, 0x08, 0x1a, 0xf4, 0xe6, 0xd0, 0xc2, 0xbc, 0xae, 0x98, 0x8a,
    0x56, 0x44, 0x72, 0x60, 0x1e, 0x0c, 0x3a, 0x28, 0xc6, 0xd4, 0xe2, 0xf0, 0x8e, 0x9c, 0xaa, 0xb8,
    0xc8, 0xda, 0xec, 0xfe, 0x80, 0x92, 0xa4, 0xb6, 0x58, 0x4a, 0x7c, 0x6e, 0x10, 0x02, 0x34, 0x26,
    0xfa, 0xe8, 0xde, 0xcc, 0xb2, 0xa0, 0x96, 0x84, 0x6a, 0x78, 0x4e, 0x5c, 0x22, 0x30, 0x06, 0x14,
    0xac, 0xbe, 0x88, 0x9a, 0xe4, 0xf6, 0xc0, 0xd2, 0x3c, 0x2e, 0x18, 0x0a, 0x74, 0x66, 0x50, 0x42,
    0x9e, 0x8c, 0xba, 0xa8, 0xd6, 0xc4, 0xf2, 0xe0, 0x0e, 0x1c, 0x2a, 0x38, 0x46, 0x54, 0x62, 0x70,
    0x82, 0x90, 0xa6, 0xb4, 0xca, 0xd8, 0xee, 0xfc, 0x12, 0x00, 0x36, 0x24, 0x5a, 0x48, 0x7e, 0x6c,
    0xb0, 0xa2, 0x94, 0x86, 0xf8, 0xea, 0xdc, 0xce, 0x20, 0x32, 0x04, 0x16, 0x68, 0x7a, 0x4c, 0x5e,
    0xe6, 0xf4, 0xc2, 0xd0, 0xae, 0xbc, 0x8a, 0x98, 0x76, 0x64, 0x52, 0x40, 0x3e, 0x2c, 0x1a, 0x08,
    0xd4, 0xc6, 0xf0, 0xe2, 0x9c, 0x8e, 0xb8, 0xaa, 0x44, 0x56, 0x60, 0x72, 0x0c, 0x1e, 0x28, 0x3a,
    0x4a, 0x58, 0x6e, 0x7c, 0x02, 0x10, 0x26, 0x34, 0xda, 0xc8, 0xfe, 0xec, 0x92, 0x80, 0xb6, 0xa4,
    0x78, 0x6a, 0x5c, 0x4e, 0x30, 0x22, 0x14, 0x06, 0xe8, 0xfa, 0xcc, 0xde, 0xa0, 0xb2, 0x84, 0x96,
    0x2e, 0x3c, 0x0a, 0x18, 0x66, 0x74, 0x42, 0x50, 0xbe, 0xac, 0x9a, 0x88, 0xf6, 0xe4, 0xd2, 0xc0,
    0x1c, 0x0e, 0x38, 0x2a, 0x54, 0x46, 0x70, 0x62, 0x8c, 0x9e, 0xa8, 0xba, 0xc4, 0xd6, 0xe0, 0xf2]

def crc7_be_byte (crc data : BitVec 8) : BitVec 8 := crc7_be_syndrome_table.getD (crc ^^^ data).toNat 0

def crc7_be (crc : BitVec 8) (buffer : List (BitVec 8)) : BitVec 8 := buffer.foldl crc7_be_byte crc

/-! ## CRC-4 -/

def crc4_tab : List (BitVec 8) :=
  [0x0, 0x7, 0xe, 0x9, 0xb, 0xc, 0x5, 0x2, 0x1, 0x6, 0xf, 0x8, 0xa, 0xd, 0x4, 0x3]

/-- `uint64_t` has 32 bits here, `1ull` has 64. `none` where the source shifts `x` by as
many bits as it has, or reads behind the table. -/
def crc4 (c : BitVec 8) (x : BitVec 32) (bits : Nat) : Option (BitVec 8) :=
  if 32 < bits then none
  else
    let x := x &&& ((1#64 <<< bits) - 1).setWidth 32
    let bits := (bits + 3) / 4 * 4
    (List.range (bits / 4)).foldlM (fun c k => crc4_tab[(c ^^^ ((x >>> (bits - 4 - 4 * k)) &&& 0xf).setWidth 8).toNat]?) c

/-! ## CRC-8 -/

def CRC8_TABLE_SIZE : Nat := 256

abbrev Table := Nat → BitVec 8

/-- The inner loop, which copies what is in the table and adds `t`. -/
def fill_msb (i : Nat) (t : BitVec 8) (table : Table) : Table :=
  (List.range i).foldl (fun table j => Function.update table (i + j) (table j ^^^ t)) table

/-- A turn of the outer loop: `i`, `t` and the table. -/
def populate_msb (polynomial : BitVec 8) (s : Nat × BitVec 8 × Table) : ControlFlow (Nat × BitVec 8 × Table) Table :=
  let (i, t, table) := s
  if i < CRC8_TABLE_SIZE then
    let t := (t <<< 1) ^^^ (if t &&& 0x80 ≠ 0 then polynomial else 0)
    .cont (i * 2, t, fill_msb i t table)
  else .done table

def crc8_populate_msb (fuel : Nat) (table : Table) (polynomial : BitVec 8) : Option Table :=
  loop (populate_msb polynomial) fuel (1, 0x80, Function.update table 0 0)

/-- The inner loop, for every second multiple of `i`. -/
def fill_lsb (i : Nat) (t : BitVec 8) (table : Table) : Table :=
  (List.range ((CRC8_TABLE_SIZE + 2 * i - 1) / (2 * i))).foldl
    (fun table k => Function.update table (i + k * (2 * i)) (table (k * (2 * i)) ^^^ t)) table

def populate_lsb (polynomial : BitVec 8) (s : Nat × BitVec 8 × Table) : ControlFlow (Nat × BitVec 8 × Table) Table :=
  let (i, t, table) := s
  if i ≠ 0 then
    let t := (t >>> 1) ^^^ (if t &&& 1 ≠ 0 then polynomial else 0)
    .cont (i >>> 1, t, fill_lsb i t table)
  else .done table

def crc8_populate_lsb (fuel : Nat) (table : Table) (polynomial : BitVec 8) : Option Table :=
  loop (populate_lsb polynomial) fuel (CRC8_TABLE_SIZE >>> 1, 1, Function.update table 0 0)

def crc8 (table : Table) (pdata : List (BitVec 8)) (crc : BitVec 8) : BitVec 8 :=
  pdata.foldl (fun crc b => table ((crc ^^^ b) &&& 0xff).toNat) crc

def CRC8_GOOD_VALUE (table : Table) : BitVec 8 := table 0xFF

end McLinOS.CrcTables
