import Mathlib.Algebra.Group.Nat.Defs
import McLinOS.Boot.FlashProgram
import McLinOS.CLib.CrcBits
/-!
# Receiving an image

`bootloader/rp2350/flash_program.c`: the boot loader takes an image over XMODEM, with
blocks of 128 or 1024 bytes, and a checksum or a CRC for each.
-/
open CLib

set_option linter.style.nameCheck false

namespace McLinOS.Boot

/-! ## The check of a block -/

def crc16tab : List (BitVec 16) :=
  [
    0x0000, 0x1021, 0x2042, 0x3063, 0x4084, 0x50a5, 0x60c6, 0x70e7, 0x8108, 0x9129, 0xa14a, 0xb16b, 0xc18c, 0xd1ad, 0xe1ce, 0xf1ef,
    0x1231, 0x0210, 0x3273, 0x2252, 0x52b5, 0x4294, 0x72f7, 0x62d6, 0x9339, 0x8318, 0xb37b, 0xa35a, 0xd3bd, 0xc39c, 0xf3ff, 0xe3de,
    0x2462, 0x3443, 0x0420, 0x1401, 0x64e6, 0x74c7, 0x44a4, 0x5485, 0xa56a, 0xb54b, 0x8528, 0x9509, 0xe5ee, 0xf5cf, 0xc5ac, 0xd58d,
    0x3653, 0x2672, 0x1611, 0x0630, 0x76d7, 0x66f6, 0x5695, 0x46b4, 0xb75b, 0xa77a, 0x9719, 0x8738, 0xf7df, 0xe7fe, 0xd79d, 0xc7bc,
    0x48c4, 0x58e5, 0x6886, 0x78a7, 0x0840, 0x1861, 0x2802, 0x3823, 0xc9cc, 0xd9ed, 0xe98e, 0xf9af, 0x8948, 0x9969, 0xa90a, 0xb92b,
    0x5af5, 0x4ad4, 0x7ab7, 0x6a96, 0x1a71, 0x0a50, 0x3a33, 0x2a12, 0xdbfd, 0xcbdc, 0xfbbf, 0xeb9e, 0x9b79, 0x8b58, 0xbb3b, 0xab1a,
    0x6ca6, 0x7c87, 0x4ce4, 0x5cc5, 0x2c22, 0x3c03, 0x0c60, 0x1c41, 0xedae, 0xfd8f, 0xcdec, 0xddcd, 0xad2a, 0xbd0b, 0x8d68, 0x9d49,
    0x7e97, 0x6eb6, 0x5ed5, 0x4ef4, 0x3e13, 0x2e32, 0x1e51, 0x0e70, 0xff9f, 0xefbe, 0xdfdd, 0xcffc, 0xbf1b, 0xaf3a, 0x9f59, 0x8f78,
    0x9188, 0x81a9, 0xb1ca, 0xa1eb, 0xd10c, 0xc12d, 0xf14e, 0xe16f, 0x1080, 0x00a1, 0x30c2, 0x20e3, 0x5004, 0x4025, 0x7046, 0x6067,
    0x83b9, 0x9398, 0xa3fb, 0xb3da, 0xc33d, 0xd31c, 0xe37f, 0xf35e, 0x02b1, 0x1290, 0x22f3, 0x32d2, 0x4235, 0x5214, 0x6277, 0x7256,
    0xb5ea, 0xa5cb, 0x95a8, 0x8589, 0xf56e, 0xe54f, 0xd52c, 0xc50d, 0x34e2, 0x24c3, 0x14a0, 0x0481, 0x7466, 0x6447, 0x5424, 0x4405,
    0xa7db, 0xb7fa, 0x8799, 0x97b8, 0xe75f, 0xf77e, 0xc71d, 0xd73c, 0x26d3, 0x36f2, 0x0691, 0x16b0, 0x6657, 0x7676, 0x4615, 0x5634,
    0xd94c, 0xc96d, 0xf90e, 0xe92f, 0x99c8, 0x89e9, 0xb98a, 0xa9ab, 0x5844, 0x4865, 0x7806, 0x6827, 0x18c0, 0x08e1, 0x3882, 0x28a3,
    0xcb7d, 0xdb5c, 0xeb3f, 0xfb1e, 0x8bf9, 0x9bd8, 0xabbb, 0xbb9a, 0x4a75, 0x5a54, 0x6a37, 0x7a16, 0x0af1, 0x1ad0, 0x2ab3, 0x3a92,
    0xfd2e, 0xed0f, 0xdd6c, 0xcd4d, 0xbdaa, 0xad8b, 0x9de8, 0x8dc9, 0x7c26, 0x6c07, 0x5c64, 0x4c45, 0x3ca2, 0x2c83, 0x1ce0, 0x0cc1,
    0xef1f, 0xff3e, 0xcf5d, 0xdf7c, 0xaf9b, 0xbfba, 0x8fd9, 0x9ff8, 0x6e17, 0x7e36, 0x4e55, 0x5e74, 0x2e93, 0x3eb2, 0x0ed1, 0x1ef0]

/-- `buf` is read from its first byte on. For a negative length nothing is read. -/
def crc16_ccitt (buf : Mem) (len : Int) : BitVec 16 :=
  (List.range len.toNat).foldl (fun crc counter =>
    (crc <<< 8) ^^^ crc16tab.getD (((crc >>> 8) ^^^ (buf counter).toBitVec.setWidth 16) &&& 0x00FF).toNat 0) 0

/-- Behind the `sz` bytes of the block is its CRC, the high byte first, or the sum of its
bytes. -/
def check (crc : Bool) (buf : Mem) (sz : Nat) : Bool :=
  if crc then crc16_ccitt buf sz = BitVec.ofNat 16 ((buf sz).toNat * 2 ^ 8 + (buf (sz + 1)).toNat)
  else (List.range sz).foldl (fun cks i => cks + buf i) 0 = buf sz

/-! ## The line -/

/-- The answers that the next calls of `_inbyte` get, `none` where nothing came in time (behind
the last one nothing comes any more), and what was sent. -/
structure Port where
  line : List (Option UInt8)
  sent : List UInt8
  deriving DecidableEq, Repr

def _inbyte (port : Port) : Option UInt8 × Port :=
  match port.line with
  | [] => (none, port)
  | answer :: line => (answer, { port with line })

def _outbyte (c : UInt8) (port : Port) : Port := { port with sent := port.sent ++ [c] }

def SOH : UInt8 := 0x01
def STX : UInt8 := 0x02
def EOT : UInt8 := 0x04
def ACK : UInt8 := 0x06
def NAK : UInt8 := 0x15
def CAN : UInt8 := 0x18

def MAXRETRANS : Int := 25

/-- What is left when nothing came in time. -/
def silence : List (Option UInt8) → List (Option UInt8)
  | some _ :: line => silence line
  | none :: line => line
  | [] => []

def flushinput (port : Port) : Port := { port with line := silence port.line }

/-- Three CAN tell the sender to give up. -/
def cancel (port : Port) : Port := _outbyte CAN (_outbyte CAN (_outbyte CAN (flushinput port)))

/-! ## The receiver -/

/-- The variables of `xmodemReceive`, `dest` from its first byte on. -/
structure Receiver where
  port : Port
  dest : Mem
  xbuff : Mem
  len : Nat
  crc : Bool
  trychar : UInt8
  packetno : UInt8
  retrans : Int

/-- A sender that speaks ZMODEM is told to fall back. -/
def zmodem_retry : Nat → Port → Port
  | 0, port => port
  | n + 1, port =>
    if (_inbyte port).1 = some 'Z'.toUInt8 then _outbyte NAK (_inbyte port).2 else zmodem_retry n (_inbyte port).2

/-- How the wait for the next block ends. -/
inductive Sync where
  | start_recv (c : UInt8) (bufsz : Nat)
  | eot
  | can
  | lost
  deriving DecidableEq, Repr

/-- The `for` loop over `retry`, with so many turns left. -/
def sync (trychar : UInt8) : Nat → Port → Sync × Port
  | 0, port => (.lost, port)
  | n + 1, port =>
    let tried := _inbyte (if trychar = 0 then port else _outbyte trychar port)
    if tried.1 = some SOH then (.start_recv SOH 128, tried.2)
    else if tried.1 = some STX then (.start_recv STX 1024, tried.2)
    else if tried.1 = some EOT then (.eot, tried.2)
    else if tried.1 = some CAN then
      if (_inbyte tried.2).1 = some CAN then (.can, (_inbyte tried.2).2) else sync trychar n (_inbyte tried.2).2
    else sync trychar n tried.2

/-- `n` bytes for `xbuff` from `p` on, or as many as come in time. -/
def receive_bytes : Nat → Nat → Mem → Port → Bool × Mem × Port
  | 0, _, xbuff, port => (true, xbuff, port)
  | n + 1, p, xbuff, port =>
    match _inbyte port with
    | (some c, port) => receive_bytes n (p + 1) (xbuff.set p c) port
    | (none, port) => (false, xbuff, port)

/-- The block in `xbuff` has a number that can be taken now, and its check is right. Before the
number is compared with it, `packetno - 1` becomes an `int`, -1 for 0. -/
def acceptable (s : Receiver) (bufsz : Nat) : Prop :=
  s.xbuff 1 = ~~~s.xbuff 2 ∧
    (s.xbuff 1 = s.packetno ∨ ((s.xbuff 1).toNat : Int) = (s.packetno.toNat : Int) - 1) ∧
    check s.crc (fun i => s.xbuff (3 + i)) bufsz = true

instance (s : Receiver) (bufsz : Nat) : Decidable (acceptable s bufsz) := by
  unfold acceptable
  exact inferInstance

/-- The block is new: as much of it as `dest` still has room for is copied. -/
def new_block (destsz : Int) (bufsz : Nat) (s : Receiver) : Receiver :=
  let count : Int := if destsz - s.len > bufsz then bufsz else destsz - s.len
  let s := if count > 0 then
      { s with dest := Mem.copy s.dest s.len (Mem.bytes s.xbuff 3 count.toNat), len := s.len + count.toNat }
    else s
  { s with packetno := s.packetno + 1, retrans := MAXRETRANS + 1 }

/-- What becomes of a block that was received as a whole. -/
def process (destsz : Int) (bufsz : Nat) (s : Receiver) : ControlFlow Receiver (Int × Receiver) :=
  if acceptable s bufsz then
    let s := if s.xbuff 1 = s.packetno then new_block destsz bufsz s else s
    let s := { s with retrans := s.retrans - 1 }
    if s.retrans ≤ 0 then .done (-3, { s with port := cancel s.port })
    else .cont { s with port := _outbyte ACK s.port }
  else .cont { s with port := _outbyte NAK (flushinput s.port) }

/-- One turn of the endless loop. -/
def turn (destsz : Int) (s : Receiver) : ControlFlow Receiver (Int × Receiver) :=
  match sync s.trychar 16 s.port with
  | (.eot, port) => .done (s.len, { s with port := _outbyte ACK (flushinput port) })
  | (.can, port) => .done (-1, { s with port := _outbyte ACK (flushinput port) })
  | (.lost, port) =>
    if s.trychar = 'C'.toUInt8 then .cont { s with trychar := NAK, port }
    else .done (-2, { s with port := cancel port })
  | (.start_recv c bufsz, port) =>
    let crc := s.crc || s.trychar = 'C'.toUInt8
    match receive_bytes (bufsz + (if crc then 1 else 0) + 3) 1 (s.xbuff.set 0 c) port with
    | (true, xbuff, port) => process destsz bufsz { s with crc, trychar := 0, xbuff, port }
    | (false, xbuff, port) => .cont { s with crc, trychar := 0, xbuff, port := _outbyte NAK (flushinput port) }

/-- The receiver before its first turn. `xbuff` is on the stack and not initialised. -/
def receiver (line : List (Option UInt8)) (dest xbuff : Mem) : Receiver where
  port := zmodem_retry 3 ⟨line, []⟩
  dest := dest
  xbuff := xbuff
  len := 0
  crc := false
  trychar := 'C'.toUInt8
  packetno := 1
  retrans := MAXRETRANS

/-- The result, and the receiver at the end. -/
def xmodemReceive (fuel : Nat) (line : List (Option UInt8)) (dest : Mem) (destsz : Int) (xbuff : Mem) :
    Option (Int × Receiver) := loop (turn destsz) fuel (receiver line dest xbuff)

end McLinOS.Boot
