import McLinOS.Boot.Xmodem
import McLinOS.CLib.Strings
/-!
# Frames on the line

What a block looks like when it is sent, and when the receiver takes what came for
such a block.
-/
open CLib

set_option linter.style.nameCheck false

namespace McLinOS.Boot

/-! ## The CRC -/

/-- x^16 + x^12 + x^5 + 1, without its highest term. -/
def ccitt : BitVec 16 := 0x1021

/-- The bits of these bytes, the highest of each byte first. -/
def bits (data : List UInt8) : List Bool := data.flatMap fun b => Crc.bits_of b.toBitVec.reverse

theorem bits_append (xs ys : List UInt8) : bits (xs ++ ys) = bits xs ++ bits ys := List.flatMap_append

theorem crc16tab_entry {i : Nat} (hi : i < 256) :
    crc16tab.getD i 0 = (Crc.left_step ccitt)^[8] ((BitVec.ofNat 8 i).setWidth 16 <<< 8) := by
  have hall : ∀ i : Fin 256, crc16tab.getD i.val 0 = (Crc.left_step ccitt)^[8] ((BitVec.ofNat 8 i.val).setWidth 16 <<< 8) := by
    decide +kernel
  exact hall ⟨i, hi⟩

/-- One turn of the loop divides out the bits of a byte. -/
theorem crc16_turn (crc : BitVec 16) (b : UInt8) :
    (crc <<< 8) ^^^ crc16tab.getD (((crc >>> 8) ^^^ b.toBitVec.setWidth 16) &&& 0x00FF).toNat 0 =
      Crc.left_bits ccitt crc (bits [b]) := by
  have hbyte : ((crc >>> 8) ^^^ b.toBitVec.setWidth 16).setWidth 8 = (crc >>> 8).setWidth 8 ^^^ b.toBitVec := by
    rw [BitVec.setWidth_xor, BitVec.setWidth_setWidth_of_le _ (by decide), BitVec.setWidth_eq]
  have hindex : (((crc >>> 8) ^^^ b.toBitVec.setWidth 16) &&& 0x00FF).toNat = ((crc >>> 8).setWidth 8 ^^^ b.toBitVec).toNat := by
    rw [← hbyte, BitVec.toNat_and, BitVec.toNat_setWidth]
    exact Nat.and_two_pow_sub_one_eq_mod _ 8
  rw [hindex, crc16tab_entry (BitVec.isLt _), BitVec.ofNat_toNat, BitVec.setWidth_eq, bits, List.flatMap_singleton,
    ← Crc.left_byte_eq_bits ccitt (by decide), Crc.left_byte_table ccitt (by decide), BitVec.xor_comm]

/-- The CRC of the bytes. -/
def crc16 (data : List UInt8) : BitVec 16 := Crc.left_bits ccitt 0 (bits data)

theorem bytes_succ (buf : Mem) (a n : Nat) : Mem.bytes buf a (n + 1) = Mem.bytes buf a n ++ [buf (a + n)] := by
  rw [Mem.bytes, List.range_succ, List.map_append, List.map_singleton]
  rfl

theorem crc16_ccitt_eq (buf : Mem) (len : Nat) : crc16_ccitt buf len = crc16 (Mem.bytes buf 0 len) := by
  unfold crc16_ccitt
  rw [Int.toNat_natCast]
  induction len with
  | zero => rfl
  | succ len ih =>
    rw [List.range_succ, List.foldl_append, ih, List.foldl_cons, List.foldl_nil, crc16_turn, bytes_succ, Nat.zero_add, crc16,
      crc16, bits_append, Crc.left_bits_append]

/-! ## A block and its check -/

/-- The sum of the bytes. -/
def checksum (payload : List UInt8) : UInt8 := payload.foldl (· + ·) 0

/-- What is sent behind a block. -/
def check_bytes (crc : Bool) (payload : List UInt8) : List UInt8 :=
  if crc then [UInt8.ofBitVec ((crc16 payload >>> 8).setWidth 8), UInt8.ofBitVec ((crc16 payload).setWidth 8)]
  else [checksum payload]

/-- How many bytes that are. -/
def check_size (crc : Bool) : Nat := (if crc then 1 else 0) + 1

theorem length_check_bytes (crc : Bool) (payload : List UInt8) : (check_bytes crc payload).length = check_size crc := by
  cases crc <;> rfl

/-- The two bytes of a CRC can be put together again. -/
theorem crc_bytes_iff (crc : BitVec 16) (hi lo : UInt8) :
    crc = BitVec.ofNat 16 (hi.toNat * 2 ^ 8 + lo.toNat) ↔
      [hi, lo] = [UInt8.ofBitVec ((crc >>> 8).setWidth 8), UInt8.ofBitVec (crc.setWidth 8)] := by
  have hhi : hi.toNat < 256 := hi.toNat_lt
  have hlo : lo.toNat < 256 := lo.toNat_lt
  have hcrc : crc.toNat < 65536 := crc.isLt
  have hfirst : (UInt8.ofBitVec ((crc >>> 8).setWidth 8)).toNat = crc.toNat / 2 ^ 8 % 2 ^ 8 := by
    show ((crc >>> 8).setWidth 8).toNat = _
    rw [BitVec.toNat_setWidth, BitVec.toNat_ushiftRight, Nat.shiftRight_eq_div_pow]
  have hsecond : (UInt8.ofBitVec (crc.setWidth 8)).toNat = crc.toNat % 2 ^ 8 := BitVec.toNat_setWidth _ _
  rw [List.cons.injEq, List.singleton_inj, ← UInt8.toNat_inj, ← UInt8.toNat_inj, hfirst, hsecond, ← BitVec.toNat_inj,
    BitVec.toNat_ofNat]
  omega

theorem check_iff (crc : Bool) (buf : Mem) (sz : Nat) :
    check crc buf sz = true ↔ Mem.bytes buf sz (check_size crc) = check_bytes crc (Mem.bytes buf 0 sz) := by
  cases crc with
  | true =>
    have htwo : Mem.bytes buf sz (check_size true) = [buf sz, buf (sz + 1)] := rfl
    rw [htwo, check, if_pos rfl, decide_eq_true_iff, crc16_ccitt_eq, crc_bytes_iff]
    rfl
  | false =>
    have hone : Mem.bytes buf sz (check_size false) = [buf sz] := rfl
    have hsum : (List.range sz).foldl (fun cks i => cks + buf i) 0 = checksum (Mem.bytes buf 0 sz) := by
      rw [checksum, Mem.bytes, List.foldl_map]
      simp only [Nat.zero_add]
    rw [hone, check, if_neg Bool.false_ne_true, decide_eq_true_iff, hsum, eq_comm]
    exact List.singleton_inj.symm

theorem length_bits (data : List UInt8) : (bits data).length = 8 * data.length := by
  induction data with
  | nil => rfl
  | cons b data ih =>
    rw [bits, List.flatMap_cons, List.length_append, Crc.length_bits_of, List.length_cons, ← bits, ih]
    omega

/-- A byte that is equal to the high byte of the remainder shifts it out. -/
theorem left_bits_same {crc : BitVec 16} {b : UInt8} (h : (crc >>> 8).setWidth 8 = b.toBitVec) :
    Crc.left_bits ccitt crc (bits [b]) = crc <<< 8 := by
  have hzero : (Crc.left_step ccitt)^[8] ((0 : BitVec 8).setWidth 16 <<< 8) = 0 := by decide
  rw [bits, List.flatMap_singleton, ← Crc.left_byte_eq_bits ccitt (by decide), Crc.left_byte_table ccitt (by decide), h,
    BitVec.xor_self]
  exact (congrArg (· ^^^ crc <<< 8) hzero).trans (BitVec.zero_xor)

/-- A block and its CRC leave no remainder. -/
theorem crc16_check_bytes (payload : List UInt8) : crc16 (payload ++ check_bytes true payload) = 0 := by
  have htwo : bits (check_bytes true payload) = bits [UInt8.ofBitVec ((crc16 payload >>> 8).setWidth 8)] ++
      bits [UInt8.ofBitVec ((crc16 payload).setWidth 8)] := (bits_append _ _).symm ▸ rfl
  have hlow : ((crc16 payload <<< 8) >>> 8).setWidth 8 = (crc16 payload).setWidth 8 := by
    apply BitVec.eq_of_toNat_eq
    rw [BitVec.toNat_setWidth, BitVec.toNat_setWidth, BitVec.toNat_ushiftRight, BitVec.toNat_shiftLeft, Nat.shiftLeft_eq,
      Nat.shiftRight_eq_div_pow]
    omega
  have hfirst := left_bits_same (b := UInt8.ofBitVec ((crc16 payload >>> 8).setWidth 8)) rfl
  have hsecond := left_bits_same (b := UInt8.ofBitVec ((crc16 payload).setWidth 8)) hlow
  rw [crc16, bits_append, Crc.left_bits_append, ← crc16, htwo, Crc.left_bits_append, hfirst, hsecond, ← BitVec.shiftLeft_add]
  exact BitVec.shiftLeft_eq_zero (by decide)

/-! ## Frames -/

/-- The sizes a block can have. -/
def Sized (payload : List UInt8) : Prop := payload.length = 128 ∨ payload.length = 1024

/-- What is sent for a block. -/
def frame (crc : Bool) (number : UInt8) (payload : List UInt8) : List UInt8 :=
  (if payload.length = 128 then SOH else STX) :: number :: ~~~number :: (payload ++ check_bytes crc payload)

/-- Bytes that come without a pause are received. -/
theorem receive_bytes_all (data : List UInt8) (p : Nat) (xbuff : Mem) (line : List (Option UInt8)) (sent : List UInt8) :
    receive_bytes data.length p xbuff ⟨data.map some ++ line, sent⟩ = (true, Mem.copy xbuff p data, ⟨line, sent⟩) := by
  induction data generalizing p xbuff with
  | nil => rw [Mem.copy_nil]; rfl
  | cons b data ih => exact (ih (p + 1) (xbuff.set p b)).trans (by rw [Mem.copy_cons])

/-- What was received as a whole came without a pause. -/
theorem receive_bytes_true {n p : Nat} {xbuff xbuff' : Mem} {port port' : Port}
    (h : receive_bytes n p xbuff port = (true, xbuff', port')) :
    ∃ data : List UInt8, data.length = n ∧ port = ⟨data.map some ++ port'.line, port'.sent⟩ ∧ xbuff' = Mem.copy xbuff p data := by
  induction n generalizing p xbuff port with
  | zero =>
    cases h
    exact ⟨[], rfl, rfl, (Mem.copy_nil _ _).symm⟩
  | succ n ih =>
    rw [receive_bytes] at h
    rcases port with ⟨_ | ⟨_ | c, line⟩, sent⟩
    · cases h
    · cases h
    · obtain ⟨data, hlen, hport, hbuff⟩ := ih h
      obtain ⟨rfl, rfl⟩ : line = data.map some ++ port'.line ∧ sent = port'.sent := Port.mk.inj hport
      exact ⟨c :: data, congrArg (· + 1) hlen, rfl, hbuff.trans (Mem.copy_cons _ _ _ _)⟩

/-- Reading only takes from the front of the line. -/
theorem receive_bytes_suffix (n p : Nat) (xbuff : Mem) (port : Port) :
    (receive_bytes n p xbuff port).2.2.line <:+ port.line ∧ (receive_bytes n p xbuff port).2.2.sent = port.sent ∧
      ∀ x, x < p ∨ p + n ≤ x → (receive_bytes n p xbuff port).2.1 x = xbuff x := by
  induction n generalizing p xbuff port with
  | zero => exact ⟨List.suffix_refl _, rfl, fun _ _ => rfl⟩
  | succ n ih =>
    rw [receive_bytes]
    rcases port with ⟨_ | ⟨_ | c, line⟩, sent⟩
    · exact ⟨List.suffix_refl _, rfl, fun _ _ => rfl⟩
    · exact ⟨List.suffix_cons _ _, rfl, fun _ _ => rfl⟩
    · obtain ⟨hline, hsent, hothers⟩ := ih (p + 1) (xbuff.set p c) ⟨line, sent⟩
      refine ⟨hline.trans (List.suffix_cons _ _), hsent, ?_⟩
      intro x hx
      exact (hothers x (by omega)).trans (Mem.set_ne (by omega))

/-! ## What was received for a frame -/

/-- SOH and STX say how long the block is. -/
def Announces (c : UInt8) (bufsz : Nat) : Prop := c = SOH ∧ bufsz = 128 ∨ c = STX ∧ bufsz = 1024

theorem announces_frame {payload : List UInt8} (h : Sized payload) :
    Announces (if payload.length = 128 then SOH else STX) payload.length := by
  rcases h with h | h
  · rw [h]
    exact .inl ⟨rfl, rfl⟩
  · rw [h]
    exact .inr ⟨rfl, rfl⟩

theorem Announces.sized {c : UInt8} {payload : List UInt8} (h : Announces c payload.length) :
    Sized payload ∧ c = if payload.length = 128 then SOH else STX := by
  rcases h with ⟨rfl, h⟩ | ⟨rfl, h⟩
  · exact ⟨.inl h, by rw [if_pos h]⟩
  · exact ⟨.inr h, by rw [if_neg (by omega)]⟩

/-- The bytes of `data` behind its first two, found in `xbuff`. -/
theorem bytes_xbuff (m : Mem) (number inverse : UInt8) (rest : List UInt8) {a n : Nat} (h : a + n ≤ rest.length) :
    Mem.bytes (fun i => Mem.copy m 1 (number :: inverse :: rest) (3 + i)) a n = (rest.drop a).take n := by
  apply List.ext_getElem
  · rw [Mem.length_bytes, List.length_take, List.length_drop]
    omega
  · intro i hleft hright
    have hi : i < n := by rwa [Mem.length_bytes] at hleft
    have hin : a + i < rest.length := by omega
    have hback : 3 + (a + i) - 1 = a + i + 1 + 1 := by omega
    rw [List.getElem_take, List.getElem_drop]
    show (Mem.bytes _ a n)[i] = rest[a + i]
    rw [← List.getD_eq_getElem _ 0 hleft, Mem.getD_bytes hi, Mem.copy, List.length_cons, List.length_cons, if_pos (by omega),
      hback, List.getD_cons_succ, List.getD_cons_succ, List.getD_eq_getElem _ _ hin]

/-- The block in `xbuff` can be taken exactly if a frame was received. -/
theorem acceptable_iff {s : Receiver} {c : UInt8} {bufsz : Nat} {data : List UInt8} {m : Mem} (hkind : Announces c bufsz)
    (hlen : data.length = bufsz + check_size s.crc + 2) (hbuff : s.xbuff = Mem.copy m 1 data) :
    acceptable s bufsz ↔ ∃ number payload, payload.length = bufsz ∧ c :: data = frame s.crc number payload ∧
      (number = s.packetno ∨ (number.toNat : Int) = (s.packetno.toNat : Int) - 1) := by
  obtain ⟨number, inverse, rest, rfl⟩ : ∃ number inverse rest, data = number :: inverse :: rest := by
    match data, hlen with
    | number :: inverse :: rest, _ => exact ⟨number, inverse, rest, rfl⟩
  have hrest : rest.length = bufsz + check_size s.crc := by simpa using hlen
  have hnumber : s.xbuff 1 = number := by
    rw [hbuff, Mem.copy, if_pos (by simp)]
    rfl
  have hinverse : s.xbuff 2 = inverse := by
    rw [hbuff, Mem.copy, if_pos (by simp; omega)]
    rfl
  have hcheck : check s.crc (fun i => s.xbuff (3 + i)) bufsz = true ↔
      rest.drop bufsz = check_bytes s.crc (rest.take bufsz) := by
    rw [check_iff, hbuff, bytes_xbuff _ _ _ _ (by omega), bytes_xbuff _ _ _ _ (by omega), List.drop_zero,
      List.take_of_length_le (by rw [List.length_drop]; omega)]
  have htake : (rest.take bufsz).length = bufsz := by rw [List.length_take]; omega
  rw [acceptable, hnumber, hinverse, hcheck]
  constructor
  · rintro ⟨hinv, hnum, hchk⟩
    have hannounced : Announces c (rest.take bufsz).length := htake.symm ▸ hkind
    obtain ⟨-, hc⟩ := hannounced.sized
    refine ⟨number, rest.take bufsz, htake, ?_, hnum⟩
    rw [frame, ← hc, hinv, UInt8.not_not, ← hchk, List.take_append_drop]
  · rintro ⟨number', payload, hsize, hframe, hnum⟩
    rw [frame] at hframe
    injection hframe with _ htail
    injection htail with hnum' htail
    injection htail with hinv' hbody
    subst hnum' hinv' hsize
    refine ⟨UInt8.not_not.symm, hnum, ?_⟩
    rw [hbody, List.drop_left, List.take_left]

/-! ## Waiting for a block -/

/-- An answer that says nothing to the receiver. -/
def Quiet (answer : Option UInt8) : Prop :=
  answer ≠ some SOH ∧ answer ≠ some STX ∧ answer ≠ some EOT ∧ answer ≠ some CAN

/-- What the wait leaves of the line, and what was sent in it. -/
structure Waited (trychar : UInt8) (port : Port) (r : Sync × Port) : Prop where
  line : r.2.line <:+ port.line
  sent : ∃ k, r.2.sent = port.sent ++ List.replicate k trychar ∧ (trychar = 0 → k = 0)
  start : ∀ c bufsz, r.1 = .start_recv c bufsz → Announces c bufsz ∧ some c :: r.2.line <:+ port.line

theorem inbyte_suffix (port : Port) : (_inbyte port).2.line <:+ port.line ∧ (_inbyte port).2.sent = port.sent := by
  rcases port with ⟨_ | ⟨answer, line⟩, sent⟩
  · exact ⟨List.suffix_refl _, rfl⟩
  · exact ⟨List.suffix_cons _ _, rfl⟩

theorem inbyte_some {port : Port} {c : UInt8} (h : (_inbyte port).1 = some c) : port.line = some c :: (_inbyte port).2.line := by
  rcases port with ⟨_ | ⟨answer, line⟩, sent⟩
  · cases h
  · exact congrArg (· :: line) h

section Sync
variable (trychar : UInt8)

/-- The request before a turn of the wait. -/
theorem asked_spec (port : Port) : (if trychar = 0 then port else _outbyte trychar port).line = port.line ∧
    ∃ k, (if trychar = 0 then port else _outbyte trychar port).sent = port.sent ++ List.replicate k trychar ∧
      (trychar = 0 → k = 0) := by
  by_cases h : trychar = 0
  · rw [if_pos h]
    exact ⟨rfl, 0, by simp, fun _ => rfl⟩
  · rw [if_neg h]
    exact ⟨rfl, 1, rfl, fun h0 => absurd h0 h⟩

theorem sync_waited (n : Nat) (port : Port) : Waited trychar port (sync trychar n port) := by
  induction n generalizing port with
  | zero => exact ⟨List.suffix_refl _, ⟨0, by simp [sync], fun _ => rfl⟩, fun _ _ h => by cases h⟩
  | succ n ih =>
    obtain ⟨hline, k, hsent, hk⟩ := asked_spec trychar port
    rw [sync]
    generalize (if trychar = 0 then port else _outbyte trychar port) = asked at hline hsent
    obtain ⟨hread, hkeep⟩ := inbyte_suffix asked
    obtain ⟨hread', hkeep'⟩ := inbyte_suffix (_inbyte asked).2
    rw [hline] at hread
    rw [hsent] at hkeep
    -- a turn that goes round again adds its requests in front of the later ones
    have hagain : ∀ port' : Port, port'.line <:+ port.line → port'.sent = port.sent ++ List.replicate k trychar →
        Waited trychar port (sync trychar n port') := by
      intro port' hline' hsent'
      obtain ⟨hw, ⟨j, hj, hj0⟩, hstart⟩ := ih port'
      refine ⟨hw.trans hline', ⟨k + j, ?_, ?_⟩, ?_⟩
      · rw [hj, hsent', List.append_assoc, List.replicate_append_replicate]
      · intro h0
        rw [hk h0, hj0 h0]
      · intro c bufsz hc
        exact ⟨(hstart c bufsz hc).1, (hstart c bufsz hc).2.trans hline'⟩
    have hfirst : ∀ c, (_inbyte asked).1 = some c → some c :: (_inbyte asked).2.line <:+ port.line := by
      intro c hc
      have hread := inbyte_some hc
      rw [hline] at hread
      exact hread ▸ List.suffix_refl _
    split
    · refine ⟨hread, ⟨k, hkeep, hk⟩, ?_⟩
      rintro c bufsz ⟨rfl, rfl⟩
      exact ⟨.inl ⟨rfl, rfl⟩, hfirst SOH ‹_›⟩
    split
    · refine ⟨hread, ⟨k, hkeep, hk⟩, ?_⟩
      rintro c bufsz ⟨rfl, rfl⟩
      exact ⟨.inr ⟨rfl, rfl⟩, hfirst STX ‹_›⟩
    split
    · exact ⟨hread, ⟨k, hkeep, hk⟩, fun _ _ h => by cases h⟩
    split
    · split
      · exact ⟨hread'.trans hread, ⟨k, hkeep'.trans hkeep, hk⟩, fun _ _ h => by cases h⟩
      · exact hagain _ (hread'.trans hread) (hkeep'.trans hkeep)
    · exact hagain _ hread hkeep

/-- Answers that say nothing only take turns of the wait. -/
theorem sync_skip {quiet : List (Option UInt8)} (hquiet : ∀ a ∈ quiet, Quiet a) (n : Nat) (line : List (Option UInt8))
    (sent : List UInt8) : ∃ sent', sync trychar (quiet.length + n) ⟨quiet ++ line, sent⟩ = sync trychar n ⟨line, sent'⟩ := by
  induction quiet generalizing sent with
  | nil => exact ⟨sent, by rw [List.length_nil, Nat.zero_add, List.nil_append]⟩
  | cons a quiet ih =>
    obtain ⟨⟨hsoh, hstx, heot, hcan⟩, hrest⟩ := List.forall_mem_cons.1 hquiet
    obtain ⟨hline, -⟩ := asked_spec trychar ⟨a :: quiet ++ line, sent⟩
    rw [List.length_cons, Nat.succ_add, sync]
    generalize (if trychar = 0 then _ else _outbyte trychar _) = asked at hline
    obtain ⟨line', sent'⟩ := asked
    obtain rfl : line' = a :: quiet ++ line := hline
    have hread : _inbyte ⟨a :: quiet ++ line, sent'⟩ = (a, ⟨quiet ++ line, sent'⟩) := rfl
    rw [hread]
    dsimp only
    rw [if_neg hsoh, if_neg hstx, if_neg heot, if_neg hcan]
    exact ih hrest sent'

/-- The first byte of a frame, or an EOT, ends the wait. -/
theorem sync_read (n : Nat) (c : UInt8) (line : List (Option UInt8)) (sent : List UInt8) :
    ∃ sent', (∀ bufsz, Announces c bufsz → sync trychar (n + 1) ⟨some c :: line, sent⟩ = (.start_recv c bufsz, ⟨line, sent'⟩)) ∧
      (c = EOT → sync trychar (n + 1) ⟨some c :: line, sent⟩ = (.eot, ⟨line, sent'⟩)) := by
  obtain ⟨hline, -⟩ := asked_spec trychar ⟨some c :: line, sent⟩
  rw [sync]
  generalize (if trychar = 0 then _ else _outbyte trychar _) = asked at hline
  obtain ⟨line', sent'⟩ := asked
  obtain rfl : line' = some c :: line := hline
  refine ⟨sent', ?_, ?_⟩
  · rintro bufsz (⟨rfl, rfl⟩ | ⟨rfl, rfl⟩)
    · rfl
    · rfl
  · rintro rfl
    rfl

/-- Up to 15 answers that say nothing do not keep the byte behind them from being read. -/
theorem sync_quiet {quiet : List (Option UInt8)} (hshort : quiet.length < 16) (hquiet : ∀ a ∈ quiet, Quiet a) (c : UInt8)
    (line : List (Option UInt8)) (sent : List UInt8) :
    ∃ sent', (∀ bufsz, Announces c bufsz → sync trychar 16 ⟨quiet ++ some c :: line, sent⟩ = (.start_recv c bufsz, ⟨line, sent'⟩)) ∧
      (c = EOT → sync trychar 16 ⟨quiet ++ some c :: line, sent⟩ = (.eot, ⟨line, sent'⟩)) := by
  have hturns : 16 = quiet.length + (15 - quiet.length + 1) := by omega
  obtain ⟨asked, hskip⟩ := sync_skip trychar hquiet (15 - quiet.length + 1) (some c :: line) sent
  rw [← hturns] at hskip
  rw [hskip]
  exact sync_read trychar _ c line asked

end Sync

/-! ## A turn of the receiver -/

/-- Blocks are checked with a CRC if the sender answered to a `C`. -/
def mode (s : Receiver) : Bool := s.crc || s.trychar = 'C'.toUInt8

/-- What of a block there is still room for. -/
def room (destsz : Int) (len : Nat) (payload : List UInt8) : List UInt8 := payload.take (destsz - len).toNat

/-- The line of the receiver begins, behind what the wait took away, with a frame. -/
def Framed (s : Receiver) (number : UInt8) (payload : List UInt8) (rest : List (Option UInt8)) : Prop :=
  Sized payload ∧ ∃ c bufsz port, sync s.trychar 16 s.port = (.start_recv c bufsz, port) ∧
    some c :: port.line = (frame (mode s) number payload).map some ++ rest

/-- `s'` is `s` after a frame was received. -/
structure After (s s' : Receiver) : Prop where
  crc : s'.crc = mode s
  trychar : s'.trychar = 0
  xbuff : ∀ x, 1030 ≤ x → s'.xbuff x = s.xbuff x

/-- What a turn can do. -/
inductive Turned (destsz : Int) (s : Receiver) : ControlFlow Receiver (Int × Receiver) → Prop
  | eot (port asked : Port) (hsync : sync s.trychar 16 s.port = (.eot, asked)) (hline : port.line <:+ s.port.line) :
      Turned destsz s (.done (s.len, { s with port }))
  | lost (result : Int) (port : Port) (hresult : result < 0) (hline : port.line <:+ s.port.line) :
      Turned destsz s (.done (result, { s with port }))
  | fall_back (port : Port) (hline : port.line <:+ s.port.line) (hask : s.trychar = 'C'.toUInt8)
      (hsent : ∃ k, port.sent = s.port.sent ++ List.replicate k s.trychar) :
      Turned destsz s (.cont { s with trychar := NAK, port })
  | rejected (s' : Receiver) (hafter : After s s') (hsame : s'.dest = s.dest ∧ s'.len = s.len ∧ s'.packetno = s.packetno)
      (hretrans : s'.retrans = s.retrans) (hline : s'.port.line <:+ s.port.line ∧ s'.port.line.length < s.port.line.length)
      (hsent : ∃ k, s'.port.sent = s.port.sent ++ List.replicate k s.trychar ++ [NAK]) : Turned destsz s (.cont s')
  | new (s' : Receiver) (payload : List UInt8) (hframe : Framed s s.packetno payload s'.port.line) (hafter : After s s')
      (hdest : s'.dest = Mem.copy s.dest s.len (room destsz s.len payload))
      (hlen : s'.len = s.len + (room destsz s.len payload).length) (hnumber : s'.packetno = s.packetno + 1)
      (hretrans : s'.retrans = MAXRETRANS) : Turned destsz s (.cont s')
  | repeated (s' : Receiver) (number : UInt8) (payload : List UInt8) (hframe : Framed s number payload s'.port.line)
      (hprevious : (number.toNat : Int) = (s.packetno.toNat : Int) - 1) (hafter : After s s')
      (hsame : s'.dest = s.dest ∧ s'.len = s.len ∧ s'.packetno = s.packetno) (hretrans : s'.retrans = s.retrans - 1) :
      Turned destsz s (.cont s')
  | too_many (s' : Receiver) (number : UInt8) (payload : List UInt8) (rest : List (Option UInt8))
      (hframe : Framed s number payload rest) (hprevious : (number.toNat : Int) = (s.packetno.toNat : Int) - 1)
      (hafter : After s s') (hsame : s'.dest = s.dest ∧ s'.len = s.len ∧ s'.packetno = s.packetno)
      (hretrans : s.retrans ≤ 1) (hline : s'.port.line <:+ s.port.line) : Turned destsz s (.done (-3, s'))

section Turn
variable {destsz : Int} {s : Receiver}

theorem new_block_eq {bufsz : Nat} {payload : List UInt8} (hpayload : Mem.bytes s.xbuff 3 bufsz = payload) :
    new_block destsz bufsz s =
      { s with
        dest := Mem.copy s.dest s.len (room destsz s.len payload)
        len := s.len + (room destsz s.len payload).length
        packetno := s.packetno + 1
        retrans := MAXRETRANS + 1 } := by
  have hsize : payload.length = bufsz := by rw [← hpayload, Mem.length_bytes]
  have hcopied : ∀ n ≤ bufsz, Mem.bytes s.xbuff 3 n = payload.take n := by
    intro n hn
    rw [← hpayload, Mem.bytes, Mem.bytes, ← List.map_take, List.take_range, Nat.min_eq_left hn]
  have hroom : ∀ count : Int, count = (if destsz - s.len > bufsz then (bufsz : Int) else destsz - s.len) → 0 < count →
      Mem.bytes s.xbuff 3 count.toNat = room destsz s.len payload ∧ count.toNat = (room destsz s.len payload).length := by
    intro count hcount hpos
    have hbound : count.toNat ≤ bufsz := by
      split at hcount <;> omega
    have hlen : count.toNat = (room destsz s.len payload).length := by
      rw [room, List.length_take, hsize]
      split at hcount <;> omega
    refine ⟨?_, hlen⟩
    rw [hcopied _ hbound, hlen, room, List.length_take, ← List.take_take, List.take_length]
  rw [new_block]
  generalize hcount : (if destsz - s.len > bufsz then (bufsz : Int) else destsz - s.len) = count
  by_cases hpos : count > 0
  · obtain ⟨hbytes, hlen⟩ := hroom count hcount.symm hpos
    rw [if_pos hpos, hbytes, hlen]
  · have hnone : room destsz s.len payload = [] := by
      apply List.eq_nil_of_length_eq_zero
      rw [room, List.length_take, hsize]
      split at hcount <;> omega
    rw [if_neg hpos, hnone, Mem.copy_nil]
    rfl

/-- What a frame leaves in `xbuff`. -/
theorem xbuff_frame {crc : Bool} {c number : UInt8} {data payload : List UInt8} (h : c :: data = frame crc number payload) (m : Mem) :
    Mem.copy m 1 data 1 = number ∧ Mem.bytes (Mem.copy m 1 data) 3 payload.length = payload := by
  obtain ⟨-, rfl⟩ := List.cons.inj h
  constructor
  · rw [Mem.copy, if_pos (by simp)]
    rfl
  · have hbytes := bytes_xbuff m number (~~~number) (payload ++ check_bytes crc payload) (a := 0) (n := payload.length) (by simp)
    rw [List.drop_zero, List.take_left] at hbytes
    simpa [Mem.bytes] using hbytes

theorem silence_suffix (line : List (Option UInt8)) : silence line <:+ line := by
  induction line with
  | nil => exact List.suffix_refl _
  | cons a line ih =>
    cases a with
    | none => exact List.suffix_cons _ _
    | some c => exact ih.trans (List.suffix_cons _ _)

/-- Behind the first byte of a frame the line is shorter, also when it was flushed. -/
theorem flushed_suffix {c : UInt8} {line line' whole : List (Option UInt8)} (h : line' <:+ line) (hwhole : some c :: line <:+ whole) :
    silence line' <:+ whole ∧ (silence line').length < whole.length := by
  have hsuffix := (silence_suffix line').trans h
  refine ⟨hsuffix.trans ((List.suffix_cons _ _).trans hwhole), ?_⟩
  exact Nat.lt_of_lt_of_le (Nat.lt_succ_of_le hsuffix.length_le) hwhole.length_le

/-- A frame fits in `xbuff`. -/
theorem Announces.short {c : UInt8} {bufsz : Nat} (h : Announces c bufsz) (crc : Bool) : bufsz + check_size crc + 2 < 1029 := by
  have hcheck : check_size crc ≤ 2 := by cases crc <;> decide
  rcases h with ⟨-, rfl⟩ | ⟨-, rfl⟩ <;> omega

/-- A block that was received as a whole. -/
theorem process_spec {c : UInt8} {bufsz : Nat} {data : List UInt8} {asked port : Port}
    (hsync : sync s.trychar 16 s.port = (.start_recv c bufsz, asked)) (hasked : asked = ⟨data.map some ++ port.line, port.sent⟩)
    (hlen : data.length = bufsz + check_size (mode s) + 2) :
    Turned destsz s (process destsz bufsz
      { s with crc := mode s, trychar := 0, xbuff := Mem.copy (s.xbuff.set 0 c) 1 data, port }) := by
  obtain ⟨-, ⟨k, hsent, -⟩, hstart⟩ := sync_waited s.trychar 16 s.port
  rw [hsync] at hsent hstart
  obtain ⟨hkind, hsuffix⟩ := hstart c bufsz rfl
  rw [hasked] at hsent hsuffix
  have hbuff : ∀ x, 1030 ≤ x → Mem.copy (s.xbuff.set 0 c) 1 data x = s.xbuff x := by
    intro x hx
    have hshort := hkind.short (mode s)
    rw [Mem.copy_apply_ne (by omega), Mem.set_ne (by omega)]
  set s₁ : Receiver := { s with crc := mode s, trychar := 0, xbuff := Mem.copy (s.xbuff.set 0 c) 1 data, port } with hs₁
  rw [process]
  by_cases hok : acceptable s₁ bufsz
  · rw [if_pos hok]
    obtain ⟨number, payload, hsize, hframe, hnumber⟩ := (acceptable_iff hkind hlen rfl).1 hok
    obtain ⟨hfirst, hbytes⟩ := xbuff_frame hframe (s.xbuff.set 0 c)
    have hframed : Framed s number payload port.line := by
      refine ⟨(Announces.sized (hsize.symm ▸ hkind)).1, c, bufsz, asked, hsync, ?_⟩
      rw [hasked]
      show some c :: (data.map some ++ port.line) = _
      rw [← hframe]
      rfl
    by_cases hnew : number = s.packetno
    · rw [if_pos (hfirst.trans hnew), new_block_eq (hsize ▸ hbytes)]
      exact .new _ payload (hnew ▸ hframed) ⟨rfl, rfl, hbuff⟩ rfl rfl rfl rfl
    · have hprevious := hnumber.resolve_left hnew
      have hfirst' : s₁.xbuff 1 ≠ s₁.packetno := fun h => hnew (hfirst.symm.trans h)
      rw [if_neg hfirst']
      by_cases hmany : s.retrans - 1 ≤ 0
      · have hturn : Turned destsz s (.done (-3, { s₁ with retrans := s.retrans - 1, port := cancel port })) :=
          .too_many _ number payload _ hframed hprevious ⟨rfl, rfl, hbuff⟩ ⟨rfl, rfl, rfl⟩ (by omega)
            (flushed_suffix (List.suffix_append (data.map some) port.line) hsuffix).1
        exact (if_pos hmany).symm ▸ hturn
      · have hturn : Turned destsz s (.cont { s₁ with retrans := s.retrans - 1, port := _outbyte ACK port }) :=
          .repeated _ number payload hframed hprevious ⟨rfl, rfl, hbuff⟩ ⟨rfl, rfl, rfl⟩ rfl
        exact (if_neg hmany).symm ▸ hturn
  · rw [if_neg hok]
    refine .rejected _ ⟨rfl, rfl, hbuff⟩ ⟨rfl, rfl, rfl⟩ rfl ?_ ?_
    · exact flushed_suffix (List.suffix_append (data.map some) port.line) hsuffix
    · exact ⟨k, by rw [← hsent]; rfl⟩

theorem read_size (crc : Bool) (bufsz : Nat) : bufsz + check_size crc + 2 = bufsz + (if crc then 1 else 0) + 3 := by
  rw [check_size]
  omega

theorem turn_received {destsz : Int} {s : Receiver} {c : UInt8} {bufsz : Nat} {port port' : Port} {xbuff : Mem}
    (hsync : sync s.trychar 16 s.port = (.start_recv c bufsz, port))
    (hreceive : receive_bytes (bufsz + check_size (mode s) + 2) 1 (s.xbuff.set 0 c) port = (true, xbuff, port')) :
    turn destsz s = process destsz bufsz { s with crc := mode s, trychar := 0, xbuff, port := port' } := by
  rw [read_size, mode] at hreceive
  simp only [turn, hsync, hreceive, mode]

theorem turn_broken {destsz : Int} {s : Receiver} {c : UInt8} {bufsz : Nat} {port port' : Port} {xbuff : Mem}
    (hsync : sync s.trychar 16 s.port = (.start_recv c bufsz, port))
    (hreceive : receive_bytes (bufsz + check_size (mode s) + 2) 1 (s.xbuff.set 0 c) port = (false, xbuff, port')) :
    turn destsz s =
      .cont { s with crc := mode s, trychar := 0, xbuff, port := _outbyte NAK (flushinput port') } := by
  rw [read_size, mode] at hreceive
  simp only [turn, hsync, hreceive, mode]

theorem turn_spec (destsz : Int) (s : Receiver) : Turned destsz s (turn destsz s) := by
  obtain ⟨hline, ⟨k, hsent, -⟩, hstart⟩ := sync_waited s.trychar 16 s.port
  generalize hsync : sync s.trychar 16 s.port = waited at hline hsent hstart
  obtain ⟨outcome, asked⟩ := waited
  cases outcome with
  | eot =>
    rw [turn, hsync]
    exact .eot _ asked hsync ((silence_suffix _).trans hline)
  | can =>
    rw [turn, hsync]
    exact .lost (-1) _ (by decide) ((silence_suffix _).trans hline)
  | lost =>
    rw [turn, hsync]
    dsimp only
    by_cases hask : s.trychar = 'C'.toUInt8
    · rw [if_pos hask]
      exact .fall_back asked hline hask ⟨k, hsent⟩
    · rw [if_neg hask]
      exact .lost (-2) (cancel asked) (by decide) ((silence_suffix _).trans hline)
  | start_recv c bufsz =>
    obtain ⟨hkind, hsuffix⟩ := hstart c bufsz rfl
    obtain ⟨hrest, hkept, hbuff⟩ := receive_bytes_suffix (bufsz + check_size (mode s) + 2) 1 (s.xbuff.set 0 c) asked
    generalize hreceive : receive_bytes (bufsz + check_size (mode s) + 2) 1 (s.xbuff.set 0 c) asked = received at hrest hkept hbuff
    obtain ⟨whole, xbuff, port⟩ := received
    cases whole with
    | true =>
      rw [turn_received hsync hreceive]
      obtain ⟨data, hlen, hasked, rfl⟩ := receive_bytes_true hreceive
      exact process_spec hsync hasked hlen
    | false =>
      rw [turn_broken hsync hreceive]
      refine .rejected _ ⟨rfl, rfl, ?_⟩ ⟨rfl, rfl, rfl⟩ rfl (flushed_suffix hrest hsuffix) ⟨k, ?_⟩
      · intro x hx
        have hshort := hkind.short (mode s)
        exact (hbuff x (by omega)).trans (Mem.set_ne (by omega))
      · rw [← hsent, ← hkept]
        rfl

end Turn

end McLinOS.Boot
