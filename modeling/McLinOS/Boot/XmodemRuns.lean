import McLinOS.Boot.XmodemTheorems
import McLinOS.CLib.Runs
/-!
# Frames that arrive

What the receiver does with a frame that arrives whole: the next block, the block before
once more, or a damaged one. A transmission without losses gives the blocks back. With a
sender that sends a block until it hears an ACK, each block is stored once.
-/
open CLib

set_option linter.style.nameCheck false

namespace McLinOS.Boot

section Arrives
variable (destsz : Int) {s : Receiver} {quiet rest : List (Option UInt8)} {number : UInt8} {payload : List UInt8}

/-- The state in which a frame that arrived is processed. -/
def arrived (s : Receiver) (k : Nat) (c : UInt8) (data : List UInt8) (rest : List (Option UInt8)) : Receiver :=
  { s with
    crc := mode s
    trychar := 0
    xbuff := Mem.copy (s.xbuff.set 0 c) 1 data
    port := ⟨rest, s.port.sent ++ List.replicate k s.trychar⟩ }

/-- Bytes that announce a block, and the block behind them, are processed. -/
theorem turn_data {c : UInt8} {bufsz : Nat} {data : List UInt8} (hshort : quiet.length < 16) (hquiet : ∀ a ∈ quiet, Quiet a)
    (hkind : Announces c bufsz) (hlen : data.length = bufsz + check_size (mode s) + 2)
    (hline : s.port.line = quiet ++ some c :: (data.map some ++ rest)) :
    ∃ k, (s.trychar = 0 → k = 0) ∧ After s (arrived s k c data rest) ∧
      turn destsz s = process destsz bufsz (arrived s k c data rest) := by
  have hport : s.port = ⟨quiet ++ some c :: (data.map some ++ rest), s.port.sent⟩ := by rw [← hline]
  obtain ⟨sent, hstart, -⟩ := sync_quiet s.trychar hshort hquiet c (data.map some ++ rest) s.port.sent
  have hsync := hstart bufsz hkind
  rw [← hport] at hsync
  obtain ⟨-, ⟨k, hsent, hk⟩, -⟩ := sync_waited s.trychar 16 s.port
  rw [hsync] at hsent
  obtain rfl : sent = s.port.sent ++ List.replicate k s.trychar := hsent
  have hafter : After s (arrived s k c data rest) := by
    refine ⟨rfl, rfl, ?_⟩
    intro x hx
    have hfits := hkind.short (mode s)
    show Mem.copy (s.xbuff.set 0 c) 1 data x = s.xbuff x
    rw [Mem.copy_apply_ne (by omega), Mem.set_ne (by omega)]
  refine ⟨k, hk, hafter, turn_received hsync ?_⟩
  rw [← hlen]
  exact receive_bytes_all data 1 (s.xbuff.set 0 c) rest _

/-- What a frame announces, and how long it is. -/
theorem frame_announced (crc : Bool) (number : UInt8) (hsized : Sized payload) : ∃ c data, c :: data = frame crc number payload ∧
    Announces c payload.length ∧ data.length = payload.length + check_size crc + 2 := by
  refine ⟨_, _, rfl, announces_frame hsized, ?_⟩
  rw [List.length_cons, List.length_cons, List.length_append, length_check_bytes]

theorem sync_announced {c : UInt8} {bufsz : Nat} {line : List (Option UInt8)} (hshort : quiet.length < 16)
    (hquiet : ∀ a ∈ quiet, Quiet a) (hkind : Announces c bufsz) (hline : s.port.line = quiet ++ some c :: line) :
    ∃ sent, sync s.trychar 16 s.port = (.start_recv c bufsz, ⟨line, sent⟩) := by
  obtain ⟨sent, hstart, -⟩ := sync_quiet s.trychar hshort hquiet c line s.port.sent
  refine ⟨sent, ?_⟩
  rw [← hstart bufsz hkind, ← hline]

theorem framed_of_line (hshort : quiet.length < 16) (hquiet : ∀ a ∈ quiet, Quiet a) (hsized : Sized payload)
    (hline : s.port.line = quiet ++ ((frame (mode s) number payload).map some ++ rest)) : Framed s number payload rest := by
  obtain ⟨c, data, hframe, hkind, -⟩ := frame_announced (mode s) number hsized
  rw [← hframe] at hline
  obtain ⟨sent, hsync⟩ := sync_announced hshort hquiet hkind hline
  refine ⟨hsized, c, payload.length, _, hsync, ?_⟩
  rw [← hframe]
  rfl

/-- A frame that arrives whole, and how it is judged. -/
theorem turn_frame (hshort : quiet.length < 16) (hquiet : ∀ a ∈ quiet, Quiet a) (hsized : Sized payload)
    (hline : s.port.line = quiet ++ ((frame (mode s) number payload).map some ++ rest)) :
    ∃ k c data, (s.trychar = 0 → k = 0) ∧ c :: data = frame (mode s) number payload ∧ After s (arrived s k c data rest) ∧
      turn destsz s = process destsz payload.length (arrived s k c data rest) ∧
      (acceptable (arrived s k c data rest) payload.length ↔
        number = s.packetno ∨ (number.toNat : Int) = (s.packetno.toNat : Int) - 1) := by
  obtain ⟨c, data, hframe, hkind, hlen⟩ := frame_announced (mode s) number hsized
  rw [← hframe] at hline
  obtain ⟨k, hk, hafter, hturn⟩ := turn_data destsz hshort hquiet hkind hlen hline
  refine ⟨k, c, data, hk, hframe, hafter, hturn, ?_⟩
  rw [acceptable_iff (s := arrived s k c data rest) hkind hlen rfl]
  constructor
  · rintro ⟨number', payload', -, hsame, hnumber⟩
    rw [hframe] at hsame
    obtain ⟨-, htail⟩ := List.cons.inj hsame
    obtain ⟨rfl, -⟩ := List.cons.inj htail
    exact hnumber
  · intro hnumber
    exact ⟨number, payload, rfl, hframe, hnumber⟩

/-- The next block is stored and acknowledged. -/
theorem turn_next (hshort : quiet.length < 16) (hquiet : ∀ a ∈ quiet, Quiet a) (hsized : Sized payload)
    (hline : s.port.line = quiet ++ ((frame (mode s) s.packetno payload).map some ++ rest)) :
    ∃ s', turn destsz s = .cont s' ∧ After s s' ∧ s'.port.line = rest ∧
      s'.dest = Mem.copy s.dest s.len (room destsz s.len payload) ∧
      s'.len = s.len + (room destsz s.len payload).length ∧ s'.packetno = s.packetno + 1 ∧ s'.retrans = MAXRETRANS := by
  obtain ⟨k, c, data, -, hframe, hafter, hturn, hok⟩ := turn_frame destsz hshort hquiet hsized hline
  obtain ⟨hfirst, hbytes⟩ := xbuff_frame hframe (s.xbuff.set 0 c)
  have hnew : (arrived s k c data rest).xbuff 1 = (arrived s k c data rest).packetno := hfirst
  rw [hturn, process, if_pos (hok.2 (.inl rfl)), if_pos hnew, new_block_eq hbytes]
  exact ⟨_, rfl, ⟨hafter.crc, hafter.trychar, hafter.xbuff⟩, rfl, rfl, rfl, rfl, rfl⟩

/-- The block before is acknowledged once more, but not if its number is 255. -/
theorem turn_again (hshort : quiet.length < 16) (hquiet : ∀ a ∈ quiet, Quiet a) (hsized : Sized payload)
    (hretrans : s.packetno = 0 ∨ 1 < s.retrans)
    (hline : s.port.line = quiet ++ ((frame (mode s) (s.packetno - 1) payload).map some ++ rest)) :
    ∃ s' k, turn destsz s = .cont s' ∧ After s s' ∧ (s'.dest = s.dest ∧ s'.len = s.len ∧ s'.packetno = s.packetno) ∧
      s.retrans - 1 ≤ s'.retrans ∧ (s.trychar = 0 → k = 0) ∧
      s'.port = if s.packetno = 0 then ⟨silence rest, s.port.sent ++ List.replicate k s.trychar ++ [NAK]⟩
        else ⟨rest, s.port.sent ++ List.replicate k s.trychar ++ [ACK]⟩ := by
  obtain ⟨k, c, data, hk, hframe, hafter, hturn, hok⟩ := turn_frame destsz hshort hquiet hsized hline
  obtain ⟨hfirst, -⟩ := xbuff_frame hframe (s.xbuff.set 0 c)
  have hless : s.packetno - 1 ≠ s.packetno := by
    intro h
    have hnat := congrArg UInt8.toNat h
    have hbound := s.packetno.toNat_lt
    have hone : (1 : UInt8).toNat = 1 := rfl
    rw [UInt8.toNat_sub, hone] at hnat
    omega
  have hold : (arrived s k c data rest).xbuff 1 ≠ (arrived s k c data rest).packetno := fun h => hless (hfirst.symm.trans h)
  rw [hturn, process]
  by_cases hzero : s.packetno = 0
  · have hbad : ¬acceptable (arrived s k c data rest) payload.length := by
      rw [hok, hzero]
      decide
    rw [if_neg hbad]
    refine ⟨_, k, rfl, ⟨hafter.crc, hafter.trychar, hafter.xbuff⟩, ⟨rfl, rfl, rfl⟩, Int.sub_le_self _ (by decide), hk, ?_⟩
    rw [if_pos hzero]
    rfl
  · have hprevious : ((s.packetno - 1).toNat : Int) = (s.packetno.toNat : Int) - 1 := by
      have hpos : s.packetno.toNat ≠ 0 := fun h => hzero (UInt8.toNat_inj.1 h)
      have hbound := s.packetno.toNat_lt
      have hone : (1 : UInt8).toNat = 1 := rfl
      rw [UInt8.toNat_sub, hone]
      omega
    have hmany : ¬s.retrans - 1 ≤ 0 := by
      have hleft := hretrans.resolve_left hzero
      omega
    rw [if_pos (hok.2 (.inr hprevious)), if_neg hold]
    refine ⟨_, k, if_neg hmany, ⟨hafter.crc, hafter.trychar, hafter.xbuff⟩, ⟨rfl, rfl, rfl⟩, Int.le_refl _, hk, ?_⟩
    rw [if_neg hzero]
    rfl

/-- So many turns, if none of them is the last. -/
def turns (destsz : Int) : Nat → Receiver → Option Receiver
  | 0, s => some s
  | j + 1, s =>
    match turn destsz s with
    | .cont s' => turns destsz j s'
    | .done _ => none

/-- Only pauses and bytes that say nothing, and not too many of them. -/
def Gap (gap : List (Option UInt8)) : Prop := gap.length < 16 ∧ ∀ a ∈ gap, Quiet a

theorem gap_nil : Gap [] := ⟨by decide, fun _ h => by cases h⟩

theorem gap_pause : Gap [none] := by
  refine ⟨by decide, fun a ha => ?_⟩
  obtain rfl := List.mem_singleton.1 ha
  exact ⟨by decide, by decide, by decide, by decide⟩

theorem Gap.suffix {gap gap' : List (Option UInt8)} (h : Gap gap) (hsuffix : gap' <:+ gap) : Gap gap' :=
  ⟨Nat.lt_of_le_of_lt hsuffix.length_le h.1, fun a ha => h.2 a (hsuffix.subset ha)⟩

/-- A frame that is sent once more behind each gap. -/
def repetitions (f : List UInt8) (gaps : List (List (Option UInt8))) : List (Option UInt8) :=
  gaps.flatMap fun gap => gap ++ f.map some

/-- The rest of a gap with a pause in it. -/
theorem silence_gap {gap : List (Option UInt8)} (h : none ∈ gap) :
    ∃ gap', gap' <:+ gap ∧ ∀ more, silence (gap ++ more) = gap' ++ more := by
  induction gap with
  | nil => cases h
  | cons a gap ih =>
    cases a with
    | none => exact ⟨gap, List.suffix_cons _ _, fun _ => rfl⟩
    | some b =>
      have hrest : none ∈ gap := (List.mem_cons.1 h).resolve_left nofun
      obtain ⟨gap', hsuffix, hsilence⟩ := ih hrest
      exact ⟨gap', hsuffix.trans (List.suffix_cons _ _), hsilence⟩

theorem silence_repetitions (f : List UInt8) {gaps : List (List (Option UInt8))} (hgaps : ∀ gap ∈ gaps, Gap gap)
    (hpauses : ∀ gap ∈ gaps, none ∈ gap) (rest : List (Option UInt8)) :
    ∃ gaps' rest', gaps'.length = gaps.length ∧ (∀ gap ∈ gaps', Gap gap) ∧ gaps'.tail = gaps.tail ∧
      silence (repetitions f gaps ++ rest) = repetitions f gaps' ++ rest' := by
  cases gaps with
  | nil => exact ⟨[], silence rest, rfl, hgaps, rfl, rfl⟩
  | cons gap gaps =>
    obtain ⟨hgap, hothers⟩ := List.forall_mem_cons.1 hgaps
    obtain ⟨gap', hsuffix, hsilence⟩ := silence_gap (hpauses gap List.mem_cons_self)
    refine ⟨gap' :: gaps, rest, rfl, List.forall_mem_cons.2 ⟨hgap.suffix hsuffix, hothers⟩, rfl, ?_⟩
    rw [repetitions, List.flatMap_cons, List.append_assoc, List.append_assoc, hsilence, repetitions, List.flatMap_cons,
      List.append_assoc, List.append_assoc]

/-- The block before, sent again and again. Where it is refused, what comes up to a pause is
thrown away. -/
theorem turns_again (hsized : Sized payload) {gaps : List (List (Option UInt8))} (hask : s.trychar = 0)
    (hretrans : s.packetno = 0 ∨ (gaps.length : Int) < s.retrans) (hgaps : ∀ gap ∈ gaps, Gap gap)
    (hpauses : s.packetno = 0 → ∀ gap ∈ gaps.tail, none ∈ gap)
    (hline : s.port.line = repetitions (frame s.crc (s.packetno - 1) payload) gaps ++ rest) :
    ∃ s', turns destsz gaps.length s = some s' ∧ (s'.dest = s.dest ∧ s'.len = s.len ∧ s'.packetno = s.packetno) ∧
      s'.port.sent = s.port.sent ++ List.replicate gaps.length (if s.packetno = 0 then NAK else ACK) := by
  obtain ⟨j, hj⟩ : ∃ j, gaps.length = j := ⟨_, rfl⟩
  rw [hj] at hretrans ⊢
  induction j generalizing s gaps rest with
  | zero => exact ⟨s, rfl, ⟨rfl, rfl, rfl⟩, (List.append_nil _).symm⟩
  | succ j ih =>
    obtain ⟨gap, gaps, rfl⟩ := List.exists_cons_of_length_eq_add_one hj
    obtain ⟨⟨hshort, hquiet⟩, hothers⟩ := List.forall_mem_cons.1 hgaps
    rw [repetitions, List.flatMap_cons, List.append_assoc, List.append_assoc, ← repetitions, ← mode_of_quiet hask] at hline
    obtain ⟨s', k, hturn, hafter, ⟨hdest, hlen, hnumber⟩, hless, hk, hport⟩ :=
      turn_again destsz hshort hquiet hsized (hretrans.imp_right fun h => by omega) hline
    have hnext : ∃ gaps' rest', gaps'.length = j ∧ (∀ gap ∈ gaps', Gap gap) ∧
        (s'.packetno = 0 → ∀ gap ∈ gaps'.tail, none ∈ gap) ∧
        s'.port.line = repetitions (frame s'.crc (s'.packetno - 1) payload) gaps' ++ rest' := by
      rw [hafter.crc, hnumber, hport]
      have hleft : gaps.length = j := Nat.succ.inj hj
      by_cases hzero : s.packetno = 0
      · obtain ⟨gaps', rest', hsame, hgaps', htail, hsilence⟩ :=
          silence_repetitions (frame (mode s) (s.packetno - 1) payload) hothers (hpauses hzero) rest
        rw [if_pos hzero]
        exact ⟨gaps', rest', hsame.trans hleft, hgaps',
          fun _ gap hgap => hpauses hzero gap (List.mem_of_mem_tail (htail ▸ hgap)), hsilence⟩
      · rw [if_neg hzero]
        exact ⟨gaps, rest, hleft, hothers, fun h => absurd h hzero, rfl⟩
    obtain ⟨gaps', rest', hleft, hgaps', hpauses', hline'⟩ := hnext
    obtain ⟨s₁, hturns, ⟨hdest₁, hlen₁, hnumber₁⟩, hsent⟩ :=
      ih hafter.trychar hgaps' hpauses' hline' (hnumber ▸ hretrans.imp_right fun h => by omega) hleft
    refine ⟨s₁, by rw [turns, hturn]; exact hturns, ⟨hdest₁.trans hdest, hlen₁.trans hlen, hnumber₁.trans hnumber⟩, ?_⟩
    have hanswer : s'.port.sent = s.port.sent ++ [if s.packetno = 0 then NAK else ACK] := by
      rw [hport, hk hask]
      split
      · rw [List.replicate_zero, List.append_nil]
      · rw [List.replicate_zero, List.append_nil]
    rw [hsent, hanswer, hnumber, List.append_assoc, List.replicate_succ]
    rfl

end Arrives

/-! ## The last block again -/

section Again
variable {line : List (Option UInt8)} {destsz : Int} {dest xbuff : Mem} {blocks : List (List UInt8)} {s : Receiver}

theorem Holds.number_eq_zero (h : Holds line destsz dest xbuff blocks s) : s.packetno = 0 ↔ blocks.length % 256 = 255 := by
  rw [h.number, ← UInt8.toNat_inj, UInt8.toNat_ofNat']
  show (blocks.length + 1) % 256 = 0 ↔ _
  omega

/-- As long as there are retries left, a sender that does not hear the ACK can repeat the last
block and gets the ACK again; nothing is stored twice. But the 255th block, the 511th and so on,
are answered with a NAK as often as they are repeated, if there is a pause before each. -/
theorem last_block_again {last : List UInt8} (h : Holds line destsz dest xbuff (blocks ++ [last]) s)
    (gaps : List (List (Option UInt8))) (hretrans : blocks.length % 256 = 254 ∨ (gaps.length : Int) < s.retrans)
    (hgaps : ∀ gap ∈ gaps, Gap gap) (hpauses : blocks.length % 256 = 254 → ∀ gap ∈ gaps.tail, none ∈ gap)
    (rest : List (Option UInt8))
    (hline : s.port.line = repetitions (frame s.crc (UInt8.ofNat (blocks.length + 1)) last) gaps ++ rest) :
    ∃ s', turns destsz gaps.length s = some s' ∧ s'.dest = s.dest ∧ s'.len = s.len ∧ s'.packetno = s.packetno ∧
      s'.port.sent = s.port.sent ++ List.replicate gaps.length (if blocks.length % 256 = 254 then NAK else ACK) := by
  have hask : s.trychar = 0 := by
    by_contra hasks
    exact absurd (h.asking hasks) (by simp)
  have hprevious : s.packetno - 1 = UInt8.ofNat (blocks.length + 1) := by
    rw [h.number, List.length_append, List.length_singleton, UInt8.ofNat_add (blocks.length + 1) 1]
    exact UInt8.add_sub_cancel _ _
  rw [← hprevious] at hline
  have hzero := h.number_eq_zero
  rw [List.length_append, List.length_singleton] at hzero
  have hwrap : s.packetno = 0 ↔ blocks.length % 256 = 254 := by
    rw [hzero]
    omega
  obtain ⟨s', hturns, ⟨hdest, hlen, hnumber⟩, hsent⟩ := turns_again destsz (h.sized last (by simp)) hask
    (hretrans.imp_left hwrap.2) hgaps (fun h => hpauses (hwrap.1 h)) hline
  refine ⟨s', hturns, hdest, hlen, hnumber, ?_⟩
  rw [hsent]
  simp only [hwrap]

/-- The receiver behind the first block. -/
def one_block (rest : List (Option UInt8)) : Receiver where
  port := ⟨rest, [ACK]⟩
  dest := Mem.copy (fun _ => 0) 0 (List.replicate 128 7)
  xbuff := fun _ => 0
  len := 128
  crc := true
  trychar := 0
  packetno := 2
  retrans := 25

/-- The first block twice more, at once and behind a pause. -/
def twice_more : List (Option UInt8) := repetitions (frame true 1 (List.replicate 128 7)) [[], [none]]

theorem last_block_again_first : ∃ s', turns 1024 2 (one_block twice_more) = some s' ∧ s'.len = 128 ∧
    s'.port.sent = [ACK, ACK, ACK] := by
  have hholds : Holds ((frame true 1 (List.replicate 128 7)).map some ++ twice_more) 1024 (fun _ => 0) (fun _ => 0)
      ([] ++ [List.replicate 128 7]) (one_block twice_more) := by
    have hall : ([] ++ [List.replicate 128 (7 : UInt8)]).flatten.take (1024 : Int).toNat = List.replicate 128 7 := by simp
    have hsized : ∀ block ∈ [] ++ [List.replicate 128 (7 : UInt8)], Sized block := by
      intro block hmem
      obtain rfl := List.mem_singleton.1 hmem
      exact .inl List.length_replicate
    refine ⟨hsized, Carried.start.frame, rfl, ?_, ?_, fun _ _ => rfl, fun h => absurd rfl h⟩
    · rw [hall, one_block]
    · rw [hall, one_block, List.length_replicate]
  have hgaps : ∀ gap ∈ [[], [none]], Gap gap :=
    List.forall_mem_cons.2 ⟨gap_nil, List.forall_mem_singleton.2 gap_pause⟩
  obtain ⟨s', hturns, -, hlen, -, hsent⟩ :=
    last_block_again hholds _ (.inr (by decide)) hgaps (fun h => absurd h (by decide)) [] (List.append_nil _).symm
  exact ⟨s', hturns, hlen, hsent⟩

end Again

/-! ## Damage -/

section Damage
variable (destsz : Int) {s : Receiver} {quiet rest : List (Option UInt8)} {payload body : List UInt8} {before xs ys after : List Bool}

/-- What a burst of at most 16 bits makes of a block and its CRC belongs to no frame. -/
theorem burst_no_frame (hsent : bits (payload ++ check_bytes true payload) = before ++ xs ++ after)
    (harrived : bits body = before ++ ys ++ after) (hlen : xs.length = ys.length) (hburst : xs.length ≤ 16) (hdamage : xs ≠ ys)
    {c number inverse number' : UInt8} {payload' : List UInt8} : c :: number :: inverse :: body ≠ frame true number' payload' := by
  intro hframe
  rw [frame] at hframe
  injection hframe with _ htail
  injection htail with _ htail
  injection htail with _ hbody
  have hremainder := crc16_check_bytes payload
  rw [← crc16_check_bytes payload', ← hbody, crc16, crc16, hsent, harrived] at hremainder
  exact hdamage (Crc.left_burst ccitt (by decide) (by decide) hlen hburst hremainder)

theorem burst_length (hsent : bits (payload ++ check_bytes true payload) = before ++ xs ++ after)
    (harrived : bits body = before ++ ys ++ after) (hlen : xs.length = ys.length) (number inverse : UInt8) :
    (number :: inverse :: body).length = payload.length + check_size true + 2 := by
  have hsize := congrArg List.length hsent
  have hsize' := congrArg List.length harrived
  rw [length_bits, List.length_append, length_check_bytes] at hsize
  rw [length_bits] at hsize'
  simp only [List.length_append] at hsize hsize'
  rw [List.length_cons, List.length_cons]
  omega

/-- Bytes that announce a block, but are no frame, are refused. -/
theorem turn_refused {c : UInt8} {bufsz : Nat} {data : List UInt8} (hshort : quiet.length < 16) (hquiet : ∀ a ∈ quiet, Quiet a)
    (hkind : Announces c bufsz) (hlen : data.length = bufsz + check_size (mode s) + 2)
    (hno : ∀ number payload, c :: data ≠ frame (mode s) number payload)
    (hline : s.port.line = quiet ++ some c :: (data.map some ++ rest)) :
    ∃ s' k, turn destsz s = .cont s' ∧ After s s' ∧ (s'.dest = s.dest ∧ s'.len = s.len ∧ s'.packetno = s.packetno) ∧
      s'.port = ⟨silence rest, s.port.sent ++ List.replicate k s.trychar ++ [NAK]⟩ := by
  obtain ⟨k, -, hafter, hturn⟩ := turn_data destsz hshort hquiet hkind hlen hline
  have hbad : ¬acceptable (arrived s k c data rest) bufsz := by
    intro hok
    obtain ⟨number, payload, -, hframe, -⟩ := (acceptable_iff (s := arrived s k c data rest) hkind hlen rfl).1 hok
    exact hno number payload hframe
  rw [hturn, process, if_neg hbad]
  exact ⟨_, k, rfl, ⟨hafter.crc, hafter.trychar, hafter.xbuff⟩, ⟨rfl, rfl, rfl⟩, rfl⟩

/-- The table of `crc16_ccitt` divides out the polynomial 0x1021. So a block and its CRC that
were changed in a burst of at most 16 bits are refused, whatever stands in front of them. -/
theorem burst_refused (hmode : mode s = true) (hshort : quiet.length < 16) (hquiet : ∀ a ∈ quiet, Quiet a) {c number inverse : UInt8}
    (hkind : Announces c payload.length) (hsent : bits (payload ++ check_bytes true payload) = before ++ xs ++ after)
    (harrived : bits body = before ++ ys ++ after) (hlen : xs.length = ys.length) (hburst : xs.length ≤ 16) (hdamage : xs ≠ ys)
    (hline : s.port.line = quiet ++ some c :: ((number :: inverse :: body).map some ++ rest)) :
    (∀ (buf : Mem) (len : Nat), crc16_ccitt buf len = Crc.left_bits 0x1021 0 (bits (Mem.bytes buf 0 len))) ∧
      ∃ s' k, turn destsz s = .cont s' ∧ After s s' ∧ (s'.dest = s.dest ∧ s'.len = s.len ∧ s'.packetno = s.packetno) ∧
        s'.port = ⟨silence rest, s.port.sent ++ List.replicate k s.trychar ++ [NAK]⟩ := by
  refine ⟨crc16_ccitt_eq, ?_⟩
  have hdata := burst_length hsent harrived hlen number inverse
  rw [← hmode] at hdata
  refine turn_refused destsz hshort hquiet hkind hdata (fun number' payload' => ?_) hline
  rw [hmode]
  exact burst_no_frame hsent harrived hlen hburst hdamage

/-- A block of zeros. -/
def zeros : List UInt8 := 0 :: List.replicate 127 0

/-- Its frame behind the first byte, with one bit of the block changed. -/
def damaged (number : UInt8) : List UInt8 := number :: ~~~number :: 1 :: (List.replicate 127 0 ++ check_bytes true zeros)

theorem damaged_bits : bits (zeros ++ check_bytes true zeros) = List.replicate 7 false ++ [false] ++
      bits (List.replicate 127 0 ++ check_bytes true zeros) ∧
    bits (1 :: (List.replicate 127 0 ++ check_bytes true zeros)) = List.replicate 7 false ++ [true] ++
      bits (List.replicate 127 0 ++ check_bytes true zeros) := by
  have hbyte : ∀ (b : UInt8) (data : List UInt8), bits (b :: data) = bits [b] ++ bits data := fun b data => bits_append [b] data
  have hzero : bits [0] = List.replicate 7 false ++ [false] := rfl
  have hone : bits [1] = List.replicate 7 false ++ [true] := rfl
  rw [← hzero, ← hone]
  exact ⟨hbyte 0 _, hbyte 1 _⟩

theorem burst_refused_bit : ∃ s' k, turn 1024 (one_block ((SOH :: damaged 2).map some)) = .cont s' ∧
    s'.port.sent = [ACK] ++ List.replicate k 0 ++ [NAK] := by
  have hline : (one_block ((SOH :: damaged 2).map some)).port.line = [] ++ some SOH :: ((damaged 2).map some ++ []) := by
    rw [List.append_nil]
    rfl
  obtain ⟨-, s', k, hturn, -, -, hport⟩ := burst_refused 1024 rfl (by decide) (fun _ h => by cases h) (.inl ⟨rfl, rfl⟩)
    damaged_bits.1 damaged_bits.2 rfl (by decide) (by decide) hline
  exact ⟨s', k, hturn, congrArg Port.sent hport⟩

end Damage

/-! ## Without losses -/

section Clean
variable {line : List (Option UInt8)} {destsz : Int} {dest xbuff : Mem} {blocks : List (List UInt8)} {s : Receiver}

/-- Frames with a CRC for these blocks, numbered from `i + 1` on, and what the line gives between
them. -/
def transmission (gap : Nat → List (Option UInt8)) : Nat → List (List UInt8) → List (Option UInt8)
  | i, [] => gap i ++ [some EOT]
  | i, block :: blocks => gap i ++ ((frame true (UInt8.ofNat (i + 1)) block).map some ++ transmission gap (i + 1) blocks)

/-- An EOT ends the transmission. -/
theorem turn_eot (destsz : Int) {quiet rest : List (Option UInt8)} (hgap : Gap quiet)
    (hline : s.port.line = quiet ++ some EOT :: rest) :
    ∃ sent, sync s.trychar 16 s.port = (.eot, ⟨rest, sent⟩) ∧
      turn destsz s = .done (s.len, { s with port := _outbyte ACK (flushinput ⟨rest, sent⟩) }) := by
  obtain ⟨sent, -, heot⟩ := sync_quiet s.trychar hgap.1 hgap.2 EOT rest s.port.sent
  have hsync := heot rfl
  rw [← hline] at hsync
  exact ⟨sent, hsync, by rw [turn, hsync]⟩

theorem transmission_received {gap : Nat → List (Option UInt8)} (hgap : ∀ i, Gap (gap i)) {known : List (List UInt8)}
    (h : Holds line destsz dest xbuff known s) (hmode : mode s = true) {rest : List (Option UInt8)} (hsized : ∀ block ∈ blocks, Sized block)
    (hline : s.port.line = transmission gap known.length blocks ++ rest) :
    ∃ s', loop (turn destsz) (blocks.length + 1) s = some ((s'.len : Int), s') ∧ Holds line destsz dest xbuff (known ++ blocks) s' := by
  induction blocks generalizing s known with
  | nil =>
    rw [transmission, List.append_assoc, List.singleton_append] at hline
    obtain ⟨sent, -, hturn⟩ := turn_eot destsz (hgap known.length) hline
    have hsuffix : rest <:+ s.port.line := by
      rw [hline]
      exact (List.suffix_cons _ _).trans (List.suffix_append _ _)
    rw [List.append_nil]
    refine ⟨{ s with port := _outbyte ACK (flushinput ⟨rest, sent⟩) }, loop_done hturn _, h.of_port ?_⟩
    exact (silence_suffix rest).trans hsuffix
  | cons block blocks ih =>
    obtain ⟨hshort, hquiet⟩ := hgap known.length
    obtain ⟨hblock, hrest⟩ := List.forall_mem_cons.1 hsized
    rw [transmission, List.append_assoc, List.append_assoc, ← h.number, ← hmode] at hline
    obtain ⟨s', hturn, hafter, hline', hdest, hlen, hnumber, -⟩ := turn_next destsz hshort hquiet hblock hline
    have hframed := framed_of_line hshort hquiet hblock hline
    rw [← hline'] at hframed
    have hnew := h.new hframed hafter hdest hlen hnumber
    have hmode' : mode s' = true := hafter.mode.trans hmode
    rw [loop_cont hturn]
    obtain ⟨s₁, hloop, hholds⟩ := ih hnew hmode' hrest (by rw [hline', List.length_append]; rfl)
    rw [List.append_assoc] at hholds
    exact ⟨s₁, hloop, hholds⟩

theorem zmodem_retry_skip {probe : List (Option UInt8)} (hprobe : some 'Z'.toUInt8 ∉ probe) (line : List (Option UInt8))
    (sent : List UInt8) : zmodem_retry probe.length ⟨probe ++ line, sent⟩ = ⟨line, sent⟩ := by
  induction probe with
  | nil => rfl
  | cons a probe ih =>
    obtain ⟨hfirst, hrest⟩ := not_or.1 (List.mem_cons.not.1 hprobe)
    have hread : _inbyte ⟨a :: probe ++ line, sent⟩ = (a, ⟨probe ++ line, sent⟩) := rfl
    rw [List.length_cons, zmodem_retry, hread, if_neg (Ne.symm hfirst)]
    exact ih hrest

/-- The first three answers are taken by the probe for ZMODEM. -/
theorem receiver_line {probe : List (Option UInt8)} (hprobe : probe.length = 3 ∧ some 'Z'.toUInt8 ∉ probe)
    (line : List (Option UInt8)) (dest xbuff : Mem) : (receiver (probe ++ line) dest xbuff).port = ⟨line, []⟩ := by
  have hskip := zmodem_retry_skip hprobe.2 line []
  rw [hprobe.1] at hskip
  exact hskip

theorem three_pauses : ([none, none, none] : List (Option UInt8)).length = 3 ∧ some 'Z'.toUInt8 ∉ [none, none, none] :=
  ⟨rfl, by decide⟩

/-- A file that is sent as blocks, with pauses and with bytes that say nothing between the frames,
is what the receiver has stored at the end, as far as there is room. -/
theorem file_received {gap : Nat → List (Option UInt8)} (hgap : ∀ i, Gap (gap i)) (probe : List (Option UInt8))
    (hprobe : probe.length = 3 ∧ some 'Z'.toUInt8 ∉ probe) (hsized : ∀ block ∈ blocks, Sized block) (rest : List (Option UInt8))
    (destsz : Int) (dest xbuff : Mem) :
    ∃ s, xmodemReceive (blocks.length + 1) (probe ++ (transmission gap 0 blocks ++ rest)) dest destsz xbuff = some ((s.len : Int), s) ∧
      s.len = (blocks.flatten.take destsz.toNat).length ∧ s.dest = Mem.copy dest 0 (blocks.flatten.take destsz.toNat) := by
  have hstart := holds_start (probe ++ (transmission gap 0 blocks ++ rest)) destsz dest xbuff
  have hport := congrArg Port.line (receiver_line hprobe (transmission gap 0 blocks ++ rest) dest xbuff)
  obtain ⟨s, hloop, hholds⟩ := transmission_received hgap hstart rfl hsized hport
  exact ⟨s, hloop, hholds.len, hholds.stored⟩

/-- A file of one block. -/
theorem file_received_block : ∃ s, xmodemReceive 2 ([none, none, none] ++
      (transmission (fun _ => [none]) 0 [List.replicate 128 7] ++ [])) (fun _ => 0) 1024 (fun _ => 0) = some ((s.len : Int), s) ∧
    s.len = 128 := by
  have hgap : ∀ _ : Nat, Gap [none] := fun _ => gap_pause
  have hsized : ∀ block ∈ [List.replicate 128 (7 : UInt8)], Sized block := by
    intro block hmem
    obtain rfl := List.mem_singleton.1 hmem
    exact .inl List.length_replicate
  obtain ⟨s, hrun, hlen, -⟩ := file_received hgap [none, none, none] ⟨rfl, by decide⟩ hsized [] 1024 (fun _ => 0) fun _ => 0
  exact ⟨s, hrun, hlen⟩

end Clean

/-! ## With a sender -/

/-- A sender that knows of `n` blocks that they arrived, so that it sends the next one, and the
receiver. -/
structure Link where
  n : Nat
  receiver : Receiver

/-- The line may do what it wants to a frame, but damage is noticed: what the receiver takes for
a frame is the one that is being sent, and an EOT is only sent behind the last block. -/
structure Honest (blocks : List (List UInt8)) (link : Link) : Prop where
  frame : ∀ number payload rest, Framed link.receiver number payload rest →
    number = UInt8.ofNat (link.n + 1) ∧ blocks[link.n]? = some payload
  eot : ∀ port, sync link.receiver.trychar 16 link.receiver.port = (.eot, port) → link.n = blocks.length

/-- A turn of the receiver. The sender goes on to the next block only if the receiver sent an
ACK, but an ACK may be lost. -/
inductive Round (destsz : Int) (blocks : List (List UInt8)) : Link → Link → Prop
  | lost {n s s'} (hhonest : Honest blocks ⟨n, s⟩) (hturn : turn destsz s = .cont s') : Round destsz blocks ⟨n, s⟩ ⟨n, s'⟩
  | heard {n s s'} (hhonest : Honest blocks ⟨n, s⟩) (hturn : turn destsz s = .cont s')
      (hack : ACK ∈ s'.port.sent.drop s.port.sent.length) : Round destsz blocks ⟨n, s⟩ ⟨n + 1, s'⟩

section Link
variable {line : List (Option UInt8)} {destsz : Int} {dest xbuff : Mem} {blocks : List (List UInt8)}

/-- The receiver has the blocks that the sender knows of, and at most one more. -/
structure Linked (line : List (Option UInt8)) (destsz : Int) (dest xbuff : Mem) (blocks : List (List UInt8)) (k : Nat) (link : Link) :
    Prop where
  known : link.n ≤ k
  ahead : k ≤ link.n + 1
  within : k ≤ blocks.length
  holds : Holds line destsz dest xbuff (blocks.take k) link.receiver
  asks : link.receiver.trychar ≠ ACK

/-- What the receiver does with an honest line, whether its answer is heard or not. -/
theorem linked_turn {k n : Nat} {s s' : Receiver} (h : Linked line destsz dest xbuff blocks k ⟨n, s⟩) (hhonest : Honest blocks ⟨n, s⟩)
    (hturn : turn destsz s = .cont s') :
    ∃ k', Linked line destsz dest xbuff blocks k' ⟨n, s'⟩ ∧ (ACK ∈ s'.port.sent.drop s.port.sent.length → k' = n + 1) := by
  obtain ⟨hknown, hahead, hwithin, hholds, hasks⟩ := h
  dsimp only at hknown hahead hholds hasks
  have hlength : (blocks.take k).length = k := by rw [List.length_take, Nat.min_eq_left hwithin]
  have hnumber : s.packetno.toNat = (k + 1) % 256 := by rw [hholds.number, hlength, UInt8.toNat_ofNat']
  have hmine : ∀ {number payload rest}, Framed s number payload rest →
      number.toNat = (n + 1) % 256 ∧ blocks[n]? = some payload := by
    intro number payload rest hframe
    obtain ⟨hnum, hpayload⟩ := hhonest.frame number payload rest hframe
    rw [hnum, UInt8.toNat_ofNat']
    exact ⟨rfl, hpayload⟩
  have hspec := turn_spec destsz s
  rw [hturn] at hspec
  cases hspec with
  | fall_back port hline hask hsent =>
    obtain ⟨requests, hsent⟩ := hsent
    have hnone : blocks.take k = [] := hholds.asking (hask ▸ by decide)
    refine ⟨k, ⟨hknown, hahead, hwithin, { hholds.of_port hline with asking := fun _ => hnone }, show NAK ≠ ACK by decide⟩, ?_⟩
    intro hack
    rw [hsent, List.drop_left] at hack
    exact absurd (List.eq_of_mem_replicate hack).symm hasks
  | rejected _ hafter hsame hretrans hline hsent =>
    obtain ⟨requests, hsent⟩ := hsent
    refine ⟨k, ⟨hknown, hahead, hwithin, hholds.same hafter hline.1 hsame, hafter.trychar ▸ by decide⟩, ?_⟩
    intro hack
    rw [hsent, List.append_assoc, List.drop_left] at hack
    rcases List.mem_append.1 hack with hrequest | hnak
    · exact absurd (List.eq_of_mem_replicate hrequest).symm hasks
    · exact absurd (List.mem_singleton.1 hnak) (by decide)
  | new _ payload hframe hafter hdest hlen hnext hretrans =>
    obtain ⟨hnum, hpayload⟩ := hmine hframe
    obtain rfl : k = n := by omega
    obtain ⟨hin, rfl⟩ := List.getElem?_eq_some_iff.1 hpayload
    have hnew := hholds.new hframe hafter hdest hlen hnext
    rw [← List.take_succ_eq_append_getElem hin] at hnew
    exact ⟨k + 1, ⟨Nat.le_succ k, Nat.le_refl _, hin, hnew, hafter.trychar ▸ by decide⟩, fun _ => rfl⟩
  | repeated _ number payload hframe hprevious hafter hsame hretrans =>
    obtain ⟨hnum, hpayload⟩ := hmine hframe
    obtain rfl : k = n + 1 := by omega
    exact ⟨n + 1, ⟨hknown, hahead, hwithin, hholds.same hafter hframe.shorter.1 hsame, hafter.trychar ▸ by decide⟩, fun _ => rfl⟩

/-- In every run the receiver has stored the blocks that the sender knows of and at most one
more, each once and in order. When it ends with a result that is not negative, these are all of
them. -/
theorem blocks_stored_once {link : Link}
    (h : Reachable (fun link => link = ⟨0, receiver line dest xbuff⟩) (Round destsz blocks) link) :
    (∃ k, Linked line destsz dest xbuff blocks k link) ∧
      ∀ result s', Honest blocks link → turn destsz link.receiver = .done (result, s') → 0 ≤ result →
        Holds line destsz dest xbuff blocks s' ∧ result = (blocks.flatten.take destsz.toNat).length := by
  have hlinked : ∃ k, Linked line destsz dest xbuff blocks k link := by
    apply Reachable.inv (fun link => ∃ k, Linked line destsz dest xbuff blocks k link) ?_ ?_ h
    · rintro _ rfl
      exact ⟨0, ⟨Nat.le_refl 0, Nat.zero_le 1, Nat.zero_le _, holds_start line destsz dest xbuff, show 'C'.toUInt8 ≠ ACK by decide⟩⟩
    · rintro _ _ ⟨k, hk⟩ hround
      cases hround with
      | lost hhonest hturn =>
        obtain ⟨k', hk', -⟩ := linked_turn hk hhonest hturn
        exact ⟨k', hk'⟩
      | heard hhonest hturn hack =>
        obtain ⟨k', hk', hack'⟩ := linked_turn hk hhonest hturn
        obtain rfl := hack' hack
        exact ⟨_, ⟨Nat.le_refl _, Nat.le_succ _, hk'.within, hk'.holds, hk'.asks⟩⟩
  refine ⟨hlinked, ?_⟩
  intro result s' hhonest hturn hresult
  obtain ⟨k, hknown, -, hwithin, hholds, -⟩ := hlinked
  have hspec := turn_spec destsz link.receiver
  rw [hturn] at hspec
  cases hspec with
  | eot port asked hsync hline =>
    have hall : link.n = blocks.length := hhonest.eot asked hsync
    rw [List.take_of_length_le (by omega)] at hholds
    exact ⟨hholds.of_port hline, congrArg Int.ofNat hholds.len⟩
  | lost _ port hnegative hline => exact absurd hresult (Int.not_le.2 hnegative)
  | too_many _ number payload rest hframe hprevious hafter hsame hretrans hline => exact absurd hresult (by decide)

/-! ## A damaged frame and a lost ACK -/

theorem frame_inj {crc : Bool} {number number' : UInt8} {payload payload' : List UInt8}
    (h : frame crc number payload = frame crc number' payload') : number = number' ∧ payload = payload' := by
  have hsize := congrArg List.length h
  simp only [frame, List.length_cons, List.length_append, length_check_bytes] at hsize
  rw [frame, frame] at h
  injection h with _ htail
  injection htail with hnumber htail
  injection htail with _ hbody
  exact ⟨hnumber, List.append_inj_left hbody (by omega)⟩

/-- What is taken for a frame are the bytes behind the announcement. -/
theorem Framed.bytes {s : Receiver} {quiet rest rest' : List (Option UInt8)} {c number : UInt8} {bufsz : Nat}
    {data payload : List UInt8} (h : Framed s number payload rest') (hgap : Gap quiet) (hkind : Announces c bufsz)
    (hlen : data.length = bufsz + check_size (mode s) + 2) (hline : s.port.line = quiet ++ some c :: (data.map some ++ rest)) :
    c :: data = frame (mode s) number payload := by
  obtain ⟨hsized, c', bufsz', port, hsync, hframe⟩ := h
  obtain ⟨sent, hsync'⟩ := sync_announced hgap.1 hgap.2 hkind hline
  rw [hsync] at hsync'
  obtain ⟨hsame, rfl⟩ := Prod.mk.inj hsync'
  obtain ⟨rfl, rfl⟩ := Sync.start_recv.inj hsame
  have hfirst : c' = if payload.length = 128 then SOH else STX := Option.some.inj (List.cons.inj hframe).1
  have hsize : bufsz' = payload.length := by
    have hc := announces_frame hsized
    rw [← hfirst] at hc
    rcases hkind with ⟨rfl, rfl⟩ | ⟨rfl, rfl⟩ <;> rcases hc with ⟨hc, hb⟩ | ⟨hc, hb⟩
    · exact hb.symm
    · exact absurd hc (by decide)
    · exact absurd hc (by decide)
    · exact hb.symm
  rw [← List.cons_append, ← List.map_cons] at hframe
  refine List.map_injective_iff.2 (Option.some_injective _) (List.append_inj_left hframe ?_)
  rw [List.length_map, List.length_map, List.length_cons, hlen, hsize, frame]
  simp only [List.length_cons, List.length_append, length_check_bytes]

theorem honest_frame {n : Nat} {s : Receiver} {block : List UInt8} {quiet rest : List (Option UInt8)} (hblock : blocks[n]? = some block)
    (hsized : Sized block) (hgap : Gap quiet)
    (hline : s.port.line = quiet ++ ((frame (mode s) (UInt8.ofNat (n + 1)) block).map some ++ rest)) : Honest blocks ⟨n, s⟩ := by
  obtain ⟨c, data, hframe, hkind, hlen⟩ := frame_announced (mode s) (UInt8.ofNat (n + 1)) hsized
  rw [← hframe] at hline
  obtain ⟨sent, hsync⟩ := sync_announced hgap.1 hgap.2 hkind hline
  refine ⟨fun number payload rest' hframed => ?_, fun port heot => ?_⟩
  · have hsame := hframed.bytes hgap hkind hlen hline
    rw [hframe] at hsame
    obtain ⟨rfl, rfl⟩ := frame_inj hsame
    exact ⟨rfl, hblock⟩
  · cases hsync.symm.trans heot

/-- Damage that is noticed. -/
theorem honest_damaged {n : Nat} {s : Receiver} {c : UInt8} {bufsz : Nat} {data : List UInt8} {quiet rest : List (Option UInt8)}
    (hgap : Gap quiet) (hkind : Announces c bufsz) (hlen : data.length = bufsz + check_size (mode s) + 2)
    (hno : ∀ number payload, c :: data ≠ frame (mode s) number payload)
    (hline : s.port.line = quiet ++ some c :: (data.map some ++ rest)) : Honest blocks ⟨n, s⟩ := by
  obtain ⟨sent, hsync⟩ := sync_announced hgap.1 hgap.2 hkind hline
  refine ⟨fun number payload rest' hframed => ?_, fun port heot => ?_⟩
  · exact absurd (hframed.bytes hgap hkind hlen hline) (hno number payload)
  · cases hsync.symm.trans heot

theorem honest_eot {s : Receiver} {quiet rest : List (Option UInt8)} (hgap : Gap quiet)
    (hline : s.port.line = quiet ++ some EOT :: rest) : Honest blocks ⟨blocks.length, s⟩ := by
  obtain ⟨sent, hsync, -⟩ := turn_eot 0 hgap hline
  refine ⟨fun number payload rest' hframed => ?_, fun _ _ => rfl⟩
  obtain ⟨-, c, bufsz, port, hframe, -⟩ := hframed
  cases hsync.symm.trans hframe

/-- The frame comes with one bit changed, then as it was sent, but its ACK is lost, and once
more. -/
def lossy_line : List (Option UInt8) :=
  [none, none, none] ++ ((SOH :: damaged 1).map some ++ none :: ((frame true 1 zeros).map some ++
    none :: ((frame true 1 zeros).map some ++ [some EOT])))

theorem zeros_sized : Sized zeros := .inl rfl

theorem blocks_stored_once_resent : ∃ s₁ s₂ s₃ s',
    Round 1024 [zeros] ⟨0, receiver lossy_line (fun _ => 0) fun _ => 0⟩ ⟨0, s₁⟩ ∧ s₁.packetno = 1 ∧
    Round 1024 [zeros] ⟨0, s₁⟩ ⟨0, s₂⟩ ∧ s₂.packetno = 2 ∧
    Round 1024 [zeros] ⟨0, s₂⟩ ⟨1, s₃⟩ ∧ s₃.packetno = 2 ∧ turn 1024 s₃ = .done (128, s') ∧
    Holds lossy_line 1024 (fun _ => 0) (fun _ => 0) [zeros] s' := by
  have hport := receiver_line three_pauses ((SOH :: damaged 1).map some ++
    none :: ((frame true 1 zeros).map some ++ none :: ((frame true 1 zeros).map some ++ [some EOT]))) (fun _ => 0) fun _ => 0
  obtain ⟨s₀, hs₀⟩ : ∃ s₀, s₀ = receiver lossy_line (fun _ => 0) fun _ => 0 := ⟨_, rfl⟩
  have hmode₀ : mode s₀ = true := hs₀ ▸ rfl
  have hnumber₀ : s₀.packetno = 1 := hs₀ ▸ rfl
  have hline₀ := congrArg Port.line hport
  rw [← lossy_line, ← hs₀] at hline₀
  -- one bit is changed
  have hkind : Announces SOH zeros.length := .inl ⟨rfl, rfl⟩
  have hlen₀ : (damaged 1).length = zeros.length + check_size (mode s₀) + 2 := by
    rw [hmode₀]
    exact burst_length damaged_bits.1 damaged_bits.2 rfl 1 (~~~1)
  have hno₀ : ∀ number payload, SOH :: damaged 1 ≠ frame (mode s₀) number payload := by
    intro number payload
    rw [hmode₀]
    exact burst_no_frame damaged_bits.1 damaged_bits.2 rfl (by decide) (by decide)
  obtain ⟨s₁, k₁, hturn₀, hafter₁, ⟨-, -, hnumber₁⟩, hport₁⟩ := turn_refused 1024 gap_nil.1 gap_nil.2 hkind hlen₀ hno₀ hline₀
  have hround₀ : Round 1024 [zeros] ⟨0, s₀⟩ ⟨0, s₁⟩ := .lost (honest_damaged gap_nil hkind hlen₀ hno₀ hline₀) hturn₀
  rw [hnumber₀] at hnumber₁
  -- the block arrives
  have hmode₁ : mode s₁ = true := hafter₁.mode.trans hmode₀
  have hline₁ : s₁.port.line = [] ++ ((frame (mode s₁) s₁.packetno zeros).map some ++
      none :: ((frame true 1 zeros).map some ++ [some EOT])) := by
    rw [hport₁, hmode₁, hnumber₁]
    rfl
  obtain ⟨s₂, hturn₁, hafter₂, hrest₂, -, -, hnumber₂, hretrans₂⟩ := turn_next 1024 gap_nil.1 gap_nil.2 zeros_sized hline₁
  have hround₁ : Round 1024 [zeros] ⟨0, s₁⟩ ⟨0, s₂⟩ :=
    .lost (honest_frame rfl zeros_sized gap_nil (hnumber₁ ▸ hline₁)) hturn₁
  rw [hnumber₁] at hnumber₂
  -- and once more
  have hmode₂ : mode s₂ = true := hafter₂.mode.trans hmode₁
  have hline₂ : s₂.port.line = [none] ++ ((frame (mode s₂) (s₂.packetno - 1) zeros).map some ++ [some EOT]) := by
    rw [hrest₂, hmode₂, hnumber₂]
    rfl
  have hretrans : s₂.packetno = 0 ∨ 1 < s₂.retrans := .inr (hretrans₂ ▸ by decide)
  obtain ⟨s₃, k₃, hturn₂, hafter₃, ⟨-, -, hnumber₃⟩, -, -, hport₃⟩ :=
    turn_again 1024 gap_pause.1 gap_pause.2 zeros_sized hretrans hline₂
  rw [hnumber₂, if_neg (by decide)] at hport₃
  have hack : ACK ∈ s₃.port.sent.drop s₂.port.sent.length := by
    rw [hport₃, List.append_assoc, List.drop_left]
    exact List.mem_append_right _ (List.mem_singleton.2 rfl)
  have hround₂ : Round 1024 [zeros] ⟨0, s₂⟩ ⟨1, s₃⟩ :=
    .heard (honest_frame rfl zeros_sized gap_pause (by rw [hline₂, hnumber₂]; rfl)) hturn₂ hack
  -- the end of the file
  have hline₃ : s₃.port.line = [] ++ some EOT :: [] := by
    rw [hport₃]
    rfl
  obtain ⟨sent, -, hturn₃⟩ := turn_eot 1024 gap_nil hline₃
  have hstart : Reachable (fun link => link = ⟨0, receiver lossy_line (fun _ => 0) fun _ => 0⟩) (Round 1024 [zeros]) ⟨0, s₀⟩ :=
    .start (congrArg (Link.mk 0) hs₀)
  have hreached := ((hstart.next hround₀).next hround₁).next hround₂
  have hstored := (blocks_stored_once hreached).2 _ _ (honest_eot gap_nil hline₃) hturn₃ (Int.natCast_nonneg _)
  refine ⟨s₁, s₂, s₃, _, hs₀ ▸ hround₀, hnumber₁, hround₁, hnumber₂, hround₂, hnumber₃.trans hnumber₂, ?_, hstored.1⟩
  rw [hturn₃, hstored.2]
  rfl

end Link

end McLinOS.Boot
