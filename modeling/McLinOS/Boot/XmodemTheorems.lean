import McLinOS.Boot.XmodemFrames
/-!
# What the receiver stores

On a line that falls silent the receiver comes to an end, and what it stored are the
blocks of frames that it found on the line.
-/
open CLib

set_option linter.style.nameCheck false

namespace McLinOS.Boot

/-! ## Any line -/

/-- Frames for these blocks, numbered from 1 on. -/
def frames (crc : Bool) (blocks : List (List UInt8)) : List (List UInt8) :=
  blocks.mapIdx fun i block => frame crc (UInt8.ofNat (i + 1)) block

theorem frames_append (crc : Bool) (blocks : List (List UInt8)) (block : List UInt8) :
    frames crc (blocks ++ [block]) = frames crc blocks ++ [frame crc (UInt8.ofNat (blocks.length + 1)) block] := List.mapIdx_concat

/-- The line carries the frames one behind the other, perhaps with something between them,
and then `rest`. -/
inductive Carried (line : List (Option UInt8)) : List (List UInt8) → List (Option UInt8) → Prop
  | start : Carried line [] line
  | skip {fs a rest} : Carried line fs (a :: rest) → Carried line fs rest
  | frame {fs f rest} : Carried line fs (f.map some ++ rest) → Carried line (fs ++ [f]) rest

theorem Carried.suffix {line rest rest' : List (Option UInt8)} {fs : List (List UInt8)} (h : Carried line fs rest)
    (hsuffix : rest' <:+ rest) : Carried line fs rest' := by
  obtain ⟨skipped, rfl⟩ := hsuffix
  induction skipped with
  | nil => exact h
  | cons a skipped ih => exact ih h.skip

/-- What the receiver has stored when it has found frames for these blocks. -/
structure Holds (line : List (Option UInt8)) (destsz : Int) (dest xbuff : Mem) (blocks : List (List UInt8)) (s : Receiver) : Prop where
  sized : ∀ block ∈ blocks, Sized block
  carried : Carried line (frames s.crc blocks) s.port.line
  number : s.packetno = UInt8.ofNat (blocks.length + 1)
  stored : s.dest = Mem.copy dest 0 (blocks.flatten.take destsz.toNat)
  len : s.len = (blocks.flatten.take destsz.toNat).length
  others : ∀ x, 1030 ≤ x → s.xbuff x = xbuff x
  asking : s.trychar ≠ 0 → blocks = []

theorem Framed.suffix {s : Receiver} {number : UInt8} {payload : List UInt8} {rest : List (Option UInt8)}
    (h : Framed s number payload rest) : (frame (mode s) number payload).map some ++ rest <:+ s.port.line := by
  obtain ⟨-, c, bufsz, port, hsync, hframe⟩ := h
  obtain ⟨-, -, hstart⟩ := sync_waited s.trychar 16 s.port
  rw [← hframe]
  rw [hsync] at hstart
  exact (hstart c bufsz rfl).2

theorem mode_of_quiet {s : Receiver} (h : s.trychar = 0) : mode s = s.crc := by
  rw [mode, h]
  exact Bool.or_false _

theorem After.mode {s s' : Receiver} (h : After s s') : Boot.mode s' = Boot.mode s := by rw [mode_of_quiet h.trychar, h.crc]

section Line
variable {line : List (Option UInt8)} {destsz : Int} {dest xbuff : Mem}

/-- What there is still room for goes behind what is there. -/
theorem take_append_room (stored payload : List UInt8) :
    (stored ++ payload).take destsz.toNat =
      stored.take destsz.toNat ++ room destsz (stored.take destsz.toNat).length payload := by
  rw [List.take_append, room, List.length_take]
  congr 2
  omega

/-- The kind of check is not changed once there is a block. -/
theorem Holds.frames_mode {blocks : List (List UInt8)} {s : Receiver} (h : Holds line destsz dest xbuff blocks s) :
    frames (mode s) blocks = frames s.crc blocks := by
  by_cases hask : s.trychar = 0
  · rw [mode_of_quiet hask]
  · rw [h.asking hask]
    rfl

/-- One more block. -/
theorem Holds.new {blocks : List (List UInt8)} {s s' : Receiver} {payload : List UInt8} (h : Holds line destsz dest xbuff blocks s)
    (hframe : Framed s s.packetno payload s'.port.line) (hafter : After s s')
    (hdest : s'.dest = Mem.copy s.dest s.len (room destsz s.len payload))
    (hlen : s'.len = s.len + (room destsz s.len payload).length) (hnumber : s'.packetno = s.packetno + 1) :
    Holds line destsz dest xbuff (blocks ++ [payload]) s' := by
  have hflatten : (blocks ++ [payload]).flatten = blocks.flatten ++ payload := by simp
  refine ⟨?_, ?_, ?_, ?_, ?_, ?_, ?_⟩
  · intro block hmem
    rcases List.mem_append.1 hmem with hold | hnew
    · exact h.sized block hold
    · obtain rfl := List.mem_singleton.1 hnew
      exact hframe.1
  · rw [hafter.crc, frames_append, h.frames_mode, ← h.number]
    exact (h.carried.suffix hframe.suffix).frame
  · rw [hnumber, h.number, List.length_append]
    exact (UInt8.ofNat_add _ _).symm
  · rw [hdest, h.stored, h.len, hflatten, take_append_room, ← Mem.copy_append, Nat.zero_add]
  · rw [hlen, h.len, hflatten, take_append_room, List.length_append]
  · intro x hx
    rw [hafter.xbuff x hx, h.others x hx]
  · intro hask
    exact absurd hafter.trychar hask

/-- Nothing new. -/
theorem Holds.same {blocks : List (List UInt8)} {s s' : Receiver} (h : Holds line destsz dest xbuff blocks s)
    (hafter : After s s') (hline : s'.port.line <:+ s.port.line)
    (hsame : s'.dest = s.dest ∧ s'.len = s.len ∧ s'.packetno = s.packetno) : Holds line destsz dest xbuff blocks s' := by
  obtain ⟨hdest, hlen, hnumber⟩ := hsame
  refine ⟨h.sized, ?_, by rw [hnumber, h.number], by rw [hdest, h.stored], by rw [hlen, h.len], ?_, ?_⟩
  · rw [hafter.crc, h.frames_mode]
    exact h.carried.suffix hline
  · intro x hx
    rw [hafter.xbuff x hx, h.others x hx]
  · intro hask
    exact absurd hafter.trychar hask

theorem Holds.of_port {blocks : List (List UInt8)} {s : Receiver} (h : Holds line destsz dest xbuff blocks s) {port : Port}
    (hline : port.line <:+ s.port.line) : Holds line destsz dest xbuff blocks { s with port } :=
  { h with carried := h.carried.suffix hline }

theorem Framed.shorter {s : Receiver} {number : UInt8} {payload : List UInt8} {rest : List (Option UInt8)}
    (h : Framed s number payload rest) : rest <:+ s.port.line ∧ rest.length < s.port.line.length := by
  have hsuffix := h.suffix
  refine ⟨(List.suffix_append _ _).trans hsuffix, Nat.lt_of_lt_of_le ?_ hsuffix.length_le⟩
  rw [List.length_append, List.length_map, frame]
  simp only [List.length_cons]
  omega

/-- What is left of the line, and the requests for a CRC, which are given up once. -/
def remaining (s : Receiver) : Nat := s.port.line.length + if s.trychar = 'C'.toUInt8 then 1 else 0

theorem remaining_after {s s' : Receiver} (hafter : After s s') (h : s'.port.line.length < s.port.line.length) :
    remaining s' < remaining s := by
  rw [remaining, remaining, hafter.trychar, if_neg (by decide)]
  omega

/-- How the receiver ends: with how much was stored, or with a negative result. -/
def Ended (line : List (Option UInt8)) (destsz : Int) (dest xbuff : Mem) (r : Int × Receiver) : Prop :=
  (r.1 = r.2.len ∨ r.1 < 0) ∧ ∃ blocks, Holds line destsz dest xbuff blocks r.2

/-- Every turn keeps to the frames on the line, and takes something of it. -/
theorem turn_holds {blocks : List (List UInt8)} {s : Receiver} (h : Holds line destsz dest xbuff blocks s) :
    (∃ r, turn destsz s = .done r ∧ Ended line destsz dest xbuff r) ∨
    ∃ s', turn destsz s = .cont s' ∧ (∃ blocks', Holds line destsz dest xbuff blocks' s') ∧ remaining s' < remaining s := by
  have hturn := turn_spec destsz s
  generalize turn destsz s = result at hturn
  cases hturn with
  | eot port asked hsync hline => exact .inl ⟨_, rfl, .inl rfl, blocks, h.of_port hline⟩
  | lost result port hresult hline => exact .inl ⟨_, rfl, .inr hresult, blocks, h.of_port hline⟩
  | fall_back port hline hask hsent =>
    have hnone : blocks = [] := h.asking (hask ▸ by decide)
    refine .inr ⟨_, rfl, ⟨blocks, { h.of_port hline with asking := fun _ => hnone }⟩, ?_⟩
    have hnak : NAK ≠ 'C'.toUInt8 := by decide
    rw [remaining, remaining, if_pos hask, if_neg hnak]
    exact Nat.lt_succ_of_le hline.length_le
  | rejected s' hafter hsame hretrans hline hsent =>
    exact .inr ⟨s', rfl, ⟨blocks, h.same hafter hline.1 hsame⟩, remaining_after hafter hline.2⟩
  | new s' payload hframe hafter hdest hlen hnumber hretrans =>
    exact .inr ⟨s', rfl, ⟨_, h.new hframe hafter hdest hlen hnumber⟩, remaining_after hafter hframe.shorter.2⟩
  | repeated s' number payload hframe hprevious hafter hsame hretrans =>
    exact .inr ⟨s', rfl, ⟨blocks, h.same hafter hframe.shorter.1 hsame⟩, remaining_after hafter hframe.shorter.2⟩
  | too_many s' number payload rest hframe hprevious hafter hsame hretrans hline =>
    exact .inl ⟨_, rfl, .inr (show (-3 : Int) < 0 by decide), blocks, h.same hafter hline hsame⟩

theorem zmodem_retry_suffix (n : Nat) (port : Port) : (zmodem_retry n port).line <:+ port.line := by
  induction n generalizing port with
  | zero => exact List.suffix_refl _
  | succ n ih =>
    obtain ⟨hread, -⟩ := inbyte_suffix port
    rw [zmodem_retry]
    split
    · exact hread
    · exact (ih _).trans hread

theorem holds_start (line : List (Option UInt8)) (destsz : Int) (dest xbuff : Mem) :
    Holds line destsz dest xbuff [] (receiver line dest xbuff) where
  sized := fun _ hmem => by cases hmem
  carried := Carried.start.suffix (zmodem_retry_suffix 3 _)
  number := rfl
  stored := by
    rw [List.flatten_nil, List.take_nil, Mem.copy_nil]
    rfl
  len := by
    rw [List.flatten_nil, List.take_nil]
    rfl
  others := fun _ _ => rfl
  asking := fun _ => rfl

/-- For any line that falls silent the receiver comes to an end. There are blocks, each of 128 or 1024 bytes, whose
frames, numbered from 1 on, the line carries in this order; they are what was stored one behind
the other, as far as there was room, and nothing else in `dest` or behind `xbuff` was written. The
result is how much was stored, or it is negative. -/
theorem xmodemReceive_any (line : List (Option UInt8)) (dest : Mem) (destsz : Int) (xbuff : Mem) (more : Nat) :
    ∃ r, xmodemReceive (line.length + 2 + more) line dest destsz xbuff = some r ∧ Ended line destsz dest xbuff r := by
  have hsteps : remaining (receiver line dest xbuff) < line.length + 2 + more := by
    have hshort : (receiver line dest xbuff).port.line.length ≤ line.length := (zmodem_retry_suffix 3 _).length_le
    rw [remaining]
    split <;> omega
  apply loop_spec remaining (fun s => ∃ blocks, Holds line destsz dest xbuff blocks s) (Ended line destsz dest xbuff) ?_
    ⟨[], holds_start line destsz dest xbuff⟩ hsteps
  rintro s ⟨blocks, h⟩
  exact turn_holds h

end Line

end McLinOS.Boot
