import McLinOS.Lib.Utf16
/-!
# What is printed

The text is laid out by the format and the arguments alone. The size of the buffer only
decides how much of it is there in the end.
-/
open CLib

set_option linter.style.nameCheck false

namespace McLinOS.Vsprintf

/-- What a conversion prints, without sign and padding. -/
inductive Body (c : Conv) : List Piece → Prop where
  | bytes : c.flags.WIDE = false → Body c ((Mem.bytes c.array c.s c.len).map .byte)
  | wide (n : Nat) : c.flags.WIDE = true → c.len < 2 ^ 32 → c.len = (utf8_bytes (read_chars c.array n c.s)).length →
      Body c ((read_chars c.array n c.s).map .char)

/-- The spaces that fill the field. -/
def spaces (c : Conv) : List UInt8 := List.replicate (c.field_width - c.precision).toNat ' '.toUInt8

/-- `"0x"`. -/
def base_text (c : Conv) : List UInt8 := if c.flags.SPECIAL then ['0'.toUInt8, 'X'.toUInt8 ||| case_bit c.flags.SMALL] else []

def zeros (c : Conv) : List UInt8 := List.replicate (c.precision.toNat - c.len) '0'.toUInt8

/-- A whole field. -/
def laid_out (c : Conv) (body : List Piece) : List Piece :=
  (if c.flags.LEFT then [] else (spaces c).map .byte) ++ c.sign.toList.map .byte ++ (base_text c).map .byte ++ (zeros c).map .byte ++
    body ++ (if c.flags.LEFT then (spaces c).map .byte else [])

theorem bytes_valid (cs : List UInt8) : ∀ p ∈ cs.map Piece.byte, p.Valid := by
  intro p hp
  obtain ⟨b, -, rfl⟩ := List.mem_map.1 hp
  trivial

theorem laid_out_valid {c : Conv} {body : List Piece} (h : ∀ p ∈ body, p.Valid) : ∀ p ∈ laid_out c body, p.Valid := by
  have hspaces : ∀ p ∈ (spaces c).map Piece.byte, p.Valid := bytes_valid _
  intro p hp
  simp only [laid_out, List.mem_append] at hp
  rcases hp with ((((hp | hp) | hp) | hp) | hp) | hp
  · split at hp
    · cases hp
    · exact hspaces p hp
  · exact bytes_valid _ p hp
  · exact bytes_valid _ p hp
  · exact bytes_valid _ p hp
  · exact h p hp
  · split at hp
    · exact hspaces p hp
    · cases hp

/-- The padding is counted without an overflow. -/
def Fits (c : Conv) : Prop :=
  (if c.flags.LEFT then -2 ^ 31 + 1 else -2 ^ 31 + 2 : Int) ≤ c.field_width - c.precision ∧ c.field_width - c.precision < 2 ^ 31

/-- The pieces of the text. -/
inductive Layout (m : Mem) : List UInt8 → List Arg → List Piece → Prop where
  | nil (args : List Arg) : Layout m [] args []
  | byte {c : UInt8} {fmt : List UInt8} {args : List Arg} {ps : List Piece} : c ≠ '%'.toUInt8 → Layout m fmt args ps →
      Layout m (c :: fmt) args (.byte c :: ps)
  | percent {fmt : List UInt8} {args : List Arg} {ps : List Piece} : Layout m fmt args ps →
      Layout m ('%'.toUInt8 :: '%'.toUInt8 :: fmt) args (.byte '%'.toUInt8 :: ps)
  | conv {fmt fmt' : List UInt8} {args args' : List Arg} {c : Conv} {body ps : List Piece} : fmt.head? ≠ some '%'.toUInt8 →
      directive m fmt args = some (some c, fmt', args') → Fits c → Body c body → Layout m fmt' args' ps →
      Layout m ('%'.toUInt8 :: fmt) args (laid_out c body ++ ps)
  | unknown {fmt fmt' : List UInt8} {args args' : List Arg} : fmt.head? ≠ some '%'.toUInt8 →
      directive m fmt args = some (none, fmt', args') → Layout m ('%'.toUInt8 :: fmt) args []

/-! ## A field -/

theorem int_eq_some {v w : Int} : int v = some w ↔ w = v ∧ -2 ^ 31 ≤ v ∧ v < 2 ^ 31 := by
  unfold int
  split
  · rename_i h
    exact ⟨fun hv => ⟨(Option.some.inj hv).symm, h⟩, fun hv => congrArg some hv.1.symm⟩
  · rename_i h
    exact ⟨fun hv => (Option.some_ne_none w hv.symm).elim, fun hv => absurd hv.2 h⟩

theorem put_bytes (size : Nat) (cs : List UInt8) (out : Mem × Nat) : cs.foldl (putc size) out = (cs.map Piece.byte).foldl (put size) out := by
  rw [List.foldl_map]
  rfl

theorem pad_eq_some {size : Nat} {c : UInt8} {n : Int} {out : Mem × Nat} {r : Int × (Mem × Nat)} :
    pad size c n out = some r ↔
      -2 ^ 31 + 1 ≤ n ∧ r = (min n 0 - 1, ((List.replicate n.toNat c).map Piece.byte).foldl (put size) out) := by
  rw [pad, Option.bind_eq_bind, Option.bind_eq_some_iff]
  constructor
  · rintro ⟨left, hleft, hr⟩
    obtain ⟨rfl, hlo, -⟩ := int_eq_some.1 hleft
    refine ⟨by omega, ?_⟩
    rw [← put_bytes]
    exact (Option.some.inj hr).symm
  · rintro ⟨hlo, rfl⟩
    refine ⟨_, int_eq_some.2 ⟨rfl, by omega, by omega⟩, ?_⟩
    rw [put_bytes]

/-- The characters of the body, whatever has been put before. -/
theorem put_text_eq {c : Conv} {body : List Piece} (h : Body c body) (size : Nat) (out : Mem × Nat) :
    put_text size c out = some (body.foldl (put size) out) := by
  unfold put_text
  cases h with
  | bytes hwide =>
    rw [hwide, if_neg Bool.false_ne_true, put_bytes]
  | wide n hwide hmax hlen =>
    rw [hwide, if_pos rfl, hlen]
    exact put_wide_chars size c.array n c.s out (Nat.lt_succ_self _) (hlen ▸ hmax)

/-- The sign, the prefix, the zeros and the body. -/
def middle (c : Conv) (body : List Piece) : List Piece :=
  c.sign.toList.map .byte ++ (base_text c).map .byte ++ (zeros c).map .byte ++ body

theorem put_prefix (size : Nat) (c : Conv) (out : Mem × Nat) :
    (if c.flags.SPECIAL then putc size (putc size out '0'.toUInt8) ('X'.toUInt8 ||| case_bit c.flags.SMALL) else out) =
      ((base_text c).map Piece.byte).foldl (put size) out := by
  unfold base_text
  split <;> rfl

/-- Between the paddings nothing can go wrong. -/
theorem output_eq {c : Conv} {body : List Piece} (hbody : Body c body) (size : Nat) (out : Mem × Nat) :
    output size c out = (int (c.field_width - c.precision)).bind fun w => (pad_left size c w out).bind fun t =>
      (pad size ' '.toUInt8 t.1 ((middle c body).foldl (put size) t.2)).map Prod.snd := by
  unfold output
  simp only [put_text_eq hbody, put_prefix, put_bytes, middle, List.foldl_append, Option.map_eq_bind]
  rfl

theorem pad_left_eq_some {size : Nat} {c : Conv} {n : Int} {out : Mem × Nat} {r : Int × (Mem × Nat)} :
    pad_left size c n out = some r ↔
      if c.flags.LEFT then r = (n, out)
      else -2 ^ 31 + 1 ≤ n ∧ r = (min n 0 - 1, ((List.replicate n.toNat ' '.toUInt8).map Piece.byte).foldl (put size) out) := by
  unfold pad_left
  cases c.flags.LEFT with
  | true => exact Option.some_inj.trans eq_comm
  | false => exact pad_eq_some

/-- A field is put piece by piece. -/
theorem output_eq_some {c : Conv} {body : List Piece} (hbody : Body c body) {size : Nat} {out r : Mem × Nat} :
    output size c out = some r ↔ Fits c ∧ r = (laid_out c body).foldl (put size) out := by
  have hnone : ∀ n : Int, (min n 0 - 1).toNat = 0 := by
    intro n
    omega
  have hlaid : laid_out c body = (if c.flags.LEFT then [] else (spaces c).map .byte) ++ middle c body ++
      (if c.flags.LEFT then (spaces c).map .byte else []) := by
    simp only [laid_out, middle, List.append_assoc]
  rw [output_eq hbody, hlaid, Fits]
  simp only [Option.bind_eq_some_iff, Option.map_eq_some_iff, int_eq_some, pad_left_eq_some, pad_eq_some]
  constructor
  · rintro ⟨w, ⟨rfl, hlo, hhi⟩, t, hleft, u, ⟨hw, rfl⟩, rfl⟩
    cases hflag : c.flags.LEFT with
    | true =>
      rw [hflag, if_pos rfl] at hleft
      subst hleft
      simp only [if_pos, List.nil_append, List.foldl_append]
      exact ⟨⟨by omega, hhi⟩, rfl⟩
    | false =>
      rw [hflag, if_neg Bool.false_ne_true] at hleft
      obtain ⟨-, rfl⟩ := hleft
      simp only [Bool.false_eq_true, if_false, List.append_nil, List.foldl_append, hnone, List.replicate_zero, List.map_nil,
        List.foldl_nil]
      exact ⟨⟨by omega, hhi⟩, rfl⟩
  · rintro ⟨⟨hlo, hhi⟩, rfl⟩
    cases hflag : c.flags.LEFT with
    | true =>
      rw [hflag, if_pos rfl] at hlo
      refine ⟨_, ⟨rfl, by omega, hhi⟩, _, rfl, _, ⟨by omega, rfl⟩, ?_⟩
      simp only [if_pos, List.nil_append, List.foldl_append]
      rfl
    | false =>
      rw [hflag, if_neg Bool.false_ne_true] at hlo
      refine ⟨_, ⟨rfl, by omega, hhi⟩, _, ⟨by omega, rfl⟩, _, ⟨by omega, rfl⟩, ?_⟩
      simp only [Bool.false_eq_true, if_false, List.append_nil, List.foldl_append, hnone, List.replicate_zero, List.map_nil,
        List.foldl_nil]
      rfl

/-! ## What a directive asks for -/

theorem skip_atoi_spec {i v : Int} {fmt fmt' : List UInt8} (h : skip_atoi i fmt = some (v, fmt')) (hi : i < 2 ^ 31) :
    v < 2 ^ 31 ∧ fmt'.length ≤ fmt.length := by
  induction fmt generalizing i with
  | nil =>
    cases h
    exact ⟨hi, Nat.le_refl _⟩
  | cons c fmt ih =>
    rw [skip_atoi] at h
    split at h
    · obtain ⟨sum, hsum, hrest⟩ := Option.bind_eq_some_iff.1 h
      obtain ⟨rfl, -, hlt⟩ := int_eq_some.1 hsum
      obtain ⟨hv, hlen⟩ := ih hrest (by omega)
      exact ⟨hv, Nat.le_succ_of_le hlen⟩
    · cases h
      exact ⟨hi, Nat.le_refl _⟩

theorem get_int_spec {fmt fmt' : List UInt8} {args args' : List Arg} {v : Int} (h : get_int fmt args = some (v, fmt', args')) :
    v < 2 ^ 31 ∧ fmt'.length ≤ fmt.length := by
  unfold get_int at h
  cases fmt with
  | nil =>
    cases h
    exact ⟨by decide, Nat.le_refl _⟩
  | cons c rest =>
    dsimp only at h
    split at h
    · obtain ⟨⟨i, fmt₁⟩, hi, hr⟩ := Option.bind_eq_some_iff.1 h
      cases hr
      exact skip_atoi_spec hi (by decide)
    · split at h
      · obtain ⟨⟨w, args₁⟩, -, hr⟩ := Option.bind_eq_some_iff.1 h
        cases hr
        exact ⟨Int32.toInt_lt _, Nat.le_succ _⟩
      · cases h
        exact ⟨by decide, Nat.le_refl _⟩

theorem get_flags_spec (flags : Flags) (fmt : List UInt8) :
    (get_flags flags fmt).1.WIDE = flags.WIDE ∧ (get_flags flags fmt).2.length ≤ fmt.length := by
  induction fmt generalizing flags with
  | nil => exact ⟨rfl, Nat.le_refl _⟩
  | cons c fmt ih =>
    rw [get_flags]
    split
    all_goals first
      | exact ⟨(ih _).1, Nat.le_succ_of_le (ih _).2⟩
      | exact ⟨rfl, Nat.le_refl _⟩

theorem get_qualifier_le (fmt : List UInt8) : (get_qualifier fmt).2.length ≤ fmt.length := by
  unfold get_qualifier
  cases fmt with
  | nil => exact Nat.le_refl _
  | cons c fmt =>
    dsimp only
    split
    · cases fmt with
      | nil => exact Nat.zero_le _
      | cons c' rest =>
        dsimp only
        split
        · exact Nat.le_succ_of_le (Nat.le_succ _)
        · exact Nat.le_succ _
    · exact Nat.le_refl _

theorem get_precision_spec {flags flags' : Flags} {fmt fmt' : List UInt8} {args args' : List Arg} {precision : Int}
    (h : get_precision flags fmt args = some (flags', precision, fmt', args')) :
    flags'.WIDE = flags.WIDE ∧ precision < 2 ^ 31 ∧ fmt'.length ≤ fmt.length := by
  unfold get_precision at h
  cases fmt with
  | nil =>
    cases h
    exact ⟨rfl, by decide, Nat.le_refl _⟩
  | cons c rest =>
    dsimp only at h
    split at h
    · obtain ⟨⟨v, fmt₁, args₁⟩, hv, hr⟩ := Option.bind_eq_some_iff.1 h
      cases hr
      obtain ⟨hlt, hlen⟩ := get_int_spec hv
      refine ⟨?_, hlt, Nat.le_succ_of_le hlen⟩
      split <;> rfl
    · cases h
      exact ⟨rfl, by decide, Nat.le_refl _⟩

theorem get_field_spec {fmt fmt' : List UInt8} {args args' : List Arg} {f : Field} (h : get_field fmt args = some (f, fmt', args')) :
    f.flags.WIDE = false ∧ f.precision < 2 ^ 31 ∧ fmt'.length ≤ fmt.length := by
  unfold get_field at h
  obtain ⟨hwide, hflags⟩ := get_flags_spec {} fmt
  obtain ⟨⟨width, fmt₁, args₁⟩, hwidth, h⟩ := Option.bind_eq_some_iff.1 h
  obtain ⟨-, hlen₁⟩ := get_int_spec hwidth
  obtain ⟨⟨flags₂, width₂⟩, hneg, h⟩ := Option.bind_eq_some_iff.1 h
  have hwide₂ : flags₂.WIDE = (get_flags {} fmt).1.WIDE := by
    unfold get_width at hneg
    split at hneg
    · obtain ⟨w, -, hr⟩ := Option.bind_eq_some_iff.1 hneg
      cases hr
      rfl
    · cases hneg
      rfl
  obtain ⟨⟨flags₃, precision, fmt₃, args₃⟩, hprecision, h⟩ := Option.bind_eq_some_iff.1 h
  obtain ⟨hwide₃, hlt, hlen₃⟩ := get_precision_spec hprecision
  have hqualifier := get_qualifier_le fmt₃
  cases h
  refine ⟨?_, hlt, Nat.le_trans hqualifier (Nat.le_trans hlen₃ (Nat.le_trans hlen₁ hflags))⟩
  rw [hwide₃]
  split <;> exact hwide₂.trans hwide

theorem wstring_body (array : Mem) (s : Nat) (flags : Flags) (field_width : Int) {precision : Int} (h : precision < 2 ^ 31) :
    ∃ body, Body (wstring array s flags field_width precision) body ∧ ∀ p ∈ body, p.Valid := by
  obtain ⟨n, hn⟩ := utf16s_utf8nlen_eq array precision.toNat s (Nat.zero_le precision.toNat)
  have hcount := hn.count
  have hfits := hn.fits
  rw [Nat.zero_add] at hcount hfits
  have hlen : (wstring array s flags field_width precision).len = (utf8_bytes (read_chars array n s)).length := hcount
  refine ⟨_, .wide n rfl ?_ hlen, ?_⟩
  · rw [hlen]
    omega
  · intro p hp
    obtain ⟨c, hc, rfl⟩ := List.mem_map.1 hp
    exact read_chars_valid array n s c hc

theorem bytes_body {c : Conv} (h : c.flags.WIDE = false) : ∃ body, Body c body ∧ ∀ p ∈ body, p.Valid :=
  ⟨_, .bytes h, bytes_valid _⟩

theorem text_conv_body {m : Mem} {c : Char} {f : Field} {args args' : List Arg} {conv : Conv} (hf : f.precision < 2 ^ 31)
    (h : text_conv m c f args = some (conv, args')) : ∃ body, Body conv body ∧ ∀ p ∈ body, p.Valid := by
  have hprecision : (if f.precision < 0 then INT_MAX else f.precision) < 2 ^ 31 := by
    split
    · decide
    · exact hf
  unfold text_conv at h
  obtain ⟨⟨v, args₁⟩, -, h⟩ := Option.bind_eq_some_iff.1 h
  dsimp only at h
  split at h
  · split at h
    · cases h
      exact wstring_body _ _ _ _ (by decide)
    · cases h
      exact bytes_body rfl
  · split at h
    · cases h
      exact bytes_body rfl
    · split at h
      · cases h
        exact wstring_body _ _ _ _ hprecision
      · cases h
        exact bytes_body rfl

theorem get_special_wide {base len : Nat} {flags flags' : Flags} {w p w' p' : Int}
    (h : get_special base flags w p len = some (flags', w', p')) : flags'.WIDE = flags.WIDE := by
  unfold get_special at h
  split at h
  · generalize (if base = 8 ∧ p = len then p + 1 else p) = q at h
    dsimp only at h
    split at h
    · obtain ⟨v, -, hr⟩ := Option.map_eq_some_iff.1 h
      cases hr
      rfl
    · cases h
      rfl
  · cases h
    rfl

theorem number_conv_wide {base : Nat} {flags : Flags} {w p : Int} {num : UInt64} {conv : Conv}
    (h : number_conv base flags w p num = some conv) : conv.flags.WIDE = flags.WIDE := by
  unfold number_conv at h
  obtain ⟨⟨sign, mag⟩, -, h⟩ := Option.bind_eq_some_iff.1 h
  obtain ⟨w', -, h⟩ := Option.bind_eq_some_iff.1 h
  obtain ⟨⟨s, tmp⟩, -, h⟩ := Option.bind_eq_some_iff.1 h
  obtain ⟨⟨flags', w'', p'⟩, hspecial, h⟩ := Option.bind_eq_some_iff.1 h
  cases h
  exact get_special_wide hspecial

theorem number_base_wide {c : Char} {flags flags' : Flags} {base : Nat} (h : number_base c flags = some (base, flags')) :
    flags'.WIDE = flags.WIDE := by
  unfold number_base at h
  split at h <;> cases h <;> rfl

theorem directive_spec {m : Mem} {fmt fmt' : List UInt8} {args args' : List Arg} {r : Option Conv}
    (h : directive m fmt args = some (r, fmt', args')) :
    ∀ conv ∈ r, fmt'.length < fmt.length ∧ ∃ body, Body conv body ∧ ∀ p ∈ body, p.Valid := by
  unfold directive at h
  obtain ⟨⟨f, fmt₁, args₁⟩, hfield, h⟩ := Option.bind_eq_some_iff.1 h
  obtain ⟨hwide, hprecision, hlen⟩ := get_field_spec hfield
  intro conv hconv
  cases fmt₁ with
  | nil =>
    cases h
    cases hconv
  | cons c fmt₂ =>
    have hshort : fmt₂.length < fmt.length := hlen
    dsimp only at h
    split at h
    · obtain ⟨⟨conv₁, args₂⟩, htext, h⟩ := Option.bind_eq_some_iff.1 h
      cases h
      cases hconv
      exact ⟨hshort, text_conv_body hprecision htext⟩
    · split at h
      · cases h
        cases hconv
      · rename_i base flags hbase
        have hflags := number_base_wide hbase
        obtain ⟨⟨num, args₂⟩, -, h⟩ := Option.bind_eq_some_iff.1 h
        obtain ⟨conv₁, hconv₁, h⟩ := Option.bind_eq_some_iff.1 h
        cases h
        cases hconv
        refine ⟨hshort, bytes_body ?_⟩
        rw [number_conv_wide hconv₁, hflags, hwide]

/-! ## The whole text -/

/-- The text of the pieces, chunk by chunk. -/
def chunks (ps : List Piece) : List (List UInt8) := ps.map Piece.chunk

theorem turn_byte (m : Mem) (size : Nat) {c : UInt8} (fmt : List UInt8) (args : List Arg) (out : Mem × Nat) (h : c ≠ '%'.toUInt8) :
    turn m size (c :: fmt, args, out) = .cont (fmt, args, putc size out c) := if_pos h

theorem turn_percent (m : Mem) (size : Nat) (fmt : List UInt8) (args : List Arg) (out : Mem × Nat) :
    turn m size ('%'.toUInt8 :: '%'.toUInt8 :: fmt, args, out) = .cont (fmt, args, putc size out '%'.toUInt8) := by
  rw [turn, if_neg (not_not.2 rfl), if_pos List.head?_cons, List.tail_cons]

theorem turn_directive (m : Mem) (size : Nat) {fmt : List UInt8} (args : List Arg) (out : Mem × Nat)
    (h : fmt.head? ≠ some '%'.toUInt8) :
    turn m size ('%'.toUInt8 :: fmt, args, out) =
      match directive m fmt args with
      | none => .done none
      | some (none, _, _) => .done (some out)
      | some (some conv, fmt, args) =>
        match output size conv out with
        | none => .done none
        | some out => .cont (fmt, args, out) := by
  rw [turn, if_neg (not_not.2 rfl)]
  exact if_neg h

/-- The format gets shorter in every turn. -/
theorem turn_shorter {m : Mem} {size : Nat} {s s' : List UInt8 × List Arg × (Mem × Nat)} (h : turn m size s = .cont s') :
    s'.1.length < s.1.length := by
  obtain ⟨fmt, args, out⟩ := s
  cases fmt with
  | nil => cases h
  | cons c fmt =>
    simp only [turn] at h
    split at h
    · cases h
      exact Nat.lt_succ_self _
    · split at h
      · cases h
        rw [List.length_tail, List.length_cons]
        omega
      · split at h
        · cases h
        · cases h
        · rename_i conv fmt' args' hdirective
          split at h
          · cases h
          · cases h
            exact Nat.lt_succ_of_lt (directive_spec hdirective conv rfl).1

theorem turns_end (m : Mem) (size : Nat) (fmt : List UInt8) (args : List Arg) (out : Mem × Nat) :
    ∃ r, loop (turn m size) (fmt.length + 1) (fmt, args, out) = some r :=
  loop_ends (fun s => s.1.length) (fun _ _ h => turn_shorter h) (Nat.lt_succ_self _)

/-- A run that goes through lays out the same pieces for a buffer of any size. -/
theorem turns_lay_out {m : Mem} {size₀ fuel : Nat} {fmt : List UInt8} {args : List Arg} {out₀ r : Mem × Nat}
    (h : loop (turn m size₀) fuel (fmt, args, out₀) = some (some r)) :
    ∃ ps, Layout m fmt args ps ∧ (∀ p ∈ ps, p.Valid) ∧
      ∀ size out, loop (turn m size) fuel (fmt, args, out) = some (some (ps.foldl (put size) out)) := by
  induction fuel generalizing fmt args out₀ with
  | zero => cases h
  | succ fuel ih =>
    -- one more piece, and the rest
    have hmore : ∀ (piece : List Piece) {fmt' : List UInt8} {args' : List Arg} {out' : Mem × Nat},
        (∀ size out, turn m size (fmt, args, out) = .cont (fmt', args', piece.foldl (put size) out)) →
        turn m size₀ (fmt, args, out₀) = .cont (fmt', args', out') → (∀ p ∈ piece, p.Valid) →
        (∀ ps, Layout m fmt' args' ps → Layout m fmt args (piece ++ ps)) →
        ∃ ps, Layout m fmt args ps ∧ (∀ p ∈ ps, p.Valid) ∧
          ∀ size out, loop (turn m size) (fuel + 1) (fmt, args, out) = some (some (ps.foldl (put size) out)) := by
      intro piece fmt' args' out' hturn hfirst hvalid hlayout
      rw [loop_cont hfirst] at h
      obtain ⟨ps, hps, hvalid', hall⟩ := ih h
      refine ⟨piece ++ ps, hlayout ps hps, ?_, ?_⟩
      · intro p hp
        rcases List.mem_append.1 hp with hp | hp
        · exact hvalid p hp
        · exact hvalid' p hp
      · intro size out
        rw [loop_cont (hturn size out), hall, List.foldl_append]
    cases fmt with
    | nil => exact ⟨[], .nil args, bytes_valid [], fun size out => loop_done rfl fuel⟩
    | cons c fmt =>
      by_cases hc : c ≠ '%'.toUInt8
      · exact hmore [.byte c] (fun size out => turn_byte m size fmt args out hc) (turn_byte m size₀ fmt args out₀ hc) (bytes_valid [c])
          fun ps hps => .byte hc hps
      obtain rfl := not_not.1 hc
      by_cases hpercent : fmt.head? = some '%'.toUInt8
      · obtain ⟨rest, rfl⟩ : ∃ rest, fmt = '%'.toUInt8 :: rest := List.head?_eq_some_iff.1 hpercent
        exact hmore [.byte '%'.toUInt8] (fun size out => turn_percent m size rest args out) (turn_percent m size₀ rest args out₀)
          (bytes_valid ['%'.toUInt8]) fun ps hps => .percent hps
      have hturn := fun size out => turn_directive m size args out hpercent
      cases hdirective : directive m fmt args with
      | none =>
        simp only [hdirective] at hturn
        rw [loop_done (hturn _ _)] at h
        cases h
      | some d =>
        obtain ⟨conv, fmt', args'⟩ := d
        simp only [hdirective] at hturn
        cases conv with
        | none =>
          exact ⟨[], .unknown hpercent hdirective, bytes_valid [], fun size out => loop_done (hturn size out) fuel⟩
        | some conv =>
          obtain ⟨-, body, hbody, hvalid⟩ := directive_spec hdirective conv rfl
          cases houtput : output size₀ conv out₀ with
          | none =>
            have hfirst := hturn size₀ out₀
            simp only [houtput] at hfirst
            rw [loop_done hfirst] at h
            cases h
          | some out' =>
            obtain ⟨hfits, -⟩ := (output_eq_some hbody).1 houtput
            have hcont : ∀ size out, turn m size ('%'.toUInt8 :: fmt, args, out) =
                .cont (fmt', args', (laid_out conv body).foldl (put size) out) := by
              intro size out
              have hput : output size conv out = some ((laid_out conv body).foldl (put size) out) := (output_eq_some hbody).2 ⟨hfits, rfl⟩
              have hnext := hturn size out
              simp only [hput] at hnext
              exact hnext
            exact hmore _ hcont (hcont _ _) (laid_out_valid hvalid) fun ps hps => .conv hpercent hdirective hfits hbody hps

/-- A length as an `int`: from 2^31 on it is negative. -/
theorem length_result {n : Nat} (h : n < 2 ^ 32) :
    (UInt32.ofNat n).toInt32.toInt = if n < 2 ^ 31 then (n : Int) else n - 2 ^ 32 := by
  show (BitVec.ofNat 32 n).toInt = _
  rw [BitVec.toInt_eq_toNat_cond, BitVec.toNat_ofNat, Nat.mod_eq_of_lt h]
  split <;> split <;> omega

/-- The text does not depend on the buffer. A buffer shows as many of its chunks as it has room for, a zero behind them, and is not
written beyond its end; the result is how long the whole text is, as an `int`. -/
theorem vsnprintf_cuts {m buf₀ : Mem} {size₀ : Nat} {fmt : List UInt8} {args : List Arg}
    (h : (vsnprintf m buf₀ size₀ fmt args).isSome = true) :
    ∃ ps, Layout m fmt args ps ∧ ((chunks ps).flatten.length < 2 ^ 32 → ∀ (buf : Mem) (size : Nat), ∃ buf',
      vsnprintf m buf size fmt args = some (buf', if (chunks ps).flatten.length < 2 ^ 31 then ((chunks ps).flatten.length : Int)
        else (chunks ps).flatten.length - 2 ^ 32) ∧
      (0 < size → Mem.bytes buf' 0 (fit (size - 1) (chunks ps)).length = fit (size - 1) (chunks ps) ∧
        buf' (fit (size - 1) (chunks ps)).length = 0) ∧
      ∀ x, size ≤ x → buf' x = buf x) := by
  obtain ⟨r, hr⟩ := Option.isSome_iff_exists.1 h
  obtain ⟨⟨buf₁, pos₁⟩, hturns, -⟩ := Option.bind_eq_some_iff.1 hr
  obtain ⟨ps, hlayout, hvalid, hall⟩ := turns_lay_out (Option.join_eq_some_iff.1 hturns)
  refine ⟨ps, hlayout, fun hmax buf size => ?_⟩
  have hshown : Shown size buf (chunks ps) (ps.foldl (put size) (buf, 0)) :=
    shown_pieces ps hvalid (Shown.nothing size buf) (by rw [Nat.zero_add]; exact hmax)
  have hrun : vsnprintf m buf size fmt args =
      some (if size ≠ 0 then (ps.foldl (put size) (buf, 0)).1.set (min (ps.foldl (put size) (buf, 0)).2 (size - 1)) 0
        else (ps.foldl (put size) (buf, 0)).1, (UInt32.ofNat (ps.foldl (put size) (buf, 0)).2).toInt32.toInt) := by
    rw [vsnprintf, hall]
    rfl
  have hresult := length_result hmax
  rw [← hshown.pos] at hresult
  rw [hrun, hresult, hshown.pos]
  by_cases hsize : size = 0
  · rw [if_neg (not_not.2 hsize)]
    exact ⟨_, rfl, fun hpos => absurd hsize hpos.ne', fun x hx => hshown.frame x hx⟩
  · have hpos := Nat.pos_of_ne_zero hsize
    obtain ⟨htext, hzero, hframe⟩ := hshown.close hpos
    rw [hshown.pos] at htext hzero hframe
    rw [if_pos hsize]
    exact ⟨_, rfl, fun _ => ⟨htext, hzero⟩, hframe⟩

theorem vsnprintf_cuts_number :
    ∃ ps, Layout (fun _ => 0) ['%'.toUInt8, 'u'.toUInt8] [.word 12345] ps ∧ ((chunks ps).flatten.length < 2 ^ 32 →
      ∀ (buf : Mem) (size : Nat), ∃ buf',
        vsnprintf (fun _ => 0) buf size ['%'.toUInt8, 'u'.toUInt8] [.word 12345] = some (buf',
          if (chunks ps).flatten.length < 2 ^ 31 then ((chunks ps).flatten.length : Int) else (chunks ps).flatten.length - 2 ^ 32) ∧
        (0 < size → Mem.bytes buf' 0 (fit (size - 1) (chunks ps)).length = fit (size - 1) (chunks ps) ∧
          buf' (fit (size - 1) (chunks ps)).length = 0) ∧
        ∀ x, size ≤ x → buf' x = buf x) :=
  vsnprintf_cuts (by decide +kernel : (vsnprintf (fun _ => 0) (fun _ => 0) 4 ['%'.toUInt8, 'u'.toUInt8] [.word 12345]).isSome = true)

end McLinOS.Vsprintf
