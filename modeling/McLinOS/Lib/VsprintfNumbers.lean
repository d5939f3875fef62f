import McLinOS.Lib.VsprintfTheorems
/-!
# Printed numbers

A conversion of a number fills its field: with the sign, the prefix of the base, zeros,
the digits and spaces. The number can be read from what stands between the spaces.
-/
open CLib

set_option linter.style.nameCheck false

namespace McLinOS.Vsprintf

/-! ## The sign -/

theorem toInt64_toInt (num : UInt64) :
    num.toInt64.toInt = if num.toNat < 2 ^ 63 then (num.toNat : Int) else num.toNat - 2 ^ 64 := by
  have hcond : num.toInt64.toInt = if 2 * num.toNat < 2 ^ 64 then (num.toNat : Int) else num.toNat - (2 ^ 64 : Nat) :=
    BitVec.toInt_eq_toNat_cond num.toBitVec
  rw [hcond]
  by_cases h : num.toNat < 2 ^ 63
  · rw [if_pos (by omega), if_pos h]
  · rw [if_neg (by omega), if_neg h]
    rfl

/-- The value of a number with this sign. -/
def signed (sign : Option UInt8) (mag : Nat) : Int := if sign = some '-'.toUInt8 then -(mag : Int) else mag

/-- What stands before a number of this value. -/
def sign_text (flags : Flags) (v : Int) : List UInt8 :=
  if !flags.SIGN then [] else if v < 0 then ['-'.toUInt8] else if flags.PLUS then ['+'.toUInt8] else if flags.SPACE then [' '.toUInt8] else []

/-- What is printed: a signed number or an unsigned one. -/
def value (flags : Flags) (num : UInt64) : Int := if flags.SIGN then num.toInt64.toInt else num.toNat

/-- The least number has no opposite. -/
theorem get_sign_isSome (num : UInt64) (flags : Flags) :
    (get_sign num flags).isSome = true ↔ ¬(flags.SIGN = true ∧ num = 0x8000000000000000) := by
  unfold get_sign
  cases flags.SIGN with
  | false => simp
  | true =>
    by_cases hnum : num = 0x8000000000000000
    · simp [hnum]
    · simp only [hnum, and_false, not_false_eq_true, iff_true, Bool.not_true, Bool.false_eq_true, if_false]
      split_ifs <;> rfl

theorem get_sign_spec {num mag : UInt64} {flags : Flags} {sign : Option UInt8} (h : get_sign num flags = some (sign, mag)) :
    signed sign mag.toNat = value flags num ∧ sign.toList = sign_text flags (value flags num) := by
  have hplus : ¬some '+'.toUInt8 = some '-'.toUInt8 := by decide
  have hspace : ¬some ' '.toUInt8 = some '-'.toUInt8 := by decide
  have hnone : ¬(none : Option UInt8) = some '-'.toUInt8 := by decide
  have hnegative : num.toInt64 < 0 ↔ num.toInt64.toInt < 0 := Int64.lt_iff_toInt_lt
  have hvalue := toInt64_toInt num
  have hlt := num.toNat_lt
  unfold get_sign at h
  unfold value sign_text
  cases hsign : flags.SIGN with
  | false =>
    rw [hsign] at h
    cases h
    exact ⟨rfl, rfl⟩
  | true =>
    rw [hsign, Bool.not_true, if_neg Bool.false_ne_true] at h
    rw [if_pos rfl, Bool.not_true, if_neg Bool.false_ne_true]
    by_cases hneg : num.toInt64 < 0
    · rw [if_pos hneg] at h
      split at h
      · cases h
      · cases h
        have hbig : ¬num.toNat < 2 ^ 63 := by
          intro hsmall
          rw [if_pos hsmall] at hvalue
          have := hnegative.1 hneg
          omega
        have hmag : (-num).toNat = 2 ^ 64 - num.toNat := by
          rw [UInt64.toNat_neg]
          exact Nat.mod_eq_of_lt (by have hsize : UInt64.size = 2 ^ 64 := rfl; omega)
        rw [if_neg hbig] at hvalue
        refine ⟨?_, (if_pos (hnegative.1 hneg)).symm⟩
        rw [signed, if_pos rfl, hmag, hvalue]
        omega
    · have hsmall : num.toNat < 2 ^ 63 := by
        by_contra hbig
        rw [if_neg hbig] at hvalue
        exact hneg (hnegative.2 (by omega))
      rw [if_pos hsmall] at hvalue
      rw [if_neg hneg] at h
      rw [if_neg (mt hnegative.2 hneg)]
      have hpositive : ∀ sign : Option UInt8, ¬sign = some '-'.toUInt8 → signed sign num.toNat = num.toInt64.toInt := by
        intro sign hs
        rw [signed, if_neg hs, hvalue]
      split at h
      · rename_i hflag
        cases h
        exact ⟨hpositive _ hplus, (if_pos hflag).symm⟩
      · rename_i hflag
        rw [if_neg hflag]
        split at h
        · rename_i hflag'
          cases h
          exact ⟨hpositive _ hspace, (if_pos hflag').symm⟩
        · rename_i hflag'
          cases h
          exact ⟨hpositive none hnone, (if_neg hflag').symm⟩

/-! ## The prefix -/

/-- What `'#'` makes of the flags, the width and the precision. -/
structure Special (base len : Nat) (flags flags' : Flags) (w p w' p' : Int) : Prop where
  left : flags'.LEFT = flags.LEFT
  small : flags'.SMALL = flags.SMALL
  zeropad : flags'.ZEROPAD = flags.ZEROPAD
  special : flags'.SPECIAL = true ↔ flags.SPECIAL = true ∧ base = 16 ∧ 0 < p
  width : w' = if flags'.SPECIAL then w - 2 else w
  precision : p' = if flags.SPECIAL = true ∧ base = 8 ∧ p = len then p + 1 else p

theorem get_special_spec {base len : Nat} {flags flags' : Flags} {w p w' p' : Int}
    (h : get_special base flags w p len = some (flags', w', p')) : Special base len flags flags' w p w' p' := by
  unfold get_special at h
  cases hspecial : flags.SPECIAL with
  | false =>
    rw [hspecial, if_neg Bool.false_ne_true] at h
    cases h
    refine ⟨rfl, rfl, rfl, by simp [hspecial], by simp [hspecial], by simp [hspecial]⟩
  | true =>
    rw [hspecial, if_pos rfl] at h
    obtain ⟨q, hq⟩ : ∃ q, q = if base = 8 ∧ p = len then p + 1 else p := ⟨_, rfl⟩
    rw [← hq] at h
    dsimp only at h
    have hprecision : q = if flags.SPECIAL = true ∧ base = 8 ∧ p = len then p + 1 else p := by
      rw [hq, hspecial]
      simp only [true_and]
    by_cases hhex : base = 16 ∧ q > 0
    · rw [if_pos hhex] at h
      obtain ⟨v, hv, hr⟩ := Option.map_eq_some_iff.1 h
      obtain ⟨rfl, -, -⟩ := int_eq_some.1 hv
      cases hr
      rw [if_neg (by omega)] at hq
      exact ⟨rfl, rfl, rfl, iff_of_true hspecial ⟨hspecial, hhex.1, hq ▸ hhex.2⟩, by rw [hspecial]; rfl, hprecision⟩
    · rw [if_neg hhex] at h
      cases h
      refine ⟨rfl, rfl, rfl, iff_of_false Bool.false_ne_true ?_, rfl, hprecision⟩
      rintro ⟨-, hbase, hpos⟩
      rw [if_neg (by omega)] at hq
      exact hhex ⟨hbase, hq ▸ hpos⟩

theorem get_special_isSome (base len : Nat) (flags : Flags) {w : Int} (p : Int) (hlo : -2 ^ 31 + 2 ≤ w) (hhi : w < 2 ^ 31) :
    (get_special base flags w p len).isSome = true := by
  have hint : int (w - 2) = some (w - 2) := if_pos ⟨by omega, by omega⟩
  simp only [get_special, hint, Option.map_some]
  split_ifs <;> rfl

/-! ## The field -/

theorem chunks_append (ps qs : List Piece) : (chunks (ps ++ qs)).flatten = (chunks ps).flatten ++ (chunks qs).flatten := by
  rw [chunks, List.map_append, List.flatten_append]
  rfl

theorem chunks_bytes (cs : List UInt8) : (chunks (cs.map .byte)).flatten = cs := by
  induction cs with
  | nil => rfl
  | cons c cs ih =>
    refine Eq.trans ?_ (congrArg (List.cons c) ih)
    rfl

/-- A field of bytes, as text. -/
theorem laid_out_bytes (c : Conv) (cs : List UInt8) :
    (chunks (laid_out c (cs.map .byte))).flatten =
      (if c.flags.LEFT then [] else spaces c) ++ c.sign.toList ++ base_text c ++ (zeros c ++ cs) ++
        (if c.flags.LEFT then spaces c else []) := by
  have hpad : ∀ b : Bool, (chunks (if b then [] else (spaces c).map .byte)).flatten = if b then [] else spaces c := by
    intro b
    cases b with
    | true => rfl
    | false => exact chunks_bytes _
  have hpad' : ∀ b : Bool, (chunks (if b then (spaces c).map .byte else [])).flatten = if b then spaces c else [] := by
    intro b
    cases b with
    | true => exact chunks_bytes _
    | false => rfl
  simp only [laid_out, chunks_append, chunks_bytes, hpad, hpad', List.append_assoc]

/-- Zeros in front do not change a number. -/
theorem zeros_value (k : Nat) {small : Bool} {base n : Nat} (hone : 1 < base) (hsixteen : base ≤ 16) :
    Nat.ofDigits base ((List.replicate k '0'.toUInt8 ++ numeral small base n).reverse.map digit_value) = n := by
  have hzero : digit_value '0'.toUInt8 = 0 := by decide
  rw [List.reverse_append, List.reverse_replicate, List.map_append, List.map_replicate, hzero, Nat.ofDigits_append_replicate_zero]
  exact numeral_value small hone hsixteen

/-- How many digits are printed, before zeros fill the field: `'#'` puts a zero before an octal number that has none. -/
def digits_asked (base : Nat) (flags : Flags) (p : Int) (len : Nat) : Int :=
  if flags.SPECIAL = true ∧ base = 8 ∧ max (len : Int) (if p < 0 then 1 else p) = len then (len : Int) + 1
  else max (len : Int) (if p < 0 then 1 else p)

theorem le_digits_asked (base : Nat) (flags : Flags) (p : Int) (len : Nat) :
    p ≤ digits_asked base flags p len ∧ (len : Int) ≤ digits_asked base flags p len := by
  unfold digits_asked
  split_ifs <;> omega

/-- What is known of a number when it comes to be put. -/
structure Numbered (base : Nat) (flags : Flags) (w p : Int) (num : UInt64) (c : Conv) (mag : UInt64) : Prop where
  sign : get_sign num flags = some (c.sign, mag)
  left : c.flags.LEFT = flags.LEFT
  small : c.flags.SMALL = flags.SMALL
  digits : Mem.bytes c.array c.s c.len = numeral flags.SMALL base mag.toNat
  len : c.len = (numeral flags.SMALL base mag.toNat).length
  special : c.flags.SPECIAL = true ↔ flags.SPECIAL = true ∧ base = 16 ∧ 0 < digits_asked base flags p c.len
  width : c.field_width = w - c.sign.toList.length - (base_text c).length
  precision : c.precision = if flags.ZEROPAD = true then max (digits_asked base flags p c.len) c.field_width
    else digits_asked base flags p c.len

theorem numbered {base : Nat} {flags : Flags} {w p : Int} {num : UInt64} {c : Conv} (hbase : Base base)
    (h : number_conv base flags w p num = some c) : ∃ mag, Numbered base flags w p num c mag := by
  unfold number_conv at h
  obtain ⟨⟨sign, mag⟩, hsign, h⟩ := Option.bind_eq_some_iff.1 h
  obtain ⟨w₁, hw₁, h⟩ := Option.bind_eq_some_iff.1 h
  obtain ⟨⟨s, tmp⟩, hnumber, h⟩ := Option.bind_eq_some_iff.1 h
  obtain ⟨⟨flags', w₂, p₂⟩, hspecial, h⟩ := Option.bind_eq_some_iff.1 h
  obtain ⟨tmp', hnumber', hprinted⟩ := number_eq (fun _ => 0) flags.SMALL hbase (Nat.le_refl 22) mag.toNat_lt
  obtain ⟨rfl, rfl⟩ := Prod.mk.inj (Option.some.inj (hnumber'.symm.trans hnumber))
  have hlen : TMP_SIZE - (22 - (numeral flags.SMALL base mag.toNat).length) = (numeral flags.SMALL base mag.toNat).length :=
    Nat.sub_sub_self hprinted.fits
  have hw : w₁ = w - sign.toList.length := by
    unfold sign_width at hw₁
    cases sign with
    | none => exact (Option.some.inj hw₁).symm.trans (Int.sub_zero w).symm
    | some b => exact (int_eq_some.1 hw₁).1
  dsimp only at h hspecial
  rw [hlen] at h hspecial
  obtain ⟨len, hlen'⟩ : ∃ len, len = (numeral flags.SMALL base mag.toNat).length := ⟨_, rfl⟩
  obtain ⟨q, hq⟩ : ∃ q, q = if p < 0 then 1 else p := ⟨_, rfl⟩
  rw [← hlen', ← hq] at hspecial
  have hmax : (if q < (len : Int) then (len : Int) else q) = max (len : Int) q := by
    split <;> omega
  rw [hmax] at hspecial
  have hflags := get_special_spec hspecial
  have hasked : p₂ = digits_asked base flags p len := by
    rw [hflags.precision, digits_asked, ← hq]
    split_ifs <;> omega
  have hwidth := hflags.width
  refine ⟨mag, ?_⟩
  cases h
  refine ⟨hsign, hflags.left, hflags.small, hprinted.text, rfl, ?_, ?_, ?_⟩
  · dsimp only
    rw [← hlen', hflags.special, digits_asked, ← hq]
    constructor
    · rintro ⟨hs, hsixteen, hpos⟩
      exact ⟨hs, hsixteen, by rwa [if_neg (by omega)]⟩
    · rintro ⟨hs, hsixteen, hpos⟩
      rw [if_neg (by omega)] at hpos
      exact ⟨hs, hsixteen, hpos⟩
  · dsimp only
    rw [hwidth, hw, base_text]
    split <;> simp
  · dsimp only
    rw [hflags.zeropad, ← hlen', ← hasked]
    cases flags.ZEROPAD with
    | false => rw [if_neg (by simp), if_neg Bool.false_ne_true]
    | true =>
      simp only [true_and, if_true, Int.max_def]
      split_ifs <;> omega

/-- A width that fits an `int` has a text for every number but the least one. -/
theorem number_conv_isSome {base : Nat} (hbase : Base base) (flags : Flags) {w : Int} (hlo : 0 ≤ w) (hhi : w < 2 ^ 31) (p : Int)
    (num : UInt64) :
    (number_conv base flags w p num).isSome = true ↔ ¬(flags.SIGN = true ∧ num = 0x8000000000000000) := by
  rw [← get_sign_isSome]
  unfold number_conv
  cases get_sign num flags with
  | none => exact iff_of_false Bool.false_ne_true Bool.false_ne_true
  | some sm =>
    obtain ⟨sign, mag⟩ := sm
    obtain ⟨w₁, hw₁, hlo₁, hhi₁⟩ : ∃ w₁, sign_width sign w = some w₁ ∧ w - 1 ≤ w₁ ∧ w₁ ≤ w := by
      unfold sign_width
      split
      · exact ⟨w - 1, if_pos ⟨by omega, by omega⟩, Int.le_refl _, by omega⟩
      · exact ⟨w, rfl, by omega, Int.le_refl _⟩
    obtain ⟨tmp, hnumber, -⟩ := number_eq (fun _ => 0) flags.SMALL hbase (Nat.le_refl 22) mag.toNat_lt
    refine iff_of_true ?_ rfl
    simp only [Option.bind_eq_bind, Option.bind_some, hw₁]
    rw [show number (fun _ => 0) TMP_SIZE mag.toNat base (case_bit flags.SMALL) = _ from hnumber, Option.bind_some]
    dsimp only
    generalize (if (if p < 0 then 1 else p) < _ then _ else _ : Int) = q
    obtain ⟨⟨flags', w₂, p₂⟩, hspecial⟩ := Option.isSome_iff_exists.1
      (get_special_isSome base (TMP_SIZE - (22 - (numeral flags.SMALL base mag.toNat).length)) flags (w := w₁) q (by omega) (by omega))
    rw [hspecial]
    rfl

/-- The width of a field is one. -/
theorem get_field_width {fmt fmt' : List UInt8} {args args' : List Arg} {f : Field} (h : get_field fmt args = some (f, fmt', args')) :
    0 ≤ f.field_width ∧ f.field_width < 2 ^ 31 := by
  unfold get_field at h
  obtain ⟨⟨v, fmt₁, args₁⟩, hv, h⟩ := Option.bind_eq_some_iff.1 h
  obtain ⟨hlt, -⟩ := get_int_spec hv
  obtain ⟨⟨flags, width⟩, hwidth, h⟩ := Option.bind_eq_some_iff.1 h
  obtain ⟨⟨flags', precision, fmt₂, args₂⟩, -, h⟩ := Option.bind_eq_some_iff.1 h
  cases h
  unfold get_width at hwidth
  split at hwidth
  · obtain ⟨v', hneg, hr⟩ := Option.bind_eq_some_iff.1 hwidth
    obtain ⟨rfl, -, hhi⟩ := int_eq_some.1 hneg
    cases hr
    exact ⟨show 0 ≤ -v by omega, hhi⟩
  · cases hwidth
    exact ⟨show 0 ≤ v by omega, hlt⟩

/-- The text of `v` in a field `w` wide, with `p` digits at least: spaces, sign, prefix, digits and spaces. -/
structure NumberText (base : Nat) (flags : Flags) (w p v : Int) (left : List UInt8) (sign : Option UInt8) (pre body right : List UInt8) :
    Prop where
  signed_as : sign.toList = sign_text flags v
  based : pre = if flags.SPECIAL = true ∧ base = 16 ∧ 0 < digits_asked base flags p (numeral flags.SMALL base v.natAbs).length then
      ['0'.toUInt8, (if flags.SMALL then 'x' else 'X').toUInt8] else []
  digits : ∃ k, body = List.replicate k '0'.toUInt8 ++ numeral flags.SMALL base v.natAbs
  reads : signed sign (Nat.ofDigits base (body.reverse.map digit_value)) = v
  precise : p ≤ body.length
  filled : (body.length : Int) = if flags.ZEROPAD = true then
      max (digits_asked base flags p (numeral flags.SMALL base v.natAbs).length) (w - sign.toList.length - pre.length)
    else digits_asked base flags p (numeral flags.SMALL base v.natAbs).length
  blank : ∀ b ∈ left ++ right, b = ' '.toUInt8
  side : if flags.LEFT then left = [] else right = []
  length : ((left ++ sign.toList ++ pre ++ body ++ right).length : Int) =
    max w (sign.toList.length + pre.length + digits_asked base flags p (numeral flags.SMALL base v.natAbs).length)

/-- Every number but the least signed one is printed: its value can be read from the text, with its sign; spaces fill the field on
one side, or zeros do; and the text is as long as the field unless the number itself is longer. -/
theorem number_printed {base : Nat} (flags : Flags) (w p : Int) (num : UInt64) (hbase : Base base) :
    (0 ≤ w → w < 2 ^ 31 →
      ((number_conv base flags w p num).isSome = true ↔ ¬(flags.SIGN = true ∧ num = 0x8000000000000000))) ∧
      ∀ c, number_conv base flags w p num = some c →
        ∃ left pre body right, (chunks (laid_out c ((Mem.bytes c.array c.s c.len).map .byte))).flatten =
            left ++ c.sign.toList ++ pre ++ body ++ right ∧
          NumberText base flags w p (value flags num) left c.sign pre body right := by
  refine ⟨fun hlo hhi => number_conv_isSome hbase flags hlo hhi p num, fun c h => ?_⟩
  obtain ⟨hone, hsixteen⟩ : 1 < base ∧ base ≤ 16 := by
    rcases hbase with h | h | h <;> omega
  obtain ⟨mag, hc⟩ := numbered hbase h
  obtain ⟨hvalue, hsign⟩ := get_sign_spec hc.sign
  have hmag : (value flags num).natAbs = mag.toNat := by
    rw [← hvalue, signed]
    split
    · rw [Int.natAbs_neg, Int.natAbs_natCast]
    · exact Int.natAbs_natCast _
  obtain ⟨hp, hlen⟩ := le_digits_asked base flags p c.len
  have hwidth := hc.width
  have hprecision := hc.precision
  have hmore : digits_asked base flags p c.len ≤ c.precision := by
    rw [hprecision]
    split <;> omega
  have hbody : (zeros c ++ numeral flags.SMALL base mag.toNat).length = c.precision.toNat := by
    rw [List.length_append, zeros, List.length_replicate, ← hc.len]
    omega
  have hspaces : (spaces c).length = (c.field_width - c.precision).toNat := List.length_replicate
  have hside : (if c.flags.LEFT then [] else spaces c).length + (if c.flags.LEFT then spaces c else []).length = (spaces c).length := by
    split
    · exact Nat.zero_add _
    · exact Nat.add_zero _
  refine ⟨if c.flags.LEFT then [] else spaces c, base_text c, zeros c ++ numeral flags.SMALL base mag.toNat,
    if c.flags.LEFT then spaces c else [], (laid_out_bytes c _).trans (by rw [hc.digits]), ?_⟩
  constructor
  · exact hsign
  · rw [hmag, ← hc.len, base_text]
    by_cases hs : c.flags.SPECIAL = true
    · rw [if_pos hs, if_pos (hc.special.1 hs), hc.small]
      cases flags.SMALL <;> rfl
    · rw [if_neg hs, if_neg (mt hc.special.2 hs)]
  · rw [hmag]
    exact ⟨_, rfl⟩
  · rw [zeros, zeros_value _ hone hsixteen]
    exact hvalue
  · rw [hbody]
    omega
  · rw [hmag, ← hc.len, hbody, ← hwidth, ← hprecision]
    omega
  · intro b hb
    rcases List.mem_append.1 hb with hb | hb <;> split at hb
    · cases hb
    · exact List.eq_of_mem_replicate hb
    · exact List.eq_of_mem_replicate hb
    · cases hb
  · rw [hc.left]
    cases flags.LEFT <;> rfl
  · rw [hmag, ← hc.len]
    have hfill : c.precision = digits_asked base flags p c.len ∨ c.precision = max (digits_asked base flags p c.len) c.field_width := by
      rw [hprecision]
      split
      · exact .inr rfl
      · exact .inl rfl
    simp only [List.length_append] at hbody hside ⊢
    omega

/-- -7 in a field of 5, with two digits at least. -/
theorem number_printed_minus : ∃ c left pre body right, number_conv 10 { SIGN := true } 5 2 (-7) = some c ∧
    (chunks (laid_out c ((Mem.bytes c.array c.s c.len).map .byte))).flatten = left ++ c.sign.toList ++ pre ++ body ++ right ∧
    NumberText 10 { SIGN := true } 5 2 (value { SIGN := true } (-7)) left c.sign pre body right := by
  obtain ⟨hsome, hprinted⟩ := number_printed { SIGN := true } 5 2 (-7) (.inr (.inl rfl) : Base 10)
  obtain ⟨c, hc⟩ := Option.isSome_iff_exists.1 ((hsome (by decide) (by decide)).2 (by decide))
  obtain ⟨left, pre, body, right, htext, hnumber⟩ := hprinted c hc
  exact ⟨c, left, pre, body, right, hc, htext, hnumber⟩

end McLinOS.Vsprintf
