import McLinOS.CLib.Runs
import McLinOS.Gpio.Model
/-!
# A file and its pin

A file has its pin from `GPIO_SET_PIN_NUMBER`. The later commands take the port, and
two of them the pin, from their own argument.
-/
open CLib Function

set_option linter.style.nameCheck false
set_option linter.unusedSectionVars false

namespace McLinOS.Gpio

/-! ## The fields of a pin -/

/-- Outside of the fields of pin `n` the port is as it was. -/
structure Confined (n : Nat) (r r' : GPIO_TypeDef) : Prop where
  MODER : SameBut 2 n r.MODER r'.MODER
  OTYPER : SameBut 1 n r.OTYPER r'.OTYPER
  OSPEEDR : SameBut 2 n r.OSPEEDR r'.OSPEEDR
  PUPDR : SameBut 2 n r.PUPDR r'.PUPDR
  ODR : SameBut 1 n r.ODR r'.ODR
  AFR0 : SameBut 4 n r.AFR0 r'.AFR0
  AFR1 : ∀ i, i / 4 + 8 ≠ n → r'.AFR1.getLsbD i = r.AFR1.getLsbD i

/-- For pin `n` alone, with values that fit in its fields. -/
structure InitOk (n : Fin 16) (st : GPIO_InitTypeDef) : Prop where
  pin : st.GPIO_Pin = 1#16 <<< n.val
  mode : st.GPIO_Mode.toNat < 3
  speed : st.GPIO_Speed.toNat < 4
  otype : st.GPIO_OType.toNat < 2
  pupd : st.GPIO_PuPd.toNat < 4
  af : st.GPIO_AF.toNat < 16

section Port
variable {n : Fin 16} {st : GPIO_InitTypeDef} {r r' : GPIO_TypeDef}

theorem InitOk.pull (h : InitOk n st) {v : BitVec 16} (hv : v.toNat < 4) : InitOk n { st with GPIO_PuPd := v } :=
  ⟨h.pin, h.mode, h.speed, h.otype, hv, h.af⟩

theorem InitOk.drive (h : InitOk n st) {v : BitVec 16} (hv : v.toNat < 3) : InitOk n { st with GPIO_Mode := v } :=
  ⟨h.pin, hv, h.speed, h.otype, h.pupd, h.af⟩

theorem InitOk.alternate (h : InitOk n st) {v : BitVec 8} (hv : v.toNat < 16) :
    InitOk n { st with GPIO_Mode := GPIO_Mode_AF, GPIO_AF := v } :=
  ⟨h.pin, (by decide : GPIO_Mode_AF.toNat < 3), h.speed, h.otype, h.pupd, hv⟩

theorem Confined.refl (n : Nat) (r : GPIO_TypeDef) : Confined n r r :=
  ⟨.refl, .refl, .refl, .refl, .refl, .refl, fun _ _ => rfl⟩

theorem Confined.trans {n : Nat} {r'' : GPIO_TypeDef} (h : Confined n r r') (h' : Confined n r' r'') : Confined n r r'' where
  MODER := h.MODER.trans h'.MODER
  OTYPER := h.OTYPER.trans h'.OTYPER
  OSPEEDR := h.OSPEEDR.trans h'.OSPEEDR
  PUPDR := h.PUPDR.trans h'.PUPDR
  ODR := h.ODR.trans h'.ODR
  AFR0 := h.AFR0.trans h'.AFR0
  AFR1 := fun i hi => (h'.AFR1 i hi).trans (h.AFR1 i hi)

theorem get_gpio_number_eq (pin : BitVec 16) : get_gpio_number pin = 1#16 <<< (pin.toNat % 16) := by
  have hall : ∀ k : Fin 16, gpio_pins.getD k.val 0 = 1#16 <<< k.val := by decide
  exact hall ⟨pin.toNat % 16, Nat.mod_lt _ (by decide)⟩

theorem pin_position_one (n : Fin 16) : pin_position (1#16 <<< n.val) = some n.val := by
  revert n
  decide

/-- Only the bit of the pin itself is found in its mask. -/
theorem pin_mask (n k : Fin 16) :
    ((1#16 <<< n.val).setWidth 32 &&& (0x1#32 <<< k.val) = 0x1#32 <<< k.val) ↔ k = n := by
  revert n k
  decide

theorem GPIO_Init_pin (h : st.GPIO_Pin = 1#16 <<< n.val) (r : GPIO_TypeDef) : GPIO_Init r st = init_pin st r n := by
  refine foldlM_one (init_pin st) _ (List.mem_range.2 n.isLt) List.nodup_range ?_ r
  intro k hk
  rw [h]
  exact (pin_mask n ⟨k, List.mem_range.1 hk⟩).trans Fin.ext_iff

theorem toNat_setWidth_16 (v : BitVec 16) : (v.setWidth 32).toNat = v.toNat := BitVec.toNat_setWidth_of_le (by decide)

theorem GPIO_SetAF_one (n : Fin 16) (r : GPIO_TypeDef) (AF : BitVec 8) (hAF : AF.toNat < 16) :
    ∃ r', GPIO_SetAF r (1#16 <<< n.val) AF = some r' ∧ r'.MODER = r.MODER ∧ Confined n r r' := by
  have hv : (AF.setWidth 32).toNat < 2 ^ 4 := by rwa [BitVec.toNat_setWidth_of_le (by decide)]
  rw [GPIO_SetAF, pin_position_one, Option.map_some]
  refine ⟨_, rfl, ?_⟩
  split
  · exact ⟨rfl, .refl, .refl, .refl, .refl, .refl, put_same (by decide) (by decide) hv, fun _ _ => rfl⟩
  · rename_i hge
    refine ⟨rfl, .refl, .refl, .refl, .refl, .refl, .refl, ?_⟩
    intro i hi
    exact put_same (k := n.val - 8) (by decide) (by decide) hv i (by omega)

theorem init_pin_confined (h : InitOk n st) (r : GPIO_TypeDef) :
    ∃ r', init_pin st r n = some r' ∧ r'.MODER = put r.MODER 0x3 (st.GPIO_Mode.setWidth 32) (n * 2) ∧ Confined n r r' := by
  have hmode : (st.GPIO_Mode.setWidth 32).toNat < 2 ^ 2 := by
    rw [toNat_setWidth_16]
    exact Nat.lt_succ_of_lt h.mode
  have hspeed : (st.GPIO_Speed.setWidth 32).toNat < 2 ^ 2 := (toNat_setWidth_16 _).trans_lt h.speed
  have hotype : (st.GPIO_OType.setWidth 32).toNat < 2 ^ 1 := (toNat_setWidth_16 _).trans_lt h.otype
  have hpupd : (st.GPIO_PuPd.setWidth 32).toNat < 2 ^ 2 := (toNat_setWidth_16 _).trans_lt h.pupd
  have hMODER : SameBut 2 n r.MODER (put r.MODER 0x3 (st.GPIO_Mode.setWidth 32) (n * 2)) :=
    put_same (by decide) (by decide) hmode
  have hPUPDR : SameBut 2 n r.PUPDR (put r.PUPDR 0x3 (st.GPIO_PuPd.setWidth 32) (n * 2)) :=
    put_same (by decide) (by decide) hpupd
  unfold init_pin
  dsimp only
  by_cases hout : st.GPIO_Mode = GPIO_Mode_OUT ∨ st.GPIO_Mode = GPIO_Mode_AF
  · rw [if_pos hout]
    have hregs : Confined n r
        { r with
          MODER := put r.MODER 0x3 (st.GPIO_Mode.setWidth 32) (n * 2)
          OTYPER := put r.OTYPER 0x1 (st.GPIO_OType.setWidth 32) (n * 1)
          OSPEEDR := put r.OSPEEDR 0x3 (st.GPIO_Speed.setWidth 32) (n * 2)
          PUPDR := put r.PUPDR 0x3 (st.GPIO_PuPd.setWidth 32) (n * 2) } :=
      ⟨hMODER, put_same (by decide) (by decide) hotype, put_same (by decide) (by decide) hspeed, hPUPDR, .refl, .refl,
        fun _ _ => rfl⟩
    by_cases haf : st.GPIO_Mode = GPIO_Mode_AF
    · rw [if_pos haf]
      obtain ⟨r', hr', hsame, hconf⟩ := GPIO_SetAF_one n _ st.GPIO_AF h.af
      exact ⟨r', hr', hsame, hregs.trans hconf⟩
    · rw [if_neg haf]
      exact ⟨_, rfl, rfl, hregs⟩
  · rw [if_neg hout, if_neg (not_or.1 hout).2]
    exact ⟨_, rfl, rfl, hMODER, .refl, .refl, hPUPDR, .refl, .refl, fun _ _ => rfl⟩

theorem GPIO_Init_confined (h : InitOk n st) (r : GPIO_TypeDef) :
    ∃ r', GPIO_Init r st = some r' ∧ r'.MODER = put r.MODER 0x3 (st.GPIO_Mode.setWidth 32) (n * 2) ∧ Confined n r r' := by
  rw [GPIO_Init_pin h.pin]
  exact init_pin_confined h r

/-- Bit `n` of `ODR` is set. -/
theorem GPIO_SetBits_eq (n : Fin 16) (r : GPIO_TypeDef) :
    GPIO_SetBits r (1#16 <<< n.val) = { r with ODR := r.ODR ||| 1#32 <<< n.val } := by
  have hmask : ∀ n : Fin 16, ~~~((1#16 <<< n.val).setWidth 32 >>> 16) = BitVec.allOnes 32 ∧
      (1#16 <<< n.val).setWidth 32 &&& 0xffff#32 = 1#32 <<< n.val := by decide
  rw [GPIO_SetBits, write_BSRR, (hmask n).1, BitVec.and_allOnes]
  exact congrArg (fun v => { r with ODR := r.ODR ||| v }) (hmask n).2

/-- Bit `n` of `ODR` is reset. -/
theorem GPIO_ResetBits_eq (n : Fin 16) (r : GPIO_TypeDef) :
    GPIO_ResetBits r (1#16 <<< n.val) = { r with ODR := r.ODR &&& ~~~(1#32 <<< n.val) } := by
  have hmask : ∀ n : Fin 16, ((1#16 <<< n.val).setWidth 32 <<< 16) >>> 16 = 1#32 <<< n.val ∧
      ((1#16 <<< n.val).setWidth 32 <<< 16) &&& 0xffff#32 = 0#32 := by decide
  rw [GPIO_ResetBits, write_BSRR, (hmask n).1]
  show { r with ODR := (r.ODR &&& ~~~(1#32 <<< n.val)) ||| (_ &&& 0xffff#32) } = _
  rw [(hmask n).2, BitVec.or_zero]

theorem pin_bit {n i : Nat} (hi : i / 1 ≠ n) : (1#32 <<< n).getLsbD i = false := by
  have h := getLsbD_shift_field (v := 1#32) (by decide : 0 < 1) (by decide) hi
  rwa [Nat.mul_one] at h

theorem GPIO_SetBits_confined (n : Fin 16) (r : GPIO_TypeDef) : Confined n r (GPIO_SetBits r (1#16 <<< n.val)) := by
  rw [GPIO_SetBits_eq]
  refine ⟨.refl, .refl, .refl, .refl, ?_, .refl, fun _ _ => rfl⟩
  intro i hi
  rw [BitVec.getLsbD_or, pin_bit hi, Bool.or_false]

theorem GPIO_ResetBits_confined (n : Fin 16) (r : GPIO_TypeDef) : Confined n r (GPIO_ResetBits r (1#16 <<< n.val)) := by
  rw [GPIO_ResetBits_eq]
  refine ⟨.refl, .refl, .refl, .refl, ?_, .refl, fun _ _ => rfl⟩
  intro i hi
  rw [BitVec.getLsbD_and, BitVec.getLsbD_not, pin_bit hi]
  by_cases hlt : i < 32
  · simp [hlt]
  · rw [BitVec.getLsbD_of_ge r.ODR i (Nat.not_lt.1 hlt), Bool.false_and]

end Port

/-! ## The calls of a file with a pin -/

/-- The device has pin `n` of port `i`. -/
structure Selected (i : Fin 11) (n : Fin 16) (device : gpio_device) : Prop where
  number : device.gpio_number = 1#16 <<< n.val
  port : device.gpio_type = some i
  init : InitOk n device.GPIO_InitStructure

/-- The commands that run `GPIO_Init`. -/
def init_commands : List (BitVec 32) := [GPIO_PULL_UP, GPIO_PULL_DOWN, GPIO_INPUT, GPIO_OUTPUT, GPIO_SET_AF]

/-- The commands that write `BSRR`. -/
def level_commands : List (BitVec 32) := [GPIO_HIGH, GPIO_LOW]

def level (cmd : BitVec 32) (GPIO_Pin : BitVec 16) (GPIOx : GPIO_TypeDef) : GPIO_TypeDef :=
  if cmd = GPIO_HIGH then GPIO_SetBits GPIOx GPIO_Pin else GPIO_ResetBits GPIOx GPIO_Pin

section Files
variable {File : Type} [DecidableEq File] {file : File} {cmd arg : BitVec 32} {s s' : State File} {i : Fin 11} {n : Fin 16}

theorem pin_ne_ffff (n : Fin 16) : 1#16 <<< n.val ≠ 0xffff := by
  revert n
  decide

/-- What the commands that run `GPIO_Init` set before. -/
def settings (cmd arg : BitVec 32) (st : GPIO_InitTypeDef) : GPIO_InitTypeDef :=
  if cmd = GPIO_PULL_UP then { st with GPIO_PuPd := GPIO_PuPd_UP }
  else if cmd = GPIO_PULL_DOWN then { st with GPIO_PuPd := GPIO_PuPd_DOWN }
  else if cmd = GPIO_INPUT then { st with GPIO_Mode := GPIO_Mode_IN }
  else if cmd = GPIO_OUTPUT then { st with GPIO_Mode := GPIO_Mode_OUT }
  else { st with GPIO_Mode := GPIO_Mode_AF, GPIO_AF := (arg >>> 16 &&& 0xF).setWidth 8 }

theorem settings_ok {st : GPIO_InitTypeDef} (h : InitOk n st) (cmd arg : BitVec 32) : InitOk n (settings cmd arg st) := by
  have hsmall : ((arg >>> 16 &&& 0xF).setWidth 8).toNat < 16 := by
    rw [BitVec.toNat_setWidth, BitVec.toNat_and]
    exact (Nat.mod_le _ _).trans_lt (Nat.lt_succ_of_le Nat.and_le_right)
  unfold settings
  split_ifs
  · exact h.pull (by decide)
  · exact h.pull (by decide)
  · exact h.drive (by decide)
  · exact h.drive (by decide)
  · exact h.alternate hsmall

theorem Selected.set {device : gpio_device} (h : Selected i n device) (cmd arg : BitVec 32) :
    Selected i n { device with GPIO_InitStructure := settings cmd arg device.GPIO_InitStructure } :=
  ⟨h.number, h.port, settings_ok h.init cmd arg⟩

/-- What a command does, other than `GPIO_SET_PIN_NUMBER`. -/
theorem ioctl_cases (hsel : Selected i n (s.private_data file)) (hcmd : cmd ≠ GPIO_SET_PIN_NUMBER) (arg : BitVec 32) :
    (cmd ∈ init_commands ∧ compat_ioctl file cmd arg s = init_port file (get_gpio_type (arg.setWidth 16))
      { s.private_data file with
        GPIO_InitStructure := settings cmd arg (s.private_data file).GPIO_InitStructure } s) ∨
    (cmd ∈ level_commands ∧ compat_ioctl file cmd arg s =
      write_port (get_gpio_type (arg.setWidth 16)) (level cmd (get_gpio_number (arg.setWidth 16))) 0 s) ∨
    (cmd ∉ init_commands ∧ cmd ∉ level_commands ∧ ∀ r, compat_ioctl file cmd arg s = some r → r.2 = s) := by
  have hnumber : (s.private_data file).gpio_number ≠ 0xffff := hsel.number ▸ pin_ne_ffff n
  unfold compat_ioctl settings
  dsimp only
  rw [if_neg (fun h => hnumber h.2), if_neg hcmd]
  by_cases hup : cmd = GPIO_PULL_UP
  · rw [if_pos hup, if_pos hup]
    exact .inl ⟨by simp [init_commands, hup], rfl⟩
  rw [if_neg hup, if_neg hup]
  by_cases hdown : cmd = GPIO_PULL_DOWN
  · rw [if_pos hdown, if_pos hdown]
    exact .inl ⟨by simp [init_commands, hdown], rfl⟩
  rw [if_neg hdown, if_neg hdown]
  by_cases hin : cmd = GPIO_INPUT
  · rw [if_pos hin, if_pos hin]
    exact .inl ⟨by simp [init_commands, hin], rfl⟩
  rw [if_neg hin, if_neg hin]
  by_cases hout : cmd = GPIO_OUTPUT
  · rw [if_pos hout, if_pos hout]
    exact .inl ⟨by simp [init_commands, hout], rfl⟩
  rw [if_neg hout, if_neg hout]
  by_cases hhigh : cmd = GPIO_HIGH
  · rw [if_pos hhigh]
    refine .inr (.inl ⟨by simp [level_commands, hhigh], ?_⟩)
    rw [show level cmd = fun p r => GPIO_SetBits r p by funext p r; rw [level, if_pos hhigh]]
  rw [if_neg hhigh]
  by_cases hlow : cmd = GPIO_LOW
  · rw [if_pos hlow]
    refine .inr (.inl ⟨by simp [level_commands, hlow], ?_⟩)
    rw [show level cmd = fun p r => GPIO_ResetBits r p by funext p r; rw [level, if_neg hhigh]]
  rw [if_neg hlow]
  by_cases haf : cmd = GPIO_SET_AF
  · rw [if_pos haf]
    exact .inl ⟨by simp [init_commands, haf], rfl⟩
  rw [if_neg haf]
  refine .inr (.inr ⟨by simp [init_commands, hup, hdown, hin, hout, haf], by simp [level_commands, hhigh, hlow], ?_⟩)
  intro r hr
  split at hr
  · obtain ⟨j, -, hj⟩ := Option.bind_eq_some_iff.1 hr
    obtain ⟨af, -, rfl⟩ := Option.map_eq_some_iff.1 hj
    rfl
  · obtain rfl := Option.some.inj hr
    rfl

/-- No command runs `GPIO_Init` and writes `BSRR`, or selects a pin. -/
theorem commands_apart : (∀ cmd ∈ init_commands, cmd ∉ level_commands ∧ cmd ≠ GPIO_SET_PIN_NUMBER) ∧
    ∀ cmd ∈ level_commands, cmd ∉ init_commands ∧ cmd ≠ GPIO_SET_PIN_NUMBER := by
  simp [init_commands, level_commands, GPIO_PULL_UP, GPIO_PULL_DOWN, GPIO_INPUT, GPIO_OUTPUT, GPIO_SET_AF, GPIO_HIGH,
    GPIO_LOW, GPIO_SET_PIN_NUMBER]

/-! ## When a call stays at its pin -/

/-- No port is NULL, and nothing but the fields of pin `n` of port `i` changes. -/
def PinConfined (i : Fin 11) (n : Fin 16) (s : State File) (result : Option (Int × State File)) : Prop :=
  ∃ r, result = some r ∧ (∀ j ≠ i, r.2.ports j = s.ports j) ∧ Confined n (s.ports i) (r.2.ports i) ∧
    r.2.RCC_AHB1ENR = s.RCC_AHB1ENR

/-- The calls that set up or drive the pin. -/
def Drives : Call → Prop
  | .ioctl cmd _ => cmd ∈ init_commands ∨ cmd ∈ level_commands
  | .write _ _ => True

/-- The low half of the argument is the number of a pin of the port, or the
number of the pin itself. -/
def Fits (i : Fin 11) (n : Fin 16) : Call → Prop
  | .ioctl cmd arg => (cmd ∈ init_commands → arg.toNat % 2 ^ 16 / 16 = i) ∧
    (cmd ∈ level_commands → arg.toNat % 2 ^ 16 = 16 * i + n)
  | .write _ _ => True

theorem get_gpio_type_eq (arg : BitVec 32) (j : Fin 11) :
    get_gpio_type (arg.setWidth 16) = some j ↔ arg.toNat % 2 ^ 16 / 16 = j := by
  rw [get_gpio_type, BitVec.toNat_setWidth]
  split
  · rw [Option.some.injEq, Fin.ext_iff]
  · rename_i hlarge
    exact iff_of_false (by simp) fun h => hlarge (h ▸ j.isLt)

theorem init_port_confined {device : gpio_device} (h : Selected i n device) :
    PinConfined i n s (init_port file (some i) device s) := by
  obtain ⟨GPIOx, hinit, -, hconf⟩ := GPIO_Init_confined h.init (s.ports i)
  rw [init_port, Option.bind_some, hinit]
  refine ⟨_, rfl, ?_, ?_, rfl⟩
  · intro j hj
    exact update_of_ne hj _ _
  · show Confined n (s.ports i) (update s.ports i GPIOx i)
    rwa [update_self]

theorem write_port_confined {f : GPIO_TypeDef → GPIO_TypeDef} (hf : ∀ r, Confined n r (f r)) (ret : Int) :
    PinConfined i n s (write_port (some i) f ret s) := by
  refine ⟨_, rfl, ?_, ?_, rfl⟩
  · intro j hj
    exact update_of_ne hj _ _
  · show Confined n (s.ports i) (update s.ports i (f (s.ports i)) i)
    rw [update_self]
    exact hf _

theorem level_confined (cmd : BitVec 32) (n : Fin 16) (r : GPIO_TypeDef) : Confined n r (level cmd (1#16 <<< n.val) r) := by
  rw [level]
  split
  · exact GPIO_SetBits_confined n r
  · exact GPIO_ResetBits_confined n r

theorem write_confined (hsel : Selected i n (s.private_data file)) (buf_local : Char) (len : Nat) :
    PinConfined i n s (gpio_write file buf_local len s) := by
  have hnumber : (s.private_data file).gpio_number ≠ 0xffff := hsel.number ▸ pin_ne_ffff n
  have hsame : PinConfined i n s (some (-EINVAL, s)) := ⟨_, rfl, fun _ _ => rfl, .refl .., rfl⟩
  unfold gpio_write
  dsimp only
  rw [if_neg hnumber, hsel.port, hsel.number]
  split
  · exact write_port_confined (GPIO_ResetBits_confined n) _
  split
  · exact write_port_confined (GPIO_SetBits_confined n) _
  · exact hsame

/-- A port where every mode is 3, which no device sets. -/
def analog : GPIO_TypeDef := ⟨BitVec.allOnes 32, 0, 0, 0, 0, 0, 0⟩

theorem put_mode_ne (n : Fin 16) {mode : BitVec 16} (h : mode.toNat < 3) :
    put (BitVec.allOnes 32) 0x3 (mode.setWidth 32) (n * 2) ≠ BitVec.allOnes 32 := by
  have hall : ∀ (n : Fin 16) (m : Fin 3),
      put (BitVec.allOnes 32) 0x3 ((BitVec.ofNat 16 m.val).setWidth 32) (n * 2) ≠ BitVec.allOnes 32 := by decide
  have hmode := hall n ⟨mode.toNat, h⟩
  rwa [BitVec.ofNat_toNat, BitVec.setWidth_eq] at hmode

theorem init_port_iff {device : gpio_device} (h : Selected i n device) (gpio_type : Option (Fin 11)) :
    (∀ ports, PinConfined i n { s with ports := ports } (init_port file gpio_type device { s with ports := ports })) ↔
      gpio_type = some i := by
  constructor
  · intro hall
    obtain ⟨r, hr, hothers, -, -⟩ := hall fun _ => analog
    obtain ⟨j, rfl, hj⟩ := Option.bind_eq_some_iff.1 hr
    obtain ⟨GPIOx, hinit, rfl⟩ := Option.map_eq_some_iff.1 hj
    by_contra hne
    have hsame := hothers j (fun he => hne (congrArg some he))
    obtain ⟨GPIOx', hinit', hMODER, -⟩ := GPIO_Init_confined h.init analog
    obtain rfl := Option.some.inj (hinit.symm.trans hinit')
    have hport : update (fun _ => analog) j GPIOx j = analog := hsame
    rw [update_self] at hport
    rw [hport] at hMODER
    exact put_mode_ne n h.init.mode hMODER.symm
  · rintro rfl ports
    exact init_port_confined h

/-- A port whose pins all have the other level. -/
def opposite (cmd : BitVec 32) : GPIO_TypeDef := ⟨0, 0, 0, 0, if cmd = GPIO_HIGH then 0 else BitVec.allOnes 32, 0, 0⟩

theorem level_changes (cmd : BitVec 32) (m : Fin 16) :
    (level cmd (1#16 <<< m.val) (opposite cmd)).ODR.getLsbD m ≠ (opposite cmd).ODR.getLsbD m := by
  have hset : ∀ m : Fin 16, (0#32 ||| 1#32 <<< m.val).getLsbD m ≠ (0#32).getLsbD m := by decide
  have hreset : ∀ m : Fin 16,
      (BitVec.allOnes 32 &&& ~~~(1#32 <<< m.val)).getLsbD m ≠ (BitVec.allOnes 32).getLsbD m := by decide
  rw [level, opposite]
  by_cases hhigh : cmd = GPIO_HIGH
  · rw [if_pos hhigh, if_pos hhigh, GPIO_SetBits_eq]
    exact hset m
  · rw [if_neg hhigh, if_neg hhigh, GPIO_ResetBits_eq]
    exact hreset m

theorem write_port_iff (cmd : BitVec 32) (m : Fin 16) (gpio_type : Option (Fin 11)) (s : State File) :
    (∀ ports, PinConfined i n { s with ports := ports }
      (write_port gpio_type (level cmd (1#16 <<< m.val)) 0 { s with ports := ports })) ↔ gpio_type = some i ∧ m = n := by
  constructor
  · intro hall
    obtain ⟨r, hr, hothers, hconf, -⟩ := hall fun _ => opposite cmd
    obtain ⟨j, rfl, rfl⟩ := Option.map_eq_some_iff.1 hr
    have hport : ∀ k, j = k → update (fun _ => opposite cmd) j (level cmd (1#16 <<< m.val) (opposite cmd)) k =
        level cmd (1#16 <<< m.val) (opposite cmd) := by
      rintro k rfl
      exact update_self ..
    have hji : j = i := by
      by_contra hne
      have hsame := (hport j rfl).symm.trans (hothers j hne)
      exact level_changes cmd m (congrArg (fun r => r.ODR.getLsbD m) hsame)
    refine ⟨congrArg some hji, ?_⟩
    by_contra hne
    have hbit := hconf.ODR m.val (by rw [Nat.div_one]; exact fun he => hne (Fin.ext he))
    have hport' := congrArg (fun r => r.ODR.getLsbD m) (hport i hji)
    exact level_changes cmd m (hport'.symm.trans hbit)
  · rintro ⟨rfl, rfl⟩ ports
    exact write_port_confined (level_confined cmd m) 0

/-- A call stays at the pin of its file, whatever the registers hold, if and only if
its argument fits. -/
theorem call_iff (hsel : Selected i n (s.private_data file)) (c : Call) (hdrives : Drives c) :
    (∀ ports, PinConfined i n { s with ports := ports } (call file c { s with ports := ports })) ↔ Fits i n c := by
  cases c with
  | write buf_local len => exact iff_of_true (fun ports => write_confined (s := { s with ports := ports }) hsel buf_local len) trivial
  | ioctl cmd arg =>
    rcases hdrives with hinit | hlevel
    · obtain ⟨hnot, hcmd⟩ := commands_apart.1 cmd hinit
      have hcall : ∀ ports, call file (.ioctl cmd arg) { s with ports := ports } =
          init_port file (get_gpio_type (arg.setWidth 16)) { s.private_data file with
            GPIO_InitStructure := settings cmd arg (s.private_data file).GPIO_InitStructure } { s with ports := ports } := by
        intro ports
        rcases ioctl_cases (s := { s with ports := ports }) hsel hcmd arg with h | h | h
        · exact h.2
        · exact absurd h.1 hnot
        · exact absurd hinit h.1
      simp only [hcall]
      rw [init_port_iff (hsel.set cmd arg), get_gpio_type_eq]
      exact ⟨fun h => ⟨fun _ => h, fun h' => absurd h' hnot⟩, fun h => h.1 hinit⟩
    · obtain ⟨hnot, hcmd⟩ := commands_apart.2 cmd hlevel
      have hcall : ∀ ports, call file (.ioctl cmd arg) { s with ports := ports } =
          write_port (get_gpio_type (arg.setWidth 16)) (level cmd (1#16 <<< (arg.toNat % 2 ^ 16 % 16))) 0
            { s with ports := ports } := by
        intro ports
        rw [← BitVec.toNat_setWidth, ← get_gpio_number_eq]
        rcases ioctl_cases (s := { s with ports := ports }) hsel hcmd arg with h | h | h
        · exact absurd h.1 hnot
        · exact h.2
        · exact absurd hlevel h.2.1
      have hall := write_port_iff (n := n) (i := i) cmd ⟨arg.toNat % 2 ^ 16 % 16, Nat.mod_lt _ (by decide)⟩
        (get_gpio_type (arg.setWidth 16)) s
      simp only [hcall]
      rw [hall, get_gpio_type_eq, Fin.ext_iff]
      constructor
      · rintro ⟨hport, hpin⟩
        refine ⟨fun h => absurd h hnot, fun _ => ?_⟩
        dsimp only at hpin
        omega
      · intro h
        have hnumber := h.2 hlevel
        have hn := n.isLt
        dsimp only
        omega

/-! ## Runs -/

/-- The files and the pins that were selected on them last. -/
structure Opened (File : Type) where
  gpio : State File
  selected : File → Option (Fin 11 × Fin 16)

inductive Action (File : Type) where
  | gpio_open (file : File) (block : gpio_device)
  | call (file : File) (c : Call)

/-- Sixteen pins for each port. -/
def pin_of (number : Nat) : Option (Fin 11 × Fin 16) :=
  if h : number / 16 < 11 then some (⟨number / 16, h⟩, ⟨number % 16, Nat.mod_lt _ (by decide)⟩) else none

/-- The pin of the file after a call that returned `ret`. -/
def select (c : Call) (ret : Int) (selected : Option (Fin 11 × Fin 16)) : Option (Fin 11 × Fin 16) :=
  match c with
  | .ioctl cmd arg => if cmd = GPIO_SET_PIN_NUMBER ∧ ret = 0 then pin_of (arg.toNat % 2 ^ 16) else selected
  | .write _ _ => selected

def act : Action File → Opened File → Option (Opened File)
  | .gpio_open file block, s => some ⟨gpio_open file block s.gpio, update s.selected file none⟩
  | .call file c, s =>
    (call file c s.gpio).map fun r => ⟨r.2, update s.selected file (select c r.1 (s.selected file))⟩

/-- All files were just opened. The ports hold anything. -/
def Start (s : Opened File) : Prop := ∀ file, s.selected file = none ∧ (s.gpio.private_data file).gpio_number = 0xffff

def Step (s s' : Opened File) : Prop := ∃ a, act a s = some s'

structure DeviceOk (selected : Option (Fin 11 × Fin 16)) (device : gpio_device) : Prop where
  unset : selected = none → device.gpio_number = 0xffff
  set : ∀ i n, selected = some (i, n) → Selected i n device

def Inv (s : Opened File) : Prop := ∀ file, DeviceOk (s.selected file) (s.gpio.private_data file)

/-- Without a pin a file does nothing but take one. -/
theorem ioctl_unset (h : (s.private_data file).gpio_number = 0xffff) (hcmd : cmd ≠ GPIO_SET_PIN_NUMBER) (arg : BitVec 32) :
    compat_ioctl file cmd arg s = some (-EINVAL, s) := by
  unfold compat_ioctl
  exact if_pos ⟨hcmd, h⟩

theorem source_ne (i : Fin 11) : Get_APB_RCC_Source (some i) ≠ 0xffffffff := by
  revert i
  decide +kernel

theorem ioctl_set (file : File) (arg : BitVec 32) (s : State File) : compat_ioctl file GPIO_SET_PIN_NUMBER arg s =
    match get_gpio_type (arg.setWidth 16) with
    | none => some (-EINVAL, s)
    | some i => set_pin_number file (get_gpio_number (arg.setWidth 16)) (some i) s := by
  unfold compat_ioctl
  dsimp only
  rw [if_neg (fun h => h.1 rfl), if_pos rfl]
  cases get_gpio_type (arg.setWidth 16) with
  | none => rw [if_pos (.inl rfl)]
  | some i => rw [if_neg (not_or.2 ⟨by simp, source_ne i⟩)]

theorem init_port_data {gpio_type : Option (Fin 11)} {device : gpio_device} {r : Int × State File}
    (h : init_port file gpio_type device s = some r) : r.1 = 0 ∧ r.2.private_data = update s.private_data file device := by
  obtain ⟨i, -, hi⟩ := Option.bind_eq_some_iff.1 h
  obtain ⟨GPIOx, -, rfl⟩ := Option.map_eq_some_iff.1 hi
  exact ⟨rfl, rfl⟩

theorem write_port_data {gpio_type : Option (Fin 11)} {f : GPIO_TypeDef → GPIO_TypeDef} {ret : Int} {r : Int × State File}
    (h : write_port gpio_type f ret s = some r) : r.2.private_data = s.private_data := by
  obtain ⟨i, -, rfl⟩ := Option.map_eq_some_iff.1 h
  rfl

theorem gpio_write_data {buf_local : Char} {len : Nat} {r : Int × State File} (h : gpio_write file buf_local len s = some r) :
    r.2.private_data = s.private_data := by
  unfold gpio_write at h
  dsimp only at h
  split at h
  · obtain rfl := Option.some.inj h
    rfl
  split at h
  · exact write_port_data h
  split at h
  · exact write_port_data h
  · obtain rfl := Option.some.inj h
    rfl

/-- A pin that was selected is the one with that number. -/
theorem set_pin_number_selected {arg : BitVec 32} (hport : get_gpio_type (arg.setWidth 16) = some i) {r : Int × State File}
    (h : set_pin_number file (get_gpio_number (arg.setWidth 16)) (some i) s = some r) :
    r.1 = 0 ∧ DeviceOk (pin_of (arg.toNat % 2 ^ 16)) (r.2.private_data file) ∧
      ∀ g ≠ file, r.2.private_data g = s.private_data g := by
  obtain ⟨hret, hdata⟩ := init_port_data h
  have hnumber := (get_gpio_type_eq arg i).1 hport
  have hlt : arg.toNat % 2 ^ 16 / 16 < 11 := hnumber ▸ i.isLt
  have hi : (⟨arg.toNat % 2 ^ 16 / 16, hlt⟩ : Fin 11) = i := Fin.ext hnumber
  have hpin : get_gpio_number (arg.setWidth 16) = 1#16 <<< (arg.toNat % 2 ^ 16 % 16) := by
    rw [get_gpio_number_eq, BitVec.toNat_setWidth]
  rw [hpin] at hdata
  rw [hdata, update_self, pin_of, dif_pos hlt, hi]
  refine ⟨hret, ⟨by simp, ?_⟩, fun g hg => update_of_ne hg _ _⟩
  rintro j m hjm
  obtain ⟨rfl, rfl⟩ := Prod.mk.inj (Option.some.inj hjm)
  exact ⟨rfl, rfl, rfl, (by decide : GPIO_Mode_OUT.toNat < 3), (by decide : GPIO_Speed_50MHz.toNat < 4),
    (by decide : GPIO_OType_PP.toNat < 2), (by decide : GPIO_PuPd_NOPULL.toNat < 4), (by decide : GPIO_AF0.toNat < 16)⟩

/-- The device of the file after a call, and those of the others. -/
theorem call_device {selected : Option (Fin 11 × Fin 16)} (h : DeviceOk selected (s.private_data file)) {c : Call}
    {r : Int × State File} (hr : call file c s = some r) :
    DeviceOk (select c r.1 selected) (r.2.private_data file) ∧ ∀ g ≠ file, r.2.private_data g = s.private_data g := by
  cases c with
  | write buf_local len =>
    rw [gpio_write_data hr]
    exact ⟨h, fun _ _ => rfl⟩
  | ioctl cmd arg =>
    by_cases hcmd : cmd = GPIO_SET_PIN_NUMBER
    · subst hcmd
      have hset : compat_ioctl file GPIO_SET_PIN_NUMBER arg s = some r := hr
      rw [ioctl_set] at hset
      cases hport : get_gpio_type (arg.setWidth 16) with
      | none =>
        rw [hport] at hset
        obtain rfl := Option.some.inj hset
        have hret : -EINVAL ≠ 0 := by decide
        rw [select, if_neg (fun hset => hret hset.2)]
        exact ⟨h, fun _ _ => rfl⟩
      | some i =>
        rw [hport] at hset
        obtain ⟨hret, hdevice, hothers⟩ := set_pin_number_selected hport hset
        rw [select, if_pos ⟨rfl, hret⟩]
        exact ⟨hdevice, hothers⟩
    · have hioctl : compat_ioctl file cmd arg s = some r := hr
      rw [select, if_neg (fun hset => hcmd hset.1)]
      cases selected with
      | none =>
        rw [ioctl_unset (h.unset rfl) hcmd] at hioctl
        obtain rfl := Option.some.inj hioctl
        exact ⟨h, fun _ _ => rfl⟩
      | some pin =>
        have hsel := h.set pin.1 pin.2 rfl
        rcases ioctl_cases hsel hcmd arg with ⟨-, hinit⟩ | ⟨-, hlevel⟩ | ⟨-, -, hsame⟩
        · rw [hinit] at hioctl
          rw [(init_port_data hioctl).2, update_self]
          refine ⟨⟨by simp, ?_⟩, fun g hg => update_of_ne hg _ _⟩
          rintro j m hjm
          obtain rfl := Option.some.inj hjm
          exact hsel.set cmd arg
        · rw [hlevel] at hioctl
          rw [write_port_data hioctl]
          exact ⟨h, fun _ _ => rfl⟩
        · rw [hsame r hioctl]
          exact ⟨h, fun _ _ => rfl⟩

theorem act_inv {s s' : Opened File} {a : Action File} (h : Inv s) (ha : act a s = some s') : Inv s' := by
  intro g
  cases a with
  | gpio_open file block =>
    obtain rfl := Option.some.inj ha
    show DeviceOk (update s.selected file none g) (update s.gpio.private_data file _ g)
    by_cases hg : g = file
    · subst hg
      rw [update_self, update_self]
      exact ⟨fun _ => rfl, by simp⟩
    · rw [update_of_ne hg, update_of_ne hg]
      exact h g
  | call file c =>
    obtain ⟨r, hr, rfl⟩ := Option.map_eq_some_iff.1 ha
    obtain ⟨hdevice, hothers⟩ := call_device (h file) hr
    show DeviceOk (update s.selected file _ g) (r.2.private_data g)
    by_cases hg : g = file
    · subst hg
      rwa [update_self]
    · rw [update_of_ne hg, hothers g hg]
      exact h g

/-- In every state that opens and calls lead to, a call on a file with a pin stays
at that pin if its argument fits, and only then for all that the ports may hold. -/
theorem pins_confined {s : Opened File} (h : Reachable Start Step s) {file : File} {i : Fin 11} {n : Fin 16}
    (hsel : s.selected file = some (i, n)) (c : Call) (hdrives : Drives c) :
    (Fits i n c → PinConfined i n s.gpio (call file c s.gpio)) ∧
      ((∀ ports, PinConfined i n { s.gpio with ports := ports } (call file c { s.gpio with ports := ports })) ↔ Fits i n c) := by
  have hinv : Inv s := by
    refine h.inv Inv ?_ ?_
    · intro s hstart file
      obtain ⟨hnone, hnumber⟩ := hstart file
      exact ⟨fun _ => hnumber, by simp [hnone]⟩
    · rintro s s' hs ⟨a, ha⟩
      exact act_inv hs ha
  have hiff := call_iff ((hinv file).set i n hsel) c hdrives
  exact ⟨fun hfits => hiff.2 hfits s.gpio.ports, hiff⟩

end Files

/-! ## One file -/

/-- All registers are 0. -/
def opened : Opened Unit := ⟨⟨fun _ => ⟨0, 0, 0, 0, 0, 0, 0⟩, 0, fun _ => ⟨0xffff, none, ⟨0, 0, 0, 0, 0, 0⟩⟩⟩, fun _ => none⟩

/-- The calls of `gpio_test`: pin 18, which is pin 2 of port B, then `GPIO_OUTPUT`. -/
def gpio_test : List Call := [.ioctl GPIO_SET_PIN_NUMBER 18, .ioctl GPIO_OUTPUT 0]

def run (cs : List Call) (s : Opened Unit) : Option (Opened Unit) := cs.foldlM (fun s c => act (.call () c) s) s

/-- With its pin set, the file drives that pin. -/
theorem pins_confined_write : ∃ s : Opened Unit, act (.call () (.ioctl GPIO_SET_PIN_NUMBER 18)) opened = some s ∧
    PinConfined 1 2 s.gpio (call () (.write '1' 1) s.gpio) := by
  obtain ⟨s, hs⟩ : ∃ s, act (.call () (.ioctl GPIO_SET_PIN_NUMBER 18)) opened = some s :=
    Option.isSome_iff_exists.1 (by decide +kernel)
  have hpin : (act (.call () (.ioctl GPIO_SET_PIN_NUMBER 18)) opened).map (·.selected ()) = some (some (1, 2)) := by
    decide +kernel
  rw [hs] at hpin
  have hreach : Reachable Start Step s := (Reachable.start fun _ => ⟨rfl, rfl⟩).next ⟨_, hs⟩
  exact ⟨s, hs, (pins_confined hreach (Option.some.inj hpin) (.write '1' 1) trivial).1 trivial⟩

/-- `GPIO_OUTPUT` drives pin 2 of port A, and a command with 0xffff uses NULL. -/
theorem pin_not_confined :
    (run (gpio_test.take 1) opened).map (fun s => (s.selected (), (s.gpio.ports 0).MODER)) = some (some (1, 2), 0) ∧
    (run gpio_test opened).map (fun s => (s.selected (), (s.gpio.ports 0).MODER)) = some (some (1, 2), 0x10) ∧
    run [.ioctl GPIO_SET_PIN_NUMBER 18, .ioctl GPIO_HIGH 0xffff] opened = none := by
  refine ⟨?_, ?_, ?_⟩ <;> decide +kernel

end McLinOS.Gpio
