import Mathlib.Logic.Function.Basic
import McLinOS.CLib.Fields
import McLinOS.CLib.Loop
/-!
# GPIO files

`drivers/gpio/stm32f4/stm32f4_gpio.c`: files with a pin each, over the registers
of eleven ports. A result `none` is an access through a NULL port, or a loop that
does not end.
-/
open CLib Function

set_option linter.style.nameCheck false

namespace McLinOS.Gpio

def EINVAL : Int := 22

def GPIO_INPUT : BitVec 32 := 0x01
def GPIO_OUTPUT : BitVec 32 := 0x02
def GPIO_LOW : BitVec 32 := 0x04
def GPIO_HIGH : BitVec 32 := 0x08
def GPIO_PULL_UP : BitVec 32 := 0x10
def GPIO_PULL_DOWN : BitVec 32 := 0x20
def GPIO_SET_PIN_NUMBER : BitVec 32 := 0x40
def GPIO_SET_AF : BitVec 32 := 0x100
def GPIO_GET_AF : BitVec 32 := 0x101

def GPIO_Mode_IN : BitVec 16 := 0x00
def GPIO_Mode_OUT : BitVec 16 := 0x01
def GPIO_Mode_AF : BitVec 16 := 0x02
def GPIO_OType_PP : BitVec 16 := 0x00
def GPIO_PuPd_NOPULL : BitVec 16 := 0x00
def GPIO_PuPd_UP : BitVec 16 := 0x01
def GPIO_PuPd_DOWN : BitVec 16 := 0x02
def GPIO_Speed_50MHz : BitVec 16 := 0x02
def GPIO_AF0 : BitVec 8 := 0x0

/-- The registers that are written, and `AFR[0]` and `AFR[1]`. -/
structure GPIO_TypeDef where
  MODER : BitVec 32
  OTYPER : BitVec 32
  OSPEEDR : BitVec 32
  PUPDR : BitVec 32
  ODR : BitVec 32
  AFR0 : BitVec 32
  AFR1 : BitVec 32
  deriving DecidableEq, Repr

structure GPIO_InitTypeDef where
  GPIO_Pin : BitVec 16
  GPIO_Mode : BitVec 16
  GPIO_Speed : BitVec 16
  GPIO_OType : BitVec 16
  GPIO_PuPd : BitVec 16
  GPIO_AF : BitVec 8
  deriving DecidableEq, Repr

/-- A `GPIO_TypeDef *` is one of the ports `GPIOA` to `GPIOK`, or NULL. -/
structure gpio_device where
  gpio_number : BitVec 16
  gpio_type : Option (Fin 11)
  GPIO_InitStructure : GPIO_InitTypeDef
  deriving DecidableEq, Repr

/-! ## The registers of a port -/

def pin_turn (GPIO_Pin : BitVec 16) (pinpos : Nat) : ControlFlow Nat Nat :=
  if GPIO_Pin >>> pinpos = 1 then .done pinpos else .cont (pinpos + 1)

/-- `while((GPIO_Pin >> pinpos) != 1) { pinpos++; }` -/
def pin_position (GPIO_Pin : BitVec 16) : Option Nat := loop (pin_turn GPIO_Pin) 16 0

def GPIO_SetAF (GPIOx : GPIO_TypeDef) (GPIO_Pin : BitVec 16) (AF : BitVec 8) : Option GPIO_TypeDef :=
  (pin_position GPIO_Pin).map fun pinpos =>
    if pinpos < 8 then { GPIOx with AFR0 := put GPIOx.AFR0 0xF (AF.setWidth 32) (pinpos * 4) }
    else { GPIOx with AFR1 := put GPIOx.AFR1 0xF (AF.setWidth 32) ((pinpos - 8) * 4) }

/-- What `GPIO_Init` does for one of the pins. -/
def init_pin (GPIO_InitStruct : GPIO_InitTypeDef) (GPIOx : GPIO_TypeDef) (pinpos : Nat) : Option GPIO_TypeDef :=
  let mode := GPIO_InitStruct.GPIO_Mode
  let GPIOx := { GPIOx with MODER := put GPIOx.MODER 0x3 (mode.setWidth 32) (pinpos * 2) }
  let GPIOx :=
    if mode = GPIO_Mode_OUT ∨ mode = GPIO_Mode_AF then
      { GPIOx with
        OTYPER := put GPIOx.OTYPER 0x1 (GPIO_InitStruct.GPIO_OType.setWidth 32) (pinpos * 1)
        OSPEEDR := put GPIOx.OSPEEDR 0x3 (GPIO_InitStruct.GPIO_Speed.setWidth 32) (pinpos * 2) }
    else GPIOx
  let GPIOx := { GPIOx with PUPDR := put GPIOx.PUPDR 0x3 (GPIO_InitStruct.GPIO_PuPd.setWidth 32) (pinpos * 2) }
  if mode = GPIO_Mode_AF then GPIO_SetAF GPIOx (0x1 <<< pinpos) GPIO_InitStruct.GPIO_AF else some GPIOx

def GPIO_Init (GPIOx : GPIO_TypeDef) (GPIO_InitStruct : GPIO_InitTypeDef) : Option GPIO_TypeDef :=
  (List.range 16).foldlM (fun GPIOx pinpos =>
    if GPIO_InitStruct.GPIO_Pin.setWidth 32 &&& (0x1#32 <<< pinpos) = 0x1#32 <<< pinpos then init_pin GPIO_InitStruct GPIOx pinpos
    else some GPIOx) GPIOx

/-- A write to `BSRR` sets the bits of `ODR` that its low half has, and resets those
of its high half. -/
def write_BSRR (v : BitVec 32) (GPIOx : GPIO_TypeDef) : GPIO_TypeDef :=
  { GPIOx with ODR := (GPIOx.ODR &&& ~~~(v >>> 16)) ||| (v &&& 0xffff) }

def GPIO_SetBits (GPIOx : GPIO_TypeDef) (GPIO_Pin : BitVec 16) : GPIO_TypeDef := write_BSRR (GPIO_Pin.setWidth 32) GPIOx

def GPIO_ResetBits (GPIOx : GPIO_TypeDef) (GPIO_Pin : BitVec 16) : GPIO_TypeDef :=
  write_BSRR (GPIO_Pin.setWidth 32 <<< 16) GPIOx

def GPIO_GetAF (GPIOx : GPIO_TypeDef) (GPIO_Pin : BitVec 16) : Option (BitVec 8) :=
  (pin_position GPIO_Pin).map fun pinpos =>
    if pinpos < 8 then (GPIOx.AFR0 >>> (pinpos * 4) &&& 0xF).setWidth 8
    else (GPIOx.AFR1 >>> ((pinpos - 8) * 4) &&& 0xF).setWidth 8

/-! ## Pin numbers -/

def gpio_pins : List (BitVec 16) :=
  [0x0001, 0x0002, 0x0004, 0x0008, 0x0010, 0x0020, 0x0040, 0x0080,
    0x0100, 0x0200, 0x0400, 0x0800, 0x1000, 0x2000, 0x4000, 0x8000]

def get_gpio_number (pin : BitVec 16) : BitVec 16 := gpio_pins.getD (pin.toNat % 16) 0

def get_gpio_type (pin : BitVec 16) : Option (Fin 11) := if h : pin.toNat / 16 < 11 then some ⟨pin.toNat / 16, h⟩ else none

def Get_APB_RCC_Source : Option (Fin 11) → BitVec 32
  | some i => 0x1 <<< i.val
  | none => 0xffffffff

/-! ## The files -/

structure State (File : Type) where
  ports : Fin 11 → GPIO_TypeDef
  RCC_AHB1ENR : BitVec 32
  private_data : File → gpio_device

section Files
variable {File : Type} [DecidableEq File]

/-- What `kmalloc` gave is not initialised. -/
def gpio_open (file : File) (block : gpio_device) (s : State File) : State File :=
  { s with private_data := update s.private_data file { block with gpio_number := 0xffff, gpio_type := none } }

/-- The device is changed, and `GPIO_Init(gpio_type, &device->GPIO_InitStructure)` is
called. -/
def init_port (file : File) (gpio_type : Option (Fin 11)) (device : gpio_device) (s : State File) :
    Option (Int × State File) :=
  gpio_type.bind fun i => (GPIO_Init (s.ports i) device.GPIO_InitStructure).map fun GPIOx =>
    (0, { s with ports := update s.ports i GPIOx, private_data := update s.private_data file device })

/-- `GPIO_SetBits` or `GPIO_ResetBits` on a port. -/
def write_port (gpio_type : Option (Fin 11)) (f : GPIO_TypeDef → GPIO_TypeDef) (ret : Int) (s : State File) :
    Option (Int × State File) :=
  gpio_type.map fun i => (ret, { s with ports := update s.ports i (f (s.ports i)) })

/-- `buf_local` is the first character. -/
def gpio_write (file : File) (buf_local : Char) (len : Nat) (s : State File) : Option (Int × State File) :=
  let device := s.private_data file
  if device.gpio_number = 0xffff then some (-EINVAL, s)
  else if buf_local = '0' then write_port device.gpio_type (fun GPIOx => GPIO_ResetBits GPIOx device.gpio_number) len s
  else if buf_local = '1' then write_port device.gpio_type (fun GPIOx => GPIO_SetBits GPIOx device.gpio_number) len s
  else some (-EINVAL, s)

/-- `GPIO_SET_PIN_NUMBER` for a port. -/
def set_pin_number (file : File) (pin_number : BitVec 16) (gpio_type : Option (Fin 11)) (s : State File) :
    Option (Int × State File) :=
  let device : gpio_device :=
    { gpio_number := pin_number
      gpio_type := gpio_type
      GPIO_InitStructure :=
        { GPIO_Pin := pin_number
          GPIO_Mode := GPIO_Mode_OUT
          GPIO_OType := GPIO_OType_PP
          GPIO_Speed := GPIO_Speed_50MHz
          GPIO_PuPd := GPIO_PuPd_NOPULL
          GPIO_AF := GPIO_AF0 } }
  init_port file gpio_type device { s with RCC_AHB1ENR := s.RCC_AHB1ENR ||| Get_APB_RCC_Source gpio_type }

/-- `arg` is cut to 16 bits for the pin and its port. -/
def compat_ioctl (file : File) (cmd arg : BitVec 32) (s : State File) : Option (Int × State File) :=
  let device := s.private_data file
  let st := device.GPIO_InitStructure
  if cmd ≠ GPIO_SET_PIN_NUMBER ∧ device.gpio_number = 0xffff then some (-EINVAL, s)
  else
    let pin_number := get_gpio_number (arg.setWidth 16)
    let gpio_type := get_gpio_type (arg.setWidth 16)
    if cmd = GPIO_SET_PIN_NUMBER then
      if gpio_type = none ∨ Get_APB_RCC_Source gpio_type = 0xffffffff then some (-EINVAL, s)
      else set_pin_number file pin_number gpio_type s
    else if cmd = GPIO_PULL_UP then
      init_port file gpio_type { device with GPIO_InitStructure := { st with GPIO_PuPd := GPIO_PuPd_UP } } s
    else if cmd = GPIO_PULL_DOWN then
      init_port file gpio_type { device with GPIO_InitStructure := { st with GPIO_PuPd := GPIO_PuPd_DOWN } } s
    else if cmd = GPIO_INPUT then
      init_port file gpio_type { device with GPIO_InitStructure := { st with GPIO_Mode := GPIO_Mode_IN } } s
    else if cmd = GPIO_OUTPUT then
      init_port file gpio_type { device with GPIO_InitStructure := { st with GPIO_Mode := GPIO_Mode_OUT } } s
    else if cmd = GPIO_HIGH then write_port gpio_type (fun GPIOx => GPIO_SetBits GPIOx pin_number) 0 s
    else if cmd = GPIO_LOW then write_port gpio_type (fun GPIOx => GPIO_ResetBits GPIOx pin_number) 0 s
    else if cmd = GPIO_SET_AF then
      init_port file gpio_type { device with
        GPIO_InitStructure := { st with GPIO_Mode := GPIO_Mode_AF, GPIO_AF := (arg >>> 16 &&& 0xF).setWidth 8 } } s
    else if cmd = GPIO_GET_AF then
      gpio_type.bind fun i => (GPIO_GetAF (s.ports i) pin_number).map fun af => (af.toNat, s)
    else some (-EINVAL, s)

/-- A call on an open file. -/
inductive Call where
  | ioctl (cmd arg : BitVec 32)
  | write (buf_local : Char) (len : Nat)
  deriving DecidableEq, Repr

def call (file : File) : Call → State File → Option (Int × State File)
  | .ioctl cmd arg, s => compat_ioctl file cmd arg s
  | .write buf_local len, s => gpio_write file buf_local len s

end Files

end McLinOS.Gpio
