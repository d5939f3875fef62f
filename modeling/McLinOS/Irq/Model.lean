import McLinOS.CLib.Chain
import McLinOS.CLib.Loop
/-!
# Interrupt handlers

`kernel/irq/irq.c`. Actions are named by their addresses, 0 is `NULL`. The
functions hold `ire_list_lock` with interrupts off, so each is one step.
`IRQ_list` has `CONFIG_INTERRUPT_NUMBERS` entries, behind them is other memory.
-/
open CLib

namespace McLinOS.Irq

/-- `struct irqaction`: the fields that are used. -/
structure irqaction where
  handler : Nat
  dev_id : Nat
  next : Nat
  secondary : Nat
  irq : Nat
  flags : Nat
  deriving Repr

/-- `accesses` has the indices of `IRQ_list` a call has used. -/
structure Irqs where
  actions : Nat → irqaction
  IRQ_list : Nat → Nat
  accesses : List Nat

namespace Irqs

def next (k : Irqs) (a : Nat) : Nat := (k.actions a).next
def secondary (k : Irqs) (a : Nat) : Nat := (k.actions a).secondary

def modify (k : Irqs) (a : Nat) (f : irqaction → irqaction) : Irqs :=
  { k with actions := Function.update k.actions a (f (k.actions a)) }

def set_next (k : Irqs) (a v : Nat) : Irqs := k.modify a ({ · with next := v })
def set_secondary (k : Irqs) (a v : Nat) : Irqs := k.modify a ({ · with secondary := v })

/-- `IRQ_list[irq]` is read or written. -/
def touch (k : Irqs) (irq : Nat) : Irqs := { k with accesses := irq :: k.accesses }

def set_list (k : Irqs) (irq v : Nat) : Irqs := { k.touch irq with IRQ_list := Function.update k.IRQ_list irq v }

end Irqs

/-! ## Dispatching -/

/-- A handler's call, `handler(irq, dev_id)`. -/
structure HandlerCall where
  handler : Nat
  irq : Nat
  dev_id : Nat
  deriving DecidableEq, Repr

def call_of (k : Irqs) (a : Nat) : HandlerCall := ⟨(k.actions a).handler, (k.actions a).irq, (k.actions a).dev_id⟩

def Run_IRQ_Fn_body (k : Irqs) : Nat × List HandlerCall → ControlFlow (Nat × List HandlerCall) (List HandlerCall)
  | (i, calls) => if i = 0 then .done calls else .cont (k.next i, calls ++ [call_of k i])

/-- The calls, whose number is the return value. -/
def Run_IRQ_Fn (fuel : Nat) (k : Irqs) (IRQ : Nat) : Option (List HandlerCall) :=
  loop (Run_IRQ_Fn_body k) fuel (IRQ, [])

/-- The calls, and whether the interrupt was reported as unregistered. -/
def C_IRQ_Dispatcher (CONFIG_INTERRUPT_NUMBERS fuel : Nat) (k : Irqs) (irq_number : Nat) :
    Option (List HandlerCall × Bool) :=
  if CONFIG_INTERRUPT_NUMBERS ≤ irq_number then some ([], false)
  else (Run_IRQ_Fn fuel k (k.IRQ_list irq_number)).map fun calls => (calls, calls.length = 0)

/-! ## Registering and removing -/

/-- The walk to the last action of a line. -/
def add_irq_body (k : Irqs) (i : Nat) : ControlFlow Nat Nat := if k.next i = 0 then .done i else .cont (k.next i)

def add_irq_to_table (fuel new : Nat) (k : Irqs) : Option Irqs :=
  let irq_number := (k.actions new).irq
  let k := k.touch irq_number
  if k.IRQ_list irq_number = 0 then some (k.set_list irq_number new)
  else (loop (add_irq_body k) fuel (k.IRQ_list irq_number)).map fun i => (k.set_secondary new i).set_next i new

def remove_irq (remove : Nat) (k : Irqs) : Irqs :=
  let irq := (k.actions remove).irq
  let k := k.touch irq
  if k.IRQ_list irq = 0 then k
  else if k.IRQ_list irq = remove then k.set_list irq 0
  else
    let k := if k.secondary remove ≠ 0 then k.set_next (k.secondary remove) (k.next remove) else k
    if k.next remove ≠ 0 then k.set_secondary (k.next remove) (k.secondary remove) else k

def ENOMEM : Int := 12

/-- `new` is what `new_irq_create` got from `kmalloc`, `none` if it failed. The
struct is cleared before it is filled. -/
def request_irq (fuel : Nat) (new : Option Nat) (irq handler flags dev : Nat) (k : Irqs) : Option (Int × Irqs) :=
  match new with
  | none => some (-ENOMEM, k)
  | some new =>
    (add_irq_to_table fuel new (k.modify new fun _ =>
      { handler, dev_id := dev, next := 0, secondary := 0, irq, flags })).map fun k => (0, k)

end McLinOS.Irq
