import Mathlib.Logic.Relation
import Mathlib.Logic.Function.Basic
import Mathlib.Tactic.Common
/-!
# Nested masking of interrupts

`irq_flag.c` of the RP2350, against the nesting it is for. A call uses only the
variables of its core, so it is one step. The words from the address of
`irq_numbers_core0` or `irq_numbers_core1` on are indexed as the code does it.
The variable is the word 0, the others are other memory.
-/
open Function

set_option linter.style.nameCheck false

namespace McLinOS.IrqFlag

inductive Core where
  | core0 | core1
  deriving DecidableEq, Repr

/-- `PRIMASK` is a register of each core, set if interrupts are masked.
`accesses` has the words used so far. -/
structure Cores where
  PRIMASK : Core → Bool
  irq_numbers : Core → Nat → BitVec 32
  irq_number : Core → BitVec 32
  accesses : List (Core × Nat)

/-- What `mrs` reads. -/
def status (b : Bool) : BitVec 32 := if b then 1 else 0

/-- `msr` writes the lowest bit. -/
def restore_interrupts (c : Core) (status : BitVec 32) (s : Cores) : Cores :=
  { s with PRIMASK := update s.PRIMASK c (status.getLsbD 0) }

def save_and_disable_interrupts (c : Core) (s : Cores) : BitVec 32 × Cores :=
  (status (s.PRIMASK c), { s with PRIMASK := update s.PRIMASK c true })

def set_number (c : Core) (v : BitVec 32) (s : Cores) : Cores := { s with irq_number := update s.irq_number c v }

def load (c : Core) (i : Nat) (s : Cores) : BitVec 32 × Cores :=
  (s.irq_numbers c i, { s with accesses := (c, i) :: s.accesses })

def store (c : Core) (i : Nat) (v : BitVec 32) (s : Cores) : Cores :=
  { s with irq_numbers := update s.irq_numbers c (update (s.irq_numbers c) i v), accesses := (c, i) :: s.accesses }

def __enable_irq (c : Core) (s : Cores) : Cores :=
  if s.irq_number c ≤ 0 then s
  else if 1 < s.irq_number c then set_number c (s.irq_number c - 1) s
  else
    let (status, s) := load c (s.irq_number c).toNat s
    let s := restore_interrupts c status s
    set_number c (s.irq_number c - 1) s

def __disable_irq (c : Core) (s : Cores) : Cores :=
  if 1 ≤ s.irq_number c then set_number c (s.irq_number c + 1) s
  else
    let (status, s) := save_and_disable_interrupts c s
    let s := store c 0 status s
    set_number c (s.irq_number c + 1) s

/-! ## The nesting -/

/-- What the calls of a core are for: how many disables are not balanced, the
mask the outermost of them found, and the mask now. -/
structure Nest where
  depth : Nat
  saved : Bool
  mask : Bool

def Nest.disable (n : Nest) : Nest := ⟨n.depth + 1, if n.depth = 0 then n.mask else n.saved, true⟩

/-- Surplus enables have no effect. -/
def Nest.enable (n : Nest) : Nest :=
  if n.depth = 0 then n else if n.depth = 1 then ⟨0, n.saved, n.saved⟩ else { n with depth := n.depth - 1 }

/-- The cores mask interrupts as their nesting says, and use only their own
storage. -/
structure MaskOk (s : Cores) (a : Core → Nest) : Prop where
  masked : ∀ c, 0 < (a c).depth → s.PRIMASK c = true
  mask : ∀ c, s.PRIMASK c = (a c).mask
  inside : ∀ x ∈ s.accesses, x.2 = 0

/-- The counter is the depth, the outermost disable's status is in storage. -/
structure CoreOk (s : Cores) (n : Nest) (c : Core) : Prop where
  number : (s.irq_number c).toNat = n.depth
  mask : s.PRIMASK c = n.mask
  masked : 0 < n.depth → n.mask = true
  saved : 0 < n.depth → s.irq_numbers c 0 = status n.saved

structure Inv (s : Cores) (a : Core → Nest) : Prop where
  core : ∀ c, CoreOk s (a c) c
  inside : ∀ x ∈ s.accesses, x.2 = 0

theorem status_bit (b : Bool) : (status b).getLsbD 0 = b := by cases b <;> rfl

section Steps
variable {s s' : Cores} {a : Core → Nest} {c : Core}

theorem Inv.ok (h : Inv s a) : MaskOk s a where
  masked := fun c hc => (h.core c).mask.trans ((h.core c).masked hc)
  mask := fun c => (h.core c).mask
  inside := h.inside

/-- A step of one core leaves the other alone. -/
theorem Inv.step {n : Nest} (h : Inv s a) (hc : CoreOk s' n c)
    (hother : ∀ d, d ≠ c → s'.PRIMASK d = s.PRIMASK d ∧ s'.irq_number d = s.irq_number d ∧
      s'.irq_numbers d = s.irq_numbers d) (hin : ∀ x ∈ s'.accesses, x.2 = 0) : Inv s' (update a c n) := by
  refine ⟨fun d => ?_, hin⟩
  by_cases hd : d = c
  · subst hd
    rwa [update_self]
  · rw [update_of_ne hd]
    obtain ⟨h1, h2, h3⟩ := hother d hd
    have := h.core d
    exact ⟨by rw [h2]; exact this.number, by rw [h1]; exact this.mask, this.masked, fun hp => by rw [h3]; exact this.saved hp⟩

/-- The counter does not wrap. -/
def DisableFits (s : Cores) (c : Core) : Prop := s.irq_number c + 1 ≠ 0

/-- The enable does not balance an outermost disable. -/
def EnableFits (s : Cores) (c : Core) : Prop := s.irq_number c ≠ 1

def DisableSafe (s : Cores) (a : Core → Nest) (c : Core) : Prop := MaskOk (__disable_irq c s) (update a c (a c).disable)

def EnableSafe (s : Cores) (a : Core → Nest) (c : Core) : Prop := MaskOk (__enable_irq c s) (update a c (a c).enable)

theorem Inv.disable (h : Inv s a) (hfit : DisableFits s c) : Inv (__disable_irq c s) (update a c (a c).disable) := by
  have hc := h.core c
  have hlt : (s.irq_number c + 1).toNat = (a c).depth + 1 := by
    rw [← hc.number]
    unfold DisableFits at hfit
    bv_omega
  unfold __disable_irq
  split
  · next hle =>
    have hpos : (a c).depth ≠ 0 := by
      rw [← hc.number]
      bv_omega
    refine h.step ⟨?_, ?_, fun _ => rfl, fun _ => ?_⟩ (fun d hd => ⟨rfl, update_of_ne hd _ _, rfl⟩) h.inside
    · exact (congrArg _ (update_self _ _ _)).trans hlt
    · exact hc.mask.trans (hc.masked (Nat.pos_of_ne_zero hpos))
    · rw [Nest.disable, if_neg hpos]
      exact hc.saved (Nat.pos_of_ne_zero hpos)
  · next hle =>
    have hzero : (a c).depth = 0 := by
      rw [← hc.number]
      bv_omega
    refine h.step ⟨?_, update_self _ _ _, fun _ => rfl, fun _ => ?_⟩
      (fun d hd => ⟨update_of_ne hd _ _, update_of_ne hd _ _, update_of_ne hd _ _⟩) ?_
    · exact (congrArg _ (update_self _ _ _)).trans hlt
    · rw [Nest.disable, if_pos hzero, ← hc.mask]
      show update s.irq_numbers c _ c 0 = _
      rw [update_self, update_self]
    · exact List.forall_mem_cons.2 ⟨rfl, h.inside⟩

theorem Inv.enable (h : Inv s a) (hfit : EnableFits s c) : Inv (__enable_irq c s) (update a c (a c).enable) := by
  have hc := h.core c
  unfold EnableFits at hfit
  unfold __enable_irq
  split
  · next hle =>
    have hzero : (a c).depth = 0 := by
      rw [← hc.number]
      bv_omega
    rw [Nest.enable, if_pos hzero, update_eq_self]
    exact h
  · next hle =>
    have hone : 1 < (a c).depth ∧ 1 < s.irq_number c ∧ (s.irq_number c - 1).toNat = (a c).depth - 1 := by
      rw [← hc.number]
      bv_omega
    obtain ⟨hdepth, hlt, hsub⟩ := hone
    rw [if_pos hlt, Nest.enable, if_neg (by omega), if_neg (by omega)]
    refine h.step ⟨?_, hc.mask, fun _ => hc.masked (by omega), fun _ => hc.saved (by omega)⟩
      (fun d hd => ⟨rfl, update_of_ne hd _ _, rfl⟩) h.inside
    exact (congrArg _ (update_self _ _ _)).trans hsub

/-- The balancing enable reads the word behind the one the disable wrote. -/
theorem enable_restores (h : Inv s a) (hone : s.irq_number c = 1) :
    (__enable_irq c s).PRIMASK c = (s.irq_numbers c 1).getLsbD 0 ∧ (c, 1) ∈ (__enable_irq c s).accesses ∧
      (a c).saved = (s.irq_numbers c 0).getLsbD 0 := by
  have hdepth : 0 < (a c).depth := by
    rw [← (h.core c).number, hone]
    decide
  rw [(h.core c).saved hdepth, status_bit]
  unfold __enable_irq
  rw [hone, if_neg (by decide), if_neg (by decide)]
  exact ⟨update_self _ _ _, List.mem_cons_self, rfl⟩

theorem enable_safe_iff (h : Inv s a) : EnableSafe s a c ↔ EnableFits s c := by
  refine ⟨fun hok hone => ?_, fun hfit => (h.enable hfit).ok⟩
  exact absurd (hok.inside _ (enable_restores h hone).2.1) (by simp)

/-! ## Runs -/

/-- A step of one core, or of what is behind the variables. Between the calls
that belong together other code sets `PRIMASK`. -/
inductive MaskStep : Cores × (Core → Nest) → Cores × (Core → Nest) → Prop
  | disable {s : Cores} {a : Core → Nest} {c : Core} (hfit : DisableFits s c) :
      MaskStep (s, a) (__disable_irq c s, update a c (a c).disable)
  | enable {s : Cores} {a : Core → Nest} {c : Core} (hfit : EnableFits s c) :
      MaskStep (s, a) (__enable_irq c s, update a c (a c).enable)
  | other {s : Cores} {a : Core → Nest} {c : Core} {i : Nat} {v : BitVec 32} (hi : i ≠ 0) :
      MaskStep (s, a) ({ s with irq_numbers := update s.irq_numbers c (update (s.irq_numbers c) i v) }, a)
  | mask {s : Cores} {a : Core → Nest} {c : Core} {b : Bool} (hd : (a c).depth = 0) :
      MaskStep (s, a) ({ s with PRIMASK := update s.PRIMASK c b }, update a c { a c with mask := b })

theorem MaskStep.inv {x x' : Cores × (Core → Nest)} (hs : MaskStep x x') (h : Inv x.1 x.2) : Inv x'.1 x'.2 := by
  cases hs with
  | disable hfit => exact h.disable hfit
  | enable hfit => exact h.enable hfit
  | @other s a c i v hi =>
    refine ⟨fun d => ⟨(h.core d).number, (h.core d).mask, (h.core d).masked, fun hp => ?_⟩, h.inside⟩
    refine Eq.trans ?_ ((h.core d).saved hp)
    by_cases hd : d = c
    · subst hd
      show update s.irq_numbers d _ d 0 = _
      rw [update_self, update_of_ne hi.symm]
    · exact congrFun (update_of_ne hd _ _) 0
  | @mask s a c b hd =>
    have hno : ¬0 < (a c).depth := by omega
    refine h.step ⟨(h.core c).number, update_self _ _ _, fun hp => absurd hp hno, fun hp => absurd hp hno⟩
      (fun d hd => ⟨update_of_ne hd _ _, rfl, rfl⟩) h.inside

/-- As long as no enable balances an outermost disable and no counter wraps,
both cores mask interrupts as their nesting says. In each such state an enable is
right exactly if it does not balance an outermost disable. -/
theorem nested_masking {s₀ : Cores} {a₀ : Core → Nest} (hnum : ∀ c, s₀.irq_number c = 0) (hacc : s₀.accesses = [])
    (ha : ∀ c, (a₀ c).depth = 0 ∧ (a₀ c).mask = s₀.PRIMASK c)
    (h : Relation.ReflTransGen MaskStep (s₀, a₀) (s, a)) :
    MaskOk s a ∧ (∀ c, EnableSafe s a c ↔ EnableFits s c) ∧ ∀ c, DisableFits s c → DisableSafe s a c := by
  have hinv : ∀ x, Relation.ReflTransGen MaskStep (s₀, a₀) x → Inv x.1 x.2 := by
    intro x hx
    induction hx with
    | refl =>
      refine ⟨fun c => ⟨?_, (ha c).2.symm, ?_, ?_⟩, by simp [hacc]⟩
      · rw [hnum, (ha c).1]
        rfl
      · simp [(ha c).1]
      · simp [(ha c).1]
    | tail _ hstep ih => exact hstep.inv ih
  have hs := hinv _ h
  exact ⟨hs.ok, fun c => enable_safe_iff hs, fun c hfit => (hs.disable hfit).ok⟩

/-- Nothing is masked, the words behind the variables are 1. -/
def unmasked : Cores := ⟨fun _ => false, fun _ _ => 1, fun _ => 0, []⟩

def not_nested : Core → Nest := fun _ => ⟨0, false, false⟩

/-- The cores and their nesting after a disable. -/
def disabled (c : Core) (x : Cores × (Core → Nest)) : Cores × (Core → Nest) :=
  (__disable_irq c x.1, update x.2 c (x.2 c).disable)

/-- Core 0 nests two disables and takes one back, core 1 disables in between. -/
theorem nested_masking_two_cores : ∃ s a, (a .core0).depth = 1 ∧ (a .core1).depth = 1 ∧ MaskOk s a ∧
    (∀ c, EnableSafe s a c ↔ EnableFits s c) ∧ ∀ c, DisableFits s c → DisableSafe s a c := by
  let x₁ := disabled .core0 (unmasked, not_nested)
  let x₂ := disabled .core1 x₁
  let x₃ := disabled .core0 x₂
  have h1 : MaskStep (unmasked, not_nested) x₁ := .disable (by unfold DisableFits; decide)
  have h2 : MaskStep x₁ x₂ := .disable (by unfold DisableFits; decide)
  have h3 : MaskStep x₂ x₃ := .disable (by unfold DisableFits; decide)
  have h4 := @MaskStep.enable x₃.1 x₃.2 .core0 (by unfold EnableFits; decide)
  have hrun := (((Relation.ReflTransGen.single h1).tail h2).tail h3).tail h4
  exact ⟨_, _, by decide, by decide, nested_masking (fun _ => rfl) rfl (fun _ => ⟨rfl, rfl⟩) hrun⟩

/-- The balancing enable of core 0 leaves it masked: it restores the word behind
`irq_numbers_core0`. -/
theorem balanced_stays_masked : unmasked.PRIMASK .core0 = false ∧
    (__enable_irq .core0 (__disable_irq .core0 unmasked)).PRIMASK .core0 = true ∧
    (.core0, 1) ∈ (__enable_irq .core0 (__disable_irq .core0 unmasked)).accesses ∧
    ¬MaskOk (__enable_irq .core0 (__disable_irq .core0 unmasked))
      (update not_nested .core0 (not_nested .core0).disable.enable) := by
  refine ⟨rfl, by decide, by decide, fun h => ?_⟩
  have hmask := h.mask .core0
  rw [update_self] at hmask
  exact absurd hmask (by decide)

end Steps

end McLinOS.IrqFlag
