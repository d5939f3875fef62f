import Mathlib.Tactic.Common
import McLinOS.CLib.Runs
import McLinOS.Lock.Spinlock
/-!
# Counts under a lock

`lib/lockref.c`. The tasks call the operations in any order, one after the other.
A dead reference is one with a negative count.
-/
open CLib

set_option linter.style.nameCheck false

namespace McLinOS.Lock

structure lockref where
  lock : Nat
  count : Int32
  deriving DecidableEq, Repr

/-- `_spin_lock` in the task at `current`. A word other than 1 lets it in, also the
owner that `lockref_put_or_lock` left there. `none` is the loop over a word that
stays 1. -/
def spin_lock (current : Nat) (lr : lockref) : Option lockref :=
  if (try_atomic_set_flag lr.lock 1).1 = 0 then some { lr with lock := current }
  else if lr.lock = current then some lr
  else none

def spin_unlock (lr : lockref) : lockref := { lr with lock := (try_atomic_set_flag lr.lock 0).2 }

def lockref_get (current : Nat) (lr : lockref) : Option (Int × lockref) :=
  (spin_lock current lr).map fun lr => (0, spin_unlock { lr with count := lr.count + 1 })

def lockref_put_return (current : Nat) (lr : lockref) : Option (Int × lockref) :=
  (spin_lock current lr).map fun lr => ((lr.count - 1).toInt, spin_unlock { lr with count := lr.count - 1 })

def lockref_get_not_zero (current : Nat) (lr : lockref) : Option (Int × lockref) :=
  (spin_lock current lr).map fun lr =>
    if lr.count ≠ 0 then (1, spin_unlock { lr with count := lr.count + 1 }) else (0, spin_unlock lr)

def lockref_put_not_zero (current : Nat) (lr : lockref) : Option (Int × lockref) :=
  (spin_lock current lr).map fun lr =>
    if lr.count ≠ 0 then (1, spin_unlock { lr with count := lr.count - 1 }) else (0, spin_unlock lr)

/-- At 0 the lock stays taken, for the caller to release. -/
def lockref_put_or_lock (current : Nat) (lr : lockref) : Option (Int × lockref) :=
  (spin_lock current lr).map fun lr =>
    let lr := { lr with count := lr.count - 1 }
    if lr.count = 0 then (1, lr) else (0, spin_unlock lr)

def lockref_mark_dead (current : Nat) (lr : lockref) : Option (Int × lockref) :=
  (spin_lock current lr).map fun lr => (0, spin_unlock { lr with count := -1 })

def lockref_get_not_dead (current : Nat) (lr : lockref) : Option (Int × lockref) :=
  (spin_lock current lr).map fun lr =>
    if 0 ≤ lr.count then (1, spin_unlock { lr with count := lr.count + 1 }) else (0, spin_unlock lr)

/-- The operations, and `spin_unlock`, which is for the caller of
`lockref_put_or_lock`. -/
inductive Op where
  | get
  | put_return
  | get_not_zero
  | put_not_zero
  | put_or_lock
  | mark_dead
  | get_not_dead
  | unlock
  deriving DecidableEq, Repr

def call (current : Nat) (lr : lockref) : Op → Option (Int × lockref)
  | .get => lockref_get current lr
  | .put_return => lockref_put_return current lr
  | .get_not_zero => lockref_get_not_zero current lr
  | .put_not_zero => lockref_put_not_zero current lr
  | .put_or_lock => lockref_put_or_lock current lr
  | .mark_dead => lockref_mark_dead current lr
  | .get_not_dead => lockref_get_not_dead current lr
  | .unlock => some (0, spin_unlock lr)

/-- It returned `ret` and took a reference. `lockref_get` always does. -/
def Op.got : Op → Int → Bool
  | .get, _ => true
  | .get_not_zero, ret | .get_not_dead, ret => ret = 1
  | _, _ => false

/-- It returned `ret` and gave a reference back. -/
def Op.put : Op → Int → Bool
  | .put_return, _ | .put_or_lock, _ => true
  | .put_not_zero, ret => ret = 1
  | _, _ => false

/-- The reference, whether it was marked dead, and the successful gets and puts. -/
structure Ref where
  lr : lockref
  dead : Bool
  gets : Nat
  puts : Nat
  deriving DecidableEq, Repr

def act (current : Nat) (op : Op) (s : Ref) : Option Ref :=
  (call current s.lr op).map fun r => ⟨r.2, s.dead || decide (op = .mark_dead), s.gets + (op.got r.1).toNat, s.puts + (op.put r.1).toNat⟩

/-! ## What an operation does -/

/-- What is returned and the new count. -/
def effect (c : Int32) : Op → Int × Int32
  | .get => (0, c + 1)
  | .put_return => ((c - 1).toInt, c - 1)
  | .get_not_zero => if c ≠ 0 then (1, c + 1) else (0, c)
  | .put_not_zero => if c ≠ 0 then (1, c - 1) else (0, c)
  | .put_or_lock => (if c - 1 = 0 then 1 else 0, c - 1)
  | .mark_dead => (0, -1)
  | .get_not_dead => if 0 ≤ c then (1, c + 1) else (0, c)
  | .unlock => (0, c)

section Counts
variable {current : Nat} {c : Int32} {lr : lockref} {s s' : Ref} {op : Op}

theorem spin_lock_some {lr' : lockref} (h : spin_lock current lr = some lr') :
    lr'.lock = current ∧ lr'.count = lr.count := by
  unfold spin_lock at h
  split at h
  · obtain rfl := Option.some.inj h
    exact ⟨rfl, rfl⟩
  split at h
  case isTrue hown =>
    obtain rfl := Option.some.inj h
    exact ⟨hown, rfl⟩
  case isFalse => cases h

@[simp] theorem spin_unlock_lock : (spin_unlock lr).lock = 0 := by
  unfold spin_unlock try_atomic_set_flag
  dsimp only
  split
  · rfl
  case isFalse h => exact not_not.1 h

theorem call_effect {r : Int × lockref} (h : call current lr op = some r) :
    r.1 = (effect lr.count op).1 ∧ r.2.count = (effect lr.count op).2 := by
  cases op with
  | unlock =>
    obtain rfl := Option.some.inj h
    exact ⟨rfl, rfl⟩
  | get | put_return | mark_dead =>
    obtain ⟨lr', hlr', rfl⟩ := Option.map_eq_some_iff.1 h
    rw [← (spin_lock_some hlr').2]
    exact ⟨rfl, rfl⟩
  | get_not_zero | put_not_zero | get_not_dead =>
    obtain ⟨lr', hlr', rfl⟩ := Option.map_eq_some_iff.1 h
    rw [← (spin_lock_some hlr').2, effect]
    split <;> exact ⟨rfl, rfl⟩
  | put_or_lock =>
    obtain ⟨lr', hlr', rfl⟩ := Option.map_eq_some_iff.1 h
    rw [← (spin_lock_some hlr').2, effect]
    dsimp only
    split <;> exact ⟨rfl, rfl⟩

/-- What an operation leaves in the word: nothing, or the task that keeps the lock. -/
theorem call_lock {r : Int × lockref} (h : call current lr op = some r) : r.2.lock = 0 ∨ r.2.lock = current := by
  cases op with
  | unlock =>
    obtain rfl := Option.some.inj h
    exact .inl spin_unlock_lock
  | get | put_return | mark_dead =>
    obtain ⟨lr', -, rfl⟩ := Option.map_eq_some_iff.1 h
    exact .inl spin_unlock_lock
  | get_not_zero | put_not_zero | get_not_dead =>
    obtain ⟨lr', -, rfl⟩ := Option.map_eq_some_iff.1 h
    left
    split <;> exact spin_unlock_lock
  | put_or_lock =>
    obtain ⟨lr', hlr', rfl⟩ := Option.map_eq_some_iff.1 h
    dsimp only
    split
    · exact .inr (spin_lock_some hlr').1
    · exact .inl spin_unlock_lock

/-- No operation waits, whoever keeps the lock, and the next one finds no 1 either. -/
theorem call_returns (hword : lr.lock ≠ 1) (hcurrent : 2 ≤ current) (op : Op) :
    ∃ r, call current lr op = some r ∧ r.2.lock ≠ 1 := by
  have hlock : spin_lock current lr = some { lr with lock := current } := by
    rw [spin_lock, try_atomic_set_flag, if_pos hword, if_pos rfl]
  have hsome : ∃ r, call current lr op = some r := by
    cases op with
    | unlock => exact ⟨_, rfl⟩
    | _ => exact ⟨_, Option.map_eq_some_iff.2 ⟨_, hlock, rfl⟩⟩
  obtain ⟨r, hr⟩ := hsome
  refine ⟨r, hr, ?_⟩
  have := call_lock hr
  omega

theorem act_effect (h : act current op s = some s') : s'.lr.count = (effect s.lr.count op).2 ∧
    s'.dead = (s.dead || decide (op = .mark_dead)) ∧
    s'.gets = s.gets + (op.got (effect s.lr.count op).1).toNat ∧ s'.puts = s.puts + (op.put (effect s.lr.count op).1).toNat := by
  obtain ⟨r, hr, rfl⟩ := Option.map_eq_some_iff.1 h
  obtain ⟨hret, hcount⟩ := call_effect hr
  rw [← hret]
  exact ⟨hcount, rfl, rfl, rfl⟩

theorem toInt_succ (h : c ≠ Int32.maxValue) : (c + 1).toInt = c.toInt + 1 := by
  have hne : c.toInt ≠ Int32.maxValue.toInt := fun he => h (Int32.toInt_inj.1 he)
  have hmax : Int32.maxValue.toInt = 2147483647 := rfl
  have hlt := c.toInt_lt
  have hle := c.le_toInt
  have hone : (1 : Int32).toInt = 1 := rfl
  rw [Int32.toInt_add, hone, Int.bmod_def]
  split <;> omega

theorem toInt_pred (h : c ≠ Int32.minValue) : (c - 1).toInt = c.toInt - 1 := by
  have hne : c.toInt ≠ Int32.minValue.toInt := fun he => h (Int32.toInt_inj.1 he)
  have hmin : Int32.minValue.toInt = -2147483648 := rfl
  have hlt := c.toInt_lt
  have hle := c.le_toInt
  have hone : (1 : Int32).toInt = 1 := rfl
  rw [Int32.toInt_sub, hone, Int.bmod_def]
  split <;> omega

/-! ## Dead references -/

/-- No get, as long as it is not `lockref_get_not_dead`, and no put that would
wrap. -/
def DeadFits (c : Int32) (op : Op) : Prop :=
  op ≠ .get ∧ op ≠ .get_not_zero ∧ (op = .put_return ∨ op = .put_not_zero ∨ op = .put_or_lock → c ≠ Int32.minValue)

/-- The operation gives no reference, and the count stays negative. -/
def StaysDead (c : Int32) (op : Op) : Prop := op.got (effect c op).1 = false ∧ (effect c op).2.toInt < 0

theorem toInt_pred_neg (hc : c.toInt < 0) : (c - 1).toInt < 0 ↔ c ≠ Int32.minValue := by
  constructor
  · rintro h rfl
    exact absurd h (by decide)
  · intro h
    rw [toInt_pred h]
    omega

theorem stays_dead_iff (hc : c.toInt < 0) (op : Op) : StaysDead c op ↔ DeadFits c op := by
  have hzero : c ≠ 0 := by
    rintro rfl
    exact absurd hc (by decide)
  have hneg : ¬0 ≤ c := by
    rw [Int32.le_iff_toInt_le]
    exact Int.not_le.2 hc
  have hpred := toInt_pred_neg hc
  cases op with
  | get => simp [StaysDead, DeadFits, Op.got]
  | get_not_zero => simp [StaysDead, DeadFits, Op.got, effect, hzero]
  | get_not_dead => simp [StaysDead, DeadFits, Op.got, effect, hneg, hc]
  | put_return =>
    exact ⟨fun h => ⟨by decide, by decide, fun _ => hpred.1 h.2⟩, fun h => ⟨rfl, hpred.2 (h.2.2 (.inl rfl))⟩⟩
  | put_not_zero =>
    rw [StaysDead, effect, if_pos hzero]
    exact ⟨fun h => ⟨by decide, by decide, fun _ => hpred.1 h.2⟩, fun h => ⟨rfl, hpred.2 (h.2.2 (.inr (.inl rfl)))⟩⟩
  | put_or_lock =>
    exact ⟨fun h => ⟨by decide, by decide, fun _ => hpred.1 h.2⟩, fun h => ⟨rfl, hpred.2 (h.2.2 (.inr (.inr rfl)))⟩⟩
  | mark_dead => simp [StaysDead, DeadFits, Op.got, effect]
  | unlock => simp [StaysDead, DeadFits, Op.got, effect, hc]

/-! ## Counting -/

/-- No get that would wrap. -/
def CountFits (c : Int32) (op : Op) : Prop := op = .get ∨ op = .get_not_zero ∨ op = .get_not_dead → c ≠ Int32.maxValue

/-- The count is changed by what was got and put, and is not negative. -/
def Counts (c : Int32) (op : Op) : Prop :=
  0 ≤ (effect c op).2.toInt ∧
    (effect c op).2.toInt = c.toInt + (op.got (effect c op).1).toNat - (op.put (effect c op).1).toNat

theorem toInt_succ_counts (hc : 0 ≤ c.toInt) : 0 ≤ (c + 1).toInt ∧ (c + 1).toInt = c.toInt + 1 ↔ c ≠ Int32.maxValue := by
  constructor
  · rintro ⟨h, -⟩ rfl
    exact absurd h (by decide)
  · intro h
    rw [toInt_succ h]
    omega

/-- The operations of the counting law. -/
def shared : List Op := [.get, .get_not_zero, .get_not_dead, .put_not_zero]

theorem counts_iff (hc : 0 ≤ c.toInt) (hop : op ∈ shared) : Counts c op ↔ CountFits c op := by
  have hge : 0 ≤ c := Int32.le_iff_toInt_le.2 hc
  have hgot : 0 ≤ (c + 1).toInt ∧ (c + 1).toInt = c.toInt + 1 - 0 ↔ c ≠ Int32.maxValue := by
    rw [Int.sub_zero]
    exact toInt_succ_counts hc
  have hsame : 0 ≤ c.toInt ∧ c.toInt = c.toInt + 0 - 0 := ⟨hc, by omega⟩
  cases op with
  | get => exact hgot.trans ⟨fun h _ => h, fun h => h (.inl rfl)⟩
  | get_not_zero =>
    rw [Counts, effect]
    by_cases hzero : c = 0
    · rw [if_neg (not_not.2 hzero)]
      refine iff_of_true hsame fun _ => ?_
      rw [hzero]
      decide
    · rw [if_pos hzero]
      exact hgot.trans ⟨fun h _ => h, fun h => h (.inr (.inl rfl))⟩
  | get_not_dead =>
    rw [Counts, effect, if_pos hge]
    exact hgot.trans ⟨fun h _ => h, fun h => h (.inr (.inr rfl))⟩
  | put_not_zero =>
    rw [Counts, effect]
    refine iff_of_true ?_ (by simp [CountFits])
    by_cases hzero : c = 0
    · rw [if_neg (not_not.2 hzero)]
      exact hsame
    · rw [if_pos hzero]
      have hne : c.toInt ≠ 0 := fun he => hzero (Int32.toInt_inj.1 he)
      have hmin : c ≠ Int32.minValue := by
        rintro rfl
        exact absurd hc (by decide)
      have hpred := toInt_pred hmin
      show 0 ≤ (c - 1).toInt ∧ (c - 1).toInt = c.toInt + 0 - 1
      omega
  | _ => exact absurd hop (by decide)

/-! ## Runs -/

/-- The steps that keep a dead reference dead. -/
def DeadStep (s s' : Ref) : Prop := ∃ current op, (s.dead = true → DeadFits s.lr.count op) ∧ act current op s = some s'

/-- The steps of the counting law. -/
def CountStep (s s' : Ref) : Prop := ∃ current, ∃ op ∈ shared, CountFits s.lr.count op ∧ act current op s = some s'

theorem dead_step (h : s.dead = true → s.lr.count.toInt < 0) (hstep : DeadStep s s') :
    s'.dead = true → s'.lr.count.toInt < 0 := by
  obtain ⟨current, op, hfits, hact⟩ := hstep
  obtain ⟨hcount, hdead, -, -⟩ := act_effect hact
  intro hdead'
  rw [hcount]
  by_cases hold : s.dead = true
  · exact ((stays_dead_iff (h hold) op).2 (hfits hold)).2
  · rw [hdead, Bool.or_eq_true, decide_eq_true_eq] at hdead'
    obtain rfl := hdead'.resolve_left hold
    exact (by decide : (-1 : Int32).toInt < 0)

/-- The count is what it was at first, with what was got and without what was put. -/
def Counted (initial : Int32) (s : Ref) : Prop := 0 ≤ s.lr.count.toInt ∧ s.lr.count.toInt = initial.toInt + s.gets - s.puts

theorem count_step {initial : Int32} (h : Counted initial s) (hstep : CountStep s s') : Counted initial s' := by
  obtain ⟨current, op, hop, hfits, hact⟩ := hstep
  obtain ⟨hcount, -, hgets, hputs⟩ := act_effect hact
  obtain ⟨hge, hsum⟩ := h
  obtain ⟨hge', hsum'⟩ := (counts_iff hge hop).2 hfits
  rw [Counted, hcount, hgets, hputs]
  push_cast
  omega

/-- A reference that is marked dead gives no reference and stays dead in a run where
it is only tried with `lockref_get_not_dead` and no put wraps, and only then. A
count that is not negative counts the gets and puts in a run where no get wraps,
and only then. -/
theorem lockref_laws (s : Ref) (initial : Int32) :
    (Reachable (fun s => s.dead = false) DeadStep s → s.dead = true →
      s.lr.count.toInt < 0 ∧ ∀ current op s', act current op s = some s' →
        (s'.gets = s.gets ∧ s'.lr.count.toInt < 0 ↔ DeadFits s.lr.count op)) ∧
    (0 ≤ initial.toInt → Reachable (fun s => s.lr.count = initial ∧ s.gets = 0 ∧ s.puts = 0) CountStep s →
      Counted initial s ∧ ∀ current, ∀ op ∈ shared, ∀ s', act current op s = some s' → (Counted initial s' ↔ CountFits s.lr.count op)) := by
  refine ⟨?_, ?_⟩
  · intro hreach hdead
    have hneg : s.lr.count.toInt < 0 :=
      hreach.inv (fun s => s.dead = true → s.lr.count.toInt < 0) (fun s hs hd => absurd hd (by simp [hs]))
        (fun _ _ => dead_step) hdead
    refine ⟨hneg, ?_⟩
    intro current op s' hact
    obtain ⟨hcount, -, hgets, -⟩ := act_effect hact
    rw [← stays_dead_iff hneg op, StaysDead, hcount, hgets]
    cases op.got (effect s.lr.count op).1 <;> simp
  · intro hinitial hreach
    have hcounted : Counted initial s := by
      refine hreach.inv (Counted initial) ?_ (fun _ _ => count_step)
      rintro s ⟨hcount, hgets, hputs⟩
      rw [Counted, hcount, hgets, hputs]
      exact ⟨hinitial, by simp⟩
    refine ⟨hcounted, ?_⟩
    intro current op hop s' hact
    obtain ⟨hcount, -, hgets, hputs⟩ := act_effect hact
    obtain ⟨hge, hsum⟩ := hcounted
    rw [← counts_iff hge hop, Counted, Counts, hcount, hgets, hputs]
    push_cast
    omega

end Counts

/-- A reference with the count `c`. -/
def fresh (c : Int32) : Ref := ⟨⟨0, c⟩, false, 0, 0⟩

/-- The operations of one task. -/
def run (current : Nat) (ops : List Op) (s : Ref) : Option Ref := ops.foldlM (fun s op => act current op s) s

/-- `lockref_get_not_zero` takes a dead reference and leaves its count at 0, so does
`lockref_get`, and at the largest count a get makes it negative. -/
theorem lockref_revived :
    (run 2 [.mark_dead, .get_not_zero] (fresh 1)).map (fun s => (s.gets, s.lr.count)) = some (1, 0) ∧
    (run 2 [.mark_dead, .get, .get_not_dead] (fresh 1)).map (fun s => (s.gets, s.lr.count)) = some (2, 1) ∧
    (run 2 [.get] (fresh Int32.maxValue)).map (fun s => (s.gets, s.lr.count)) = some (1, Int32.minValue) := by
  refine ⟨?_, ?_, ?_⟩ <;> decide

end McLinOS.Lock
