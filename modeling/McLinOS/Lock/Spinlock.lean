import Mathlib.Logic.Function.Basic
import McLinOS.CLib.Runs
/-!
# The spin lock of `lib/lock/spinlock.c`

Any number of tasks run `_spin_lock`, a critical section and `_spin_unlock` on
one lock, over and over. `owner` and `flag` are members of one union, so the
lock is a single word. A task's step is one access to that word.
-/
open CLib

namespace McLinOS.Lock

/-- Both versions of `try_atomic_set_flag` with interrupts masked: the result
and the new value of `*lock`. -/
def try_atomic_set_flag (lock flag : Nat) : Int × Nat := if lock ≠ flag then (0, flag) else (-1, lock)

/-- The tasks that use the lock. `addr t` is what `get_current_task` returns in
`t`, the address of its task structure. -/
structure Tasks (Task : Type) where
  addr : Task → Nat
  injective : addr.Injective
  two_le : ∀ t, 2 ≤ addr t

/-- Where a task is. -/
inductive PC where
  | idle
  | try_flag
  | set_owner
  | read_owner
  | delay
  | critical
  | clear_flag
  deriving DecidableEq, Repr

structure State (Task : Type) where
  lock : Nat
  pc : Task → PC

variable {Task : Type}

def State.goto [DecidableEq Task] (s : State Task) (t : Task) (pc : PC) : State Task := { s with pc := Function.update s.pc t pc }

section Program
variable [DecidableEq Task]

/-- The next step of `t`. A task is `critical` from its return from
`_spin_lock` to its call of `_spin_unlock`. -/
def next (T : Tasks Task) (t : Task) (s : State Task) : State Task :=
  match s.pc t with
  | .idle => s.goto t .try_flag
  | .try_flag =>
    let r := try_atomic_set_flag s.lock 1
    { s with lock := r.2 }.goto t (if r.1 = 0 then .set_owner else .read_owner)
  | .set_owner => { s with lock := T.addr t }.goto t .critical
  | .read_owner => s.goto t (if s.lock = T.addr t then .critical else .delay)
  | .delay => s.goto t .try_flag
  | .critical => s.goto t .clear_flag
  | .clear_flag => { s with lock := (try_atomic_set_flag s.lock 0).2 }.goto t .idle

end Program

/-- After `spin_lock_init`, no task has called anything. -/
def Init (s : State Task) : Prop := s.lock = 0 ∧ ∀ t, s.pc t = .idle

def Step [DecidableEq Task] (T : Tasks Task) (s s' : State Task) : Prop := ∃ t, s' = next T t s

/-- At most one task is in its critical section. -/
def Exclusive (s : State Task) : Prop := ∀ t u, s.pc t = .critical → s.pc u = .critical → t = u

/-! ## A lock without its owner -/

/-- `t` does not call `try_atomic_set_flag(&lock->flag, 1)` on a word in which
an owner is stored. -/
def Uncontended (t : Task) (s : State Task) : Prop := s.pc t = .try_flag → s.lock = 0 ∨ s.lock = 1

def UncontendedStep [DecidableEq Task] (T : Tasks Task) (s s' : State Task) : Prop := ∃ t, Uncontended t s ∧ s' = next T t s

/-- `t` got the flag and has not cleared it. -/
def Has (s : State Task) (t : Task) : Prop := s.pc t = .set_owner ∨ s.pc t = .critical ∨ s.pc t = .clear_flag

/-- The word tells which task has the lock, and that it is the only one. -/
structure Inv (T : Tasks Task) (s : State Task) : Prop where
  unique : ∀ t u, Has s t → Has s u → t = u
  flag : ∀ t, s.pc t = .set_owner → s.lock = 1
  owner : ∀ t, s.pc t = .critical ∨ s.pc t = .clear_flag → s.lock = T.addr t
  free : s.lock = 0 ∨ ∃ t, Has s t

instance (t : Task) (s : State Task) : Decidable (Uncontended t s) := inferInstanceAs (Decidable (_ → _))

theorem init_inv {T : Tasks Task} {s : State Task} (h : Init s) : Inv T s := by
  refine ⟨?_, ?_, ?_, .inl h.1⟩ <;> simp [Has, h.2]

theorem Inv.exclusive {T : Tasks Task} {s : State Task} (h : Inv T s) : Exclusive s :=
  fun t u ht hu => h.unique t u (.inr (.inl ht)) (.inr (.inl hu))

section Steps
variable [DecidableEq Task] {T : Tasks Task} {s : State Task} {t : Task}

@[simp] theorem goto_lock (pc : PC) : (s.goto t pc).lock = s.lock := rfl

theorem goto_pc (u : Task) (pc : PC) : (s.goto t pc).pc u = if u = t then pc else s.pc u := by
  simp [State.goto, Function.update_apply]

omit [DecidableEq Task] in
theorem Inv.lock_pos (h : Inv T s) {u : Task} (hu : Has s u) : s.lock ≠ 0 := by
  have := T.two_le u
  rcases hu with hu | hu
  · have := h.flag u hu
    omega
  · have := h.owner u hu
    omega

/-- The lock stays where it is. -/
theorem Inv.pass (h : Inv T s) {pc : PC} (ht : ¬Has s t) (hpc : pc = .idle ∨ pc = .try_flag ∨ pc = .read_owner ∨ pc = .delay) :
    Inv T (s.goto t pc) := by
  have hne : ∀ u, Has (s.goto t pc) u ↔ u ≠ t ∧ Has s u := by
    intro u
    by_cases hu : u = t
    · subst hu
      rcases hpc with rfl | rfl | rfl | rfl <;> simp [Has, goto_pc]
    · simp [Has, goto_pc, hu]
  have hold : ∀ u q, (q = .set_owner ∨ q = .critical ∨ q = .clear_flag) → (s.goto t pc).pc u = q → s.pc u = q := by
    intro u q hq hu
    rw [goto_pc] at hu
    split at hu
    · rcases hpc with rfl | rfl | rfl | rfl <;> rcases hq with rfl | rfl | rfl <;> cases hu
    · exact hu
  refine ⟨fun u v hu hv => h.unique u v ((hne u).1 hu).2 ((hne v).1 hv).2, fun u hu => h.flag u (hold u _ (by simp) hu),
    fun u hu => h.owner u (hu.imp (hold u _ (by simp)) (hold u _ (by simp))), h.free.imp_right ?_⟩
  rintro ⟨u, hu⟩
  exact ⟨u, (hne u).2 ⟨fun he => ht (he ▸ hu), hu⟩⟩

/-- The lock is now with `t`, and with nobody else before. -/
theorem Inv.take (hother : ∀ u, u ≠ t → ¬Has s u) {pc : PC} {w : Nat}
    (hpc : (pc = .set_owner ∧ w = 1) ∨ ((pc = .critical ∨ pc = .clear_flag) ∧ w = T.addr t)) :
    Inv T ({ s with lock := w }.goto t pc) := by
  have hme : ∀ u, Has ({ s with lock := w }.goto t pc) u → u = t := by
    intro u hu
    by_contra hne
    exact hother u hne (by simpa [Has, goto_pc, hne] using hu)
  refine ⟨fun u v hu hv => (hme u hu).trans (hme v hv).symm, ?_, ?_, .inr ⟨t, ?_⟩⟩
  · intro u hu
    obtain rfl := hme u (.inl hu)
    rcases hpc with ⟨rfl, rfl⟩ | ⟨rfl | rfl, rfl⟩ <;> simp_all [State.goto]
  · intro u hu
    obtain rfl := hme u (.inr hu)
    rcases hpc with ⟨rfl, rfl⟩ | ⟨rfl | rfl, rfl⟩ <;> simp_all [State.goto]
  · rcases hpc with ⟨rfl, rfl⟩ | ⟨rfl | rfl, rfl⟩ <;> simp [Has, goto_pc]

/-- The lock is free again. -/
theorem Inv.release (h : Inv T s) (ht : Has s t) : Inv T ({ s with lock := 0 }.goto t .idle) := by
  have hnone : ∀ u, ¬Has ({ s with lock := 0 }.goto t .idle) u := by
    intro u hu
    by_cases hut : u = t
    · simp [Has, goto_pc, hut] at hu
    · exact hut (h.unique u t (by simpa [Has, goto_pc, hut] using hu) ht)
  exact ⟨fun u _ hu => absurd hu (hnone u), fun u hu => absurd (.inl hu) (hnone u), fun u hu => absurd (.inr hu) (hnone u),
    .inl rfl⟩

omit [DecidableEq Task] in
/-- A task that waits never finds itself as the owner. -/
theorem Inv.not_owner (h : Inv T s) (ht : ¬Has s t) : s.lock ≠ T.addr t := by
  intro hl
  have h2 := T.two_le t
  obtain ⟨u, hu⟩ := h.free.resolve_left (by omega)
  rcases hu with hu | hu
  · have := h.flag u hu
    omega
  · have hut : u = t := T.injective (h.owner u hu ▸ hl)
    exact ht (hut ▸ .inr hu)

theorem inv_preserved (h : Inv T s) (hu : Uncontended t s) : Inv T (next T t s) := by
  have hother : Has s t → ∀ u, u ≠ t → ¬Has s u := fun ht u hne hu => hne (h.unique u t hu ht)
  unfold next
  split <;> rename_i hpc
  · exact h.pass (by simp [Has, hpc]) (by simp)
  · unfold try_atomic_set_flag
    by_cases hl : s.lock = 1
    · simp only [hl, ne_eq, not_true_eq_false, if_false]
      rw [← hl]
      exact h.pass (by simp [Has, hpc]) (by simp)
    · simp only [ne_eq, hl, not_false_eq_true, if_true]
      -- The exchange succeeds over an owner too; `Uncontended` is what rules that out.
      have hfree : s.lock = 0 := (hu hpc).resolve_right hl
      exact Inv.take (fun u _ hu => h.lock_pos hu hfree) (.inl ⟨rfl, rfl⟩)
  · exact Inv.take (hother (.inl hpc)) (.inr ⟨.inl rfl, rfl⟩)
  · have ht : ¬Has s t := by simp [Has, hpc]
    rw [if_neg (h.not_owner ht)]
    exact h.pass ht (by simp)
  · exact h.pass (by simp [Has, hpc]) (by simp)
  · have hown := h.owner t (.inl hpc)
    have htake : Inv T ({ s with lock := T.addr t }.goto t .clear_flag) :=
      Inv.take (hother (.inr (.inl hpc))) (.inr ⟨.inr rfl, rfl⟩)
    rwa [← hown] at htake
  · have ht : Has s t := .inr (.inr hpc)
    have hz : (try_atomic_set_flag s.lock 0).2 = 0 := by simp [try_atomic_set_flag, h.lock_pos ht]
    rw [hz]
    exact h.release ht

/-! ## A lock with its owner -/

theorem next_pc_other {u : Task} (hu : u ≠ t) : (next T t s).pc u = s.pc u := by
  unfold next
  split <;> simp [goto_pc, hu]

/-- A flag set over an owner: `t` has the lock as well as the task before it. -/
theorem next_try_flag (hpc : s.pc t = .try_flag) (hl : s.lock ≠ 1) :
    (next T t s).lock = 1 ∧ (next T t s).pc t = .set_owner := by
  simp [next, hpc, try_atomic_set_flag, hl, goto_pc]

theorem next_set_owner (hpc : s.pc t = .set_owner) :
    (next T t s).lock = T.addr t ∧ (next T t s).pc t = .critical := by
  simp [next, hpc, goto_pc]

theorem next_clear_flag (hpc : s.pc t = .clear_flag) (hl : s.lock ≠ 0) :
    (next T t s).lock = 0 ∧ (next T t s).pc t = .idle := by
  simp [next, hpc, try_atomic_set_flag, hl, goto_pc]

theorem next_idle (hpc : s.pc t = .idle) : (next T t s).lock = s.lock ∧ (next T t s).pc t = .try_flag := by
  simp [next, hpc, goto_pc]

theorem step_next (t : Task) (s : State Task) : Relation.ReflTransGen (Step T) s (next T t s) := .single ⟨t, rfl⟩

/-- From a contended call two tasks can get into their critical sections. -/
theorem contended_breaks (h : Inv T s) (ht : ¬Uncontended t s) :
    ∃ s', Relation.ReflTransGen (Step T) (next T t s) s' ∧ ¬Exclusive s' := by
  obtain ⟨hpc, hl⟩ : s.pc t = .try_flag ∧ ¬(s.lock = 0 ∨ s.lock = 1) := by simpa [Uncontended] using ht
  obtain ⟨hl0, hl1⟩ := not_or.1 hl
  obtain ⟨u, hu⟩ := h.free.resolve_left hl0
  have hu := hu.resolve_left fun hu => hl1 (h.flag u hu)
  have hut : u ≠ t := by
    rintro rfl
    simp [hpc] at hu
  obtain ⟨-, ht1⟩ := next_try_flag (T := T) hpc hl1
  obtain ⟨hl2, ht2⟩ := next_set_owner (T := T) ht1
  have hu2 : (next T t (next T t s)).pc u = s.pc u := by rw [next_pc_other hut, next_pc_other hut]
  rcases hu with hu | hu
  · exact ⟨_, step_next t _, fun hex => hut (hex u t (hu2.trans hu) ht2)⟩
  · -- The former owner clears the flag of `t` and gets the lock again.
    have h2 := T.two_le t
    obtain ⟨hl3, hu3⟩ := next_clear_flag (T := T) (hu2.trans hu) (by omega)
    obtain ⟨hl4, hu4⟩ := next_idle (T := T) hu3
    obtain ⟨-, hu5⟩ := next_try_flag (T := T) hu4 (by omega)
    obtain ⟨-, hu6⟩ := next_set_owner (T := T) hu5
    refine ⟨_, (step_next t _).trans ((step_next u _).trans ((step_next u _).trans ((step_next u _).trans (step_next u _)))),
      fun hex => hut (hex u t hu6 ?_)⟩
    rw [next_pc_other hut.symm, next_pc_other hut.symm, next_pc_other hut.symm, next_pc_other hut.symm]
    exact ht2

/-- Runs in which nobody tries for the flag of an owned lock keep the critical
sections apart, and from any other try two tasks can meet in theirs. -/
theorem spin_lock_exclusive (h : Reachable Init (UncontendedStep T) s) :
    Exclusive s ∧ ∀ t, ¬Uncontended t s →
      ∃ s', Relation.ReflTransGen (Step T) (next T t s) s' ∧ ¬Exclusive s' := by
  have hi : Inv T s := h.inv (Inv T) (fun _ h0 => init_inv h0) (by rintro s _ hi ⟨t, hu, rfl⟩; exact inv_preserved hi hu)
  exact ⟨hi.exclusive, fun t ht => contended_breaks hi ht⟩

end Steps

/-- Two tasks. -/
def pair : Tasks (Fin 2) := ⟨fun t => 8 * (t.val + 1), fun t u h => Fin.ext (by dsimp only at h; omega), fun t => by omega⟩

def idle : State (Fin 2) := ⟨0, fun _ => .idle⟩

/-- One task in its critical section, the other about to try. -/
theorem spin_lock_exclusive_pair : Exclusive (next pair 1 (next pair 0 (next pair 0 (next pair 0 idle)))) :=
  (spin_lock_exclusive (T := pair) ((((Reachable.start ⟨rfl, fun _ => rfl⟩).next ⟨0, by decide, rfl⟩).next
    ⟨0, by decide, rfl⟩).next ⟨0, by decide, rfl⟩ |>.next ⟨1, by decide, rfl⟩)).1

/-- The second task gets the lock while the first has it. -/
theorem spin_lock_not_exclusive : ¬∀ s, Reachable Init (Step pair) s → Exclusive s := by
  intro h
  have hidle : Reachable Init (Step pair) idle := .start ⟨rfl, fun _ => rfl⟩
  have hboth := h _ (hidle.run ((step_next 0 _).trans ((step_next 0 _).trans ((step_next 0 _).trans
    ((step_next 1 _).trans ((step_next 1 _).trans (step_next 1 _)))))))
  exact absurd (hboth 0 1 (by decide) (by decide)) (by decide)

end McLinOS.Lock
