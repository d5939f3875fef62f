import Mathlib.Logic.Function.Basic
import McLinOS.CLib.Runs
/-!
# Regions without task switches

`block_scheduler` and `run_scheduler` of `kernel/sched/ctrl.c`, the kernel calls
that use them, and the tick. A task runs on the core in whose pool it is. The
other work of a call is done in steps in between. A call that needs memory for
something is given whether it gets it.
-/
open CLib Function

set_option linter.style.nameCheck false

namespace McLinOS.Blocking

inductive scheduler_block_flag where
  | SCHEDULER_BLOCKED | SCHEDULER_RUN
  deriving DecidableEq, Repr

/-- A step of a kernel call. A scheduler is named by its core, `none` is `NULL`. -/
inductive Op (Core : Type) where
  | block_scheduler (s : Option Core)
  | run_scheduler (s : Option Core)
  | work
  deriving DecidableEq, Repr

/-! ## Kernel calls -/

/-- The steps of a pool's operations. `add_task` is given whether it gets a node. -/
structure task_pool_operations (Core : Type) where
  add_task : Bool → Core → List (Op Core)
  remove_task : Core → List (Op Core)

variable {Task Core : Type}

/-- `lib/time_loop.c` -/
def time_loop : task_pool_operations Core where
  add_task := fun new_node sched =>
    if new_node then [.work, .block_scheduler (some sched), .work, .run_scheduler (some sched)] else [.work]
  remove_task := fun sched => [.block_scheduler (some sched), .work, .run_scheduler (some sched), .work]

/-- `lib/Preemptive.c` -/
def Preemptive : task_pool_operations Core where
  add_task := fun _ _ => [.work]
  remove_task := fun _ => [.work]

/-- The pools by name. -/
inductive task_pool_types where
  | time_loop | Preemptive
  deriving DecidableEq, Repr

def task_pool_types.t_op : task_pool_types → task_pool_operations Core
  | .time_loop => Blocking.time_loop
  | .Preemptive => Blocking.Preemptive

/-- `schedule` is the scheduler of the core asked for, `none` if there is no such
core. -/
def task_run (pool : Core → task_pool_types) (schedule : Option Core) (task new_node : Bool) :
    List (Op Core) :=
  match schedule with
  | none => [.work]
  | some core_id => if task then .work :: (pool core_id).t_op.add_task new_node core_id else [.work]

def kthread_run (pool : Core → task_pool_types) (default_core_number : Option Core) (task new_node : Bool) :
    List (Op Core) :=
  [.block_scheduler none, .work] ++ task_run pool default_core_number task new_node ++ [.run_scheduler none]

/-- The kernel calls that tasks make. The last stands for those that use neither
of the functions. -/
inductive KernelCall (Core : Type) where
  | kthread_run (default_core_number : Option Core) (task new_node : Bool)
  | task_run (schedule : Option Core) (task new_node : Bool)
  | remove_task (sched : Core)
  | other

def KernelCall.ops (pool : Core → task_pool_types) : KernelCall Core → List (Op Core)
  | .kthread_run default_core_number task new_node => Blocking.kthread_run pool default_core_number task new_node
  | .task_run schedule task new_node => Blocking.task_run pool schedule task new_node
  | .remove_task sched => (pool sched).t_op.remove_task sched
  | .other => [.work]

/-! ## The schedulers -/

/-- `todo` is the rest of the call a task is in. `opened` are the schedulers of
its `block_scheduler` calls that have not been matched yet, the last call first. -/
structure State (Task Core : Type) where
  s_flag : Core → scheduler_block_flag
  current_task : Core → Option Task
  context : Task → Nat
  todo : Task → List (Op Core)
  opened : Task → List Core

section Program
variable [DecidableEq Task] [DecidableEq Core]

def block_scheduler (c : Core) (s : State Task Core) : State Task Core :=
  { s with s_flag := update s.s_flag c .SCHEDULER_BLOCKED }

def run_scheduler (c : Core) (s : State Task Core) : State Task Core :=
  { s with s_flag := update s.s_flag c .SCHEDULER_RUN }

def save_context (t : Task) (context : Nat) (s : State Task Core) : State Task Core :=
  { s with context := update s.context t context }

/-- A tick on core `c`. `next` is what the pool gives, the result is the context
that is loaded. -/
def Scheduler_Task (c : Core) (next : Option Task) (context : Nat) (s : State Task Core) : State Task Core × Nat :=
  if s.s_flag c = .SCHEDULER_BLOCKED then (s, context)
  else
    let s := match s.current_task c with
      | some t => save_context t context s
      | none => s
    let s := { s with current_task := update s.current_task c next }
    match next with
    | some t => (s, s.context t)
    | none => (s, context)

-- The core of each task.
variable (core : Task → Core)

/-- One step of a call of `t`. -/
def exec (t : Task) (s : State Task Core) : Op Core → State Task Core
  | .block_scheduler c =>
    block_scheduler (c.getD (core t)) { s with opened := update s.opened t (c.getD (core t) :: s.opened t) }
  | .run_scheduler c => run_scheduler (c.getD (core t)) { s with opened := update s.opened t (s.opened t).tail }
  | .work => s

end Program

/-- A task begins a call or goes on with it, or a core gets a tick. -/
inductive Action (Task Core : Type) where
  | call (t : Task) (k : KernelCall Core)
  | exec (t : Task)
  | tick (c : Core) (next : Option Task) (context : Nat)

section Steps
variable [DecidableEq Task] [DecidableEq Core] (core : Task → Core) (pool : Core → task_pool_types)

/-- Only the current task of a core makes calls, and a pool gives its own tasks. -/
inductive Step (s : State Task Core) : Action Task Core → State Task Core → Prop
  | call {t k} : s.current_task (core t) = some t → s.todo t = [] →
      Step s (.call t k) { s with todo := update s.todo t (k.ops pool) }
  | exec {t op ops} : s.current_task (core t) = some t → s.todo t = op :: ops →
      Step s (.exec t) (exec core t { s with todo := update s.todo t ops } op)
  | tick {c next context} : (∀ t, next = some t → core t = c) →
      Step s (.tick c next context) (Scheduler_Task c next context s).1

/-- The schedulers run and no task is in a call. -/
def Init (s : State Task Core) : Prop :=
  (∀ c, s.s_flag c = .SCHEDULER_RUN) ∧ (∀ t, s.todo t = []) ∧ ∀ t, s.opened t = []

/-! ## The outermost regions -/

/-- If the next step of `t` is a `run_scheduler`, the region it closes is the
only one that is open on its scheduler. -/
def Outermost (s : State Task Core) (t : Task) : Prop :=
  ∀ c, (s.todo t).head? = some (.run_scheduler c) →
    c.getD (core t) ∉ (s.opened t).tail ∧ ∀ u, u ≠ t → c.getD (core t) ∉ s.opened u

/-- A step that closes no region while another one is open on that scheduler. -/
def OuterStep (s s' : State Task Core) : Prop :=
  ∃ a, Step core pool s a s' ∧ ∀ t, a = .exec t → Outermost core s t

/-- A tick finds the scheduler blocked, for every scheduler on which a region is
open: it loads the context it came with, and nothing changes. -/
def Undisturbed (s : State Task Core) : Prop :=
  ∀ t c, c ∈ s.opened t → ∀ next context, Scheduler_Task c next context s = (s, context)

/-- The rest of a call closes the regions `st`, and those it opens itself. -/
def Balanced (core : Core) : List Core → List (Op Core) → Prop
  | st, [] => st = []
  | st, .block_scheduler c :: ops => Balanced core (c.getD core :: st) ops
  | st, .run_scheduler c :: ops => st.head? = some (c.getD core) ∧ Balanced core st.tail ops
  | st, .work :: ops => Balanced core st ops

structure Inv (s : State Task Core) : Prop where
  balanced : ∀ t, Balanced (core t) (s.opened t) (s.todo t)
  blocked : ∀ t c, c ∈ s.opened t → s.s_flag c = .SCHEDULER_BLOCKED

end Steps

/-! ## Calls are balanced -/

section Calls
variable (pool : Core → task_pool_types) {core : Core} {st : List Core} {ops : List (Op Core)}

theorem add_task_balanced (type : task_pool_types) (new_node : Bool) (sched : Core) (h : Balanced core st ops) :
    Balanced core st (type.t_op.add_task new_node sched ++ ops) := by
  cases type with
  | time_loop =>
    cases new_node
    · exact h
    · exact ⟨rfl, h⟩
  | Preemptive => exact h

theorem remove_task_balanced (type : task_pool_types) (sched : Core) (h : Balanced core st ops) :
    Balanced core st (type.t_op.remove_task sched ++ ops) := by
  cases type with
  | time_loop => exact ⟨rfl, h⟩
  | Preemptive => exact h

theorem task_run_balanced (schedule : Option Core) (task new_node : Bool) (h : Balanced core st ops) :
    Balanced core st (task_run pool schedule task new_node ++ ops) := by
  unfold task_run
  split
  · exact h
  · split
    · exact add_task_balanced _ _ _ h
    · exact h

theorem call_balanced (k : KernelCall Core) : Balanced core [] (k.ops pool) := by
  have hnil : Balanced core [] ([] : List (Op Core)) := rfl
  cases k with
  | kthread_run default_core_number task new_node =>
    have hrun : Balanced core [core] [Op.run_scheduler none] := ⟨rfl, rfl⟩
    exact task_run_balanced pool default_core_number task new_node hrun
  | task_run schedule task new_node =>
    have h := task_run_balanced pool schedule task new_node hnil
    rwa [List.append_nil] at h
  | remove_task sched =>
    have h := remove_task_balanced (pool sched) sched hnil
    rwa [List.append_nil] at h
  | other => rfl

end Calls

/-! ## Runs -/

section Runs
variable [DecidableEq Task] [DecidableEq Core] {core : Task → Core} {pool : Core → task_pool_types}
  {s s' : State Task Core} {a : Action Task Core}

theorem Scheduler_Task_blocked {c : Core} (h : s.s_flag c = .SCHEDULER_BLOCKED) (next : Option Task) (context : Nat) :
    Scheduler_Task c next context s = (s, context) := if_pos h

theorem Scheduler_Task_runs {c : Core} (h : s.s_flag c = .SCHEDULER_RUN) (next : Option Task) (context : Nat) :
    (Scheduler_Task c next context s).1.current_task c = next := by
  unfold Scheduler_Task
  rw [h, if_neg (by decide)]
  cases next <;> exact update_self ..

theorem Inv.undisturbed (h : Inv core s) : Undisturbed s :=
  fun t c hc next context => Scheduler_Task_blocked (h.blocked t c hc) next context

omit [DecidableEq Task] [DecidableEq Core] in
theorem Init.inv (h : Init s) : Inv core s where
  balanced := fun t => by
    rw [h.2.1, h.2.2]
    rfl
  blocked := fun t c hc => by
    rw [h.2.2] at hc
    cases hc

@[simp] theorem Scheduler_Task_frame (c : Core) (next : Option Task) (context : Nat) (s : State Task Core) :
    (Scheduler_Task c next context s).1.s_flag = s.s_flag ∧ (Scheduler_Task c next context s).1.todo = s.todo ∧
      (Scheduler_Task c next context s).1.opened = s.opened := by
  unfold Scheduler_Task
  split
  · exact ⟨rfl, rfl, rfl⟩
  · cases s.current_task c <;> cases next <;> exact ⟨rfl, rfl, rfl⟩

theorem inv_exec {t : Task} {op : Op Core} {ops : List (Op Core)} (h : Inv core s) (htodo : s.todo t = op :: ops)
    (hout : Outermost core s t) : Inv core (exec core t { s with todo := update s.todo t ops } op) := by
  have hbal := h.balanced t
  rw [htodo] at hbal
  have hother : ∀ st u, (u ≠ t → Balanced (core u) (s.opened u) (s.todo u)) → (Balanced (core t) st ops) →
      Balanced (core u) (update s.opened t st u) (update s.todo t ops u) := by
    intro st u hu ht
    by_cases hut : u = t
    · subst hut
      rwa [update_self, update_self]
    · rw [update_of_ne hut, update_of_ne hut]
      exact hu hut
  cases op with
  | block_scheduler d =>
    refine ⟨fun u => hother _ u (fun _ => h.balanced u) hbal, fun u c hc => ?_⟩
    show update s.s_flag (d.getD (core t)) .SCHEDULER_BLOCKED c = _
    by_cases hcd : c = d.getD (core t)
    · rw [hcd, update_self]
    · rw [update_of_ne hcd]
      apply h.blocked u c
      by_cases hut : u = t
      · subst hut
        have hc : c ∈ d.getD (core u) :: s.opened u := by simpa [exec, block_scheduler] using hc
        exact (List.mem_cons.1 hc).resolve_left hcd
      · simpa [exec, block_scheduler, update_of_ne hut] using hc
  | run_scheduler d =>
    obtain ⟨hin, hout⟩ := hout d (by rw [htodo]; rfl)
    refine ⟨fun u => hother _ u (fun _ => h.balanced u) hbal.2, fun u c hc => ?_⟩
    show update s.s_flag (d.getD (core t)) .SCHEDULER_RUN c = _
    -- No region is open any more on the scheduler that runs again.
    have hmem : c ∈ s.opened u ∧ c ≠ d.getD (core t) := by
      by_cases hut : u = t
      · subst hut
        have hc : c ∈ (s.opened u).tail := by simpa [exec, run_scheduler] using hc
        exact ⟨List.mem_of_mem_tail hc, fun he => hin (he ▸ hc)⟩
      · have hc : c ∈ s.opened u := by simpa [exec, run_scheduler, update_of_ne hut] using hc
        exact ⟨hc, fun he => hout u hut (he ▸ hc)⟩
    rw [update_of_ne hmem.2]
    exact h.blocked u c hmem.1
  | work =>
    refine ⟨fun u => ?_, h.blocked⟩
    by_cases hut : u = t
    · subst hut
      have hbal : Balanced (core u) (s.opened u) ops := hbal
      simpa [exec] using hbal
    · simpa [exec, update_of_ne hut] using h.balanced u

theorem inv_step (h : Inv core s) (hstep : Step core pool s a s') (hout : ∀ t, a = .exec t → Outermost core s t) :
    Inv core s' := by
  cases hstep with
  | @call t k hcur htodo =>
    refine ⟨fun u => ?_, h.blocked⟩
    have hopened : s.opened t = [] := by
      have hbal := h.balanced t
      rwa [htodo] at hbal
    show Balanced (core u) (s.opened u) (update s.todo t (k.ops pool) u)
    by_cases hut : u = t
    · subst hut
      rw [update_self, hopened]
      exact call_balanced pool k
    · rw [update_of_ne hut]
      exact h.balanced u
  | exec hcur htodo => exact inv_exec h htodo (hout _ rfl)
  | @tick c next context hnext =>
    obtain ⟨hflag, htodo, hopened⟩ := Scheduler_Task_frame c next context s
    refine ⟨?_, ?_⟩
    · intro t
      rw [htodo, hopened]
      exact h.balanced t
    · intro t d hd
      rw [hflag]
      rw [hopened] at hd
      exact h.blocked t d hd

/-- A `run_scheduler` inside another region lets the next tick switch to any task
that the pool gives. -/
theorem disturbed {t : Task} {c : Option Core} (hc : (s.todo t).head? = some (.run_scheduler c))
    (hout : ¬Outermost core s t) (hstep : Step core pool s (.exec t) s') :
    ∃ u, c.getD (core t) ∈ s'.opened u ∧ ∀ v context,
      (Scheduler_Task (c.getD (core t)) (some v) context s').1.current_task (c.getD (core t)) = some v := by
  cases hstep with
  | @exec _ op ops hcur htodo =>
    rw [htodo] at hc
    obtain rfl : op = .run_scheduler c := Option.some.inj hc
    have hopen : ∃ u, c.getD (core t) ∈ update s.opened t (s.opened t).tail u := by
      by_contra hno
      refine hout fun d hd => ?_
      rw [htodo] at hd
      obtain rfl : c = d := Op.run_scheduler.inj (Option.some.inj hd)
      refine ⟨fun hin => hno ⟨t, ?_⟩, fun u hut hin => hno ⟨u, ?_⟩⟩
      · rwa [update_self]
      · rwa [update_of_ne hut]
    obtain ⟨u, hu⟩ := hopen
    refine ⟨u, hu, fun v context => ?_⟩
    refine Scheduler_Task_runs ?_ (some v) context
    exact update_self ..

/-- In every run that closes no region while another one is open on its
scheduler, no tick disturbs an open region. Any other `run_scheduler` leaves a
region open in which the next tick switches tasks. -/
theorem blocking_nests (h : Reachable Init (OuterStep core pool) s) : Undisturbed s ∧
    ∀ t c, (s.todo t).head? = some (.run_scheduler c) → ¬Outermost core s t → ∀ s', Step core pool s (.exec t) s' →
      ∃ u, c.getD (core t) ∈ s'.opened u ∧ ∀ v context,
        (Scheduler_Task (c.getD (core t)) (some v) context s').1.current_task (c.getD (core t)) = some v := by
  have hi : Inv core s := h.inv (Inv core) (fun _ h0 => h0.inv) (by
    rintro _ _ hi ⟨a, hstep, hout⟩
    exact inv_step hi hstep hout)
  exact ⟨hi.undisturbed, fun t c hc hout s' hstep => disturbed hc hout hstep⟩

end Runs

/-- Two tasks on one core, which schedules them in a time loop. -/
def two_tasks : State (Fin 2) Unit :=
  { s_flag := fun _ => .SCHEDULER_RUN, current_task := fun _ => some 0, context := fun _ => 0, todo := fun _ => [],
    opened := fun _ => [] }

/-- `kthread_run` before the inner `run_scheduler`, and the next tick but one. -/
theorem blocking_nests_kthread : ∃ s s' : State (Fin 2) Unit, s.opened 0 = [(), ()] ∧ Undisturbed s ∧
    Step (fun _ => ()) (fun _ => .time_loop) s (.exec 0) s' ∧
    ∃ u, () ∈ s'.opened u ∧ ∀ v context, (Scheduler_Task () (some v) context s').1.current_task () = some v := by
  have h0 : Reachable Init (OuterStep (fun _ => ()) fun _ => .time_loop) two_tasks :=
    .start ⟨fun _ => rfl, fun _ => rfl, fun _ => rfl⟩
  have h1 := h0.next ⟨.call 0 (.kthread_run (some ()) true true), .call rfl rfl, fun t ht => by cases ht⟩
  have h2 := h1.next ⟨.exec 0, .exec rfl rfl, fun t ht c hc => by cases ht; cases hc⟩
  have h3 := h2.next ⟨.exec 0, .exec rfl rfl, fun t ht c hc => by cases ht; cases hc⟩
  have h4 := h3.next ⟨.exec 0, .exec rfl rfl, fun t ht c hc => by cases ht; cases hc⟩
  have h5 := h4.next ⟨.exec 0, .exec rfl rfl, fun t ht c hc => by cases ht; cases hc⟩
  have h6 := h5.next ⟨.exec 0, .exec rfl rfl, fun t ht c hc => by cases ht; cases hc⟩
  have h7 := h6.next ⟨.exec 0, .exec rfl rfl, fun t ht c hc => by cases ht; cases hc⟩
  obtain ⟨hsafe, hrun⟩ := blocking_nests h7
  refine ⟨_, _, rfl, hsafe, .exec rfl rfl, hrun 0 (some ()) rfl (fun hout => ?_) _ (.exec rfl rfl)⟩
  exact (hout (some ()) rfl).1 (by decide)

/-- The tick that comes after the node was linked switches to the other task,
before `kthread_run` has called its `run_scheduler`. -/
theorem kthread_run_preempted : ¬∀ (core : Fin 2 → Unit) (pool : Unit → task_pool_types) (s : State (Fin 2) Unit),
    Reachable Init (fun s s' => ∃ a, Step core pool s a s') s → Undisturbed s := by
  intro h
  have h0 : Reachable Init (fun s s' => ∃ a, Step (fun _ => ()) (fun _ => .time_loop) s a s') two_tasks :=
    .start ⟨fun _ => rfl, fun _ => rfl, fun _ => rfl⟩
  have h1 := h0.next ⟨.call 0 (.kthread_run (some ()) true true), .call rfl rfl⟩
  have h2 := h1.next ⟨.exec 0, .exec rfl rfl⟩
  have h3 := h2.next ⟨.exec 0, .exec rfl rfl⟩
  have h4 := h3.next ⟨.exec 0, .exec rfl rfl⟩
  have h5 := h4.next ⟨.exec 0, .exec rfl rfl⟩
  have h6 := h5.next ⟨.exec 0, .exec rfl rfl⟩
  have h7 := h6.next ⟨.exec 0, .exec rfl rfl⟩
  have h8 := h7.next ⟨.exec 0, .exec rfl rfl⟩
  have htick := h _ _ _ h8 0 () (by decide) (some 1) 0
  have hcur := congrArg (fun r => r.1.current_task ()) htick
  exact absurd hcur (by decide)

end McLinOS.Blocking
