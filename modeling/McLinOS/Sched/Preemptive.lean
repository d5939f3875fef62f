import McLinOS.CLib.Chain
import McLinOS.CLib.Loop
/-!
# The preemptive task pool

`lib/Preemptive.c` and the task lists of `kernel/sched/taskmanager.c`. Tasks are
named by their addresses, 0 is `NULL`. A function gives `none` when it follows a
`NULL` pointer. The 64-bit types of the source are `long`, which has 32 bits.
-/
open CLib

set_option linter.style.nameCheck false

namespace McLinOS.Sched

inductive task_state where
  | TASK_CREATE | TASK_READY | TASK_WAITING | TASK_BLOCKED | TASK_RUNNING | TASK_DEAD | TASK_BROKEN
  deriving DecidableEq, Repr

structure task_struct where
  state : task_state
  priority : BitVec 32
  last_scheduler_time : BitVec 32
  block_time : BitVec 32
  priv : Nat
  next : Nat
  deriving Repr

/-- The tasks, the scheduler with its pool, and the lists of the task manager. -/
structure Kernel where
  tasks : Nat → task_struct
  task_head : Nat
  current_task : Nat
  scheduler_timer : BitVec 32
  Task_List : List Nat
  Death_task_List : List Nat

namespace Kernel

def next (k : Kernel) (t : Nat) : Nat := (k.tasks t).next
def priv (k : Kernel) (t : Nat) : Nat := (k.tasks t).priv
def state (k : Kernel) (t : Nat) : task_state := (k.tasks t).state
def priority (k : Kernel) (t : Nat) : BitVec 32 := (k.tasks t).priority

def modify (k : Kernel) (t : Nat) (f : task_struct → task_struct) : Kernel :=
  { k with tasks := Function.update k.tasks t (f (k.tasks t)) }

def set_next (k : Kernel) (t v : Nat) : Kernel := k.modify t ({ · with next := v })
def set_priv (k : Kernel) (t v : Nat) : Kernel := k.modify t ({ · with priv := v })
def set_state (k : Kernel) (t : Nat) (s : task_state) : Kernel := k.modify t ({ · with state := s })
def set_time (k : Kernel) (t : Nat) (v : BitVec 32) : Kernel := k.modify t ({ · with last_scheduler_time := v })

end Kernel

/-! ## Adding -/

/-- One turn of the search. `t->priority` is read before the test for `NULL`,
and compared as unsigned. -/
def get_task_by_priority_body (k : Kernel) (priority : BitVec 32) (t : Nat) : ControlFlow Nat (Option Nat) :=
  if t = 0 then .done none
  else if (k.priority t).toNat ≤ priority.toNat then .done (some t)
  else .cont (k.next t)

def get_task_by_priority (fuel : Nat) (k : Kernel) (priority : BitVec 32) : Option Nat :=
  if k.task_head = 0 then some 0
  else (loop (get_task_by_priority_body k priority) fuel k.task_head).join

/-- `task->priv->next = new` needs a task before `task`. -/
def add_a_task_node (k : Kernel) (new task : Nat) : Option Kernel :=
  let k := (k.set_next new task).set_priv new (k.priv task)
  if k.priv task = 0 then none else some ((k.set_next (k.priv task) new).set_priv task new)

def task_reset (k : Kernel) (new : Nat) : Kernel := (k.set_priv new 0).set_next new 0

def add_task_to_task_pool (fuel new : Nat) (k : Kernel) : Option Kernel :=
  let k := task_reset k new
  let linked : Option Kernel :=
    if k.task_head = 0 then some { k with task_head := new }
    else (get_task_by_priority fuel k (k.priority new)).bind fun task =>
      if task = 0 then (add_a_task_node k new k.task_head).map fun k => { k with task_head := new }
      else add_a_task_node k new task
  linked.map fun k => if k.priv k.task_head ≠ 0 then { k with task_head := k.priv k.task_head } else k

/-! ## Removing -/

def remove_task (k : Kernel) (task : Nat) : Kernel :=
  let k := if k.priv task ≠ 0 then k.set_next (k.priv task) (k.next task) else k
  if k.next task ≠ 0 then k.set_priv (k.next task) (k.priv task) else k

/-- The last task of a pool stays. -/
def remove_task_from_pool (task : Nat) (k : Kernel) : Kernel :=
  if k.task_head = task ∧ k.next task = 0 then k
  else
    let k := if k.task_head = task then remove_task { k with task_head := k.next task } task else remove_task k task
    if k.current_task = task then { k with current_task := 0 } else k

/-- `__destory_task` through `__Kill_Task`: `list_del` takes the task off the
list it is on. -/
def __Kill_Task (k : Kernel) (t : Nat) : Kernel :=
  { k with Task_List := k.Task_List.erase t, Death_task_List := t :: k.Death_task_List.erase t }

/-! ## Selecting -/

/-- When a waiting task may run again. -/
def wake_time (t : task_struct) : BitVec 32 := t.last_scheduler_time + t.block_time

/-- A dead task found by `get_useful_task`. The inner `search_task` is read
before it has a value: `stray t` is what `get_next_task` loads through it, or
`none` if that access faults. Only a test uses the value. -/
def bury (stray : Nat → Option Nat) (t : Nat) (k : Kernel) : Option Kernel :=
  (stray t).map fun _ => __Kill_Task (remove_task_from_pool t k) t

/-- One turn of `get_useful_task`. -/
def get_useful_task_body (stray : Nat → Option Nat) :
    Kernel × Nat → ControlFlow (Kernel × Nat) (Option (Kernel × Nat))
  | (k, search_task) =>
    if search_task = 0 then .done none
    else
      match (if k.state search_task = .TASK_DEAD then bury stray search_task k else some k) with
      | none => .done none
      | some k =>
        if k.state search_task = .TASK_READY then .done (some (k, search_task))
        else if k.state search_task = .TASK_WAITING ∧ wake_time (k.tasks search_task) < k.scheduler_timer then
          .done (some (k.set_state search_task .TASK_READY, search_task))
        else if k.next search_task = 0 then .done (some (k, search_task))
        else .cont (k, k.next search_task)

def get_useful_task (fuel : Nat) (stray : Nat → Option Nat) (head_task : Nat) (k : Kernel) : Option (Kernel × Nat) :=
  (loop (get_useful_task_body stray) fuel (k, head_task)).join

def Preemptive_scheduling (fuel : Nat) (stray : Nat → Option Nat) (k : Kernel) : Option (Kernel × Nat) :=
  let k := { k with scheduler_timer := k.scheduler_timer + 1 }
  (get_useful_task fuel stray k.task_head k).map fun (k, next_task) =>
    if next_task ≠ k.current_task then
      let k := if k.current_task ≠ 0 then k.set_time k.current_task k.scheduler_timer else k
      (k.set_time next_task k.scheduler_timer, next_task)
    else (k, next_task)

end McLinOS.Sched
