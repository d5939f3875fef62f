import Mathlib.Data.Finset.Basic
import McLinOS.CLib.Loop
import McLinOS.CLib.Ring
/-!
# The time loop task pool

`lib/time_loop.c`. Nodes and tasks are named by their addresses, 0 is `NULL`.
`block_scheduler` and `run_scheduler` make the changes of the ring one step.
-/
open CLib

namespace McLinOS.TimeLoop

structure task_node where
  next : Nat
  priv : Nat
  task : Nat
  priority : Int
  deriving Repr

/-- The scheduler with its pool. `t_node` and `priority` are fields of the tasks,
`allocated` are the nodes that are not freed. -/
structure Scheduler where
  nodes : Nat → task_node
  t_node : Nat → Nat
  priority : Nat → Int
  head_node : Nat
  current_task : Nat
  allocated : Finset Nat

namespace Scheduler

def next (s : Scheduler) (n : Nat) : Nat := (s.nodes n).next
def priv (s : Scheduler) (n : Nat) : Nat := (s.nodes n).priv

def modify (s : Scheduler) (n : Nat) (f : task_node → task_node) : Scheduler :=
  { s with nodes := Function.update s.nodes n (f (s.nodes n)) }

def set_next (s : Scheduler) (n v : Nat) : Scheduler := s.modify n ({ · with next := v })
def set_priv (s : Scheduler) (n v : Nat) : Scheduler := s.modify n ({ · with priv := v })
def set_t_node (s : Scheduler) (task v : Nat) : Scheduler := { s with t_node := Function.update s.t_node task v }

end Scheduler

/-- The next task, and the nodes that were followed. -/
def time_loop (s : Scheduler) : Nat × List Nat :=
  if s.current_task = 0 then ((s.nodes s.head_node).task, [s.head_node])
  else
    let node := s.t_node s.current_task
    ((s.nodes (s.next node)).task, [node, s.next node])

/-- The search for a node whose priority is not above that of the new one. It
ends at the head. -/
def place_body (s : Scheduler) (priority : Int) (n : Nat) : ControlFlow Nat Nat :=
  if priority < (s.nodes n).priority then
    if s.next n = s.head_node then .done (s.next n) else .cont (s.next n)
  else .done n

/-- The new node goes before `n`. -/
def link_before (s : Scheduler) (new n : Nat) : Scheduler :=
  let s := s.set_next new n
  let s := s.set_priv new (s.priv n)
  let s := s.set_next (s.priv n) new
  s.set_priv n new

/-- `new` is what `kmalloc` gave, `none` if it failed. -/
def add_task_to_task_pool (fuel : Nat) (new : Option Nat) (task : Nat) (s : Scheduler) : Option (Int × Scheduler) :=
  match new with
  | none => some (-1, s)
  | some new =>
    let s := { s with allocated := insert new s.allocated }
    let s := s.modify new ({ · with task, priority := s.priority task })
    let s := s.set_t_node task new
    if s.head_node = 0 then some (0, ({ s with head_node := new }.set_next new new).set_priv new new)
    else (loop (place_body s (s.nodes new).priority) fuel s.head_node).map fun n => (0, link_before s new n)

def remove_task_from_pool (task : Nat) (s : Scheduler) : Scheduler :=
  let node := s.t_node task
  let s := s.set_next (s.priv node) (s.next node)
  let s := s.set_priv (s.next node) (s.priv node)
  let s := { s with allocated := s.allocated.erase node }
  s.set_t_node task 0

end McLinOS.TimeLoop
