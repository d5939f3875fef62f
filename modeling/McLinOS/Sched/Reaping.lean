import Mathlib.Logic.Function.Iterate
import McLinOS.CLib.Runs
import McLinOS.Sched.Preemptive
/-!
# Waiting for child tasks

`kernel/sched/task.c` and `kernel/sched/taskmanager.c` on several cores with
preemptive pools. A system call and the switch of a task are one step each.
-/
open CLib Function

set_option linter.style.nameCheck false

namespace McLinOS.Reaping

open Sched

structure scheduler where
  task_head : Nat
  current_task : Nat
  scheduler_timer : BitVec 32

/-- `live` are the tasks whose memory is not free. `reports` are the tasks that
`sys_wait` has reported, until their memory is given out again. -/
structure State where
  tasks : Nat → task_struct
  k_scheduler : Nat → scheduler
  Task_List : List Nat
  Death_task_List : List Nat
  id_count : BitVec 32
  pid : Nat → BitVec 32
  parent : Nat → Nat
  children : Nat → List Nat
  live : Nat → Bool
  reports : List Nat

/-! ## One core -/

def State.current (s : State) (core : Nat) : Nat := (s.k_scheduler core).current_task

def State.state (s : State) (t : Nat) : task_state := (s.tasks t).state

def State.set_state (s : State) (t : Nat) (v : task_state) : State :=
  { s with tasks := update s.tasks t { s.tasks t with state := v } }

/-- What a pool's functions see. -/
def State.kernel (s : State) (core : Nat) : Kernel :=
  { tasks := s.tasks
    task_head := (s.k_scheduler core).task_head
    current_task := (s.k_scheduler core).current_task
    scheduler_timer := (s.k_scheduler core).scheduler_timer
    Task_List := s.Task_List
    Death_task_List := s.Death_task_List }

def State.with_kernel (s : State) (core : Nat) (k : Kernel) : State :=
  { s with
    tasks := k.tasks
    k_scheduler := update s.k_scheduler core ⟨k.task_head, k.current_task, k.scheduler_timer⟩
    Task_List := k.Task_List
    Death_task_List := k.Death_task_List }

/-! ## Creation and exit -/

def defauld_thread_priority : BitVec 32 := 8

/-- `new` is what `kmalloc` gave. The result is `none` where the source gives an
error pointer. -/
def __new_task_create (new : Nat) (entry name : Bool) (priority : BitVec 32) (s : State) : Option State :=
  if entry = false ∨ name = false ∨ new = 0 then none
  else
    let priority := if priority = 0 then defauld_thread_priority else priority
    some { s with
      tasks := update s.tasks new { s.tasks new with priority, state := .TASK_READY }
      pid := update s.pid new s.id_count
      id_count := s.id_count + 1
      live := update s.live new true
      reports := s.reports.filter (· ≠ new) }

def __save_Task (core new : Nat) (s : State) : State :=
  let children := update s.children new []
  { s with
    parent := update s.parent new (s.current core)
    children := if s.current core ≠ 0 then update children (s.current core) (new :: children (s.current core)) else children
    Task_List := new :: s.Task_List }

/-- `task_run` on `core`, for a pool on `core_id`. A pool's `add_task` does not
fail. -/
def task_run (CPU_NUM fuel core core_id new : Nat) (entry name : Bool) (priority : BitVec 32) (s : State) : Option State :=
  if core_id ≥ CPU_NUM then some s
  else
    match __new_task_create new entry name priority s with
    | none => some s
    | some s =>
      let s := __save_Task core new s
      (add_task_to_task_pool fuel new (s.kernel core_id)).map (s.with_kernel core_id)

/-- A turn of `__default_Task_return_function`, up to the system call. -/
def exit (core : Nat) (s : State) : Option State :=
  if s.current core = 0 then none else some (s.set_state (s.current core) .TASK_DEAD)

/-! ## Switching and waiting -/

def Scheduler_Task (fuel : Nat) (stray : Nat → Option Nat) (core : Nat) (s : State) : Option State :=
  (Preemptive_scheduling fuel stray (s.kernel core)).map fun (k, next_task) =>
    s.with_kernel core { k with current_task := next_task }

def __delay (time : BitVec 32) (core : Nat) (s : State) : Option State :=
  let task := s.current core
  if task = 0 then none
  else some { s with tasks := update s.tasks task { s.tasks task with block_time := time, state := .TASK_WAITING } }

def clean_task (t : Nat) (s : State) : State := { s with live := update s.live t false }

/-- The first dead child of the current task. -/
def dead_child (core : Nat) (s : State) : Option Nat :=
  (s.children (s.current core)).find? fun pos => s.state pos = .TASK_DEAD

def report (pos : Nat) (s : State) : State := { clean_task pos s with reports := pos :: s.reports }

/-- `i_sched` tells whether the scheduler runs; the switch it asks for comes after
the system call. -/
def sys_wait (i_sched : Bool) (core : Nat) (s : State) : Option (BitVec 32 × State) :=
  let current_task := s.current core
  if current_task = 0 then none
  else
    let s := s.set_state current_task .TASK_BLOCKED
    if i_sched = false then some (-1, s.set_state current_task .TASK_RUNNING)
    else
      match dead_child core s with
      | some pos => some (s.pid pos, report pos s)
      | none => some (-1, s)

/-! ## Runs -/

/-- The task is in the pool of the core. -/
def InPool (s : State) (core t : Nat) : Prop := t ≠ 0 ∧ ∃ n, (s.kernel core).next^[n] (s.k_scheduler core).task_head = t

/-- Reported tasks are free and in no list, and none is reported twice. -/
structure Reaped (s : State) : Prop where
  once : s.reports.Nodup
  free : ∀ t ∈ s.reports, s.live t = false
  lists : ∀ t ∈ s.reports, t ∉ s.Task_List ∧ t ∉ s.Death_task_List ∧ ∀ p, t ∉ s.children p
  pools : ∀ t ∈ s.reports, ∀ core, ¬InPool s core t ∧ s.current core ≠ t

/-- At some time the search of the core's scheduler, when it comes to the task,
ends with it. -/
def Selectable (s : State) (core t : Nat) : Prop :=
  ∃ (stray : Nat → Option Nat) (timer : BitVec 32) (k : Kernel),
    get_useful_task_body stray ({ s.kernel core with scheduler_timer := timer }, t) = .done (some (k, t))

/-- The caller is the last task of its pool, and has no dead child where the
children are looked at. -/
def wait_fits (i_sched : Bool) (core : Nat) (s : State) : Prop :=
  (s.tasks (s.current core)).next = 0 ∧
    (i_sched = true → ∀ t ∈ s.children (s.current core), t ≠ s.current core → s.state t ≠ .TASK_DEAD)

/-- Calls of `sys_wait` meet the condition. -/
inductive Step (CPU_NUM : Nat) (s : State) : State → Prop
  | task_run {fuel core core_id new : Nat} {entry name : Bool} {priority : BitVec 32} {s' : State} :
      s.live new = false → task_run CPU_NUM fuel core core_id new entry name priority s = some s' → Step CPU_NUM s s'
  | exit {core : Nat} {s' : State} : exit core s = some s' → Step CPU_NUM s s'
  | schedule {fuel core : Nat} {stray : Nat → Option Nat} {s' : State} :
      Scheduler_Task fuel stray core s = some s' → Step CPU_NUM s s'
  | delay {time : BitVec 32} {core : Nat} {s' : State} : __delay time core s = some s' → Step CPU_NUM s s'
  | sys_wait {i_sched : Bool} {core : Nat} {ret : BitVec 32} {s' : State} : wait_fits i_sched core s →
      sys_wait i_sched core s = some (ret, s') → Step CPU_NUM s s'

/-! ## Selection -/

section Select
variable {s s' : State} {core t : Nat} {i_sched : Bool} {ret : BitVec 32}

/-- A task that is blocked or running is passed over unless it is the last. -/
theorem selectable_iff (ht : t ≠ 0) (hstate : s.state t = .TASK_BLOCKED ∨ s.state t = .TASK_RUNNING) :
    Selectable s core t ↔ (s.tasks t).next = 0 := by
  have hbody : ∀ (stray : Nat → Option Nat) (timer : BitVec 32),
      get_useful_task_body stray ({ s.kernel core with scheduler_timer := timer }, t) =
        if (s.tasks t).next = 0 then .done (some ({ s.kernel core with scheduler_timer := timer }, t))
        else .cont ({ s.kernel core with scheduler_timer := timer }, (s.tasks t).next) := by
    intro stray timer
    have hk : ({ s.kernel core with scheduler_timer := timer } : Kernel).state t = s.state t := rfl
    have hn : ({ s.kernel core with scheduler_timer := timer } : Kernel).next t = (s.tasks t).next := rfl
    rcases hstate with h | h <;> simp [get_useful_task_body, ht, hk, hn, h]
  constructor
  · rintro ⟨stray, timer, k, h⟩
    by_contra hnext
    rw [hbody, if_neg hnext] at h
    cases h
  · intro hnext
    exact ⟨fun _ => none, 0, _, (hbody _ _).trans (if_pos hnext)⟩

@[simp] theorem state_set_state (s : State) (t u : Nat) (v : task_state) :
    (s.set_state t v).state u = if u = t then v else s.state u := by
  by_cases h : u = t
  · simp [State.state, State.set_state, h]
  · simp [State.state, State.set_state, h]

@[simp] theorem next_set_state (s : State) (t u : Nat) (v : task_state) :
    ((s.set_state t v).tasks u).next = (s.tasks u).next := by
  by_cases h : u = t
  · simp [State.set_state, h]
  · simp [State.set_state, h]

/-- The error path, a child that is reported, or none. -/
theorem sys_wait_cases (h : sys_wait i_sched core s = some (ret, s')) : s.current core ≠ 0 ∧
    ((i_sched = false ∧ s' = (s.set_state (s.current core) .TASK_BLOCKED).set_state (s.current core) .TASK_RUNNING) ∨
    (i_sched = true ∧ ∃ pos ∈ s.children (s.current core), pos ≠ s.current core ∧ s.state pos = .TASK_DEAD ∧
      dead_child core (s.set_state (s.current core) .TASK_BLOCKED) = some pos ∧ ret = s.pid pos ∧
      s' = report pos (s.set_state (s.current core) .TASK_BLOCKED)) ∨
    (i_sched = true ∧ (∀ t ∈ s.children (s.current core), t ≠ s.current core → s.state t ≠ .TASK_DEAD) ∧
      s' = s.set_state (s.current core) .TASK_BLOCKED)) := by
  unfold sys_wait at h
  dsimp only at h
  split at h
  · cases h
  rename_i ht
  refine ⟨ht, ?_⟩
  split at h
  · rename_i hlocked
    exact .inl ⟨hlocked, (Prod.mk.inj (Option.some.inj h)).2.symm⟩
  · rename_i hruns
    rw [Bool.not_eq_false] at hruns
    split at h
    · rename_i pos hfind
      obtain ⟨hret, hs⟩ := Prod.mk.inj (Option.some.inj h)
      have hdead := List.find?_some hfind
      have hmem : pos ∈ s.children (s.current core) := List.mem_of_find?_eq_some hfind
      -- The caller has just been set to `TASK_BLOCKED`.
      have hne : pos ≠ s.current core := by
        rintro rfl
        simp at hdead
      have hdead : s.state pos = .TASK_DEAD := by simpa [hne] using hdead
      exact .inr (.inl ⟨hruns, pos, hmem, hne, hdead, hfind, hret.symm, hs.symm⟩)
    · rename_i hfind
      obtain ⟨-, hs⟩ := Prod.mk.inj (Option.some.inj h)
      refine .inr (.inr ⟨hruns, fun t hmem hne hdead => ?_, hs.symm⟩)
      have hno := List.find?_eq_none.1 hfind t hmem
      simp [hne, hdead] at hno

/-- The call leaves the caller blocked or running, with the links it had. -/
theorem sys_wait_caller (h : sys_wait i_sched core s = some (ret, s')) :
    (s'.state (s.current core) = .TASK_BLOCKED ∨ s'.state (s.current core) = .TASK_RUNNING) ∧
      (s'.tasks (s.current core)).next = (s.tasks (s.current core)).next := by
  obtain ⟨-, ⟨-, rfl⟩ | ⟨-, pos, -, -, -, -, -, rfl⟩ | ⟨-, -, rfl⟩⟩ := sys_wait_cases h
  · exact ⟨.inr (by simp), by simp⟩
  · have hstate := state_set_state s (s.current core) (s.current core) .TASK_BLOCKED
    rw [if_pos rfl] at hstate
    exact ⟨.inl hstate, next_set_state s (s.current core) (s.current core) .TASK_BLOCKED⟩
  · exact ⟨.inl (by simp), by simp⟩

theorem sys_wait_selectable (h : sys_wait i_sched core s = some (ret, s')) :
    Selectable s' core (s.current core) ↔ (s.tasks (s.current core)).next = 0 := by
  obtain ⟨hstate, hnext⟩ := sys_wait_caller h
  rw [selectable_iff (sys_wait_cases h).1 hstate, hnext]

/-- The child that was reported stays in the list, so the next call reports it
again and the other dead children are never reached. -/
theorem sys_wait_repeats (h : sys_wait true core s = some (ret, s')) {pos : Nat} (hpos : s'.reports = pos :: s.reports) :
    ∃ s'', sys_wait true core s' = some (ret, s'') ∧ s''.reports = pos :: s'.reports := by
  have hlen : s.reports ≠ pos :: s.reports := fun he => by simpa using congrArg List.length he
  obtain ⟨ht, ⟨hlocked, -⟩ | ⟨-, t, -, -, -, hfind, rfl, rfl⟩ | ⟨-, -, rfl⟩⟩ := sys_wait_cases h
  · cases hlocked
  · obtain rfl : t = pos := (List.cons.inj hpos).1
    -- The caller is set to what it is, and the child's memory still has its state.
    have hsame : ∀ u, ((report t (s.set_state (s.current core) .TASK_BLOCKED)).set_state (s.current core) .TASK_BLOCKED).state u =
        (s.set_state (s.current core) .TASK_BLOCKED).state u := by
      intro u
      rw [state_set_state]
      split
      · rename_i hu
        simp [hu]
      · rfl
    have hagain : dead_child core ((report t (s.set_state (s.current core) .TASK_BLOCKED)).set_state (s.current core)
        .TASK_BLOCKED) = some t := by
      unfold dead_child
      simp only [hsame]
      exact hfind
    refine ⟨report t ((report t (s.set_state (s.current core) .TASK_BLOCKED)).set_state (s.current core) .TASK_BLOCKED), ?_,
      rfl⟩
    have hcur : (report t (s.set_state (s.current core) .TASK_BLOCKED)).current core = s.current core := rfl
    unfold sys_wait
    dsimp only
    rw [hcur, if_neg ht, if_neg (by decide), hagain]
    rfl
  · exact absurd hpos hlen

end Select

/-! ## Runs -/

section Runs
variable {CPU_NUM : Nat} {s s' : State} {core : Nat} {i_sched : Bool} {ret : BitVec 32}

theorem Reaped.nothing (h : s.reports = []) : Reaped s := by
  refine ⟨by simp [h], ?_, ?_, ?_⟩ <;> simp [h]

theorem task_run_reports {fuel core_id new : Nat} {entry name : Bool} {priority : BitVec 32}
    (h : task_run CPU_NUM fuel core core_id new entry name priority s = some s') (hnone : s.reports = []) : s'.reports = [] := by
  unfold task_run at h
  split at h
  · obtain rfl := Option.some.inj h
    exact hnone
  split at h
  · obtain rfl := Option.some.inj h
    exact hnone
  · rename_i s₁ hcreate
    obtain ⟨k, -, rfl⟩ := Option.map_eq_some_iff.1 h
    unfold __new_task_create at hcreate
    split at hcreate
    · cases hcreate
    · obtain rfl := Option.some.inj hcreate
      show s.reports.filter _ = []
      rw [hnone]
      rfl

theorem step_reports (h : Step CPU_NUM s s') (hnone : s.reports = []) : s'.reports = [] := by
  cases h with
  | task_run _ hrun => exact task_run_reports hrun hnone
  | exit hexit =>
    unfold exit at hexit
    split at hexit
    · cases hexit
    · obtain rfl := Option.some.inj hexit
      exact hnone
  | schedule hsched =>
    obtain ⟨k, -, rfl⟩ := Option.map_eq_some_iff.1 hsched
    exact hnone
  | delay hdelay =>
    unfold __delay at hdelay
    dsimp only at hdelay
    split at hdelay
    · cases hdelay
    · obtain rfl := Option.some.inj hdelay
      exact hnone
  | sys_wait hfits hwait =>
    obtain ⟨-, ⟨-, rfl⟩ | ⟨hruns, pos, hmem, hne, hdead, -⟩ | ⟨-, -, rfl⟩⟩ := sys_wait_cases hwait
    · exact hnone
    · exact absurd hdead (hfits.2 hruns pos hmem hne)
    · exact hnone

/-- While `sys_wait` is only called by the last task of a pool that has no dead
child, no task is reported and the caller can be selected again. Any other call
breaks one of it. -/
theorem reaping (h : Reachable (fun s : State => s.reports = []) (Step CPU_NUM) s) : Reaped s ∧
    ∀ i_sched core ret s', sys_wait i_sched core s = some (ret, s') →
      (Reaped s' ∧ Selectable s' core (s.current core) ↔ wait_fits i_sched core s) := by
  have hnone : s.reports = [] := h.inv (fun s : State => s.reports = []) (fun _ h0 => h0) fun _ _ hn hs => step_reports hs hn
  refine ⟨.nothing hnone, fun i_sched core ret s' hwait => ?_⟩
  rw [sys_wait_selectable hwait]
  constructor
  · rintro ⟨hreaped, hlast⟩
    refine ⟨hlast, fun hruns t hmem hne hdead => ?_⟩
    obtain ⟨-, ⟨hlocked, -⟩ | ⟨-, pos, hpos, -, -, -, -, rfl⟩ | ⟨-, hall, -⟩⟩ := sys_wait_cases hwait
    · rw [hruns] at hlocked
      cases hlocked
    · exact (hreaped.lists pos List.mem_cons_self).2.2 (s.current core) hpos
    · exact hall t hmem hne hdead
  · intro hfits
    have hstep : Step CPU_NUM s s' := .sys_wait hfits hwait
    exact ⟨.nothing (step_reports hstep hnone), hfits.1⟩

end Runs

/-- Task 1 runs, task 2 is its child, task 3 is the last of the pool. Task 2 has
been buried when `child` is `TASK_DEAD`. -/
def parent_and_child (child : task_state) : State where
  tasks t := { state := if t = 2 then child else .TASK_READY, priority := 8, last_scheduler_time := 0, block_time := 0,
               priv := if t = 3 then 1 else 0, next := if t = 1 then 3 else 0 }
  k_scheduler _ := { task_head := 1, current_task := 1, scheduler_timer := 5 }
  Task_List := [1, 3]
  Death_task_List := [2]
  id_count := 4
  pid t := BitVec.ofNat 32 t
  parent t := if t = 2 then 1 else 0
  children t := if t = 1 then [2] else []
  live t := t ≤ 3 ∧ t ≠ 0
  reports := []

/-- The last task of a pool waits. -/
theorem reaping_last : ∃ s ret s', Reachable (fun s : State => s.reports = []) (Step 1) s ∧
    sys_wait true 0 s = some (ret, s') ∧ Selectable s' 0 (s.current 0) := by
  have h0 : Reachable (fun s : State => s.reports = []) (Step 1)
      { parent_and_child .TASK_READY with k_scheduler := fun _ => ⟨3, 3, 5⟩ } := .start rfl
  have hfits : wait_fits true 0 { parent_and_child .TASK_READY with k_scheduler := fun _ => ⟨3, 3, 5⟩ } :=
    ⟨rfl, fun _ t ht => absurd ht (by simp [parent_and_child, State.current])⟩
  exact ⟨_, _, _, h0, rfl, (((reaping h0).2 true 0 _ _ rfl).2 hfits).2⟩

/-- A child that is reported stays in its parent's list, and the parent is
blocked. -/
theorem wait_leaves_freed_child :
    (¬∀ (s s' : State) (core : Nat) (ret : BitVec 32), s.reports = [] → sys_wait true core s = some (ret, s') → Reaped s') ∧
    ¬∀ (s s' : State) (core : Nat) (ret : BitVec 32), s.reports = [] → sys_wait true core s = some (ret, s') →
      Selectable s' core (s.current core) := by
  constructor
  · intro h
    have hs := h (parent_and_child .TASK_DEAD) _ 0 _ rfl rfl
    exact (hs.lists 2 List.mem_cons_self).2.2 1 (by decide)
  · intro h
    have hs := h (parent_and_child .TASK_DEAD) _ 0 _ rfl rfl
    exact absurd ((selectable_iff (by decide) (.inl rfl)).1 hs) (by decide)

end McLinOS.Reaping
