import Mathlib.Algebra.Group.Nat.Defs
import McLinOS.CLib.Runs
import McLinOS.Sched.PreemptiveSelect
/-!
# Sleeping

`__delay` and the ticks that follow. The wake time of a task counts from the tick
at which it was switched out. It is a 32-bit word like the timer, and the last task
of the pool may be taken before its time.
-/
open CLib Function

set_option linter.style.nameCheck false

namespace McLinOS.Sched

/-- `__delay` of the current task, up to the system call. -/
def __delay (time : BitVec 32) (k : Kernel) : Option Kernel :=
  if k.current_task = 0 then none
  else some (k.modify k.current_task ({ · with block_time := time, state := .TASK_WAITING }))

/-- The switch of `Scheduler_Task`, on a scheduler that runs. -/
def Scheduler_Task (fuel : Nat) (stray : Nat → Option Nat) (k : Kernel) : Option Kernel :=
  (Preemptive_scheduling fuel stray k).map fun (k, next_task) => { k with current_task := next_task }

/-- The pool is well formed. -/
def WellFormed (k : Kernel) : Prop := ∃ xs, Pool k xs

/-! ## What a selection leaves -/

/-- The tasks in front are passed, and `vs` are those still to come. -/
structure Passing (k : Kernel) (vs : List Nat) (k₁ : Kernel) : Prop where
  pool : ∃ us, Pool k₁ (us ++ vs)
  state : ∀ t, k₁.state t = k.state t
  times : ∀ t, (k₁.tasks t).last_scheduler_time = (k.tasks t).last_scheduler_time ∧
    (k₁.tasks t).block_time = (k.tasks t).block_time
  timer : k₁.scheduler_timer = k.scheduler_timer
  current : k₁.current_task = k.current_task ∨ (k₁.current_task = 0 ∧ k.state k.current_task = .TASK_DEAD)

/-- The task that the selection from `vs` takes. -/
def Taken (k : Kernel) (vs : List Nat) (t : Nat) : Prop :=
  (∃ us ws, vs = us ++ t :: ws ∧ (∀ u ∈ us, ¬Runnable k u) ∧ Runnable k t) ∨
    (vs.getLast? = some t ∧ ∀ u ∈ vs, ¬Runnable k u)

section Passing
variable {stray : Nat → Option Nat} {k k₁ : Kernel} {vs xs : List Nat} {t : Nat}

theorem Passing.start (h : Pool k xs) : Passing k xs k :=
  ⟨⟨[], h⟩, fun _ => rfl, fun _ => ⟨rfl, rfl⟩, rfl, .inl rfl⟩

theorem Passing.runnable (h : Passing k vs k₁) (t : Nat) : Runnable k₁ t ↔ Runnable k t := by
  simp only [Runnable, wake_time, h.state, h.times, h.timer]

theorem remove_current (k : Kernel) (t : Nat) : (remove_task_from_pool t k).current_task = k.current_task ∨
    ((remove_task_from_pool t k).current_task = 0 ∧ k.current_task = t) := by
  have hlinks : ∀ k : Kernel, (remove_task k t).current_task = k.current_task := by
    intro k
    unfold remove_task
    dsimp only
    split <;> split <;> rfl
  have hreset : ∀ k₁ : Kernel, k₁.current_task = k.current_task →
      (if k₁.current_task = t then { k₁ with current_task := 0 } else k₁).current_task = k.current_task ∨
        ((if k₁.current_task = t then { k₁ with current_task := 0 } else k₁).current_task = 0 ∧ k.current_task = t) := by
    intro k₁ hk₁
    split
    · rename_i hc
      exact .inr ⟨rfl, hk₁ ▸ hc⟩
    · exact .inl hk₁
  unfold remove_task_from_pool
  split
  · exact .inl rfl
  · dsimp only
    split
    · exact hreset _ (hlinks { k with task_head := k.next t })
    · exact hreset _ (hlinks k)

/-- A task is passed. The only one of the pool is not removed even when it is dead. -/
theorem Passing.pass (h : Passing k (t :: vs) k₁) : Passing k vs (passed t k₁) := by
  obtain ⟨⟨us, hpool⟩, hstate, htimes, htimer, hcurrent⟩ := h
  refine ⟨?_, ?_, fun u => ⟨?_, ?_⟩, passed_timer.trans htimer, ?_⟩
  · unfold passed
    split
    · by_cases hne : us ≠ [] ∨ vs ≠ []
      · have hrest := hpool.remove hne
        exact ⟨us, hrest.chain, hrest.head, hrest.nonnull, hrest.nodup, hrest.sorted⟩
      · obtain ⟨rfl, rfl⟩ : us = [] ∧ vs = [] := by simpa [not_or] using hne
        rw [remove_last hpool]
        exact ⟨[t], hpool.chain, hpool.head, hpool.nonnull, hpool.nodup, hpool.sorted⟩
    · exact ⟨us ++ [t], by simpa using hpool⟩
  · intro u
    exact (passed_field (·.state) (fun _ _ => rfl) (fun _ _ => rfl) u).trans (hstate u)
  · exact (passed_field (·.last_scheduler_time) (fun _ _ => rfl) (fun _ _ => rfl) u).trans (htimes u).1
  · exact (passed_field (·.block_time) (fun _ _ => rfl) (fun _ _ => rfl) u).trans (htimes u).2
  · unfold passed
    split
    · rename_i hdead
      rcases remove_current k₁ t with hc | ⟨hc, rfl⟩
      · exact hcurrent.imp hc.trans (.imp_left hc.trans)
      · rw [hstate] at hdead
        refine .inr ⟨hc, hcurrent.elim (fun hsame => ?_) (·.2)⟩
        rwa [← hsame]
    · exact hcurrent

/-- The walk ends at the task taken, or at a stray read that faults. -/
theorem Passing.walk (stray : Nat → Option Nat) (h : Passing k vs k₁) (hne : vs ≠ []) {fuel : Nat} (hf : vs.length < fuel) :
    ∃ r, loop (get_useful_task_body stray) fuel (k₁, vs.headD 0) = some r ∧
      (∀ k₃ t, r = some (k₃, t) → Taken k vs t ∧ ∃ k₂ us, Passing k us k₂ ∧
        (k₃ = k₂ ∨ k₃ = k₂.set_state t .TASK_READY)) ∧
      (r = none → ∃ t ∈ vs, stray t = none) := by
  induction vs generalizing k₁ fuel with
  | nil => exact absurd rfl hne
  | cons t vs ih =>
    obtain ⟨fuel, rfl⟩ : ∃ n, fuel = n + 1 := ⟨fuel - 1, by simp at hf; omega⟩
    obtain ⟨us, hpool⟩ := h.pool
    have ht0 : t ≠ 0 := by
      rintro rfl
      exact hpool.nonnull (by simp)
    rw [List.headD_cons]
    by_cases hrun : Runnable k t
    · obtain ⟨k₃, hturn, hk₃⟩ := turn_found stray ht0 ((h.runnable t).2 hrun)
      refine ⟨some (k₃, t), loop_done hturn fuel, ?_, by simp⟩
      rintro _ _ ⟨⟩
      exact ⟨.inl ⟨[], vs, rfl, by simp, hrun⟩, k₁, _, h, hk₃⟩
    · by_cases hfault : k₁.state t = .TASK_DEAD ∧ stray t = none
      · exact ⟨none, loop_done (turn_fault ht0 hfault.1 hfault.2) fuel, by simp, fun _ => ⟨t, by simp, hfault.2⟩⟩
      · have hturn := turn_pass ht0 hpool.priv_ne (mt (h.runnable t).1 hrun) fun hdead hnone => hfault ⟨hdead, hnone⟩
        have hnext : k₁.next t = vs.headD 0 := (Chain.split.1 hpool.chain).2.1.2
        rw [hnext] at hturn
        cases vs with
        | nil =>
          refine ⟨some (passed t k₁, t), loop_done hturn fuel, ?_, by simp⟩
          rintro _ _ ⟨⟩
          exact ⟨.inr ⟨rfl, by simpa using hrun⟩, _, _, h.pass, .inl rfl⟩
        | cons v vs =>
          have hv : v ≠ 0 := by
            rintro rfl
            exact hpool.nonnull (by simp)
          rw [List.headD_cons, if_neg hv] at hturn
          rw [loop_cont hturn]
          obtain ⟨r, hl, hfound, hstray⟩ := ih h.pass (by simp) (by simp at hf ⊢; omega)
          refine ⟨r, hl, ?_, ?_⟩
          · intro k₃ u hr
            obtain ⟨htaken, hk₃⟩ := hfound k₃ u hr
            refine ⟨?_, hk₃⟩
            rcases htaken with ⟨us, ws, heq, hno, hu⟩ | ⟨hlast, hno⟩
            · exact .inl ⟨t :: us, ws, by rw [heq]; rfl, List.forall_mem_cons.2 ⟨hrun, hno⟩, hu⟩
            · exact .inr ⟨by rw [List.getLast?_cons_cons, hlast], List.forall_mem_cons.2 ⟨hrun, hno⟩⟩
          · intro hr
            obtain ⟨u, hu, hnone⟩ := hstray hr
            exact ⟨u, List.mem_cons_of_mem t hu, hnone⟩

end Passing

/-! ## One tick -/

/-- What a tick that takes `t` leaves. -/
structure Selected (k : Kernel) (t : Nat) (k' : Kernel) : Prop where
  pool : WellFormed k'
  timer : k'.scheduler_timer = k.scheduler_timer + 1
  state : ∀ u, u ≠ t → k'.state u = k.state u
  block : ∀ u, (k'.tasks u).block_time = (k.tasks u).block_time
  last : ∀ u, u ≠ t → u ≠ k.current_task → (k'.tasks u).last_scheduler_time = (k.tasks u).last_scheduler_time
  /-- The task switched out is stamped with the tick. -/
  out : k.current_task ≠ 0 → k.current_task ≠ t → k.state k.current_task ≠ .TASK_DEAD →
    (k'.tasks k.current_task).last_scheduler_time = k'.scheduler_timer

/-- The times set when another task is taken. -/
def stamp (next_task : Nat) (k : Kernel) : Kernel :=
  if next_task ≠ k.current_task then
    (if k.current_task ≠ 0 then k.set_time k.current_task k.scheduler_timer else k).set_time next_task k.scheduler_timer
  else k

section Tick
variable {stray : Nat → Option Nat} {fuel : Nat} {k k' : Kernel} {xs : List Nat} {t : Nat}

theorem scheduling_eq (fuel : Nat) (stray : Nat → Option Nat) (k : Kernel) : Preemptive_scheduling fuel stray k =
    (loop (get_useful_task_body stray) fuel (tick k, k.task_head)).join.map fun (k, t) => (stamp t k, t) := by
  unfold Preemptive_scheduling get_useful_task
  refine congrArg₂ Option.map (funext ?_) rfl
  rintro ⟨k, t⟩
  dsimp only
  unfold stamp
  split
  · split <;> rfl
  · rfl

theorem stamp_same (t : Nat) (k : Kernel) : SamePool k (stamp t k) := by
  unfold stamp
  split
  · split
    · exact (SamePool.time _ _ _).trans (.time _ _ _)
    · exact .time _ _ _
  · exact .refl k

/-- Only times are stamped. -/
theorem stamp_field {α : Type} (g : task_struct → α) (h : ∀ s v, g { s with last_scheduler_time := v } = g s) (u : Nat) :
    g ((stamp t k).tasks u) = g (k.tasks u) := by
  have htime : ∀ (k : Kernel) v w, g ((k.set_time v w).tasks u) = g (k.tasks u) := fun k v w =>
    k.field_modify v g _ (fun s => h s w) u
  unfold stamp
  split
  · split
    · rw [htime, htime]
    · rw [htime]
  · rfl

theorem stamp_timer (t : Nat) (k : Kernel) : (stamp t k).scheduler_timer = k.scheduler_timer := by
  unfold stamp
  split
  · split <;> rfl
  · rfl

theorem stamp_last {u : Nat} (ht : u ≠ t) (hc : u ≠ k.current_task ∨ k.current_task = 0) :
    (stamp t k).tasks u = k.tasks u := by
  unfold stamp
  split
  · split
    · rename_i h0
      simp [Kernel.set_time, Kernel.modify, ht, hc.resolve_right h0]
    · simp [Kernel.set_time, Kernel.modify, ht]
  · rfl

theorem stamp_out (h0 : k.current_task ≠ 0) (ht : k.current_task ≠ t) :
    ((stamp t k).tasks k.current_task).last_scheduler_time = k.scheduler_timer := by
  unfold stamp
  rw [if_pos ht.symm, if_pos h0]
  simp [Kernel.set_time, Kernel.modify, ht]

/-- A task is taken, or a stray read faults. -/
theorem scheduling_ends (stray : Nat → Option Nat) (hp : Pool k xs) (hne : xs ≠ []) :
    ∃ fuel r, loop (get_useful_task_body stray) fuel (tick k, k.task_head) = some r ∧
      (r = none → ∃ t ∈ xs, stray t = none) := by
  have hp' : Pool (tick k) xs := ⟨hp.chain, hp.head, hp.nonnull, hp.nodup, hp.sorted⟩
  obtain ⟨r, hl, -, hstray⟩ := Passing.walk stray (.start hp') hne (Nat.lt_succ_self _)
  rw [← hp.head] at hl
  exact ⟨_, r, hl, hstray⟩

theorem scheduling_selected (hp : Pool k xs) (h : Preemptive_scheduling fuel stray k = some (k', t)) :
    Taken (tick k) xs t ∧ Selected k t k' := by
  rw [scheduling_eq] at h
  obtain ⟨⟨k₃, u⟩, hget, heq⟩ := Option.map_eq_some_iff.1 h
  obtain ⟨rfl, rfl⟩ := Prod.mk.inj heq
  have hl := Option.join_eq_some_iff.1 hget
  have hne : xs ≠ [] := by
    rintro rfl
    have hturn : get_useful_task_body stray (tick k, k.task_head) = .done none := by
      simp [get_useful_task_body, show k.task_head = 0 from hp.head]
    have := (FuelMono.loop _ _).det hl (loop_done hturn 0)
    cases this
  have hp' : Pool (tick k) xs := ⟨hp.chain, hp.head, hp.nonnull, hp.nodup, hp.sorted⟩
  obtain ⟨r, hl', hfound, -⟩ := Passing.walk stray (.start hp') hne (Nat.lt_succ_self _)
  rw [← hp.head] at hl'
  obtain ⟨htaken, k₂, us, hpass, hk₃⟩ := hfound k₃ u ((FuelMono.loop _ _).det hl' hl)
  obtain ⟨⟨ys, hpool⟩, hstate, htimes, htimer, hcurrent⟩ := hpass
  -- Making the task ready changes its state only.
  have hsame : SamePool k₂ k₃ ∧ (∀ v, v ≠ u → k₃.state v = k₂.state v) ∧
      (∀ v, (k₃.tasks v).last_scheduler_time = (k₂.tasks v).last_scheduler_time ∧
        (k₃.tasks v).block_time = (k₂.tasks v).block_time) ∧
      k₃.scheduler_timer = k₂.scheduler_timer ∧ k₃.current_task = k₂.current_task := by
    rcases hk₃ with rfl | rfl
    · exact ⟨.refl _, fun _ _ => rfl, fun _ => ⟨rfl, rfl⟩, rfl, rfl⟩
    · refine ⟨.state _ _ _, ?_, fun v => ⟨?_, ?_⟩, rfl, rfl⟩
      · intro v hv
        simp [Kernel.state, Kernel.set_state, Kernel.modify, hv]
      · exact k₂.field_modify u (·.last_scheduler_time) ({ · with state := .TASK_READY }) (fun _ => rfl) v
      · exact k₂.field_modify u (·.block_time) ({ · with state := .TASK_READY }) (fun _ => rfl) v
  obtain ⟨hsame, hstate₃, htimes₃, htimer₃, hcurrent₃⟩ := hsame
  have hnow : k₃.scheduler_timer = k.scheduler_timer + 1 := htimer₃.trans htimer
  refine ⟨htaken, ⟨_, (stamp_same u k₃).pool (hsame.pool hpool)⟩, (stamp_timer u k₃).trans hnow, ?_, ?_, ?_, ?_⟩
  · intro v hv
    exact (stamp_field (·.state) (fun _ _ => rfl) v).trans ((hstate₃ v hv).trans (hstate v))
  · intro v
    exact (stamp_field (·.block_time) (fun _ _ => rfl) v).trans ((htimes₃ v).2.trans (htimes v).2)
  · intro v hv hcur
    rw [stamp_last hv, (htimes₃ v).1, (htimes v).1]
    · rfl
    · rw [hcurrent₃]
      exact hcurrent.imp (fun hc => by rwa [hc]) (·.1)
  · intro h0 hcur hdead
    have hc : k₃.current_task = k.current_task := hcurrent₃.trans (hcurrent.resolve_right fun hd => hdead hd.2)
    rw [← hc] at h0 hcur ⊢
    rw [stamp_out h0 hcur, stamp_timer]

/-- The switch makes the task that was selected the current one. -/
theorem scheduled (hp : Pool k xs) (h : Scheduler_Task fuel stray k = some k') :
    Selected k k'.current_task k' := by
  obtain ⟨⟨k₁, r⟩, hrun, rfl⟩ := Option.map_eq_some_iff.1 h
  obtain ⟨⟨ys, hpool⟩, htimer, hstate, hblock, hlast, hout⟩ := (scheduling_selected hp hrun).2
  exact ⟨⟨ys, hpool.chain, hpool.head, hpool.nonnull, hpool.nodup, hpool.sorted⟩, htimer, hstate, hblock, hlast, hout⟩

/-- Without a task that may run the last one is taken. -/
theorem scheduling_last (hp : Pool k xs) (hlast : xs.getLast? = some t) (hno : ∀ u ∈ xs, ¬Runnable (tick k) u) :
    ∃ fuel k', Preemptive_scheduling fuel (fun _ => some 0) k = some (k', t) := by
  have hne : xs ≠ [] := by
    rintro rfl
    cases hlast
  obtain ⟨fuel, r, hl, hstray⟩ := scheduling_ends (fun _ => some 0) hp hne
  obtain ⟨⟨k₃, u⟩, rfl⟩ : ∃ c, r = some c := by
    rw [← Option.ne_none_iff_exists']
    rintro rfl
    obtain ⟨u, -, hu⟩ := hstray rfl
    cases hu
  have hrun : Preemptive_scheduling fuel (fun _ => some 0) k = some (stamp u k₃, u) := by
    rw [scheduling_eq, hl]
    rfl
  obtain ⟨htaken, -⟩ := scheduling_selected hp hrun
  rcases htaken with ⟨us, ws, heq, -, hu⟩ | ⟨hu, -⟩
  · exact absurd hu (hno u (by simp [heq]))
  · obtain rfl := Option.some.inj (hu.symm.trans hlast)
    exact ⟨fuel, _, hrun⟩

end Tick

/-! ## Runs -/

/-- What happens between two ticks while `a` sleeps: calls on the pool, and anything
that is done to other tasks. -/
structure Move (a : Nat) (k k' : Kernel) : Prop where
  pool : ∃ members members', PoolOk k members ∧ PoolStep (k, members) (k', members')
  state : k'.state a = k.state a
  last : (k'.tasks a).last_scheduler_time = (k.tasks a).last_scheduler_time
  block : (k'.tasks a).block_time = (k.tasks a).block_time
  timer : k'.scheduler_timer = k.scheduler_timer
  current : k'.current_task = a ↔ k.current_task = a

/-- The task `a` has called `__delay(time)` and is still current. A tick may take it
again without waking it. -/
inductive Delayed (a : Nat) (time : BitVec 32) : Kernel → Prop
  | delay {k k' : Kernel} : WellFormed k → k.current_task = a → __delay time k = some k' → Delayed a time k'
  | move {k k' : Kernel} : Delayed a time k → Move a k k' → Delayed a time k'
  | tick {k k' : Kernel} (fuel : Nat) (stray : Nat → Option Nat) : Delayed a time k →
      Scheduler_Task fuel stray k = some k' → k'.current_task = a → k'.state a = .TASK_WAITING → Delayed a time k'

/-- When the next tick, number `j + 1` after the switch at tick `t`, does right by a
task that sleeps for `n`. -/
structure TickFits (a t n j : Nat) (k : Kernel) : Prop where
  /-- The wake time and the timer have wrapped equally often. -/
  period : (t + n) / 2 ^ 32 = (t + (j + 1)) / 2 ^ 32
  /-- The walk does not get to the end of the pool, or `a` is not there. -/
  others : j + 1 ≤ n → ∀ xs, Pool k xs → (∃ u ∈ xs, Runnable (tick k) u) ∨ xs.getLast? ≠ some a

/-- The task `a` was switched out at tick `t`, and `j` ticks later it has not run
again. -/
inductive Sleeps (a : Nat) (time : BitVec 32) : Nat → Nat → Kernel → Prop
  | out {k k' : Kernel} (fuel : Nat) (stray : Nat → Option Nat) : Delayed a time k →
      Scheduler_Task fuel stray k = some k' → k'.current_task ≠ a → Sleeps a time k'.scheduler_timer.toNat 0 k'
  | move {t j : Nat} {k k' : Kernel} : Sleeps a time t j k → Move a k k' → Sleeps a time t j k'
  | tick {t j : Nat} {k k' : Kernel} (fuel : Nat) (stray : Nat → Option Nat) : Sleeps a time t j k →
      TickFits a t time.toNat j k → Scheduler_Task fuel stray k = some k' → k'.current_task ≠ a →
      Sleeps a time t (j + 1) k'

/-- What the next tick owes a task that sleeps for `n`. -/
structure SleepLaw (a n j : Nat) (k : Kernel) : Prop where
  compared : wake_time (k.tasks a) < (tick k).scheduler_timer ↔ n < j + 1
  asleep : j + 1 ≤ n → ∀ fuel stray k' r, Preemptive_scheduling fuel stray k = some (k', r) → r ≠ a
  eligible : n < j + 1 → Runnable (tick k) a

section Runs
variable {a t j : Nat} {time : BitVec 32} {k k' : Kernel}

theorem WellFormed.move (h : Move a k k') : WellFormed k' := by
  obtain ⟨members, members', hok, hstep⟩ := h.pool
  obtain ⟨xs, hpool, -⟩ := poolStep_ok hok hstep
  exact ⟨xs, hpool⟩

/-- A task that waits for its delay. -/
structure Waiting (a : Nat) (time : BitVec 32) (k : Kernel) : Prop where
  pool : WellFormed k
  state : k.state a = .TASK_WAITING
  block : (k.tasks a).block_time = time

theorem Waiting.move (h : Waiting a time k) (hm : Move a k k') : Waiting a time k' :=
  ⟨.move hm, hm.state.trans h.state, hm.block.trans h.block⟩

theorem Delayed.inv (h : Delayed a time k) : Waiting a time k ∧ k.current_task = a ∧ a ≠ 0 := by
  induction h with
  | @delay k k' hwf hcur hdelay =>
    unfold __delay at hdelay
    split at hdelay
    · cases hdelay
    · rename_i h0
      obtain rfl := Option.some.inj hdelay
      obtain ⟨xs, hp⟩ := hwf
      have hlink : ∀ {α : Type} (g : task_struct → α), (∀ s : task_struct, g { s with block_time := time, state := .TASK_WAITING } = g s) →
          ∀ u, g ((k.modify k.current_task ({ · with block_time := time, state := .TASK_WAITING })).tasks u) =
            g (k.tasks u) := fun g hg u => k.field_modify _ g _ hg u
      refine ⟨⟨⟨xs, hp.congr (fun u _ => hlink (·.next) (fun _ => rfl) u) (fun u _ => hlink (·.priv) (fun _ => rfl) u)
        (fun u _ => hlink (·.priority) (fun _ => rfl) u) rfl⟩, ?_, ?_⟩, hcur, hcur ▸ h0⟩
      · simp [Kernel.state, Kernel.modify, hcur]
      · simp [Kernel.modify, hcur]
  | move _ hm ih =>
    obtain ⟨hw, hcur, h0⟩ := ih
    exact ⟨hw.move hm, hm.current.2 hcur, h0⟩
  | tick fuel stray _ hrun hcur hstate ih =>
    obtain ⟨hw, -, h0⟩ := ih
    obtain ⟨xs, hp⟩ := hw.pool
    have hsel := scheduled hp hrun
    exact ⟨⟨hsel.pool, hstate, (hsel.block a).trans hw.block⟩, hcur, h0⟩

/-- A task that sleeps since tick `t`, with `j` ticks behind it. -/
structure Sleeping (a : Nat) (time : BitVec 32) (t j : Nat) (k : Kernel) : Prop where
  waiting : Waiting a time k
  current : k.current_task ≠ a
  last : (k.tasks a).last_scheduler_time = BitVec.ofNat 32 t
  start : t < 2 ^ 32
  timer : k.scheduler_timer = BitVec.ofNat 32 (t + j)
  /-- The tick before met its condition. -/
  period : j = 0 ∨ (t + time.toNat) / 2 ^ 32 = (t + j) / 2 ^ 32

theorem Sleeps.inv (h : Sleeps a time t j k) : Sleeping a time t j k := by
  induction h with
  | @out k k' fuel stray hd hrun hr =>
    obtain ⟨hw, hcur, h0⟩ := hd.inv
    obtain ⟨xs, hp⟩ := hw.pool
    have hsel := scheduled hp hrun
    have hlast := hsel.out (hcur ▸ h0) (by rw [hcur]; exact hr.symm) (by rw [hcur, hw.state]; decide)
    rw [hcur] at hlast
    refine ⟨⟨hsel.pool, (hsel.state a hr.symm).trans hw.state, (hsel.block a).trans hw.block⟩, hr, ?_,
      k'.scheduler_timer.isLt, ?_, .inl rfl⟩
    · rw [BitVec.ofNat_toNat, BitVec.setWidth_eq]
      exact hlast
    · rw [Nat.add_zero, BitVec.ofNat_toNat, BitVec.setWidth_eq]
  | move _ hm ih =>
    exact ⟨ih.waiting.move hm, mt hm.current.1 ih.current, hm.last.trans ih.last, ih.start, hm.timer.trans ih.timer,
      ih.period⟩
  | @tick t j k k' fuel stray _ hfit hrun hr ih =>
    obtain ⟨xs, hp⟩ := ih.waiting.pool
    have hsel := scheduled hp hrun
    refine ⟨⟨hsel.pool, (hsel.state a hr.symm).trans ih.waiting.state, (hsel.block a).trans ih.waiting.block⟩,
      hr, (hsel.last a hr.symm ih.current.symm).trans ih.last, ih.start, ?_, .inr hfit.period⟩
    show k'.scheduler_timer = _
    rw [hsel.timer, ih.timer, ← Nat.add_assoc, BitVec.ofNat_add _ 1]
    rfl

/-- While the wake time and the timer have wrapped equally often, they compare as
numbers, and from the first tick on at which they have not, they do not. -/
theorem Sleeping.compared (h : Sleeping a time t j k) :
    (wake_time (k.tasks a) < (tick k).scheduler_timer ↔ time.toNat < j + 1) ↔
      (t + time.toNat) / 2 ^ 32 = (t + (j + 1)) / 2 ^ 32 := by
  have hwake : (wake_time (k.tasks a)).toNat = (t + time.toNat) % 2 ^ 32 := by
    rw [wake_time, h.last, h.waiting.block, BitVec.toNat_add, BitVec.toNat_ofNat, Nat.mod_add_mod]
  have htimer : (tick k).scheduler_timer.toNat = (t + (j + 1)) % 2 ^ 32 := by
    show (k.scheduler_timer + 1).toNat = _
    rw [h.timer, ← Nat.add_assoc, BitVec.toNat_add, BitVec.toNat_ofNat, Nat.mod_add_mod]
    rfl
  have htime := time.isLt
  have hstart := h.start
  have hperiod := h.period
  rw [BitVec.lt_def, hwake, htimer]
  generalize time.toNat = n at *
  omega

/-- In every run whose ticks meet the condition the next tick keeps the law exactly
if it meets the condition too. -/
theorem sleep_law (h : Sleeps a time t j k) : SleepLaw a time.toNat j k ↔ TickFits a t time.toNat j k := by
  have hs := h.inv
  have hstate : (tick k).state a = .TASK_WAITING := hs.waiting.state
  constructor
  · rintro ⟨hcompared, hasleep, -⟩
    refine ⟨hs.compared.1 hcompared, fun hj xs hp => ?_⟩
    by_contra hnot
    obtain ⟨hno, hlast⟩ := not_or.1 hnot
    obtain ⟨fuel, k', hrun⟩ := scheduling_last hp (not_not.1 hlast) fun u hu hrun => hno ⟨u, hu, hrun⟩
    exact hasleep hj _ _ _ _ hrun rfl
  · rintro ⟨hperiod, hothers⟩
    have hcompared := hs.compared.2 hperiod
    refine ⟨hcompared, ?_, fun hj => .inr ⟨hstate, hcompared.2 hj⟩⟩
    rintro hj fuel stray k' r hrun rfl
    obtain ⟨xs, hp⟩ := hs.waiting.pool
    obtain ⟨htaken, -⟩ := scheduling_selected hp hrun
    rcases htaken with ⟨us, ws, -, -, hready | ⟨-, hwake⟩⟩ | ⟨hlast, hno⟩
    · rw [hstate] at hready
      cases hready
    · exact absurd (hcompared.1 hwake) (by omega)
    · rcases hothers hj xs hp with ⟨u, hu, hrun⟩ | hne
      · exact hno u hu hrun
      · exact hne hlast

end Runs

/-- Task 2 of the pool `[1, 2]` is switched out for task 1, whose state is then set. -/
theorem two_sleep (first : task_state) : ∃ k, Sleeps 2 10 1 0 k ∧ Pool k [1, 2] ∧
    (tick k).state 1 = first ∧ (tick k).state 2 = .TASK_WAITING ∧ ¬wake_time ((tick k).tasks 2) < (tick k).scheduler_timer := by
  let k₀ : Kernel := { two_tasks .TASK_READY .TASK_RUNNING with current_task := 2 }
  let k₁ := k₀.modify 2 ({ · with block_time := 10, state := .TASK_WAITING })
  let k₂ : Kernel := { stamp 1 (tick k₁) with current_task := 1 }
  have hp₀ : Pool k₀ [1, 2] := ⟨⟨rfl, rfl, rfl, rfl, trivial⟩, rfl, by decide, by decide, (two_pool _ _).sorted⟩
  have hp₂ : Pool k₂ [1, 2] := ⟨⟨rfl, rfl, rfl, rfl, trivial⟩, rfl, by decide, by decide, by
    simp [k₂, k₁, k₀, stamp, tick, Kernel.priority, Kernel.set_time, Kernel.modify, two_tasks]⟩
  have hout : Sleeps 2 10 1 0 k₂ :=
    .out 1 (fun _ => some 0) (.delay ⟨_, hp₀⟩ rfl rfl) rfl (show 1 ≠ 2 by decide)
  have hset : SamePool k₂ (k₂.set_state 1 first) := .state _ _ _
  have hmove : Move 2 k₂ (k₂.set_state 1 first) :=
    ⟨⟨_, _, ⟨_, hp₂, .refl _⟩, .other (fun t _ => ⟨congrFun hset.next t, congrFun hset.priv t,
      congrFun hset.priority t⟩) hset.head⟩, rfl, rfl, rfl, rfl, .rfl⟩
  exact ⟨_, hout.move hmove, hset.pool hp₂, rfl, rfl, show ¬(1 : BitVec 32) + 10 < 1 + 1 by decide⟩

theorem sleep_law_ready : ∃ k, Sleeps 2 10 1 0 k ∧ SleepLaw 2 10 0 k := by
  obtain ⟨k, hs, hp, hfirst, -⟩ := two_sleep .TASK_READY
  refine ⟨k, hs, (sleep_law hs).2 ⟨by decide, fun _ xs hp' => .inl ⟨1, ?_, .inl hfirst⟩⟩⟩
  have hhead : xs.headD 0 = 1 := hp'.head.symm.trans hp.head
  cases xs with
  | nil => cases hhead
  | cons x xs =>
    obtain rfl : x = 1 := hhead
    exact List.mem_cons_self

/-- Task 1 blocks, and task 2 is taken at the first tick of its sleep. -/
theorem sleep_law_blocked : ¬∀ (a : Nat) (time : BitVec 32) (t j : Nat) (k : Kernel), Sleeps a time t j k →
    SleepLaw a time.toNat j k := by
  intro hall
  obtain ⟨k, hs, hp, hfirst, hsecond, hwake⟩ := two_sleep .TASK_BLOCKED
  obtain ⟨fuel, k', hrun⟩ := scheduling_last hp rfl fun u hu => by
    obtain rfl | rfl : u = 1 ∨ u = 2 := by simpa using hu
    · simp [Runnable, hfirst]
    · simpa [Runnable, hsecond] using hwake
  exact (hall _ _ _ _ _ hs).asleep (by decide) _ _ _ _ hrun rfl

end McLinOS.Sched
