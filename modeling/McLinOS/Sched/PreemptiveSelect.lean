import Mathlib.Data.List.TakeWhile
import McLinOS.Sched.PreemptivePool
/-!
# Selecting the next task

The walk of `get_useful_task` from the head of the pool. `Walked` is what it has
done to the tasks it left behind. It ends at the first task that may run, or at
the last task of the pool, whatever its state.
-/
open CLib Function

namespace McLinOS.Sched

/-- The task may run: it is ready, or its delay has run out. -/
def Runnable (k : Kernel) (t : Nat) : Prop :=
  k.state t = .TASK_READY ∨ (k.state t = .TASK_WAITING ∧ wake_time (k.tasks t) < k.scheduler_timer)

instance (k : Kernel) (t : Nat) : Decidable (Runnable k t) := inferInstanceAs (Decidable (_ ∨ _))

/-- `scheduler_timer++`. -/
def tick (k : Kernel) : Kernel := { k with scheduler_timer := k.scheduler_timer + 1 }

/-- The dead tasks in front of the first one that may run. -/
def buried (k : Kernel) (xs : List Nat) : List Nat :=
  (xs.takeWhile fun t => ¬Runnable k t).filter fun t => k.state t = .TASK_DEAD

/-- The tasks of the pool are on the list of living tasks. -/
structure Registered (k : Kernel) (xs : List Nat) : Prop where
  nodup : k.Task_List.Nodup
  alive : ∀ t ∈ xs, t ∈ k.Task_List
  not_dead : ∀ t ∈ xs, t ∉ k.Death_task_List

/-- What selecting `t` from the pool `xs` promises. The timer of `k` has ticked. -/
structure Selects (k : Kernel) (xs : List Nat) (k' : Kernel) (t : Nat) : Prop where
  first : ∀ us u vs, xs = us ++ u :: vs → (∀ w ∈ us, ¬Runnable k w) → Runnable k u → t = u
  never : k.state t ≠ .TASK_DEAD ∧ k.state t ≠ .TASK_BLOCKED ∧ k.state t ≠ .TASK_BROKEN ∧
    (k.state t = .TASK_WAITING → wake_time (k.tasks t) < k.scheduler_timer)
  pool : Pool k' (xs.filter fun u => u ∉ buried k xs)
  death : k'.Death_task_List = (buried k xs).reverse ++ k.Death_task_List
  alive : k'.Task_List = k.Task_List.filter fun u => u ∉ buried k xs

def SelectSafe (stray : Nat → Option Nat) (k : Kernel) (xs : List Nat) : Prop :=
  ∃ fuel k' t, Preemptive_scheduling fuel stray k = some (k', t) ∧ Selects (tick k) xs k' t

/-- Some task may run, or the last one is created or running. Reading through
the variable without a value does not fault. -/
def SelectFits (stray : Nat → Option Nat) (k : Kernel) (xs : List Nat) : Prop :=
  ((∃ t ∈ xs, Runnable (tick k) t) ∨
      ∃ t, xs.getLast? = some t ∧ (k.state t = .TASK_CREATE ∨ k.state t = .TASK_RUNNING)) ∧
    ∀ t ∈ buried (tick k) xs, stray t ≠ none

/-! ## Removing a dead task -/

section Frame
variable {α : Type} (g : task_struct → α) (hn : ∀ s v, g { s with next := v } = g s) (hp : ∀ s v, g { s with priv := v } = g s)
include hn hp

theorem remove_task_field (k : Kernel) (t u : Nat) : g ((remove_task k t).tasks u) = g (k.tasks u) := by
  have h1 : ∀ (k : Kernel) a v, g ((k.set_next a v).tasks u) = g (k.tasks u) := fun k a v =>
    Kernel.field_modify k a g _ (fun s => hn s v) u
  have h2 : ∀ (k : Kernel) a v, g ((k.set_priv a v).tasks u) = g (k.tasks u) := fun k a v =>
    Kernel.field_modify k a g _ (fun s => hp s v) u
  unfold remove_task
  dsimp only
  split <;> split <;> simp only [h1, h2]

theorem remove_field (k : Kernel) (t u : Nat) : g ((remove_task_from_pool t k).tasks u) = g (k.tasks u) := by
  unfold remove_task_from_pool
  split
  · rfl
  · dsimp only
    split <;> split <;> exact remove_task_field g hn hp _ t u

end Frame

theorem remove_task_lists (k : Kernel) (t : Nat) : (remove_task k t).Task_List = k.Task_List ∧
    (remove_task k t).Death_task_List = k.Death_task_List ∧ (remove_task k t).scheduler_timer = k.scheduler_timer := by
  unfold remove_task
  dsimp only
  split <;> split <;> exact ⟨rfl, rfl, rfl⟩

theorem remove_lists (k : Kernel) (t : Nat) : (remove_task_from_pool t k).Task_List = k.Task_List ∧
    (remove_task_from_pool t k).Death_task_List = k.Death_task_List ∧
    (remove_task_from_pool t k).scheduler_timer = k.scheduler_timer := by
  unfold remove_task_from_pool
  split
  · exact ⟨rfl, rfl, rfl⟩
  · dsimp only
    split <;> split <;> exact remove_task_lists _ t

/-- The removed task still leads to the task behind it. -/
theorem next_remove {k : Kernel} {t : Nat} (h : k.priv t ≠ t) : (remove_task_from_pool t k).next t = k.next t := by
  have hr : ∀ k : Kernel, k.priv t ≠ t → (remove_task k t).next t = k.next t := fun k h => by
    rw [(remove_task_links k h).1]
    exact Chain.unlinkNext_out h
  unfold remove_task_from_pool
  split
  · rfl
  · dsimp only
    split <;> split
    · exact hr { k with task_head := k.next t } h
    · exact hr { k with task_head := k.next t } h
    · exact hr k h
    · exact hr k h

/-! ## One turn -/

/-- What passing the task leaves: a dead one is buried. -/
def passed (t : Nat) (k : Kernel) : Kernel :=
  if k.state t = .TASK_DEAD then __Kill_Task (remove_task_from_pool t k) t else k

section Turn
variable {stray : Nat → Option Nat} {k : Kernel} {t : Nat}

/-- Burying does nothing to a field that is no link. -/
theorem passed_field {α : Type} (g : task_struct → α) (hn : ∀ s v, g { s with next := v } = g s)
    (hp : ∀ s v, g { s with priv := v } = g s) (u : Nat) : g ((passed t k).tasks u) = g (k.tasks u) := by
  unfold passed
  split
  · exact remove_field g hn hp k t u
  · rfl

theorem passed_timer : (passed t k).scheduler_timer = k.scheduler_timer := by
  unfold passed
  split
  · exact (remove_lists k t).2.2
  · rfl

theorem passed_next (h : k.priv t ≠ t) : (passed t k).next t = k.next t := by
  unfold passed
  split
  · exact next_remove h
  · rfl

theorem turn_fault (h0 : t ≠ 0) (hdead : k.state t = .TASK_DEAD) (hs : stray t = none) :
    get_useful_task_body stray (k, t) = .done none := by
  simp only [get_useful_task_body, if_neg h0, hdead, if_true, bury, hs, Option.map_none]

/-- A task that may not run is passed, and the last one is taken all the same. -/
theorem turn_pass (h0 : t ≠ 0) (hpriv : k.priv t ≠ t) (hrun : ¬Runnable k t)
    (hs : k.state t = .TASK_DEAD → stray t ≠ none) :
    get_useful_task_body stray (k, t) =
      if k.next t = 0 then .done (some (passed t k, t)) else .cont (passed t k, k.next t) := by
  have hburied : (if k.state t = .TASK_DEAD then bury stray t k else some k) = some (passed t k) := by
    unfold passed
    by_cases hdead : k.state t = .TASK_DEAD
    · obtain ⟨x, hx⟩ := Option.ne_none_iff_exists'.1 (hs hdead)
      rw [if_pos hdead, if_pos hdead, bury, hx, Option.map_some]
    · rw [if_neg hdead, if_neg hdead]
  have hstate : (passed t k).state t = k.state t := passed_field (·.state) (fun _ _ => rfl) (fun _ _ => rfl) t
  have hwake : wake_time ((passed t k).tasks t) = wake_time (k.tasks t) :=
    passed_field wake_time (fun _ _ => rfl) (fun _ _ => rfl) t
  obtain ⟨hready, hwait⟩ := not_or.1 hrun
  simp only [get_useful_task_body, if_neg h0, hburied, hstate, if_neg hready, hwake, passed_timer, if_neg hwait,
    passed_next hpriv]

theorem turn_found (stray : Nat → Option Nat) (h0 : t ≠ 0) (hrun : Runnable k t) :
    ∃ k', get_useful_task_body stray (k, t) = .done (some (k', t)) ∧ (k' = k ∨ k' = k.set_state t .TASK_READY) := by
  have hdead : ¬k.state t = .TASK_DEAD := by
    rcases hrun with h | h <;> simp [h]
  by_cases hready : k.state t = .TASK_READY
  · refine ⟨k, ?_, .inl rfl⟩
    simp only [get_useful_task_body, if_neg h0, if_neg hdead, if_pos hready]
  · refine ⟨_, ?_, .inr rfl⟩
    simp only [get_useful_task_body, if_neg h0, if_neg hdead, if_neg hready, if_pos (hrun.resolve_left hready)]

end Turn

/-! ## The walk -/

/-- The walk has left `us` behind and is at the head of `vs`. -/
structure Walked (k : Kernel) (us vs : List Nat) (k₁ : Kernel) : Prop where
  pool : Pool k₁ (us.filter (fun t => k.state t ≠ .TASK_DEAD) ++ vs)
  state : ∀ t, k₁.state t = k.state t
  wake : ∀ t, wake_time (k₁.tasks t) = wake_time (k.tasks t)
  timer : k₁.scheduler_timer = k.scheduler_timer
  death : k₁.Death_task_List = (us.filter fun t => k.state t = .TASK_DEAD).reverse ++ k.Death_task_List
  alive : k₁.Task_List = k.Task_List.filter fun u => u ∉ us.filter fun t => k.state t = .TASK_DEAD

section Walk
variable {stray : Nat → Option Nat} {k k₁ : Kernel} {xs us vs : List Nat} {t : Nat}

theorem Walked.runnable (h : Walked k us vs k₁) (t : Nat) : Runnable k₁ t ↔ Runnable k t := by
  simp only [Runnable, h.state, h.wake, h.timer]

theorem Walked.start (h : Pool k xs) : Walked k [] xs k := ⟨h, fun _ => rfl, fun _ => rfl, rfl, rfl, by simp⟩

theorem Walked.skip (h : Walked k us (t :: vs) k₁) (ht : k.state t ≠ .TASK_DEAD) : Walked k (us ++ [t]) vs k₁ := by
  refine ⟨?_, h.state, h.wake, h.timer, ?_, ?_⟩
  · have := h.pool
    simpa [List.filter_append, ht] using this
  · simpa [List.filter_append, ht] using h.death
  · simpa [List.filter_append, ht] using h.alive

/-- A dead task that is not the only one left goes to the death list. -/
theorem Walked.bury (hr : Registered k xs) (hxs : xs = us ++ t :: vs) (hnd : xs.Nodup) (h : Walked k us (t :: vs) k₁)
    (ht : k.state t = .TASK_DEAD) (hne : us.filter (fun t => k.state t ≠ .TASK_DEAD) ≠ [] ∨ vs ≠ []) :
    Walked k (us ++ [t]) vs (__Kill_Task (remove_task_from_pool t k₁) t) := by
  have htu : t ∉ us := by
    rw [hxs] at hnd
    exact fun hm => (List.nodup_append.1 hnd).2.2 t hm t (by simp) rfl
  obtain ⟨hT, hD, htimer⟩ := remove_lists k₁ t
  have hpool := h.pool.remove hne
  refine ⟨?_, ?_, ?_, ?_, ?_, ?_⟩
  · have e : (us ++ [t]).filter (fun t => k.state t ≠ .TASK_DEAD) ++ vs =
        us.filter (fun t => k.state t ≠ .TASK_DEAD) ++ vs := by simp [List.filter_append, ht]
    rw [e]
    exact ⟨hpool.chain, hpool.head, hpool.nonnull, hpool.nodup, hpool.sorted⟩
  · intro u
    exact (remove_field (·.state) (fun _ _ => rfl) (fun _ _ => rfl) k₁ t u).trans (h.state u)
  · intro u
    exact (remove_field wake_time (fun _ _ => rfl) (fun _ _ => rfl) k₁ t u).trans (h.wake u)
  · exact htimer.trans h.timer
  · have hnot : t ∉ k₁.Death_task_List := by
      rw [h.death]
      simp only [List.mem_append, List.mem_reverse, List.mem_filter, not_or, not_and]
      exact ⟨fun hm => absurd hm htu, hr.not_dead t (by simp [hxs])⟩
    show t :: (remove_task_from_pool t k₁).Death_task_List.erase t = _
    rw [hD, List.erase_of_not_mem hnot, h.death]
    simp [List.filter_append, ht]
  · show (remove_task_from_pool t k₁).Task_List.erase t = _
    rw [hT, h.alive, (hr.nodup.filter _).erase_eq_filter, List.filter_filter]
    refine List.filter_congr fun u _ => ?_
    simp only [List.filter_append, List.mem_append, List.mem_filter, ht, decide_true, List.filter_cons_of_pos,
      List.filter_nil, List.mem_singleton, not_or, Bool.decide_and, decide_not, Bool.and_comm]
    by_cases hu : u = t <;> simp [hu]

/-- One turn of the walk, at a task that may not run. -/
theorem walk_step (stray : Nat → Option Nat) (hr : Registered k xs) (hxs : xs = us ++ t :: vs) (hnd : xs.Nodup) (h : Walked k us (t :: vs) k₁)
    (ht : ¬Runnable k t) :
    (k.state t = .TASK_DEAD ∧ stray t = none ∧ get_useful_task_body stray (k₁, t) = .done none) ∨
      ((k.state t = .TASK_DEAD → stray t ≠ none) ∧ ∃ k₂,
        ((k.state t ≠ .TASK_DEAD ∨ vs ≠ []) → Walked k (us ++ [t]) vs k₂) ∧
        get_useful_task_body stray (k₁, t) = if vs = [] then .done (some (k₂, t)) else .cont (k₂, vs.headD 0)) := by
  have ht0 : t ≠ 0 := by
    rintro rfl
    exact h.pool.nonnull (by simp)
  have hnext : k₁.next t = vs.headD 0 := (Chain.split.1 h.pool.chain).2.1.2
  have hend : vs.headD 0 = 0 ↔ vs = [] := by
    cases vs with
    | nil => simp
    | cons v vs => simpa using fun hv : v = 0 => h.pool.nonnull (by simp [hv])
  by_cases hfault : k.state t = .TASK_DEAD ∧ stray t = none
  · exact .inl ⟨hfault.1, hfault.2, turn_fault ht0 ((h.state t).trans hfault.1) hfault.2⟩
  · have hs : k.state t = .TASK_DEAD → stray t ≠ none := fun hdead hnone => hfault ⟨hdead, hnone⟩
    have hturn := turn_pass ht0 h.pool.priv_ne (mt (h.runnable t).1 ht) (by rwa [h.state t])
    refine .inr ⟨hs, passed t k₁, fun hne => ?_, ?_⟩
    · unfold passed
      rw [h.state t]
      split
      · rename_i hdead
        exact h.bury hr hxs hnd hdead (.inr (hne.resolve_left (fun hc => hc hdead)))
      · rename_i hdead
        exact h.skip hdead
    · rw [hturn, hnext]
      simp only [hend]

/-- What the walk from `vs` on comes to. -/
inductive Ends (stray : Nat → Option Nat) (k : Kernel) (us vs : List Nat) : Option (Kernel × Nat) → Prop
  | fault {t : Nat} : t ∈ buried k vs → stray t = none → Ends stray k us vs none
  | found (as bs : List Nat) {t : Nat} {k₂ k₃ : Kernel} : vs = as ++ t :: bs → (∀ w ∈ as, ¬Runnable k w) →
      Runnable k t → (∀ w ∈ as, k.state w = .TASK_DEAD → stray w ≠ none) → Walked k (us ++ as) (t :: bs) k₂ →
      (k₃ = k₂ ∨ k₃ = k₂.set_state t .TASK_READY) → Ends stray k us vs (some (k₃, t))
  | last {t : Nat} {k₂ : Kernel} : vs.getLast? = some t → (∀ w ∈ vs, ¬Runnable k w) →
      (∀ w ∈ vs, k.state w = .TASK_DEAD → stray w ≠ none) → (k.state t ≠ .TASK_DEAD → Walked k (us ++ vs) [] k₂) →
      Ends stray k us vs (some (k₂, t))

theorem buried_cons (ht : ¬Runnable k t) : buried k (t :: vs) =
    if k.state t = .TASK_DEAD then t :: buried k vs else buried k vs := by
  unfold buried
  rw [List.takeWhile_cons_of_pos (by simpa using ht), List.filter_cons]
  simp

theorem walk (stray : Nat → Option Nat) (hr : Registered k xs) (hxs : xs = us ++ vs) (hnd : xs.Nodup) (h : Walked k us vs k₁) (hne : vs ≠ [])
    {fuel : Nat} (hf : vs.length < fuel) :
    ∃ r, loop (get_useful_task_body stray) fuel (k₁, vs.headD 0) = some r ∧ Ends stray k us vs r := by
  induction vs generalizing us k₁ fuel with
  | nil => exact absurd rfl hne
  | cons t vs ih =>
    obtain ⟨fuel, rfl⟩ : ∃ n, fuel = n + 1 := ⟨fuel - 1, by simp at hf; omega⟩
    rw [List.headD_cons]
    by_cases ht : Runnable k t
    · have ht0 : t ≠ 0 := by
        rintro rfl
        exact h.pool.nonnull (by simp)
      obtain ⟨k₃, hturn, hk₃⟩ := turn_found stray ht0 ((h.runnable t).2 ht)
      exact ⟨_, loop_done hturn fuel, .found [] vs rfl (by simp) ht (by simp) (by simpa using h) hk₃⟩
    · rcases walk_step stray hr hxs hnd h ht with ⟨hdead, hs, hturn⟩ | ⟨hs, k₂, hw, hturn⟩
      · refine ⟨none, loop_done hturn fuel, .fault ?_ hs⟩
        rw [buried_cons ht, if_pos hdead]
        exact List.mem_cons_self
      · by_cases hvs : vs = []
        · subst hvs
          rw [if_pos rfl] at hturn
          exact ⟨_, loop_done hturn fuel, .last rfl (by simpa using ht) (by simpa using hs)
            fun hd => hw (.inl hd)⟩
        · rw [if_neg hvs] at hturn
          rw [loop_cont hturn]
          obtain ⟨r, hl, he⟩ := ih (show xs = (us ++ [t]) ++ vs by simp [hxs]) (hw (.inr hvs)) hvs (by simp at hf; omega)
          refine ⟨r, hl, ?_⟩
          cases he with
          | fault hm hf =>
            refine .fault (by rw [buried_cons ht]; split <;> simp [hm]) hf
          | found as bs heq hno hrun hstray hwalk hk₃ =>
            refine .found (t :: as) bs (by rw [heq]; rfl) ?_ hrun ?_ (by simpa using hwalk) hk₃
            · exact List.forall_mem_cons.2 ⟨ht, hno⟩
            · exact List.forall_mem_cons.2 ⟨hs, hstray⟩
          | last hlast hno hstray hwalk =>
            refine .last ?_ (List.forall_mem_cons.2 ⟨ht, hno⟩) (List.forall_mem_cons.2 ⟨hs, hstray⟩) (by simpa using hwalk)
            rw [List.getLast?_cons, hlast]
            rfl

/-! ## The call -/

/-- The first task that may run is where the tasks that may not end. -/
theorem takeWhile_first {as bs : List Nat} (has : ∀ w ∈ as, ¬Runnable k w) (ht : Runnable k t) :
    ((as ++ t :: bs).takeWhile fun w => ¬Runnable k w) = as := by
  rw [List.takeWhile_append_of_pos (by simpa using has), List.takeWhile_cons_of_neg (by simpa using ht), List.append_nil]

theorem buried_none (h : ∀ w ∈ xs, ¬Runnable k w) : buried k xs = xs.filter fun t => k.state t = .TASK_DEAD := by
  rw [buried, List.takeWhile_eq_self_iff.2 (by simpa using h)]

/-- Links, lists and priorities as they were. -/
structure SamePool (k k' : Kernel) : Prop where
  next : k'.next = k.next
  priv : k'.priv = k.priv
  priority : k'.priority = k.priority
  head : k'.task_head = k.task_head
  death : k'.Death_task_List = k.Death_task_List
  alive : k'.Task_List = k.Task_List

theorem SamePool.refl (k : Kernel) : SamePool k k := ⟨rfl, rfl, rfl, rfl, rfl, rfl⟩

theorem SamePool.trans {k₂ k₃ : Kernel} (h : SamePool k k₂) (h' : SamePool k₂ k₃) : SamePool k k₃ :=
  ⟨h'.next.trans h.next, h'.priv.trans h.priv, h'.priority.trans h.priority, h'.head.trans h.head,
    h'.death.trans h.death, h'.alive.trans h.alive⟩

theorem SamePool.state (k : Kernel) (t : Nat) (s : task_state) : SamePool k (k.set_state t s) :=
  ⟨funext (k.field_modify t (·.next) _ fun _ => rfl), funext (k.field_modify t (·.priv) _ fun _ => rfl),
    funext (k.field_modify t (·.priority) _ fun _ => rfl), rfl, rfl, rfl⟩

theorem SamePool.time (k : Kernel) (t : Nat) (v : BitVec 32) : SamePool k (k.set_time t v) :=
  ⟨funext (k.field_modify t (·.next) _ fun _ => rfl), funext (k.field_modify t (·.priv) _ fun _ => rfl),
    funext (k.field_modify t (·.priority) _ fun _ => rfl), rfl, rfl, rfl⟩

theorem SamePool.pool {k' : Kernel} (hs : SamePool k k') (h : Pool k xs) : Pool k' xs :=
  h.congr (fun t _ => by rw [hs.next]) (fun t _ => by rw [hs.priv]) (fun t _ => by rw [hs.priority]) hs.head

/-- What `Preemptive_scheduling` does with the task found. -/
theorem scheduling_found {fuel : Nat} {k₂ : Kernel}
    (h : loop (get_useful_task_body stray) fuel (tick k, k.task_head) = some (some (k₂, t))) :
    ∃ k', Preemptive_scheduling fuel stray k = some (k', t) ∧ SamePool k₂ k' := by
  have hrun : get_useful_task fuel stray k.task_head (tick k) = some (k₂, t) := by
    rw [get_useful_task, h, Option.join_some]
  unfold Preemptive_scheduling
  show ∃ k', (get_useful_task fuel stray k.task_head (tick k)).map _ = _ ∧ _
  rw [hrun, Option.map_some]
  dsimp only
  by_cases hcur : t = k₂.current_task
  · exact ⟨k₂, by rw [if_neg (by simpa using hcur)], .refl _⟩
  · by_cases h0 : k₂.current_task = 0
    · exact ⟨_, by rw [if_pos hcur, if_neg (by simpa using h0)], .time _ _ _⟩
    · exact ⟨_, by rw [if_pos hcur, if_pos h0], (SamePool.time _ _ _).trans (.time _ _ _)⟩

theorem scheduling_mono (stray : Nat → Option Nat) (k : Kernel) :
    FuelMono fun fuel => Preemptive_scheduling fuel stray k := by
  unfold Preemptive_scheduling get_useful_task
  simp only [Option.map_eq_bind]
  exact (FuelMono.loop _ _).join.bind fun _ => .const _

/-- One result decides whether the call is safe. -/
theorem safe_iff {fuel : Nat} {k' : Kernel} (h : Preemptive_scheduling fuel stray k = some (k', t)) :
    SelectSafe stray k xs ↔ Selects (tick k) xs k' t := by
  constructor
  · rintro ⟨fuel', k'', t', hrun, hsel⟩
    obtain ⟨rfl, rfl⟩ := Prod.mk.inj ((scheduling_mono stray k).det hrun h)
    exact hsel
  · exact fun hsel => ⟨fuel, k', t, h, hsel⟩

theorem not_safe {fuel : Nat} (h : loop (get_useful_task_body stray) fuel (tick k, k.task_head) = some none) :
    ¬SelectSafe stray k xs := by
  rintro ⟨fuel', k', t, hrun, -⟩
  obtain ⟨r, hget, -⟩ := Option.map_eq_some_iff.1 hrun
  have := (FuelMono.loop _ _).det h (Option.join_eq_some_iff.1 hget)
  cases this

/-- Where the walk has been, without the dead tasks. -/
theorem Walked.kept {k₂ k' : Kernel} {as bs : List Nat} (hnd : (as ++ bs).Nodup) (h : Walked k as bs k₂)
    (hs : SamePool k₂ k') (hb : buried k (as ++ bs) = as.filter fun t => k.state t = .TASK_DEAD) :
    Pool k' ((as ++ bs).filter fun u => u ∉ buried k (as ++ bs)) ∧
      k'.Death_task_List = (buried k (as ++ bs)).reverse ++ k.Death_task_List ∧
      k'.Task_List = k.Task_List.filter fun u => u ∉ buried k (as ++ bs) := by
  rw [hb]
  refine ⟨?_, hs.death.trans h.death, hs.alive.trans h.alive⟩
  have e : ((as ++ bs).filter fun u => u ∉ as.filter fun t => k.state t = .TASK_DEAD) =
      as.filter (fun t => k.state t ≠ .TASK_DEAD) ++ bs := by
    rw [List.filter_append]
    congr 1
    · refine List.filter_congr fun u hu => ?_
      simp [hu]
    · refine List.filter_eq_self.2 fun u hu => ?_
      have : u ∉ as := fun hm => (List.nodup_append.1 hnd).2.2 u hm u hu rfl
      simp [this]
  rw [e]
  exact hs.pool h.pool

/-- `Preemptive_scheduling` takes the first task that may run, and buries the
dead ones before it, exactly if there is one or the last task can be taken
instead, and no stray read faults. -/
theorem preemptive_selects (hp : Pool k xs) (hr : Registered k xs) : SelectSafe stray k xs ↔ SelectFits stray k xs := by
  have hp' : Pool (tick k) xs := ⟨hp.chain, hp.head, hp.nonnull, hp.nodup, hp.sorted⟩
  have hr' : Registered (tick k) xs := ⟨hr.nodup, hr.alive, hr.not_dead⟩
  by_cases hne : xs = []
  · -- Without a head the walk starts at `NULL`.
    subst hne
    have hturn : get_useful_task_body stray (tick k, k.task_head) = .done none := by
      simp [get_useful_task_body, show k.task_head = 0 from hp.head]
    apply iff_of_false (not_safe (loop_done hturn 0))
    rintro ⟨⟨t, ht, -⟩ | ⟨t, ht, -⟩, -⟩
    · cases ht
    · cases ht
  obtain ⟨r, hl, hends⟩ := walk stray hr' rfl hp.nodup (.start hp') hne (Nat.lt_succ_self _)
  rw [← hp.head] at hl
  cases hends with
  | fault ht hs =>
    exact iff_of_false (not_safe hl) fun hfit => hfit.2 _ ht hs
  | found as bs heq hno hrun hstray hwalk hk₃ =>
    rename_i t k₂ k₃
    obtain ⟨k', hsome, hsame⟩ := scheduling_found hl
    have hsame' : SamePool k₂ k' := by
      rcases hk₃ with rfl | rfl
      · exact hsame
      · exact (SamePool.state _ _ _).trans hsame
    have hb : buried (tick k) xs = as.filter fun t => (tick k).state t = .TASK_DEAD := by
      rw [heq, buried, takeWhile_first hno hrun]
    subst heq
    obtain ⟨h1, h2, h3⟩ := hwalk.kept hp.nodup hsame' hb
    refine iff_of_true ((safe_iff hsome).2 ⟨fun us u vs hsplit hus hu => ?_, ?_, h1, h2, h3⟩) ⟨.inl ⟨t, by simp, hrun⟩, ?_⟩
    · have htake := congrArg (List.takeWhile fun w => ¬Runnable (tick k) w) hsplit
      rw [takeWhile_first hno hrun, takeWhile_first hus hu] at htake
      subst htake
      exact (List.cons.inj (List.append_cancel_left hsplit)).1
    · rcases hrun with hst | ⟨hst, hwake⟩
      · simp [hst]
      · simp [hst, hwake]
    · rw [hb]
      intro w hw
      obtain ⟨hw, hdead⟩ := List.mem_filter.1 hw
      exact hstray w hw (by simpa using hdead)
  | last hlast hno hstray hwalk =>
    rename_i t k₂
    obtain ⟨k', hsome, hsame⟩ := scheduling_found hl
    have hmem : t ∈ xs := List.mem_of_getLast? hlast
    have hb := buried_none hno
    rw [safe_iff hsome]
    constructor
    · intro hsel
      refine ⟨.inr ⟨t, hlast, ?_⟩, ?_⟩
      · have hnot := not_or.1 (hno t hmem)
        obtain ⟨h1, h2, h3, h4⟩ := hsel.never
        have hst : (tick k).state t = k.state t := rfl
        rw [hst] at h1 h2 h3 h4 hnot
        cases hc : k.state t with
        | TASK_CREATE => exact .inl rfl
        | TASK_RUNNING => exact .inr rfl
        | TASK_READY => exact absurd hc hnot.1
        | TASK_WAITING => exact absurd ⟨hc, h4 hc⟩ hnot.2
        | TASK_BLOCKED => exact absurd hc h2
        | TASK_DEAD => exact absurd hc h1
        | TASK_BROKEN => exact absurd hc h3
      · intro w hw
        rw [hb] at hw
        obtain ⟨hw, hdead⟩ := List.mem_filter.1 hw
        exact hstray w hw (by simpa using hdead)
    · rintro ⟨⟨u, hu, hrun⟩ | ⟨u, hu, hst⟩, -⟩
      · exact absurd hrun (hno u hu)
      · obtain rfl : t = u := Option.some.inj (hlast.symm.trans hu)
        have hst' : (tick k).state t = .TASK_CREATE ∨ (tick k).state t = .TASK_RUNNING := hst
        have hw := hwalk (by rcases hst' with h | h <;> simp [h])
        have e : xs ++ [] = xs := List.append_nil xs
        obtain ⟨h1, h2, h3⟩ := hw.kept (by rw [List.nil_append, e]; exact hp.nodup) hsame (by simpa using hb)
        simp only [List.nil_append, List.append_nil] at h1 h2 h3
        refine ⟨fun us u vs hsplit _ hu' => absurd hu' (hno u (by simp [hsplit])), ?_, h1, h2, h3⟩
        rcases hst' with h | h <;> simp [h]

/-- The pool `[1, 2]` with task 2 ready and task 1 in the given state. -/
def two_tasks (first second : task_state) : Kernel where
  tasks t := ⟨if t = 1 then first else second, 5, 0, 0, if t = 2 then 1 else 0, if t = 1 then 2 else 0⟩
  task_head := 1
  current_task := 0
  scheduler_timer := 0
  Task_List := [1, 2]
  Death_task_List := []

theorem two_pool (first second : task_state) : Pool (two_tasks first second) [1, 2] :=
  ⟨⟨rfl, rfl, rfl, rfl, trivial⟩, rfl, by decide, by decide, by simp [Kernel.priority, two_tasks]⟩

theorem two_registered (first second : task_state) : Registered (two_tasks first second) [1, 2] :=
  ⟨by simp [two_tasks], by simp [two_tasks], by simp [two_tasks]⟩

theorem preemptive_selects_ready : SelectSafe (fun _ => some 0) (two_tasks .TASK_DEAD .TASK_READY) [1, 2] :=
  (preemptive_selects (two_pool _ _) (two_registered _ _)).2 ⟨.inl ⟨2, by simp, .inl rfl⟩, by simp⟩

/-- With no task that may run, the last one is returned although it is blocked. -/
theorem preemptive_selects_blocked : ¬∀ (stray : Nat → Option Nat) (k : Kernel) (xs : List Nat), xs ≠ [] →
    (∀ t, stray t ≠ none) → Pool k xs → Registered k xs → SelectSafe stray k xs := by
  intro hall
  obtain ⟨fuel, k', t, hrun, hsel⟩ := hall (fun _ => some 0) (two_tasks .TASK_BLOCKED .TASK_BLOCKED) [1, 2] (by simp)
    (by simp) (two_pool _ _) (two_registered _ _)
  exact hsel.never.2.1 (by simp [tick, Kernel.state, two_tasks])

end Walk

end McLinOS.Sched
