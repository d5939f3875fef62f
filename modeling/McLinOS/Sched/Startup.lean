import Mathlib.Data.Fintype.Card
import Mathlib.Logic.Function.Basic
import McLinOS.CLib.Mem
/-!
# How the cores start

Every core ends its start in `current_sched_start`. The cores count themselves in
`Scheduler_Lock1`, without a lock, and `i_sched` does nothing before the count is
complete. The tick comes to core 0 and rings a doorbell for core 1. A step is one access
to what the cores share, or one interrupt.
-/
open CLib

set_option linter.style.nameCheck false

namespace McLinOS.Startup

inductive Flag where
  | BLOCKED
  | RUN
  deriving DecidableEq, Repr

/-- Where a core is in `current_sched_start`. `Scheduler_Lock1++` is a load and a store. -/
inductive Phase where
  | boot
  | flagged
  | loaded (count : Nat)
  | started
  deriving DecidableEq, Repr

structure State where
  phase : Nat → Phase
  s_flag : Nat → Flag
  /-- Is `PendSV` pending on the core? -/
  pendsv : Nat → Bool
  doorbell : Bool
  Scheduler_Lock : Flag
  Scheduler_Lock1 : Nat

/-! ## ctrl.c, time.c and msp_init.c -/

variable (CONFIG_CPU_NUM : Nat)

/-- On core `k`. -/
def i_sched (s : State) (k : Nat) : Int × State :=
  if s.Scheduler_Lock = .RUN ∧ s.Scheduler_Lock1 = CONFIG_CPU_NUM then (0, { s with pendsv := Function.update s.pendsv k true })
  else (-1, s)

/-- From the tick, so on core 0. -/
def call_mulit_core_scheduler (s : State) (cpu_number : Nat) : State :=
  if cpu_number = 0 then (i_sched CONFIG_CPU_NUM s 0).2
  else if cpu_number = 1 then { s with doorbell := true }
  else s

def Cpu1_sched_Handler (s : State) : State := (i_sched CONFIG_CPU_NUM { s with doorbell := false } 1).2

/-- Does `Scheduler_Task` go to the next task? -/
def Scheduler_Task_runs (s : State) (k : Nat) : Bool := s.s_flag k ≠ .BLOCKED

inductive Event where
  /-- `curren_scheduler->s_flag = SCHEDULER_RUN` in `current_sched_start`. -/
  | set_flag (k : Nat)
  | load_lock1 (k : Nat)
  | store_lock1 (k : Nat)
  /-- A turn of the loop in `sys_tick_hander`. -/
  | tick (i : Nat)
  | doorbell
  /-- `i_sched` from a system call or from the error handler. -/
  | sched (k : Nat)
  | pendsv (k : Nat)
  | block_scheduler (k : Nat)
  | run_scheduler (k : Nat)
  | stop_all_scheduler
  | start_all_scheduler
  deriving DecidableEq, Repr

def State.goto (s : State) (k : Nat) (p : Phase) : State := { s with phase := Function.update s.phase k p }

def State.flag (s : State) (k : Nat) (f : Flag) : State := { s with s_flag := Function.update s.s_flag k f }

def step (s : State) : Event → Option State
  | .set_flag k => if k < CONFIG_CPU_NUM ∧ s.phase k = .boot then some ((s.flag k .RUN).goto k .flagged) else none
  | .load_lock1 k => if s.phase k = .flagged then some (s.goto k (.loaded s.Scheduler_Lock1)) else none
  | .store_lock1 k =>
    match s.phase k with
    | .loaded count => some ({ s with Scheduler_Lock1 := count + 1 }.goto k .started)
    | _ => none
  | .tick i =>
    if i < CONFIG_CPU_NUM then some (if s.s_flag i ≠ .BLOCKED then call_mulit_core_scheduler CONFIG_CPU_NUM s i else s) else none
  | .doorbell => if s.doorbell then some (Cpu1_sched_Handler CONFIG_CPU_NUM s) else none
  | .sched k => some (i_sched CONFIG_CPU_NUM s k).2
  | .pendsv k => if s.pendsv k then some { s with pendsv := Function.update s.pendsv k false } else none
  | .block_scheduler k => some (s.flag k .BLOCKED)
  | .run_scheduler k => some (s.flag k .RUN)
  | .stop_all_scheduler => some { s with Scheduler_Lock := .BLOCKED }
  | .start_all_scheduler => some { s with Scheduler_Lock := .RUN }

/-- Does the event store a count that is not the next one? -/
def loses (s : State) : Event → Bool
  | .store_lock1 k =>
    match s.phase k with
    | .loaded count => count ≠ s.Scheduler_Lock1
    | _ => false
  | _ => false

/-- Nothing has started. -/
def Init (s : State) : Prop :=
  (∀ k, s.phase k = .boot) ∧ (∀ k, s.pendsv k = false) ∧ s.doorbell = false ∧ s.Scheduler_Lock = .RUN ∧ s.Scheduler_Lock1 = 0

/-- A state of a run, and whether a count was lost on the way. -/
inductive Run : Bool → State → Prop where
  | boot {s : State} : Init s → Run false s
  | step {lost : Bool} {s s' : State} (e : Event) : Run lost s → step CONFIG_CPU_NUM s e = some s' → Run (lost || loses s e) s'

/-- `PendSV` is taken on the core, and a task gets it. -/
def Switches (s : State) (k : Nat) : Prop := s.pendsv k = true ∧ Scheduler_Task_runs s k = true

/-! ## Counting -/

variable {CONFIG_CPU_NUM}

/-- How many cores have counted themselves. -/
def count_started (n : Nat) (phase : Nat → Phase) : Nat := ((Finset.range n).filter fun k => phase k = .started).card

theorem count_started_le (n : Nat) (phase : Nat → Phase) : count_started n phase ≤ n :=
  (Finset.card_filter_le _ _).trans_eq (Finset.card_range n)

theorem count_started_full {n : Nat} {phase : Nat → Phase} : count_started n phase = n ↔ ∀ k < n, phase k = .started := by
  have hcard : count_started n phase = n ↔ (Finset.range n).filter (fun k => phase k = .started) = Finset.range n := by
    refine ⟨fun h => Finset.eq_of_subset_of_card_le (Finset.filter_subset _ _) ?_, fun h => ?_⟩
    · rw [Finset.card_range]
      exact h.ge
    · rw [count_started, h, Finset.card_range]
  rw [hcard, Finset.filter_eq_self]
  exact ⟨fun h k hk => h k (Finset.mem_range.2 hk), fun h k hk => h k (Finset.mem_range.1 hk)⟩

/-- A core that moves without getting there or leaving. -/
theorem count_started_same {n k : Nat} {phase : Nat → Phase} {p : Phase} (hk : phase k ≠ .started) (hp : p ≠ .started) :
    count_started n (Function.update phase k p) = count_started n phase := by
  unfold count_started
  congr 1
  apply Finset.filter_congr
  intro j _
  by_cases hj : j = k
  · subst hj
    rw [Function.update_self]
    exact ⟨fun h => absurd h hp, fun h => absurd h hk⟩
  · rw [Function.update_of_ne hj]

theorem count_started_succ {n k : Nat} {phase : Nat → Phase} (hn : k < n) (hk : phase k ≠ .started) :
    count_started n (Function.update phase k .started) = count_started n phase + 1 := by
  have hset : (Finset.range n).filter (fun j => Function.update phase k .started j = .started) =
      insert k ((Finset.range n).filter fun j => phase j = .started) := by
    ext j
    rw [Finset.mem_insert, Finset.mem_filter, Finset.mem_filter, Finset.mem_range]
    by_cases hj : j = k
    · subst hj
      rw [Function.update_self]
      exact ⟨fun _ => .inl rfl, fun _ => ⟨hn, rfl⟩⟩
    · rw [Function.update_of_ne hj]
      exact ⟨.inr, fun h => h.resolve_left hj⟩
  unfold count_started
  rw [hset, Finset.card_insert_of_notMem]
  intro h
  exact hk (Finset.mem_filter.1 h).2

/-- The count is never ahead. It falls behind with the first count that is lost, and stays behind, whoever has loaded what. -/
structure Inv (n : Nat) (lost : Bool) (s : State) : Prop where
  inside : ∀ k, s.phase k ≠ .boot → k < n
  exact : lost = false → s.Scheduler_Lock1 = count_started n s.phase
  behind : lost = true → s.Scheduler_Lock1 < count_started n s.phase
  loaded : ∀ k c, s.phase k = .loaded c → c ≤ count_started n s.phase
  stale : lost = true → ∀ k c, s.phase k = .loaded c → c < count_started n s.phase
  complete : ∀ k, s.pendsv k = true → count_started n s.phase = n ∧ lost = false

theorem init_inv {n : Nat} {s : State} (h : Init s) : Inv n false s := by
  obtain ⟨hboot, hpend, -, -, hcount⟩ := h
  have hnone : count_started n s.phase = 0 := by
    unfold count_started
    rw [Finset.card_eq_zero, Finset.filter_eq_empty_iff]
    intro k _
    rw [hboot k]
    exact Phase.noConfusion
  refine ⟨fun k hk => absurd (hboot k) hk, fun _ => hcount.trans hnone.symm, fun h => Bool.noConfusion h, ?_, fun h => Bool.noConfusion h, ?_⟩
  · intro k c hk
    rw [hboot k] at hk
    cases hk
  · intro k hk
    rw [hpend k] at hk
    cases hk

/-! ## A step -/

/-- What a step does to the count, and to the cores that wait for a switch. -/
inductive Stepped (n : Nat) (s s' : State) : Bool → Prop where
  | other : s'.phase = s.phase → s'.Scheduler_Lock1 = s.Scheduler_Lock1 →
      (∀ k, s'.pendsv k = true → s.pendsv k = true ∨ s.Scheduler_Lock1 = n) → Stepped n s s' false
  | flag (k : Nat) : k < n → s.phase k = .boot → s'.phase = Function.update s.phase k .flagged →
      s'.Scheduler_Lock1 = s.Scheduler_Lock1 → s'.pendsv = s.pendsv → Stepped n s s' false
  | load (k : Nat) : s.phase k = .flagged → s'.phase = Function.update s.phase k (.loaded s.Scheduler_Lock1) →
      s'.Scheduler_Lock1 = s.Scheduler_Lock1 → s'.pendsv = s.pendsv → Stepped n s s' false
  | store (k c : Nat) : s.phase k = .loaded c → s'.phase = Function.update s.phase k .started →
      s'.Scheduler_Lock1 = c + 1 → s'.pendsv = s.pendsv → Stepped n s s' (decide (c ≠ s.Scheduler_Lock1))

theorem i_sched_stepped (n : Nat) (s : State) (k : Nat) : Stepped n s (i_sched n s k).2 false := by
  unfold i_sched
  split
  · rename_i h
    refine .other rfl rfl fun j hj => ?_
    exact .inr h.2
  · exact .other rfl rfl fun j hj => .inl hj

theorem step_cases {n : Nat} {s s' : State} {e : Event} (h : step n s e = some s') : Stepped n s s' (loses s e) := by
  have hsame : ∀ {t : State}, t.phase = s.phase → t.Scheduler_Lock1 = s.Scheduler_Lock1 → t.pendsv = s.pendsv → Stepped n s t false :=
    fun hp hl hpend => .other hp hl fun k hk => .inl (hpend ▸ hk)
  cases e with
  | set_flag k =>
    obtain ⟨hk, h⟩ := Option.ite_none_right_eq_some.1 h
    cases h
    exact .flag k hk.1 hk.2 rfl rfl rfl
  | load_lock1 k =>
    obtain ⟨hk, h⟩ := Option.ite_none_right_eq_some.1 h
    cases h
    exact .load k hk rfl rfl rfl
  | store_lock1 k =>
    simp only [step, loses] at h ⊢
    split at h
    · rename_i c hc
      cases h
      exact .store k c hc rfl rfl rfl
    · cases h
  | tick i =>
    obtain ⟨-, h⟩ := Option.ite_none_right_eq_some.1 h
    cases h
    split
    · unfold call_mulit_core_scheduler
      split
      · exact i_sched_stepped n s 0
      · split
        · exact hsame rfl rfl rfl
        · exact hsame rfl rfl rfl
    · exact hsame rfl rfl rfl
  | doorbell =>
    obtain ⟨-, h⟩ := Option.ite_none_right_eq_some.1 h
    cases h
    unfold Cpu1_sched_Handler i_sched
    split
    · rename_i hready
      exact .other rfl rfl fun k hk => .inr hready.2
    · exact hsame rfl rfl rfl
  | sched k =>
    cases h
    exact i_sched_stepped n s k
  | pendsv k =>
    obtain ⟨-, h⟩ := Option.ite_none_right_eq_some.1 h
    cases h
    refine .other rfl rfl fun j hj => .inl ?_
    dsimp only at hj
    by_cases hjk : j = k
    · subst hjk
      rw [Function.update_self] at hj
      cases hj
    · rwa [Function.update_of_ne hjk] at hj
  | block_scheduler k =>
    cases h
    exact hsame rfl rfl rfl
  | run_scheduler k =>
    cases h
    exact hsame rfl rfl rfl
  | stop_all_scheduler =>
    cases h
    exact hsame rfl rfl rfl
  | start_all_scheduler =>
    cases h
    exact hsame rfl rfl rfl

/-! ## Runs -/

/-- A core that moves to a phase in which it is not counted. -/
theorem Inv.move {n : Nat} {lost : Bool} {s s' : State} (h : Inv n lost s) {k : Nat} {p : Phase} (hk : k < n) (hp : p ≠ .started)
    (hfrom : s.phase k ≠ .started) (hload : ∀ c, p = .loaded c → c = s.Scheduler_Lock1) (hphase : s'.phase = Function.update s.phase k p)
    (hcount : s'.Scheduler_Lock1 = s.Scheduler_Lock1) (hpend : s'.pendsv = s.pendsv) : Inv n lost s' := by
  have hstarted : count_started n s'.phase = count_started n s.phase := by rw [hphase, count_started_same hfrom hp]
  have hle : s.Scheduler_Lock1 ≤ count_started n s.phase := by
    cases lost with
    | false => exact (h.exact rfl).le
    | true => exact (h.behind rfl).le
  have hloaded : ∀ j c, s'.phase j = .loaded c → c = s.Scheduler_Lock1 ∨ s.phase j = .loaded c := by
    intro j c hj
    rw [hphase] at hj
    by_cases hjk : j = k
    · subst hjk
      rw [Function.update_self] at hj
      exact .inl (hload c hj)
    · rw [Function.update_of_ne hjk] at hj
      exact .inr hj
  refine ⟨?_, ?_, ?_, ?_, ?_, ?_⟩
  · intro j hj
    by_cases hjk : j = k
    · rw [hjk]
      exact hk
    · rw [hphase, Function.update_of_ne hjk] at hj
      exact h.inside j hj
  · intro hl
    rw [hcount, hstarted]
    exact h.exact hl
  · intro hl
    rw [hcount, hstarted]
    exact h.behind hl
  · intro j c hj
    rw [hstarted]
    rcases hloaded j c hj with rfl | hj
    · exact hle
    · exact h.loaded j c hj
  · intro hl j c hj
    rw [hstarted]
    rcases hloaded j c hj with rfl | hj
    · exact h.behind hl
    · exact h.stale hl j c hj
  · intro j hj
    rw [hpend] at hj
    rw [hstarted]
    exact h.complete j hj

theorem Inv.step {n : Nat} {lost lose : Bool} {s s' : State} (h : Inv n lost s) (hstep : Stepped n s s' lose) :
    Inv n (lost || lose) s' := by
  cases hstep with
  | other hphase hcount hpend =>
    rw [Bool.or_false]
    refine ⟨?_, ?_, ?_, ?_, ?_, ?_⟩
    · rw [hphase]
      exact h.inside
    · rw [hphase, hcount]
      exact h.exact
    · rw [hphase, hcount]
      exact h.behind
    · rw [hphase]
      exact h.loaded
    · rw [hphase]
      exact h.stale
    · intro k hk
      rw [hphase]
      rcases hpend k hk with hk | hfull
      · exact h.complete k hk
      · have hle := count_started_le n s.phase
        cases lost with
        | false => exact ⟨(h.exact rfl).symm.trans hfull, rfl⟩
        | true =>
          have hlt := h.behind rfl
          omega
  | flag k hk hboot hphase hcount hpend =>
    rw [Bool.or_false]
    exact h.move hk Phase.noConfusion (by rw [hboot]; exact Phase.noConfusion) (fun c hc => Phase.noConfusion hc) hphase hcount hpend
  | load k hflag hphase hcount hpend =>
    rw [Bool.or_false]
    have hk : k < n := h.inside k (by rw [hflag]; exact Phase.noConfusion)
    exact h.move hk Phase.noConfusion (by rw [hflag]; exact Phase.noConfusion) (fun c hc => (Phase.loaded.inj hc).symm) hphase hcount hpend
  | store k c hload hphase hcount hpend =>
    have hk : k < n := h.inside k (by rw [hload]; exact Phase.noConfusion)
    have hfrom : s.phase k ≠ .started := by
      rw [hload]
      exact Phase.noConfusion
    have hstarted : count_started n s'.phase = count_started n s.phase + 1 := by rw [hphase, count_started_succ hk hfrom]
    have hle := h.loaded k c hload
    have hother : ∀ j d, s'.phase j = .loaded d → s.phase j = .loaded d := by
      intro j d hj
      rw [hphase] at hj
      by_cases hjk : j = k
      · subst hjk
        rw [Function.update_self] at hj
        cases hj
      · rwa [Function.update_of_ne hjk] at hj
    refine ⟨?_, ?_, ?_, ?_, ?_, ?_⟩
    · intro j hj
      by_cases hjk : j = k
      · rw [hjk]
        exact hk
      · rw [hphase, Function.update_of_ne hjk] at hj
        exact h.inside j hj
    · intro hl
      obtain ⟨hlost, hlose⟩ := Bool.or_eq_false_iff.1 hl
      have hc : c = s.Scheduler_Lock1 := not_not.1 (of_decide_eq_false hlose)
      rw [hcount, hstarted, hc, h.exact hlost]
    · intro hl
      rw [hcount, hstarted]
      cases lost with
      | true =>
        have hlt := h.stale rfl k c hload
        omega
      | false =>
        have hc : c ≠ s.Scheduler_Lock1 := of_decide_eq_true hl
        have hexact := h.exact rfl
        omega
    · intro j d hj
      have hd := h.loaded j d (hother j d hj)
      omega
    · intro _ j d hj
      have hd := h.loaded j d (hother j d hj)
      omega
    · intro j hj
      rw [hpend] at hj
      have hfull := (h.complete j hj).1
      have hlt := count_started_le n s'.phase
      omega

theorem run_inv {n : Nat} {lost : Bool} {s : State} (h : Run n lost s) : Inv n lost s := by
  induction h with
  | boot h => exact init_inv h
  | step e _ hstep ih => exact ih.step (step_cases hstep)

/-- Whatever the order of the cores, the ticks and the calls: no core goes to a task before every core has counted itself. -/
theorem switch_after_start {n : Nat} {lost : Bool} {s : State} (h : Run n lost s) {k : Nat} (hk : Switches s k) :
    ∀ j < n, s.phase j = .started :=
  count_started_full.1 ((run_inv h).complete k hk.1).1

/-- Two cores, before they start. -/
def two_cores : State := ⟨fun _ => .boot, fun _ => .BLOCKED, fun _ => false, false, .RUN, 0⟩

theorem two_cores_init : Init two_cores := ⟨fun _ => rfl, fun _ => rfl, rfl, rfl, rfl⟩

theorem switch_after_start_two :
    ∃ s, Run 2 false s ∧ Switches s 1 ∧ ∀ j < 2, s.phase j = .started := by
  have hboot : Run 2 false two_cores := .boot two_cores_init
  have hfirst := ((hboot.step (.set_flag 0) rfl).step (.load_lock1 0) rfl).step (.store_lock1 0) rfl
  have hsecond := ((hfirst.step (.set_flag 1) rfl).step (.load_lock1 1) rfl).step (.store_lock1 1) rfl
  have htick := (hsecond.step (.tick 1) rfl).step .doorbell rfl
  exact ⟨_, htick, ⟨by decide, by decide⟩, switch_after_start (k := 1) htick ⟨by decide, by decide⟩⟩

/-- Once all cores have counted themselves, `i_sched` works if and only if no count was lost. A run that has lost one never goes to a task
on any core. -/
theorem starts_unless_lost {n : Nat} {lost : Bool} {s : State} (h : Run n lost s) :
    ((∀ j < n, s.phase j = .started) → s.Scheduler_Lock = .RUN → ∀ k, (i_sched n s k).1 = 0 ↔ lost = false) ∧
      (lost = true → ∀ k, ¬Switches s k ∧ (i_sched n s k).1 = -1) := by
  have hinv := run_inv h
  have hlost : lost = true → s.Scheduler_Lock1 ≠ n := by
    intro hl
    have hlt := hinv.behind hl
    have hle := count_started_le n s.phase
    omega
  have hno : lost = true → ∀ k, (i_sched n s k).1 = -1 := by
    intro hl k
    rw [i_sched, if_neg fun hready => hlost hl hready.2]
  refine ⟨?_, ?_⟩
  · intro hall hlock k
    cases lost with
    | false =>
      have hcount : s.Scheduler_Lock1 = n := (hinv.exact rfl).trans (count_started_full.2 hall)
      rw [i_sched, if_pos ⟨hlock, hcount⟩]
      exact iff_of_true rfl rfl
    | true =>
      rw [hno rfl k]
      exact iff_of_false (by decide) Bool.noConfusion
  · intro hl k
    refine ⟨fun hk => ?_, hno hl k⟩
    have hexact := (hinv.complete k hk.1).2
    rw [hl] at hexact
    cases hexact

/-- Both cores load the count before either stores it. -/
theorem starts_unless_lost_two :
    ∃ s, Run 2 true s ∧ (∀ j < 2, s.phase j = .started) ∧
      ((∀ j < 2, s.phase j = .started) → s.Scheduler_Lock = .RUN → ∀ k, (i_sched 2 s k).1 = 0 ↔ true = false) ∧
      (true = true → ∀ k, ¬Switches s k ∧ (i_sched 2 s k).1 = -1) := by
  have hboot : Run 2 false two_cores := .boot two_cores_init
  have hflags := (hboot.step (.set_flag 0) rfl).step (.set_flag 1) rfl
  have hloads := (hflags.step (.load_lock1 0) rfl).step (.load_lock1 1) rfl
  have hstores := (hloads.step (.store_lock1 0) rfl).step (.store_lock1 1) rfl
  exact ⟨_, hstores, by decide, starts_unless_lost hstores⟩

end McLinOS.Startup
