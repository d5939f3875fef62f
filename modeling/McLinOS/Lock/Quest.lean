import Mathlib.Logic.Function.Basic
import McLinOS.CLib.Runs
/-!
# Requests and responses in turn

`quest_lock_a` and `quest_lock_b` of `ipc/Synch_quest.c`. Any number of tasks
call them on one `quest_lock`, with any functions. `spin_lock` is a lock that at
most one task has. A task's step is one access to the lock or the key, or one
step of the function it runs.
-/
open CLib

namespace McLinOS.Quest

/-- A function that is supplied, over the shared data `D` and its own variables
`L`. It returns where it has no step, its variables then hold the result. -/
structure Fn (L D : Type) where
  start : L
  step : L → D → Option (L × D)

/-- Which of the two functions is called. -/
inductive Side where
  | a | b
  deriving DecidableEq, Repr

/-- The loop of one of them: the key it waits for, the key it leaves, and whether
it sleeps before it returns. -/
structure QuestLoop where
  waits : UInt8
  leaves : UInt8
  sleeps : Bool

def quest_lock_a : QuestLoop := { waits := 0, leaves := 1, sleeps := false }

def quest_lock_b : QuestLoop := { waits := 1, leaves := 0, sleeps := true }

def Side.loop : Side → QuestLoop
  | .a => quest_lock_a
  | .b => quest_lock_b

/-- Where a task is. -/
inductive PC (L D : Type) where
  | idle
  | spin_lock (side : Side) (fn : Fn L D)
  | test_key (side : Side) (fn : Fn L D)
  | set_key (side : Side) (fn : Fn L D)
  | call_fn (side : Side) (fn : Fn L D)
  | in_fn (side : Side) (fn : Fn L D) (l : L)
  | spin_unlock (side : Side) (data : L)
  | spin_unlock_retry (side : Side) (fn : Fn L D)
  | msleep (side : Side) (data : L)
  | msleep_retry (side : Side) (fn : Fn L D)

/-- A supplied function is called or returns. -/
inductive Event where
  | began (side : Side)
  | ended (side : Side)
  deriving DecidableEq, Repr

/-- `history` has the events so far, in order. -/
structure State (Task L D : Type) where
  lock : Option Task
  key_1 : UInt8
  pc : Task → PC L D
  data : D
  history : List Event

variable {Task L D : Type}

/-- After `quest_lock_init`, no task has called anything. -/
def quest_lock_init (data : D) : State Task L D :=
  { lock := none, key_1 := 0, pc := fun _ => .idle, data, history := [] }

section Program
variable [DecidableEq Task]

def State.goto (s : State Task L D) (t : Task) (pc : PC L D) : State Task L D :=
  { s with pc := Function.update s.pc t pc }

/-- The steps of `t`. `supplied` are the functions that may be given to each
side. -/
inductive TaskStep (supplied : Side → Fn L D → Prop) (t : Task) (s : State Task L D) : State Task L D → Prop
  | call {side fn} : s.pc t = .idle → supplied side fn → TaskStep supplied t s (s.goto t (.spin_lock side fn))
  | spin_lock {side fn} : s.pc t = .spin_lock side fn → s.lock = none →
      TaskStep supplied t s ({ s with lock := some t }.goto t (.test_key side fn))
  | test_key {side fn} : s.pc t = .test_key side fn →
      TaskStep supplied t s
        (s.goto t (if s.key_1 = side.loop.waits then .set_key side fn else .spin_unlock_retry side fn))
  | set_key {side fn} : s.pc t = .set_key side fn →
      TaskStep supplied t s ({ s with key_1 := side.loop.leaves }.goto t (.call_fn side fn))
  | call_fn {side fn} : s.pc t = .call_fn side fn →
      TaskStep supplied t s ({ s with history := s.history ++ [Event.began side] }.goto t (.in_fn side fn fn.start))
  | in_fn {side fn l l' data} : s.pc t = .in_fn side fn l → fn.step l s.data = some (l', data) →
      TaskStep supplied t s ({ s with data }.goto t (.in_fn side fn l'))
  | return_fn {side fn l} : s.pc t = .in_fn side fn l → fn.step l s.data = none →
      TaskStep supplied t s ({ s with history := s.history ++ [Event.ended side] }.goto t (.spin_unlock side l))
  | spin_unlock {side data} : s.pc t = .spin_unlock side data →
      TaskStep supplied t s ({ s with lock := none }.goto t (if side.loop.sleeps then .msleep side data else .idle))
  | msleep {side data} : s.pc t = .msleep side data → TaskStep supplied t s (s.goto t .idle)
  | spin_unlock_retry {side fn} : s.pc t = .spin_unlock_retry side fn →
      TaskStep supplied t s ({ s with lock := none }.goto t (.msleep_retry side fn))
  | msleep_retry {side fn} : s.pc t = .msleep_retry side fn →
      TaskStep supplied t s (s.goto t (.spin_lock side fn))

def Step (supplied : Side → Fn L D → Prop) (s s' : State Task L D) : Prop := ∃ t, TaskStep supplied t s s'

end Program

/-! ## Turns -/

/-- The `n`-th event when the functions take turns, one at a time. -/
def turn (n : Nat) : Event :=
  if n % 4 = 0 then .began .a else if n % 4 = 1 then .ended .a else if n % 4 = 2 then .began .b else .ended .b

def turns (n : Nat) : List Event := (List.range n).map turn

/-- How many functions given to `side` have returned. -/
def State.completed (s : State Task L D) (side : Side) : Nat := s.history.count (.ended side)

/-- The functions ran one at a time and in turns. -/
def Alternates (s : State Task L D) : Prop := ∃ n, s.history = turns n

theorem turns_succ (n : Nat) : turns (n + 1) = turns n ++ [turn n] := by
  simp [turns, List.range_succ]

theorem count_turns (n : Nat) : (turns n).count (.ended .a) = (n + 2) / 4 ∧ (turns n).count (.ended .b) = n / 4 := by
  induction n with
  | zero => decide
  | succ n ih =>
    rw [turns_succ, List.count_append, List.count_append, ih.1, ih.2]
    have h : n % 4 = 0 ∨ n % 4 = 1 ∨ n % 4 = 2 ∨ n % 4 = 3 := by omega
    rcases h with h | h | h | h <;> simp only [turn, h] <;> constructor <;> simp <;> omega

/-- The turn in which a function given to this side is called. -/
def Side.first : Side → Nat
  | .a => 0
  | .b => 2

def Side.other : Side → Side
  | .a => .b
  | .b => .a

theorem turn_began {n : Nat} {side : Side} (h : n % 4 = side.first) : turn n = .began side := by
  cases side <;> simp [turn, Side.first] at h ⊢ <;> simp [h]

theorem turn_ended {n : Nat} {side : Side} (h : n % 4 = side.first + 1) : turn n = .ended side := by
  cases side <;> simp [turn, Side.first] at h ⊢ <;> simp [h]

theorem succ_first {n : Nat} {side : Side} (h : n % 4 = side.first) : (n + 1) % 4 = side.first + 1 := by
  cases side <;> simp only [Side.first] at h ⊢ <;> omega

theorem succ_second {n : Nat} {side : Side} (h : n % 4 = side.first + 1) : (n + 1) % 4 = side.other.first := by
  cases side <;> simp only [Side.first, Side.other] at h ⊢ <;> omega

/-- The key that a side leaves is the one the other side waits for. -/
theorem leaves_eq (side : Side) : side.loop.leaves = side.other.loop.waits := by cases side <;> rfl

theorem waits_inj {side other : Side} (h : side.loop.waits = other.loop.waits) : side = other := by
  cases side <;> cases other <;> first | rfl | exact absurd h (by decide)

/-! ## What the functions do to the data -/

/-- `J` is kept by the steps of `fn`. Where it holds `always` does, and `fn`
returns only where `Q` holds. -/
structure Outline (always : D → Prop) (fn : Fn L D) (Q : D → Prop) (J : L → D → Prop) : Prop where
  step : ∀ l d l' d', J l d → fn.step l d = some (l', d') → J l' d'
  result : ∀ l d, J l d → fn.step l d = none → Q d
  holds : ∀ l d, J l d → always d

/-- Called where `P` holds, `fn` keeps `always` and returns only where `Q` holds. -/
def Triple (always P : D → Prop) (fn : Fn L D) (Q : D → Prop) : Prop :=
  ∃ J, Outline always fn Q J ∧ ∀ d, P d → J fn.start d

theorem triple_true (fn : Fn L D) : Triple (fun _ => True) (fun _ => True) fn fun _ => True :=
  ⟨fun _ _ => True, ⟨fun _ _ _ _ _ _ => trivial, fun _ _ _ _ => trivial, fun _ _ _ => trivial⟩, fun _ _ => trivial⟩

/-! ## The lock, the key and the turns -/

/-- From the return of `spin_lock` to the call of `spin_unlock`. -/
def PC.Inside : PC L D → Prop
  | .test_key .. | .set_key .. | .call_fn .. | .in_fn .. | .spin_unlock .. | .spin_unlock_retry .. => True
  | _ => False

/-- The function that a task is going to run is one of those supplied. -/
def PC.Supplied (supplied : Side → Fn L D → Prop) : PC L D → Prop
  | .spin_lock side fn | .test_key side fn | .set_key side fn | .call_fn side fn | .spin_unlock_retry side fn
  | .msleep_retry side fn => supplied side fn
  | _ => True

section Invariant
-- What holds of the data before a function of a side is called, and what holds
-- of it at all times.
variable (before : Side → D → Prop) (always : D → Prop)

/-- The key tells whose turn it is while no function runs. -/
def Waiting (key_1 : UInt8) (n : Nat) (data : D) : Prop :=
  ∃ side : Side, key_1 = side.loop.waits ∧ n % 4 = side.first ∧ before side data

/-- The key, the `n` events and the data, with the task that has the lock at a
`PC`. -/
def Sync (key_1 : UInt8) (n : Nat) (data : D) : PC L D → Prop
  | .set_key side _ => key_1 = side.loop.waits ∧ n % 4 = side.first ∧ before side data
  | .call_fn side _ => key_1 = side.loop.leaves ∧ n % 4 = side.first ∧ before side data
  | .in_fn side fn l => key_1 = side.loop.leaves ∧ n % 4 = side.first + 1 ∧
      ∃ J, Outline always fn (before side.other) J ∧ J l data
  | _ => Waiting before key_1 n data

structure Inv (supplied : Side → Fn L D → Prop) (s : State Task L D) : Prop where
  supplied : ∀ t, (s.pc t).Supplied supplied
  inside : ∀ t, (s.pc t).Inside ↔ s.lock = some t
  turns : ∃ n, s.history = turns n ∧ (∀ t, s.lock = some t → Sync before always s.key_1 n s.data (s.pc t)) ∧
    (s.lock = none → Waiting before s.key_1 n s.data)

end Invariant

section Steps
variable {before : Side → D → Prop} {always : D → Prop} {s s' : State Task L D} {t : Task}
  {supplied : Side → Fn L D → Prop} {pc : PC L D}

theorem quest_lock_init_inv {data : D} (hdata : before .a data) :
    Inv before always supplied (quest_lock_init data : State Task L D) where
  supplied := fun _ => trivial
  inside := by simp [quest_lock_init, PC.Inside]
  turns := ⟨0, rfl, by simp [quest_lock_init], fun _ => ⟨.a, rfl, rfl, hdata⟩⟩

theorem Inv.alternates (h : Inv before always supplied s) : Alternates s := h.turns.imp fun _ => And.left

theorem Inv.data (h : Inv before always supplied s) (hrest : ∀ side d, before side d → always d) : always s.data := by
  obtain ⟨n, -, hsync, hwait⟩ := h.turns
  have hw : Waiting before s.key_1 n s.data → always s.data := fun ⟨side, _, _, hd⟩ => hrest side _ hd
  cases hl : s.lock with
  | none => exact hw (hwait hl)
  | some t =>
    have hs := hsync t hl
    -- Only a function that runs has left the data between its two conditions.
    unfold Sync at hs
    split at hs
    · exact hrest _ _ hs.2.2
    · exact hrest _ _ hs.2.2
    · obtain ⟨-, -, J, hout, hJ⟩ := hs
      exact hout.holds _ _ hJ
    · exact hw hs

variable [DecidableEq Task]

@[simp] theorem goto_pc_self (pc : PC L D) : (s.goto t pc).pc t = pc := Function.update_self ..

theorem goto_pc_ne {u : Task} (h : u ≠ t) (pc : PC L D) : (s.goto t pc).pc u = s.pc u := Function.update_of_ne h ..

theorem Inv.supplied_goto (h : Inv before always supplied s) (hpc : pc.Supplied supplied) (u : Task) :
    ((s.goto t pc).pc u).Supplied supplied := by
  by_cases hut : u = t
  · subst hut
    rwa [goto_pc_self]
  · rw [goto_pc_ne hut]
    exact h.supplied u

/-- A step outside of the lock. -/
theorem Inv.outside (h : Inv before always supplied s) (hsup : pc.Supplied supplied) (hin : ¬(s.pc t).Inside)
    (hout : ¬pc.Inside) : Inv before always supplied (s.goto t pc) := by
  have hfree : s.lock ≠ some t := fun hl => hin ((h.inside t).2 hl)
  obtain ⟨n, hn, hsync, hwait⟩ := h.turns
  refine ⟨h.supplied_goto hsup, ?_, n, hn, ?_, hwait⟩
  · intro u
    by_cases hut : u = t
    · subst hut
      simp [hout, State.goto, hfree]
    · rw [goto_pc_ne hut]
      exact h.inside u
  · intro u hu
    have hut : u ≠ t := by
      rintro rfl
      exact hfree hu
    rw [goto_pc_ne hut]
    exact hsync u hu

/-- A step of the task that has the lock. -/
theorem Inv.within (h : Inv before always supplied s) (hsup : pc.Supplied supplied) (hin : (s.pc t).Inside)
    (hpc : pc.Inside) {key_1 : UInt8} {data : D} {history : List Event}
    (hsync : ∀ n, s.history = Quest.turns n → Sync before always s.key_1 n s.data (s.pc t) →
      ∃ n', history = Quest.turns n' ∧ Sync before always key_1 n' data pc) :
    Inv before always supplied (State.goto { s with key_1, data, history } t pc) := by
  have hl : s.lock = some t := (h.inside t).1 hin
  obtain ⟨n, hn, hs, -⟩ := h.turns
  obtain ⟨n', hn', hs'⟩ := hsync n hn (hs t hl)
  refine ⟨h.supplied_goto hsup, ?_, n', hn', ?_, ?_⟩
  · intro u
    by_cases hut : u = t
    · subst hut
      simp [hpc, State.goto, hl]
    · rw [goto_pc_ne hut]
      exact h.inside u
  · intro u hu
    obtain rfl : t = u := Option.some.inj (hl.symm.trans hu)
    rw [goto_pc_self]
    exact hs'
  · intro hnone
    exact absurd (hl.symm.trans hnone) (by simp)

/-- `spin_lock` returns. -/
theorem Inv.acquire (h : Inv before always supplied s) (hsup : pc.Supplied supplied) (hfree : s.lock = none)
    (hpc : pc.Inside) (hsync : ∀ n, Waiting before s.key_1 n s.data → Sync before always s.key_1 n s.data pc) :
    Inv before always supplied (State.goto { s with lock := some t } t pc) := by
  obtain ⟨n, hn, -, hwait⟩ := h.turns
  refine ⟨h.supplied_goto hsup, ?_, n, hn, ?_, by simp [State.goto]⟩
  · intro u
    by_cases hut : u = t
    · subst hut
      simp [hpc, State.goto]
    · rw [goto_pc_ne hut]
      have hu := h.inside u
      rw [hfree] at hu
      simpa [State.goto, Ne.symm hut] using hu
  · intro u hu
    obtain rfl : t = u := Option.some.inj hu
    rw [goto_pc_self]
    exact hsync n (hwait hfree)

/-- `spin_unlock` returns. -/
theorem Inv.release (h : Inv before always supplied s) (hsup : pc.Supplied supplied) (hin : (s.pc t).Inside)
    (hpc : ¬pc.Inside) (hsync : ∀ n, Sync before always s.key_1 n s.data (s.pc t) → Waiting before s.key_1 n s.data) :
    Inv before always supplied (State.goto { s with lock := none } t pc) := by
  have hl : s.lock = some t := (h.inside t).1 hin
  obtain ⟨n, hn, hs, -⟩ := h.turns
  refine ⟨h.supplied_goto hsup, fun u => ?_, n, hn, by simp [State.goto], fun _ => hsync n (hs t hl)⟩
  by_cases hut : u = t
  · subst hut
    simp [hpc, State.goto]
  · rw [goto_pc_ne hut]
    have hu := h.inside u
    rw [hl] at hu
    simpa [State.goto, Ne.symm hut] using hu

theorem inv_preserved (spec : ∀ side fn, supplied side fn → Triple always (before side) fn (before side.other))
    (h : Inv before always supplied s) (hstep : TaskStep supplied t s s') : Inv before always supplied s' := by
  have hsup := h.supplied t
  cases hstep with
  | call hpc hfn => exact h.outside hfn (by simp [hpc, PC.Inside]) (by simp [PC.Inside])
  | spin_lock hpc hfree =>
    rw [hpc] at hsup
    exact h.acquire hsup hfree (by simp [PC.Inside]) fun n hw => hw
  | @test_key side fn hpc =>
    have hin : (s.pc t).Inside := by simp [hpc, PC.Inside]
    rw [hpc] at hsup
    split
    · rename_i hkey
      refine h.within (by exact hsup) hin (by simp [PC.Inside]) fun n hn hs => ⟨n, hn, ?_⟩
      rw [hpc] at hs
      obtain ⟨other, ho, hwait⟩ := hs
      -- The key that was found tells whose turn it is.
      obtain rfl := waits_inj (hkey.symm.trans ho)
      exact ⟨hkey, hwait⟩
    · refine h.within (by exact hsup) hin (by simp [PC.Inside]) fun n hn hs => ⟨n, hn, ?_⟩
      rw [hpc] at hs
      exact hs
  | set_key hpc =>
    -- The key is the other side's before the function runs; with the lock held nobody looks.
    have hin : (s.pc t).Inside := by simp [hpc, PC.Inside]
    rw [hpc] at hsup
    refine h.within (by exact hsup) hin (by simp [PC.Inside]) fun n hn hs => ?_
    rw [hpc] at hs
    exact ⟨n, hn, rfl, hs.2⟩
  | @call_fn side fn hpc =>
    have hin : (s.pc t).Inside := by simp [hpc, PC.Inside]
    rw [hpc] at hsup
    refine h.within (by exact trivial) hin (by simp [PC.Inside]) fun n hn hs => ?_
    rw [hpc] at hs
    obtain ⟨hkey, hturn, hdata⟩ := hs
    obtain ⟨J, hout, hstart⟩ := spec side fn hsup
    exact ⟨n + 1, by rw [turns_succ, turn_began hturn, hn], hkey, succ_first hturn, J, hout, hstart _ hdata⟩
  | in_fn hpc hfn =>
    have hin : (s.pc t).Inside := by simp [hpc, PC.Inside]
    refine h.within (by exact trivial) hin (by simp [PC.Inside]) fun n hn hs => ⟨n, hn, ?_⟩
    rw [hpc] at hs
    obtain ⟨hkey, hturn, J, hout, hJ⟩ := hs
    exact ⟨hkey, hturn, J, hout, hout.step _ _ _ _ hJ hfn⟩
  | @return_fn side fn l hpc hfn =>
    have hin : (s.pc t).Inside := by simp [hpc, PC.Inside]
    refine h.within (by exact trivial) hin (by simp [PC.Inside]) fun n hn hs => ?_
    rw [hpc] at hs
    obtain ⟨hkey, hturn, J, hout, hJ⟩ := hs
    refine ⟨n + 1, by rw [turns_succ, turn_ended hturn, hn], side.other, ?_, succ_second hturn, hout.result _ _ hJ hfn⟩
    rw [hkey, leaves_eq]
  | spin_unlock hpc =>
    have hin : (s.pc t).Inside := by simp [hpc, PC.Inside]
    refine h.release ?_ hin (by split <;> simp [PC.Inside]) fun n hs => ?_
    · split <;> trivial
    · rw [hpc] at hs
      exact hs
  | msleep hpc => exact h.outside trivial (by simp [hpc, PC.Inside]) (by simp [PC.Inside])
  | spin_unlock_retry hpc =>
    have hin : (s.pc t).Inside := by simp [hpc, PC.Inside]
    rw [hpc] at hsup
    refine h.release hsup hin (by simp [PC.Inside]) fun n hs => ?_
    rw [hpc] at hs
    exact hs
  | msleep_retry hpc =>
    rw [hpc] at hsup
    exact h.outside hsup (by simp [hpc, PC.Inside]) (by simp [PC.Inside])

/-- The functions of one side find the data as those of the other left it. -/
theorem run_inv (spec : ∀ side fn, supplied side fn → Triple always (before side) fn (before side.other)) {data : D}
    (hdata : before .a data) (h : Reachable (· = quest_lock_init data) (Step supplied) s) :
    Inv before always supplied s := by
  refine h.inv (Inv before always supplied) ?_ ?_
  · rintro _ rfl
    exact quest_lock_init_inv hdata
  · rintro _ _ hi ⟨t, hstep⟩
    exact inv_preserved spec hi hstep

end Steps

/-! ## The shared counter -/

/-- Where `data_add` or `data_sub` is: it loads the byte, stores it changed, loads
it again and returns it. -/
inductive Counting where
  | load
  | store (v : UInt8)
  | reload
  | result (v : UInt8)
  deriving DecidableEq, Repr

def count_step (change : UInt8 → UInt8) : Counting → UInt8 → Option (Counting × UInt8)
  | .load, data => some (.store (change data), data)
  | .store v, _ => some (.reload, v)
  | .reload, data => some (.result data, data)
  | .result _, _ => none

def data_add : Fn Counting UInt8 := ⟨.load, count_step (· + 1)⟩

def data_sub : Fn Counting UInt8 := ⟨.load, count_step (· - 1)⟩

/-- The functions of the test: `data_add` on one side, `data_sub` on the other. -/
def counts (side : Side) (fn : Fn Counting UInt8) : Prop :=
  fn = match side with
    | .a => data_add
    | .b => data_sub

/-- The counter before the function of a side is called. -/
def Counter (side : Side) (data : UInt8) : Prop := data = side.loop.waits

theorem counts_triple (side : Side) (fn : Fn Counting UInt8) (h : counts side fn) :
    Triple (fun data => data = 0 ∨ data = 1) (Counter side) fn (Counter side.other) := by
  refine ⟨fun l data => match l with
    | .load => data = side.loop.waits
    | .store v => data = side.loop.waits ∧ v = side.other.loop.waits
    | .reload | .result _ => data = side.other.loop.waits, ⟨?_, ?_, ?_⟩, ?_⟩
  · intro l d l' d' hJ hstep
    subst h
    cases side <;> cases l <;> simp_all [data_add, data_sub, count_step] <;> obtain ⟨rfl, rfl⟩ := hstep <;>
      simp_all [Side.loop, Side.other, quest_lock_a, quest_lock_b]
  · intro l d hJ hstep
    subst h
    cases side <;> cases l <;> simp_all [data_add, data_sub, count_step, Counter]
  · intro l d hJ
    cases side <;> cases l <;> simp_all [Side.loop, Side.other, quest_lock_a, quest_lock_b]
  · intro d hd
    subst h
    cases side <;> exact hd

/-! ## The turns of every run -/

section Runs
variable [DecidableEq Task]

/-- In every run the supplied functions run one at a time and in turns, the first
one for `quest_lock_a`, and a counter that these increment and the others
decrement is 0 or 1 at any time. -/
theorem quest_alternates {supplied : Side → Fn L D → Prop} {data : D} {s : State Task L D}
    {c : State Task Counting UInt8} (h : Reachable (· = quest_lock_init data) (Step supplied) s)
    (hc : Reachable (· = quest_lock_init 0) (Step counts) c) :
    Alternates s ∧ (s.completed .a = s.completed .b ∨ s.completed .a = s.completed .b + 1) ∧
      (c.data = 0 ∨ c.data = 1) := by
  have hi : Inv (fun _ _ => True) (fun _ => True) supplied s := run_inv (fun _ fn _ => triple_true fn) trivial h
  have hd : Inv Counter (fun data => data = 0 ∨ data = 1) counts c := run_inv counts_triple rfl hc
  refine ⟨hi.alternates, ?_, hd.data fun side d hside => ?_⟩
  · obtain ⟨n, hn⟩ := hi.alternates
    obtain ⟨ha, hb⟩ := count_turns n
    simp only [State.completed, hn, ha, hb]
    omega
  · cases side
    · exact .inl hside
    · exact .inr hside

end Runs

/-- Two tasks call the functions of the test. The second finds that it is not its
turn, then the first counts up. -/
theorem quest_alternates_pair : ∃ s : State (Fin 2) Counting UInt8, s.history = [.began .a] ∧ s.data = 1 ∧
    Alternates s ∧ (s.completed .a = s.completed .b ∨ s.completed .a = s.completed .b + 1) ∧
      (s.data = 0 ∨ s.data = 1) := by
  have h0 : Reachable (· = (quest_lock_init 0 : State (Fin 2) Counting UInt8)) (Step counts) (quest_lock_init 0) :=
    .start rfl
  have hsub : counts .b data_sub := rfl
  have hadd : counts .a data_add := rfl
  have h1 := h0.next ⟨1, .call rfl hsub⟩
  have h2 := h1.next ⟨1, .spin_lock rfl rfl⟩
  have h3 := h2.next ⟨1, .test_key rfl⟩
  have h4 := h3.next ⟨1, .spin_unlock_retry rfl⟩
  have h5 := h4.next ⟨0, .call rfl hadd⟩
  have h6 := h5.next ⟨0, .spin_lock rfl rfl⟩
  have h7 := h6.next ⟨0, .test_key rfl⟩
  have h8 := h7.next ⟨0, .set_key rfl⟩
  have h9 := h8.next ⟨0, .call_fn rfl⟩
  have h10 := h9.next ⟨0, .in_fn rfl rfl⟩
  have h11 := h10.next ⟨0, .in_fn rfl rfl⟩
  exact ⟨_, rfl, rfl, quest_alternates h11 h11⟩

end McLinOS.Quest
