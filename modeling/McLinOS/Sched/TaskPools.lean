import McLinOS.CLib.Registry
import McLinOS.CLib.Ring
/-!
# The kinds of task pools

`kernel/sched/task_pools.c`: the kinds of task pools are a ring from `task_pool_list`. A
kind is named by the address of its `node`, which is its first member, and keeps its name.
-/
open CLib Function

namespace McLinOS.TaskPools

def EEXIST : Int := 17
def ENOENT : Int := 2
def LIST_POISON1 : Nat := 0x100
def LIST_POISON2 : Nat := 0x122

/-- The links of every `list_head`, and the entries that `kfree` got with their names. -/
structure State where
  next : Nat → Nat
  prev : Nat → Nat
  frees : List Nat

def set_next (n v : Nat) (s : State) : State := { s with next := update s.next n v }

def set_prev (n v : Nat) (s : State) : State := { s with prev := update s.prev n v }

def list_add (new prev next : Nat) (s : State) : State :=
  set_next prev new (set_prev new prev (set_next new next (set_prev next new s)))

def list_add_tail (new head : Nat) (s : State) : State := list_add new (s.prev head) head s

def list_del (entry : Nat) (s : State) : State :=
  let s := set_next (s.prev entry) (s.next entry) (set_prev (s.next entry) (s.prev entry) s)
  set_prev entry LIST_POISON2 (set_next entry LIST_POISON1 s)

section Functions
variable {ν : Type} [DecidableEq ν] (task_pool_list : Nat) (name : Nat → ν)

def list_for_each_entry (s : State) (n : ν) (entry : Nat) : ControlFlow Nat (Option Nat) :=
  if entry = task_pool_list then .done none else if name entry = n then .done (some entry) else .cont (s.next entry)

/-- The first entry named `n`. -/
def find_entry (fuel : Nat) (s : State) (n : ν) : Option (Option Nat) :=
  loop (list_for_each_entry task_pool_list name s n) fuel (s.next task_pool_list)

def register_task_pool (fuel : Nat) (s : State) (new_pool : Nat) : Option (Int × State) :=
  (find_entry task_pool_list name fuel s (name new_pool)).map fun
    | some _ => (-EEXIST, s)
    | none => (0, list_add_tail new_pool task_pool_list s)

def find_task_pool (fuel : Nat) (s : State) (n : ν) : Option Nat :=
  (find_entry task_pool_list name fuel s n).map (·.getD 0)

/-- The walk is left after the removal, so the entry it kept is not used. -/
def unregister_task_pool (fuel : Nat) (s : State) (n : ν) : Option (Int × State) :=
  (find_entry task_pool_list name fuel s n).map fun
    | some entry => (0, { list_del entry s with frees := entry :: s.frees })
    | none => (-ENOENT, s)

/-! ## Calls -/

inductive Call (ν : Type) where
  | register_task_pool (new_pool : Nat)
  | unregister_task_pool (n : ν)
  | find_task_pool (n : ν)
  deriving DecidableEq, Repr

inductive Result where
  | error (e : Int)
  | pointer (p : Nat)
  deriving DecidableEq, Repr

/-- A call that runs out of fuel has no result. -/
def call (fuel : Nat) (s : State) : Call ν → Option Result × State
  | .register_task_pool new_pool =>
    match register_task_pool task_pool_list name fuel s new_pool with
    | some (e, s) => (some (.error e), s)
    | none => (none, s)
  | .unregister_task_pool n =>
    match unregister_task_pool task_pool_list name fuel s n with
    | some (e, s) => (some (.error e), s)
    | none => (none, s)
  | .find_task_pool n => ((find_task_pool task_pool_list name fuel s n).map .pointer, s)

/-- What the calls are for: one kind for a name, and those that are taken off are freed. -/
def spec (r : Registry ν × List Nat) : Call ν → Option Result × (Registry ν × List Nat)
  | .register_task_pool new_pool =>
    if (r.1 (name new_pool)).isSome then (some (.error (-EEXIST)), r)
    else (some (.error 0), update r.1 (name new_pool) (some new_pool), r.2)
  | .unregister_task_pool n =>
    match r.1 n with
    | some entry => (some (.error 0), update r.1 n none, entry :: r.2)
    | none => (some (.error (-ENOENT)), r)
  | .find_task_pool n => (some (.pointer ((r.1 n).getD 0)), r)

/-- `LIST_HEAD(task_pool_list)`. -/
def start : State := ⟨fun _ => task_pool_list, fun _ => task_pool_list, []⟩

end Functions

/-! ## The ring -/

section Rings
variable {ν : Type} [DecidableEq ν] {head : Nat} {name : Nat → ν} {s : State} {r : Registry ν × List Nat}
  {xs us vs : List Nat} {x n fuel : Nat}

/-- The state is a ring of at most `n` kinds behind the head, those of `r`. -/
def Listed (head : Nat) (name : Nat → ν) (n : Nat) (s : State) (r : Registry ν × List Nat) : Prop :=
  ∃ xs, xs.length ≤ n ∧ Ring s.next s.prev (head :: xs) ∧ head ∉ xs ∧ Lists name xs r.1 ∧ s.frees = r.2

theorem find_entry_spec (hring : Ring s.next s.prev (head :: xs)) (hhead : head ∉ xs) (hlists : Lists name xs r.1)
    (hf : xs.length < fuel) (m : ν) : find_entry head name fuel s m = some (r.1 m) := by
  have hne : ∀ x ∈ xs, x ≠ head := by
    rintro x hx rfl
    exact hhead hx
  obtain ⟨-, hnext, hchain⟩ := hring
  rw [find_entry, hnext, ← hlists.find]
  refine (hchain.leads hhead).search (if_pos rfl) (fun x hx hhit => ?_) (fun x hx hmiss => ?_) hf
  · rw [list_for_each_entry, if_neg (hne x hx), if_pos hhit]
  · rw [list_for_each_entry, if_neg (hne x hx), if_neg hmiss]

theorem list_add_tail_ring (hring : Ring s.next s.prev (head :: xs)) (hnd : (head :: xs).Nodup) (hnew : x ∉ head :: xs) :
    Ring (list_add_tail x head s).next (list_add_tail x head s).prev (head :: (xs ++ [x])) := by
  have hne : x ≠ head := fun he => hnew (he ▸ List.mem_cons_self)
  have hprev : update (update s.prev head x) x (s.prev head) = update (update s.prev x (s.prev head)) head x :=
    update_comm hne.symm _ _ _
  show Ring (update (update s.next x head) (s.prev head) x) (update (update s.prev head x) x (s.prev head)) _
  rw [hprev]
  exact hring.insert hnd hnew

theorem list_del_ring (hring : Ring s.next s.prev (head :: (us ++ x :: vs))) (hnd : (head :: (us ++ x :: vs)).Nodup) :
    Ring (list_del x s).next (list_del x s).prev (head :: (us ++ vs)) := by
  -- Read from `x` on, the ring has the head somewhere behind it.
  have hfrom : Ring s.next s.prev (x :: (vs ++ head :: us)) := by
    have hrotated := Ring.rotate.1 (show Ring s.next s.prev ((head :: us) ++ (x :: vs)) from hring)
    simpa using hrotated
  have hnd' : (x :: (vs ++ head :: us)).Nodup := by
    have hperm : (x :: vs ++ head :: us).Perm (head :: us ++ x :: vs) := List.perm_append_comm
    exact hperm.nodup_iff.2 hnd
  obtain ⟨hx, -⟩ := List.nodup_cons.1 hnd'
  have hrest : Ring (update s.next (s.prev x) (s.next x)) (update s.prev (s.next x) (s.prev x)) (vs ++ head :: us) := by
    cases hv : vs ++ head :: us with
    | nil => simp at hv
    | cons y ys =>
      rw [hv] at hfrom hnd'
      exact hfrom.unlink hnd'
  have hhead : Ring (update s.next (s.prev x) (s.next x)) (update s.prev (s.next x) (s.prev x)) (head :: (us ++ vs)) := by
    have hrotated := Ring.rotate.1 hrest
    simpa using hrotated
  have hout : ∀ y ∈ head :: (us ++ vs), y ≠ x := by
    rintro y hy rfl
    refine hx ?_
    simp only [List.mem_cons, List.mem_append] at hy ⊢
    tauto
  exact hhead.congr (fun y hy => update_of_ne (hout y hy) _ _) fun y hy => update_of_ne (hout y hy) _ _

/-- The new pool is not the list head. An address that was freed may come again, as that of
another pool: then `name` says that it has the same name. -/
def Fits (head : Nat) : Call ν → Prop
  | .register_task_pool new_pool => new_pool ≠ head
  | _ => True

theorem call_step (h : Listed head name n s r) (hf : n < fuel) (a : Call ν) (ha : Fits head a) :
    (call head name fuel s a).1 = (spec name r a).1 ∧
      Listed head name (n + 1) (call head name fuel s a).2 (spec name r a).2 := by
  obtain ⟨xs, hlen, hring, hhead, hlists, hfrees⟩ := h
  have hsame : Listed head name (n + 1) s r := ⟨xs, by omega, hring, hhead, hlists, hfrees⟩
  have hnd : (head :: xs).Nodup := List.nodup_cons.2 ⟨hhead, hlists.nodup⟩
  have hfind := find_entry_spec hring hhead hlists (by omega : xs.length < fuel)
  cases a with
  | register_task_pool new_pool =>
    rw [call, register_task_pool, hfind, spec]
    cases hr : r.1 (name new_pool) with
    | some entry => exact ⟨rfl, hsame⟩
    | none =>
      have hnew : new_pool ∉ head :: xs := by
        simp only [List.mem_cons, not_or]
        exact ⟨ha, hlists.new_notMem hr⟩
      refine ⟨rfl, xs ++ [new_pool], ?_, list_add_tail_ring hring hnd hnew, ?_, ?_, hfrees⟩
      · rw [List.length_append, List.length_singleton]
        omega
      · simp only [List.mem_append, List.mem_singleton, not_or]
        exact ⟨hhead, fun he => ha he.symm⟩
      · exact (hlists.add hr).perm (List.perm_append_singleton _ _).symm
  | unregister_task_pool m =>
    rw [call, unregister_task_pool, hfind, spec]
    cases hr : r.1 m with
    | none => exact ⟨rfl, hsame⟩
    | some entry =>
      obtain ⟨hentry, rfl⟩ := (hlists.entry _ _).1 hr
      obtain ⟨us, vs, rfl⟩ := List.append_of_mem hentry
      refine ⟨rfl, us ++ vs, ?_, list_del_ring hring hnd, ?_, hlists.remove, ?_⟩
      · rw [List.length_append, List.length_cons] at hlen
        rw [List.length_append]
        omega
      · simp only [List.mem_append, List.mem_cons, not_or] at hhead ⊢
        exact ⟨hhead.1, hhead.2.2⟩
      · exact congrArg (entry :: ·) hfrees
  | find_task_pool m =>
    refine ⟨?_, hsame⟩
    rw [call, find_task_pool, hfind, spec]
    rfl

/-- Calls in any order give the results of one registry of names, and free what it takes
off. -/
theorem pools_registered (head : Nat) (name : Nat → ν) {as : List (Call ν)} (has : ∀ a ∈ as, Fits head a)
    (hf : as.length < fuel) :
    (calls (call head name fuel) as (start head)).1 = (calls (spec name) as (fun _ => none, [])).1 ∧
      (calls (call head name fuel) as (start head)).2.frees = (calls (spec name) as (fun _ => none, [])).2.2 := by
  have hstart : Listed head name 0 (start head) (fun _ => none, []) :=
    ⟨[], Nat.le_refl _, Ring.singleton.2 ⟨rfl, rfl⟩, List.not_mem_nil, Lists.nil name, rfl⟩
  have hstep : ∀ n s r, n < as.length → Listed head name n s r → ∀ a, Fits head a →
      (call head name fuel s a).1 = (spec name r a).1 ∧
        Listed head name (n + 1) (call head name fuel s a).2 (spec name r a).2 :=
    fun n s r hn h a ha => call_step h (hn.trans hf) a ha
  obtain ⟨hresults, xs, -, -, -, -, hfrees⟩ := calls_simulates_sized (Listed head name) (Fits head) as.length
    hstep hstart has (Nat.le_of_eq (Nat.zero_add _))
  exact ⟨hresults, hfrees⟩

/-- Two kinds of one name, one after the other: the first is freed. -/
theorem pools_registered_two :
    (calls (call 100 (fun x => x % 2) 8) [.register_task_pool 1, .register_task_pool 3, .find_task_pool 1,
      .unregister_task_pool 1, .find_task_pool 1, .register_task_pool 3, .find_task_pool 1] (start 100)).1 =
      [some (.error 0), some (.error (-17)), some (.pointer 1), some (.error 0), some (.pointer 0), some (.error 0),
        some (.pointer 3)] ∧
    (calls (call 100 (fun x => x % 2) 8) [.register_task_pool 1, .register_task_pool 3, .find_task_pool 1,
      .unregister_task_pool 1, .find_task_pool 1, .register_task_pool 3, .find_task_pool 1] (start 100)).2.frees = [1] := by
  have hfits : ∀ a ∈ ([.register_task_pool 1, .register_task_pool 3, .find_task_pool 1, .unregister_task_pool 1,
      .find_task_pool 1, .register_task_pool 3, .find_task_pool 1] : List (Call Nat)), Fits 100 a := by
    simp [Fits]
  obtain ⟨hresults, hfrees⟩ := pools_registered 100 (fun x => x % 2) hfits (by decide : _ < 8)
  exact ⟨hresults.trans (by decide), hfrees.trans (by decide)⟩

end Rings

end McLinOS.TaskPools
