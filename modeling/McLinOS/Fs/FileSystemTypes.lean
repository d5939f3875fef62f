import McLinOS.CLib.Registry
/-!
# File system types

`fs/file_system_type.c`: the types are a list from `fs_t`, linked by their own `next`.
Types are named by their addresses, 0 is `NULL`, and a type keeps the name it has.
-/
open CLib Function

namespace McLinOS.FsTypes

def EEXIST : Int := 17
def EINVAL : Int := 22

structure State where
  fs_t : Nat
  next : Nat → Nat

/-- A `struct file_system_type **`: `none` is `&fs_t`, `some x` is `&x->next`. -/
def State.deref (s : State) : Option Nat → Nat
  | none => s.fs_t
  | some x => s.next x

def State.store (s : State) (v : Nat) : Option Nat → State
  | none => { s with fs_t := v }
  | some x => { s with next := update s.next x v }

section Functions
variable {ν : Type} [DecidableEq ν] (name : Nat → ν)

def for_each_body (hit : Nat → Prop) [DecidablePred hit] (s : State) (p : Option Nat) :
    ControlFlow (Option Nat) (Option (Option Nat)) :=
  if s.deref p = 0 then .done none else if hit (s.deref p) then .done (some p) else .cont (some (s.deref p))

/-- `for (p = &fs_t; *p; p = &(*p)->next)` up to the turn where `hit` holds of `*p`. -/
def for_each (hit : Nat → Prop) [DecidablePred hit] (fuel : Nat) (s : State) : Option (Option (Option Nat)) :=
  loop (for_each_body hit s) fuel none

def register_filesystem (fuel : Nat) (s : State) (ft : Nat) : Option (Int × State) :=
  if ft = 0 then some (-1, s)
  else
    (for_each (fun x => name x = name ft) fuel s).map fun
      | some _ => (-EEXIST, s)
      | none => (0, { fs_t := ft, next := update s.next ft s.fs_t })

def unregister_filesystem (fuel : Nat) (s : State) (ft : Nat) : Option (Int × State) :=
  (for_each (fun x => x = ft) fuel s).map fun
    | some p => (0, s.store (s.next ft) p)
    | none => (-EINVAL, s)

def lookup_fs_type (fuel : Nat) (s : State) (n : ν) : Option Nat :=
  (loop (fun p =>
    if p = 0 then .done none else if name p = n then .done (some p) else .cont (s.next p)) fuel s.fs_t).map (·.getD 0)

/-! ## Calls -/

inductive Call (ν : Type) where
  | register_filesystem (ft : Nat)
  | unregister_filesystem (ft : Nat)
  | lookup_fs_type (n : ν)
  deriving DecidableEq, Repr

inductive Result where
  | error (e : Int)
  | pointer (p : Nat)
  deriving DecidableEq, Repr

/-- A call that runs out of fuel has no result. -/
def call (fuel : Nat) (s : State) : Call ν → Option Result × State
  | .register_filesystem ft =>
    match register_filesystem name fuel s ft with
    | some (e, s) => (some (.error e), s)
    | none => (none, s)
  | .unregister_filesystem ft =>
    match unregister_filesystem fuel s ft with
    | some (e, s) => (some (.error e), s)
    | none => (none, s)
  | .lookup_fs_type n => ((lookup_fs_type name fuel s n).map .pointer, s)

/-- What the calls are for: one type for a name. -/
def spec (r : Registry ν) : Call ν → Option Result × Registry ν
  | .register_filesystem ft =>
    if ft = 0 then (some (.error (-1)), r)
    else if (r (name ft)).isSome then (some (.error (-EEXIST)), r)
    else (some (.error 0), update r (name ft) (some ft))
  | .unregister_filesystem ft =>
    if r (name ft) = some ft then (some (.error 0), update r (name ft) none) else (some (.error (-EINVAL)), r)
  | .lookup_fs_type n => (some (.pointer ((r n).getD 0)), r)

/-- `fs_t` before any call. -/
def start : State := ⟨0, fun _ => 0⟩

end Functions

/-! ## The list -/

section List
variable {ν : Type} [DecidableEq ν] {name : Nat → ν} {s : State} {r : Registry ν} {xs us vs : List Nat} {ft fuel n : Nat}

/-- The state is a list of at most `n` types, those of `r`. -/
def Listed (name : Nat → ν) (n : Nat) (s : State) (r : Registry ν) : Prop :=
  ∃ xs, xs.length ≤ n ∧ Leads s.next 0 s.fs_t xs ∧ Lists name xs r

/-- The walk ends at the pointer to the first type that is looked for. -/
theorem walk_spec (hit : Nat → Prop) [DecidablePred hit] {p : Option Nat} (h : Leads s.next 0 (s.deref p) xs)
    (hf : xs.length < fuel) :
    ∃ q, loop (for_each_body hit s) fuel p = some q ∧
      ((q = none ∧ ∀ x ∈ xs, ¬hit x) ∨ ∃ us x vs, xs = us ++ x :: vs ∧ hit x ∧ q = some (us.getLast?.or p)) := by
  induction xs generalizing p fuel with
  | nil =>
    obtain ⟨fuel, rfl⟩ : ∃ k, fuel = k + 1 := ⟨fuel - 1, by omega⟩
    have hturn : for_each_body hit s p = .done none := if_pos h
    exact ⟨none, loop_done hturn fuel, .inl ⟨rfl, by simp⟩⟩
  | cons x xs ih =>
    obtain ⟨fuel, rfl⟩ : ∃ k, fuel = k + 1 := ⟨fuel - 1, by omega⟩
    obtain ⟨hx, hne, hrest⟩ := h
    have hnull : s.deref p ≠ 0 := hx ▸ hne
    by_cases hhit : hit x
    · have hturn : for_each_body hit s p = .done (some p) := by rw [for_each_body, if_neg hnull, hx, if_pos hhit]
      exact ⟨some p, loop_done hturn fuel, .inr ⟨[], x, xs, rfl, hhit, rfl⟩⟩
    · have hturn : for_each_body hit s p = .cont (some x) := by rw [for_each_body, if_neg hnull, hx, if_neg hhit]
      rw [loop_cont hturn]
      obtain ⟨q, hq, ⟨rfl, hnone⟩ | ⟨us, y, vs, rfl, hy, rfl⟩⟩ := ih (p := some x) hrest (by simpa using hf)
      · exact ⟨none, hq, .inl ⟨rfl, List.forall_mem_cons.2 ⟨hhit, hnone⟩⟩⟩
      · refine ⟨_, hq, .inr ⟨x :: us, y, vs, rfl, hy, ?_⟩⟩
        rw [List.getLast?_cons]
        cases us.getLast? <;> rfl

theorem for_each_spec (hit : Nat → Prop) [DecidablePred hit] (h : Leads s.next 0 s.fs_t xs) (hf : xs.length < fuel) :
    ∃ q, for_each hit fuel s = some q ∧
      ((q = none ∧ ∀ x ∈ xs, ¬hit x) ∨ ∃ us x vs, xs = us ++ x :: vs ∧ hit x ∧ q = some us.getLast?) := by
  obtain ⟨q, hq, hcases⟩ := walk_spec hit (p := none) h hf
  simp only [Option.or_none] at hcases
  exact ⟨q, hq, hcases⟩

/-- Storing through the pointer to an entry takes it off the list. -/
theorem store_leads (h : Leads s.next 0 s.fs_t (us ++ ft :: vs)) (hnd : (us ++ ft :: vs).Nodup) :
    Leads (s.store (s.next ft) us.getLast?).next 0 (s.store (s.next ft) us.getLast?).fs_t (us ++ vs) := by
  rcases List.eq_nil_or_concat us with rfl | ⟨ws, y, rfl⟩
  · exact h.2.2
  · rw [List.concat_eq_append] at h hnd ⊢
    rw [List.getLast?_concat]
    simp only [List.append_assoc, List.singleton_append] at h hnd ⊢
    exact h.skip hnd

theorem register_step (h : Listed name n s r) (hf : n < fuel) (ft : Nat) :
    (call name fuel s (.register_filesystem ft)).1 = (spec name r (.register_filesystem ft)).1 ∧
      Listed name (n + 1) (call name fuel s (.register_filesystem ft)).2 (spec name r (.register_filesystem ft)).2 := by
  obtain ⟨xs, hlen, hleads, hlists⟩ := h
  have hsame : Listed name (n + 1) s r := ⟨xs, by omega, hleads, hlists⟩
  by_cases hnull : ft = 0
  · rw [call, register_filesystem, if_pos hnull, spec, if_pos hnull]
    exact ⟨rfl, hsame⟩
  obtain ⟨q, hq, ⟨rfl, hnone⟩ | ⟨us, x, vs, rfl, hname, rfl⟩⟩ :=
    for_each_spec (fun x => name x = name ft) hleads (by omega : xs.length < fuel)
  · have hfree : r (name ft) = none := by
      rw [← hlists.find, List.find?_eq_none]
      simpa using hnone
    rw [call, register_filesystem, if_neg hnull, hq, spec, if_neg hnull, hfree]
    refine ⟨rfl, ft :: xs, by simpa using hlen, ⟨rfl, hnull, ?_⟩, hlists.add hfree⟩
    show Leads (update s.next ft s.fs_t) 0 (update s.next ft s.fs_t ft) xs
    rw [update_self]
    refine hleads.congr fun y hy => update_of_ne ?_ _ _
    rintro rfl
    exact hlists.new_notMem hfree hy
  · have htaken : (r (name ft)).isSome = true := by
      rw [(hlists.entry (name ft) x).2 ⟨by simp, hname⟩]
      rfl
    rw [call, register_filesystem, if_neg hnull, hq, spec, if_neg hnull, if_pos htaken]
    exact ⟨rfl, hsame⟩

theorem unregister_step (h : Listed name n s r) (hf : n < fuel) (ft : Nat) :
    (call name fuel s (.unregister_filesystem ft)).1 = (spec name r (.unregister_filesystem ft)).1 ∧
      Listed name (n + 1) (call name fuel s (.unregister_filesystem ft)).2 (spec name r (.unregister_filesystem ft)).2 := by
  obtain ⟨xs, hlen, hleads, hlists⟩ := h
  obtain ⟨q, hq, ⟨rfl, hnone⟩ | ⟨us, x, vs, rfl, rfl, rfl⟩⟩ :=
    for_each_spec (fun x => x = ft) hleads (by omega : xs.length < fuel)
  · have hout : r (name ft) ≠ some ft := fun hr => hnone ft ((hlists.entry _ _).1 hr).1 rfl
    rw [call, unregister_filesystem, hq, spec, if_neg hout]
    exact ⟨rfl, xs, by omega, hleads, hlists⟩
  · have hin : r (name x) = some x := (hlists.entry _ _).2 ⟨by simp, rfl⟩
    rw [call, unregister_filesystem, hq, spec, if_pos hin]
    refine ⟨rfl, us ++ vs, ?_, store_leads hleads hlists.nodup, hlists.remove⟩
    rw [List.length_append, List.length_cons] at hlen
    rw [List.length_append]
    omega

theorem lookup_step (h : Listed name n s r) (hf : n < fuel) (m : ν) :
    (call name fuel s (.lookup_fs_type m)).1 = (spec name r (.lookup_fs_type m)).1 := by
  obtain ⟨xs, hlen, hleads, hlists⟩ := h
  have hne : ∀ x ∈ xs, x ≠ 0 := by
    rintro x hx rfl
    exact hleads.stop_notMem hx
  have hwalk : loop (fun p : Nat =>
      if p = 0 then .done none else if name p = m then .done (some p) else .cont (s.next p)) fuel s.fs_t =
      some (xs.find? fun x => name x = m) := by
    refine hleads.search (if_pos rfl) (fun x hx hhit => ?_) (fun x hx hmiss => ?_) (by omega)
    · rw [if_neg (hne x hx), if_pos hhit]
    · rw [if_neg (hne x hx), if_neg hmiss]
  rw [call, lookup_fs_type, hwalk, hlists.find, spec]
  rfl

/-- Calls in any order give the results of one registry of names. -/
theorem types_registered (name : Nat → ν) (as : List (Call ν)) (hf : as.length < fuel) :
    (calls (call name fuel) as start).1 = (calls (spec name) as fun _ => none).1 := by
  have hstart : Listed name 0 start fun _ => none := ⟨[], Nat.le_refl _, rfl, Lists.nil name⟩
  refine (calls_simulates_sized (Listed name) (fun _ => True) as.length ?_ hstart (fun _ _ => trivial)
    (Nat.le_of_eq (Nat.zero_add _))).1
  intro n s r hn h a _
  cases a with
  | register_filesystem ft => exact register_step h (by omega) ft
  | unregister_filesystem ft => exact unregister_step h (by omega) ft
  | lookup_fs_type m =>
    obtain ⟨xs, hlen, hleads, hlists⟩ := h
    exact ⟨lookup_step ⟨xs, hlen, hleads, hlists⟩ (by omega) m, xs, by omega, hleads, hlists⟩

/-- Two types of one name: the second is refused until the first is gone. -/
theorem types_registered_two :
    (calls (call (fun x => x % 2) 8) [.register_filesystem 1, .register_filesystem 3, .lookup_fs_type 1,
      .unregister_filesystem 1, .lookup_fs_type 1, .register_filesystem 3, .lookup_fs_type 1] start).1 =
      [some (.error 0), some (.error (-17)), some (.pointer 1), some (.error 0), some (.pointer 0), some (.error 0),
        some (.pointer 3)] :=
  (types_registered _ _ (by decide)).trans (by decide)

end List

end McLinOS.FsTypes
