import McLinOS.Loader.Admission
/-!
# Launching an application

`loader_user_app` with the file it opens and the task it starts. A pointer that a
function returns may be an error, `NULL` or an address. What is done with the
file, the image and the task is kept as a list of events.
-/
open CLib

set_option linter.style.nameCheck false

namespace McLinOS.Launch

open Loader

/-! ## task.c -/

inductive Pointer where
  | err (err : Int)
  | null
  | addr (a : Nat)
  deriving DecidableEq, Repr

def Pointer.IS_ERR : Pointer → Bool
  | .err _ => true
  | _ => false

inductive Event where
  | filp_close
  | kmalloc (addr : Nat)
  | kfree (addr : Nat)
  /-- A task runs from the image at `offset`. -/
  | task (offset : Nat)
  deriving DecidableEq, Repr

/-- What a launch meets beside the file: the results of `kmalloc` for the image and
for the task, and of the task pool. -/
structure Machine where
  image_kmalloc : Nat → Option Nat
  task_kmalloc : Nat → Option Nat
  sizeof_task_struct : Nat
  CONFIG_CPU_NUM : Nat
  add_task : Int

/-- A `size_t` made of an `int`. -/
def size_of_int (n : Int) : Nat := (n % 2 ^ 32).toNat

def __new_task_create (mach : Machine) (entry stack_size : Nat) (name : Option (List Char)) : Pointer :=
  if entry = 0 ∨ name = none then .err (-1)
  else
    match mach.task_kmalloc (size_of_int (task_stack_size mach.sizeof_task_struct stack_size)) with
    | none => .err (-ENOMEM)
    | some new_task => .addr new_task

def task_run (mach : Machine) (entry stack_size : Nat) (name : Option (List Char)) (core_id offset : Nat) :
    Pointer × List Event :=
  if mach.CONFIG_CPU_NUM ≤ core_id then (.null, [])
  else
    match __new_task_create mach entry stack_size name with
    | .addr task => if mach.add_task < 0 then (.null, []) else (.addr task, [.task offset])
    | task => (task, [])

/-! ## user_application_loader.c -/

/-- What `filp_open` returned. It is `NULL` where the driver's open failed. -/
inductive Opened where
  | err (err : Int) (neg : err < 0)
  | null
  | file (f : AppFile)

/-- The value returned, if the call comes to its end, and what happened. -/
structure Outcome where
  ret : Option Int
  events : List Event
  deriving DecidableEq, Repr

/-- The file that is read. From `NULL` nothing is read. -/
def Opened.read : Opened → AppFile
  | .file f => f
  | _ => ⟨none, 0⟩

/-- `filp_close` of `NULL` closes nothing. -/
def Opened.close : Opened → List Event
  | .file _ => [.filp_close]
  | _ => []

/-- From the checks on. The size of the image is read through the file, so with
`NULL` the call does not come to its end there. -/
def load_opened (turns : Nat) (config : loader_config_t) (mach : Machine) (opened : Opened)
    (file_path : Option (List Char)) (load_app_data : AppMeta) (m : Mem) : Outcome :=
  match Loader.loader_user_app turns config opened.read load_app_data mach.image_kmalloc m with
  | .error err => ⟨some err, opened.close⟩
  | .ok l =>
    match opened with
    | .file _ =>
      let t := task_run mach l.start (AppMeta.load l.mem l.addr).stack_size file_path 0 l.addr
      ⟨some 0, .kmalloc l.addr :: (t.2 ++ if t.1.IS_ERR then [.kfree l.addr] else [])⟩
    | _ => ⟨none, [.kmalloc l.addr]⟩

def loader_user_app (turns : Nat) (config : loader_config_t) (mach : Machine) (opened : Opened)
    (file_path : Option (List Char)) (load_app_data : AppMeta) (m : Mem) : Outcome :=
  match opened with
  | .err err _ => ⟨some err, []⟩
  | opened => load_opened turns config mach opened file_path load_app_data m

/-! ## What is left behind -/

/-- A file that was opened is closed once, the image is freed exactly if no task runs
from it, and the call returns a negative value exactly if there is no task. -/
structure Disciplined (opened : Opened) (o : Outcome) : Prop where
  closed : o.events.count .filp_close = opened.close.length
  freed : ∀ addr, .kmalloc addr ∈ o.events → (.kfree addr ∈ o.events ↔ .task addr ∉ o.events)
  ret : ∃ r, o.ret = some r ∧ (r < 0 ↔ ∀ addr, .task addr ∉ o.events)

/-- The launch ends before the image is read. -/
def EndsEarly (config : loader_config_t) (mach : Machine) (opened : Opened) (load_app_data : AppMeta) : Prop :=
  match opened with
  | .err _ _ => True
  | opened =>
    let app := read_header opened.read load_app_data
    check_app config app ≠ 0 ∨ mach.image_kmalloc (app.program_size + 8) = none

section Launch
variable {turns : Nat} {config : loader_config_t} {mach : Machine} {opened : Opened} {file_path : Option (List Char)}
  {load_app_data : AppMeta} {m : Mem}

/-- A load ends with a negative value and nothing allocated, or it has an image. -/
theorem loader_cases (turns : Nat) (config : loader_config_t) (f : AppFile) (load_app_data : AppMeta)
    (kmalloc : Nat → Option Nat) (m : Mem) :
    ((check_app config (read_header f load_app_data) ≠ 0 ∨
        kmalloc ((read_header f load_app_data).program_size + 8) = none) ∧
      ∃ err < 0, Loader.loader_user_app turns config f load_app_data kmalloc m = .error err) ∨
    (¬(check_app config (read_header f load_app_data) ≠ 0 ∨
        kmalloc ((read_header f load_app_data).program_size + 8) = none) ∧
      ∃ l, Loader.loader_user_app turns config f load_app_data kmalloc m = .ok l) := by
  by_cases hc : check_app config (read_header f load_app_data) = 0
  · cases hk : kmalloc ((read_header f load_app_data).program_size + 8) with
    | none =>
      refine .inl ⟨.inr rfl, -ENOMEM, by decide, ?_⟩
      simp only [Loader.loader_user_app, hc, ne_eq, not_true_eq_false, if_false, app_size_eq hc, hk]
    | some addr => exact .inr ⟨by simp [hc], _, loader_ok hc hk turns⟩
  · refine .inl ⟨.inl hc, -1, by decide, ?_⟩
    simp only [Loader.loader_user_app, hc, ne_eq, not_false_eq_true, if_true]

/-- `task_run` closes nothing and runs the new task at most from the image. -/
theorem task_run_events (mach : Machine) (entry stack_size : Nat) (name : Option (List Char)) (core_id offset : Nat) :
    (task_run mach entry stack_size name core_id offset).2 = [] ∨
      (task_run mach entry stack_size name core_id offset).2 = [.task offset] := by
  unfold task_run
  split
  · exact .inl rfl
  split
  · split
    · exact .inl rfl
    · exact .inr rfl
  · exact .inl rfl

/-- No file is closed once the image has been read. -/
theorem load_opened_open {l : Load} {f : AppFile}
    (hl : Loader.loader_user_app turns config f load_app_data mach.image_kmalloc m = .ok l) :
    .filp_close ∉ (load_opened turns config mach (.file f) file_path load_app_data m).events := by
  have hread : Loader.loader_user_app turns config (Opened.file f).read load_app_data mach.image_kmalloc m = .ok l := hl
  unfold load_opened
  rw [hread]
  intro h
  rcases List.mem_cons.1 h with h | h
  · cases h
  rcases List.mem_append.1 h with h | h
  · rcases task_run_events mach l.start (AppMeta.load l.mem l.addr).stack_size file_path 0 l.addr with ht | ht
    · rw [ht] at h
      cases h
    · rw [ht] at h
      cases List.mem_singleton.1 h
  · split at h
    · cases List.mem_singleton.1 h
    · cases h

/-- A path that ends with an error and has nothing but the file. -/
theorem disciplined_early {err : Int} (hneg : err < 0) (opened : Opened) : Disciplined opened ⟨some err, opened.close⟩ := by
  have hclose : ∀ e ∈ opened.close, e = .filp_close := by
    cases opened with
    | file f => exact fun e he => List.mem_singleton.1 he
    | err err neg => exact fun e he => (List.not_mem_nil he).elim
    | null => exact fun e he => (List.not_mem_nil he).elim
  refine ⟨List.count_eq_length.2 fun e he => (hclose e he).symm, ?_, err, rfl, iff_of_true hneg fun addr h => ?_⟩
  · intro addr h
    cases hclose _ h
  · cases hclose _ h

theorem load_opened_iff (hopened : ∀ err neg, opened ≠ .err err neg) :
    Disciplined opened (load_opened turns config mach opened file_path load_app_data m) ↔
      (check_app config (read_header opened.read load_app_data) ≠ 0 ∨
        mach.image_kmalloc ((read_header opened.read load_app_data).program_size + 8) = none) := by
  rcases loader_cases turns config opened.read load_app_data mach.image_kmalloc m with
    ⟨hearly, err, hneg, hl⟩ | ⟨hlate, l, hl⟩
  · refine iff_of_true ?_ hearly
    unfold load_opened
    rw [hl]
    exact disciplined_early hneg opened
  · refine iff_of_false (fun hd => ?_) hlate
    cases opened with
    | err err neg => exact hopened err neg rfl
    | null =>
      -- With `NULL` the call does not return.
      obtain ⟨r, hr, -⟩ := hd.ret
      unfold load_opened at hr
      rw [hl] at hr
      cases hr
    | file f =>
      -- Behind the image the file is not closed.
      have hcount := hd.closed
      rw [List.count_eq_zero.2 (load_opened_open (f := f) hl)] at hcount
      cases hcount

/-- The resources are looked after exactly where the launch ends before the image is
read. -/
theorem launch_disciplined (turns : Nat) (config : loader_config_t) (mach : Machine) (opened : Opened)
    (file_path : Option (List Char)) (load_app_data : AppMeta) (m : Mem) :
    Disciplined opened (loader_user_app turns config mach opened file_path load_app_data m) ↔
      EndsEarly config mach opened load_app_data := by
  cases opened with
  | err err neg => exact iff_of_true (disciplined_early neg (.err err neg)) trivial
  | null =>
    have h : Disciplined .null (load_opened turns config mach .null file_path load_app_data m) ↔ _ :=
      load_opened_iff fun _ _ h => by cases h
    exact h
  | file f =>
    have h : Disciplined (.file f) (load_opened turns config mach (.file f) file_path load_app_data m) ↔ _ :=
      load_opened_iff fun _ _ h => by cases h
    exact h

end Launch

/-- Memory for one image and one task. -/
def small_machine : Machine := ⟨heap, fun _ => some 0x20003000, 256, 1, 0⟩

/-- Memory for the image only. -/
def full_machine : Machine := { small_machine with task_kmalloc := fun _ => none }

/-- A task pool that takes no task. -/
def closed_machine : Machine := { small_machine with add_task := -1 }

/-- An application that is started leaves its file open. One without memory for its
task is reported as started too, and one that the task pool does not take also
keeps its image. -/
theorem launch_leaks :
    (loader_user_app 4 config small_machine (.file one_entry) (some []) (header 0 0 0 0) fun _ => 0) =
      ⟨some 0, [.kmalloc 0x20001000, .task 0x20001000]⟩ ∧
    (loader_user_app 4 config full_machine (.file one_entry) (some []) (header 0 0 0 0) fun _ => 0) =
      ⟨some 0, [.kmalloc 0x20001000, .kfree 0x20001000]⟩ ∧
    (loader_user_app 4 config closed_machine (.file one_entry) (some []) (header 0 0 0 0) fun _ => 0) =
      ⟨some 0, [.kmalloc 0x20001000]⟩ ∧
    ¬Disciplined (.file one_entry) ⟨some 0, [.kmalloc 0x20001000, .task 0x20001000]⟩ ∧
    ¬Disciplined (.file one_entry) ⟨some 0, [.kmalloc 0x20001000, .kfree 0x20001000]⟩ ∧
    ¬Disciplined (.file one_entry) ⟨some 0, [.kmalloc 0x20001000]⟩ := by
  refine ⟨by decide +kernel, by decide +kernel, by decide +kernel, ?_, ?_, ?_⟩
  · intro h
    exact absurd h.closed (by decide)
  · intro h
    exact absurd h.closed (by decide)
  · intro h
    exact absurd h.closed (by decide)

end McLinOS.Launch
