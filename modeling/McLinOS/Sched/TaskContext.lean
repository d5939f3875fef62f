import McLinOS.Loader.Launch
/-!
# The stack of a new task

`__new_task_create` puts the `task_struct` at the bottom of a block and the stack
above it, and `__init_Taskcontext` writes the first context below the aligned top.
The size of the block and the place of the context are computed in two files, and
they agree only for some requests and some addresses.
-/
open CLib

set_option linter.style.nameCheck false

namespace McLinOS.TaskContext

open Loader Launch

/-! ## sched.h -/

/-- The members of `struct task_struct`, in order. -/
inductive Member where
  | magic | id | pid | task_name | comm | context | stack_ptr | stack_Top | entry | arg | state | task_scheduler
  | priority | t_node | last_scheduler_time | block_time | priv | next | script | children | task_node
  | this_task_node | use_count | parent | offset
  deriving DecidableEq, Repr

def task_name_max_len : Nat := 64

/-- Bytes of a member. An `enum` of small values has one, a `list_head` is two
pointers, and the 64-bit types of the source are `long`. -/
def Member.size : Member → Nat
  | .task_name => task_name_max_len
  | .state | .script => 1
  | .children | .task_node | .this_task_node => 8
  | _ => 4

def Member.align : Member → Nat
  | .task_name | .state | .script => 1
  | _ => 4

def members : List Member :=
  [.magic, .id, .pid, .task_name, .comm, .context, .stack_ptr, .stack_Top, .entry, .arg, .state, .task_scheduler,
    .priority, .t_node, .last_scheduler_time, .block_time, .priv, .next, .script, .children, .task_node,
    .this_task_node, .use_count, .parent, .offset]

def round_up (n a : Nat) : Nat := (n + a - 1) / a * a

/-- The end of the members when they are laid out from `n` on. -/
def layout_end (n : Nat) (ms : List Member) : Nat := ms.foldl (fun n f => round_up n f.align + f.size) n

def Member.offsetof (f : Member) : Nat := round_up (layout_end 0 (members.takeWhile (· ≠ f))) f.align

def sizeof_task_struct : Nat := round_up (layout_end 0 members) 4

theorem sizeof_task_struct_eq : sizeof_task_struct = 172 := by decide

theorem member_inside (f : Member) : f.offsetof + f.size ≤ sizeof_task_struct := by cases f <;> decide

/-- Members do not overlap. -/
theorem member_apart {f g : Member} (h : f ≠ g) :
    f.offsetof + f.size ≤ g.offsetof ∨ g.offsetof + g.size ≤ f.offsetof := by
  revert h
  cases f <;> cases g <;> decide

def get (m : Mem) (task : Nat) (f : Member) : Nat := m.load f.size (task + f.offsetof)

def put (m : Mem) (task : Nat) (f : Member) (v : Nat) : Mem := m.store f.size (task + f.offsetof) v

/-! ## csched.c -/

/-- `psp[i] = v`. -/
def set_word (m : Mem) (psp i v : Nat) : Mem := m.store 4 (u32 (psp + 4 * i)) v

/-- `return_function` is the address of `__default_Task_return_function`. -/
def __init_Taskcontext (return_function : Nat) (m : Mem) (task_data pic_offset : Nat) : Mem :=
  if task_data = 0 then m
  else
    let psp := u32sub (get m task_data .stack_Top / 8 * 8) 128
    let m := set_word m psp 15 0x01000000
    let m := set_word m psp 14 (get m task_data .entry)
    let m := set_word m psp 13 return_function
    let m := set_word m psp 12 0
    let m := set_word m psp 11 0
    let m := set_word m psp 10 0
    let m := set_word m psp 9 0xFFFFFFFD
    let m := set_word m psp 8 (get m task_data .arg)
    let m := set_word m psp 7 0
    let m := set_word m psp 6 0
    let m := set_word m psp 5 pic_offset
    let m := set_word m psp 4 0
    let m := set_word m psp 3 0
    let m := set_word m psp 2 0
    let m := set_word m psp 1 0
    let m := set_word m psp 0 psp
    put m task_data .context psp

/-! ## task.c -/

def task_struct_magic : Nat := 123456
def defauld_thread_priority : Nat := 8
def TASK_READY : Nat := 2

structure Request where
  entry : Nat
  /-- An `int` that is not negative. -/
  stack_size : Nat
  argv : Nat
  priority : Nat
  name : Option (List UInt8)
  offset : Nat

/-- A task, the memory and the next `id_count`. -/
structure Created where
  task : Nat
  mem : Mem
  id_count : Nat

/-- The name is cut off where it does not fit. -/
def stored_name (name : List UInt8) : List UInt8 :=
  (if name.length < task_name_max_len then name else name.take (task_name_max_len - 1)) ++ [0]

/-- The bytes asked for: the stack, the `task_struct` and 64 more, up to a multiple of 128. -/
def block_size (stack_size : Nat) : Nat := size_of_int (task_stack_size sizeof_task_struct stack_size)

def __new_task_create (kmalloc : Nat → Option Nat) (return_function id_count : Nat) (m : Mem) (r : Request) :
    Except Int Created :=
  match r.name with
  | none => .error (-1)
  | some name =>
    if r.entry = 0 then .error (-1)
    else
      match kmalloc (block_size r.stack_size) with
      | none => .error (-ENOMEM)
      | some new_task =>
        let priority := if r.priority = 0 then defauld_thread_priority else r.priority
        let m := put m new_task .stack_ptr (u32 (new_task + sizeof_task_struct))
        let m := put m new_task .magic task_struct_magic
        let m := put m new_task .id id_count
        let m := put m new_task .pid id_count
        let m := put m new_task .entry r.entry
        let m := put m new_task .arg r.argv
        let m := put m new_task .priority priority
        let m := put m new_task .stack_Top (u32 (new_task + block_size r.stack_size))
        let m := put m new_task .offset r.offset
        let m := put m new_task .comm (new_task + Member.task_name.offsetof)
        let m := m.copy (new_task + Member.task_name.offsetof) (stored_name name)
        let m := __init_Taskcontext return_function m new_task r.offset
        .ok ⟨new_task, put m new_task .state TASK_READY, u32 (id_count + 1)⟩

/-! ## What is promised -/

/-- The saved stack pointer of a task that was just created. -/
def saved_psp (c : Created) : Nat := get c.mem c.task .context

/-- The stack pointer behind the words that `PendSV_Handler` and the exception
return pop. -/
def popped_sp (c : Created) : Nat := saved_psp c + 16 * 4

structure Sized (stack_size : Nat) (c : Created) : Prop where
  context : ∀ i < 16, c.task + sizeof_task_struct ≤ saved_psp c + 4 * i ∧
    saved_psp c + 4 * i + 4 ≤ c.task + block_size stack_size
  aligned : saved_psp c % 8 = 0
  room : c.task + sizeof_task_struct + stack_size ≤ popped_sp c

/-- What rounding the size up to 128 adds. -/
def padding (stack_size : Nat) : Nat := (128 - (stack_size + 64 + sizeof_task_struct) % 128) % 128

/-- The padding is enough for what aligning the top takes off, and together with the
stack for the words of the context that are not in the 64 bytes. -/
structure Fits (stack_size task : Nat) : Prop where
  top : task % 8 ≤ padding stack_size
  context : 64 + task % 8 ≤ padding stack_size + stack_size

/-! ## The size of the block -/

theorem i32_i32_add (a b : Int) : i32 (i32 a + b) = i32 (a + b) := by
  unfold i32
  omega

/-- Where the `int` overflows, `kmalloc` is still asked for the right `size_t`. -/
theorem block_size_eq {stack_size : Nat} (h : stack_size < 2 ^ 31) :
    block_size stack_size = stack_size + 64 + sizeof_task_struct + padding stack_size := by
  have hint : task_stack_size sizeof_task_struct stack_size = i32 (stack_size + 363) / 128 * 128 := by
    rw [sizeof_task_struct_eq]
    dsimp only [task_stack_size]
    rw [i32_i32_add, i32_i32_add, Int.add_assoc, i32_i32_add, Int.add_assoc]
    rfl
  have hwrap : i32 (stack_size + 363) = stack_size + 363 ∨ i32 (stack_size + 363) = stack_size + 363 - 2 ^ 32 := by
    unfold i32
    omega
  rw [block_size, hint, padding, sizeof_task_struct_eq, size_of_int]
  rcases hwrap with hw | hw <;> rw [hw] <;> omega

theorem block_size_dvd {stack_size : Nat} (h : stack_size < 2 ^ 31) : block_size stack_size % 128 = 0 := by
  rw [block_size_eq h, padding]
  omega

/-! ## The context -/

section Context
variable {m : Mem} {task : Nat}

theorem get_put_same (m : Mem) (task : Nat) (f : Member) (v : Nat) : get (put m task f v) task f = v % 256 ^ f.size :=
  Mem.load_store_same _ _ _ _

theorem get_put_ne {f g : Member} (h : f ≠ g) (v : Nat) : get (put m task g v) task f = get m task f := by
  have := member_apart h
  exact Mem.load_store_ne (by omega)

theorem stored_name_length (name : List UInt8) : (stored_name name).length ≤ Member.task_name.size := by
  have hmax : Member.task_name.size = 64 := rfl
  unfold stored_name task_name_max_len
  rw [hmax, List.length_append, List.length_singleton]
  split
  · omega
  · rw [List.length_take]
    omega

theorem get_copy_name {f : Member} (h : f ≠ .task_name) (name : List UInt8) :
    get (m.copy (task + Member.task_name.offsetof) (stored_name name)) task f = get m task f := by
  have hlen := stored_name_length name
  have := member_apart h
  exact Mem.load_congr fun x h1 h2 => Mem.copy_apply_ne (by omega)

theorem init_context_psp (return_function pic_offset : Nat) (h : task ≠ 0) :
    get (__init_Taskcontext return_function m task pic_offset) task .context =
      u32sub (get m task .stack_Top / 8 * 8) 128 := by
  rw [__init_Taskcontext, if_neg h]
  exact (get_put_same _ _ _ _).trans (Nat.mod_eq_of_lt (u32_lt _))

end Context

section Create
variable {kmalloc : Nat → Option Nat} {return_function id_count : Nat} {m : Mem} {r : Request} {c : Created}

theorem put_apply_ne {task x : Nat} {f : Member} {v : Nat} (h : x < task ∨ task + sizeof_task_struct ≤ x) :
    put m task f v x = m x := by
  have := member_inside f
  exact Mem.store_apply_ne (by omega)

/-- A task that was created has its block, and the context was written when the
top of the stack was known. -/
theorem new_task_create_ok (h : __new_task_create kmalloc return_function id_count m r = .ok c) :
    kmalloc (block_size r.stack_size) = some c.task ∧ ∃ m₀,
      get m₀ c.task .stack_Top = u32 (c.task + block_size r.stack_size) ∧
      (∀ x, x < c.task ∨ c.task + sizeof_task_struct ≤ x → m₀ x = m x) ∧
      c.mem = put (__init_Taskcontext return_function m₀ c.task r.offset) c.task .state TASK_READY := by
  unfold __new_task_create at h
  split at h
  · cases h
  · rename_i name _
    split at h
    · cases h
    · split at h
      · cases h
      · rename_i new_task hk
        obtain rfl := Except.ok.inj h
        refine ⟨hk, _, ?_, ?_, rfl⟩
        · rw [get_copy_name (by decide), get_put_ne (by decide), get_put_ne (by decide), get_put_same]
          exact Nat.mod_eq_of_lt (u32_lt _)
        · intro x hx
          have hlen := stored_name_length name
          have hname := member_inside .task_name
          dsimp only at hx
          rw [Mem.copy_apply_ne (by omega)]
          simp only [put_apply_ne hx]

theorem saved_psp_top (h : __new_task_create kmalloc return_function id_count m r = .ok c) (h0 : c.task ≠ 0) :
    saved_psp c = u32sub (u32 (c.task + block_size r.stack_size) / 8 * 8) 128 := by
  obtain ⟨-, m₀, htop, -, hm⟩ := new_task_create_ok h
  rw [saved_psp, hm, get_put_ne (by decide), init_context_psp _ _ h0, htop]

/-- The context ends 64 bytes below the aligned top of the block. -/
theorem saved_psp_eq (h : __new_task_create kmalloc return_function id_count m r = .ok c) (hs : r.stack_size < 2 ^ 31)
    (hmem : ∀ n a, kmalloc n = some a → a ≠ 0 ∧ a % 4 = 0 ∧ a + n ≤ 2 ^ 32) :
    saved_psp c + 128 + c.task % 8 = c.task + block_size r.stack_size ∧ c.task % 4 = 0 := by
  obtain ⟨h0, h4, hend⟩ := hmem _ _ (new_task_create_ok h).1
  have hsize := block_size_eq hs
  have hdvd := block_size_dvd hs
  rw [saved_psp_top h h0]
  unfold u32sub u32
  omega

theorem set_word_apply_ne {psp i v x : Nat} (hw : psp + 4 * i < 2 ^ 32) (h : x < psp ∨ psp + 4 * i + 4 ≤ x) :
    set_word m psp i v x = m x := by
  rw [set_word, u32_of_lt hw]
  exact Mem.store_apply_ne (by omega)

/-- Outside the 16 words and the saved stack pointer nothing is written. -/
theorem init_context_apply_ne {task psp x : Nat} (pic_offset : Nat) (hpsp : psp = u32sub (get m task .stack_Top / 8 * 8) 128)
    (hend : psp + 60 < 2 ^ 32) (h : x < psp ∨ psp + 64 ≤ x)
    (hx : x < task + Member.context.offsetof ∨ task + Member.context.offsetof + Member.context.size ≤ x) :
    __init_Taskcontext return_function m task pic_offset x = m x := by
  have hword : ∀ (m : Mem) (i v : Nat), i < 16 → set_word m psp i v x = m x := fun m i v hi =>
    set_word_apply_ne (by omega) (by omega)
  unfold __init_Taskcontext
  split
  · rfl
  · dsimp only
    rw [← hpsp, put, Mem.store_apply_ne hx]
    simp (disch := decide) only [hword]

/-- Whatever its stack, a task is written into its own block. -/
theorem create_confined (h : __new_task_create kmalloc return_function id_count m r = .ok c) (hs : r.stack_size < 2 ^ 31)
    (hmem : ∀ n a, kmalloc n = some a → a ≠ 0 ∧ a % 4 = 0 ∧ a + n ≤ 2 ^ 32) {x : Nat}
    (hx : x < c.task ∨ c.task + block_size r.stack_size ≤ x) : c.mem x = m x := by
  obtain ⟨hk, m₀, htop, hkeep, hm⟩ := new_task_create_ok h
  obtain ⟨h0, h4, hend⟩ := hmem _ _ hk
  obtain ⟨hpsp, -⟩ := saved_psp_eq h hs hmem
  have hsize := block_size_eq hs
  have hstruct := sizeof_task_struct_eq
  have hcontext := member_inside .context
  have hout : x < c.task ∨ c.task + sizeof_task_struct ≤ x := by omega
  have hsaved : saved_psp c = u32sub (get m₀ c.task .stack_Top / 8 * 8) 128 := by rw [saved_psp_top h h0, htop]
  rw [hm, put_apply_ne hout, init_context_apply_ne r.offset hsaved (by omega) (by omega) (by omega), hkeep x hout]

/-- A new task has the stack that was asked for, and its first context inside its
own block, exactly if the padding is enough. -/
theorem stack_sized (h : __new_task_create kmalloc return_function id_count m r = .ok c) (hs : r.stack_size < 2 ^ 31)
    (hmem : ∀ n a, kmalloc n = some a → a ≠ 0 ∧ a % 4 = 0 ∧ a + n ≤ 2 ^ 32) :
    Sized r.stack_size c ↔ Fits r.stack_size c.task := by
  obtain ⟨hpsp, h4⟩ := saved_psp_eq h hs hmem
  have hsize := block_size_eq hs
  have hdvd := block_size_dvd hs
  constructor
  · rintro ⟨hcontext, -, hroom⟩
    have hlow := (hcontext 0 (by decide)).1
    unfold popped_sp at hroom
    exact ⟨by omega, by omega⟩
  · rintro ⟨htop, hcontext⟩
    refine ⟨fun i hi => ⟨by omega, by omega⟩, by omega, ?_⟩
    unfold popped_sp
    omega

/-- With a block there is a task. -/
theorem new_task_create_some {name : List UInt8} {a : Nat} (hname : r.name = some name) (hentry : r.entry ≠ 0)
    (hk : kmalloc (block_size r.stack_size) = some a) :
    ∃ c, __new_task_create kmalloc return_function id_count m r = .ok c ∧ c.task = a := by
  unfold __new_task_create
  rw [hname]
  dsimp only
  rw [if_neg hentry, hk]
  exact ⟨_, rfl, rfl⟩

/-- For a launch only the address counts. -/
theorem new_task_create_pointer (mach : Machine) (hsize : mach.sizeof_task_struct = sizeof_task_struct)
    (hk : mach.task_kmalloc = kmalloc) (name : Option (List Char)) (hname : name = none ↔ r.name = none) :
    Launch.__new_task_create mach r.entry r.stack_size name =
      match __new_task_create kmalloc return_function id_count m r with
      | .ok c => .addr c.task
      | .error err => .err err := by
  rw [Launch.__new_task_create, __new_task_create, hsize, hk, ← block_size]
  cases hr : r.name with
  | none => rw [if_pos (.inr (hname.2 hr))]
  | some n =>
    have hn : ¬name = none := fun h => by simp [hname.1 h] at hr
    by_cases hentry : r.entry = 0
    · rw [if_pos (.inl hentry)]
      simp only [if_pos hentry]
    · rw [if_neg (by simp [hentry, hn])]
      simp only [if_neg hentry]
      cases kmalloc (block_size r.stack_size) <;> rfl

end Create

/-- A request of the task `t`. -/
def request (stack_size : Nat) : Request := ⟨0x8001, stack_size, 0, 0, some [116], 7⟩

/-- The allocator with one free block at `a`. -/
def block_at (a n : Nat) : Option Nat := if n ≤ 4096 then some a else none

theorem block_at_block {a : Nat} (h0 : a ≠ 0) (h4 : a % 4 = 0) (hend : a + 4096 ≤ 2 ^ 32) (n b : Nat)
    (h : block_at a n = some b) : b ≠ 0 ∧ b % 4 = 0 ∧ b + n ≤ 2 ^ 32 := by
  unfold block_at at h
  split at h
  · obtain rfl := Option.some.inj h
    exact ⟨h0, h4, by omega⟩
  · cases h

/-- The default task of a core. -/
theorem stack_sized_default : ∃ c, __new_task_create (block_at 0x20001014) 0x8101 1 (fun _ => 0) (request 512) = .ok c ∧
    Sized 512 c := by
  have hk : block_at 0x20001014 (block_size (request 512).stack_size) = some 0x20001014 := by decide +kernel
  obtain ⟨c, hc, ha⟩ := new_task_create_some (r := request 512) rfl (by decide) hk
  refine ⟨c, hc, (stack_sized hc (by decide) (block_at_block (by decide) (by decide) (by decide))).2 ?_⟩
  rw [ha]
  exact ⟨by decide, by decide⟩

/-- With no stack the context is written over the end of the `task_struct`, here over
`offset`. With 148 bytes in a block that begins between two multiples of 8, 144 are
left. -/
theorem stack_not_sized : (∃ c, __new_task_create (block_at 0x20001000) 0x8101 1 (fun _ => 0) (request 0) = .ok c ∧
      ¬Sized 0 c ∧ get c.mem c.task .offset = 0) ∧
    ∃ c, __new_task_create (block_at 0x20001014) 0x8101 1 (fun _ => 0) (request 148) = .ok c ∧ ¬Sized 148 c := by
  constructor
  · have hk : block_at 0x20001000 (block_size (request 0).stack_size) = some 0x20001000 := by decide +kernel
    obtain ⟨c, hc, ha⟩ := new_task_create_some (r := request 0) rfl (by decide) hk
    have hoffset : (__new_task_create (block_at 0x20001000) 0x8101 1 (fun _ => 0) (request 0)).toOption.map
        (fun c => get c.mem c.task .offset) = some 0 := by decide +kernel
    rw [hc] at hoffset
    refine ⟨c, hc, fun h => ?_, Option.some.inj hoffset⟩
    have hfits := (stack_sized hc (by decide) (block_at_block (by decide) (by decide) (by decide))).1 h
    exact absurd hfits.context (by rw [ha]; decide)
  · have hk : block_at 0x20001014 (block_size (request 148).stack_size) = some 0x20001014 := by decide +kernel
    obtain ⟨c, hc, ha⟩ := new_task_create_some (r := request 148) rfl (by decide) hk
    refine ⟨c, hc, fun h => ?_⟩
    have hfits := (stack_sized hc (by decide) (block_at_block (by decide) (by decide) (by decide))).1 h
    exact absurd hfits.top (by rw [ha]; decide)

end McLinOS.TaskContext
