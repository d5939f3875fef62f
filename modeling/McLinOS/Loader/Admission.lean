import McLinOS.Ini.Model
import McLinOS.Loader.Confined
import McLinOS.Syscall.Model
/-!
# Which applications are admitted

The limits of `/boot/config.txt` are in units of 1024 bytes. `check_app` divides
for the one and multiplies for the other, so both comparisons are off the
mathematical ones somewhere. What is admitted then goes into the size of the
task's stack, which is an `int`.
-/
open CLib

set_option linter.style.nameCheck false

namespace McLinOS.Loader

/-! ## The configuration -/

/-- The value of a key of `Loader_Config`. Without one the system does not start. -/
def config_value (file_data : List Char) (key : String) : Option (List Char) :=
  match Ini.get_value_from_ini 64 file_data (some "Loader_Config".toList) key.toList with
  | some (some (data, _)) => some data
  | _ => none

def max_app_size (data : List Char) : Nat := if data = "Auto".toList then 0xffffffff else Syscall.str_to_uint32 data

/-- `loader_init`, up to the first key that is missing. -/
def loader_init (text : List Char) : Option loader_config_t := do
  let file_data := Syscall.preprocess_ini_data text
  let magic ← config_value file_data "magic"
  let min_kernel_ver ← config_value file_data "min_kernel_ver"
  let max_kernel_ver ← config_value file_data "max_kernel_ver"
  let cmd ← config_value file_data "cmd"
  let max_stack_size ← config_value file_data "max_stack_size_limit"
  let _default_priority ← config_value file_data "default_priority"
  let arch_flags ← config_value file_data "arch_flags"
  let app_size ← config_value file_data "max_app_size"
  some {
    magic := Syscall.str_to_uint32 magic
    min_kernel_ver := Syscall.str_to_uint32 min_kernel_ver
    max_kernel_ver := Syscall.str_to_uint32 max_kernel_ver
    cmd := Syscall.str_to_uint32 cmd
    max_stack_size := Syscall.str_to_uint32 max_stack_size
    arch_flags := Syscall.str_to_uint32 arch_flags
    max_app_size := max_app_size app_size }

/-! ## The size of a task -/

/-- A value kept in an `int`. -/
def i32 (n : Int) : Int := (n + 2 ^ 31) % 2 ^ 32 - 2 ^ 31

theorem i32_of_mem {n : Int} (hlo : -2 ^ 31 ≤ n) (hhi : n < 2 ^ 31) : i32 n = n := by
  unfold i32
  omega

theorem i32_lt (n : Int) : i32 n < 2 ^ 31 := by
  unfold i32
  omega

/-- `stack_size` in `__new_task_create` when it is given to `kmalloc`. -/
def task_stack_size (sizeof_task_struct : Nat) (stack_size : Nat) : Int :=
  let stack_size := i32 stack_size
  let stack_size := i32 (stack_size + 64)
  let stack_size := i32 (stack_size + sizeof_task_struct)
  i32 (stack_size + 127) / 128 * 128

theorem task_stack_size_eq {sizeof_task_struct stack_size : Nat} :
    task_stack_size sizeof_task_struct stack_size = (stack_size + 64 + sizeof_task_struct + 127) / 128 * 128 ↔
      stack_size + 64 + sizeof_task_struct + 127 < 2 ^ 31 := by
  dsimp only [task_stack_size]
  constructor
  · intro h
    have := i32_lt (i32 (i32 (i32 stack_size + 64) + sizeof_task_struct) + 127)
    omega
  · intro h
    have h1 : i32 stack_size = stack_size := i32_of_mem (by omega) (by omega)
    have h2 : i32 (stack_size + 64) = stack_size + 64 := i32_of_mem (by omega) (by omega)
    have h3 : i32 (stack_size + 64 + sizeof_task_struct) = stack_size + 64 + sizeof_task_struct :=
      i32_of_mem (by omega) (by omega)
    rw [h1, h2, h3, i32_of_mem (by omega) (by omega)]

/-! ## Admission -/

/-- The tests of a header that are not about sizes. -/
def Matches (config : loader_config_t) (app : AppMeta) : Prop :=
  app.magic = config.magic ∧ config.min_kernel_ver ≤ app.kernel_ver ∧ app.kernel_ver ≤ config.max_kernel_ver ∧
    app.cmd = config.cmd ∧ app.arch_flags = config.arch_flags

/-- Exactly the applications within both limits are admitted, and the sizes computed
for them do not wrap. -/
structure Admits (sizeof_task_struct : Nat) (config : loader_config_t) (app : AppMeta) : Prop where
  limits : check_app config app = 0 ↔ Matches config app ∧ app.stack_size ≤ 1024 * config.max_stack_size ∧
    app.program_size ≤ 1024 * config.max_app_size
  app_size : check_app config app = 0 → u32 (app.program_size + 8) = app.program_size + 8
  stack : check_app config app = 0 →
    task_stack_size sizeof_task_struct app.stack_size = (app.stack_size + 64 + sizeof_task_struct + 127) / 128 * 128

/-- What has to hold of the sizes of a header that matches. -/
structure Measured (sizeof_task_struct : Nat) (config : loader_config_t) (app : AppMeta) : Prop where
  /-- The rest of a unit above the limit is not seen. -/
  stack_limit : ¬(1024 * config.max_stack_size < app.stack_size ∧ app.stack_size < 1024 * (config.max_stack_size + 1) ∧
    app.program_size ≤ u32 (config.max_app_size * 1024))
  /-- The limit in bytes wraps. -/
  app_limit : ¬(app.stack_size ≤ 1024 * config.max_stack_size ∧ u32 (config.max_app_size * 1024) < app.program_size ∧
    app.program_size ≤ 1024 * config.max_app_size)
  /-- The stack does not fit an `int`. -/
  stack_size : app.stack_size ≤ 1024 * config.max_stack_size → app.program_size ≤ u32 (config.max_app_size * 1024) →
    app.stack_size + 64 + sizeof_task_struct + 127 < 2 ^ 31

section Admission
variable {config : loader_config_t} {app : AppMeta}

theorem check_app_iff : check_app config app = 0 ↔ Matches config app ∧ app.stack_size / 1024 ≤ config.max_stack_size ∧
    app.program_size ≤ u32 (config.max_app_size * 1024) := by
  have herr : ¬(-EINVAL = 0) := by decide
  unfold check_app Matches
  split
  · exact iff_of_false herr (by tauto)
  split
  · exact iff_of_false herr (by omega)
  split
  · exact iff_of_false herr (by tauto)
  split
  · exact iff_of_false herr (by tauto)
  split
  · exact iff_of_false herr (by omega)
  split
  · exact iff_of_false herr (by omega)
  · exact iff_of_true rfl (by omega)

/-- The limits mean what they say for exactly the headers that are measured right. -/
theorem admits_iff (sizeof_task_struct : Nat) (config : loader_config_t) (app : AppMeta) :
    Admits sizeof_task_struct config app ↔ (Matches config app → Measured sizeof_task_struct config app) := by
  have hle : u32 (config.max_app_size * 1024) ≤ 1024 * config.max_app_size := by
    unfold u32
    omega
  constructor
  · rintro ⟨hlimits, -, hstack⟩ hmatch
    rw [check_app_iff] at hlimits hstack
    rw [task_stack_size_eq] at hstack
    simp only [hmatch, true_and] at hlimits hstack
    exact ⟨by omega, by omega, by omega⟩
  · intro h
    refine ⟨?_, app_size_eq, ?_⟩
    · rw [check_app_iff]
      refine and_congr_right fun hmatch => ?_
      obtain ⟨h1, h2, -⟩ := h hmatch
      omega
    · intro hc
      obtain ⟨hmatch, hs, ha⟩ := check_app_iff.1 hc
      obtain ⟨h1, -, h3⟩ := h hmatch
      rw [task_stack_size_eq]
      omega

/-- What is read from the text has 32 bits. -/
theorem str_to_uint32_lt (s : List Char) : Syscall.str_to_uint32 s < 2 ^ 32 := by
  unfold Syscall.str_to_uint32
  rcases List.eq_nil_or_concat s with rfl | ⟨s, c, rfl⟩
  · decide
  · rw [List.concat_eq_append, List.foldl_append, List.foldl_cons, List.foldl_nil]
    exact u32_lt _

theorem loader_init_limits {text : List Char} (h : loader_init text = some config) :
    config.max_stack_size < 2 ^ 32 ∧ config.max_app_size < 2 ^ 32 := by
  simp only [loader_init, Option.bind_eq_bind, Option.bind_eq_some_iff, Option.some.injEq] at h
  obtain ⟨_, -, _, -, _, -, _, -, stack, -, _, -, _, -, size, -, rfl⟩ := h
  refine ⟨str_to_uint32_lt stack, ?_⟩
  dsimp only [max_app_size]
  split
  · decide
  · exact str_to_uint32_lt size

end Admission

/-- A `/boot/config.txt` with a stack of 8 units and no limit for the application. -/
def config_text : List Char :=
  ("[Loader_Config]\nmagic = 12345678\nmin_kernel_ver = 0\nmax_kernel_ver = 2\ncmd = 1\nmax_stack_size_limit = 8\n" ++
    "default_priority = 7\narch_flags = 7\nmax_app_size = Auto\n").toList

deriving instance DecidableEq for loader_config_t

theorem config_text_read : loader_init config_text = some ⟨12345678, 0, 2, 1, 8, 7, 0xffffffff⟩ := by
  decide +kernel

/-- Under that text a stack of 8193 bytes is admitted, and an application of
`2^32 - 1` bytes is not. -/
theorem limits_misread : ∃ config, loader_init config_text = some config ∧ ∀ sizeof_task_struct,
    ¬Admits sizeof_task_struct config ⟨12345678, 1, 1, 7, 8193, 0, 0, 0, 4096⟩ ∧
    ¬Admits sizeof_task_struct config ⟨12345678, 1, 1, 7, 4096, 0, 0, 0, 0xffffffff⟩ := by
  refine ⟨_, config_text_read, fun sizeof_task_struct => ⟨?_, ?_⟩⟩
  · intro h
    have hmeasured := (admits_iff ..).1 h ⟨rfl, by decide, by decide, rfl, rfl⟩
    exact hmeasured.stack_limit ⟨by decide, by decide, by decide⟩
  · intro h
    have hmeasured := (admits_iff ..).1 h ⟨rfl, by decide, by decide, rfl, rfl⟩
    exact hmeasured.app_limit ⟨by decide, by decide, by decide⟩

end McLinOS.Loader
