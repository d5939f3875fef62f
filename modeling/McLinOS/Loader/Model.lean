import McLinOS.CLib.Mem
/-!
# Loading user applications

`kernel/loader/user_application_loader.c`, with `initramfs_read` for the file.
Addresses have 32 bits. `writes` are the blocks of memory that are written,
apart from local variables, each as its address and length.
-/
open CLib

set_option linter.style.nameCheck false

namespace McLinOS.Loader

structure AppMeta where
  magic : Nat
  kernel_ver : Nat
  cmd : Nat
  arch_flags : Nat
  stack_size : Nat
  start : Nat
  got_start : Nat
  got_end : Nat
  program_size : Nat
  deriving DecidableEq, Repr

def sizeof_AppMeta : Nat := 36

/-- The header at `a`. -/
def AppMeta.load (m : Mem) (a : Nat) : AppMeta where
  magic := m.load 4 a
  kernel_ver := m.load 4 (a + 4)
  cmd := m.load 4 (a + 8)
  arch_flags := m.load 4 (a + 12)
  stack_size := m.load 4 (a + 16)
  start := m.load 4 (a + 20)
  got_start := m.load 4 (a + 24)
  got_end := m.load 4 (a + 28)
  program_size := m.load 4 (a + 32)

/-- The fields of `loader_config_t` that are used. -/
structure loader_config_t where
  magic : Nat
  min_kernel_ver : Nat
  max_kernel_ver : Nat
  cmd : Nat
  max_stack_size : Nat
  arch_flags : Nat
  max_app_size : Nat
  deriving Repr

def EINVAL : Int := 22
def ENOMEM : Int := 12

def check_app (config : loader_config_t) (app : AppMeta) : Int :=
  if app.magic ≠ config.magic then -EINVAL
  else if app.kernel_ver < config.min_kernel_ver ∨ config.max_kernel_ver < app.kernel_ver then -EINVAL
  else if app.cmd ≠ config.cmd then -EINVAL
  else if app.arch_flags ≠ config.arch_flags then -EINVAL
  else if config.max_stack_size < app.stack_size / 1024 then -EINVAL
  else if u32 (config.max_app_size * 1024) < app.program_size then -EINVAL
  else 0

/-- A file of the initramfs. `page` has the `size` bytes of its page, `i_size` is
the size in the VFS inode. -/
structure AppFile where
  page : Option (List UInt8)
  i_size : Nat

/-- The length of the file's content. -/
def AppFile.length (f : AppFile) : Nat := (f.page.getD []).length

/-- The bytes that are copied. There are none where it returns 0 without reading. -/
def initramfs_read (f : AppFile) (size offset : Nat) : List UInt8 :=
  match f.page with
  | none => []
  | some data => if data.length < offset + size then [] else (data.drop offset).take size

/-- One entry of the table. The linked address is moved by the base address. -/
def relocate (base entry : Nat) (s : Mem × List (Nat × Nat)) : Mem × List (Nat × Nat) :=
  if s.1.load 4 entry ≠ 0 then (s.1.store 4 entry (u32 (s.1.load 4 entry + base)), s.2 ++ [(entry, 4)]) else s

/-- The loop of `set_got_table` from `entry` on, after at most `turns` turns. -/
def set_got_table (base got_end : Nat) : Nat → Nat → Mem × List (Nat × Nat) → Mem × List (Nat × Nat)
  | 0, _, s => s
  | turns + 1, entry, s =>
    if entry < got_end then set_got_table base got_end turns (u32 (entry + 4)) (relocate base entry s) else s

/-- What a load has done so far. `app` is the header that was checked. -/
structure Load where
  app : AppMeta
  addr : Nat
  start : Nat
  got_start : Nat
  got_end : Nat
  mem : Mem
  writes : List (Nat × Nat)

/-- The header that is checked. `load_app_data` is what the local variable held
before, in case the file is too short for a header. -/
def read_header (f : AppFile) (load_app_data : AppMeta) : AppMeta :=
  match initramfs_read f sizeof_AppMeta 0 with
  | [] => load_app_data
  | data => .load (Mem.copy (fun _ => 0) 0 data) 0

/-- The application in memory. -/
def image (f : AppFile) (addr : Nat) (m : Mem) : Mem := m.copy addr (initramfs_read f f.i_size 0)

/-- `turns` bounds the turns of the loop over the table. An error is what is
returned before anything is written. -/
def loader_user_app (turns : Nat) (config : loader_config_t) (f : AppFile) (load_app_data : AppMeta)
    (kmalloc : Nat → Option Nat) (m : Mem) : Except Int Load :=
  let app := read_header f load_app_data
  if check_app config app ≠ 0 then .error (-1)
  else
    match kmalloc (u32 (app.program_size + 8)) with
    | none => .error (-ENOMEM)
    | some addr =>
      let m := image f addr m
      let head := AppMeta.load m addr
      let got_start := u32 (head.got_start + addr)
      let got_end := u32 (head.got_end + addr)
      let s := set_got_table addr got_end turns got_start (m, [(addr, (initramfs_read f f.i_size 0).length)])
      .ok ⟨app, addr, u32 (head.start + addr), got_start, got_end, s.1, s.2⟩

end McLinOS.Loader
