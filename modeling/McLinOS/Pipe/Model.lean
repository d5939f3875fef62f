import McLinOS.CLib.Circular
import McLinOS.CLib.Runs
/-!
# Pipes

A file of `fs/pipefs/pipefs.c` that any number of tasks use through their open
files, by `kernel_read` and `kernel_write` of `fs/vfs.c` or `sys_read` of
`lib/sys/sys_fs.c`. The locks are locks: taking one waits for the task that has
it. A task's step is one access to a lock or, under `buf->lock`, to the ring.
-/
open CLib Function

namespace McLinOS.Pipefs

def PIPE_BUFFER_SIZE : Nat := 1024

/-- `struct pipe_buffer` without its lock. `buffer` is what is from the array's
address on. -/
structure pipe_buffer where
  buffer : Nat → UInt8
  size : Nat
  head : Nat
  tail : Nat

/-- `none` is the -1 of an empty buffer. -/
def pipe_buffer_read (buf : pipe_buffer) : Option (UInt8 × pipe_buffer) :=
  if buf.head = buf.tail then none
  else some (buf.buffer buf.tail, { buf with tail := (buf.tail + 1) % buf.size })

/-- `none` is the -1 of a full buffer. -/
def pipe_buffer_write (buf : pipe_buffer) (data : UInt8) : Option pipe_buffer :=
  if (buf.head + 1) % buf.size = buf.tail then none
  else some { buf with buffer := update buf.buffer buf.head data, head := (buf.head + 1) % buf.size }

def O_ACCMODE : Nat := 3
def O_RDONLY : Nat := 0

inductive Call where
  | kernel_read (size : Nat)
  | sys_read (count : Nat)
  | kernel_write (data : List UInt8)
  deriving DecidableEq, Repr

/-- How many bytes the call is for. -/
def Call.size : Call → Nat
  | .kernel_read size => size
  | .sys_read count => count
  | .kernel_write data => data.length

/-- Where a task is. In `transfer` it is in the loop of `pipefs_read` or
`pipefs_write`, at byte `i`. -/
inductive PC (File : Type) where
  | idle
  | lock_file (file : File) (c : Call)
  | lock_inode (file : File) (c : Call)
  | transfer (file : File) (c : Call) (i : Nat)
  | unlock_inode (file : File) (c : Call)
  | unlock_file (file : File) (c : Call)
  | finish (c : Call)
  deriving DecidableEq, Repr

/-- The pipe and the tasks. `buf` is `NULL` before the first open. `written` has
the bytes that were put in the ring, `removed` those that were taken. A byte that
was taken is named by its place in `removed`: `delivered` says in whose buffer it
is, `kbufs` in which `kbuf` of a running `sys_read`. -/
structure Pipe (Task File : Type) where
  buf : Option pipe_buffer
  i_lock : Option Task
  f_slock : File → Option Task
  pc : Task → PC File
  written : List UInt8
  removed : List UInt8
  delivered : List (Nat × Task)
  kbufs : List (Nat × Task)

variable {Task File : Type} [DecidableEq Task] [DecidableEq File]

def Pipe.goto (s : Pipe Task File) (t : Task) (pc : PC File) : Pipe Task File := { s with pc := update s.pc t pc }

/-- What `kmalloc` gave is not initialised. -/
def pipefs_open (block : Option pipe_buffer) (s : Pipe Task File) : Pipe Task File :=
  match s.buf with
  | none => { s with buf := block }
  | some _ => s

/-- `data[i] = byte` in the reader's buffer or in `kbuf`. -/
def take (t : Task) (c : Call) (byte : UInt8) (s : Pipe Task File) : Pipe Task File :=
  let place := (s.removed.length, t)
  match c with
  | .sys_read _ => { s with removed := s.removed ++ [byte], kbufs := s.kbufs ++ [place] }
  | _ => { s with removed := s.removed ++ [byte], delivered := s.delivered ++ [place] }

/-- One try of the loop of `pipefs_write`. A try that fails is followed by
`__delay(1)`. -/
def pipefs_write (t : Task) (file : File) (data : List UInt8) (i : Nat) (s : Pipe Task File) : Pipe Task File :=
  match s.buf with
  | none => s
  | some buf =>
    if i < data.length then
      match pipe_buffer_write buf (data.getD i 0) with
      | none => s
      | some buf =>
        { s with buf := some buf, written := s.written ++ [data.getD i 0] }.goto t (.transfer file (.kernel_write data) (i + 1))
    else s.goto t (.unlock_inode file (.kernel_write data))

/-- One try of the loop of `pipefs_read`. -/
def pipefs_read (t : Task) (file : File) (c : Call) (i : Nat) (s : Pipe Task File) : Pipe Task File :=
  match s.buf with
  | none => s
  | some buf =>
    if i < c.size then
      match pipe_buffer_read buf with
      | none => s
      | some (byte, buf) => (take t c byte { s with buf := some buf }).goto t (.transfer file c (i + 1))
    else s.goto t (.unlock_inode file c)

def transfer (t : Task) (file : File) (c : Call) (i : Nat) (s : Pipe Task File) : Pipe Task File :=
  match c with
  | .kernel_write data => pipefs_write t file data i s
  | _ => pipefs_read t file c i s

/-- What `pipefs_read` and `pipefs_write` return. -/
def pipefs_ret : Nat := 0

/-- The end of a call. `sys_read` copies as many bytes as `kernel_read` returned
and frees `kbuf`. -/
def finish (t : Task) (c : Call) (s : Pipe Task File) : Pipe Task File :=
  match c with
  | .sys_read _ =>
    { s with
      delivered := s.delivered ++ (s.kbufs.filter (·.2 = t)).take pipefs_ret
      kbufs := s.kbufs.filter (·.2 ≠ t) }
  | _ => s

/-- The next step of `t`. A task that finds a lock taken tries again. -/
def advance (t : Task) (s : Pipe Task File) : Pipe Task File :=
  match s.pc t with
  | .idle => s
  | .lock_file file c =>
    if s.f_slock file = none then { s with f_slock := update s.f_slock file (some t) }.goto t (.lock_inode file c) else s
  | .lock_inode file c => if s.i_lock = none then { s with i_lock := some t }.goto t (.transfer file c 0) else s
  | .transfer file c i => transfer t file c i s
  | .unlock_inode file c => { s with i_lock := none }.goto t (.unlock_file file c)
  | .unlock_file file c => { s with f_slock := update s.f_slock file none }.goto t (.finish c)
  | .finish c => (finish t c s).goto t .idle

/-- A task calls a function. `kernel_write` on a file that is read only does
nothing. -/
def call (f_flags : File → Nat) (t : Task) (file : File) (c : Call) (s : Pipe Task File) : Pipe Task File :=
  match c with
  | .kernel_write _ => if f_flags file &&& O_ACCMODE = O_RDONLY then s else s.goto t (.lock_file file c)
  | _ => s.goto t (.lock_file file c)

inductive Action (Task File : Type) where
  | filp_open (block : Option pipe_buffer)
  | call (t : Task) (file : File) (c : Call)
  | task (t : Task)

def act (f_flags : File → Nat) : Action Task File → Pipe Task File → Pipe Task File
  | .filp_open block, s => pipefs_open block s
  | .call t file c, s => call f_flags t file c s
  | .task t, s => advance t s

/-- A file is open for its first call, and `pipefs_open` runs under `i_lock`. -/
def Enabled (s : Pipe Task File) : Action Task File → Prop
  | .filp_open _ => s.i_lock = none
  | .call t _ _ => s.pc t = .idle ∧ s.buf.isSome
  | .task _ => True

/-- The file was created. -/
def Created (s : Pipe Task File) : Prop :=
  s.buf = none ∧ s.i_lock = none ∧ (∀ file, s.f_slock file = none) ∧ (∀ t, s.pc t = .idle) ∧
    s.written = [] ∧ s.removed = [] ∧ s.delivered = [] ∧ s.kbufs = []

end McLinOS.Pipefs
