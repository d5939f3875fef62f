import McLinOS.Fs.OpenFilesTheorems
/-!
# Reading and writing a descriptor

`sys_read` and `sys_write` of `lib/sys/sys_fs.c` on a file of initramfs, and what
calls that go on where the last one ended would do.
-/
open CLib

namespace McLinOS.Sequential

open OpenFiles

def EFAULT : Int := 14

/-- Whether `kmalloc` has memory, whether the user's buffer cannot be copied, and
whether there is memory for a page. -/
structure Access where
  kmalloc : Bool
  fault : Bool
  alloc_page : Bool
  deriving DecidableEq, Repr

inductive Call where
  | sys_read (env : Access) (count : Nat)
  | sys_write (env : Access) (buf : List UInt8)
  deriving DecidableEq, Repr

def Call.count : Call → Nat
  | .sys_read _ count => count
  | .sys_write _ buf => buf.length

/-- What a call returns, the bytes the user gets, and where in the file it
started, if it came to that. -/
structure Result where
  start : Option Int
  ret : Int
  data : List UInt8
  deriving DecidableEq, Repr

/-- `kmalloc(0)` is `NULL`. -/
def kmalloc (env : Access) (size : Nat) : Bool := env.kmalloc && size ≠ 0

section Calls
variable (junk : Nat → UInt8)

/-- `sys_read` with the file found, from the position on, which is never before
the file. -/
def read_from (pos : Int) (file : file) (s : State) (env : Access) (count : Nat) : Option (State × Result) :=
  if kmalloc env count = false then some (s, ⟨none, -Fs.ENOMEM, []⟩)
  else do
    let (ret, kbuf) ← kernel_read (fun _ => 0) s file count pos
    if ret ≥ 0 ∧ env.fault then some (s, ⟨some pos, -EFAULT, []⟩) else some (s, ⟨some pos, ret, kbuf⟩)

/-- `sys_write` with the file found, from the position on. -/
def write_from (pos : Int) (file : file) (s : State) (env : Access) (buf : List UInt8) : Option (State × Result) :=
  if kmalloc env buf.length = false then some (s, ⟨none, -Fs.ENOMEM, []⟩)
  else if env.fault then some (s, ⟨none, -EFAULT, []⟩)
  else do
    let (s, ret) ← kernel_write junk env.alloc_page s file buf pos
    some (s, ⟨some pos, ret, []⟩)

def call_from (pos : Int) (file : file) (s : State) : Call → Option (State × Result)
  | .sys_read env count => read_from pos file s env count
  | .sys_write env buf => write_from junk pos file s env buf

def get_file_from_fd (fd_table : Nat → Option file) (fd : Nat) : Option file := if fd ≥ 256 then none else fd_table fd

/-- Both calls have a `pos` of their own, which is 0. -/
def call (fd_table : Nat → Option file) (fd : Nat) (s : State) (c : Call) : Option (State × Result) :=
  match get_file_from_fd fd_table fd with
  | none => some (s, ⟨none, -EBADF, []⟩)
  | some file => call_from junk 0 file s c

def run (fd_table : Nat → Option file) (fd : Nat) (s : State) : List Call → Option (State × List Result)
  | [] => some (s, [])
  | c :: cs => do
    let (s, r) ← call junk fd_table fd s c
    let (s, rs) ← run fd_table fd s cs
    some (s, r :: rs)

/-- The calls when each starts where the one before ended. -/
def sequential (pos : Int) (file : file) (s : State) : List Call → Option (State × List Result)
  | [] => some (s, [])
  | c :: cs => do
    let (s, r) ← call_from junk pos file s c
    let (s, rs) ← sequential (pos + max r.ret 0) file s cs
    some (s, r :: rs)

end Calls

/-- The file of initramfs inode `n` is open for reading and writing, its objects
are there, and it is not larger than a page. -/
structure Live (s : State) (file : file) (n : Nat) : Prop where
  node : file_node s file = some n
  flags : file.f_flags &&& O_ACCMODE = O_RDWR
  page : ∀ p, s.i_page n = some p → .page p ∉ s.freed
  fresh : ∀ p, s.pages.next ≤ p → .page p ∉ s.freed
  size : s.size n ≤ PAGE_SIZE

/-- The call comes to the file. -/
def reaches : Call → Bool
  | .sys_read env count => kmalloc env count
  | .sys_write env buf => kmalloc env buf.length && !env.fault

/-- The call, as the first one, transfers its bytes: they are inside the file to
be read, or the file can be written and has a page or gets one. -/
def moves (s : State) (n : Nat) : Call → Bool
  | .sys_read env count => kmalloc env count && !env.fault && (s.i_page n).isSome && count ≤ s.size n
  | .sys_write env buf =>
    kmalloc env buf.length && !env.fault && !s.read_only n && ((s.i_page n).isSome || env.alloc_page)

def total (cs : List Call) : Nat := (cs.map Call.count).sum

/-! ## One call -/

section One
variable {junk : Nat → UInt8} {s s' : State} {file : file} {n : Nat}

theorem access_end_inside {pos : Int} {count : Nat} (h : pos + count ≤ PAGE_SIZE) :
    access_end pos count = some (pos + count) := by
  have hpage : (PAGE_SIZE : Int) = 4096 := rfl
  rw [hpage] at h
  have hsmall : ¬2 ^ 63 ≤ pos + count := by omega
  rw [access_end, if_neg hsmall]

theorem Live.not_rdonly (h : Live s file n) : file.f_flags &&& O_ACCMODE ≠ O_RDONLY := by
  rw [h.flags]
  decide

theorem kernel_read_none (h : Live s file n) (hp : s.i_page n = none) (count : Nat) (pos : Int) :
    kernel_read (fun _ => 0) s file count pos = some (0, []) := by
  simp [kernel_read, h.node, hp]

theorem kernel_read_some (h : Live s file n) {p count : Nat} {pos : Int} (hp : s.i_page n = some p) (hpos : 0 ≤ pos)
    (hend : pos + count ≤ PAGE_SIZE) : kernel_read (fun _ => 0) s file count pos =
      if pos + count > s.size n then some (0, [])
      else some ((count : Int), (List.range count).map fun k => (s.pages.get p).data (pos.toNat + k)) := by
  have hdata : (List.range count).map (fun k : Nat =>
      if pos + k < 0 then 0 else (s.pages.get p).data (pos + k).toNat) =
      (List.range count).map fun k => (s.pages.get p).data (pos.toNat + k) := by
    refine List.map_congr_left fun k _ => ?_
    rw [if_neg (by omega), Int.toNat_add hpos (Int.natCast_nonneg k), Int.toNat_natCast]
  simp [kernel_read, h.node, hp, access_end_inside hend, h.page p hp, ← hdata]

theorem read_from_fault (h : Live s file n) {env : Access} {count : Nat} {pos : Int} (hk : kmalloc env count = true)
    (hfault : env.fault = true) (hpos : 0 ≤ pos) (hend : pos + count ≤ PAGE_SIZE) :
    read_from pos file s env count = some (s, ⟨some pos, -EFAULT, []⟩) := by
  cases hp : s.i_page n with
  | none => simp [read_from, hk, kernel_read_none h hp, hfault]
  | some p =>
    rw [read_from, hk, kernel_read_some h hp hpos hend]
    by_cases hsize : pos + count > s.size n <;> simp [hsize, hfault]

theorem read_from_short (h : Live s file n) {env : Access} {count : Nat} {pos : Int} (hk : kmalloc env count = true)
    (hfault : env.fault = false) (hpos : 0 ≤ pos) (hend : pos + count ≤ PAGE_SIZE)
    (hshort : ∀ p, s.i_page n = some p → pos + count > s.size n) :
    read_from pos file s env count = some (s, ⟨some pos, 0, []⟩) := by
  cases hp : s.i_page n with
  | none => simp [read_from, hk, kernel_read_none h hp, hfault]
  | some p => simp [read_from, hk, kernel_read_some h hp hpos hend, hfault, hshort p hp]

theorem read_from_full (h : Live s file n) {env : Access} {p count : Nat} {pos : Int} (hk : kmalloc env count = true)
    (hfault : env.fault = false) (hpos : 0 ≤ pos) (hp : s.i_page n = some p) (hin : pos + count ≤ s.size n) :
    read_from pos file s env count = some (s, ⟨some pos, count,
      (List.range count).map fun k => (s.pages.get p).data (pos.toNat + k)⟩) := by
  have hend : pos + count ≤ PAGE_SIZE := hin.trans (by exact_mod_cast h.size)
  simp [read_from, hk, kernel_read_some h hp hpos hend, hfault, Int.not_lt.2 hin]

/-- What a write leaves: the page has the bytes at the position, and before it
what it had. -/
structure Wrote (s s' : State) (file : OpenFiles.file) (n : Nat) (pos : Nat) (buf : List UInt8) : Prop where
  live : Live s' file n
  writable : s'.read_only n = false
  page : ∃ p, s'.i_page n = some p ∧ (∀ k < buf.length, (s'.pages.get p).data (pos + k) = buf.getD k 0) ∧
    ∀ q, s.i_page n = some q → p = q ∧ ∀ k < pos, (s'.pages.get p).data k = (s.pages.get p).data k

theorem live_new_page (h : Live s file n) : Live (new_page s n PAGE_SIZE junk) file n := by
  refine { node := h.node, flags := h.flags, page := fun p hp => ?_, fresh := fun p hp => ?_, size := ?_ }
  · have hpage : (new_page s n PAGE_SIZE junk).i_page n = some s.pages.next := by simp [new_page]
    obtain rfl := Option.some.inj (hpage.symm.trans hp)
    exact h.fresh _ (Nat.le_refl _)
  · exact h.fresh p (Nat.le_of_succ_le hp)
  · simp [new_page]

/-- A write to a file of the boot image, or without memory for its page. -/
theorem kernel_write_refused (junk : Nat → UInt8) (h : Live s file n) {alloc_page : Bool}
    (hno : s.read_only n = true ∨ (s.i_page n = none ∧ alloc_page = false)) (buf : List UInt8) (pos : Int) :
    ∃ ret, kernel_write junk alloc_page s file buf pos = some (s, ret) ∧ max ret 0 = 0 := by
  by_cases hro : s.read_only n = true
  · exact ⟨0, by simp [kernel_write, h.not_rdonly, h.node, hro], rfl⟩
  · have hmem := hno.resolve_left hro
    exact ⟨-Fs.ENOMEM, by simp [kernel_write, h.not_rdonly, h.node, hro, hmem], by decide⟩

/-- The state after `buf` was copied to page `p` of inode `n`. -/
def stored (s : State) (n p pos : Nat) (buf : List UInt8) : State :=
  { s with
    pages := s.pages.modify p fun x => { x with data := overlay x.data pos buf }
    content := Function.update s.content n (overlay (s.content n) pos (buf.map some)) }

/-- A write that is inside the page. -/
theorem kernel_write_wrote (junk : Nat → UInt8) (h : Live s file n) (hro : s.read_only n = false) {alloc_page : Bool}
    (hmem : ¬(s.i_page n = none ∧ alloc_page = false)) {buf : List UInt8} {pos : Int} (hpos : 0 ≤ pos)
    (hend : pos + buf.length ≤ PAGE_SIZE) :
    ∃ s', kernel_write junk alloc_page s file buf pos = some (s', (buf.length : Int)) ∧
      Wrote s s' file n pos.toNat buf := by
  obtain ⟨s₁, hs₁, hlive, hro₁, p, hp, hkept⟩ : ∃ s₁, with_page junk s n = s₁ ∧ Live s₁ file n ∧ s₁.read_only n = false ∧ ∃ p, s₁.i_page n = some p ∧
      ∀ q, s.i_page n = some q → p = q ∧ s₁.pages.get p = s.pages.get p := by
    unfold with_page
    cases hpage : s.i_page n with
    | none => exact ⟨_, rfl, live_new_page h, hro, s.pages.next, by simp [new_page], nofun⟩
    | some p => exact ⟨s, rfl, h, hro, p, hpage, fun q hq => ⟨Option.some.inj hq, rfl⟩⟩
  have hinside : ¬pos + buf.length > PAGE_SIZE := by omega
  have hvalid := hlive.page p hp
  have hneg : ¬pos < 0 := Int.not_lt.2 hpos
  refine ⟨stored s₁ n p pos.toNat buf, ?_, ?_⟩
  · simp only [kernel_write, h.not_rdonly, if_false, h.node, Option.bind_eq_bind, Option.bind_some, hro,
      Bool.false_eq_true, hmem, hs₁, access_end_inside hend, hinside, hp, hvalid, hneg]
    rfl
  · have hdata : ∀ k, ((stored s₁ n p pos.toNat buf).pages.get p).data k =
        overlay (s₁.pages.get p).data pos.toNat buf k := by
      intro k
      simp [stored, Pool.get_modify]
    refine ⟨?_, hro₁, p, hp, ?_, ?_⟩
    · exact { node := hlive.node, flags := hlive.flags, page := hlive.page, fresh := hlive.fresh, size := hlive.size }
    · intro k hk
      rw [hdata, overlay, if_pos (by omega), Nat.add_sub_cancel_left]
      simp [List.getD_eq_getElem?_getD, hk]
    · intro q hq
      obtain ⟨hpq, hsame⟩ := hkept q hq
      refine ⟨hpq, fun k hk => ?_⟩
      rw [hdata, overlay, if_neg (by omega), hsame]

variable {c : Call} {pos : Int}

theorem count_pos (hr : reaches c = true) : 0 < c.count := by
  cases c <;> simp [reaches, kmalloc] at hr
  · exact Nat.pos_of_ne_zero hr.2
  · exact List.length_pos_iff.2 hr.1.2

/-- A call that does not come to the file is the same from every position. -/
theorem call_stops (junk : Nat → UInt8) (hr : reaches c = false) (s : State) (file : OpenFiles.file) : ∃ r, r.start = none ∧ max r.ret 0 = 0 ∧
    r.data = [] ∧ ∀ pos, call_from junk pos file s c = some (s, r) := by
  cases c with
  | sys_read env count =>
    refine ⟨⟨none, -Fs.ENOMEM, []⟩, rfl, by decide, rfl, fun pos => ?_⟩
    have hk : kmalloc env count = false := hr
    simp [call_from, read_from, hk]
  | sys_write env buf =>
    cases hk : kmalloc env buf.length with
    | false =>
      refine ⟨⟨none, -Fs.ENOMEM, []⟩, rfl, by decide, rfl, fun pos => ?_⟩
      simp [call_from, write_from, hk]
    | true =>
      refine ⟨⟨none, -EFAULT, []⟩, rfl, by decide, rfl, fun pos => ?_⟩
      have hfault : env.fault = true := by simpa [reaches, hk] using hr
      simp [call_from, write_from, hk, hfault]

theorem read_starts (h : Live s file n) {env : Access} {count : Nat} (hk : kmalloc env count = true) (hpos : 0 ≤ pos)
    (hend : pos + count ≤ PAGE_SIZE) : ∃ r, read_from pos file s env count = some (s, r) ∧ r.start = some pos ∧
      max r.ret 0 ≤ count ∧ (pos = 0 → max r.ret 0 = if moves s n (.sys_read env count) then (count : Int) else 0) := by
  have hfail : max (-EFAULT) 0 = 0 := by decide
  cases hfault : env.fault with
  | true =>
    refine ⟨_, read_from_fault h hk hfault hpos hend, rfl, ?_, ?_⟩
    · rw [hfail]
      exact Int.natCast_nonneg _
    · intro _
      simp [hfail, moves, hfault]
  | false =>
    by_cases hshort : ∀ p, s.i_page n = some p → pos + count > s.size n
    · refine ⟨_, read_from_short h hk hfault hpos hend hshort, rfl, by simp, ?_⟩
      rintro rfl
      cases hp : s.i_page n with
      | none => simp [moves, hp]
      | some p =>
        have hlong := hshort p hp
        have hno : ¬count ≤ s.size n := by omega
        simp [moves, hno]
    · obtain ⟨p, hp, hin⟩ : ∃ p, s.i_page n = some p ∧ pos + count ≤ s.size n := by
        push Not at hshort
        exact hshort
      refine ⟨_, read_from_full h hk hfault hpos hp hin, rfl, by simp, ?_⟩
      rintro rfl
      have hcount : count ≤ s.size n := by omega
      simp [moves, hk, hfault, hp, hcount]

theorem write_starts (junk : Nat → UInt8) (h : Live s file n) {env : Access} {buf : List UInt8} (hr : reaches (.sys_write env buf) = true)
    (hpos : 0 ≤ pos) (hend : pos + buf.length ≤ PAGE_SIZE) :
    (moves s n (.sys_write env buf) = false ∧
      ∃ ret, write_from junk pos file s env buf = some (s, ⟨some pos, ret, []⟩) ∧ max ret 0 = 0) ∨
    (moves s n (.sys_write env buf) = true ∧
      ∃ s', write_from junk pos file s env buf = some (s', ⟨some pos, buf.length, []⟩) ∧
        Wrote s s' file n pos.toNat buf) := by
  obtain ⟨hk, hfault⟩ : kmalloc env buf.length = true ∧ env.fault = false := by simpa [reaches] using hr
  by_cases hno : s.read_only n = true ∨ (s.i_page n = none ∧ env.alloc_page = false)
  · obtain ⟨ret, hwrite, hret⟩ := kernel_write_refused junk h hno buf pos
    refine .inl ⟨?_, ret, by simp [write_from, hk, hfault, hwrite], hret⟩
    rcases hno with hro | ⟨hpage, hmem⟩
    · simp [moves, hro]
    · simp [moves, hpage, hmem]
  · obtain ⟨hro, hmem⟩ := not_or.1 hno
    have hro : s.read_only n = false := Bool.eq_false_iff.2 hro
    obtain ⟨s', hwrite, hwrote⟩ := kernel_write_wrote junk h hro hmem hpos hend
    refine .inr ⟨?_, s', by simp [write_from, hk, hfault, hwrite], hwrote⟩
    have hpage : (s.i_page n).isSome = true ∨ env.alloc_page = true := by
      rw [Option.isSome_iff_ne_none]
      simpa [imp_iff_not_or] using hmem
    simpa [moves, hk, hfault, hro] using hpage

/-- A call that comes to the file starts at its position. The first one that
transfers nothing changes nothing. -/
theorem call_starts (junk : Nat → UInt8) (h : Live s file n) (hr : reaches c = true) (hpos : 0 ≤ pos) (hend : pos + c.count ≤ PAGE_SIZE) :
    ∃ s' r, call_from junk pos file s c = some (s', r) ∧ r.start = some pos ∧ Live s' file n ∧ max r.ret 0 ≤ c.count ∧
      (pos = 0 → max r.ret 0 = if moves s n c then (c.count : Int) else 0) ∧ (pos = 0 → moves s n c = false → s' = s) := by
  cases c with
  | sys_read env count =>
    obtain ⟨r, heq, hstart, hle, hret⟩ := read_starts h hr hpos hend
    exact ⟨s, r, heq, hstart, h, hle, hret, fun _ _ => rfl⟩
  | sys_write env buf =>
    rcases write_starts junk h hr hpos hend with ⟨hm, ret, heq, hret⟩ | ⟨hm, s', heq, hwrote⟩
    · refine ⟨s, _, heq, rfl, h, ?_, fun _ => by simp [hm, hret], fun _ _ => rfl⟩
      rw [hret]
      exact Int.natCast_nonneg _
    · refine ⟨s', _, heq, rfl, hwrote.live, by simp [Call.count], fun _ => by simp [hm, Call.count], ?_⟩
      intro _ hno
      rw [hm] at hno
      cases hno

end One

/-! ## Calls in a row -/

section Calls
variable {junk : Nat → UInt8} {fd_table : Nat → Option file} {fd : Nat} {s s' : State} {file : file} {n : Nat}
  {cs : List Call} {pos : Int}

theorem total_cons (c : Call) (cs : List Call) : total (c :: cs) = c.count + total cs := by
  simp [total]

theorem run_cons (hfd : get_file_from_fd fd_table fd = some file) {c : Call} {r : Result}
    (h : call_from junk 0 file s c = some (s', r)) (cs : List Call) :
    run junk fd_table fd s (c :: cs) = (run junk fd_table fd s' cs).map fun p => (p.1, r :: p.2) := by
  have hcall : call junk fd_table fd s c = some (s', r) := by
    rw [call, hfd]
    exact h
  rw [run, hcall]
  show (run junk fd_table fd s' cs).bind _ = _
  cases run junk fd_table fd s' cs <;> rfl

theorem sequential_cons {c : Call} {r : Result} (h : call_from junk pos file s c = some (s', r)) (cs : List Call) :
    sequential junk pos file s (c :: cs) =
      (sequential junk (pos + max r.ret 0) file s' cs).map fun p => (p.1, r :: p.2) := by
  rw [sequential, h]
  show (sequential junk (pos + max r.ret 0) file s' cs).bind _ = _
  cases sequential junk (pos + max r.ret 0) file s' cs <;> rfl

theorem sequential_defined (junk : Nat → UInt8) (h : Live s file n) (cs : List Call) {pos : Int} (hpos : 0 ≤ pos) (hend : pos + total cs ≤ PAGE_SIZE) :
    ∃ p, sequential junk pos file s cs = some p := by
  induction cs generalizing s pos with
  | nil => exact ⟨_, rfl⟩
  | cons c cs ih =>
    rw [total_cons] at hend
    cases hr : reaches c with
    | false =>
      obtain ⟨r, -, hret, -, heq⟩ := call_stops junk hr s file
      obtain ⟨p, hp⟩ := ih h hpos (by omega)
      refine ⟨(p.1, r :: p.2), ?_⟩
      rw [sequential_cons (heq pos), hret, add_zero, hp]
      rfl
    | true =>
      obtain ⟨s', r, heq, -, hlive, hle, -, -⟩ := call_starts junk h hr hpos (by omega)
      have hnext : 0 ≤ pos + max r.ret 0 := by omega
      obtain ⟨p, hp⟩ := ih hlive hnext (by omega)
      refine ⟨(p.1, r :: p.2), ?_⟩
      rw [sequential_cons heq, hp]
      rfl

/-- Calls that do not come to the file. -/
theorem run_eq_of_stops (hfd : get_file_from_fd fd_table fd = some file) (hcs : ∀ c ∈ cs, reaches c = false) (pos : Int) :
    run junk fd_table fd s cs = sequential junk pos file s cs := by
  induction cs with
  | nil => rfl
  | cons c cs ih =>
    obtain ⟨r, -, hret, -, heq⟩ := call_stops junk (hcs c List.mem_cons_self) s file
    rw [run_cons hfd (heq 0), sequential_cons (heq pos), hret, add_zero, ih fun c hc => hcs c (List.mem_cons_of_mem _ hc)]

theorem map_cons_inj {r : Result} {x y : Option (State × List Result)}
    (h : (x.map fun p => (p.1, r :: p.2)) = y.map fun p => (p.1, r :: p.2)) : x = y := by
  refine Option.map_injective (fun p q hpq => ?_) h
  obtain ⟨h1, h2⟩ := Prod.mk.inj hpq
  exact Prod.ext h1 (List.cons.inj h2).2

/-- Behind the start of the file no call comes to it from the right position. -/
theorem stops_of_run_eq (hfd : get_file_from_fd fd_table fd = some file) (h : Live s file n) (hpos : 0 < pos)
    (hend : pos + total cs ≤ PAGE_SIZE) (heq : run junk fd_table fd s cs = sequential junk pos file s cs) :
    ∀ c ∈ cs, reaches c = false := by
  induction cs with
  | nil => nofun
  | cons c cs ih =>
    rw [total_cons] at hend
    cases hr : reaches c with
    | false =>
      obtain ⟨r, -, hret, -, hc⟩ := call_stops junk hr s file
      rw [run_cons hfd (hc 0), sequential_cons (hc pos), hret, add_zero] at heq
      exact List.forall_mem_cons.2 ⟨hr, ih (by omega) (map_cons_inj heq)⟩
    | true =>
      exfalso
      obtain ⟨s₀, r₀, h₀, hstart₀, -⟩ := call_starts junk h hr (Int.le_refl 0) (by omega)
      obtain ⟨s₁, r₁, h₁, hstart₁, hlive, hle, -⟩ := call_starts junk h hr (Int.le_of_lt hpos) (by omega)
      have hnext : 0 ≤ pos + max r₁.ret 0 := by omega
      obtain ⟨p, hp⟩ := sequential_defined junk hlive cs hnext (by omega)
      rw [run_cons hfd h₀, sequential_cons h₁, hp, Option.map_some] at heq
      obtain ⟨q, -, hq⟩ := Option.map_eq_some_iff.1 heq
      have hr : r₀ = r₁ := (List.cons.inj (Prod.mk.inj hq).2).1
      rw [hr, hstart₁] at hstart₀
      have hzero : pos = 0 := Option.some.inj hstart₀
      omega

/-- No call comes to the file after one that transfers its bytes. -/
def one_transfer (s : State) (n : Nat) (cs : List Call) : Prop :=
  cs.Pairwise fun c d => moves s n c = true → reaches d = false

theorem reaches_of_moves {c : Call} (h : moves s n c = true) : reaches c = true := by
  cases c <;> simp [moves] at h <;> simp [reaches, h]

theorem run_eq_iff (hfd : get_file_from_fd fd_table fd = some file) (h : Live s file n) (hend : total cs ≤ PAGE_SIZE) :
    run junk fd_table fd s cs = sequential junk 0 file s cs ↔ one_transfer s n cs := by
  induction cs with
  | nil => exact iff_of_true rfl .nil
  | cons c cs ih =>
    rw [total_cons] at hend
    have htail := ih (by omega)
    cases hm : moves s n c with
    | false =>
      -- The call leaves the state and the position as they were.
      obtain ⟨r, hc, hret⟩ : ∃ r, call_from junk 0 file s c = some (s, r) ∧ max r.ret 0 = 0 := by
        cases hr : reaches c with
        | false =>
          obtain ⟨r, -, hret, -, hc⟩ := call_stops junk hr s file
          exact ⟨r, hc 0, hret⟩
        | true =>
          obtain ⟨s', r, hc, -, -, -, hret, hsame⟩ := call_starts junk h hr (Int.le_refl 0) (by omega)
          refine ⟨r, hsame rfl hm ▸ hc, ?_⟩
          rw [hret rfl, hm]
          rfl
      rw [run_cons hfd hc, sequential_cons hc, hret, add_zero]
      refine ⟨?_, ?_⟩
      · intro heq
        refine List.pairwise_cons.2 ⟨fun d _ hmoves => ?_, htail.1 (map_cons_inj heq)⟩
        rw [hm] at hmoves
        cases hmoves
      · intro hone
        rw [htail.2 (List.pairwise_cons.1 hone).2]
    | true =>
      have hr := reaches_of_moves hm
      obtain ⟨s', r, hc, -, hlive, -, hret, -⟩ := call_starts junk h hr (Int.le_refl 0) (by omega)
      have hcount := count_pos hr
      have hret : max r.ret 0 = c.count := by
        rw [hret rfl, hm]
        rfl
      rw [run_cons hfd hc, sequential_cons hc, hret, zero_add]
      refine ⟨?_, ?_⟩
      · intro heq
        have hstops := stops_of_run_eq hfd hlive (by omega) (by omega) (map_cons_inj heq)
        refine List.pairwise_cons.2 ⟨fun d hd _ => hstops d hd, ?_⟩
        exact List.pairwise_of_forall_mem_list fun a ha b hb _ => hstops b hb
      · intro hone
        rw [run_eq_of_stops hfd (fun d hd => (List.pairwise_cons.1 hone).1 d hd hm)]

/-! ## Pieces -/

def write_piece (buf : List UInt8) : Call := .sys_write ⟨true, false, true⟩ buf

def read_piece (count : Nat) : Call := .sys_read ⟨true, false, true⟩ count

/-- The bytes that start at `pos` of page `p`. -/
def page_bytes (s : State) (p pos count : Nat) : List UInt8 := (List.range count).map fun k => (s.pages.get p).data (pos + k)

theorem page_bytes_add (s : State) (p pos a b : Nat) : page_bytes s p pos (a + b) = page_bytes s p pos a ++ page_bytes s p (pos + a) b := by
  simp [page_bytes, List.range_add, Function.comp_def, Nat.add_assoc]

theorem page_bytes_congr {p p' pos count : Nat}
    (h : ∀ k < count, (s'.pages.get p').data (pos + k) = (s.pages.get p).data (pos + k)) :
    page_bytes s' p' pos count = page_bytes s p pos count :=
  List.map_congr_left fun k hk => h k (List.mem_range.1 hk)

/-- Pieces that are written one behind the other give their concatenation. -/
theorem sequential_writes (junk : Nat → UInt8) (ds : List (List UInt8)) {pos : Nat} (h : Live s file n)
    (hro : s.read_only n = false) (hend : pos + ds.flatten.length ≤ PAGE_SIZE) :
    ∃ s' rs, sequential junk pos file s (ds.map write_piece) = some (s', rs) ∧
      (ds.flatten ≠ [] → ∃ p, s'.i_page n = some p ∧ page_bytes s' p pos ds.flatten.length = ds.flatten) ∧
      ∀ q, s.i_page n = some q → s'.i_page n = some q ∧ page_bytes s' q 0 pos = page_bytes s q 0 pos := by
  induction ds generalizing s pos with
  | nil => exact ⟨s, [], rfl, fun hne => absurd rfl hne, fun q hq => ⟨hq, rfl⟩⟩
  | cons d ds ih =>
    rw [List.flatten_cons, List.length_append] at hend
    rw [List.map_cons, List.flatten_cons]
    by_cases hd : d = []
    · -- Nothing is allocated for an empty piece.
      subst hd
      obtain ⟨s', rs, hseq, hbytes, hkept⟩ := @ih s pos h hro (by simpa using hend)
      obtain ⟨r, -, hret, -, hc⟩ := call_stops junk (rfl : reaches (write_piece []) = false) s file
      refine ⟨s', r :: rs, ?_, by simpa using hbytes, hkept⟩
      rw [sequential_cons (hc pos), hret, add_zero, hseq]
      rfl
    · have hr : reaches (write_piece d) = true := by simp [reaches, write_piece, kmalloc, hd]
      rcases write_starts junk h hr (Int.natCast_nonneg pos) (by omega) with ⟨hno, -⟩ | ⟨-, s₁, hc, hwrote⟩
      · have hk : kmalloc ⟨true, false, true⟩ d.length = true := by simp [kmalloc, hd]
        simp [moves, hro, hk] at hno
      · have hnext : (pos : Int) + max ((d.length : Nat) : Int) 0 = ((pos + d.length : Nat) : Int) := by omega
        obtain ⟨p, hp, hdata, hbefore⟩ := hwrote.page
        obtain ⟨s', rs, hseq, hbytes, hkept⟩ := @ih s₁ (pos + d.length) hwrote.live hwrote.writable (by omega)
        obtain ⟨hp', hsame⟩ := hkept p hp
        -- What was written before a piece stays.
        have hpieces := hsame
        rw [page_bytes_add, page_bytes_add, Nat.zero_add] at hpieces
        obtain ⟨hlow, hpiece⟩ := List.append_inj hpieces (by simp [page_bytes])
        have hd' : page_bytes s₁ p pos d.length = d := by
          refine List.ext_getElem (by simp [page_bytes]) fun k hk hk' => ?_
          rw [Int.toNat_natCast] at hdata
          simp [page_bytes, hdata k hk', List.getD_eq_getElem?_getD, hk']
        refine ⟨s', ⟨some pos, d.length, []⟩ :: rs, ?_, fun _ => ⟨p, hp', ?_⟩, ?_⟩
        · have hcall : call_from junk pos file s (write_piece d) = some (s₁, ⟨some pos, d.length, []⟩) := hc
          rw [sequential_cons hcall, hnext, hseq]
          rfl
        · rw [List.length_append, page_bytes_add, hpiece, hd']
          by_cases hds : ds.flatten = []
          · simp [hds, page_bytes]
          · obtain ⟨p₂, hp₂, hrest⟩ := hbytes hds
            obtain rfl := Option.some.inj (hp'.symm.trans hp₂)
            rw [hrest]
        · intro q hq
          obtain ⟨rfl, hkeep⟩ := hbefore q hq
          refine ⟨hp', hlow.trans (page_bytes_congr fun k hk => ?_)⟩
          rw [Nat.zero_add]
          exact hkeep k (by simpa using hk)

/-- Pieces that are read one behind the other are consecutive parts. -/
theorem sequential_reads (junk : Nat → UInt8) (ns : List Nat) {p pos : Nat} (h : Live s file n) (hp : s.i_page n = some p)
    (hend : pos + ns.sum ≤ s.size n) : ∃ rs, sequential junk pos file s (ns.map read_piece) = some (s, rs) ∧
      rs.map (fun r => r.data.length) = ns ∧ (rs.map (·.data)).flatten = page_bytes s p pos ns.sum := by
  induction ns generalizing pos with
  | nil => exact ⟨[], rfl, rfl, rfl⟩
  | cons count ns ih =>
    rw [List.sum_cons] at hend
    rw [List.map_cons, List.sum_cons, page_bytes_add]
    by_cases hcount : count = 0
    · subst hcount
      obtain ⟨rs, hseq, hlen, hbytes⟩ := @ih pos (by omega)
      obtain ⟨r, -, hret, hdata, hc⟩ := call_stops junk (rfl : reaches (read_piece 0) = false) s file
      refine ⟨r :: rs, ?_, by simp [hdata, hlen], by simpa [hdata, page_bytes] using hbytes⟩
      rw [sequential_cons (hc pos), hret, add_zero, hseq]
      rfl
    · obtain ⟨rs, hseq, hlen, hbytes⟩ := @ih (pos + count) (by omega)
      have hnext : (pos : Int) + max ((count : Nat) : Int) 0 = ((pos + count : Nat) : Int) := by omega
      have hk : kmalloc ⟨true, false, true⟩ count = true := by simp [kmalloc, hcount]
      have hc : call_from junk pos file s (read_piece count) = some (s, ⟨some pos, count, page_bytes s p pos count⟩) :=
        read_from_full h hk rfl (Int.natCast_nonneg pos) hp (by omega)
      refine ⟨⟨some pos, count, page_bytes s p pos count⟩ :: rs, ?_, by simp [page_bytes, hlen], ?_⟩
      · rw [sequential_cons hc, hnext, hseq]
        rfl
      · rw [List.map_cons, List.flatten_cons, hbytes]

/-- The calls on a descriptor do what calls do that go on where the last one
ended, if and only if none comes to the file after one that transfers its bytes.
Calls that go on so write the concatenation of their pieces and read consecutive
parts. -/
theorem sequential_io (junk : Nat → UInt8) (hfd : get_file_from_fd fd_table fd = some file) (h : Live s file n) :
    (∀ cs, total cs ≤ PAGE_SIZE →
      (run junk fd_table fd s cs = sequential junk 0 file s cs ↔ one_transfer s n cs)) ∧
    (∀ ds : List (List UInt8), s.read_only n = false → ds.flatten.length ≤ PAGE_SIZE → ds.flatten ≠ [] →
      ∃ s' rs p, sequential junk 0 file s (ds.map write_piece) = some (s', rs) ∧ s'.i_page n = some p ∧
        page_bytes s' p 0 ds.flatten.length = ds.flatten) ∧
    ∀ (ns : List Nat) (p : Nat), s.i_page n = some p → ns.sum ≤ s.size n →
      ∃ rs, sequential junk 0 file s (ns.map read_piece) = some (s, rs) ∧ rs.map (fun r => r.data.length) = ns ∧
        (rs.map (·.data)).flatten = page_bytes s p 0 ns.sum := by
  refine ⟨fun cs hcs => run_eq_iff hfd h (by exact_mod_cast hcs), ?_, ?_⟩
  · intro ds hro hlen hne
    obtain ⟨s', rs, hseq, hbytes, -⟩ := @sequential_writes s file n junk ds 0 h hro (by rwa [Nat.zero_add])
    obtain ⟨p, hp, hdata⟩ := hbytes hne
    exact ⟨s', rs, p, hseq, hp, hdata⟩
  · intro ns p hp hsum
    exact @sequential_reads s file n junk ns p 0 h hp (by rwa [Nat.zero_add])

/-- In a run that removes nothing the objects of a file are there. -/
theorem live_of_run {stray : Bool} {nul_harms : Fs.Name → Bool} {addr : Nat → UInt32}
    (h : Reachable (· = boot nul_harms addr) (KeepStep stray junk) s)
    (hflags : file.f_flags &&& O_ACCMODE = O_RDWR)
    (hsize : s.size (s.fs.inodes.get file.f_inode).i_private ≤ PAGE_SIZE) :
    Live s file (s.fs.inodes.get file.f_inode).i_private := by
  have hi : Inv s := h.inv Inv (by rintro _ rfl; exact inv_boot _ _) fun _ _ hi hs => hi.step hs
  have hfreed := hi.freed
  exact { node := hi.file_node file, flags := hflags, page := by simp [hfreed], fresh := by simp [hfreed], size := hsize }

end Calls

/-- The file `/f` after it was created and opened. -/
def opened_file : State :=
  let s := boot (fun _ => true) fun _ => 0x20000000
  ((filp_open s ['/', 'f'] (Fs.O_CREAT ||| O_RDWR) 0o644).map Prod.fst).getD s

def opened_table : Nat → Option file := fun fd => if fd = 0 then opened_file.files.head? else none

theorem opened_file_live : Live opened_file ⟨1, Fs.O_CREAT ||| O_RDWR⟩ 1 :=
  { node := by decide, flags := by decide, page := by simp [show opened_file.i_page 1 = none from rfl]
    fresh := fun p _ => by simp [show opened_file.freed = [] from rfl], size := by decide }

/-- Nothing comes behind one write. -/
theorem sequential_io_write : run (fun _ => 0) opened_table 0 opened_file [write_piece [1, 2]] =
    sequential (fun _ => 0) 0 ⟨1, Fs.O_CREAT ||| O_RDWR⟩ opened_file [write_piece [1, 2]] :=
  ((sequential_io (fun _ => 0) (by decide : get_file_from_fd opened_table 0 = some _) opened_file_live).1 _ (by decide)).2
    (List.pairwise_singleton _ _)

/-- The second of two writes starts at 0 again. -/
theorem second_write_overwrites : ¬∀ (junk : Nat → UInt8) (fd_table : Nat → Option file) (fd : Nat) (file : file) (s : State)
    (n : Nat) (cs : List Call), get_file_from_fd fd_table fd = some file → Live s file n → total cs ≤ PAGE_SIZE →
    run junk fd_table fd s cs = sequential junk 0 file s cs := by
  intro h
  have heq := h (fun _ => 0) opened_table 0 _ opened_file 1 [write_piece [1], write_piece [2]] (by decide) opened_file_live
    (by decide)
  have hstarts := congrArg (Option.map fun p => p.2.map (·.start)) heq
  exact absurd hstarts (by decide)

end McLinOS.Sequential
