import Mathlib.Data.List.Range
import McLinOS.Pipe.Model
/-!
# What goes in comes out

With a ring that is empty at the first open and no `sys_read` of any bytes, the
bytes that are taken are a prefix of those that were put, and each is in the
buffer of one reader.
-/
open CLib Function

set_option linter.unusedSectionVars false

namespace McLinOS.Pipefs

variable {Task File : Type} [DecidableEq Task] [DecidableEq File]

/-- What the pipe is for. -/
structure PipeOk (s : Pipe Task File) : Prop where
  ring : ∀ buf, s.buf = some buf → buf.size = PIPE_BUFFER_SIZE ∧ buf.head < buf.size ∧ buf.tail < buf.size ∧
    (buf.head = buf.tail ↔ s.written.length = s.removed.length)
  fifo : s.removed <+: s.written
  bounded : s.written.length ≤ s.removed.length + (PIPE_BUFFER_SIZE - 1)
  delivered : ((s.delivered ++ s.kbufs).map (·.1)).Perm (List.range s.removed.length)

/-- How many bytes `t` has in its `kbuf`. -/
def held : PC File → Nat
  | .transfer _ (.sys_read _) i => i
  | .unlock_inode _ (.sys_read count) | .unlock_file _ (.sys_read count) | .finish (.sys_read count) => count
  | _ => 0

/-- The ring has the bytes that are not taken yet. -/
def RingOk (s : Pipe Task File) : Prop :=
  match s.buf with
  | none => s.written = [] ∧ s.removed = []
  | some buf => buf.size = PIPE_BUFFER_SIZE ∧
    ∃ xs, Circular buf.buffer PIPE_BUFFER_SIZE buf.head buf.tail xs ∧ s.written = s.removed ++ xs

/-- The invariant behind `PipeOk`. -/
structure Inv (s : Pipe Task File) : Prop where
  ring : RingOk s
  delivered : ((s.delivered ++ s.kbufs).map (·.1)).Perm (List.range s.removed.length)
  held : ∀ t, (s.kbufs.filter (·.2 = t)).length = held (s.pc t)
  bound : ∀ t file c i, s.pc t = .transfer file c i → i ≤ c.size

section Pipe
variable {s s' : Pipe Task File} {t : Task} {file : File} {c : Call} {i : Nat}

theorem Inv.ok (h : Inv s) : PipeOk s := by
  have hring := h.ring
  unfold RingOk at hring
  cases hbuf : s.buf with
  | none =>
    rw [hbuf] at hring
    obtain ⟨hw, hr⟩ := hring
    exact ⟨by simp [hbuf], by simp [hw, hr], by simp [hw, hr], h.delivered⟩
  | some buf =>
    rw [hbuf] at hring
    obtain ⟨hsize, xs, hc, hw⟩ := hring
    refine ⟨?_, ⟨xs, hw.symm⟩, ?_, h.delivered⟩
    · intro b hb
      obtain rfl : buf = b := Option.some.inj (hbuf.symm.trans hb)
      refine ⟨hsize, hsize ▸ hc.head_lt, hsize ▸ hc.tail_lt, hc.empty_iff.trans ?_⟩
      rw [hw, List.length_append, ← List.length_eq_zero_iff]
      omega
    · have := hc.length_lt
      rw [hw, List.length_append]
      omega

/-! ## Steps of a task -/

/-- A step of `t` that leaves the ring and the buffers alone. -/
theorem Inv.goto {pc : PC File} (h : Inv s) (hbuf : s'.buf = s.buf) (hw : s'.written = s.written)
    (hr : s'.removed = s.removed) (hd : s'.delivered = s.delivered) (hk : s'.kbufs = s.kbufs)
    (hpc : s'.pc = update s.pc t pc) (hheld : Pipefs.held pc = Pipefs.held (s.pc t))
    (hbound : ∀ file c i, pc = .transfer file c i → i ≤ c.size) : Inv s' where
  ring := by
    unfold RingOk
    rw [hbuf, hw, hr]
    exact h.ring
  delivered := by
    rw [hd, hk, hr]
    exact h.delivered
  held := fun u => by
    rw [hk, hpc, h.held u]
    by_cases hu : u = t
    · rw [hu, update_self, hheld]
    · rw [update_of_ne hu]
  bound := fun u => by
    rw [hpc]
    by_cases hu : u = t
    · rw [hu, update_self]
      exact hbound
    · rw [update_of_ne hu]
      exact h.bound u

/-- The size of a call is what its `kbuf` holds at the end. -/
theorem held_end (c : Call) (file : File) : held (.unlock_inode file c) = held (.transfer file c c.size) := by
  cases c <;> rfl

/-- The end of a loop. -/
theorem Inv.leave (h : Inv s) (hpc : s.pc t = .transfer file c i) (hi : ¬i < c.size) : Inv (s.goto t (.unlock_inode file c)) := by
  have hb := h.bound t file c i hpc
  have he : i = c.size := by omega
  refine h.goto rfl rfl rfl rfl rfl rfl ?_ (by rintro _ _ _ ⟨⟩)
  rw [held_end, hpc, he]

theorem Inv.write {data : List UInt8} (h : Inv s) (hpc : s.pc t = .transfer file (.kernel_write data) i) :
    Inv (pipefs_write t file data i s) := by
  unfold pipefs_write
  have hring := h.ring
  unfold RingOk at hring
  cases hbuf : s.buf with
  | none => exact h
  | some buf =>
    by_cases hi : i < data.length
    · rw [hbuf] at hring
      obtain ⟨hsize, xs, hc, hw⟩ := hring
      simp only [if_pos hi, pipe_buffer_write, hsize]
      by_cases hfull : (buf.head + 1) % PIPE_BUFFER_SIZE = buf.tail
      · rw [if_pos hfull]
        exact h
      · rw [if_neg hfull]
        have hg : Inv (s.goto t (.transfer file (.kernel_write data) (i + 1))) := by
          refine h.goto rfl rfl rfl rfl rfl rfl (by rw [hpc]; rfl) ?_
          rintro file' c' i' ⟨⟩
          exact hi
        refine ⟨⟨rfl, xs ++ [data.getD i 0], hc.push (fun he => hfull (hc.full_iff.2 he)) _, ?_⟩, h.delivered, hg.held,
          hg.bound⟩
        show s.written ++ _ = _
        rw [hw, List.append_assoc]
        rfl
    · simp only [if_neg hi]
      exact h.leave hpc hi

theorem take_fields (t : Task) (c : Call) (byte : UInt8) (s : Pipe Task File) : (take t c byte s).buf = s.buf ∧
    (take t c byte s).pc = s.pc ∧ (take t c byte s).written = s.written ∧
    (take t c byte s).removed = s.removed ++ [byte] := by
  cases c <;> exact ⟨rfl, rfl, rfl, rfl⟩

/-- The byte is in one more buffer. -/
theorem take_delivered (t : Task) (c : Call) (byte : UInt8)
    (h : ((s.delivered ++ s.kbufs).map (·.1)).Perm (List.range s.removed.length)) :
    (((take t c byte s).delivered ++ (take t c byte s).kbufs).map (·.1)).Perm
      (List.range (take t c byte s).removed.length) := by
  rw [(take_fields t c byte s).2.2.2, List.length_append, List.length_singleton, List.range_succ]
  have hadd := h.append_right [s.removed.length]
  cases c with
  | sys_read count =>
    show ((s.delivered ++ (s.kbufs ++ [(s.removed.length, t)])).map (·.1)).Perm _
    rwa [← List.append_assoc, List.map_append, List.map_singleton]
  | _ =>
    show ((s.delivered ++ [(s.removed.length, t)] ++ s.kbufs).map (·.1)).Perm _
    refine List.Perm.trans ?_ hadd
    simp only [List.map_append, List.map_singleton, List.append_assoc]
    exact List.Perm.append_left _ List.perm_append_comm

/-- `kbuf` gets the byte of a `sys_read`. -/
theorem take_held (c : Call) (byte : UInt8) (h : ∀ u, (s.kbufs.filter (·.2 = u)).length = held (s.pc u))
    (hpc : s.pc t = .transfer file c i) (u : Task) :
    ((take t c byte s).kbufs.filter (·.2 = u)).length = held (update s.pc t (.transfer file c (i + 1)) u) := by
  by_cases hu : u = t
  · subst hu
    rw [update_self]
    have hlen := h u
    rw [hpc] at hlen
    cases c with
    | sys_read count =>
      show ((s.kbufs ++ [(s.removed.length, u)]).filter _).length = i + 1
      rw [List.filter_append, List.length_append, hlen]
      simp [held]
    | _ => exact hlen
  · rw [update_of_ne hu, ← h u]
    cases c with
    | sys_read count =>
      show ((s.kbufs ++ [(s.removed.length, t)]).filter _).length = _
      rw [List.filter_append, List.length_append]
      simp [Ne.symm hu]
    | _ => rfl

theorem Inv.read (h : Inv s) (hpc : s.pc t = .transfer file c i) : Inv (pipefs_read t file c i s) := by
  unfold pipefs_read
  have hring := h.ring
  unfold RingOk at hring
  cases hbuf : s.buf with
  | none => exact h
  | some buf =>
    by_cases hi : i < c.size
    · rw [hbuf] at hring
      obtain ⟨hsize, xs, hc, hw⟩ := hring
      simp only [if_pos hi, pipe_buffer_read, hsize]
      by_cases hempty : buf.head = buf.tail
      · rw [if_pos hempty]
        exact h
      · rw [if_neg hempty]
        obtain ⟨x, xs, rfl⟩ := List.exists_cons_of_ne_nil fun he => hempty (hc.empty_iff.2 he)
        obtain ⟨hx, hc'⟩ := hc.pop
        have hf := take_fields t c (buf.buffer buf.tail)
          { s with buf := some ⟨buf.buffer, PIPE_BUFFER_SIZE, buf.head, (buf.tail + 1) % PIPE_BUFFER_SIZE⟩ }
        obtain ⟨hf1, hf2, hf3, hf4⟩ := hf
        refine ⟨?_, take_delivered t c _ h.delivered, ?_, ?_⟩
        · show RingOk (take t c _ _)
          unfold RingOk
          rw [hf1, hf3, hf4]
          refine ⟨rfl, xs, hc', ?_⟩
          rw [hw, List.append_assoc, hx]
          rfl
        · intro u
          show _ = Pipefs.held (update (take t c _ _).pc t _ u)
          rw [hf2]
          exact take_held (s := { s with buf := some _ }) c _ h.held hpc u
        · intro u file' c' i' hu
          have hu' : update (take t c (buf.buffer buf.tail) _).pc t (.transfer file c (i + 1)) u = .transfer file' c' i' := hu
          rw [hf2] at hu'
          by_cases hut : u = t
          · rw [hut, update_self] at hu'
            obtain ⟨-, rfl, rfl⟩ := PC.transfer.inj hu'
            exact hi
          · rw [update_of_ne hut] at hu'
            exact h.bound u file' c' i' hu'
    · simp only [if_neg hi]
      exact h.leave hpc hi

/-! ## The end of a call -/

theorem filter_length (ks : List (Nat × Task)) (t : Task) :
    (ks.filter (·.2 = t)).length + (ks.filter (·.2 ≠ t)).length = ks.length := by
  have := List.length_eq_length_filter_add (l := ks) (fun k => decide (k.2 = t))
  simpa using this.symm

theorem Inv.finish (h : Inv s) (hpc : s.pc t = .finish c) (hc : ∀ count, c = .sys_read count → count = 0) :
    Inv ((finish t c s).goto t .idle) := by
  have hlen := h.held t
  rw [hpc] at hlen
  have hg : Inv (s.goto t .idle) := by
    refine h.goto rfl rfl rfl rfl rfl rfl ?_ (by rintro _ _ _ ⟨⟩)
    rw [hpc]
    cases c with
    | sys_read count => exact (hc count rfl).symm
    | _ => rfl
  cases c with
  | sys_read count =>
    obtain rfl := hc count rfl
    have hnone : ∀ k ∈ s.kbufs, k.2 ≠ t := by
      intro k hk he
      have hm : k ∈ s.kbufs.filter (·.2 = t) := List.mem_filter.2 ⟨hk, by simpa using he⟩
      rw [List.length_eq_zero_iff.1 hlen] at hm
      cases hm
    have hk : s.kbufs.filter (·.2 ≠ t) = s.kbufs := List.filter_eq_self.2 fun k hk => by simpa using hnone k hk
    have hd : s.delivered ++ (s.kbufs.filter (·.2 = t)).take pipefs_ret = s.delivered := List.append_nil _
    unfold Pipefs.finish
    simp only [hk, hd]
    exact hg
  | _ => exact hg

/-- A `sys_read` that ends gives none of its bytes to its caller. -/
theorem finish_iff (h : Inv s) (hpc : s.pc t = .finish c) :
    PipeOk (advance t s) ↔ ∀ count, c = .sys_read count → count = 0 := by
  have hadv : advance t s = (finish t c s).goto t .idle := by rw [advance, hpc]
  rw [hadv]
  refine ⟨fun hok => ?_, fun hc => (h.finish hpc hc).ok⟩
  rintro count rfl
  have hlen := h.held t
  rw [hpc] at hlen
  have hbefore := h.delivered.length_eq
  have hafter := hok.delivered.length_eq
  have hsplit := filter_length s.kbufs t
  have hafter' : ((s.delivered ++ (s.kbufs.filter (·.2 = t)).take pipefs_ret ++ s.kbufs.filter (·.2 ≠ t)).map
      (·.1)).length = (List.range s.removed.length).length := hafter
  simp only [pipefs_ret, List.take_zero, List.append_nil, List.length_append, List.length_map, List.length_range] at *
  simp only [Pipefs.held] at hlen
  omega

/-! ## Runs -/

/-- The first open gets a block that happens to hold an empty ring, and a
`sys_read` that ends was for no bytes. -/
def Fits (s : Pipe Task File) : Action Task File → Prop
  | .filp_open block => s.buf = none → ∀ buf, block = some buf →
    buf.size = PIPE_BUFFER_SIZE ∧ buf.head = buf.tail ∧ buf.tail < PIPE_BUFFER_SIZE
  | .call _ _ _ => True
  | .task t => ∀ count, s.pc t = .finish (.sys_read count) → count = 0

theorem Inv.advance (h : Inv s) (hc : ∀ c, s.pc t ≠ .finish c) : Inv (advance t s) := by
  unfold Pipefs.advance
  split
  · exact h
  · next file c hpc =>
    split
    · exact h.goto rfl rfl rfl rfl rfl rfl (by rw [hpc]; rfl) (by rintro _ _ _ ⟨⟩)
    · exact h
  · next file c hpc =>
    split
    · refine h.goto rfl rfl rfl rfl rfl rfl (by rw [hpc]; cases c <;> rfl) ?_
      rintro file' c' i ⟨⟩
      exact Nat.zero_le _
    · exact h
  · next file c i hpc =>
    cases c with
    | kernel_write data => exact h.write hpc
    | _ => exact h.read hpc
  · next file c hpc => exact h.goto rfl rfl rfl rfl rfl rfl (by rw [hpc]; cases c <;> rfl) (by rintro _ _ _ ⟨⟩)
  · next file c hpc => exact h.goto rfl rfl rfl rfl rfl rfl (by rw [hpc]; cases c <;> rfl) (by rintro _ _ _ ⟨⟩)
  · next c hpc => exact absurd hpc (hc c)

theorem Inv.call {f_flags : File → Nat} (h : Inv s) (hpc : s.pc t = .idle) : Inv (call f_flags t file c s) := by
  have hg : Inv (s.goto t (.lock_file file c)) :=
    h.goto rfl rfl rfl rfl rfl rfl (by rw [hpc]; rfl) (by rintro _ _ _ ⟨⟩)
  unfold Pipefs.call
  cases c with
  | kernel_write data =>
    dsimp only
    split
    · exact h
    · exact hg
  | _ => exact hg

theorem open_ring {buf : pipe_buffer} (h : Inv s) (hbuf : s.buf = none) :
    (PipeOk { s with buf := some buf } → buf.size = PIPE_BUFFER_SIZE ∧ buf.head = buf.tail ∧ buf.tail < PIPE_BUFFER_SIZE) ∧
      (buf.size = PIPE_BUFFER_SIZE ∧ buf.head = buf.tail ∧ buf.tail < PIPE_BUFFER_SIZE → Inv { s with buf := some buf }) := by
  have hring := h.ring
  unfold RingOk at hring
  rw [hbuf] at hring
  obtain ⟨hw, hr⟩ := hring
  constructor
  · intro hok
    obtain ⟨hsize, -, ht, he⟩ := hok.ring buf rfl
    refine ⟨hsize, he.2 ?_, hsize ▸ ht⟩
    show s.written.length = s.removed.length
    rw [hw, hr]
  · rintro ⟨hsize, heq, ht⟩
    refine ⟨⟨hsize, [], ?_, ?_⟩, h.delivered, h.held, h.bound⟩
    · rw [heq]
      exact .empty ht
    · rw [hw, hr]
      rfl

theorem act_inv {f_flags : File → Nat} {a : Action Task File} (h : Inv s) (hen : Enabled s a) (hfit : Fits s a) :
    Inv (act f_flags a s) := by
  cases a with
  | filp_open block =>
    show Inv (pipefs_open block s)
    unfold pipefs_open
    split
    · next hbuf =>
      cases block with
      | none => rwa [← hbuf]
      | some buf => exact (open_ring h hbuf).2 (hfit hbuf buf rfl)
    · exact h
  | call t file c => exact h.call hen.1
  | task t =>
    by_cases hc : ∃ c, s.pc t = .finish c
    · obtain ⟨c, hpc⟩ := hc
      have hadv : advance t s = (finish t c s).goto t .idle := by rw [advance, hpc]
      show Inv (advance t s)
      rw [hadv]
      exact h.finish hpc fun count hcount => hfit count (hcount ▸ hpc)
    · exact h.advance fun c hpc => hc ⟨c, hpc⟩

theorem act_iff {f_flags : File → Nat} {a : Action Task File} (h : Inv s) (hen : Enabled s a) :
    PipeOk (act f_flags a s) ↔ Fits s a := by
  refine ⟨fun hok => ?_, fun hfit => (act_inv h hen hfit).ok⟩
  cases a with
  | filp_open block =>
    rintro hbuf buf rfl
    apply (open_ring h hbuf).1
    have hact : act f_flags (.filp_open (some buf)) s = { s with buf := some buf } := by
      show pipefs_open _ s = _
      rw [pipefs_open, hbuf]
    rwa [hact] at hok
  | call t file c => trivial
  | task t =>
    intro count hpc
    exact (finish_iff h hpc).1 hok count rfl

/-- A step in which the pipe does what it is for. -/
def FitStep (f_flags : File → Nat) (s s' : Pipe Task File) : Prop :=
  ∃ a, Enabled s a ∧ Fits s a ∧ s' = act f_flags a s

theorem Created.inv (h : Created s) : Inv s := by
  obtain ⟨hbuf, -, -, hpc, hw, hr, hd, hk⟩ := h
  refine ⟨?_, by simp [hd, hk, hr], ?_, ?_⟩
  · unfold RingOk
    rw [hbuf]
    exact ⟨hw, hr⟩
  · intro t
    rw [hk, hpc]
    rfl
  · intro t file c i
    rw [hpc]
    rintro ⟨⟩

/-- As long as the first open happens to get an empty ring and no `sys_read` of
any bytes ends, the bytes taken are a prefix of those put, each is in one
reader's buffer, and at most `PIPE_BUFFER_SIZE - 1` wait. In each such state the
next step is right exactly if it fits. -/
theorem pipe_delivers {f_flags : File → Nat} (h : Reachable Created (FitStep f_flags) s) :
    PipeOk s ∧ ∀ a, Enabled s a → (PipeOk (act f_flags a s) ↔ Fits s a) := by
  have hinv : Inv s := h.inv Inv (fun _ h => h.inv) fun s s' hs hstep => by
    obtain ⟨a, hen, hfit, rfl⟩ := hstep
    exact act_inv hs hen hfit
  exact ⟨hinv.ok, fun a hen => act_iff hinv hen⟩

end Pipe

/-- Two tasks, two files. -/
def created : Pipe Bool Bool := ⟨none, none, fun _ => none, fun _ => .idle, [], [], [], []⟩

def run (as : List (Action Bool Bool)) (s : Pipe Bool Bool) : Pipe Bool Bool :=
  as.foldl (fun s a => act (fun _ => 2) a s) s

/-- A block in which `kmalloc` left an empty ring. -/
def empty_ring : pipe_buffer := ⟨fun _ => 0, PIPE_BUFFER_SIZE, 5, 5⟩

/-- Task `false` opens the file and writes the byte 7. -/
def write_seven : List (Action Bool Bool) :=
  [.filp_open (some empty_ring), .call false false (.kernel_write [7]), .task false, .task false, .task false]

theorem pipe_delivers_seven : ∃ s : Pipe Bool Bool, s.written = [7] ∧ PipeOk s ∧
    ∀ a, Enabled s a → (PipeOk (act (fun _ => 2) a s) ↔ Fits s a) := by
  have h0 : Reachable Created (FitStep fun _ => 2) created := .start ⟨rfl, rfl, fun _ => rfl, fun _ => rfl, rfl, rfl, rfl, rfl⟩
  have h1 : Reachable Created (FitStep fun _ => 2) (run (write_seven.take 1) created) :=
    h0.next ⟨.filp_open (some empty_ring), rfl, by
      rintro _ buf ⟨⟩
      exact ⟨rfl, rfl, by decide⟩, rfl⟩
  have h2 : Reachable Created (FitStep fun _ => 2) (run (write_seven.take 2) created) :=
    h1.next ⟨.call false false (.kernel_write [7]), ⟨rfl, rfl⟩, trivial, rfl⟩
  have h3 : Reachable Created (FitStep fun _ => 2) (run (write_seven.take 3) created) :=
    h2.next ⟨.task false, trivial, by rintro count ⟨⟩, rfl⟩
  have h4 : Reachable Created (FitStep fun _ => 2) (run (write_seven.take 4) created) :=
    h3.next ⟨.task false, trivial, by rintro count ⟨⟩, rfl⟩
  have h5 : Reachable Created (FitStep fun _ => 2) (run write_seven created) :=
    h4.next ⟨.task false, trivial, by rintro count ⟨⟩, rfl⟩
  exact ⟨_, by decide, pipe_delivers h5⟩

/-- The writer ends, then task `true` reads one byte by `sys_read`. -/
def read_seven : List (Action Bool Bool) :=
  write_seven ++ List.replicate 4 (.task false) ++ [.call true true (.sys_read 1)] ++ List.replicate 7 (.task true)

/-- Even in a block that held an empty ring the byte 7 is taken and delivered nowhere. A block of
zeros is no ring at all. -/
theorem seven_lost : (run read_seven created).removed = [7] ∧ (run read_seven created).pc true = .idle ∧
    (run read_seven created).delivered = [] ∧ (run read_seven created).kbufs = [] ∧
    ¬PipeOk (run read_seven created) ∧
    ¬PipeOk (run [.filp_open (some ⟨fun _ => 0, 0, 0, 0⟩)] created) := by
  refine ⟨by decide, by decide, by decide, by decide, ?_, ?_⟩
  · intro h
    have hlen := h.delivered.length_eq
    exact absurd hlen (by decide)
  · intro h
    exact absurd (h.ring _ rfl).1 (by decide)

end McLinOS.Pipefs
