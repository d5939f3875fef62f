import McLinOS.Pipe.Model
/-!
# Who waits for whom

One reader and one writer, each with an open file of its own on one inode. The
loops wait for the other side with the inode's lock held, so the other side does
not get to its loop.
-/
open CLib Function

set_option linter.unusedSectionVars false

namespace McLinOS.Pipefs

/-- A task and its file. -/
inductive Side where
  | reader | writer
  deriving DecidableEq, Repr

def Side.other : Side → Side
  | .reader => .writer
  | .writer => .reader

abbrev Duo : Type := Pipe Side Side

/-- What the side calls. -/
def Call.of : Side → Call → Prop
  | .reader, .kernel_read _ => True
  | .writer, .kernel_write _ => True
  | _, _ => False

/-- The calls of a side have their result before they end. -/
theorem finish_of {t : Side} {c : Call} (h : c.of t) (s : Duo) : finish t c s = s := by
  cases c with
  | sys_read count => cases t <;> cases h
  | _ => rfl

/-- The ring is well formed. -/
def RingOf (buf : pipe_buffer) : Prop :=
  buf.size = PIPE_BUFFER_SIZE ∧ ∃ xs, Circular buf.buffer PIPE_BUFFER_SIZE buf.head buf.tail xs

/-- The file is open, nobody is in a call. -/
def Opened (s : Duo) : Prop :=
  (∃ buf, s.buf = some buf ∧ RingOf buf) ∧ s.i_lock = none ∧ (∀ t, s.f_slock t = none) ∧ ∀ t, s.pc t = .idle

/-- A side calls its function on its file, or takes a step. -/
def DuoEnabled (s : Duo) : Action Side Side → Prop
  | .filp_open _ => False
  | .call t file c => s.pc t = .idle ∧ file = t ∧ c.of t
  | .task _ => True

def DuoStep (f_flags : Side → Nat) (s s' : Duo) : Prop := ∃ a, DuoEnabled s a ∧ s' = act f_flags a s

/-- Steps of the calls that have begun. -/
def TaskStep (s s' : Duo) : Prop := ∃ t, s' = advance t s

/-- How many bytes a call still has to move. -/
def left : PC Side → Nat
  | .lock_file _ c | .lock_inode _ c => c.size
  | .transfer _ c i => c.size - i
  | _ => 0

/-- The bytes a side has moved. -/
def moved (s : Duo) : Side → List UInt8
  | .reader => s.removed
  | .writer => s.written

/-- The ring lets the side move a byte. -/
def Ready (buf : pipe_buffer) : Side → Prop
  | .reader => buf.head ≠ buf.tail
  | .writer => (buf.head + 1) % buf.size ≠ buf.tail

/-- The side is able to move a byte. -/
def CanMove (s : Duo) (t : Side) : Prop := ∃ s' b, Relation.ReflTransGen TaskStep s s' ∧ moved s' t = moved s t ++ [b]

/-- The writer gets its byte into an empty ring, the reader its byte from a full
one. -/
def NotStuck (s : Duo) : Prop :=
  ∀ buf, s.buf = some buf →
    (buf.head = buf.tail → 0 < left (s.pc .writer) → CanMove s .writer) ∧
      ((buf.head + 1) % buf.size = buf.tail → 0 < left (s.pc .reader) → CanMove s .reader)

/-- The side is in its loop, with bytes to move. -/
def Looping (s : Duo) (t : Side) : Prop := ∃ file c i, s.pc t = .transfer file c i ∧ i < c.size

/-- A side loops on a ring that does not let it move a byte while the other one
has a byte to move. -/
def Stuck (s : Duo) : Prop := ∃ buf t, s.buf = some buf ∧ ¬Ready buf t ∧ Looping s t ∧ 0 < left (s.pc t.other)

/-! ## The locks -/

def holdsFile : PC Side → Prop
  | .lock_inode _ _ | .transfer _ _ _ | .unlock_inode _ _ | .unlock_file _ _ => True
  | _ => False

def holdsInode : PC Side → Prop
  | .transfer _ _ _ | .unlock_inode _ _ => True
  | _ => False

/-- The side is in its own call on its own file. -/
def Own (t : Side) : PC Side → Prop
  | .idle => True
  | .lock_file file c | .lock_inode file c | .unlock_inode file c | .unlock_file file c => file = t ∧ c.of t
  | .transfer file c i => file = t ∧ c.of t ∧ i ≤ c.size
  | .finish c => c.of t

structure DuoInv (s : Duo) : Prop where
  ring : ∃ buf, s.buf = some buf ∧ RingOf buf
  own : ∀ t, Own t (s.pc t)
  file : ∀ t, s.f_slock t = none ↔ ¬holdsFile (s.pc t)
  inode : s.i_lock = none ↔ ∀ t, ¬holdsInode (s.pc t)
  one : ∀ t, holdsInode (s.pc t) → ¬holdsInode (s.pc t.other)

section Duo
variable {s s' : Duo} {t : Side} {file : Side} {c : Call} {i : Nat}

theorem Side.eq_or_other (t u : Side) : u = t ∨ u = t.other := by cases t <;> cases u <;> decide

theorem Side.other_ne (t : Side) : t.other ≠ t := by cases t <;> decide

theorem Side.other_other (t : Side) : t.other.other = t := by cases t <;> rfl

/-! ## The ring -/

def buffered (buf : pipe_buffer) : Nat := (buf.head + buf.size - buf.tail) % buf.size

/-- How many bytes the side can move without the other one. -/
def room (buf : pipe_buffer) : Side → Nat
  | .reader => buffered buf
  | .writer => PIPE_BUFFER_SIZE - 1 - buffered buf

theorem RingOf.ready_iff {buf : pipe_buffer} (h : RingOf buf) (t : Side) : Ready buf t ↔ 0 < room buf t := by
  obtain ⟨hsize, xs, hc⟩ := h
  have hlen : buffered buf = xs.length := by rw [buffered, hsize, hc.length_eq]
  have hlt := hc.length_lt
  cases t with
  | reader =>
    show buf.head ≠ buf.tail ↔ 0 < buffered buf
    rw [ne_eq, hc.empty_iff, hlen, ← List.length_eq_zero_iff]
    omega
  | writer =>
    show (buf.head + 1) % buf.size ≠ buf.tail ↔ 0 < PIPE_BUFFER_SIZE - 1 - buffered buf
    rw [hsize, ne_eq, hc.full_iff, hlen]
    omega

/-- An empty ring is not full. -/
theorem RingOf.ready_or {buf : pipe_buffer} (h : RingOf buf) (t : Side) (hn : ¬Ready buf t) : Ready buf t.other := by
  rw [h.ready_iff] at hn ⊢
  cases t <;> simp only [room, Side.other, PIPE_BUFFER_SIZE] at * <;> omega

variable (file) in
/-- A ring that is ready gives or takes one byte. -/
theorem transfer_ready {buf : pipe_buffer} (h : RingOf buf) (hbuf : s.buf = some buf) (hc : c.of t) (hi : i < c.size)
    (hr : Ready buf t) : ∃ buf' b, (transfer t file c i s).buf = some buf' ∧ RingOf buf' ∧ room buf' t + 1 = room buf t ∧
      moved (transfer t file c i s) t = moved s t ++ [b] ∧
      (transfer t file c i s).pc = update s.pc t (.transfer file c (i + 1)) ∧
      (transfer t file c i s).i_lock = s.i_lock ∧ (transfer t file c i s).f_slock = s.f_slock := by
  obtain ⟨hsize, xs, hring⟩ := h
  have hlen : buffered buf = xs.length := by rw [buffered, hsize, hring.length_eq]
  have hlt := hring.length_lt
  cases t with
  | reader =>
    cases c with
    | kernel_read size =>
      obtain ⟨x, xs, rfl⟩ := List.exists_cons_of_ne_nil fun he => hr (hring.empty_iff.2 he)
      have hring' := hring.pop.2
      have hstep : transfer .reader file (.kernel_read size) i s =
          (take .reader (.kernel_read size) (buf.buffer buf.tail)
            { s with buf := some { buf with tail := (buf.tail + 1) % buf.size } }).goto .reader
            (.transfer file (.kernel_read size) (i + 1)) := by
        show pipefs_read .reader file (.kernel_read size) i s = _
        rw [pipefs_read, hbuf]
        simp only [if_pos hi, pipe_buffer_read, if_neg hr]
      rw [hstep]
      have hroom : buffered { buf with tail := (buf.tail + 1) % buf.size } + 1 = buffered buf := by
        rw [hlen, buffered]
        simp only [hsize]
        rw [hring'.length_eq]
        rfl
      exact ⟨_, _, rfl, ⟨hsize, xs, by rw [← hsize] at hring' ⊢; exact hring'⟩, hroom, rfl, rfl, rfl, rfl⟩
    | _ => cases hc
  | writer =>
    cases c with
    | kernel_write data =>
      have hfull : ¬(buf.head + 1) % PIPE_BUFFER_SIZE = buf.tail := hsize ▸ hr
      have hring' := hring.push (fun he => hfull (hring.full_iff.2 he)) (data.getD i 0)
      have hstep : transfer .writer file (.kernel_write data) i s =
          ({ s with
            buf := some { buf with buffer := update buf.buffer buf.head (data.getD i 0), head := (buf.head + 1) % buf.size }
            written := s.written ++ [data.getD i 0] } : Duo).goto .writer
            (.transfer file (.kernel_write data) (i + 1)) := by
        rw [transfer, pipefs_write, hbuf]
        simp only [if_pos (show i < data.length from hi), pipe_buffer_write, if_neg hr]
      rw [hstep]
      have hlen' : buffered { buf with buffer := update buf.buffer buf.head (data.getD i 0), head := (buf.head + 1) % buf.size } =
          buffered buf + 1 := by
        rw [hlen, buffered]
        simp only [hsize]
        rw [hring'.length_eq, List.length_append]
        rfl
      refine ⟨_, _, rfl, ⟨hsize, _, by rw [← hsize] at hring' ⊢; exact hring'⟩, ?_, rfl, rfl, rfl, rfl⟩
      have hroom : xs.length + 1 ≠ PIPE_BUFFER_SIZE := fun he => hfull (hring.full_iff.2 he)
      show PIPE_BUFFER_SIZE - 1 - buffered _ + 1 = PIPE_BUFFER_SIZE - 1 - buffered buf
      rw [hlen', hlen]
      omega
    | _ => cases hc

/-- A ring that is not ready lets the side wait. -/
theorem transfer_waits {buf : pipe_buffer} (hbuf : s.buf = some buf) (hc : c.of t) (hi : i < c.size) (hr : ¬Ready buf t) :
    transfer t file c i s = s := by
  cases t with
  | reader =>
    cases c with
    | kernel_read size =>
      show pipefs_read .reader file (.kernel_read size) i s = s
      rw [pipefs_read, hbuf]
      simp only [if_pos hi, pipe_buffer_read, if_pos (not_not.1 hr)]
    | _ => cases hc
  | writer =>
    cases c with
    | kernel_write data =>
      rw [transfer, pipefs_write, hbuf]
      simp only [if_pos (show i < data.length from hi), pipe_buffer_write, if_pos (not_not.1 hr)]
    | _ => cases hc

theorem transfer_ends {buf : pipe_buffer} (hbuf : s.buf = some buf) (hi : ¬i < c.size) :
    transfer t file c i s = s.goto t (.unlock_inode file c) := by
  cases c with
  | kernel_write data =>
    rw [transfer, pipefs_write, hbuf]
    exact if_neg hi
  | _ =>
    show pipefs_read t file _ i s = _
    rw [pipefs_read, hbuf]
    exact if_neg hi

/-! ## The steps -/

/-- What a step of `t` does: its place, its file's lock and the inode's lock. -/
theorem DuoInv.step {pc : PC Side} (h : DuoInv s)
    (hring : ∃ buf, s'.buf = some buf ∧ RingOf buf) (hpc : s'.pc = update s.pc t pc) (hown : Own t pc)
    (hf : ∀ u, u ≠ t → s'.f_slock u = s.f_slock u) (hft : s'.f_slock t = none ↔ ¬holdsFile pc)
    (hi : s'.i_lock = none ↔ ¬holdsInode pc ∧ ¬holdsInode (s.pc t.other))
    (hone : holdsInode pc → ¬holdsInode (s.pc t.other)) : DuoInv s' := by
  have hself : s'.pc t = pc := by rw [hpc, update_self]
  have hother : s'.pc t.other = s.pc t.other := by rw [hpc, update_of_ne t.other_ne]
  have hboth : ∀ u, u = t ∨ u = t.other := fun u => t.eq_or_other u
  refine ⟨hring, ?_, ?_, ?_, ?_⟩
  · intro u
    rcases hboth u with rfl | rfl
    · rw [hself]
      exact hown
    · rw [hother]
      exact h.own _
  · intro u
    rcases hboth u with rfl | rfl
    · rw [hself]
      exact hft
    · rw [hother, hf _ t.other_ne]
      exact h.file _
  · rw [hi]
    constructor
    · rintro ⟨h1, h2⟩ u
      rcases hboth u with rfl | rfl
      · rwa [hself]
      · rwa [hother]
    · intro hall
      have h1 := hall t
      have h2 := hall t.other
      rw [hself] at h1
      rw [hother] at h2
      exact ⟨h1, h2⟩
  · intro u
    rcases hboth u with rfl | rfl
    · rw [hself, hother]
      exact hone
    · rw [t.other_other, hself, hother]
      exact fun ho ht => hone ht ho

theorem DuoInv.inode_iff (h : DuoInv s) (t : Side) :
    s.i_lock = none ↔ ¬holdsInode (s.pc t) ∧ ¬holdsInode (s.pc t.other) := by
  rw [h.inode]
  refine ⟨fun hall => ⟨hall _, hall _⟩, fun hboth u => ?_⟩
  rcases t.eq_or_other u with rfl | rfl
  · exact hboth.1
  · exact hboth.2

theorem DuoInv.advance (h : DuoInv s) (t : Side) : DuoInv (advance t s) := by
  have hown := h.own t
  have hi := h.inode_iff t
  have hone := h.one t
  obtain ⟨buf, hbuf, hring⟩ := h.ring
  unfold Pipefs.advance
  split
  · exact h
  · next file c hpc =>
    rw [hpc] at hown hi
    obtain ⟨rfl, hc⟩ := hown
    split
    · refine h.step h.ring rfl ⟨rfl, hc⟩ (fun u hu => update_of_ne hu _ _) ?_ hi (fun hno => hno.elim)
      simp [holdsFile, Pipe.goto]
    · exact h
  · next file c hpc =>
    have hf := h.file t
    rw [hpc] at hown hi hf
    obtain ⟨rfl, hc⟩ := hown
    split
    · next hfree =>
      refine h.step h.ring rfl ⟨rfl, hc, Nat.zero_le _⟩ (fun _ _ => rfl) hf ?_ fun _ => (hi.1 hfree).2
      simp [holdsInode, Pipe.goto]
    · exact h
  · next file c i hpc =>
    -- Both locks stay in the loop, whether a byte moves or the side turns round in it.
    have hf := h.file t
    rw [hpc] at hown hi hf hone
    obtain ⟨rfl, hc, hle⟩ := hown
    by_cases hlt : i < c.size
    · by_cases hr : Ready buf file
      · obtain ⟨buf', b, hbuf', hring', -, -, hpc', hil, hfl⟩ := transfer_ready file hring hbuf hc hlt hr
        refine h.step ⟨buf', hbuf', hring'⟩ hpc' ⟨rfl, hc, hlt⟩ (fun u _ => by rw [hfl]) ?_ ?_ fun _ => hone trivial
        · rw [hfl]
          exact hf
        · rw [hil]
          exact hi
      · rw [transfer_waits hbuf hc hlt hr]
        exact h
    · rw [transfer_ends hbuf hlt]
      exact h.step h.ring rfl ⟨rfl, hc⟩ (fun _ _ => rfl) hf hi fun _ => hone trivial
  · next file c hpc =>
    have hf := h.file t
    rw [hpc] at hown hi hf hone
    obtain ⟨rfl, hc⟩ := hown
    refine h.step h.ring rfl ⟨rfl, hc⟩ (fun _ _ => rfl) hf ?_ fun hno => hno.elim
    have hother := hone trivial
    simp [holdsInode, Pipe.goto] at hother ⊢
    exact hother
  · next file c hpc =>
    rw [hpc] at hown hi
    obtain ⟨rfl, hc⟩ := hown
    refine h.step h.ring rfl hc (fun u hu => update_of_ne hu _ _) ?_ hi fun hno => hno.elim
    simp [holdsFile, Pipe.goto]
  · next c hpc =>
    have hf := h.file t
    rw [hpc] at hown hi hf
    rw [finish_of hown]
    exact h.step h.ring rfl trivial (fun _ _ => rfl) hf hi fun hno => hno.elim

theorem DuoInv.call {f_flags : Side → Nat} (h : DuoInv s) (hpc : s.pc t = .idle) (hc : c.of t) :
    DuoInv (call f_flags t t c s) := by
  have hf := h.file t
  have hi := h.inode_iff t
  rw [hpc] at hf hi
  have hg : DuoInv (s.goto t (.lock_file t c)) :=
    h.step h.ring rfl ⟨rfl, hc⟩ (fun _ _ => rfl) hf hi fun hno => hno.elim
  unfold Pipefs.call
  cases c with
  | kernel_write data =>
    dsimp only
    split
    · exact h
    · exact hg
  | _ => exact hg

theorem Opened.inv (h : Opened s) : DuoInv s := by
  obtain ⟨hring, hi, hf, hpc⟩ := h
  refine ⟨hring, ?_, ?_, ?_, ?_⟩
  · intro t
    rw [hpc]
    trivial
  · intro t
    simp [hpc, hf, holdsFile]
  · simp [hpc, hi, holdsInode]
  · intro t
    simp [hpc, holdsInode]

theorem DuoStep.inv {f_flags : Side → Nat} (hs : DuoStep f_flags s s') (h : DuoInv s) : DuoInv s' := by
  obtain ⟨a, hen, rfl⟩ := hs
  cases a with
  | filp_open block => exact hen.elim
  | call t file c =>
    obtain ⟨hpc, rfl, hc⟩ := hen
    exact h.call hpc hc
  | task t => exact h.advance t

/-! ## A side gets on -/

theorem CanMove.head {s₁ : Duo} {u : Side} (hs : s₁ = Pipefs.advance u s) (hm : moved s₁ t = moved s t)
    (h : CanMove s₁ t) : CanMove s t := by
  obtain ⟨s', b, hrun, hb⟩ := h
  exact ⟨s', b, .head ⟨u, hs⟩ hrun, hb.trans (by rw [hm])⟩

theorem DuoInv.move_loop {buf : pipe_buffer} (h : DuoInv s) (hbuf : s.buf = some buf) (hr : Ready buf t)
    (hpc : s.pc t = .transfer file c i) (hi : i < c.size) : CanMove s t := by
  have hown := h.own t
  rw [hpc] at hown
  obtain ⟨buf₁, hbuf₁, hring⟩ := h.ring
  obtain rfl := Option.some.inj (hbuf.symm.trans hbuf₁)
  obtain ⟨-, b, -, -, -, hm, -⟩ := transfer_ready file hring hbuf hown.2.1 hi hr
  have hstep : Pipefs.advance t s = transfer t file c i s := by rw [Pipefs.advance, hpc]
  exact ⟨_, b, .single ⟨t, rfl⟩, hstep ▸ hm⟩

theorem DuoInv.move_free {buf : pipe_buffer} (h : DuoInv s) (hbuf : s.buf = some buf) (hr : Ready buf t)
    (hpc : s.pc t = .lock_inode file c) (hc : 0 < c.size) (hfree : s.i_lock = none) : CanMove s t := by
  have hstep : Pipefs.advance t s = ({ s with i_lock := some t } : Duo).goto t (.transfer file c 0) := by
    rw [Pipefs.advance, hpc]
    exact if_pos hfree
  refine .head hstep.symm (by cases t <;> rfl) ?_
  have h₁ := h.advance t
  rw [hstep] at h₁
  exact h₁.move_loop hbuf hr (update_self _ _ _) hc

/-- The other side gives the lock back. -/
theorem DuoInv.move_unlock {buf : pipe_buffer} {file' : Side} {c' : Call} (h : DuoInv s) (hbuf : s.buf = some buf)
    (hr : Ready buf t) (hpc : s.pc t = .lock_inode file c) (hc : 0 < c.size)
    (hother : s.pc t.other = .unlock_inode file' c') : CanMove s t := by
  have hstep : Pipefs.advance t.other s = ({ s with i_lock := none } : Duo).goto t.other (.unlock_file file' c') := by
    rw [Pipefs.advance, hother]
  refine .head hstep.symm (by cases t <;> rfl) ?_
  have h₁ := h.advance t.other
  rw [hstep] at h₁
  exact h₁.move_free hbuf hr ((update_of_ne t.other_ne.symm _ _).trans hpc) hc rfl

theorem DuoInv.move_inode {buf : pipe_buffer} (h : DuoInv s) (hbuf : s.buf = some buf) (hr : Ready buf t)
    (hpc : s.pc t = .lock_inode file c) (hc : 0 < c.size) (hother : ¬Looping s t.other) : CanMove s t := by
  by_cases hfree : s.i_lock = none
  · exact h.move_free hbuf hr hpc hc hfree
  · have hholds : holdsInode (s.pc t.other) := by
      by_contra hno
      exact hfree ((h.inode_iff t).2 ⟨by rw [hpc]; exact id, hno⟩)
    cases hpc' : s.pc t.other with
    | transfer file' c' i' =>
      have hend : ¬i' < c'.size := fun hlt => hother ⟨file', c', i', hpc', hlt⟩
      have hstep : Pipefs.advance t.other s = s.goto t.other (.unlock_inode file' c') := by
        rw [Pipefs.advance, hpc']
        exact transfer_ends hbuf hend
      refine .head hstep.symm (by cases t <;> rfl) ?_
      have h₁ := h.advance t.other
      rw [hstep] at h₁
      exact h₁.move_unlock hbuf hr ((update_of_ne t.other_ne.symm _ _).trans hpc) hc (update_self _ _ _)
    | unlock_inode file' c' => exact h.move_unlock hbuf hr hpc hc hpc'
    | _ => rw [hpc'] at hholds; exact hholds.elim

/-- A side whose ring is ready moves a byte unless the other one loops. -/
theorem DuoInv.can_move {buf : pipe_buffer} (h : DuoInv s) (hbuf : s.buf = some buf) (hr : Ready buf t)
    (hleft : 0 < left (s.pc t)) (hother : ¬Looping s t.other) : CanMove s t := by
  cases hpc : s.pc t with
  | lock_file file c =>
    rw [hpc] at hleft
    have hown := h.own t
    have hf := h.file t
    rw [hpc] at hown hf
    have hfree : s.f_slock file = none := by
      rw [hown.1]
      exact hf.2 id
    have hstep : Pipefs.advance t s =
        ({ s with f_slock := update s.f_slock file (some t) } : Duo).goto t (.lock_inode file c) := by
      rw [Pipefs.advance, hpc]
      exact if_pos hfree
    refine .head hstep.symm (by cases t <;> rfl) ?_
    have h₁ := h.advance t
    rw [hstep] at h₁
    refine h₁.move_inode hbuf hr (update_self _ _ _) hleft ?_
    rintro ⟨file', c', i', hpc', hlt⟩
    exact hother ⟨file', c', i', (update_of_ne t.other_ne _ _).symm.trans hpc', hlt⟩
  | lock_inode file c =>
    rw [hpc] at hleft
    exact h.move_inode hbuf hr hpc hleft hother
  | transfer file c i =>
    rw [hpc] at hleft
    exact h.move_loop hbuf hr hpc (Nat.lt_of_sub_pos hleft)
  | _ => rw [hpc] at hleft; exact absurd hleft (Nat.lt_irrefl _)

/-! ## No side gets on -/

/-- `t` loops on a ring that is not ready, the other side waits for a lock. -/
structure Frozen (s : Duo) (t : Side) : Prop where
  ring : ∃ buf, s.buf = some buf ∧ ¬Ready buf t
  looping : Looping s t
  waiting : ∃ file c, s.pc t.other = .lock_file file c ∨ s.pc t.other = .lock_inode file c

theorem DuoInv.frozen (h : DuoInv s) {buf : pipe_buffer} (hbuf : s.buf = some buf) (hr : ¬Ready buf t)
    (hloop : Looping s t) (hleft : 0 < left (s.pc t.other)) : Frozen s t := by
  refine ⟨⟨buf, hbuf, hr⟩, hloop, ?_⟩
  obtain ⟨file, c, i, hpc, -⟩ := hloop
  have hno := h.one t (by rw [hpc]; trivial)
  cases hpc' : s.pc t.other with
  | lock_file file c => exact ⟨file, c, .inl rfl⟩
  | lock_inode file c => exact ⟨file, c, .inr rfl⟩
  | transfer file c i => exact absurd (by rw [hpc']; trivial) hno
  | _ => rw [hpc'] at hleft; exact absurd hleft (Nat.lt_irrefl _)

theorem Frozen.step (hf : Frozen s t) (h : DuoInv s) (hs : TaskStep s s') :
    Frozen s' t ∧ moved s' t.other = moved s t.other := by
  obtain ⟨⟨buf, hbuf, hr⟩, ⟨file, c, i, hpc, hi⟩, file', c', hwait⟩ := hf
  obtain ⟨u, rfl⟩ := hs
  have hf : Frozen s t := ⟨⟨buf, hbuf, hr⟩, ⟨file, c, i, hpc, hi⟩, file', c', hwait⟩
  rcases t.eq_or_other u with rfl | rfl
  · have hown := h.own u
    rw [hpc] at hown
    have hstep : Pipefs.advance u s = s := by
      rw [Pipefs.advance, hpc]
      exact transfer_waits hbuf hown.2.1 hi hr
    rw [hstep]
    exact ⟨hf, rfl⟩
  · rcases hwait with hwait | hwait
    · have hstep : Pipefs.advance t.other s = if s.f_slock file' = none then
          ({ s with f_slock := update s.f_slock file' (some t.other) } : Duo).goto t.other (.lock_inode file' c') else s := by
        rw [Pipefs.advance, hwait]
      rw [hstep]
      split
      · refine ⟨⟨⟨buf, hbuf, hr⟩, ⟨file, c, i, ?_, hi⟩, file', c', .inr (update_self _ _ _)⟩, by cases t <;> rfl⟩
        exact (update_of_ne t.other_ne.symm _ _).trans hpc
      · exact ⟨hf, rfl⟩
    · have htaken : ¬s.i_lock = none := fun hfree => ((h.inode_iff t).1 hfree).1 (by rw [hpc]; trivial)
      have hstep : Pipefs.advance t.other s = s := by
        rw [Pipefs.advance, hwait]
        exact if_neg htaken
      rw [hstep]
      exact ⟨hf, rfl⟩

theorem Frozen.cannot_move (hf : Frozen s t) (h : DuoInv s) : ¬CanMove s t.other := by
  rintro ⟨s', b, hrun, hb⟩
  have hall : Frozen s' t ∧ DuoInv s' ∧ moved s' t.other = moved s t.other := by
    clear hb
    induction hrun with
    | refl => exact ⟨hf, h, rfl⟩
    | tail _ hs ih =>
      obtain ⟨hf', h', hm⟩ := ih
      obtain ⟨hf'', hm'⟩ := hf'.step h' hs
      obtain ⟨u, rfl⟩ := hs
      exact ⟨hf'', h'.advance u, hm'.trans hm⟩
  rw [hall.2.2] at hb
  exact absurd (congrArg List.length hb) (by simp)

/-- Exactly when a side cannot get on. -/
theorem DuoInv.not_stuck_iff (h : DuoInv s) : NotStuck s ↔ ¬Stuck s := by
  constructor
  · rintro hns ⟨buf, t, hbuf, hr, hloop, hleft⟩
    have hno := (h.frozen hbuf hr hloop hleft).cannot_move h
    cases t with
    | reader => exact hno ((hns buf hbuf).1 (not_not.1 hr) hleft)
    | writer => exact hno ((hns buf hbuf).2 (not_not.1 hr) hleft)
  · intro hns buf hbuf
    obtain ⟨buf₁, hbuf₁, hring⟩ := h.ring
    obtain rfl := Option.some.inj (hbuf.symm.trans hbuf₁)
    refine ⟨?_, ?_⟩
    · intro hempty hleft
      have hr : ¬Ready buf .reader := not_not.2 hempty
      exact h.can_move hbuf (hring.ready_or _ hr) hleft fun hloop => hns ⟨buf, .reader, hbuf, hr, hloop, hleft⟩
    · intro hfull hleft
      have hr : ¬Ready buf .writer := not_not.2 hfull
      exact h.can_move hbuf (hring.ready_or _ hr) hleft fun hloop => hns ⟨buf, .writer, hbuf, hr, hloop, hleft⟩

/-! ## Runs -/

/-- A side gets the inode's lock only when the ring has the bytes or the space
for its whole call. -/
def DuoFits (s : Duo) : Action Side Side → Prop
  | .task t => ∀ file c buf, s.pc t = .lock_inode file c → s.i_lock = none → s.buf = some buf → c.size ≤ room buf t
  | _ => True

def FitDuoStep (f_flags : Side → Nat) (s s' : Duo) : Prop := ∃ a, DuoEnabled s a ∧ DuoFits s a ∧ s' = act f_flags a s

/-- A loop has the bytes or the space for what is left. -/
def Room (s : Duo) : Prop := ∀ t file c i buf, s.pc t = .transfer file c i → s.buf = some buf → c.size - i ≤ room buf t

theorem Room.not_stuck (hroom : Room s) (h : DuoInv s) : ¬Stuck s := by
  rintro ⟨buf, t, hbuf, hr, ⟨file, c, i, hpc, hi⟩, -⟩
  obtain ⟨buf₁, hbuf₁, hring⟩ := h.ring
  obtain rfl := Option.some.inj (hbuf.symm.trans hbuf₁)
  have hle := hroom t file c i buf hpc hbuf
  rw [hring.ready_iff] at hr
  omega

/-- A step of `t` that does not touch the ring. -/
theorem Room.goto {pc : PC Side} (hroom : Room s) (hbuf : s'.buf = s.buf) (hpc : s'.pc = update s.pc t pc)
    (hnew : ∀ file c i buf, pc = .transfer file c i → s.buf = some buf → c.size - i ≤ room buf t) : Room s' := by
  intro u file c i buf hu hb
  rw [hbuf] at hb
  rw [hpc] at hu
  by_cases hut : u = t
  · subst hut
    rw [update_self] at hu
    exact hnew file c i buf hu hb
  · rw [update_of_ne hut] at hu
    exact hroom u file c i buf hu hb

theorem Room.advance (hroom : Room s) (h : DuoInv s) (hfit : DuoFits s (.task t)) : Room (advance t s) := by
  have hown := h.own t
  have hone := h.one t
  obtain ⟨buf, hbuf, hring⟩ := h.ring
  unfold Pipefs.advance
  split
  · exact hroom
  · split
    · exact hroom.goto rfl rfl (by rintro _ _ _ _ ⟨⟩)
    · exact hroom
  · next file c hpc =>
    split
    · next hfree =>
      refine hroom.goto rfl rfl ?_
      rintro _ _ _ buf ⟨⟩ hb
      exact hfit file c buf hpc hfree hb
    · exact hroom
  · next file c i hpc =>
    rw [hpc] at hown hone
    have hc := hown.2.1
    by_cases hlt : i < c.size
    · by_cases hr : Ready buf t
      · obtain ⟨buf', b, hbuf', -, hroom', -, hpc', -⟩ := transfer_ready file hring hbuf hc hlt hr
        intro u file' c' i' buf'' hu hb
        obtain rfl := Option.some.inj (hbuf'.symm.trans hb)
        rw [hpc'] at hu
        rcases t.eq_or_other u with rfl | rfl
        · rw [update_self] at hu
          obtain ⟨rfl, rfl, rfl⟩ := PC.transfer.inj hu
          have := hroom u file c i buf hpc hbuf
          omega
        · rw [update_of_ne t.other_ne] at hu
          exact absurd (by rw [hu]; trivial) (hone trivial)
      · rw [transfer_waits hbuf hc hlt hr]
        exact hroom
    · rw [transfer_ends hbuf hlt]
      exact hroom.goto rfl rfl (by rintro _ _ _ _ ⟨⟩)
  · exact hroom.goto rfl rfl (by rintro _ _ _ _ ⟨⟩)
  · exact hroom.goto rfl rfl (by rintro _ _ _ _ ⟨⟩)
  · next c hpc =>
    rw [hpc] at hown
    rw [finish_of hown]
    exact hroom.goto rfl rfl (by rintro _ _ _ _ ⟨⟩)

theorem FitDuoStep.room {f_flags : Side → Nat} (hs : FitDuoStep f_flags s s') (h : DuoInv s) (hroom : Room s) : Room s' := by
  obtain ⟨a, hen, hfit, rfl⟩ := hs
  cases a with
  | filp_open block => exact hen.elim
  | call t file c =>
    have hg : Room (s.goto t (.lock_file file c)) := hroom.goto rfl rfl (by rintro _ _ _ _ ⟨⟩)
    show Room (Pipefs.call f_flags t file c s)
    unfold Pipefs.call
    cases c with
    | kernel_write data =>
      dsimp only
      split
      · exact hroom
      · exact hg
    | _ => exact hg
  | task t => exact hroom.advance h hfit

/-- In every state of every run the sides wait for each other exactly if one
loops on a ring that is not ready while the other has a byte to move. That never
happens if a side gets the inode's lock only when the ring is ready for its whole
call. -/
theorem no_mutual_wait (f_flags : Side → Nat) :
    (∀ s, Reachable Opened (DuoStep f_flags) s → (NotStuck s ↔ ¬Stuck s)) ∧
      ∀ s, Reachable Opened (FitDuoStep f_flags) s → NotStuck s := by
  constructor
  · intro s h
    have hinv : DuoInv s := h.inv DuoInv (fun _ h => h.inv) fun _ _ h hs => hs.inv h
    exact hinv.not_stuck_iff
  · intro s h
    obtain ⟨hinv, hroom⟩ : DuoInv s ∧ Room s := by
      refine h.inv (fun s => DuoInv s ∧ Room s) (fun s h => ⟨h.inv, ?_⟩) fun s s' hi hs => ⟨?_, hs.room hi.1 hi.2⟩
      · intro t file c i buf hpc
        rw [h.2.2.2 t] at hpc
        cases hpc
      · obtain ⟨a, hen, -, rfl⟩ := hs
        exact DuoStep.inv ⟨a, hen, rfl⟩ hi.1
    exact hinv.not_stuck_iff.2 (hroom.not_stuck hinv)

end Duo

/-- An empty ring, nobody is in a call. -/
def opened : Duo := ⟨some ⟨fun _ => 0, PIPE_BUFFER_SIZE, 0, 0⟩, none, fun _ => none, fun _ => .idle, [], [], [], []⟩

theorem opened_ok : Opened opened :=
  ⟨⟨_, rfl, rfl, [], .empty (by decide)⟩, rfl, fun _ => rfl, fun _ => rfl⟩

/-- The side has called its function. -/
def called (t : Side) (c : Call) : Duo := call (fun _ => 2) t t c opened

/-- It has its file's lock. -/
def file_locked (t : Side) (c : Call) : Duo := advance t (called t c)

/-- It has both locks. -/
def locked (t : Side) (c : Call) : Duo := advance t (file_locked t c)

/-- Then the other side calls its function. -/
def both_called (t : Side) (c c' : Call) : Duo := call (fun _ => 2) t.other t.other c' (locked t c)

/-- The writer is in its loop when the reader comes. -/
theorem writer_first : NotStuck (both_called .writer (.kernel_write [7]) (.kernel_read 1)) := by
  have h1 : FitDuoStep (fun _ => 2) opened (called .writer (.kernel_write [7])) :=
    ⟨.call .writer .writer (.kernel_write [7]), ⟨rfl, rfl, trivial⟩, trivial, rfl⟩
  have h2 : FitDuoStep (fun _ => 2) (called .writer (.kernel_write [7])) (file_locked .writer (.kernel_write [7])) :=
    ⟨.task .writer, trivial, by rintro _ _ _ ⟨⟩, rfl⟩
  have h3 : FitDuoStep (fun _ => 2) (file_locked .writer (.kernel_write [7])) (locked .writer (.kernel_write [7])) :=
    ⟨.task .writer, trivial, by rintro _ _ _ ⟨⟩ - ⟨⟩; decide, rfl⟩
  have h4 : FitDuoStep (fun _ => 2) (locked .writer (.kernel_write [7]))
      (both_called .writer (.kernel_write [7]) (.kernel_read 1)) :=
    ⟨.call .reader .reader (.kernel_read 1), ⟨rfl, rfl, trivial⟩, trivial, rfl⟩
  exact (no_mutual_wait fun _ => 2).2 _ ((((Reachable.start opened_ok).next h1).next h2).next h3 |>.next h4)

/-- The reader comes first: it loops on the empty ring with the inode's lock, and
the writer never gets its byte in. -/
theorem reader_first_stuck : Reachable Opened (DuoStep fun _ => 2) (both_called .reader (.kernel_read 1) (.kernel_write [7])) ∧
    ¬NotStuck (both_called .reader (.kernel_read 1) (.kernel_write [7])) := by
  have h1 : DuoStep (fun _ => 2) opened (called .reader (.kernel_read 1)) :=
    ⟨.call .reader .reader (.kernel_read 1), ⟨rfl, rfl, trivial⟩, rfl⟩
  have h2 : DuoStep (fun _ => 2) (called .reader (.kernel_read 1)) (file_locked .reader (.kernel_read 1)) :=
    ⟨.task .reader, trivial, rfl⟩
  have h3 : DuoStep (fun _ => 2) (file_locked .reader (.kernel_read 1)) (locked .reader (.kernel_read 1)) :=
    ⟨.task .reader, trivial, rfl⟩
  have h4 : DuoStep (fun _ => 2) (locked .reader (.kernel_read 1)) (both_called .reader (.kernel_read 1) (.kernel_write [7])) :=
    ⟨.call .writer .writer (.kernel_write [7]), ⟨rfl, rfl, trivial⟩, rfl⟩
  have hinv := h4.inv (h3.inv (h2.inv (h1.inv opened_ok.inv)))
  refine ⟨(((Reachable.start opened_ok).next h1).next h2).next h3 |>.next h4, fun hns => ?_⟩
  exact hinv.not_stuck_iff.1 hns ⟨_, .reader, rfl, not_not.2 rfl, ⟨_, _, _, rfl, by decide⟩, by decide⟩

end McLinOS.Pipefs
