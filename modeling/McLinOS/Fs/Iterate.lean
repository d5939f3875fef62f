import Mathlib.Data.List.Induction
import McLinOS.Fs.Model
/-!
# Reading a directory

`initramfs_iterate` of `fs/initramfs/initramfs.c`. The caller's `actor` takes a record
or refuses it, as the state of its buffer says, and `ctx->pos` goes from call to call.
-/
open CLib

namespace McLinOS.Fs

def DT_DIR : Nat := 4
def DT_REG : Nat := 8

/-- What `dir_emit` gives to the actor. -/
structure Record where
  name : Name
  namelen : Nat
  offset : Nat
  ino : Nat
  type : Nat
  deriving DecidableEq, Repr

/-- The record of the entry `pos`, where `curr` is counted up already. -/
def record (s : FS) (pos offset curr : Nat) : Record :=
  let dentry := s.initramfs_dentries.get pos
  { name := dentry.name
    namelen := dentry.name.length
    offset
    ino := curr
    type := if (s.initramfs_inodes.get dentry.target_inode).i_mode &&& S_IFDIR ≠ 0 then DT_DIR else DT_REG }

section Iterate
variable {σ : Type} (s : FS) (actor : σ → Record → Bool × σ)

/-- The loop, with the records that were taken and the new `ctx->pos`. -/
def emit_from : List Nat → Nat → Nat → σ → List Record × Nat
  | [], _, ctx_pos, _ => ([], ctx_pos)
  | pos :: entries, curr, ctx_pos, buf =>
    if curr < ctx_pos then emit_from entries (curr + 1) ctx_pos buf
    else
      match actor buf (record s pos ctx_pos (curr + 1)) with
      -- The buffer is full.
      | (false, _) => ([], ctx_pos)
      | (true, buf) =>
        let r := emit_from entries (curr + 1) (ctx_pos + 1) buf
        (record s pos ctx_pos (curr + 1) :: r.1, r.2)

/-- The result of the call, what it emits and the new `ctx->pos`. -/
def initramfs_iterate (inode ctx_pos : Nat) (buf : σ) : Int × List Record × Nat :=
  let i := s.initramfs_inodes.get inode
  if i.i_mode &&& S_IFMT ≠ S_IFDIR then (-ENOTDIR, [], ctx_pos)
  else (0, emit_from s actor i.dentry_list_head 0 ctx_pos buf)

/-- One call more with the same `dir_context`. -/
def iterate_again (inode : Nat) (done : List Record × Nat) (buf : σ) : List Record × Nat :=
  let r := (initramfs_iterate s actor inode done.2 buf).2
  (done.1 ++ r.1, r.2)

/-- Calls with the buffers `bufs`, from a new `dir_context` on. -/
def iterate_all (inode : Nat) (bufs : List σ) : List Record × Nat := bufs.foldl (iterate_again s actor inode) ([], 0)

end Iterate

/-- The records of all entries, in the order of the list. -/
def records (s : FS) (inode : Nat) : List Record :=
  (s.initramfs_inodes.get inode).dentry_list_head.mapIdx fun i pos => record s pos i (i + 1)

def IsDirectory (s : FS) (inode : Nat) : Prop := (s.initramfs_inodes.get inode).i_mode &&& S_IFMT = S_IFDIR

instance (s : FS) (inode : Nat) : Decidable (IsDirectory s inode) := inferInstanceAs (Decidable (_ = _))

/-! ## One call -/

section Call
variable {σ : Type} {s : FS} (actor : σ → Record → Bool × σ) {inode : Nat}

/-- The records of the entries from the `i`-th on. -/
def records_from (s : FS) (entries : List Nat) (i : Nat) : List Record :=
  entries.mapIdx fun j pos => record s pos (i + j) (i + j + 1)

theorem records_from_cons (pos : Nat) (entries : List Nat) (i : Nat) :
    records_from s (pos :: entries) i = record s pos i (i + 1) :: records_from s entries (i + 1) := by
  simp only [records_from, List.mapIdx_cons, Nat.add_zero, Nat.add_assoc, Nat.add_comm 1]

theorem records_eq_from : records s inode = records_from s (s.initramfs_inodes.get inode).dentry_list_head 0 := by
  simp [records, records_from]

theorem drop_records (entries : List Nat) (i k : Nat) :
    (records_from s entries i).drop k = records_from s (entries.drop k) (i + k) := by
  induction k generalizing entries i with
  | zero => rfl
  | succ k ih =>
    cases entries with
    | nil => simp [records_from]
    | cons pos entries =>
      rw [records_from_cons, List.drop_succ_cons, List.drop_succ_cons, ih, Nat.add_right_comm, Nat.add_assoc]

/-- Entries before `ctx->pos` are passed over. -/
theorem emit_from_skip (k : Nat) (entries : List Nat) (curr : Nat) (buf : σ) (h : k ≤ entries.length) :
    emit_from s actor entries curr (curr + k) buf = emit_from s actor (entries.drop k) (curr + k) (curr + k) buf := by
  induction k generalizing entries curr with
  | zero => rfl
  | succ k ih =>
    cases entries with
    | nil => simp at h
    | cons pos entries =>
      have hlt : curr < curr + (k + 1) := by omega
      rw [emit_from, if_pos hlt, List.drop_succ_cons, show curr + (k + 1) = curr + 1 + k by omega]
      exact ih entries (curr + 1) (by simpa using h)

/-- What the loop emits is where the list goes on, up to the record that is refused. -/
theorem emit_from_spec (entries : List Nat) (curr : Nat) (buf : σ) :
    let r := emit_from s actor entries curr curr buf
    r.2 = curr + r.1.length ∧ r.1 <+: records_from s entries curr ∧
      (r.1.length < entries.length → ∃ b d, (records_from s entries curr)[r.1.length]? = some d ∧ (actor b d).1 = false) := by
  induction entries generalizing curr buf with
  | nil => simp [emit_from, records_from]
  | cons pos entries ih =>
    rw [emit_from, if_neg (Nat.lt_irrefl curr), records_from_cons]
    cases hact : actor buf (record s pos curr (curr + 1)) with
    | mk taken b =>
      cases taken with
      | false => exact ⟨rfl, List.nil_prefix, fun _ => ⟨buf, _, rfl, by rw [hact]⟩⟩
      | true =>
        obtain ⟨hpos, hbegin, hfull⟩ := ih (curr + 1) b
        dsimp only
        refine ⟨?_, List.cons_prefix_cons.2 ⟨rfl, hbegin⟩, ?_⟩
        · rw [hpos, List.length_cons]
          omega
        · intro hlt
          rw [List.length_cons, List.getElem?_cons_succ]
          exact hfull (by simpa using hlt)

/-- If the first record is taken, the call goes on. -/
theorem emit_from_pos {pos : Nat} (entries : List Nat) {curr : Nat} {buf : σ}
    (h : (actor buf (record s pos curr (curr + 1))).1 = true) :
    0 < (emit_from s actor (pos :: entries) curr curr buf).1.length := by
  rw [emit_from, if_neg (Nat.lt_irrefl curr)]
  cases hact : actor buf (record s pos curr (curr + 1)) with
  | mk taken b =>
    rw [hact] at h
    obtain rfl : taken = true := h
    simp

/-- One call emits where the last one has stopped. -/
theorem initramfs_iterate_spec (hdir : IsDirectory s inode) {ctx_pos : Nat} (hpos : ctx_pos ≤ (records s inode).length)
    (buf : σ) :
    let r := initramfs_iterate s actor inode ctx_pos buf
    r.1 = 0 ∧ r.2.2 = ctx_pos + r.2.1.length ∧ r.2.1 <+: (records s inode).drop ctx_pos ∧
      (∀ d, (records s inode)[r.2.2]? = some d → ∃ b, (actor b d).1 = false) ∧
      (∀ d, (records s inode)[ctx_pos]? = some d → (actor buf d).1 = true → 0 < r.2.1.length) := by
  have hlen : ctx_pos ≤ (s.initramfs_inodes.get inode).dentry_list_head.length := by simpa [records] using hpos
  have hcall : initramfs_iterate s actor inode ctx_pos buf = (0, emit_from s actor
      ((s.initramfs_inodes.get inode).dentry_list_head.drop ctx_pos) ctx_pos ctx_pos buf) := by
    have hskip := emit_from_skip (s := s) actor ctx_pos _ 0 buf hlen
    rw [Nat.zero_add] at hskip
    have hno : ¬(s.initramfs_inodes.get inode).i_mode &&& S_IFMT ≠ S_IFDIR := not_not.2 hdir
    rw [initramfs_iterate, if_neg hno, hskip]
  have hdrop : (records s inode).drop ctx_pos =
      records_from s ((s.initramfs_inodes.get inode).dentry_list_head.drop ctx_pos) ctx_pos := by
    rw [records_eq_from, drop_records, Nat.zero_add]
  rw [hcall]
  obtain ⟨hnext, hbegin, hfull⟩ := emit_from_spec (s := s) actor
    ((s.initramfs_inodes.get inode).dentry_list_head.drop ctx_pos) ctx_pos buf
  refine ⟨rfl, hnext, hdrop ▸ hbegin, ?_, ?_⟩
  · intro d hd
    dsimp only at hd
    rw [hnext, ← List.getElem?_drop, hdrop] at hd
    have hlt := (List.getElem?_eq_some_iff.1 hd).1
    obtain ⟨b, d', hd', hact⟩ := hfull (by simpa [records_from] using hlt)
    rw [hd] at hd'
    exact ⟨b, Option.some.inj hd' ▸ hact⟩
  · intro d hd hact
    rw [← Nat.add_zero ctx_pos, ← List.getElem?_drop, hdrop] at hd
    cases hentries : (s.initramfs_inodes.get inode).dentry_list_head.drop ctx_pos with
    | nil => simp [hentries, records_from] at hd
    | cons pos entries =>
      rw [hentries, records_from_cons] at hd
      exact emit_from_pos actor entries (Option.some.inj hd ▸ hact)

/-! ## All calls -/

/-- So far everything before `ctx->pos` was emitted, once. -/
theorem iterate_all_emitted (hdir : IsDirectory s inode) (bufs : List σ) :
    let r := iterate_all s actor inode bufs
    r.2 ≤ (records s inode).length ∧ r.1 = (records s inode).take r.2 := by
  induction bufs using List.reverseRecOn with
  | nil => simp [iterate_all]
  | append_singleton bufs buf ih =>
    obtain ⟨hle, htake⟩ := ih
    rw [iterate_all, List.foldl_append, List.foldl_cons, List.foldl_nil]
    obtain ⟨-, hnext, hbegin, -⟩ := initramfs_iterate_spec actor hdir hle buf
    have hlen := hbegin.length_le
    rw [List.length_drop] at hlen
    refine ⟨?_, ?_⟩
    · show (initramfs_iterate s actor inode (iterate_all s actor inode bufs).2 buf).2.2 ≤ _
      omega
    · show (iterate_all s actor inode bufs).1 ++ (initramfs_iterate s actor inode (iterate_all s actor inode bufs).2 buf).2.1 =
        (records s inode).take (initramfs_iterate s actor inode (iterate_all s actor inode bufs).2 buf).2.2
      rw [hnext, List.take_add, ← htake, List.prefix_iff_eq_take.1 hbegin, List.length_take, Nat.min_eq_left]
      · rw [List.length_drop]
        exact hlen

theorem iterate_all_snoc (bufs : List σ) (buf : σ) : iterate_all s actor inode (bufs ++ [buf]) =
    iterate_again s actor inode (iterate_all s actor inode bufs) buf := by
  rw [iterate_all, List.foldl_append]
  rfl

/-- A buffer with room for any record of the directory. -/
def takes (s : FS) (inode : Nat) (buf : σ) : Bool := (records s inode).all fun d => (actor buf d).1

/-- As many calls as there are entries, if each of them has room, are enough. -/
theorem iterate_all_progress (hdir : IsDirectory s inode) (bufs : List σ) :
    min (bufs.countP (takes actor s inode)) (records s inode).length ≤ (iterate_all s actor inode bufs).2 := by
  induction bufs using List.reverseRecOn with
  | nil => simp
  | append_singleton bufs buf ih =>
    obtain ⟨hle, -⟩ := iterate_all_emitted actor hdir bufs
    obtain ⟨-, hnext, -, -, hpos⟩ := initramfs_iterate_spec actor hdir hle buf
    rw [iterate_all_snoc, iterate_again, hnext, List.countP_append, List.countP_singleton]
    rcases Nat.lt_or_eq_of_le hle with hlt | hend
    · by_cases htakes : takes actor s inode buf = true
      · have := hpos _ (List.getElem?_eq_getElem hlt) (List.all_eq_true.1 htakes _ (List.getElem_mem hlt))
        rw [if_pos htakes]
        omega
      · rw [if_neg htakes]
        omega
    · omega

/-- Before the end, a call only stops where a record is refused. -/
theorem iterate_all_stops (hdir : IsDirectory s inode) {bufs : List σ} (hne : bufs ≠ []) {d : Record}
    (hd : (records s inode)[(iterate_all s actor inode bufs).2]? = some d) : ∃ b, (actor b d).1 = false := by
  obtain ⟨bufs, buf, rfl⟩ := (List.eq_nil_or_concat bufs).resolve_left hne
  rw [List.concat_eq_append, iterate_all_snoc] at hd
  obtain ⟨-, -, -, hfull, -⟩ := initramfs_iterate_spec actor hdir (iterate_all_emitted actor hdir bufs).1 buf
  exact hfull d hd

/-- Whatever is refused on the way, the records come out once each and in order, and
then nothing more. -/
theorem iterate_resumes (hdir : IsDirectory s inode) (bufs : List σ) :
    let r := iterate_all s actor inode bufs
    r.1 = (records s inode).take r.2 ∧
      ((records s inode).length ≤ bufs.countP (takes actor s inode) → r.1 = records s inode) ∧
      (bufs ≠ [] → ∀ d, (records s inode)[r.2]? = some d → ∃ b, (actor b d).1 = false) ∧
      (r.1 = records s inode → ∀ buf, initramfs_iterate s actor inode r.2 buf = (0, [], r.2)) := by
  obtain ⟨hle, htake⟩ := iterate_all_emitted actor hdir bufs
  refine ⟨htake, ?_, fun hne d hd => iterate_all_stops actor hdir hne hd, ?_⟩
  · intro henough
    have := iterate_all_progress actor hdir bufs
    rw [htake, List.take_of_length_le (by omega)]
  · intro hall buf
    have hend : (iterate_all s actor inode bufs).2 = (records s inode).length := by
      have hlen := congrArg List.length (htake.symm.trans hall)
      rw [List.length_take] at hlen
      omega
    obtain ⟨hret, hnext, hbegin, -⟩ := initramfs_iterate_spec actor hdir hle buf
    rw [hend, List.drop_length, List.prefix_nil] at hbegin
    rw [hend] at hnext hret ⊢
    rw [hbegin] at hnext
    exact Prod.ext hret (Prod.ext hbegin hnext)

end Call

/-- A directory with a file and a directory. -/
def two_entries : FS where
  initramfs_inodes := ⟨3, fun n =>
    if n = 1 then { i_mode := S_IFREG ||| 0o755, dentry_count := 1, dentry_list_head := [] }
    else { i_mode := S_IFDIR ||| 0o755, dentry_count := 1, dentry_list_head := if n = 0 then [1, 0] else [] }⟩
  initramfs_dentries := ⟨2, fun e => if e = 0 then { name := ['a'], target_inode := 1 }
    else { name := ['b'], target_inode := 2 }⟩
  inodes := ⟨0, fun _ => default⟩
  dentries := ⟨0, fun _ => default⟩
  supers := ⟨0, fun _ => default⟩
  root_dentry := 0
  nul_harms _ := false

/-- The buffers have room for one record, for none and for one. -/
theorem two_entries_resume :
    (iterate_all two_entries (fun (room : Nat) _ => (decide (0 < room), room - 1)) 0 [1, 0, 1]).1 = records two_entries 0 :=
  (iterate_resumes _ (by decide) [1, 0, 1]).2.1 (by decide)

end McLinOS.Fs
