import McLinOS.Heap.Model
/-!
# Heaps as partitions

The abstract heap is the list of its blocks in address order, each with its
size and whether it is used. `Seg` says that the headers in memory are exactly
such a list: the links of a doubly linked segment, laid out without gaps.
-/
open CLib

namespace McLinOS.Heap

/-- A block of the partition, its header not counted in `size`. -/
structure Part where
  size : Nat
  used : Bool
  deriving DecidableEq, Repr

/-- The bytes the blocks take with their headers. -/
def span : List Part → Nat
  | [] => 0
  | p :: ps => sizeof_memory_block + p.size + span ps

@[simp] theorem span_nil : span [] = 0 := rfl

@[simp] theorem span_cons (p : Part) (ps : List Part) : span (p :: ps) = 20 + p.size + span ps := rfl

@[simp] theorem span_append (ps qs : List Part) : span (ps ++ qs) = span ps + span qs := by
  induction ps with
  | nil => simp
  | cons p ps ih => simp [ih]; omega

theorem span_pos {ps : List Part} (h : ps ≠ []) : 20 ≤ span ps := by
  cases ps with
  | nil => exact absurd rfl h
  | cons p ps => simp; omega

/-- A heap has at most one block for each 20 bytes. -/
theorem length_le_span (ps : List Part) : ps.length ≤ span ps := by
  induction ps with
  | nil => simp
  | cons p ps ih => simp; omega

/-- Two blocks of one partition lie apart, or are the same. -/
theorem split_apart {xs us ys vs : List Part} {p q : Part} (h : xs ++ p :: ys = us ++ q :: vs) :
    span xs + (20 + p.size) ≤ span us ∨ span us + (20 + q.size) ≤ span xs ∨ (xs = us ∧ p = q ∧ ys = vs) := by
  induction xs generalizing us with
  | nil =>
    cases us with
    | nil => exact .inr (.inr (by simpa using h))
    | cons u us =>
      obtain ⟨rfl, -⟩ := List.cons.inj h
      exact .inl (by rw [span_nil, span_cons]; omega)
  | cons x xs ih =>
    cases us with
    | nil =>
      obtain ⟨rfl, -⟩ := List.cons.inj h
      exact .inr (.inl (by rw [span_nil, span_cons]; omega))
    | cons u us =>
      obtain ⟨rfl, htail⟩ := List.cons.inj h
      rcases ih htail with h1 | h1 | ⟨rfl, rfl, rfl⟩
      · exact .inl (by rw [span_cons, span_cons]; omega)
      · exact .inr (.inl (by rw [span_cons, span_cons]; omega))
      · exact .inr (.inr ⟨rfl, rfl, rfl⟩)

/-- An address belongs to one block only. -/
theorem split_unique {xs us ys vs : List Part} {p q : Part} (h : xs ++ p :: ys = us ++ q :: vs)
    (hspan : span xs = span us) : xs = us ∧ p = q ∧ ys = vs := by
  rcases split_apart h with h1 | h1 | h1
  · omega
  · omega
  · exact h1

/-- The header at `a` describes `p` and has the given links. -/
structure Hdr (m : Mem) (a : Nat) (p : Part) (nx pv : Nat) : Prop where
  magic : magic m a = BASE_MAGIC
  status : get_block_status m a use_flag = if p.used then 1 else 0
  size : block_size m a = p.size
  next : next m a = nx
  priv : priv_block m a = pv

/-- From `a` on, memory holds the headers of `ps`. The first block's
`priv_block` is `pv`, the last block's `next` is `nx`. -/
def Seg (m : Mem) : Nat → Nat → List Part → Nat → Prop
  | _, _, [], _ => True
  | pv, a, p :: ps, nx =>
    Hdr m a p (if ps = [] then nx else a + (20 + p.size)) pv ∧ Seg m a (a + (20 + p.size)) ps nx

/-- The address of the last block, or `pv` if there is none. -/
def lastAddr : Nat → Nat → List Part → Nat
  | pv, _, [] => pv
  | _, a, p :: ps => lastAddr a (a + (20 + p.size)) ps

theorem lastAddr_concat (pv a : Nat) (ps : List Part) (p : Part) : lastAddr pv a (ps ++ [p]) = a + span ps := by
  induction ps generalizing pv a with
  | nil => rfl
  | cons q ps ih => simp only [List.cons_append, lastAddr, ih, span_cons]; omega

/-! ## Splitting a segment -/

theorem seg_append {m : Mem} {pv a : Nat} {ps qs : List Part} {nx : Nat} :
    Seg m pv a (ps ++ qs) nx ↔
      Seg m pv a ps (if qs = [] then nx else a + span ps) ∧ Seg m (lastAddr pv a ps) (a + span ps) qs nx := by
  induction ps generalizing pv a with
  | nil => simp [Seg, lastAddr]
  | cons p ps ih =>
    simp only [List.cons_append, Seg, ih, lastAddr, span_cons, List.append_eq_nil_iff]
    have e : a + (20 + p.size) + span ps = a + (20 + p.size + span ps) := by omega
    rw [e, and_assoc]
    rcases ps with _ | ⟨p', ps⟩ <;> rcases qs with _ | ⟨q, qs⟩ <;> simp [Seg]

/-- The headers around one block. -/
theorem seg_split {m : Mem} {pv a : Nat} {ps qs : List Part} {p : Part} {nx : Nat} :
    Seg m pv a (ps ++ p :: qs) nx ↔
      Seg m pv a ps (a + span ps) ∧
      Hdr m (a + span ps) p (if qs = [] then nx else a + span ps + (20 + p.size)) (lastAddr pv a ps) ∧
      Seg m (a + span ps) (a + span ps + (20 + p.size)) qs nx := by
  rw [seg_append]
  simp [Seg]

/-! ## Frames -/

/-- Bytes `[lo, hi)` are the same in both memories. -/
def Agree (m m' : Mem) (lo hi : Nat) : Prop := ∀ x, lo ≤ x → x < hi → m' x = m x

theorem Agree.load {m m' : Mem} {lo hi w a : Nat} (h : Agree m m' lo hi) (hlo : lo ≤ a) (hhi : a + w ≤ hi) :
    Mem.load w m' a = Mem.load w m a :=
  Mem.load_congr fun x h1 h2 => h x (by omega) (by omega)

theorem Agree.sub {m m' : Mem} {lo hi lo' hi' : Nat} (h : Agree m m' lo hi) (hlo : lo ≤ lo') (hhi : hi' ≤ hi) :
    Agree m m' lo' hi' :=
  fun x h1 h2 => h x (by omega) (by omega)

theorem status_congr {m m' : Mem} {b status : Nat} (h : flag m' b = flag m b) :
    get_block_status m' b status = get_block_status m b status := by
  unfold get_block_status
  rw [h]

theorem Hdr.congr {m m' : Mem} {a : Nat} {p : Part} {nx pv : Nat} (h : Hdr m a p nx pv)
    (hag : Agree m m' a (a + 20)) : Hdr m' a p nx pv where
  magic := (hag.load (by omega) (by omega)).trans h.magic
  status := (status_congr (hag.load (by omega) (by omega))).trans h.status
  size := (hag.load (by omega) (by omega)).trans h.size
  next := (hag.load (by omega) (by omega)).trans h.next
  priv := (hag.load (by omega) (by omega)).trans h.priv

/-- The addresses of the blocks. -/
def addrs : Nat → List Part → List Nat
  | _, [] => []
  | a, p :: ps => a :: addrs (a + (20 + p.size)) ps

/-- A segment only depends on its headers. -/
theorem Seg.congr_headers {m m' : Mem} {pv a : Nat} {ps : List Part} {nx : Nat} (h : Seg m pv a ps nx)
    (hag : ∀ b ∈ addrs a ps, Agree m m' b (b + 20)) : Seg m' pv a ps nx := by
  induction ps generalizing pv a with
  | nil => trivial
  | cons p ps ih =>
    exact ⟨h.1.congr (hag a (by simp [addrs])), ih h.2 fun b hb => hag b (by simp [addrs, hb])⟩

theorem mem_addrs {a b : Nat} {ps : List Part} (h : b ∈ addrs a ps) :
    ∃ xs p ys, ps = xs ++ p :: ys ∧ b = a + span xs := by
  induction ps generalizing a with
  | nil => simp [addrs] at h
  | cons p ps ih =>
    rcases List.mem_cons.1 h with rfl | h
    · exact ⟨[], p, ps, rfl, rfl⟩
    · obtain ⟨xs, q, ys, rfl, rfl⟩ := ih h
      exact ⟨p :: xs, q, ys, rfl, by simp only [span_cons]; omega⟩

theorem addrs_append (a : Nat) (ps qs : List Part) : addrs a (ps ++ qs) = addrs a ps ++ addrs (a + span ps) qs := by
  induction ps generalizing a with
  | nil => rfl
  | cons p ps ih =>
    have e : a + (20 + p.size) + span ps = a + (20 + p.size + span ps) := by omega
    simp only [List.cons_append, addrs, ih, span_cons, e]

theorem addrs_bounds {a b : Nat} {ps : List Part} (h : b ∈ addrs a ps) : a ≤ b ∧ b + 20 ≤ a + span ps := by
  obtain ⟨xs, p, ys, rfl, rfl⟩ := mem_addrs h
  simp only [span_append, span_cons]
  omega

theorem Seg.congr {m m' : Mem} {pv a : Nat} {ps : List Part} {nx : Nat} (h : Seg m pv a ps nx)
    (hag : Agree m m' a (a + span ps)) : Seg m' pv a ps nx :=
  h.congr_headers fun _ hb => hag.sub (addrs_bounds hb).1 (addrs_bounds hb).2

/-- A segment whose first block got a new predecessor. -/
theorem Seg.relink {m m' : Mem} {pv pv' a : Nat} {ps : List Part} {nx : Nat} (h : Seg m pv a ps nx)
    (hpriv : ps ≠ [] → priv_block m' a = pv') (hlo : ps ≠ [] → Agree m m' a (a + 16))
    (hhi : Agree m m' (a + 20) (a + span ps)) : Seg m' pv' a ps nx := by
  cases ps with
  | nil => trivial
  | cons p ps =>
    have hlo := hlo (by simp)
    refine ⟨⟨?_, ?_, ?_, ?_, hpriv (by simp)⟩, h.2.congr (hhi.sub (by omega) (by simp only [span_cons]; omega))⟩
    · exact (hlo.load (by omega) (by omega)).trans h.1.magic
    · exact (status_congr (hlo.load (by omega) (by omega))).trans h.1.status
    · exact (hlo.load (by omega) (by omega)).trans h.1.size
    · exact (hlo.load (by omega) (by omega)).trans h.1.next

end McLinOS.Heap
