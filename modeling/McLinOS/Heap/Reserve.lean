import McLinOS.Heap.Mempool
/-!
# The reserve of a memory pool

A pool made for `min_nr` objects has `min_nr` times the room of one object with
its header. Whether best fit can always use that room depends on what it does
with a hole a little larger than an object.
-/
open CLib

namespace McLinOS.Heap

/-! ## A new pool -/

section Create
variable {space memory_size : Nat} {s : Sys} {ps : List Part} {m m' : Mem} {fuel : Nat}

theorem le_use_memory_size {size : Nat} (h : use_memory_size size ≠ 0) (hlt : size < 2 ^ 32) :
    size ≤ use_memory_size size := by
  unfold use_memory_size u32 at *
  omega

/-- `kmalloc` returns `NULL` or a buffer inside the main heap's space. -/
theorem smalloc_buffer (hi : Inv space memory_size s ps) {size r : Nat} (hlt : size < 2 ^ 32)
    (h : smalloc fuel s.haper s.mem size = some (m, r)) :
    (∃ live ps', Inv space memory_size ⟨s.haper, m, live⟩ ps') ∧
      (r ≠ 0 → space + 20 ≤ r ∧ r + size ≤ space + memory_size) := by
  rcases smalloc_spec hi h with ⟨rfl, rfl, -⟩ | ⟨xs, n, ys, hbest, hpos, rfl, hi'⟩
  · exact ⟨⟨s.live, ps, hi⟩, fun hr => absurd rfl hr⟩
  · refine ⟨⟨_, _, hi'⟩, fun _ => ?_⟩
    have htotal := hi.total
    have hfits := hbest.fits
    have hround := le_use_memory_size (Nat.ne_of_gt hpos) hlt
    rw [hbest.split] at htotal
    simp only [span_append, span_cons] at htotal
    omega

/-- The only object of a heap, taken and given back. -/
theorem take_one {haper : haper2} {size obj : Nat} (hi : Inv space memory_size ⟨haper, m, []⟩ ps)
    (h : best_fit_alloc fuel haper m size = some (m', obj)) (hobj : obj ≠ 0) :
    (∃ ps', Inv space memory_size ⟨haper, m', [⟨obj, size⟩]⟩ ps') ∧ obj < 2 ^ 32 := by
  rcases inv_best_fit hi h with ⟨rfl, -⟩ | ⟨xs, n, ys, hall, hpos⟩
  · exact absurd rfl hobj
  have hi' := inv_allocated hi hpos hall
  have hfits := hall.fits
  have hresult := hall.result
  have hhigh := hi.holds.high
  rw [Sys.allocated, if_neg hobj] at hi'
  rw [hall.split] at hhigh
  simp only [span_append, span_cons] at hhigh
  exact ⟨⟨_, hi'⟩, by omega⟩

theorem give_back {haper : haper2} {size obj : Nat} {rc : Int} (hi : Inv space memory_size ⟨haper, m, [⟨obj, size⟩]⟩ ps)
    (hlt : obj < 2 ^ 32) (h : free_haper_block fuel haper m obj = some (m', rc)) :
    ∃ ps', Inv space memory_size ⟨haper, m', []⟩ ps' := by
  obtain ⟨ps', hi'⟩ := inv_preserved hi (.free fuel obj hlt h)
  simp only [Sys.freed, ne_eq, not_true_eq_false, decide_false, List.filter_cons, Bool.false_eq_true, if_false,
    List.filter_nil] at hi'
  exact ⟨ps', hi'⟩

/-- Only `curr_nr` of the pool changes. -/
theorem preallocate_pool {n : Nat} {pool pool' : mempool_t} (h : preallocate fuel n pool m = some (m', pool')) :
    ∃ k, pool' = { pool with curr_nr := k } := by
  induction n generalizing pool m with
  | zero =>
    obtain ⟨rfl, rfl⟩ := Prod.mk.inj (Option.some.inj h)
    exact ⟨_, rfl⟩
  | succ n ih =>
    rw [preallocate] at h
    obtain ⟨⟨m₁, obj⟩, -, hturn⟩ := Option.bind_eq_some_iff.1 h
    dsimp only at hturn
    split at hturn
    · exact ih hturn
    · obtain ⟨m₂, -, hrest⟩ := Option.bind_eq_some_iff.1 hturn
      obtain ⟨k, rfl⟩ := ih hrest
      exact ⟨k, rfl⟩

/-- Objects that are taken and given back leave the empty heap. -/
theorem preallocate_spec {n : Nat} {pool pool' : mempool_t} (ht : pool.callbacks = .turned)
    (hi : Inv space memory_size ⟨pool.haper, m, []⟩ ps) (h : preallocate fuel n pool m = some (m', pool')) :
    ∃ ps', Inv space memory_size ⟨pool.haper, m', []⟩ ps' := by
  induction n generalizing pool m ps with
  | zero =>
    obtain ⟨rfl, rfl⟩ := Prod.mk.inj (Option.some.inj h)
    exact ⟨ps, hi⟩
  | succ n ih =>
    rw [preallocate] at h
    obtain ⟨⟨m₁, obj⟩, halloc, hturn⟩ := Option.bind_eq_some_iff.1 h
    rw [mempool_t.alloc_turned ht] at halloc
    dsimp only at hturn
    split at hturn
    · rename_i hnull
      subst hnull
      rcases inv_best_fit hi halloc with ⟨-, rfl⟩ | ⟨xs, k, ys, hall, -⟩
      · exact ih ht hi hturn
      · have := hall.result
        omega
    · rename_i hobj
      obtain ⟨_, hfree, hrest⟩ := Option.bind_eq_some_iff.1 hturn
      rw [mempool_t.free_turned ht] at hfree
      obtain ⟨⟨m₂, rc⟩, hcall, rfl⟩ := Option.map_eq_some_iff.1 hfree
      obtain ⟨⟨ps₁, hi₁⟩, hlt⟩ := take_one hi halloc hobj
      obtain ⟨ps₂, hi₂⟩ := give_back hi₁ hlt hcall
      let next : mempool_t := { pool with curr_nr := u32 (pool.curr_nr + 1) }
      have hi₂' : Inv space memory_size ⟨next.haper, m₂, []⟩ ps₂ := hi₂
      exact @ih _ _ next ht hi₂' hrest

theorem haper2_init_ok {haper : haper2} {size mode : Nat} {b : Nat} (hlow : 32 ≤ b) (hhigh : b + size ≤ 2 ^ 32)
    (h : haper2_init m b size mode = (0, haper, m')) :
    Inv b size ⟨haper, m', []⟩ [⟨size - 20, false⟩] ∧ 20 ≤ size ∧ haper.memory_size = size := by
  refine ⟨init_inv ⟨hlow, hhigh, rfl, m, mode, h⟩, ?_⟩
  unfold haper2_init at h
  split at h
  · simp at h
  · rename_i hsize
    simp only [Prod.mk.injEq] at h
    exact ⟨Nat.not_lt.1 hsize, by rw [← h.2.1]⟩

theorem haper2_init_returns {size : Nat} (m : Mem) (b mode : Nat) (h : 20 ≤ size) :
    ∃ haper m', haper2_init m b size mode = (0, haper, m') := by
  unfold haper2_init
  rw [if_neg (by rw [sizeof_memory_block]; omega)]
  exact ⟨_, _, rfl⟩

/-- A pool in the making: the blocks from the main heap and the new heap in the buffer,
before the loop. -/
structure Made (space memory_size min_nr obj_size : Nat) (callbacks : Callbacks) (pool : mempool_t) (m : Mem) : Prop where
  callbacks : pool.callbacks = callbacks
  nr : pool.min_nr = min_nr
  size : pool.obj_size = obj_size
  total : pool.haper.memory_size = haper_size min_nr obj_size
  heap : Inv pool.haper_data (haper_size min_nr obj_size) ⟨pool.haper, m, []⟩ [⟨haper_size min_nr obj_size - 20, false⟩]
  pool_data : space + 20 ≤ pool.pool_data
  haper_data : space + 20 ≤ pool.haper_data
  buffer : pool.haper_data + haper_size min_nr obj_size ≤ space + memory_size
  header : 20 ≤ haper_size min_nr obj_size

theorem mempool_create_made (hi : Inv space memory_size s ps) {callbacks : Callbacks} {sizeof_haper2 min_nr obj_size : Nat}
    {pool : mempool_t} (hlt : sizeof_haper2 < 2 ^ 32)
    (h : mempool_create callbacks sizeof_haper2 fuel s.haper s.mem min_nr obj_size = some (m, some pool)) :
    ∃ pool₀ m₀, Made space memory_size min_nr obj_size callbacks pool₀ m₀ ∧
      preallocate fuel min_nr pool₀ m₀ = some (m, pool) := by
  have hfail : ∀ m' ptrs, (kfree_each fuel s.haper m' ptrs).map (fun m => (m, (none : Option mempool_t))) ≠
      some (m, some pool) := by
    intro m' ptrs hf
    obtain ⟨m'', -, hr⟩ := Option.map_eq_some_iff.1 hf
    simp at hr
  -- One after another `smalloc` gives the pool, the haper and the buffer.
  unfold mempool_create at h
  dsimp only at h
  obtain ⟨⟨m₁, r₁⟩, h₁, hpool⟩ := Option.bind_eq_some_iff.1 h
  obtain ⟨⟨live₁, ps₁, hi₁⟩, -⟩ := smalloc_buffer hi (by decide) h₁
  dsimp only at hpool
  split at hpool
  · simp at hpool
  obtain ⟨⟨m₂, r₂⟩, h₂, hhaper⟩ := Option.bind_eq_some_iff.1 hpool
  obtain ⟨⟨live₂, ps₂, hi₂⟩, hstruct⟩ := smalloc_buffer hi₁ hlt h₂
  dsimp only at hhaper
  split at hhaper
  · exact absurd hhaper (hfail _ _)
  rename_i hr₂
  obtain ⟨⟨m₃, b⟩, h₃, hdata⟩ := Option.bind_eq_some_iff.1 hhaper
  obtain ⟨-, hbuffer⟩ := smalloc_buffer hi₂ (u32_lt _) h₃
  dsimp only at hdata
  split at hdata
  · exact absurd hdata (hfail _ _)
  rename_i hb
  obtain ⟨hfrom, hto⟩ : space + 20 ≤ b ∧ b + haper_size min_nr obj_size ≤ space + memory_size := hbuffer hb
  have hlow : 32 ≤ space := hi.holds.low
  have hhigh : space + memory_size ≤ 2 ^ 32 := hi.total ▸ hi.holds.high
  rcases hinit : haper2_init m₃ b (haper_size min_nr obj_size) 0x00 with ⟨rc, haper, m₄⟩
  rw [hinit] at hdata
  dsimp only at hdata
  split at hdata
  · exact absurd hdata (hfail _ _)
  rename_i hrc
  obtain ⟨⟨m', pool'⟩, hpre, hr⟩ := Option.map_eq_some_iff.1 hdata
  simp only [Prod.mk.injEq, Option.some.injEq] at hr
  obtain ⟨rfl, rfl⟩ := hr
  have hrc0 : rc = 0 := by
    unfold haper2_init at hinit
    split at hinit
    · rw [← (Prod.mk.inj hinit).1] at hrc
      exact absurd (by decide) hrc
    · exact ((Prod.mk.inj hinit).1).symm
  obtain ⟨hempty, hsize, hmem⟩ := haper2_init_ok (by omega) (by omega) (hrc0 ▸ hinit)
  exact ⟨_, m₄, ⟨rfl, rfl, rfl, hmem, hempty, (hstruct hr₂).1, hfrom, hto, hsize⟩, hpre⟩

/-- A pool that was made: its heap is one free block of the buffer's size. -/
theorem mempool_create_spec (hi : Inv space memory_size s ps) {sizeof_haper2 min_nr obj_size : Nat} {pool : mempool_t}
    (hlt : sizeof_haper2 < 2 ^ 32)
    (h : mempool_create .turned sizeof_haper2 fuel s.haper s.mem min_nr obj_size = some (m, some pool)) :
    PoolInv pool.haper_data (haper_size min_nr obj_size) min_nr obj_size ⟨pool, m, []⟩
      [⟨haper_size min_nr obj_size - 20, false⟩] ∧ 20 ≤ haper_size min_nr obj_size := by
  obtain ⟨pool₀, m₀, hmade, hpre⟩ := mempool_create_made hi hlt h
  obtain ⟨ps', hi'⟩ := preallocate_spec hmade.callbacks hmade.heap hpre
  obtain ⟨k, rfl⟩ := preallocate_pool hpre
  obtain rfl := all_free hi' rfl
  exact ⟨⟨hi', hmade.callbacks, rfl, hmade.total, hmade.nr, hmade.size, by simp⟩, hmade.header⟩

end Create

/-! ## Shapes of a partition -/

section Shapes
variable {obj_size n : Nat} {ps ps' xs ys : List Part} {good : Part → Prop}

theorem allotted_all {size slack : Nat} (hsplit : size + 20 + slack ≤ n → good ⟨size, true⟩ ∧ good ⟨n - (20 + size), false⟩)
    (hwhole : n < size + 20 + slack → good ⟨n, true⟩) : ∀ p ∈ allotted n size slack, good p := by
  unfold allotted
  split
  · rename_i h
    simpa using hsplit h
  · rename_i h
    simpa using hwhole (Nat.not_le.1 h)

theorem mergeAfter_all (hmerge : ∀ n k, good ⟨n, false⟩ → good ⟨k, false⟩ → good ⟨n + (20 + k), false⟩)
    (hn : good ⟨n, false⟩) (h : ∀ p ∈ ys, good p) : ∀ p ∈ mergeAfter n ys, good p := by
  rcases ys with _ | ⟨⟨k, _ | _⟩, ys⟩
  · simpa [mergeAfter] using hn
  · obtain ⟨hk, hys⟩ := List.forall_mem_cons.1 h
    exact List.forall_mem_cons.2 ⟨hmerge n k hn hk, hys⟩
  · exact List.forall_mem_cons.2 ⟨hn, h⟩

theorem freed_all (hfree : ∀ n, good ⟨n, true⟩ → good ⟨n, false⟩)
    (hmerge : ∀ n k, good ⟨n, false⟩ → good ⟨k, false⟩ → good ⟨n + (20 + k), false⟩)
    (h : ∀ p ∈ xs ++ ⟨n, true⟩ :: ys, good p) : ∀ p ∈ freed xs n ys, good p := by
  obtain ⟨hxs, hcons⟩ := List.forall_mem_append.1 h
  obtain ⟨hn, hys⟩ := List.forall_mem_cons.1 hcons
  unfold freed
  split
  · rename_i k hk
    obtain ⟨zs, rfl⟩ := List.getLast?_eq_some_iff.1 hk
    obtain ⟨hzs, hlast⟩ := List.forall_mem_append.1 hxs
    rw [List.dropLast_concat]
    exact List.forall_mem_append.2 ⟨hzs, mergeAfter_all hmerge (hmerge k n (hlast _ (by simp)) (hfree n hn)) hys⟩
  · exact List.forall_mem_append.2 ⟨hxs, mergeAfter_all hmerge (hfree n hn) hys⟩

/-- What splitting, freeing and merging keep of single blocks, every call keeps. -/
theorem Repartition.all (hr : Repartition obj_size ps ps') (h : ∀ p ∈ ps, good p)
    (halloc : ∀ n, ⟨n, false⟩ ∈ ps → obj_size ≤ n → ∀ p ∈ allotted n obj_size minimum_size, good p)
    (hfree : ∀ n, good ⟨n, true⟩ → good ⟨n, false⟩)
    (hmerge : ∀ n k, good ⟨n, false⟩ → good ⟨k, false⟩ → good ⟨n + (20 + k), false⟩) : ∀ p ∈ ps', good p := by
  cases hr with
  | same => exact h
  | alloc xs n ys hn =>
    obtain ⟨hxs, hcons⟩ := List.forall_mem_append.1 h
    obtain ⟨-, hys⟩ := List.forall_mem_cons.1 hcons
    exact List.forall_mem_append.2 ⟨hxs, List.forall_mem_append.2 ⟨halloc n (by simp) hn, hys⟩⟩
  | free xs n ys => exact freed_all hfree hmerge h

theorem Repartition.span (hr : Repartition obj_size ps ps') : span ps' = span ps := by
  cases hr with
  | same => rfl
  | alloc xs n ys hn => simp only [span_append, span_cons, span_allotted]
  | free xs n ys => simp only [span_append, span_cons, span_freed, Nat.add_assoc]

theorem length_mergeAfter (n : Nat) (ys : List Part) : (mergeAfter n ys).length ≤ ys.length + 1 := by
  rcases ys with _ | ⟨⟨k, _ | _⟩, ys⟩ <;> simp [mergeAfter]

theorem length_freed (xs : List Part) (n : Nat) (ys : List Part) :
    (freed xs n ys).length ≤ (xs ++ ⟨n, true⟩ :: ys).length := by
  have hmerge := fun n => length_mergeAfter n ys
  unfold freed
  split
  · rename_i k hk
    have := hmerge (k + (20 + n))
    simp only [List.length_append, List.length_dropLast, List.length_cons]
    omega
  · have := hmerge n
    simp only [List.length_append, List.length_cons]
    omega

/-- Blocks of at least `k` bytes take that much room each. -/
theorem length_mul_le_span {k : Nat} (h : ∀ p ∈ ps, k ≤ p.size) : ps.length * (k + 20) ≤ span ps := by
  induction ps with
  | nil => simp
  | cons p ps ih =>
    obtain ⟨hp, hps⟩ := List.forall_mem_cons.1 h
    have := ih hps
    rw [List.length_cons, Nat.succ_mul, span_cons]
    omega

theorem usedAt_length_mul_le {k : Nat} (a : Nat) (h : ∀ p ∈ ps, p.used = true → k ≤ p.size) :
    (usedAt a ps).length * (k + 20) ≤ span ps := by
  induction ps generalizing a with
  | nil => simp [usedAt]
  | cons p ps ih =>
    obtain ⟨hp, hps⟩ := List.forall_mem_cons.1 h
    have hrest := ih (a + (20 + p.size)) hps
    rw [usedAt, List.length_append, span_cons]
    split
    · rename_i hu
      have hsize := hp hu
      rw [List.length_singleton, Nat.add_mul, Nat.one_mul]
      omega
    · rw [List.length_nil, Nat.zero_add]
      omega

theorem usedAt_length_le (a : Nat) (ps : List Part) : (usedAt a ps).length ≤ ps.length := by
  induction ps generalizing a with
  | nil => simp [usedAt]
  | cons p ps ih =>
    have := ih (a + (20 + p.size))
    rw [usedAt, List.length_append, List.length_cons]
    split <;> simp <;> omega

theorem usedAt_length_all (a : Nat) (h : ∀ p ∈ ps, p.used = true) : (usedAt a ps).length = ps.length := by
  induction ps generalizing a with
  | nil => simp [usedAt]
  | cons p ps ih =>
    obtain ⟨hp, hps⟩ := List.forall_mem_cons.1 h
    rw [usedAt, if_pos hp, List.singleton_append, List.length_cons, List.length_cons, ih _ hps]

theorem size_le_span {p : Part} (h : p ∈ ps) : 20 + p.size ≤ span ps := by
  obtain ⟨xs, ys, rfl⟩ := List.append_of_mem h
  simp only [span_append, span_cons]
  omega

/-- Used blocks have room for an object. -/
def Roomy (obj_size : Nat) (ps : List Part) : Prop := ∀ p ∈ ps, p.used = true → obj_size ≤ p.size

/-- Blocks are whole numbers of objects with their headers, and used ones are
one object. -/
def Grained (obj_size : Nat) (ps : List Part) : Prop :=
  ∀ p ∈ ps, obj_size + 20 ∣ 20 + p.size ∧ (p.used = true → p.size = obj_size)

/-- Every block has room for an object, and there are fewer than `min_nr`. -/
def Crowded (min_nr obj_size : Nat) (ps : List Part) : Prop := (∀ p ∈ ps, obj_size ≤ p.size) ∧ ps.length < min_nr

theorem Roomy.repartition (h : Roomy obj_size ps) (hr : Repartition obj_size ps ps') : Roomy obj_size ps' := by
  refine @Repartition.all obj_size ps ps' (fun p => p.used = true → obj_size ≤ p.size) hr h (fun n _ hn => ?_)
    (by simp) (by simp)
  exact allotted_all (fun _ => ⟨fun _ => Nat.le_refl _, by simp⟩) fun _ _ => hn

/-- The whole block is handed out only where it is one object: the next larger
size leaves room for a split, or is larger than the buffer. -/
theorem Grained.repartition {min_nr : Nat} (h : Grained obj_size ps) (hr : Repartition obj_size ps ps')
    (hspan : span ps = min_nr * (obj_size + 20)) (hsplit : min_nr = 1 ∨ 8 ≤ obj_size) : Grained obj_size ps' := by
  refine hr.all h (fun n hmem hn => ?_) (fun n hn => ⟨hn.1, by simp⟩) fun n k hn hk => ⟨?_, by simp⟩
  · have hdvd := (h _ hmem).1
    refine allotted_all (fun hle => ⟨⟨by rw [Nat.add_comm], fun _ => rfl⟩, ?_, by simp⟩) fun hlt => ⟨hdvd, fun _ => ?_⟩
    · have e : 20 + (n - (20 + obj_size)) = 20 + n - (obj_size + 20) := by omega
      rw [e]
      exact Nat.dvd_sub hdvd (Nat.dvd_refl _)
    · obtain ⟨k, hk⟩ := hdvd
      have hle := size_le_span hmem
      dsimp only at hk hle ⊢
      rw [minimum_size] at hlt
      rw [hspan] at hle
      match k with
      | 0 => omega
      | 1 => omega
      | k + 2 =>
        have hk2 : (obj_size + 20) * 2 ≤ (obj_size + 20) * (k + 2) := Nat.mul_le_mul_left _ (by omega)
        rcases hsplit with rfl | h8
        · omega
        · omega
  · have e : 20 + (n + (20 + k)) = (20 + n) + (20 + k) := by omega
    rw [e]
    exact Nat.dvd_add hn.1 hk.1

theorem Crowded.repartition {min_nr : Nat} (h : Crowded min_nr obj_size ps) (hr : Repartition obj_size ps ps')
    (hspan : span ps' = min_nr * (obj_size + 20)) (hsmall : obj_size < 8) : Crowded min_nr obj_size ps' := by
  have hsizes : ∀ p ∈ ps', obj_size ≤ p.size := by
    refine hr.all h.1 (fun n _ hn => allotted_all (fun hle => ⟨Nat.le_refl _, ?_⟩) fun _ => hn) (fun _ hn => hn) ?_
    · dsimp only
      rw [minimum_size] at hle
      omega
    · intro n k hn hk
      dsimp only at *
      omega
  refine ⟨hsizes, ?_⟩
  cases hr with
  | same => exact h.2
  | free xs n ys => exact Nat.lt_of_le_of_lt (length_freed xs n ys) h.2
  | alloc xs n ys hn =>
    unfold allotted at hsizes hspan ⊢
    split
    · rename_i hle
      -- The new hole is larger than an object, so not all of the room is used.
      rw [if_pos hle] at hsizes hspan
      have hrest : ∀ p ∈ xs ++ ys, obj_size ≤ p.size := by
        intro p hp
        apply hsizes p
        simp only [List.mem_append, List.mem_cons] at hp ⊢
        tauto
      have hlt := length_mul_le_span hrest
      simp only [span_append, span_cons, List.cons_append, List.nil_append] at hspan hlt
      rw [minimum_size] at hle
      apply Nat.lt_of_mul_lt_mul_right (a := obj_size + 20)
      rw [← hspan]
      simp only [List.length_append, List.length_cons, List.length_nil, Nat.add_mul] at hlt ⊢
      omega
    · have hlen := h.2
      simpa using hlen

end Shapes

/-! ## The reserve -/

/-- `mempool_alloc` returns an object. -/
def Serves (s : PoolSys) : Prop :=
  ∀ fuel, s.pool.haper.memory_size + 4 ≤ fuel →
    ∃ pool m obj, mempool_alloc fuel s.pool s.mem = some (pool, m, obj) ∧ obj ≠ 0

/-- The outstanding objects are of the pool's size, disjoint, and inside its buffer. -/
structure Objects (s : PoolSys) : Prop where
  size : ∀ e ∈ s.live, e.size = s.pool.obj_size
  disjoint : s.live.Pairwise fun e f => e.ptr + e.size ≤ f.ptr ∨ f.ptr + f.size ≤ e.ptr
  inside : ∀ e ∈ s.live, s.pool.haper_data ≤ e.ptr ∧
    e.ptr + e.size ≤ s.pool.haper_data + s.pool.haper.memory_size

section Reserve
variable {space memory_size min_nr obj_size : Nat} {s s₀ : PoolSys} {ps : List Part}

theorem PoolInv.objects (hi : PoolInv space memory_size min_nr obj_size s ps) : Objects s := by
  have hiso := inv_isolated hi.heap
  refine ⟨fun e he => (hi.sizes e he).trans hi.size.symm, hiso.disjoint, fun e he => ?_⟩
  rw [hi.data, hi.total]
  exact hiso.inside e he

theorem PoolInv.live_length (hi : PoolInv space memory_size min_nr obj_size s ps) :
    s.live.length = (usedAt space ps).length := by
  simpa [PoolSys.heap] using hi.heap.live_perm.length_eq

/-- An allocation fails only where no block fits. -/
theorem PoolInv.serves (hi : PoolInv space memory_size min_nr obj_size s ps) (hpos : 0 < obj_size)
    (hfit : ∃ p ∈ ps, Fits obj_size p) : Serves s := by
  intro fuel hf
  have hsize := hi.size
  subst hsize
  rw [hi.total] at hf
  have hlen := length_le_span ps
  have htotal := hi.heap.total
  have hlow := hi.heap.holds.low
  obtain ⟨m, obj, halloc, hr⟩ := best_fit_alloc_spec (hi.heap.start_addr ▸ hi.heap.holds) hpos
    (show ps.length < fuel by omega)
  have hcall := (mempool_t.alloc_turned hi.turned fuel s.mem _).trans halloc
  refine ⟨_, m, obj, congrArg (Option.map _) hcall, ?_⟩
  · rcases hr with ⟨-, -, hno⟩ | ⟨xs, n, ys, -, hall⟩
    · obtain ⟨p, hp, hfits⟩ := hfit
      exact absurd hfits (hno p hp)
    · have hobj := hall.result
      omega

/-- A grained heap with nothing that fits is full. -/
theorem Grained.full (h : Grained obj_size ps) (hno : ¬∃ p ∈ ps, Fits obj_size p) :
    (∀ p ∈ ps, p.used = true) ∧ ps.length * (obj_size + 20) = span ps := by
  have hused : ∀ p ∈ ps, p.used = true := by
    intro p hp
    by_contra hu
    refine hno ⟨p, hp, Bool.eq_false_of_not_eq_true hu, ?_⟩
    have := Nat.le_of_dvd (by omega) (h p hp).1
    omega
  refine ⟨hused, ?_⟩
  clear hno
  induction ps with
  | nil => simp
  | cons p ps ih =>
    obtain ⟨hp, hps⟩ := List.forall_mem_cons.1 h
    obtain ⟨hup, hups⟩ := List.forall_mem_cons.1 hused
    have hrest := ih hps hups
    rw [List.length_cons, Nat.succ_mul, hrest, span_cons, hp.2 hup]
    omega

/-- If the pool always serves below `min_nr`, `min_nr` objects can be out. -/
theorem reach_full (hlive : s₀.live = []) (h : ∀ s, PoolRun s₀ s → s.live.length < min_nr → Serves s) :
    ∀ n ≤ min_nr, ∃ s, PoolRun s₀ s ∧ s.live.length = n := by
  intro n hn
  induction n with
  | zero => exact ⟨s₀, .refl, by simp [hlive]⟩
  | succ n ih =>
    obtain ⟨s, hrun, hlen⟩ := ih (by omega)
    obtain ⟨pool, m, obj, halloc, hobj⟩ := h s hrun (by omega) _ (Nat.le_refl _)
    refine ⟨_, hrun.tail (.alloc _ halloc), ?_⟩
    simp only [Sys.allocated, if_neg hobj, List.length_cons]
    exact congrArg (· + 1) hlen

/-- The sizes for which the reserve holds. -/
def ReserveHolds (min_nr obj_size : Nat) : Prop :=
  min_nr * (obj_size + sizeof_memory_block) < 2 ^ 32 ∧ (min_nr = 1 ∨ minimum_size ≤ obj_size)

theorem haper_size_exact (h : min_nr * (obj_size + 20) < 2 ^ 32) (hpos : 0 < min_nr) :
    haper_size min_nr obj_size = min_nr * (obj_size + 20) := by
  have h1 : obj_size + 20 < 2 ^ 32 := Nat.lt_of_le_of_lt (Nat.le_mul_of_pos_left _ hpos) h
  rw [haper_size, sizeof_memory_block, u32_of_lt h1, u32_of_lt h]

section New
variable (hi : PoolInv space (haper_size min_nr obj_size) min_nr obj_size s₀ [⟨haper_size min_nr obj_size - 20, false⟩])
include hi

theorem reserve_kept (hsize : 20 ≤ haper_size min_nr obj_size) (hnr : 0 < min_nr) (hobj : 0 < obj_size)
    (hh : ReserveHolds min_nr obj_size) (h : PoolRun s₀ s) (hlt : s.live.length < min_nr) : Serves s := by
  have hexact := haper_size_exact hh.1 hnr
  have h0 : Grained obj_size [⟨haper_size min_nr obj_size - 20, false⟩] := by
    refine List.forall_mem_singleton.2 ⟨⟨min_nr, ?_⟩, by simp⟩
    dsimp only
    rw [Nat.mul_comm, ← hexact]
    omega
  obtain ⟨ps, hgrain, hi'⟩ := hi.run (Grained obj_size) h0
    (fun ps ps' hspan hg hr => hg.repartition hr (hspan.trans hexact) hh.2) h
  apply hi'.serves hobj
  by_contra hno
  obtain ⟨hused, hfull⟩ := hgrain.full hno
  rw [hi'.heap.total, hexact] at hfull
  have hlen := Nat.eq_of_mul_eq_mul_right (by omega) hfull
  rw [hi'.live_length, usedAt_length_all _ hused] at hlt
  omega

theorem wrapped_below (hwrap : ¬min_nr * (obj_size + 20) < 2 ^ 32) (h : PoolRun s₀ s) : s.live.length < min_nr := by
  obtain ⟨ps, hroom, hi'⟩ := hi.run (Roomy obj_size) (by simp [Roomy]) (fun _ _ _ hr hp => hr.repartition hp) h
  have hused := usedAt_length_mul_le space hroom
  have htotal : span ps < 2 ^ 32 := hi'.heap.total ▸ u32_lt _
  rw [hi'.live_length]
  exact Nat.lt_of_mul_lt_mul_right (a := obj_size + 20) (by omega)

theorem small_below (hwrap : min_nr * (obj_size + 20) < 2 ^ 32) (hnr : 1 < min_nr) (hsmall : obj_size < 8)
    (h : PoolRun s₀ s) : s.live.length < min_nr := by
  have hexact := haper_size_exact hwrap (by omega)
  have h0 : Crowded min_nr obj_size [⟨haper_size min_nr obj_size - 20, false⟩] := by
    refine ⟨List.forall_mem_singleton.2 ?_, hnr⟩
    have := Nat.mul_le_mul_right (obj_size + 20) hnr
    dsimp only
    omega
  obtain ⟨ps, hcrowd, hi'⟩ := hi.run (Crowded min_nr obj_size) h0
    (fun ps ps' hspan hc hr => hc.repartition hr (hr.span.trans (hspan.trans hexact)) hsmall) h
  rw [hi'.live_length]
  exact Nat.lt_of_le_of_lt (usedAt_length_le space ps) hcrowd.2

end New

/-- From every state that a new pool reaches, `mempool_alloc` serves whenever fewer than
`min_nr` objects are out, which are of the pool's size, disjoint and inside its
buffer. -/
def Reserve (pool : mempool_t) (m : Mem) : Prop :=
  ∀ s, PoolRun ⟨pool, m, []⟩ s → Objects s ∧ (s.live.length < s.pool.min_nr → Serves s)

/-! ## `best_fit_alloc` as it is -/

/-- Where no block begins, none is found. -/
theorem best_fit_none {fuel size : Nat} {haper : haper2} {m : Mem} (h : haper.start_addr = 0) {r : Mem × Nat}
    (halloc : best_fit_alloc fuel haper m size = some r) : r.2 = 0 := by
  unfold best_fit_alloc at halloc
  split at halloc
  · obtain rfl := Option.some.inj halloc
    rfl
  · cases fuel with
    | zero => simp [loop] at halloc
    | succ fuel =>
      rw [h, loop_done (r := 0) (by simp [best_fit_body]), Option.bind_some] at halloc
      obtain rfl := Option.some.inj halloc
      rfl

/-- The block list that `best_fit_alloc` takes from the address `obj_size` may be
empty. Where that address is in the main heap, an object is larger than the buffer. -/
theorem direct_fails {m m' : Mem} {pool : mempool_t} (hmade : Made space memory_size min_nr obj_size .direct pool m) (k : Nat)
    (hnr : 1 ≤ min_nr) (hobj : 1 ≤ obj_size) (hmap : memory_size ≤ space) : ¬Reserve { pool with curr_nr := k } m' := by
  intro hreserve
  have hdata := hmade.haper_data
  have hstruct := hmade.pool_data
  have hbuffer := hmade.buffer
  have htotal := hmade.total
  have hlive : 0 < pool.min_nr := hmade.nr ▸ hnr
  obtain rfl := hmade.size
  by_cases hfar : space < pool.obj_size
  · obtain ⟨pool₁, m₁, obj, halloc, hne⟩ := (hreserve _ .refl).2 hlive _ (Nat.le_refl _)
    have hobjects := (hreserve _ (.tail .refl (.alloc _ halloc))).1
    have hmem : (⟨obj, pool.obj_size⟩ : Alloc) ∈ (Sys.allocated ⟨pool.haper, m', []⟩ m₁ obj pool.obj_size).live := by
      simp [Sys.allocated, hne]
    obtain ⟨r, -, hr⟩ := Option.map_eq_some_iff.1 halloc
    have hsame : pool₁.haper_data = pool.haper_data ∧ pool₁.haper = pool.haper := by
      rw [← (Prod.mk.inj hr).1]
      split <;> exact ⟨rfl, rfl⟩
    have hinside := hobjects.inside _ hmem
    dsimp only at hinside
    rw [hsame.1, hsame.2, htotal] at hinside
    omega
  · let cleared := Mem.store 4 m' (pool.obj_size + 16) 0
    have hother : PoolStep ⟨{ pool with curr_nr := k }, m', []⟩ ⟨{ pool with curr_nr := k }, cleared, []⟩ := by
      refine .other cleared fun x hlo _ => ?_
      dsimp only at hlo
      exact Mem.store_apply_ne (by omega)
    obtain ⟨pool₁, m₁, obj, halloc, hne⟩ := (hreserve _ (.tail .refl hother)).2 hlive _ (Nat.le_refl _)
    obtain ⟨r, hcall, hr⟩ := Option.map_eq_some_iff.1 halloc
    have hstart : (({ pool with curr_nr := k } : mempool_t).haper2_at cleared pool.obj_size).start_addr = 0 := by
      have hne : pool.obj_size ≠ pool.pool_data := by omega
      rw [mempool_t.haper2_at, if_neg hne]
      exact Mem.load_store_same 4 m' _ 0
    simp only [mempool_t.alloc, hmade.callbacks] at hcall
    rw [if_neg (by omega)] at hcall
    have hnull : r.2 = 0 := best_fit_none hstart hcall
    exact hne ((congrArg (·.2.2) hr).symm.trans hnull)

/-- What a pool reaches with callbacks that turn the arguments round. -/
theorem turned_reserve {main : Sys} {space memory_size sizeof_haper2 fuel min_nr obj_size : Nat} {m : Mem}
    {pool : mempool_t} (hi : Inv space memory_size main ps) (hlt : sizeof_haper2 < 2 ^ 32)
    (hnr : 1 ≤ min_nr) (hobj : 1 ≤ obj_size)
    (h : mempool_create .turned sizeof_haper2 fuel main.haper main.mem min_nr obj_size = some (m, some pool)) :
    (∀ s, PoolRun ⟨pool, m, []⟩ s → Objects s) ∧ (Reserve pool m ↔ ReserveHolds min_nr obj_size) := by
  obtain ⟨hnew, hsize⟩ := mempool_create_spec hi hlt h
  have hrun : ∀ s, PoolRun ⟨pool, m, []⟩ s → Objects s ∧ s.pool.min_nr = min_nr := by
    intro s hrun
    obtain ⟨ps', -, hi'⟩ := hnew.run (fun _ => True) trivial (fun _ _ _ _ _ => trivial) hrun
    exact ⟨hi'.objects, hi'.nr⟩
  refine ⟨fun s hs => (hrun s hs).1, ?_, fun hh s hs => ⟨(hrun s hs).1, fun hlive =>
    reserve_kept hnew hsize hnr hobj hh hs ((hrun s hs).2 ▸ hlive)⟩⟩
  · intro hreserve
    have hserves : ∀ s, PoolRun ⟨pool, m, []⟩ s → s.live.length < min_nr → Serves s := by
      intro s hs hlive
      exact (hreserve s hs).2 ((hrun s hs).2 ▸ hlive)
    obtain ⟨s, hrun, hfull⟩ := reach_full rfl hserves min_nr (Nat.le_refl _)
    have hwrap : min_nr * (obj_size + 20) < 2 ^ 32 := by
      by_contra hwrap
      exact absurd hfull (Nat.ne_of_lt (wrapped_below hnew hwrap hrun))
    refine ⟨hwrap, ?_⟩
    by_contra hsmall
    rw [minimum_size, not_or] at hsmall
    exact absurd hfull (Nat.ne_of_lt (small_below hnew hwrap (by omega) (by omega) hrun))

/-- With callbacks that turn the arguments round the objects of a pool are always of its
size, disjoint and inside its buffer, and the reserve holds exactly for the sizes of
`ReserveHolds`. With `best_fit_alloc` itself it never holds, where memory begins above
its own length. -/
theorem pool_reserve {main : Sys} {space memory_size sizeof_haper2 fuel min_nr obj_size : Nat} {m : Mem}
    {callbacks : Callbacks} {pool : mempool_t} (hmain : Reachable (Init space memory_size) Step main)
    (hlt : sizeof_haper2 < 2 ^ 32) (hnr : 1 ≤ min_nr) (hobj : 1 ≤ obj_size)
    (h : mempool_create callbacks sizeof_haper2 fuel main.haper main.mem min_nr obj_size = some (m, some pool)) :
    (callbacks = .turned → (∀ s, PoolRun ⟨pool, m, []⟩ s → Objects s) ∧ (Reserve pool m ↔ ReserveHolds min_nr obj_size)) ∧
      (callbacks = .direct → memory_size ≤ space → ¬Reserve pool m) := by
  obtain ⟨ps, hi⟩ := reachable_inv hmain
  refine ⟨?_, ?_⟩
  · rintro rfl
    exact turned_reserve hi hlt hnr hobj h
  · rintro rfl hmap
    obtain ⟨pool₀, m₀, hmade, hpre⟩ := mempool_create_made hi hlt h
    obtain ⟨k, rfl⟩ := preallocate_pool hpre
    exact direct_fails hmade k hnr hobj hmap

end Reserve

/-! ## Pools exist -/

section Exists
variable {space memory_size : Nat} {s : Sys} {ps : List Part} {m : Mem} {fuel : Nat}

theorem preallocate_returns (n : Nat) {pool : mempool_t} (ht : pool.callbacks = .turned) (hi : Inv space memory_size ⟨pool.haper, m, []⟩ ps)
    (hf : memory_size + 4 ≤ fuel) : ∃ m' pool', preallocate fuel n pool m = some (m', pool') := by
  induction n generalizing pool m ps with
  | zero => exact ⟨m, pool, rfl⟩
  | succ n ih =>
    obtain ⟨m₁, obj, halloc⟩ := best_fit_returns hi hf pool.obj_size
    have halloc' : pool.alloc fuel m pool.obj_size = some (m₁, obj) := (mempool_t.alloc_turned ht fuel m _).trans halloc
    rw [preallocate, halloc', Option.bind_some]
    dsimp only
    split
    · rename_i hnull
      subst hnull
      rcases inv_best_fit hi halloc with ⟨-, rfl⟩ | ⟨xs, k, ys, hall, -⟩
      · exact ih ht hi
      · have := hall.result
        omega
    · rename_i hobj
      obtain ⟨⟨ps₁, hi₁⟩, hlt⟩ := take_one hi halloc hobj
      obtain ⟨m₂, rc, hfree⟩ := free_returns hi₁ hf hlt
      have hfree' : pool.free fuel m₁ obj = some m₂ :=
        (mempool_t.free_turned ht fuel m₁ obj).trans (congrArg (Option.map _) hfree)
      obtain ⟨ps₂, hi₂⟩ := give_back hi₁ hlt hfree
      rw [hfree', Option.bind_some]
      let next : mempool_t := { pool with curr_nr := u32 (pool.curr_nr + 1) }
      have hi₂' : Inv space memory_size ⟨next.haper, m₂, []⟩ ps₂ := hi₂
      exact @ih _ _ next ht hi₂'

/-- On a heap whose only free block is its last, `smalloc` cuts a block off it. -/
theorem smalloc_last {n : Nat} (xs : List Part) (size : Nat) (hi : Inv space memory_size s (xs ++ [⟨n, false⟩]))
    (hf : memory_size + 4 ≤ fuel) (hused : ∀ p ∈ xs, p.used = true) (hpos : 0 < use_memory_size size)
    (hroom : use_memory_size size + 28 ≤ n) :
    ∃ m r live, smalloc fuel s.haper s.mem size = some (m, r) ∧ r ≠ 0 ∧
      Inv space memory_size ⟨s.haper, m, live⟩
        ((xs ++ [⟨use_memory_size size, true⟩]) ++ [⟨n - (20 + use_memory_size size), false⟩]) := by
  obtain ⟨m, r, h⟩ := smalloc_returns hi hf size
  rcases smalloc_spec hi h with ⟨-, -, hnone⟩ | ⟨us, k, vs, hbest, -, hr, hi'⟩
  · rcases hnone with h0 | hnone
    · omega
    · exact absurd ⟨rfl, by dsimp only; omega⟩ (hnone ⟨n, false⟩ (by simp))
  · have hlow := hi.holds.low
    have hlast : BestFit (use_memory_size size) (xs ++ [⟨n, false⟩]) xs n [] := by
      refine ⟨rfl, by omega, fun p hp hfit => ?_, by simp⟩
      exact absurd hfit.1 (by simp [hused p hp])
    obtain ⟨rfl, rfl, rfl⟩ := hbest.unique hlast
    rw [allotted, minimum_size, if_pos (by omega)] at hi'
    refine ⟨m, r, (s.allocated m r (use_memory_size size)).live, h, by omega, ?_⟩
    rw [List.append_assoc]
    exact hi'

/-- A fresh main heap with enough room makes the pool. -/
theorem mempool_create_fresh {n : Nat} (sizeof_haper2 min_nr obj_size : Nat) (hi : Inv space memory_size s [⟨n, false⟩])
    (hf : memory_size + 4 ≤ fuel) (hhaper : 0 < use_memory_size sizeof_haper2) (hsize : 20 ≤ haper_size min_nr obj_size)
    (hround : 0 < use_memory_size (haper_size min_nr obj_size))
    (hroom : use_memory_size sizeof_haper2 + use_memory_size (haper_size min_nr obj_size) + 120 ≤ n) :
    ∃ m pool, mempool_create .turned sizeof_haper2 fuel s.haper s.mem min_nr obj_size = some (m, some pool) := by
  have h32 : use_memory_size sizeof_mempool_t = 32 := by decide
  obtain ⟨m₁, r₁, live₁, h₁, hr₁, hi₁⟩ := smalloc_last [] sizeof_mempool_t hi hf (by simp)
    (by rw [h32]; omega) (by rw [h32]; omega)
  rw [h32] at hi₁
  obtain ⟨m₂, r₂, live₂, h₂, hr₂, hi₂⟩ := smalloc_last _ sizeof_haper2 hi₁ hf (by simp) hhaper (by omega)
  obtain ⟨m₃, b, live₃, h₃, hb, hi₃⟩ := smalloc_last _ (haper_size min_nr obj_size) hi₂ hf (by simp) hround
    (by omega)
  obtain ⟨-, hbuffer⟩ := smalloc_buffer hi₂ (u32_lt _) h₃
  obtain ⟨hfrom, hto⟩ : space + 20 ≤ b ∧ b + haper_size min_nr obj_size ≤ space + memory_size := hbuffer hb
  have hlow : 32 ≤ space := hi.holds.low
  have hhigh : space + memory_size ≤ 2 ^ 32 := hi.total ▸ hi.holds.high
  obtain ⟨haper, m₄, hinit⟩ := haper2_init_returns m₃ b 0x00 hsize
  obtain ⟨hempty, -, -⟩ := haper2_init_ok (by omega) (by omega) hinit
  have hle : haper_size min_nr obj_size + 4 ≤ fuel := by
    have htotal := hi₃.total
    have hrounded : haper_size min_nr obj_size ≤ use_memory_size (haper_size min_nr obj_size) :=
      le_use_memory_size (Nat.ne_of_gt hround) (u32_lt _)
    simp only [span_append, span_cons] at htotal
    omega
  obtain ⟨m₅, pool, hpre⟩ : ∃ m' pool', preallocate fuel min_nr
      { haper, obj_size, min_nr, curr_nr := 0, callbacks := .turned, pool_data := r₂, haper_data := b } m₄ = some (m', pool') :=
    preallocate_returns min_nr rfl hempty hle
  refine ⟨m₅, pool, ?_⟩
  unfold mempool_create
  simp only [h₁, h₂, h₃, Option.bind_some, if_neg hr₁, if_neg hr₂, if_neg hb, hinit, hpre, Option.map_some]
  rfl

/-- A main heap of 1000 bytes. -/
def small_main : Sys :=
  ⟨(haper2_init (fun _ => 0) 2000 1000 0).2.1, (haper2_init (fun _ => 0) 2000 1000 0).2.2, []⟩

theorem small_main_init : Init 2000 1000 small_main := ⟨by decide, by decide, rfl, fun _ => 0, 0, rfl⟩

/-- Two objects of 8 bytes: both can be had. -/
theorem pool_reserve_eight : ∃ m pool,
    mempool_create .turned 20 1004 small_main.haper small_main.mem 2 8 = some (m, some pool) ∧ Reserve pool m := by
  obtain ⟨m, pool, h⟩ := mempool_create_fresh 20 2 8 (init_inv small_main_init) (Nat.le_refl _)
    (by decide) (by decide) (by decide) (by decide)
  have hreserve := pool_reserve (.start small_main_init) (by decide) (by decide) (by decide) h
  exact ⟨m, pool, h, (hreserve.1 rfl).2.2 ⟨by decide, by decide⟩⟩

/-- With `best_fit_alloc` itself there is no object at all. With the arguments turned
round, two objects of 4 bytes: the first takes the whole buffer, and there is no
second. -/
theorem pools_starve :
    (∃ m pool, mempool_create .direct 20 1004 small_main.haper small_main.mem 2 8 = some (m, some pool) ∧
      ∀ r, mempool_alloc 1004 pool m = some r → r.2.2 = 0) ∧
    ∃ m pool s, mempool_create .turned 20 1004 small_main.haper small_main.mem 2 4 = some (m, some pool) ∧
      PoolRun ⟨pool, m, []⟩ s ∧ s.live.length = 1 ∧ s.pool.min_nr = 2 ∧
      ∀ fuel r, mempool_alloc fuel s.pool s.mem = some r → r.2.2 = 0 := by
  refine ⟨?_, ?_⟩
  · let made := mempool_create .direct 20 1004 small_main.haper small_main.mem 2 8
    have hnull : made.map (fun r => r.2.map fun pool => (mempool_alloc 1004 pool r.1).map (·.2.2)) = some (some (some 0)) := by
      decide +kernel
    obtain ⟨⟨m, made'⟩, hmade, hpool⟩ := Option.map_eq_some_iff.1 hnull
    obtain ⟨pool, rfl, halloc⟩ := Option.map_eq_some_iff.1 hpool
    refine ⟨m, pool, hmade, fun r hr => ?_⟩
    rw [hr] at halloc
    exact Option.some.inj halloc
  · obtain ⟨m, pool, h⟩ := mempool_create_fresh 20 2 4 (init_inv small_main_init) (Nat.le_refl _)
      (by decide) (by decide) (by decide) (by decide)
    obtain ⟨hi, -⟩ := mempool_create_spec (init_inv small_main_init) (by decide) h
    obtain ⟨pool₁, m₁, obj, halloc, hobj⟩ := hi.serves (by decide) ⟨_, List.mem_singleton_self _, by decide⟩ _ (Nat.le_refl _)
    have hrun := Relation.ReflTransGen.refl.tail (PoolStep.alloc _ halloc)
    obtain ⟨_, -, hi₁⟩ := hi.run (fun _ => True) trivial (fun _ _ _ _ _ => trivial) hrun
    refine ⟨m, pool, _, h, hrun, ?_, hi₁.nr, fun fuel ⟨pool₂, m₂, obj₂⟩ hnext => ?_⟩
    · simp [Sys.allocated, hobj, PoolSys.heap]
    -- A second object would make two, and two never are out.
    · by_contra hobj₂
      have htwo := small_below hi (by decide) (by decide) (by decide) (hrun.tail (.alloc _ hnext))
      simp [Sys.allocated, PoolSys.heap, hobj, hobj₂] at htwo

end Exists

end McLinOS.Heap
