import McLinOS.Heap.Tiling
/-!
# What each heap function does to the partition

One lemma for each function of the header file: where the headers hold a
partition, the function's memory holds the changed partition. Later proofs use
these and never look at a header again.
-/
open CLib

namespace McLinOS.Heap

/-! ## The status bit -/

theorem flag_lt (m : Mem) (b : Nat) : flag m b < 256 := Mem.load_lt 1 m b

theorem flag_set_flag (m : Mem) (b v : Nat) : flag (set_flag m b v) b = v % 256 := Mem.load_store_same 1 m b v

theorem status_set (m : Mem) (b : Nat) : get_block_status (set_block_status m b use_flag) b use_flag = 1 := by
  have h : flag m b ||| 1 < 256 := Nat.or_lt_two_pow (n := 8) (flag_lt m b) (by decide)
  rw [get_block_status, set_block_status, flag_set_flag, use_flag, Nat.mod_eq_of_lt h, Nat.and_or_distrib_right]
  have h1 : 1 ≤ flag m b &&& 1 ||| 1 &&& 1 := Nat.right_le_or
  rw [if_pos (by omega)]

/-- A flag byte from `flag &= ~use_flag` has the bit off. -/
theorem status_of_reset {m : Mem} {b f : Nat} (h : flag m b = (f &&& (255 - use_flag)) % 256 ^ 1) :
    get_block_status m b use_flag = 0 := by
  have hf : f &&& (255 - use_flag) < 256 ^ 1 := Nat.lt_of_le_of_lt Nat.and_le_right (by decide)
  rw [get_block_status, h, Nat.mod_eq_of_lt hf, Nat.and_assoc]
  simp [use_flag]

theorem status_reset (m : Mem) (b : Nat) : get_block_status (reset_block_status m b use_flag) b use_flag = 0 :=
  status_of_reset (flag_set_flag m b _)

/-- A new status byte changes nothing else in the header. -/
theorem Hdr.set_flag {m : Mem} {a v : Nat} {p : Part} {nx pv : Nat} (h : Hdr m a p nx pv) (u : Bool)
    (hu : get_block_status (set_flag m a v) a use_flag = if u then 1 else 0) :
    Hdr (set_flag m a v) a ⟨p.size, u⟩ nx pv where
  magic := (Mem.load_store_ne (by omega)).trans h.magic
  status := hu
  size := (Mem.load_store_ne (by omega)).trans h.size
  next := (Mem.load_store_ne (by omega)).trans h.next
  priv := (Mem.load_store_ne (by omega)).trans h.priv

/-! ## The back link of the successor

Splitting and merging both end with `if(next) next->priv_block = block`. -/

theorem load_fix_priv {m : Mem} {c v w a : Nat} (h : c = 0 ∨ a + w ≤ c + 16 ∨ c + 20 ≤ a) :
    Mem.load w (if c ≠ 0 then Mem.store 4 m (c + 16) v else m) a = Mem.load w m a := by
  split
  · exact Mem.load_store_ne (by omega)
  · rfl

theorem fix_priv_apply {m : Mem} {c v x : Nat} (h : c = 0 ∨ x < c + 16 ∨ c + 20 ≤ x) :
    (if c ≠ 0 then Mem.store 4 m (c + 16) v else m) x = m x := by
  split
  · exact Mem.store_apply_ne (by omega)
  · rfl

theorem load_fix_priv_same {m : Mem} {c v : Nat} (hc : c ≠ 0) :
    Mem.load 4 (if c ≠ 0 then Mem.store 4 m (c + 16) v else m) (c + 16) = v % 256 ^ 4 := by
  rw [if_pos hc]
  exact Mem.load_store_same 4 m _ v

section Partition
variable {m : Mem} {pv a nx : Nat} {xs ys : List Part} {n : Nat} {u : Bool}

theorem seg_set_flag {v : Nat} (h : Seg m pv a (xs ++ ⟨n, u⟩ :: ys) nx) (u' : Bool)
    (hu : get_block_status (set_flag m (a + span xs) v) (a + span xs) use_flag = if u' then 1 else 0) :
    Seg (set_flag m (a + span xs) v) pv a (xs ++ ⟨n, u'⟩ :: ys) nx := by
  rw [seg_split] at h ⊢
  obtain ⟨hxs, hb, hys⟩ := h
  refine ⟨hxs.congr fun x _ _ => Mem.store_apply_ne (by omega), hb.set_flag u' hu, hys.congr fun x _ _ => ?_⟩
  exact Mem.store_apply_ne (by omega)

theorem seg_set_status (h : Seg m pv a (xs ++ ⟨n, u⟩ :: ys) nx) :
    Seg (set_block_status m (a + span xs) use_flag) pv a (xs ++ ⟨n, true⟩ :: ys) nx :=
  seg_set_flag h true (status_set m _)

theorem seg_reset_status (h : Seg m pv a (xs ++ ⟨n, u⟩ :: ys) nx) :
    Seg (reset_block_status m (a + span xs) use_flag) pv a (xs ++ ⟨n, false⟩ :: ys) nx :=
  seg_set_flag h false (status_reset m _)

/-! ## Splitting -/

/-- The link behind a block is 0 or the block there. -/
theorem link_cases {e c : Nat} (hc : (if ys = [] then 0 else e) = c) :
    (ys ≠ [] → c = e ∧ 20 ≤ span ys) ∧ (c = 0 ∨ (c = e ∧ 20 ≤ span ys)) := by
  by_cases h : ys = []
  · rw [if_pos h] at hc
    exact ⟨fun hne => absurd h hne, .inl hc.symm⟩
  · rw [if_neg h] at hc
    exact ⟨fun _ => ⟨hc.symm, span_pos h⟩, .inr ⟨hc.symm, span_pos h⟩⟩

/-- The block at `b` keeps `size` bytes, the rest becomes a free block behind it. -/
theorem seg_incise {size : Nat} (h : Seg m 0 a (xs ++ ⟨n, false⟩ :: ys) 0) (ha : 0 < a)
    (htop : a + span (xs ++ ⟨n, false⟩ :: ys) ≤ 2 ^ 32) (hs : 0 < size) (hfit : size + 20 ≤ n) :
    Seg (incise_free_block m (a + span xs) size).1 0 a
      (xs ++ ⟨size, false⟩ :: ⟨n - (20 + size), false⟩ :: ys) 0 := by
  simp only [span_append, span_cons] at htop
  rw [seg_split] at h
  obtain ⟨hxs, hb, hys⟩ := h
  generalize hbe : a + span xs = b at *
  have hsize : block_size m b = n := hb.size
  have hstat : get_block_status m b use_flag = 0 := hb.status
  have hnext : next m b = if ys = [] then 0 else b + (20 + n) := hb.next
  have hd : b + (20 + size) + (20 + (n - (20 + size))) = b + (20 + n) := by omega
  have e1 : u32 (size + 20) = size + 20 := u32_of_lt (by omega)
  have e2 : u32 (20 + size) = 20 + size := u32_of_lt (by omega)
  have e3 : u32 (b + (20 + size)) = b + (20 + size) := u32_of_lt (by omega)
  have e4 : u32sub n (20 + size) = n - (20 + size) := u32sub_of_le (by omega) (by omega)
  unfold incise_free_block
  rw [if_neg (by omega), get_block_size, hsize, sizeof_memory_block, e1, if_neg (by omega), hstat, if_neg (by decide), e2]
  dsimp only
  rw [e3, e4]
  generalize hde : b + (20 + size) = d at *
  simp (disch := omega) only [next, set_block_size, set_next, reset_block_status, set_flag, flag, set_magic,
    set_priv_block, Mem.load_store_ne]
  simp only [next] at hnext
  rw [hnext, seg_split, hbe]
  generalize hc : (if ys = [] then 0 else b + (20 + n)) = c
  obtain ⟨hcy, hc'⟩ := link_cases hc
  refine ⟨hxs.congr fun x _ _ => ?_, ⟨?_, ?_, ?_, ?_, ?_⟩, ⟨?_, ?_, ?_, ?_, ?_⟩, ?_⟩
  · simp (disch := omega) only [Mem.store_apply_ne, fix_priv_apply]
  · simp (disch := omega) only [magic, Mem.load_store_ne, load_fix_priv]
    exact hb.magic
  · exact (status_congr (by simp (disch := omega) only [flag, Mem.load_store_ne, load_fix_priv])).trans hb.status
  · simp (disch := omega) only [block_size, Mem.load_store_ne, Mem.load_store_same, load_fix_priv]
    exact Nat.mod_eq_of_lt (by omega)
  · simp (disch := omega) only [next, Mem.load_store_ne, Mem.load_store_same]
    rw [Nat.mod_eq_of_lt (by omega)]
    simp [hde]
  · simp (disch := omega) only [priv_block, Mem.load_store_ne, load_fix_priv]
    exact hb.priv
  · simp (disch := omega) only [magic, Mem.load_store_ne, Mem.load_store_same, load_fix_priv, hde]
    rfl
  · apply status_of_reset (f := Mem.load 1 m d)
    simp (disch := omega) only [flag, Mem.load_store_ne, Mem.load_store_same, load_fix_priv, hde]
  · simp (disch := omega) only [block_size, Mem.load_store_ne, Mem.load_store_same, load_fix_priv, hde]
    exact Nat.mod_eq_of_lt (by omega)
  · simp (disch := omega) only [next, Mem.load_store_ne, Mem.load_store_same, load_fix_priv, hde]
    rw [Nat.mod_eq_of_lt (by omega), hd, hc]
  · simp (disch := omega) only [priv_block, Mem.load_store_same, hde]
    exact Nat.mod_eq_of_lt (by omega)
  · rw [hde, hd]
    have hys : Seg m b (b + (20 + n)) ys 0 := hys
    refine hys.relink (fun h => ?_) (fun _ x _ _ => ?_) fun x _ _ => ?_
    · obtain ⟨hcb, _⟩ := hcy h
      simp (disch := omega) only [priv_block, ← hcb, Mem.load_store_ne, load_fix_priv_same]
      exact Nat.mod_eq_of_lt (by omega)
    · simp (disch := omega) only [Mem.store_apply_ne, fix_priv_apply]
    · simp (disch := omega) only [Mem.store_apply_ne, fix_priv_apply]

/-! ## Merging -/

theorem clean_block_apply {m : Mem} {d n x : Nat} (hn : block_size m d = n) (hlt : 20 + n < 2 ^ 32)
    (hx : x < d ∨ d + (20 + n) ≤ x) : clean_block m d x = m x := by
  unfold clean_block
  rw [hn, sizeof_memory_block, u32_of_lt hlt]
  split
  · rfl
  · dsimp only
    split
    · exact Mem.fill_apply_ne (by omega)
    · rfl

/-- Block `b` takes over the block `d` behind it, whose successor is `c`. Both
branches of `free_block` do this. -/
def absorb (m : Mem) (b d c : Nat) : Mem :=
  let m := set_block_size m b (u32 (block_size m b + u32 (sizeof_memory_block + block_size m d)))
  let m := set_next m b c
  let m := if c ≠ 0 then set_priv_block m c b else m
  clean_block m d

theorem seg_absorb {k : Nat} {v : Bool} (h : Seg m 0 a (xs ++ ⟨n, false⟩ :: ⟨k, v⟩ :: ys) 0)
    (htop : a + span (xs ++ ⟨n, false⟩ :: ⟨k, v⟩ :: ys) ≤ 2 ^ 32) :
    Seg (absorb m (a + span xs) (a + span xs + (20 + n)) (if ys = [] then 0 else a + span xs + (20 + n) + (20 + k)))
      0 a (xs ++ ⟨n + (20 + k), false⟩ :: ys) 0 := by
  simp only [span_append, span_cons] at htop
  rw [seg_split] at h
  obtain ⟨hxs, hb, hd, hys⟩ := h
  rw [seg_split]
  generalize hbe : a + span xs = b at *
  have hbs : block_size m b = n := hb.size
  have hd : Hdr m (b + (20 + n)) ⟨k, v⟩ (if ys = [] then 0 else b + (20 + n) + (20 + k)) b := hd
  have hys : Seg m (b + (20 + n)) (b + (20 + n) + (20 + k)) ys 0 := hys
  generalize hde : b + (20 + n) = d at *
  have hds : block_size m d = k := hd.size
  generalize hc : (if ys = [] then 0 else d + (20 + k)) = c at *
  obtain ⟨hcy, hc'⟩ := link_cases hc
  have e1 : u32 (20 + k) = 20 + k := u32_of_lt (by omega)
  have e2 : u32 (n + (20 + k)) = n + (20 + k) := u32_of_lt (by omega)
  unfold absorb
  dsimp only
  rw [hbs, hds, sizeof_memory_block, e1, e2]
  simp only [set_block_size, set_next, set_priv_block]
  -- `clean_block` reads the size of `d`, which the three stores left alone.
  have hclean : ∀ x, x < d ∨ d + (20 + k) ≤ x → clean_block _ d x = _ := fun x hx =>
    clean_block_apply (n := k) (m := if c ≠ 0 then Mem.store 4 (Mem.store 4 (Mem.store 4 m (b + 8) (n + (20 + k)))
      (b + 12) c) (c + 16) b else Mem.store 4 (Mem.store 4 m (b + 8) (n + (20 + k))) (b + 12) c) (by
        simp (disch := omega) only [block_size, Mem.load_store_ne, load_fix_priv]
        exact hds) (by omega) hx
  have hload : ∀ w x, x + w ≤ d ∨ d + (20 + k) ≤ x → Mem.load w (clean_block _ d) x = Mem.load w _ x := fun w x hx =>
    Mem.load_congr fun y _ _ => hclean y (by omega)
  refine ⟨hxs.congr fun x _ _ => ?_, ⟨?_, ?_, ?_, ?_, ?_⟩, ?_⟩
  · rw [hclean x (by omega)]
    simp (disch := omega) only [Mem.store_apply_ne, fix_priv_apply]
  · rw [magic, hload _ _ (by omega)]
    simp (disch := omega) only [Mem.load_store_ne, load_fix_priv]
    exact hb.magic
  · refine (status_congr ?_).trans hb.status
    rw [flag, hload _ _ (by omega)]
    simp (disch := omega) only [flag, Mem.load_store_ne, load_fix_priv]
  · rw [block_size, hload _ _ (by omega)]
    simp (disch := omega) only [Mem.load_store_ne, Mem.load_store_same, load_fix_priv]
    exact Nat.mod_eq_of_lt (by omega)
  · rw [next, hload _ _ (by omega)]
    simp (disch := omega) only [Mem.load_store_same, load_fix_priv]
    rw [Nat.mod_eq_of_lt (by omega), ← hc]
    congr 1
    omega
  · rw [priv_block, hload _ _ (by omega)]
    simp (disch := omega) only [Mem.load_store_ne, load_fix_priv]
    exact hb.priv
  · have e : b + (20 + (n + (20 + k))) = d + (20 + k) := by omega
    rw [e]
    refine hys.relink (fun h => ?_) (fun hne x _ _ => ?_) fun x _ _ => ?_
    · obtain ⟨hcd, _⟩ := hcy h
      rw [priv_block, hload _ _ (by omega), ← hcd]
      simp (disch := omega) only [load_fix_priv_same]
      exact Nat.mod_eq_of_lt (by omega)
    · rw [hclean x (by omega)]
      simp (disch := omega) only [Mem.store_apply_ne, fix_priv_apply]
    · rw [hclean x (by omega)]
      simp (disch := omega) only [Mem.store_apply_ne, fix_priv_apply]

/-! ## One turn of the merge loop -/

/-- No block at the end of `xs` to merge with. -/
def UsedBefore (xs : List Part) : Prop := ∀ p ∈ xs.getLast?, p.used = true

/-- No block at the start of `ys` to merge with. -/
def UsedAfter (ys : List Part) : Prop := ∀ p ∈ ys.head?, p.used = true

theorem hdr_at {p : Part} (h : Seg m pv a (xs ++ p :: ys) nx) :
    Hdr m (a + span xs) p (if ys = [] then nx else a + span xs + (20 + p.size)) (lastAddr pv a xs) :=
  (seg_split.1 h).2.1

/-- The test of `free_block` on the predecessor. -/
theorem pred_free {p : Part} (h : Seg m 0 a (xs ++ p :: ys) 0) (hxs : UsedBefore xs) :
    ¬(lastAddr 0 a xs ≠ 0 ∧ get_block_status m (lastAddr 0 a xs) use_flag = 0) := by
  rcases List.eq_nil_or_concat xs with rfl | ⟨zs, q, rfl⟩
  · simp [lastAddr]
  · rw [List.concat_eq_append] at *
    have hq : q.used = true := hxs q (by simp)
    rw [List.append_assoc] at h
    have := (hdr_at h).status
    rw [lastAddr_concat, this, hq]
    simp

/-- The test of `free_block` on the successor. -/
theorem succ_free {p : Part} (h : Seg m 0 a (xs ++ p :: ys) 0) (hys : UsedAfter ys) (c : Nat)
    (hc : c = if ys = [] then 0 else a + span xs + (20 + p.size)) :
    ¬(c ≠ 0 ∧ get_block_status m c use_flag = 0) := by
  rcases ys with _ | ⟨q, ys⟩
  · simp [hc]
  · have hq : q.used = true := hys q (by simp)
    rw [List.append_cons] at h
    have := (hdr_at h).status
    simp only [span_append, span_cons, span_nil, hq] at this
    rw [hc, if_neg (by simp)]
    rw [show a + span xs + (20 + p.size) = a + (span xs + (20 + p.size + 0)) by omega, this]
    simp

/-- Merging with the predecessor. -/
theorem free_block_left_eq {k : Nat} {v : Bool} (h : Seg m 0 a (xs ++ ⟨n, false⟩ :: ⟨k, v⟩ :: ys) 0) (ha : 0 < a) :
    Seg (reset_block_status m (a + span xs + (20 + n)) use_flag) 0 a (xs ++ ⟨n, false⟩ :: ⟨k, false⟩ :: ys) 0 ∧
      free_block m (a + span xs + (20 + n)) =
        (absorb (reset_block_status m (a + span xs + (20 + n)) use_flag) (a + span xs) (a + span xs + (20 + n))
          (if ys = [] then 0 else a + span xs + (20 + n) + (20 + k)), a + span xs) := by
  have e : a + span (xs ++ [⟨n, false⟩]) = a + span xs + (20 + n) := by
    simp only [span_append, span_cons, span_nil]
    omega
  have h' : Seg m 0 a ((xs ++ [⟨n, false⟩]) ++ ⟨k, v⟩ :: ys) 0 := by simpa using h
  have hd := hdr_at h'
  have hr := seg_reset_status h'
  rw [e] at hd hr
  rw [lastAddr_concat] at hd
  have hr' : Seg (reset_block_status m (a + span xs + (20 + n)) use_flag) 0 a
      (xs ++ ⟨n, false⟩ :: ⟨k, false⟩ :: ys) 0 := by simpa using hr
  refine ⟨hr', ?_⟩
  unfold free_block
  rw [if_neg (by omega)]
  dsimp only [get_priv_block, get_next_block]
  rw [hd.priv, hd.next, if_pos ⟨by omega, (hdr_at hr').status⟩]
  rfl

theorem free_block_left {k : Nat} {v : Bool} (h : Seg m 0 a (xs ++ ⟨n, false⟩ :: ⟨k, v⟩ :: ys) 0) (ha : 0 < a)
    (htop : a + span (xs ++ ⟨n, false⟩ :: ⟨k, v⟩ :: ys) ≤ 2 ^ 32) :
    (free_block m (a + span xs + (20 + n))).2 = a + span xs ∧
      Seg (free_block m (a + span xs + (20 + n))).1 0 a (xs ++ ⟨n + (20 + k), false⟩ :: ys) 0 := by
  obtain ⟨hr, heq⟩ := free_block_left_eq h ha
  rw [heq]
  exact ⟨rfl, seg_absorb hr (by simpa using htop)⟩

theorem next_set_block_size {b d v : Nat} (h : b + 20 ≤ d) : next (set_block_size m b v) d = next m d :=
  Mem.load_store_ne (by omega)

theorem next_set_next {b d v : Nat} (h : b + 20 ≤ d) : next (set_next m b v) d = next m d :=
  Mem.load_store_ne (by omega)

/-- Merging with the successor. -/
theorem free_block_right_eq {k : Nat} (h : Seg m 0 a (xs ++ ⟨n, u⟩ :: ⟨k, false⟩ :: ys) 0) (ha : 0 < a)
    (hxs : UsedBefore xs) :
    Seg (reset_block_status m (a + span xs) use_flag) 0 a (xs ++ ⟨n, false⟩ :: ⟨k, false⟩ :: ys) 0 ∧
      free_block m (a + span xs) =
        (absorb (reset_block_status m (a + span xs) use_flag) (a + span xs) (a + span xs + (20 + n))
          (if ys = [] then 0 else a + span xs + (20 + n) + (20 + k)), a + span xs) := by
  have hb := hdr_at h
  have hr := seg_reset_status h
  have e : a + span (xs ++ [⟨n, false⟩]) = a + span xs + (20 + n) := by
    simp only [span_append, span_cons, span_nil]
    omega
  have hr' : Seg (reset_block_status m (a + span xs) use_flag) 0 a ((xs ++ [⟨n, false⟩]) ++ ⟨k, false⟩ :: ys) 0 := by
    simpa using hr
  have hd := hdr_at hr'
  rw [e] at hd
  refine ⟨hr, ?_⟩
  unfold free_block
  rw [if_neg (by omega)]
  dsimp only [get_priv_block, get_next_block]
  rw [hb.priv, hb.next, if_neg (pred_free hr hxs), if_neg (List.cons_ne_nil _ _), if_pos ⟨by omega, hd.status⟩]
  -- `next_block->next` is read after two stores to `block`.
  rw [next_set_next (by omega), next_set_block_size (by omega), hd.next]
  rfl

theorem free_block_right {k : Nat} (h : Seg m 0 a (xs ++ ⟨n, u⟩ :: ⟨k, false⟩ :: ys) 0) (ha : 0 < a)
    (htop : a + span (xs ++ ⟨n, u⟩ :: ⟨k, false⟩ :: ys) ≤ 2 ^ 32) (hxs : UsedBefore xs) :
    (free_block m (a + span xs)).2 = a + span xs ∧
      Seg (free_block m (a + span xs)).1 0 a (xs ++ ⟨n + (20 + k), false⟩ :: ys) 0 := by
  obtain ⟨hr, heq⟩ := free_block_right_eq h ha hxs
  rw [heq]
  exact ⟨rfl, seg_absorb hr (by simpa using htop)⟩

/-- Between used neighbours `free_block` only clears the status bit. -/
theorem free_block_settled_eq (h : Seg m 0 a (xs ++ ⟨n, u⟩ :: ys) 0) (ha : 0 < a) (hxs : UsedBefore xs)
    (hys : UsedAfter ys) : free_block m (a + span xs) = (reset_block_status m (a + span xs) use_flag, a + span xs) := by
  have hb := hdr_at h
  have hr := seg_reset_status h
  unfold free_block
  rw [if_neg (by omega)]
  dsimp only [get_priv_block, get_next_block]
  rw [hb.priv, hb.next, if_neg (pred_free hr hxs), if_neg (succ_free hr hys _ rfl)]

theorem free_block_settled (h : Seg m 0 a (xs ++ ⟨n, u⟩ :: ys) 0) (ha : 0 < a) (hxs : UsedBefore xs)
    (hys : UsedAfter ys) :
    (free_block m (a + span xs)).2 = a + span xs ∧
      Seg (free_block m (a + span xs)).1 0 a (xs ++ ⟨n, false⟩ :: ys) 0 := by
  rw [free_block_settled_eq h ha hxs hys]
  exact ⟨rfl, seg_reset_status h⟩

end Partition

end McLinOS.Heap
