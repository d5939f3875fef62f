import McLinOS.Heap.Invariant
/-!
# Heap theorems

Every reachable heap tiles its space with blocks and keeps the allocations
apart. Its free blocks are merged, so freeing undoes allocating.
-/
open CLib

namespace McLinOS.Heap

/-! ## Tiling -/

/-- `bs` are the blocks of the `next` chain from `start_addr`, and they tile
`[space, space + memory_size)`. -/
structure Tiles (haper : haper2) (m : Mem) (space memory_size : Nat) (bs : List Nat) : Prop where
  start_addr : haper.start_addr = space
  head : bs.head? = some space
  head_priv : priv_block m space = 0
  links : bs.IsChain fun b c => next m b = c ∧ priv_block m c = b ∧ c = b + sizeof_memory_block + block_size m b
  last : ∀ b ∈ bs.getLast?, next m b = 0 ∧ b + sizeof_memory_block + block_size m b = space + memory_size
  magic : ∀ b ∈ bs, magic m b = BASE_MAGIC
  total : (bs.map fun b => sizeof_memory_block + block_size m b).sum = memory_size

/-- The live allocations are disjoint, lie inside the space and overlap no
header of `bs`. -/
structure Isolated (live : List Alloc) (space memory_size : Nat) (bs : List Nat) : Prop where
  disjoint : live.Pairwise fun e f => e.ptr + e.size ≤ f.ptr ∨ f.ptr + f.size ≤ e.ptr
  inside : ∀ e ∈ live, space ≤ e.ptr ∧ e.ptr + e.size ≤ space + memory_size
  headers : ∀ e ∈ live, ∀ b ∈ bs, e.ptr + e.size ≤ b ∨ b + sizeof_memory_block ≤ e.ptr

section Segment
variable {m : Mem} {pv a nx : Nat} {ps : List Part}

theorem Seg.links (h : Seg m pv a ps nx) : (addrs a ps).IsChain fun b c =>
    next m b = c ∧ priv_block m c = b ∧ c = b + sizeof_memory_block + block_size m b := by
  induction ps generalizing pv a with
  | nil => exact .nil
  | cons p ps ih =>
    rcases ps with _ | ⟨q, ps⟩
    · exact .singleton _
    · have hnext := h.1.next
      rw [if_neg (List.cons_ne_nil _ _)] at hnext
      refine .cons_cons ⟨hnext, h.2.1.priv, ?_⟩ (ih h.2)
      rw [h.1.size, sizeof_memory_block]
      omega

theorem Seg.last (h : Seg m pv a ps nx) :
    ∀ b ∈ (addrs a ps).getLast?, next m b = nx ∧ b + sizeof_memory_block + block_size m b = a + span ps := by
  induction ps generalizing pv a with
  | nil => simp [addrs]
  | cons p ps ih =>
    rcases ps with _ | ⟨q, ps⟩
    · intro b hb
      obtain rfl : a = b := by simpa [addrs] using hb
      refine ⟨by simpa using h.1.next, ?_⟩
      rw [h.1.size, sizeof_memory_block, span_cons, span_nil]
      omega
    · intro b hb
      obtain ⟨hn, he⟩ := ih h.2 b (by simpa [addrs] using hb)
      refine ⟨hn, ?_⟩
      rw [he, span_cons p]
      omega

theorem Seg.magic_all (h : Seg m pv a ps nx) : ∀ b ∈ addrs a ps, magic m b = BASE_MAGIC := by
  induction ps generalizing pv a with
  | nil => simp [addrs]
  | cons p ps ih => exact List.forall_mem_cons.2 ⟨h.1.magic, ih h.2⟩

theorem Seg.total (h : Seg m pv a ps nx) :
    ((addrs a ps).map fun b => sizeof_memory_block + block_size m b).sum = span ps := by
  induction ps generalizing pv a with
  | nil => rfl
  | cons p ps ih => rw [addrs, List.map_cons, List.sum_cons, ih h.2, h.1.size, span_cons, sizeof_memory_block]

end Segment

/-- A used block lies apart from every header but its own. -/
theorem used_headers {a b n c : Nat} {ps : List Part} (hb : (b, n) ∈ usedAt a ps) (hc : c ∈ addrs a ps) :
    b + 20 + n ≤ c ∨ c ≤ b := by
  obtain ⟨xs, ys, rfl, rfl⟩ := mem_usedAt.1 hb
  obtain ⟨us, q, vs, hsplit, rfl⟩ := mem_addrs hc
  rcases split_apart hsplit with h | h | ⟨rfl, -⟩
  · exact .inl (by dsimp only at h; omega)
  · exact .inr (by omega)
  · exact .inr (Nat.le_refl _)

theorem used_apart {a b n c k : Nat} {ps : List Part} (hb : (b, n) ∈ usedAt a ps) (hc : (c, k) ∈ usedAt a ps)
    (hne : b ≠ c) : b + 20 + n ≤ c ∨ c + 20 + k ≤ b := by
  obtain ⟨xs, ys, rfl, rfl⟩ := mem_usedAt.1 hb
  obtain ⟨us, vs, hsplit, rfl⟩ := mem_usedAt.1 hc
  rcases split_apart hsplit with h | h | ⟨rfl, -⟩
  · exact .inl (by dsimp only at h; omega)
  · exact .inr (by dsimp only at h; omega)
  · exact absurd rfl hne

section Reachable
variable {space memory_size : Nat} {s : Sys} {ps : List Part}

theorem inv_tiles (hi : Inv space memory_size s ps) : Tiles s.haper s.mem space memory_size (addrs space ps) := by
  have hseg := hi.holds.seg
  obtain ⟨p, qs, rfl⟩ := List.exists_cons_of_ne_nil hi.holds.nonempty
  exact ⟨hi.start_addr, rfl, hseg.1.priv, hseg.links, by rw [← hi.total]; exact hseg.last, hseg.magic_all,
    by rw [hseg.total, hi.total]⟩

theorem inv_isolated (hi : Inv space memory_size s ps) : Isolated s.live space memory_size (addrs space ps) := by
  have hnodup : (s.live.map (·.ptr)).Nodup := hi.live_perm.nodup_iff.2 (usedAt_nodup space ps)
  refine ⟨?_, ?_, ?_⟩
  · refine (List.pairwise_map.1 hnodup).imp_of_mem fun {e f} he hf hne => ?_
    obtain ⟨-, b, n, hb, hbe, hn⟩ := hi.live_fits e he
    obtain ⟨-, c, k, hc, hcf, hk⟩ := hi.live_fits f hf
    have := used_apart hb hc (by omega)
    omega
  · intro e he
    obtain ⟨-, b, n, hb, hbe, hn⟩ := hi.live_fits e he
    obtain ⟨xs, ys, rfl, rfl⟩ := mem_usedAt.1 hb
    have := hi.total
    simp only [span_append, span_cons] at this
    omega
  · intro e he b hb
    obtain ⟨-, c, n, hc, hce, hn⟩ := hi.live_fits e he
    have := used_headers hc hb
    rw [sizeof_memory_block]
    omega

/-- In every reachable state the chain tiles the space and the live
allocations are isolated. -/
theorem heap_tiled (h : Reachable (Init space memory_size) Step s) :
    ∃ bs, Tiles s.haper s.mem space memory_size bs ∧ Isolated s.live space memory_size bs := by
  obtain ⟨ps, hi⟩ := reachable_inv h
  exact ⟨addrs space ps, inv_tiles hi, inv_isolated hi⟩

/-- The invariant at a heap of 100 bytes with one allocation in it. -/
theorem heap_tiled_alloc : ∃ s : Sys, s.live = [⟨52, 16⟩] ∧
    ∃ bs, Tiles s.haper s.mem 32 100 bs ∧ Isolated s.live 32 100 bs := by
  let s₀ : Sys := ⟨(haper2_init (fun _ => 0) 32 100 0).2.1, (haper2_init (fun _ => 0) 32 100 0).2.2, []⟩
  have h₀ : Reachable (Init 32 100) Step s₀ := .start ⟨by decide, by decide, rfl, fun _ => 0, 0, rfl⟩
  have hr : (best_fit_alloc 2 s₀.haper s₀.mem 16).map (·.2) = some 52 := by decide
  obtain ⟨⟨m, r⟩, halloc, rfl⟩ := Option.map_eq_some_iff.1 hr
  exact ⟨_, rfl, heap_tiled (h₀.next (.best_fit 2 16 halloc))⟩

/-! ## Coalescing -/

/-- The partition read off the headers, along the `next` chain. -/
def partition (fuel : Nat) (haper : haper2) (m : Mem) : Option (List Part) :=
  memory_block_laterator fuel haper m
    (fun block ps => (1, ps ++ [⟨block_size m block, get_block_status m block use_flag = 1⟩])) []

def Partition (haper : haper2) (m : Mem) (ps : List Part) : Prop := ∃ fuel, partition fuel haper m = some ps

theorem partition_unique {haper : haper2} {m : Mem} {ps qs : List Part} (h : Partition haper m ps)
    (h' : Partition haper m qs) : ps = qs :=
  let ⟨_, h⟩ := h
  let ⟨_, h'⟩ := h'
  (FuelMono.loop _ _).det h h'

theorem holds_partition {haper : haper2} {m : Mem} {ps : List Part} (h : Holds m haper.start_addr ps) :
    Partition haper m ps := by
  have hlow := h.low
  obtain ⟨_, hl, rfl⟩ : ∃ r, partition (ps.length + 1) haper m = some r ∧ r = ps := by
    unfold partition memory_block_laterator
    refine seg_walk (fun xs acc => acc = xs) (fun r => r = ps) h.seg h.nonempty ?_ (fun acc h => ⟨acc, rfl, h⟩) rfl
      (Nat.lt_succ_self _)
    rintro xs p ys acc rfl rfl
    have hcurr : haper.start_addr + span acc ≠ 0 := by omega
    have hd := hdr_at h.seg
    have hp : Part.mk (block_size m (haper.start_addr + span acc))
        (decide (get_block_status m (haper.start_addr + span acc) use_flag = 1)) = p := by
      rw [hd.size, hd.status]
      rcases p with ⟨n, _ | _⟩ <;> rfl
    refine .inr ⟨acc ++ [p], ?_, rfl⟩
    simp only [if_neg hcurr, hp]
    rfl
  exact ⟨_, hl⟩

theorem inv_partition (hi : Inv space memory_size s ps) : Partition s.haper s.mem ps :=
  holds_partition (hi.start_addr ▸ hi.holds)

/-- With nothing allocated the heap is one free block. -/
theorem all_free (hi : Inv space memory_size s ps) (hlive : s.live = []) :
    ps = [⟨memory_size - sizeof_memory_block, false⟩] := by
  have hused : usedAt space ps = [] := by simpa [hlive] using hi.live_perm
  have hfree : ∀ p ∈ ps, p.used = false := by
    intro p hp
    obtain ⟨xs, ys, rfl⟩ := List.append_of_mem hp
    by_contra hu
    have hin : (space + span xs, p.size) ∈ usedAt space (xs ++ p :: ys) :=
      mem_usedAt.2 ⟨xs, ys, by rw [← Bool.eq_true_of_not_eq_false hu], rfl⟩
    simp [hused] at hin
  have htotal := hi.total
  -- A second part would be a free neighbour of the first.
  match ps, hi.holds.nonempty, hi.coalesced with
  | [⟨n, u⟩], _, _ =>
    obtain rfl : u = false := hfree ⟨n, u⟩ (by simp)
    simp only [span_cons, span_nil] at htotal
    rw [sizeof_memory_block, ← htotal]
    simp
  | p :: q :: qs, _, hc =>
    have h1 := hfree p (by simp)
    have h2 := hfree q (by simp)
    simp [Coalesced, h1, h2] at hc

/-! ## Freeing -/

/-- Frees the pointers one after another. -/
def free_each (fuel : Nat) (haper : haper2) : Mem → List Nat → Option Mem
  | m, [] => some m
  | m, ptr :: ptrs => (free_haper_block fuel haper m ptr).bind fun r => free_each fuel haper r.1 ptrs

theorem free_returns (hi : Inv space memory_size s ps) {fuel ptr : Nat} (hf : memory_size + 4 ≤ fuel)
    (hlt : ptr < 2 ^ 32) : ∃ m rc, free_haper_block fuel s.haper s.mem ptr = some (m, rc) := by
  have hlen := length_le_span ps
  have htotal := hi.total
  obtain ⟨m, rc, h, -⟩ := free_haper_block_spec (hi.start_addr ▸ hi.holds) hlt hi.coalesced hi.pos
    (show ps.length + 4 ≤ fuel by omega)
  exact ⟨m, rc, h⟩

theorem best_fit_returns (hi : Inv space memory_size s ps) {fuel : Nat} (hf : memory_size + 4 ≤ fuel) (size : Nat) :
    ∃ m r, best_fit_alloc fuel s.haper s.mem size = some (m, r) := by
  have hlen := length_le_span ps
  have htotal := hi.total
  rcases Nat.eq_zero_or_pos size with rfl | hs
  · exact ⟨_, _, rfl⟩
  · obtain ⟨m, r, h, -⟩ := best_fit_alloc_spec (hi.start_addr ▸ hi.holds) hs (show ps.length < fuel by omega)
    exact ⟨m, r, h⟩

theorem first_fit_returns (hi : Inv space memory_size s ps) {fuel : Nat} (hf : memory_size + 4 ≤ fuel) (size : Nat) :
    ∃ m r, first_fit_alloc fuel s.haper s.mem size = some (m, r) := by
  have hlen := length_le_span ps
  have htotal := hi.total
  rcases Nat.eq_zero_or_pos size with rfl | hs
  · exact ⟨_, _, rfl⟩
  · obtain ⟨m, r, h, -⟩ := first_fit_alloc_spec (hi.start_addr ▸ hi.holds) hs (show ps.length < fuel by omega)
    exact ⟨m, r, h⟩

/-- `free_haper_block` runs the merge loop on every block of the chain. -/
theorem free_memory_returns (hi : Inv space memory_size s ps) {fuel b : Nat} (hf : memory_size + 4 ≤ fuel)
    (hb : b ∈ addrs space ps) : ∃ m, free_memory fuel s.mem b = some m := by
  obtain ⟨xs, ⟨n, u⟩, ys, rfl, rfl⟩ := mem_addrs hb
  obtain ⟨m, hm, -⟩ := free_memory_holds hi.holds hi.coalesced hi.pos fuel (by omega)
  exact ⟨m, hm⟩

theorem free_dead (hi : Inv space memory_size s ps) {fuel ptr : Nat} (hf : memory_size + 4 ≤ fuel)
    (hlt : ptr < 2 ^ 32) (hdead : ptr ∉ s.live.map (·.ptr)) :
    ∃ m rc, free_haper_block fuel s.haper s.mem ptr = some (m, rc) ∧ Partition s.haper m ps := by
  obtain ⟨m, rc, h⟩ := free_returns hi hf hlt
  rcases inv_free hi hlt h with ⟨-, hi'⟩ | ⟨xs, n, ys, hps, hptr, -⟩
  · exact ⟨m, rc, h, inv_partition hi'⟩
  · exact absurd (by simpa using (live_iff hi ptr).2 ⟨xs, n, ys, hps, hptr⟩) hdead

theorem free_all (hi : Inv space memory_size s ps) {fuel : Nat} (hf : memory_size + 4 ≤ fuel) {ptrs : List Nat}
    (hptrs : ptrs.Perm (s.live.map (·.ptr))) :
    ∃ m, free_each fuel s.haper s.mem ptrs = some m ∧
      Partition s.haper m [⟨memory_size - sizeof_memory_block, false⟩] := by
  induction ptrs generalizing s ps with
  | nil =>
    have hlive : s.live = [] := by simpa using hptrs.nil_eq.symm
    exact ⟨s.mem, rfl, all_free hi hlive ▸ inv_partition hi⟩
  | cons ptr ptrs ih =>
    obtain ⟨e, he, rfl⟩ := List.mem_map.1 (hptrs.mem_iff.1 (List.mem_cons_self ..))
    obtain ⟨xs, n, ys, hps, hptr⟩ := (live_iff hi e.ptr).1 ⟨e, he, rfl⟩
    have hlt : e.ptr < 2 ^ 32 := by
      have := hi.holds.high
      have := hi.pos ⟨n, true⟩ (by simp [hps]) rfl
      simp only [hps, span_append, span_cons] at *
      omega
    obtain ⟨m, rc, h⟩ := free_returns hi hf hlt
    have hi' : ∃ ps', Inv space memory_size (s.freed m e.ptr) ps' := inv_preserved hi (.free fuel e.ptr hlt h)
    obtain ⟨ps', hi'⟩ := hi'
    -- No two allocations share a pointer, so the other pointers are those still live.
    have hrest : ptrs.Perm ((s.freed m e.ptr).live.map (·.ptr)) := by
      have hnodup : (e.ptr :: ptrs).Nodup := hptrs.nodup_iff.2 (hi.live_perm.nodup_iff.2 (usedAt_nodup space ps))
      have hkeep := hptrs.filter fun q => decide (q ≠ e.ptr)
      rw [List.filter_cons, if_neg (by simp), List.filter_map, List.filter_eq_self.2 fun q hq => by
        simpa using fun (hqe : q = e.ptr) => (List.nodup_cons.1 hnodup).1 (hqe ▸ hq)] at hkeep
      exact hkeep
    obtain ⟨m', hall, hpart⟩ := ih hi' hrest
    exact ⟨m', by rw [free_each, h]; exact hall, hpart⟩

/-- Freeing what was carved out of a free block gives the block back. -/
theorem freed_allotted {xs ys us vs : List Part} {n size slack k : Nat} (hc : Coalesced (xs ++ ⟨n, false⟩ :: ys))
    (hsplit : xs ++ (allotted n size slack ++ ys) = us ++ ⟨k, true⟩ :: vs) (hspan : span xs = span us) :
    Heap.freed us k vs = xs ++ ⟨n, false⟩ :: ys := by
  -- A rest that was cut off merges back into the block; without a rest the sizes never changed.
  unfold allotted at hsplit
  split at hsplit <;> simp only [List.cons_append, List.nil_append] at hsplit
  · obtain ⟨rfl, hp, rfl⟩ := split_unique hsplit hspan
    obtain ⟨rfl, -⟩ := Part.mk.inj hp
    have hsize : size + (20 + (n - (20 + size))) = n := by omega
    rw [freed_used hc.before, mergeAfter, hsize]
  · obtain ⟨rfl, hp, rfl⟩ := split_unique hsplit hspan
    obtain ⟨rfl, -⟩ := Part.mk.inj hp
    rw [freed_used hc.before, mergeAfter_used hc.after]

theorem alloc_free {m : Mem} {fuel r size slack : Nat} (hi : Inv space memory_size s ps) (hf : memory_size + 4 ≤ fuel)
    (h : (r = 0 ∧ m = s.mem) ∨ ∃ xs n ys, Allocated s.mem space ps size slack m r xs n ys ∧ 0 < size) :
    ∃ m' rc, free_haper_block fuel s.haper m r = some (m', rc) ∧ Partition s.haper m' ps := by
  rcases h with ⟨rfl, rfl⟩ | ⟨xs, n, ys, hall, hpos⟩
  · exact ⟨s.mem, -1, rfl, inv_partition hi⟩
  have hi' := inv_allocated hi hpos hall
  obtain ⟨rfl, hn, rfl, -⟩ := hall
  have hlt : space + span xs + 20 < 2 ^ 32 := by
    have := hi.holds.high
    simp only [span_append, span_cons] at this
    omega
  obtain ⟨m', rc, hfree⟩ := free_returns hi' hf hlt
  refine ⟨m', rc, hfree, ?_⟩
  rcases inv_free hi' hlt hfree with ⟨hno, -⟩ | ⟨us, k, vs, hsplit, hptr, hi''⟩
  · exact absurd ⟨⟨space + span xs + 20, size⟩, by simp [Sys.allocated], rfl⟩ hno
  · rw [freed_allotted hi.coalesced hsplit (by omega)] at hi''
    exact inv_partition hi''

/-- `alloc` and then the free of its result lead from `s` back to `ps`. -/
def Restores (alloc : Nat → haper2 → Mem → Nat → Option (Mem × Nat)) (fuel : Nat) (s : Sys) (ps : List Part) : Prop :=
  ∀ size, ∃ m r m' rc, alloc fuel s.haper s.mem size = some (m, r) ∧
    free_haper_block fuel s.haper m r = some (m', rc) ∧ Partition s.haper m' ps

theorem best_fit_restores (hi : Inv space memory_size s ps) {fuel : Nat} (hf : memory_size + 4 ≤ fuel) :
    Restores best_fit_alloc fuel s ps := by
  intro size
  obtain ⟨m, r, h⟩ := best_fit_returns hi hf size
  obtain ⟨m', rc, hfree, hpart⟩ := alloc_free hi hf (inv_best_fit hi h)
  exact ⟨m, r, m', rc, h, hfree, hpart⟩

theorem first_fit_restores (hi : Inv space memory_size s ps) {fuel : Nat} (hf : memory_size + 4 ≤ fuel) :
    Restores first_fit_alloc fuel s ps := by
  intro size
  obtain ⟨m, r, h⟩ := first_fit_returns hi hf size
  obtain ⟨m', rc, hfree, hpart⟩ := alloc_free hi hf (inv_first_fit hi h)
  exact ⟨m, r, m', rc, h, hfree, hpart⟩

/-- A reachable heap is fully merged: no two free neighbours, the merge loop
ends on every block, freeing everything in any order gives one block, freeing
what was just allocated gives the partition back, and freeing anything that is
not allocated does not change it. -/
theorem heap_coalesces (h : Reachable (Init space memory_size) Step s) {fuel : Nat} (hf : memory_size + 4 ≤ fuel) :
    ∃ ps, Partition s.haper s.mem ps ∧ Coalesced ps ∧
      (∀ b ∈ addrs s.haper.start_addr ps, ∃ m, free_memory fuel s.mem b = some m) ∧
      (∀ ptrs, ptrs.Perm (s.live.map (·.ptr)) → ∃ m, free_each fuel s.haper s.mem ptrs = some m ∧
        Partition s.haper m [⟨memory_size - sizeof_memory_block, false⟩]) ∧
      Restores best_fit_alloc fuel s ps ∧ Restores first_fit_alloc fuel s ps ∧
      ∀ ptr < 2 ^ 32, ptr ∉ s.live.map (·.ptr) →
        ∃ m rc, free_haper_block fuel s.haper s.mem ptr = some (m, rc) ∧ Partition s.haper m ps := by
  obtain ⟨ps, hi⟩ := reachable_inv h
  refine ⟨ps, inv_partition hi, hi.coalesced, ?_, fun ptrs hptrs => free_all hi hf hptrs, best_fit_restores hi hf,
    first_fit_restores hi hf, fun ptr hlt hdead => free_dead hi hf hlt hdead⟩
  intro b hb
  rw [hi.start_addr] at hb
  exact free_memory_returns hi hf hb

/-- The same heap of 100 bytes: its one allocation freed gives one block of 80. -/
theorem heap_coalesces_alloc : ∃ s : Sys, s.live = [⟨52, 16⟩] ∧
    ∃ m, free_each 104 s.haper s.mem [52] = some m ∧ Partition s.haper m [⟨80, false⟩] := by
  let s₀ : Sys := ⟨(haper2_init (fun _ => 0) 32 100 0).2.1, (haper2_init (fun _ => 0) 32 100 0).2.2, []⟩
  have h₀ : Reachable (Init 32 100) Step s₀ := .start ⟨by decide, by decide, rfl, fun _ => 0, 0, rfl⟩
  have hr : (best_fit_alloc 2 s₀.haper s₀.mem 16).map (·.2) = some 52 := by decide
  obtain ⟨⟨m, r⟩, halloc, rfl⟩ := Option.map_eq_some_iff.1 hr
  obtain ⟨ps, -, -, -, hall, -⟩ := heap_coalesces (h₀.next (.best_fit 2 16 halloc)) (Nat.le_refl _)
  exact ⟨_, rfl, hall [52] (.refl _)⟩

end Reachable

end McLinOS.Heap
