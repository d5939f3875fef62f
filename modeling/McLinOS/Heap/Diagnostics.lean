import Mathlib.Algebra.BigOperators.Fin
import Mathlib.Order.Interval.Finset.Nat
import McLinOS.Heap.HapersTheorems
/-!
# Heap diagnostics

`get_global_heap_size` adds up the free blocks of all heaps, and
`check_haper_completeness` looks at the magic number of every block. In a state the
kernel can reach the first accounts for all memory and the second finds nothing.
After an overrun it finds the heap of the header that was hit. Neither takes
`haper->lock`, so what is said here is about a walk between two calls.
-/
open CLib McLinOS.Heap

namespace McLinOS.Heap

/-! ## mempool_super_haper.h -/

def memory_block_free_size_counter (m : Mem) (block size : Nat) : Nat × Nat :=
  if block = 0 then (0, size)
  else (1, if get_block_status m block use_flag = 0 then u32 (size + get_block_size m block) else size)

def get_free_space (fuel : Nat) (haper : haper2) (m : Mem) : Option Nat :=
  memory_block_laterator fuel haper m (memory_block_free_size_counter m) 0

/-- A flag that is set ends the walk. -/
def check_blocks (m : Mem) (block flag : Nat) : Nat × Nat :=
  if flag = 1 then (0, flag) else if magic m block ≠ BASE_MAGIC then (0, 1) else (1, flag)

def check_blocks_completeness (fuel : Nat) (haper : haper2) (m : Mem) : Option Nat :=
  memory_block_laterator fuel haper m (check_blocks m) 0

/-! ## Bytes of a partition -/

/-- The bytes of the free blocks. -/
def freeBytes (ps : List Part) : Nat := (ps.map fun p => if p.used then 0 else p.size).sum

/-- The bytes of the used blocks. -/
def usedBytes (ps : List Part) : Nat := (ps.map fun p => if p.used then p.size else 0).sum

theorem freeBytes_append (ps qs : List Part) : freeBytes (ps ++ qs) = freeBytes ps + freeBytes qs := by
  simp [freeBytes]

theorem split_bytes (ps : List Part) : freeBytes ps + usedBytes ps + 20 * ps.length = span ps := by
  induction ps with
  | nil => rfl
  | cons p ps ih =>
    have hfree : freeBytes (p :: ps) = (if p.used then 0 else p.size) + freeBytes ps := rfl
    have hused : usedBytes (p :: ps) = (if p.used then p.size else 0) + usedBytes ps := rfl
    rw [hfree, hused, span_cons, ← ih, List.length_cons]
    split <;> omega

theorem usedAt_sum (a : Nat) (ps : List Part) : ((usedAt a ps).map (·.2)).sum = usedBytes ps := by
  induction ps generalizing a with
  | nil => rfl
  | cons p ps ih =>
    have hused : usedBytes (p :: ps) = (if p.used then p.size else 0) + usedBytes ps := rfl
    rw [usedAt, List.map_append, List.sum_append, ih, hused]
    split <;> rfl

/-! ## One heap -/

section Walks
variable {m m' : Mem} {haper : haper2} {ps : List Part} {fuel : Nat}

theorem get_free_space_spec (h : Holds m haper.start_addr ps) (hf : ps.length < fuel) :
    get_free_space fuel haper m = some (freeBytes ps) := by
  have hlow := h.low
  have hhigh := h.high
  obtain ⟨_, hl, rfl⟩ : ∃ r, get_free_space fuel haper m = some r ∧ r = freeBytes ps := by
    unfold get_free_space memory_block_laterator
    refine seg_walk (fun xs size => size = freeBytes xs) (fun r => r = freeBytes ps) h.seg h.nonempty ?_
      (fun size h => ⟨size, rfl, h⟩) rfl hf
    rintro xs p ys _ rfl rfl
    have hcurr : haper.start_addr + span xs ≠ 0 := by omega
    have hd := hdr_at h.seg
    refine .inr ⟨freeBytes (xs ++ [p]), ?_, rfl⟩
    -- What is counted lies in the space, so the sum does not wrap.
    have hsplit := split_bytes (xs ++ p :: ys)
    have hsum : freeBytes (xs ++ [p]) = freeBytes xs + if p.used then 0 else p.size := by simp [freeBytes]
    have hall : freeBytes (xs ++ p :: ys) = freeBytes (xs ++ [p]) + freeBytes ys := by
      rw [← freeBytes_append, List.append_assoc, List.singleton_append]
    have hcount : (memory_block_free_size_counter m (haper.start_addr + span xs) (freeBytes xs)) =
        (1, freeBytes (xs ++ [p])) := by
      rw [memory_block_free_size_counter, if_neg hcurr, hd.status, get_block_size, hd.size, hsum]
      rcases p with ⟨n, _ | _⟩
      · simp only [Bool.false_eq_true, if_false, if_true]
        rw [u32_of_lt]
        simp only [Bool.false_eq_true, if_false] at hsum
        omega
      · simp
    simp only [if_neg hcurr, hcount]
    rfl
  exact hl

/-- The walk goes over the chain of `m`, whose links `m'` has too. -/
theorem check_blocks_spec (h : Holds m haper.start_addr ps)
    (hnext : ∀ b ∈ addrs haper.start_addr ps, next m' b = next m b) (hf : ps.length < fuel) :
    ∃ flag, check_blocks_completeness fuel haper m' = some flag ∧
      (flag = 0 ∧ (∀ b ∈ addrs haper.start_addr ps, magic m' b = BASE_MAGIC) ∨
        flag = 1 ∧ ∃ b ∈ addrs haper.start_addr ps, magic m' b ≠ BASE_MAGIC) := by
  have hlow := h.low
  unfold check_blocks_completeness memory_block_laterator
  refine seg_walk (fun xs flag => flag = 0 ∧ ∀ b ∈ addrs haper.start_addr xs, magic m' b = BASE_MAGIC) _ h.seg h.nonempty
    ?_ (fun flag hi => ⟨flag, rfl, .inl hi⟩) ⟨rfl, by simp [addrs]⟩ hf
  rintro xs p ys _ rfl ⟨rfl, hgood⟩
  have hcurr : haper.start_addr + span xs ≠ 0 := by omega
  have hmem : haper.start_addr + span xs ∈ addrs haper.start_addr (xs ++ p :: ys) := by
    rw [addrs_append]
    exact List.mem_append_right _ List.mem_cons_self
  by_cases hmagic : magic m' (haper.start_addr + span xs) = BASE_MAGIC
  · refine .inr ⟨0, ?_, rfl, ?_⟩
    · simp only [if_neg hcurr, check_blocks, hmagic, hnext _ hmem]
      simp
    · rw [addrs_append]
      intro b hb
      rcases List.mem_append.1 hb with hb | hb
      · exact hgood b hb
      · rwa [List.mem_singleton.1 hb]
  · refine .inl ⟨1, ?_, .inr ⟨rfl, _, hmem, hmagic⟩⟩
    simp only [if_neg hcurr, check_blocks, if_pos hmagic]
    simp

end Walks

/-- The live allocations fill the used blocks. -/
theorem live_bytes {space memory_size : Nat} {s : Sys} {ps : List Part} (hi : Inv space memory_size s ps) :
    (s.live.map (payload_size s.mem)).sum = usedBytes ps := by
  have hperm := (hi.live_perm.map fun ptr => block_size s.mem (ptr - sizeof_memory_block)).sum_eq
  rw [List.map_map, List.map_map] at hperm
  refine hperm.trans ?_
  rw [← usedAt_sum space ps]
  refine congrArg List.sum (List.map_congr_left fun e he => ?_)
  exact block_size_at hi.holds he

end McLinOS.Heap

namespace McLinOS.Hapers

/-! ## haper.c -/

def get_global_heap_size (fuel : Nat) (hapers : Haper → haper2) (m : Mem) : Option Nat :=
  (List.finRange haper_count).foldlM
    (fun total_size i => (get_free_space fuel (hapers i) m).map fun j => u32 (total_size + j)) 0

/-- The sum of the flags, and the heaps `pr_err` names. -/
def check_haper_completeness (fuel : Nat) (hapers : Haper → haper2) (m : Mem) : Option (Nat × List Haper) :=
  (List.finRange haper_count).foldlM (fun r i =>
    (check_blocks_completeness fuel (hapers i) m).map fun j => (r.1 + j, if j > 0 then r.2 ++ [i] else r.2)) (0, [])

/-! ## Loops over the heaps -/

section Loops
variable {ι : Type} {check : ι → Option Nat} {size : ι → Nat} {bad : ι → Prop} [DecidablePred bad]

/-- A sum that fits does not wrap on the way. -/
theorem sum_loop (is : List ι) (h : ∀ i ∈ is, check i = some (size i)) {total : Nat}
    (hfit : total + (is.map size).sum < 2 ^ 32) :
    is.foldlM (fun total i => (check i).map fun j => u32 (total + j)) total = some (total + (is.map size).sum) := by
  induction is generalizing total with
  | nil => rfl
  | cons i is ih =>
    rw [List.map_cons, List.sum_cons] at hfit
    have hnext : u32 (total + size i) = total + size i := u32_of_lt (by omega)
    have hrest := ih (fun j hj => h j (List.mem_cons_of_mem i hj)) (show total + size i + (is.map size).sum < 2 ^ 32 by omega)
    rw [List.foldlM_cons, h i List.mem_cons_self, Option.map_some, hnext, List.map_cons, List.sum_cons, ← Nat.add_assoc]
    exact hrest

theorem flag_loop (is : List ι) (h : ∀ i ∈ is, check i = some (if bad i then 1 else 0)) (flag : Nat) (errs : List ι) :
    is.foldlM (fun r i => (check i).map fun j => (r.1 + j, if j > 0 then r.2 ++ [i] else r.2)) (flag, errs) =
      some (flag + (is.filter bad).length, errs ++ is.filter bad) := by
  induction is generalizing flag errs with
  | nil => simp
  | cons i is ih =>
    have hrest := ih fun j hj => h j (List.mem_cons_of_mem i hj)
    rw [List.foldlM_cons, h i List.mem_cons_self]
    by_cases hi : bad i
    · simp [hi, hrest, Nat.add_assoc, Nat.add_comm 1]
    · simp [hi, hrest]

/-- Each element is counted at the one place it belongs to. -/
theorem sum_places {α : Type} [Fintype ι] [DecidableEq ι] (f : α → Nat) (ready : ι → Prop) [DecidablePred ready]
    (place : ι → α → Prop) [∀ i, DecidablePred (place i)] (l : List α)
    (h : ∀ e ∈ l, ∃ i, (ready i ∧ place i e) ∧ ∀ j, ready j → place j e → j = i) :
    (∑ i, if ready i then ((l.filter fun e => place i e).map f).sum else 0) = (l.map f).sum := by
  induction l with
  | nil => simp
  | cons e l ih =>
    obtain ⟨i, ⟨hready, hplace⟩, huniq⟩ := h e List.mem_cons_self
    have hsplit : ∀ j, (if ready j then (((e :: l).filter fun e => place j e).map f).sum else 0) =
        (if j = i then f e else 0) + if ready j then ((l.filter fun e => place j e).map f).sum else 0 := by
      intro j
      by_cases hj : ready j
      · by_cases hp : place j e
        · obtain rfl := huniq j hj hp
          simp [hj, hp]
        · have hne : j ≠ i := fun hji => hp (hji ▸ hplace)
          simp [hj, hp, hne]
      · have hne : j ≠ i := fun hji => hj (hji ▸ hready)
        simp [hj, hne]
    rw [Finset.sum_congr rfl fun j _ => hsplit j, Finset.sum_add_distrib,
      ih fun e' he' => h e' (List.mem_cons_of_mem e he'), Finset.sum_ite_eq']
    simp

end Loops

/-! ## All heaps -/

section Accounts
variable {cfg : Config} {S : State} {fuel : Nat}

/-- Heap `i` has been set up. -/
def SetUp (S : State) (i : Haper) : Prop := (S.hapers i).start_addr ≠ 0

instance (S : State) : DecidablePred (SetUp S) := fun _ => inferInstanceAs (Decidable (_ ≠ _))

/-- The spaces that were set up lie apart, so together they are shorter than the
address space. -/
theorem spaces_fit (h : Inv cfg S) : (∑ i, if SetUp S i then cfg.memory_size i else 0) < 2 ^ 32 := by
  have hroom : ∀ i, SetUp S i → sizeof_memory_block ≤ cfg.memory_size i := fun i hi =>
    let ⟨_, hready⟩ := (h.heap i).resolve_left hi
    hready.room
  let space : Haper → Finset Nat := fun i =>
    if SetUp S i then Finset.Ico (cfg.space i) (cfg.space i + cfg.memory_size i) else ∅
  have hcard : ∀ i, (space i).card = if SetUp S i then cfg.memory_size i else 0 := by
    intro i
    by_cases hi : SetUp S i
    · simp [space, hi]
    · simp [space, hi]
  have hmem : ∀ i x, x ∈ space i ↔ SetUp S i ∧ In cfg i x := by
    intro i x
    by_cases hi : SetUp S i
    · simp [space, hi, In]
    · simp [space, hi]
  have hdisjoint : ∀ i ∈ (Finset.univ : Finset Haper), ∀ j ∈ Finset.univ, i ≠ j → Disjoint (space i) (space j) := by
    intro i _ j _ hne
    refine Finset.disjoint_left.2 fun x hxi hxj => hne ?_
    obtain ⟨hi, hxi⟩ := (hmem i x).1 hxi
    obtain ⟨hj, hxj⟩ := (hmem j x).1 hxj
    exact in_unique (hroom i hi) (hroom j hj) hxi hxj
  have hinside : Finset.univ.biUnion space ⊆ Finset.Ico 32 (2 ^ 32) := by
    intro x hx
    obtain ⟨i, -, hxi⟩ := Finset.mem_biUnion.1 hx
    obtain ⟨hi, hlo, hhi⟩ := (hmem i x).1 hxi
    have hlow := cfg.low i (hroom i hi)
    have hhigh := cfg.high i (hroom i hi)
    exact Finset.mem_Ico.2 ⟨by omega, by omega⟩
  have hle := Finset.card_le_card hinside
  rw [Finset.card_biUnion hdisjoint, Nat.card_Ico, Finset.sum_congr rfl fun i _ => hcard i] at hle
  omega

/-- The partitions of all heaps; a heap that is not set up has no blocks. -/
theorem Inv.parts (h : Inv cfg S) : ∃ parts : Haper → List Part, ∀ i, Partition (S.hapers i) S.mem (parts i) ∧
    (¬SetUp S i ∧ parts i = [] ∨ SetUp S i ∧ Ready cfg S i (parts i)) := by
  have hone : ∀ i, ∃ ps, Partition (S.hapers i) S.mem ps ∧ (¬SetUp S i ∧ ps = [] ∨ SetUp S i ∧ Ready cfg S i ps) := by
    intro i
    rcases h.heap i with hi | ⟨ps, hi⟩
    · exact ⟨[], (untouched_partition hi S.mem).2 rfl, .inl ⟨not_not.2 hi, rfl⟩⟩
    · exact ⟨ps, hi.partition, .inr ⟨hi.start_ne, hi⟩⟩
  exact ⟨fun i => (hone i).choose, fun i => (hone i).choose_spec⟩

theorem Ready.length_lt {i : Haper} {ps : List Part} (h : Ready cfg S i ps) (hfuel : cfg.memory_size i + 4 ≤ fuel) :
    ps.length < fuel := by
  have hspan := length_le_span ps
  have htotal := h.inv.total
  omega

/-- A walk over a heap that is not set up ends at once. -/
theorem untouched_walk {δ : Type} {haper : haper2} (h : haper.start_addr = 0) (hf : 0 < fuel) (m : Mem)
    (operation : Nat → δ → Nat × δ) (data : δ) : memory_block_laterator fuel haper m operation data = some data := by
  obtain ⟨fuel, rfl⟩ : ∃ k, fuel = k + 1 := ⟨fuel - 1, by omega⟩
  rw [memory_block_laterator, h]
  apply loop_done
  rfl

/-- `get_global_heap_size` is the size of the free blocks of all heaps, and with the
blocks of the live allocations and 20 bytes for each header this is all the memory that
was set up. -/
theorem memory_accounted (h : Reachable Boot (Step cfg) S) (hfuel : ∀ i, cfg.memory_size i + 4 ≤ fuel) :
    ∃ parts : Haper → List Part, (∀ i, Partition (S.hapers i) S.mem (parts i)) ∧
      get_global_heap_size fuel S.hapers S.mem = some (∑ i, freeBytes (parts i)) ∧
      (∑ i, freeBytes (parts i)) + (S.live.map (payload_size S.mem)).sum + sizeof_memory_block * ∑ i, (parts i).length =
        ∑ i, if SetUp S i then cfg.memory_size i else 0 := by
  have hi := reachable_inv h
  obtain ⟨parts, hparts⟩ := hi.parts
  have hheap : ∀ i, freeBytes (parts i) +
      (if SetUp S i then ((S.live.filter fun e => In cfg i e.ptr).map (payload_size S.mem)).sum else 0) +
        20 * (parts i).length = if SetUp S i then cfg.memory_size i else 0 := by
    intro i
    rcases (hparts i).2 with ⟨hset, hnil⟩ | ⟨hset, hready⟩
    · rw [if_neg hset, if_neg hset, hnil]
      rfl
    · have hlive := live_bytes hready.inv
      have hsplit := split_bytes (parts i)
      have htotal := hready.inv.total
      rw [if_pos hset, if_pos hset, ← htotal, ← hsplit, ← hlive]
      rfl
  have hlive : (∑ i, if SetUp S i then ((S.live.filter fun e => In cfg i e.ptr).map (payload_size S.mem)).sum else 0) =
      (S.live.map (payload_size S.mem)).sum := by
    refine sum_places _ (SetUp S) (fun i (e : Alloc) => In cfg i e.ptr) S.live fun e he => ?_
    obtain ⟨i, ps, hready, hin⟩ := hi.owned e he
    refine ⟨i, ⟨hready.start_ne, hin⟩, fun j hj hinj => ?_⟩
    obtain ⟨qs, hj⟩ := (hi.heap j).resolve_left hj
    exact in_unique hj.room hready.room hinj hin
  have hsum : (∑ i, freeBytes (parts i)) + (S.live.map (payload_size S.mem)).sum + 20 * ∑ i, (parts i).length =
      ∑ i, if SetUp S i then cfg.memory_size i else 0 := by
    rw [← hlive, Finset.mul_sum, ← Finset.sum_add_distrib, ← Finset.sum_add_distrib]
    exact Finset.sum_congr rfl fun i _ => hheap i
  refine ⟨parts, fun i => (hparts i).1, ?_, hsum⟩
  have hcheck : ∀ i ∈ List.finRange haper_count, get_free_space fuel (S.hapers i) S.mem = some (freeBytes (parts i)) := by
    intro i _
    have hf := hfuel i
    rcases (hparts i).2 with ⟨hset, hnil⟩ | ⟨-, hready⟩
    · rw [hnil, get_free_space, untouched_walk (not_not.1 hset) (by omega)]
      rfl
    · exact get_free_space_spec (hready.inv.start_addr ▸ hready.inv.holds) (hready.length_lt hf)
  have hspaces := spaces_fit hi
  have hdef : ((List.finRange haper_count).map fun i => freeBytes (parts i)).sum = ∑ i, freeBytes (parts i) :=
    (Fin.sum_univ_def fun i => freeBytes (parts i)).symm
  have hfit : 0 + ((List.finRange haper_count).map fun i => freeBytes (parts i)).sum < 2 ^ 32 := by omega
  rw [get_global_heap_size, sum_loop _ hcheck hfit, hdef, Nat.zero_add]

end Accounts

/-- In the small heap, after 24 bytes were asked for. -/
theorem small_taken : ∃ S, Reachable Boot (Step small_config) S ∧ S.live = [⟨52, 24⟩] ∧ payload_size S.mem ⟨52, 24⟩ = 24 := by
  have hr : (__smalloc__ 104 small_config small_heap.hapers small_heap.mem 24 GFP_NOWAIT).map
      (fun r => (r.2, block_size r.1 32)) = some (52, 24) := by decide
  obtain ⟨⟨m, r⟩, halloc, hvalues⟩ := Option.map_eq_some_iff.1 hr
  obtain ⟨rfl, hsize⟩ := Prod.mk.inj hvalues
  exact ⟨_, small_heap_reachable.next (.smalloc 104 24 GFP_NOWAIT (by decide) halloc), rfl, hsize⟩

theorem memory_accounted_small : ∃ S : State, S.live = [⟨52, 24⟩] ∧
    ∃ parts : Haper → List Heap.Part, (∀ i, Partition (S.hapers i) S.mem (parts i)) ∧
      get_global_heap_size 104 S.hapers S.mem = some (∑ i, freeBytes (parts i)) ∧
      (∑ i, freeBytes (parts i)) + (S.live.map (payload_size S.mem)).sum + sizeof_memory_block * ∑ i, (parts i).length =
        ∑ i, if SetUp S i then small_config.memory_size i else 0 :=
  let ⟨S, hS, hlive, _⟩ := small_taken
  ⟨S, hlive, memory_accounted hS small_fuel⟩

/-! ## Damaged headers -/

section Damage
variable {cfg : Config} {S : State} {fuel : Nat}

/-- Some header of heap `i` has not got its magic number in `m`. -/
def Damaged (S : State) (m : Mem) (i : Haper) : Prop :=
  ∃ ps, Partition (S.hapers i) S.mem ps ∧ ∃ b ∈ addrs (S.hapers i).start_addr ps, magic m b ≠ BASE_MAGIC

/-- The chains of all heaps are the same in `m`. -/
def SameLinks (S : State) (m : Mem) : Prop :=
  ∀ i ps, Partition (S.hapers i) S.mem ps → ∀ b ∈ addrs (S.hapers i).start_addr ps, next m b = next S.mem b

open Classical in
theorem check_spec (h : Inv cfg S) (hfuel : ∀ i, cfg.memory_size i + 4 ≤ fuel) {m : Mem} (hlinks : SameLinks S m) :
    check_haper_completeness fuel S.hapers m =
      some (((List.finRange haper_count).filter fun i => Damaged S m i).length,
        (List.finRange haper_count).filter fun i => Damaged S m i) := by
  obtain ⟨parts, hparts⟩ := h.parts
  have hflag : ∀ i ∈ List.finRange haper_count,
      check_blocks_completeness fuel (S.hapers i) m = some (if Damaged S m i then 1 else 0) := by
    intro i _
    have hf := hfuel i
    rcases (hparts i).2 with ⟨hset, hnil⟩ | ⟨-, hready⟩
    · have hnone : ¬Damaged S m i := by
        rintro ⟨ps, hps, b, hb, -⟩
        rw [partition_unique hps (hparts i).1, hnil] at hb
        cases hb
      rw [if_neg hnone, check_blocks_completeness, untouched_walk (not_not.1 hset) (by omega)]
    · obtain ⟨flag, hflag, ⟨rfl, hgood⟩ | ⟨rfl, hbad⟩⟩ := check_blocks_spec (hready.inv.start_addr ▸ hready.inv.holds)
        (hlinks i (parts i) (hparts i).1) (hready.length_lt hf)
      · have hnone : ¬Damaged S m i := by
          rintro ⟨ps, hps, b, hb, hmagic⟩
          rw [partition_unique hps (hparts i).1] at hb
          exact hmagic (hgood b hb)
        rw [hflag, if_neg hnone]
      · rw [hflag, if_pos ⟨parts i, (hparts i).1, hbad⟩]
  rw [check_haper_completeness, flag_loop _ hflag, Nat.zero_add, List.nil_append]

/-- No header of a heap the kernel works with is damaged. -/
theorem Inv.undamaged (h : Inv cfg S) (i : Haper) : ¬Damaged S S.mem i := by
  rintro ⟨ps, hps, b, hb, hmagic⟩
  rcases h.heap i with hi | ⟨qs, hi⟩
  · rw [(untouched_partition hi S.mem).1 hps] at hb
    cases hb
  · obtain rfl := partition_unique hps hi.partition
    have hstart : (S.hapers i).start_addr = cfg.space i := hi.inv.start_addr
    rw [hstart] at hb
    exact hmagic (hi.inv.holds.seg.magic_all b hb)

/-- The check finds nothing in any state the kernel can reach. In a memory whose chains
are still whole it counts and names the heaps with a damaged header, and no others. -/
theorem damage_found (h : Reachable Boot (Step cfg) S) (hfuel : ∀ i, cfg.memory_size i + 4 ≤ fuel) :
    check_haper_completeness fuel S.hapers S.mem = some (0, []) ∧
    ∀ m, SameLinks S m → ∃ broken, check_haper_completeness fuel S.hapers m = some (broken.length, broken) ∧
      broken.Pairwise (· < ·) ∧ ∀ i, i ∈ broken ↔ Damaged S m i := by
  classical
  have hi := reachable_inv h
  refine ⟨?_, fun m hlinks => ⟨_, check_spec hi hfuel hlinks, ?_, fun i => ?_⟩⟩
  · have hnone : (List.finRange haper_count).filter (fun i => Damaged S S.mem i) = [] :=
      List.filter_eq_nil_iff.2 fun i _ => by simpa using hi.undamaged i
    rw [check_spec hi hfuel fun _ _ _ _ _ => rfl, hnone]
    rfl
  · exact (List.pairwise_lt_finRange haper_count).filter _
  · rw [List.mem_filter, decide_eq_true_iff]
    exact and_iff_right (List.mem_finRange i)

theorem damage_found_small : ∃ S : State, S.live = [⟨52, 24⟩] ∧
    check_haper_completeness 104 S.hapers S.mem = some (0, []) :=
  let ⟨S, hS, hlive, _⟩ := small_taken
  ⟨S, hlive, (damage_found hS small_fuel).1⟩

/-! ## Overruns -/

/-- Two headers of one heap are one or lie apart. -/
theorem addrs_apart {a b c : Nat} {ps : List Heap.Part} (hb : b ∈ addrs a ps) (hc : c ∈ addrs a ps) :
    b = c ∨ b + 20 ≤ c ∨ c + 20 ≤ b := by
  obtain ⟨xs, p, ys, hps, rfl⟩ := mem_addrs hb
  obtain ⟨us, q, vs, hqs, rfl⟩ := mem_addrs hc
  rcases split_apart (hps.symm.trans hqs) with h | h | ⟨rfl, -, -⟩
  · exact .inr (.inl (by omega))
  · exact .inr (.inr (by omega))
  · exact .inl rfl

theorem magic_iff {m : Mem} {b : Nat} : magic m b = BASE_MAGIC ↔ m (b + 2) = 0xCD ∧ m (b + 3) = 0xAB := by
  have hlow := (m (b + 2)).toNat_lt
  have hhigh := (m (b + 3)).toNat_lt
  have hload : magic m b = (m (b + 2)).toNat + 256 * (m (b + 3)).toNat := rfl
  rw [hload, BASE_MAGIC, ← UInt8.toNat_inj, ← UInt8.toNat_inj]
  show _ ↔ (m (b + 2)).toNat = 205 ∧ (m (b + 3)).toNat = 171
  omega

/-- A header keeps its magic number when its first bytes are overwritten unless the third
or the fourth changes. -/
theorem magic_overwritten {m : Mem} {b : Nat} (h : magic m b = BASE_MAGIC) (bs : List UInt8) :
    magic (Mem.copy m b bs) b = BASE_MAGIC ↔ bs.getD 2 0xCD = 0xCD ∧ bs.getD 3 0xAB = 0xAB := by
  obtain ⟨hlow, hhigh⟩ := magic_iff.1 h
  have hread : ∀ k c, m (b + k) = c → Mem.copy m b bs (b + k) = bs.getD k c := by
    intro k c hk
    unfold Mem.copy
    by_cases hlt : k < bs.length
    · rw [if_pos ⟨by omega, by omega⟩, Nat.add_sub_cancel_left, List.getD_eq_getElem _ _ hlt, List.getD_eq_getElem _ _ hlt]
    · rw [if_neg (by omega), hk, List.getD_eq_default _ _ (by omega)]
  rw [magic_iff, hread 2 _ hlow, hread 3 _ hhigh]

/-- The header behind the block of a live allocation that is not the last of its heap. -/
theorem Inv.next_header (h : Inv cfg S) {e : Alloc} (he : e ∈ S.live) :
    ∃ i ps, Ready cfg S i ps ∧ In cfg i e.ptr ∧
      (e.ptr + payload_size S.mem e < cfg.space i + cfg.memory_size i →
        e.ptr + payload_size S.mem e ∈ addrs (S.hapers i).start_addr ps) := by
  obtain ⟨i, ps, hi, hmem⟩ := h.mem_view he
  refine ⟨i, ps, hi, by simpa using (List.mem_filter.1 hmem).2, fun hlast => ?_⟩
  have hstart : (S.hapers i).start_addr = cfg.space i := hi.inv.start_addr
  have htotal := hi.inv.total
  obtain ⟨b, hb, hptr, -⟩ := live_block hi.inv hmem
  have hsize : payload_size (view cfg S i).mem e = payload_size S.mem e := rfl
  rw [hsize] at hb
  obtain ⟨xs, ys, hps, hbx⟩ := mem_usedAt.1 hb
  dsimp only at hps hbx
  rw [hps, span_append, span_cons] at htotal
  dsimp only at htotal
  rcases ys with _ | ⟨q, ys⟩
  · rw [span_nil] at htotal
    omega
  · have haddr : e.ptr + payload_size S.mem e = cfg.space i + span (xs ++ [⟨payload_size S.mem e, true⟩]) := by
      simp only [span_append, span_cons, span_nil]
      omega
    rw [hstart, hps, haddr, List.append_cons, addrs_append]
    exact List.mem_append_right _ List.mem_cons_self

/-- A header lies in the space of its heap. -/
theorem Ready.header_in {i : Haper} {ps : List Heap.Part} (h : Ready cfg S i ps) {b : Nat}
    (hb : b ∈ addrs (S.hapers i).start_addr ps) : cfg.space i ≤ b ∧ b + 20 ≤ cfg.space i + cfg.memory_size i := by
  have hstart : (S.hapers i).start_addr = cfg.space i := h.inv.start_addr
  have htotal := h.inv.total
  rw [hstart] at hb
  have hbounds := addrs_bounds hb
  omega

/-- Bytes written to the header at `b` of heap `i` reach no other header. -/
theorem Inv.other_header (h : Inv cfg S) {i j : Haper} {ps qs : List Heap.Part} (hi : Ready cfg S i ps) {b c : Nat}
    (hb : b ∈ addrs (S.hapers i).start_addr ps) (hq : Partition (S.hapers j) S.mem qs)
    (hc : c ∈ addrs (S.hapers j).start_addr qs) {bs : List UInt8} (hlen : bs.length ≤ 12) :
    j = i ∧ c = b ∨ Agree S.mem (Mem.copy S.mem b bs) c (c + 20) := by
  obtain ⟨rs, hj⟩ : ∃ rs, Ready cfg S j rs := by
    refine (h.heap j).resolve_left fun hj => ?_
    rw [(untouched_partition hj S.mem).1 hq] at hc
    cases hc
  obtain rfl := partition_unique hq hj.partition
  by_cases hji : j = i
  · subst hji
    obtain rfl := partition_unique hq hi.partition
    rcases addrs_apart hc hb with rfl | hapart
    · exact .inl ⟨rfl, rfl⟩
    · exact .inr fun x h1 h2 => Mem.copy_apply_ne (by omega)
  · have hbin := hi.header_in hb
    have hcin := hj.header_in hc
    have hapart := cfg.apart j i hji hj.room hi.room
    exact .inr fun x h1 h2 => Mem.copy_apply_ne (by omega)

/-- When an owner writes on behind its block, over at most the first 12 bytes of the next
header, the check finds that heap if the third or the fourth byte changes, and else
nothing. One byte or two are never noticed. -/
theorem overrun_found (h : Reachable Boot (Step cfg) S) (hfuel : ∀ i, cfg.memory_size i + 4 ≤ fuel) {e : Alloc}
    (he : e ∈ S.live) : ∃ i, SetUp S i ∧ In cfg i e.ptr ∧
      (e.ptr + payload_size S.mem e < cfg.space i + cfg.memory_size i → ∀ bs : List UInt8, bs.length ≤ 12 →
        check_haper_completeness fuel S.hapers (Mem.copy S.mem (e.ptr + payload_size S.mem e) bs) =
          some (if bs.getD 2 0xCD = 0xCD ∧ bs.getD 3 0xAB = 0xAB then (0, []) else (1, [i]))) := by
  classical
  have hinv := reachable_inv h
  obtain ⟨i, ps, hi, hin, hnext⟩ := hinv.next_header he
  refine ⟨i, hi.start_ne, hin, fun hlast bs hlen => ?_⟩
  have hb := hnext hlast
  generalize e.ptr + payload_size S.mem e = b at hb
  have hlinks : SameLinks S (Mem.copy S.mem b bs) := by
    intro j qs hq c hc
    rcases hinv.other_header hi hb hq hc hlen with ⟨-, rfl⟩ | hagree
    · exact Mem.load_congr fun x h1 h2 => Mem.copy_apply_ne (by omega)
    · exact hagree.load (by omega) (by omega)
  have hmagic : magic S.mem b = BASE_MAGIC := by
    by_contra hbad
    exact hinv.undamaged i ⟨ps, hi.partition, b, hb, hbad⟩
  -- Only the header behind the block can be damaged.
  have hdamaged : ∀ j, Damaged S (Mem.copy S.mem b bs) j ↔ j = i ∧ ¬(bs.getD 2 0xCD = 0xCD ∧ bs.getD 3 0xAB = 0xAB) := by
    intro j
    rw [← magic_overwritten hmagic bs]
    constructor
    · rintro ⟨qs, hq, c, hc, hbad⟩
      rcases hinv.other_header hi hb hq hc hlen with ⟨hji, rfl⟩ | hagree
      · exact ⟨hji, hbad⟩
      · refine absurd ⟨qs, hq, c, hc, ?_⟩ (hinv.undamaged j)
        rwa [magic, hagree.load (by omega) (by omega)] at hbad
    · rintro ⟨rfl, hbad⟩
      exact ⟨ps, hi.partition, b, hb, hbad⟩
  have hone : ∀ i : Haper, (List.finRange haper_count).filter (fun j => j = i) = [i] := by decide
  rw [check_spec hinv hfuel hlinks]
  split
  · rename_i hsame
    have hnone : (List.finRange haper_count).filter (fun j => Damaged S (Mem.copy S.mem b bs) j) = [] :=
      List.filter_eq_nil_iff.2 fun j _ => by simpa only [hdamaged, decide_eq_true_iff] using fun hj => hj.2 hsame
    rw [hnone]
    rfl
  · rename_i hchanged
    have hfound : (List.finRange haper_count).filter (fun j => Damaged S (Mem.copy S.mem b bs) j) = [i] := by
      rw [← hone i]
      exact List.filter_congr fun j _ => by simp only [hdamaged, hchanged, not_false_iff, and_true]
    rw [hfound]
    rfl

/-- Four zeros behind the 24 bytes are found, one is not. -/
theorem overrun_found_small : ∃ S : State, S.live = [⟨52, 24⟩] ∧
    check_haper_completeness 104 S.hapers (Mem.copy S.mem 76 [0, 0, 0, 0]) = some (1, [memory_haper]) ∧
    check_haper_completeness 104 S.hapers (Mem.copy S.mem 76 [0]) = some (0, []) := by
  obtain ⟨S, hS, hlive, hsize⟩ := small_taken
  obtain ⟨i, -, hin, hfound⟩ := overrun_found hS small_fuel (e := ⟨52, 24⟩) (hlive ▸ List.mem_cons_self)
  have hmain : ∀ i, In small_config i 52 → i = memory_haper := by decide
  obtain rfl := hmain i hin
  rw [hsize] at hfound
  exact ⟨S, hlive, hfound (by decide) [0, 0, 0, 0] (by decide), hfound (by decide) [0] (by decide)⟩

end Damage

end McLinOS.Hapers
