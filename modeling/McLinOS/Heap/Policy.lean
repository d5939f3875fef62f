import McLinOS.Heap.Kmalloc
/-!
# Which block a call takes

Best fit takes the last of the smallest free blocks that are large enough, first
fit the first of the large enough ones. Both leave the other blocks as they are,
and no call touches the bytes of an allocation other than the one it frees.
-/
open CLib

namespace McLinOS.Heap

/-- First fit for `size` bytes takes the free block of `n` bytes between `xs` and
`ys`: nothing before it fits. -/
structure FirstFit (size : Nat) (ps xs : List Part) (n : Nat) (ys : List Part) : Prop where
  split : ps = xs ++ ⟨n, false⟩ :: ys
  fits : size ≤ n
  before : ∀ p ∈ xs, ¬Fits size p

/-- A policy tells which free block of `n` bytes, between `xs` and `ys`, a call for
`size` bytes takes. -/
abbrev Policy := Nat → List Part → List Part → Nat → List Part → Prop

/-- What a call that returned `r` made of the block its policy chose. Of the other
blocks it wrote the link back to this one only. -/
structure Takes (policy : Policy) (size slack : Nat) (haper : haper2) (m : Mem) (ps : List Part) (m' : Mem) (r : Nat)
    (xs : List Part) (n : Nat) (ys : List Part) : Prop where
  chosen : policy size ps xs n ys
  split : ps = xs ++ ⟨n, false⟩ :: ys
  fits : size ≤ n
  result : r = haper.start_addr + span xs + sizeof_memory_block
  whole : n < size + sizeof_memory_block + slack → Partition haper m' (xs ++ ⟨n, true⟩ :: ys)
  halved : size + sizeof_memory_block + slack ≤ n →
    Partition haper m' (xs ++ ⟨size, true⟩ :: ⟨n - (size + sizeof_memory_block), false⟩ :: ys)
  others : ∀ x, Outside (haper.start_addr + span xs) n (next m (haper.start_addr + span xs)) x → m' x = m x

/-- A call for `size` bytes on a heap in partition `ps`: `NULL` exactly when no free
block is large enough, and then nothing changed, or the block of the policy. -/
structure Allocates (policy : Policy) (size slack : Nat) (haper : haper2) (m : Mem) (ps : List Part) (m' : Mem)
    (r : Nat) : Prop where
  null : r = 0 ↔ ∀ p ∈ ps, ¬Fits size p
  unchanged : r = 0 → m' = m
  taken : r ≠ 0 → ∃ xs n ys, Takes policy size slack haper m ps m' r xs n ys

section Policy
variable {space memory_size size slack : Nat} {s : Sys} {ps : List Part} {m : Mem} {fuel r : Nat}

theorem FirstIn.first_fit {xs ys : List Part} {a n : Nat} (h : FirstIn a size ps (a + span xs)) (ha : 0 < a)
    (hsplit : ps = xs ++ ⟨n, false⟩ :: ys) : FirstFit size ps xs n ys := by
  rcases h with ⟨h0, -⟩ | ⟨us, k, vs, hs, hspan, hfit, hbefore⟩
  · omega
  · obtain ⟨rfl, hp, rfl⟩ := split_unique (hsplit.symm.trans hs) (by omega)
    obtain ⟨rfl, -⟩ := Part.mk.inj hp
    exact ⟨hsplit, hfit, hbefore⟩

theorem allotted_whole {n : Nat} (h : n < size + sizeof_memory_block + slack) : allotted n size slack = [⟨n, true⟩] :=
  if_neg (Nat.not_le.2 h)

theorem allotted_halved {n : Nat} (h : size + sizeof_memory_block + slack ≤ n) :
    allotted n size slack = [⟨size, true⟩, ⟨n - (size + sizeof_memory_block), false⟩] := by
  rw [Nat.add_comm size sizeof_memory_block, sizeof_memory_block]
  exact if_pos h

/-- Both allocators, told by the block their search found. -/
theorem allocates_of {policy : Policy} {b : Nat} (hi : Inv space memory_size s ps) (hs : 0 < size) (hslack : slack ≤ 8)
    (hb : Found space size ps b)
    (hpolicy : ∀ xs n ys, ps = xs ++ ⟨n, false⟩ :: ys → b = space + span xs → policy size ps xs n ys)
    (huse : use_block s.mem b size slack = (m, r)) : Allocates policy size slack s.haper s.mem ps m r := by
  have hlow := hi.holds.low
  rcases fit_alloc_spec slack hi.holds hs hslack hb with ⟨hnull, hnone⟩ | ⟨xs, n, ys, rfl, hall⟩
  · obtain ⟨rfl, rfl⟩ := Prod.mk.inj (hnull.symm.trans huse)
    exact ⟨iff_of_true rfl hnone, fun _ => rfl, fun h => absurd rfl h⟩
  · rw [huse] at hall
    obtain ⟨rfl, hn, rfl, hold⟩ := hall
    have hfits : Fits size ⟨n, false⟩ := ⟨rfl, hn⟩
    refine ⟨iff_of_false (by omega) fun hnone => hnone _ (by simp) hfits, fun h => absurd h (by omega), fun _ => ?_⟩
    rw [← hi.start_addr] at hold
    have hpart := holds_partition hold
    -- `use_block` cuts a rest off only if it is long enough for a header and `slack`.
    refine ⟨xs, n, ys, hpolicy xs n ys rfl rfl, rfl, hn, by rw [hi.start_addr]; rfl, ?_, ?_, ?_⟩
    · intro hlt
      rwa [allotted_whole hlt] at hpart
    · intro hle
      rwa [allotted_halved hle] at hpart
    · intro x hx
      rw [hi.start_addr] at hx
      rw [← (Prod.mk.inj huse).1]
      exact found_frame hi.holds hn hslack hx

theorem best_fit_allocates (hi : Inv space memory_size s ps) (hs : 0 < size)
    (h : best_fit_alloc fuel s.haper s.mem size = some (m, r)) :
    Allocates BestFit size minimum_size s.haper s.mem ps m r := by
  have hlow := hi.holds.low
  obtain ⟨b, hb, huse⟩ := best_fit_block hi hs h
  refine allocates_of hi hs (by decide) hb.found ?_ huse
  rintro xs n ys hsplit rfl
  exact hb.best_fit (by omega) hsplit

theorem first_fit_allocates (hi : Inv space memory_size s ps) (hs : 0 < size)
    (h : first_fit_alloc fuel s.haper s.mem size = some (m, r)) :
    Allocates FirstFit size 0 s.haper s.mem ps m r := by
  have hlow := hi.holds.low
  obtain ⟨b, hb, huse⟩ := first_fit_block hi hs h
  refine allocates_of hi hs (by decide) hb.found ?_ huse
  rintro xs n ys hsplit rfl
  exact hb.first_fit (by omega) hsplit

/-- In every reachable heap both calls return, and take the block of their policy. -/
theorem allocator_policy (h : Reachable (Init space memory_size) Step s) (hs : 0 < size)
    (hf : memory_size + 4 ≤ fuel) :
    ∃ ps, Partition s.haper s.mem ps ∧
      (∃ m r, best_fit_alloc fuel s.haper s.mem size = some (m, r) ∧
        Allocates BestFit size minimum_size s.haper s.mem ps m r) ∧
      ∃ m r, first_fit_alloc fuel s.haper s.mem size = some (m, r) ∧
        Allocates FirstFit size 0 s.haper s.mem ps m r := by
  obtain ⟨ps, hi⟩ := reachable_inv h
  obtain ⟨m, r, hbest⟩ := best_fit_returns hi hf size
  obtain ⟨m', r', hfirst⟩ := first_fit_returns hi hf size
  exact ⟨ps, inv_partition hi, ⟨m, r, hbest, best_fit_allocates hi hs hbest⟩, m', r', hfirst,
    first_fit_allocates hi hs hfirst⟩

/-- A heap of 100 bytes with one allocation in it is asked for 24 bytes more. -/
theorem allocator_policy_alloc : ∃ s : Sys, s.live = [⟨52, 16⟩] ∧ ∃ ps, Partition s.haper s.mem ps ∧
    (∃ m r, best_fit_alloc 104 s.haper s.mem 24 = some (m, r) ∧
      Allocates BestFit 24 minimum_size s.haper s.mem ps m r) ∧
    ∃ m r, first_fit_alloc 104 s.haper s.mem 24 = some (m, r) ∧ Allocates FirstFit 24 0 s.haper s.mem ps m r := by
  let s₀ : Sys := ⟨(haper2_init (fun _ => 0) 32 100 0).2.1, (haper2_init (fun _ => 0) 32 100 0).2.2, []⟩
  have h₀ : Reachable (Init 32 100) Step s₀ := .start ⟨by decide, by decide, rfl, fun _ => 0, 0, rfl⟩
  have hr : (best_fit_alloc 2 s₀.haper s₀.mem 16).map (·.2) = some 52 := by decide
  obtain ⟨⟨m, r⟩, halloc, rfl⟩ := Option.map_eq_some_iff.1 hr
  exact ⟨_, rfl, allocator_policy (h₀.next (.best_fit 2 16 halloc)) (by decide) (Nat.le_refl _)⟩

end Policy

/-! ## Other owners' bytes -/

/-- What the header before an allocation says of its size. -/
def payload_size (m : Mem) (e : Alloc) : Nat := block_size m (e.ptr - sizeof_memory_block)

/-- The payload of `e` is the same in both memories. -/
def SamePayload (m m' : Mem) (e : Alloc) : Prop := Agree m m' e.ptr (e.ptr + payload_size m e)

section Payload
variable {space memory_size : Nat} {s : Sys} {ps : List Part} {m : Mem} {fuel : Nat} {e : Alloc}

/-- The block an allocation lives in. -/
theorem live_block (hi : Inv space memory_size s ps) (he : e ∈ s.live) :
    ∃ b, (b, payload_size s.mem e) ∈ usedAt space ps ∧ e.ptr = b + 20 ∧ e.size ≤ payload_size s.mem e := by
  obtain ⟨-, b, n, hb, hptr, hn⟩ := hi.live_fits e he
  have hsize : payload_size s.mem e = n := by
    rw [payload_size, hptr, sizeof_memory_block, Nat.add_sub_cancel]
    exact block_size_at hi.holds hb
  rw [hsize]
  exact ⟨b, hb, hptr, hn⟩

theorem live_used (hi : Inv space memory_size s ps) (he : e ∈ s.live) {x : Nat} (hlo : e.ptr ≤ x)
    (hhi : x < e.ptr + payload_size s.mem e) : UsedByte space ps x := by
  obtain ⟨b, hb, hptr, -⟩ := live_block hi he
  exact ⟨b, _, hb, by omega, by omega⟩

theorem best_fit_payload (hi : Inv space memory_size s ps) {size r : Nat}
    (h : best_fit_alloc fuel s.haper s.mem size = some (m, r)) (he : e ∈ s.live) : SamePayload s.mem m e :=
  fun _ hlo hhi => best_fit_kept hi h (.inr (.inl (live_used hi he hlo hhi)))

theorem first_fit_payload (hi : Inv space memory_size s ps) {size r : Nat}
    (h : first_fit_alloc fuel s.haper s.mem size = some (m, r)) (he : e ∈ s.live) : SamePayload s.mem m e :=
  fun _ hlo hhi => first_fit_kept hi h (.inr (.inl (live_used hi he hlo hhi)))

theorem free_payload (hi : Inv space memory_size s ps) {ptr : Nat} {rc : Int} (hlt : ptr < 2 ^ 32)
    (h : free_haper_block fuel s.haper s.mem ptr = some (m, rc)) (he : e ∈ s.live) (hne : e.ptr ≠ ptr) :
    SamePayload s.mem m e := by
  obtain ⟨b, hb, hptr, -⟩ := live_block hi he
  intro x hlo hhi
  exact free_frame hi hlt h hb (by omega) (by omega) (by omega)

/-- In every reachable heap the calls leave the payload of every allocation alone
but that of the one they free. -/
theorem payloads_kept (h : Reachable (Init space memory_size) Step s) (hf : memory_size + 4 ≤ fuel) :
    (∀ e ∈ s.live, e.size ≤ payload_size s.mem e) ∧
    (∀ size, ∃ m r, best_fit_alloc fuel s.haper s.mem size = some (m, r) ∧ ∀ e ∈ s.live, SamePayload s.mem m e) ∧
    (∀ size, ∃ m r, first_fit_alloc fuel s.haper s.mem size = some (m, r) ∧ ∀ e ∈ s.live, SamePayload s.mem m e) ∧
    ∀ ptr < 2 ^ 32, ∃ m rc, free_haper_block fuel s.haper s.mem ptr = some (m, rc) ∧
      ∀ e ∈ s.live, e.ptr ≠ ptr → SamePayload s.mem m e := by
  obtain ⟨ps, hi⟩ := reachable_inv h
  refine ⟨?_, ?_, ?_, ?_⟩
  · intro e he
    obtain ⟨b, -, -, hle⟩ := live_block hi he
    exact hle
  · intro size
    obtain ⟨m, r, hm⟩ := best_fit_returns hi hf size
    exact ⟨m, r, hm, fun e he => best_fit_payload hi hm he⟩
  · intro size
    obtain ⟨m, r, hm⟩ := first_fit_returns hi hf size
    exact ⟨m, r, hm, fun e he => first_fit_payload hi hm he⟩
  · intro ptr hlt
    obtain ⟨m, rc, hm⟩ := free_returns hi hf hlt
    exact ⟨m, rc, hm, fun e he hne => free_payload hi hlt hm he hne⟩

/-- The allocation in a heap of 100 bytes keeps its bytes when nothing at 60 is freed. -/
theorem payloads_kept_alloc : ∃ s : Sys, s.live = [⟨52, 16⟩] ∧ ∃ m rc,
    free_haper_block 104 s.haper s.mem 60 = some (m, rc) ∧ SamePayload s.mem m ⟨52, 16⟩ := by
  let s₀ : Sys := ⟨(haper2_init (fun _ => 0) 32 100 0).2.1, (haper2_init (fun _ => 0) 32 100 0).2.2, []⟩
  have h₀ : Reachable (Init 32 100) Step s₀ := .start ⟨by decide, by decide, rfl, fun _ => 0, 0, rfl⟩
  have hr : (best_fit_alloc 2 s₀.haper s₀.mem 16).map (·.2) = some 52 := by decide
  obtain ⟨⟨m, r⟩, halloc, rfl⟩ := Option.map_eq_some_iff.1 hr
  obtain ⟨-, -, -, hfree⟩ := payloads_kept (h₀.next (.best_fit 2 16 halloc)) (Nat.le_refl _)
  obtain ⟨m', rc, hm, hkeep⟩ := hfree 60 (by decide)
  exact ⟨_, rfl, m', rc, hm, hkeep _ (List.mem_singleton_self _) (by decide)⟩

end Payload

end McLinOS.Heap
