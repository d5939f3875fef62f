import Mathlib.Data.List.Chain
import McLinOS.Heap.Ops
/-!
# What each call does to the partition

The loops of the header file, run on a heap that holds a partition: they end,
and the memory they leave holds the partition the abstract operation gives.
-/
open CLib

namespace McLinOS.Heap

/-! ## Coalesced partitions -/

/-- No two neighbours are both free. -/
def Coalesced (ps : List Part) : Prop := ps.IsChain fun p q => p.used = true ∨ q.used = true

theorem coalesced_iff {xs ys : List Part} {p : Part} :
    Coalesced (xs ++ p :: ys) ↔ Coalesced xs ∧ Coalesced ys ∧ (p.used = true ∨ (UsedBefore xs ∧ UsedAfter ys)) := by
  simp only [Coalesced, List.isChain_append, List.isChain_cons, UsedBefore, UsedAfter, List.head?_cons,
    Option.mem_some_iff, forall_eq']
  rcases p with ⟨n, _ | _⟩
  · simp only [Bool.false_eq_true, false_or, or_false]
    tauto
  · simp only [true_or, or_true, implies_true]
    tauto

theorem Coalesced.after {xs ys : List Part} {n : Nat} (h : Coalesced (xs ++ ⟨n, false⟩ :: ys)) : UsedAfter ys := by
  simpa using ((coalesced_iff.1 h).2.2.resolve_left (by simp)).2

theorem Coalesced.before {xs ys : List Part} {n : Nat} (h : Coalesced (xs ++ ⟨n, false⟩ :: ys)) : UsedBefore xs := by
  simpa using ((coalesced_iff.1 h).2.2.resolve_left (by simp)).1

/-! ## Freeing -/

/-- The partition from a freed block of `n` bytes on. -/
def mergeAfter (n : Nat) : List Part → List Part
  | ⟨k, false⟩ :: ys => ⟨n + (20 + k), false⟩ :: ys
  | ys => ⟨n, false⟩ :: ys

/-- The partition after a block of `n` bytes between `xs` and `ys` is freed. -/
def freed (xs : List Part) (n : Nat) (ys : List Part) : List Part :=
  match xs.getLast? with
  | some ⟨k, false⟩ => xs.dropLast ++ mergeAfter (k + (20 + n)) ys
  | _ => xs ++ mergeAfter n ys

theorem mergeAfter_used {ys : List Part} (h : UsedAfter ys) (n : Nat) : mergeAfter n ys = ⟨n, false⟩ :: ys := by
  rcases ys with _ | ⟨⟨k, _ | _⟩, ys⟩
  · rfl
  · simp [UsedAfter] at h
  · rfl

theorem freed_used {xs : List Part} (h : UsedBefore xs) (n : Nat) (ys : List Part) :
    freed xs n ys = xs ++ mergeAfter n ys := by
  unfold freed
  split
  · rename_i k hk
    have := h _ hk
    simp at this
  · rfl

theorem freed_concat (xs : List Part) (k n : Nat) (ys : List Part) :
    freed (xs ++ [⟨k, false⟩]) n ys = xs ++ mergeAfter (k + (20 + n)) ys := by
  simp [freed]

section Free
variable {m : Mem} {a : Nat} {xs ys : List Part} {n s : Nat} {u : Bool}

theorem merge_settle (h : Seg m 0 a (xs ++ ⟨n, u⟩ :: ys) 0) (ha : 0 < a) (hxs : UsedBefore xs) (hys : UsedAfter ys)
    (hs : s ≠ n) :
    ∃ m', loop free_memory_body 2 (m, s, a + span xs) = some m' ∧ Seg m' 0 a (xs ++ ⟨n, false⟩ :: ys) 0 := by
  obtain ⟨hb, hseg⟩ := free_block_settled h ha hxs hys
  have hturn : free_memory_body (m, s, a + span xs) = .cont ((free_block m (a + span xs)).1, n, a + span xs) := by
    rw [free_memory_body, (hdr_at h).size, if_neg hs, hb]
  refine ⟨(free_block m (a + span xs)).1, ?_, hseg⟩
  rw [loop_cont hturn]
  apply loop_done
  rw [free_memory_body, if_pos (hdr_at hseg).size.symm]

theorem merge_right (h : Seg m 0 a (xs ++ ⟨n, u⟩ :: ys) 0) (ha : 0 < a)
    (htop : a + span (xs ++ ⟨n, u⟩ :: ys) ≤ 2 ^ 32) (hxs : UsedBefore xs) (hc : Coalesced ys) (hs : s ≠ n) :
    ∃ m', loop free_memory_body 3 (m, s, a + span xs) = some m' ∧ Seg m' 0 a (xs ++ mergeAfter n ys) 0 := by
  by_cases hys : UsedAfter ys
  · obtain ⟨m', hl, hseg⟩ := merge_settle h ha hxs hys hs
    exact ⟨m', loop_mono (by omega) hl, by rwa [mergeAfter_used hys]⟩
  · rcases ys with _ | ⟨⟨k, _ | _⟩, ys⟩
    · simp [UsedAfter] at hys
    · obtain ⟨hb, hseg⟩ := free_block_right h ha htop hxs
      have hys' : UsedAfter ys := ((coalesced_iff.1 (show Coalesced ([] ++ ⟨k, false⟩ :: ys) from hc)).2.2.resolve_left (by simp)).2
      obtain ⟨m', hl, hseg'⟩ := merge_settle (s := n) hseg ha hxs hys' (by omega)
      refine ⟨m', ?_, hseg'⟩
      rw [loop_cont, hl]
      rw [free_memory_body, (hdr_at h).size, if_neg hs, hb]
    · simp [UsedAfter] at hys

/-- `free_memory` on a block that is not empty. -/
theorem free_memory_spec (h : Seg m 0 a (xs ++ ⟨n, u⟩ :: ys) 0) (ha : 0 < a)
    (htop : a + span (xs ++ ⟨n, u⟩ :: ys) ≤ 2 ^ 32) (hc : Coalesced (xs ++ ⟨n, u⟩ :: ys)) (hn : 0 < n) (fuel : Nat)
    (hf : 4 ≤ fuel) :
    ∃ m', free_memory fuel m (a + span xs) = some m' ∧ Seg m' 0 a (freed xs n ys) 0 := by
  have hcy : Coalesced ys := (coalesced_iff.1 hc).2.1
  unfold free_memory
  rw [if_neg (by omega)]
  by_cases hxs : UsedBefore xs
  · obtain ⟨m', hl, hseg⟩ := merge_right (s := 0) h ha htop hxs hcy (by omega)
    exact ⟨m', loop_mono (by omega) hl, by rwa [freed_used hxs]⟩
  · rcases List.eq_nil_or_concat xs with rfl | ⟨zs, ⟨k, _ | _⟩, rfl⟩
    · simp [UsedBefore] at hxs
    · -- The first turn merges backwards and goes on at the predecessor.
      simp only [List.concat_eq_append, List.append_assoc, List.cons_append, List.nil_append] at *
      have e : a + span (zs ++ [⟨k, false⟩]) = a + span zs + (20 + k) := by
        simp only [span_append, span_cons, span_nil]
        omega
      obtain ⟨hb, hseg⟩ := free_block_left h ha htop
      have h' : Seg m 0 a ((zs ++ [⟨k, false⟩]) ++ ⟨n, u⟩ :: ys) 0 := by simpa using h
      have hsize := (hdr_at h').size
      rw [e] at hsize ⊢
      obtain ⟨m', hl, hseg'⟩ := merge_right (s := n) hseg ha (by simp only [span_append, span_cons] at htop ⊢; omega)
        hc.before hcy (by omega)
      refine ⟨m', loop_mono hf ?_, by rwa [freed_concat]⟩
      rw [loop_cont, hl]
      rw [free_memory_body, hsize, if_neg (by dsimp only; omega), hb]
    · simp [UsedBefore] at hxs

end Free

theorem span_mergeAfter (n : Nat) (ys : List Part) : span (mergeAfter n ys) = 20 + n + span ys := by
  rcases ys with _ | ⟨⟨k, _ | _⟩, ys⟩ <;> simp [mergeAfter, Nat.add_assoc]

theorem span_freed (xs : List Part) (n : Nat) (ys : List Part) :
    span (freed xs n ys) = span xs + (20 + n) + span ys := by
  unfold freed
  split
  · rename_i k hk
    obtain ⟨zs, rfl⟩ := List.getLast?_eq_some_iff.1 hk
    simp only [List.dropLast_concat, span_append, span_mergeAfter, span_cons, span_nil]
    omega
  · simp only [span_append, span_mergeAfter]
    omega

theorem coalesced_mergeAfter {xs ys : List Part} (n : Nat) (hx : Coalesced xs) (hxs : UsedBefore xs)
    (hy : Coalesced ys) : Coalesced (xs ++ mergeAfter n ys) := by
  rcases ys with _ | ⟨⟨k, _ | _⟩, ys⟩
  · exact coalesced_iff.2 ⟨hx, hy, .inr ⟨hxs, by simp [UsedAfter]⟩⟩
  · obtain ⟨-, hy', hk⟩ := coalesced_iff.1 (show Coalesced ([] ++ ⟨k, false⟩ :: ys) from hy)
    exact coalesced_iff.2 ⟨hx, hy', .inr ⟨hxs, (hk.resolve_left (by simp)).2⟩⟩
  · exact coalesced_iff.2 ⟨hx, hy, .inr ⟨hxs, by simp [UsedAfter]⟩⟩

theorem coalesced_freed {xs ys : List Part} {n : Nat} {p : Part} (h : Coalesced (xs ++ p :: ys)) :
    Coalesced (freed xs n ys) := by
  obtain ⟨hx, hy, -⟩ := coalesced_iff.1 h
  by_cases hxs : UsedBefore xs
  · rw [freed_used hxs]
    exact coalesced_mergeAfter n hx hxs hy
  · rcases List.eq_nil_or_concat xs with rfl | ⟨zs, ⟨k, _ | _⟩, rfl⟩
    · simp [UsedBefore] at hxs
    · rw [List.concat_eq_append] at hx ⊢
      rw [freed_concat]
      exact coalesced_mergeAfter _ (coalesced_iff.1 hx).1 hx.before hy
    · simp [UsedBefore] at hxs

/-- Freeing a block that is free already gives the same partition. -/
theorem freed_free {xs ys : List Part} {n : Nat} (h : Coalesced (xs ++ ⟨n, false⟩ :: ys)) :
    freed xs n ys = xs ++ ⟨n, false⟩ :: ys := by
  rw [freed_used h.before, mergeAfter_used h.after]

/-! ## Walking the blocks -/

/-- The rule for the loops that follow `next` from `start_addr`: `inv xs` holds
when the blocks `xs` have been passed. -/
theorem seg_walk {β ρ : Type} {m : Mem} {a : Nat} {ps : List Part} {body : Nat × β → ControlFlow (Nat × β) ρ}
    (inv : List Part → β → Prop) (post : ρ → Prop) (h : Seg m 0 a ps 0) (hne : ps ≠ [])
    (hstep : ∀ xs p ys acc, ps = xs ++ p :: ys → inv xs acc →
      (∃ r, body (a + span xs, acc) = .done r ∧ post r) ∨
      ∃ acc', body (a + span xs, acc) = .cont (next m (a + span xs), acc') ∧ inv (xs ++ [p]) acc')
    (hend : ∀ acc, inv ps acc → ∃ r, body (0, acc) = .done r ∧ post r)
    {acc : β} (h0 : inv [] acc) {fuel : Nat} (hf : ps.length < fuel) :
    ∃ r, loop body fuel (a, acc) = some r ∧ post r := by
  have main : ∀ ys xs acc fuel, ps = xs ++ ys → inv xs acc → ys.length < fuel →
      ∃ r, loop body fuel (if ys = [] then 0 else a + span xs, acc) = some r ∧ post r := by
    intro ys
    induction ys with
    | nil =>
      intro xs acc fuel hps hi hf
      obtain ⟨fuel, rfl⟩ : ∃ k, fuel = k + 1 := ⟨fuel - 1, by omega⟩
      obtain ⟨r, hr, hp⟩ := hend acc (by simpa [hps] using hi)
      exact ⟨r, loop_done hr fuel, hp⟩
    | cons p ys ih =>
      intro xs acc fuel hps hi hf
      obtain ⟨fuel, rfl⟩ : ∃ k, fuel = k + 1 := ⟨fuel - 1, by simp at hf; omega⟩
      rw [if_neg (List.cons_ne_nil _ _)]
      rcases hstep xs p ys acc hps hi with ⟨r, hr, hp⟩ | ⟨acc', hc, hi'⟩
      · exact ⟨r, loop_done hr fuel, hp⟩
      · rw [loop_cont hc, (hdr_at (hps ▸ h)).next]
        have e : a + span xs + (20 + p.size) = a + span (xs ++ [p]) := by
          simp only [span_append, span_cons, span_nil]
          omega
        rw [e]
        exact ih (xs ++ [p]) acc' fuel (by simp [hps]) hi' (by simp at hf; omega)
  have := main ps [] acc fuel rfl h0 hf
  simpa [if_neg hne] using this

/-! ## Searching -/

/-- A free block of at least `size` bytes. -/
def Fits (size : Nat) (p : Part) : Prop := p.used = false ∧ size ≤ p.size

instance (size : Nat) (p : Part) : Decidable (Fits size p) := inferInstanceAs (Decidable (_ ∧ _))

/-- `r` is the last of the smallest blocks of `ps` that fit, or 0 if none does. -/
def BestIn (a size : Nat) (ps : List Part) (r : Nat) : Prop :=
  (r = 0 ∧ ∀ p ∈ ps, ¬Fits size p) ∨
  ∃ us n vs, ps = us ++ ⟨n, false⟩ :: vs ∧ r = a + span us ∧ size ≤ n ∧
    (∀ p ∈ us, Fits size p → n ≤ p.size) ∧ ∀ p ∈ vs, Fits size p → n < p.size

/-- `r` is the first block of `ps` that fits, or 0 if none does. -/
def FirstIn (a size : Nat) (ps : List Part) (r : Nat) : Prop :=
  (r = 0 ∧ ∀ p ∈ ps, ¬Fits size p) ∨
  ∃ us n vs, ps = us ++ ⟨n, false⟩ :: vs ∧ r = a + span us ∧ size ≤ n ∧ ∀ p ∈ us, ¬Fits size p

/-- What both searches promise of their result. -/
def Found (a size : Nat) (ps : List Part) (r : Nat) : Prop :=
  (r = 0 ∧ ∀ p ∈ ps, ¬Fits size p) ∨ ∃ us n vs, ps = us ++ ⟨n, false⟩ :: vs ∧ r = a + span us ∧ size ≤ n

theorem BestIn.found {a size r : Nat} {ps : List Part} (h : BestIn a size ps r) : Found a size ps r :=
  h.imp_right fun ⟨us, n, vs, h1, h2, h3, _⟩ => ⟨us, n, vs, h1, h2, h3⟩

theorem FirstIn.found {a size r : Nat} {ps : List Part} (h : FirstIn a size ps r) : Found a size ps r :=
  h.imp_right fun ⟨us, n, vs, h1, h2, h3, _⟩ => ⟨us, n, vs, h1, h2, h3⟩

section Search
variable {m : Mem} {a size : Nat} {ps : List Part}

/-- What a search reads of a block. -/
theorem fits_iff (size : Nat) {xs ys : List Part} {p : Part} (h : Seg m 0 a (xs ++ p :: ys) 0) :
    (get_block_status m (a + span xs) use_flag = 0 ∧ size ≤ block_size m (a + span xs)) ↔ Fits size p := by
  rw [(hdr_at h).status, (hdr_at h).size, Fits]
  cases p.used <;> simp

/-- One more block seen by the best-fit search. -/
theorem best_step {xs ys : List Part} {p : Part} {best : Nat} (h : Seg m 0 a (xs ++ p :: ys) 0) (ha : 0 < a)
    (hi : BestIn a size xs best) :
    ∃ best', best_fit_body m size (a + span xs, best) = .cont (next m (a + span xs), best') ∧
      BestIn a size (xs ++ [p]) best' := by
  have hsz := (hdr_at h).size
  have hp := fits_iff size h
  rw [hsz] at hp
  have hcurr : a + span xs ≠ 0 := by omega
  simp only [best_fit_body, if_neg hcurr, ← and_assoc, hsz]
  rcases hi with ⟨rfl, hnone⟩ | ⟨us, n, vs, rfl, rfl, hn, hus, hvs⟩
  · by_cases hf : Fits size p
    · refine ⟨a + span xs, by rw [if_pos ⟨hp.2 hf, .inl rfl⟩], .inr ⟨xs, p.size, [], ?_, rfl, hf.2, ?_, by simp⟩⟩
      · rw [← hf.1]
      · exact fun q hq hfq => absurd hfq (hnone q hq)
    · refine ⟨0, by rw [if_neg fun hc => hf (hp.1 hc.1)], .inl ⟨rfl, fun q hq => ?_⟩⟩
      rcases List.mem_append.1 hq with hq | hq
      · exact hnone q hq
      · rwa [List.mem_singleton.1 hq]
  · have hbest : block_size m (a + span us) = n := by
      rw [List.append_assoc, List.cons_append] at h
      exact (hdr_at h).size
    rw [hbest]
    by_cases hf : Fits size p ∧ p.size ≤ n
    · refine ⟨a + span (us ++ ⟨n, false⟩ :: vs), by rw [if_pos ⟨hp.2 hf.1, .inr hf.2⟩],
        .inr ⟨us ++ ⟨n, false⟩ :: vs, p.size, [], ?_, rfl, hf.1.2, ?_, by simp⟩⟩
      · rw [← hf.1.1]
      · intro q hq hfq
        rcases List.mem_append.1 hq with hq | hq
        · exact Nat.le_trans hf.2 (hus q hq hfq)
        · rcases List.mem_cons.1 hq with rfl | hq
          · exact hf.2
          · exact Nat.le_of_lt (Nat.lt_of_le_of_lt hf.2 (hvs q hq hfq))
    · refine ⟨a + span us, ?_, .inr ⟨us, n, vs ++ [p], by simp, rfl, hn, hus, ?_⟩⟩
      · rw [if_neg]
        rintro ⟨hc, h0 | hle⟩
        · omega
        · exact hf ⟨hp.1 hc, hle⟩
      · intro q hq hfq
        rcases List.mem_append.1 hq with hq | hq
        · exact hvs q hq hfq
        · rw [List.mem_singleton.1 hq] at hfq ⊢
          exact Nat.lt_of_not_le fun hle => hf ⟨hfq, hle⟩

theorem best_search (size : Nat) (h : Seg m 0 a ps 0) (hne : ps ≠ []) (ha : 0 < a) {fuel : Nat} (hf : ps.length < fuel) :
    ∃ r, loop (best_fit_body m size) fuel (a, 0) = some r ∧ BestIn a size ps r := by
  refine seg_walk (fun xs best => BestIn a size xs best) _ h hne ?_ ?_ (.inl ⟨rfl, by simp⟩) hf
  · rintro xs p ys best rfl hi
    exact .inr (best_step h ha hi)
  · exact fun best hi => ⟨best, rfl, hi⟩

theorem first_search (size : Nat) (h : Seg m 0 a ps 0) (hne : ps ≠ []) (ha : 0 < a) {fuel : Nat} (hf : ps.length < fuel) :
    ∃ r, loop (first_fit_body m size) fuel (a, 0) = some r ∧ FirstIn a size ps r := by
  refine seg_walk (fun xs best => best = 0 ∧ ∀ p ∈ xs, ¬Fits size p) _ h hne ?_ ?_ ⟨rfl, by simp⟩ hf
  · rintro xs p ys best rfl ⟨rfl, hnone⟩
    have hp := fits_iff size h
    have hcurr : a + span xs ≠ 0 := by omega
    have hbody : first_fit_body m size (a + span xs, 0) =
        if Fits size p then .done (a + span xs) else .cont (next m (a + span xs), 0) := by
      simp only [first_fit_body, if_neg hcurr, ← hp]
      simp
    by_cases hfit : Fits size p
    · refine .inl ⟨a + span xs, by rw [hbody, if_pos hfit], .inr ⟨xs, p.size, ys, ?_, rfl, hfit.2, hnone⟩⟩
      rw [← hfit.1]
    · refine .inr ⟨0, by rw [hbody, if_neg hfit], rfl, fun q hq => ?_⟩
      rcases List.mem_append.1 hq with hq | hq
      · exact hnone q hq
      · rwa [List.mem_singleton.1 hq]
  · rintro best ⟨rfl, hnone⟩
    exact ⟨0, rfl, .inl ⟨rfl, hnone⟩⟩

end Search

/-! ## The calls -/

/-- A heap in memory: the headers from `a` on are those of `ps`, inside the
32-bit address space. -/
structure Holds (m : Mem) (a : Nat) (ps : List Part) : Prop where
  seg : Seg m 0 a ps 0
  nonempty : ps ≠ []
  low : 32 ≤ a
  high : a + span ps ≤ 2 ^ 32

/-- What becomes of a free block of `n` bytes when `size` of them are asked for. -/
def allotted (n size slack : Nat) : List Part :=
  if size + 20 + slack ≤ n then [⟨size, true⟩, ⟨n - (20 + size), false⟩] else [⟨n, true⟩]

theorem span_allotted {n size slack : Nat} : span (allotted n size slack) = 20 + n := by
  unfold allotted
  split
  · simp only [span_cons, span_nil]
    omega
  · simp

section Calls
variable {m : Mem} {a size : Nat} {ps : List Part}

theorem Holds.replace {m' : Mem} {ps' : List Part} (h : Holds m a ps) (hs : Seg m' 0 a ps' 0)
    (hspan : span ps' = span ps) : Holds m' a ps' where
  seg := hs
  nonempty := by
    rintro rfl
    have := span_pos h.nonempty
    simp at hspan
    omega
  low := h.low
  high := by rw [hspan]; exact h.high

theorem use_block_spec {xs ys : List Part} {n slack : Nat} (h : Holds m a (xs ++ ⟨n, false⟩ :: ys)) (hs : 0 < size)
    (hn : size ≤ n) (hsl : slack ≤ 8) :
    (use_block m (a + span xs) size slack).2 = a + span xs + 20 ∧
      Holds (use_block m (a + span xs) size slack).1 a (xs ++ (allotted n size slack ++ ys)) := by
  have hlow := h.low
  have hhigh := h.high
  simp only [span_append, span_cons] at hhigh
  have e1 : u32 (size + sizeof_memory_block + slack) = size + 20 + slack :=
    u32_of_lt (by simp only [sizeof_memory_block]; omega)
  have e2 : u32 (a + span xs + sizeof_memory_block) = a + span xs + 20 :=
    u32_of_lt (by simp only [sizeof_memory_block]; omega)
  have hsz := (hdr_at h.seg).size
  unfold use_block
  rw [if_neg (by omega)]
  dsimp only at hsz ⊢
  rw [e1, e2, hsz]
  refine ⟨rfl, h.replace ?_ (by simp only [span_append, span_cons, span_allotted])⟩
  unfold allotted
  split
  · exact seg_set_status (seg_incise h.seg (by omega) h.high hs (by omega))
  · exact seg_set_status h.seg

/-- What a successful allocation does: a free block that fits becomes used. -/
structure Allocated (m : Mem) (a : Nat) (ps : List Part) (size slack : Nat) (m' : Mem) (r : Nat)
    (xs : List Part) (n : Nat) (ys : List Part) : Prop where
  split : ps = xs ++ ⟨n, false⟩ :: ys
  fits : size ≤ n
  result : r = a + span xs + 20
  holds : Holds m' a (xs ++ (allotted n size slack ++ ys))

theorem fit_alloc_spec {r : Nat} (slack : Nat) (h : Holds m a ps) (hs : 0 < size) (hsl : slack ≤ 8)
    (hr : Found a size ps r) :
    (use_block m r size slack = (m, 0) ∧ ∀ p ∈ ps, ¬Fits size p) ∨
      ∃ us n vs, r = a + span us ∧ Allocated m a ps size slack (use_block m r size slack).1
        (use_block m r size slack).2 us n vs := by
  rcases hr with ⟨rfl, hnone⟩ | ⟨us, n, vs, rfl, rfl, hn⟩
  · exact .inl ⟨rfl, hnone⟩
  · obtain ⟨h1, h2⟩ := use_block_spec h hs hn hsl
    exact .inr ⟨us, n, vs, rfl, rfl, hn, h1, h2⟩

theorem best_fit_alloc_spec {hp : haper2} (h : Holds m hp.start_addr ps) (hs : 0 < size) {fuel : Nat}
    (hf : ps.length < fuel) :
    ∃ m' r, best_fit_alloc fuel hp m size = some (m', r) ∧
      ((r = 0 ∧ m' = m ∧ ∀ p ∈ ps, ¬Fits size p) ∨
        ∃ xs n ys, BestIn hp.start_addr size ps (hp.start_addr + span xs) ∧
          Allocated m hp.start_addr ps size minimum_size m' r xs n ys) := by
  obtain ⟨r, hl, hb⟩ := best_search size h.seg h.nonempty (by have := h.low; omega) hf
  refine ⟨(use_block m r size minimum_size).1, (use_block m r size minimum_size).2, by rw [best_fit_alloc, if_neg (by omega), hl]; rfl, ?_⟩
  rcases fit_alloc_spec minimum_size h hs (by decide) hb.found with ⟨hu, hnone⟩ | ⟨us, n, vs, rfl, hall⟩
  · exact .inl ⟨by rw [hu], by rw [hu], hnone⟩
  · exact .inr ⟨us, n, vs, hb, hall⟩

theorem first_fit_alloc_spec {hp : haper2} (h : Holds m hp.start_addr ps) (hs : 0 < size) {fuel : Nat}
    (hf : ps.length < fuel) :
    ∃ m' r, first_fit_alloc fuel hp m size = some (m', r) ∧
      ((r = 0 ∧ m' = m ∧ ∀ p ∈ ps, ¬Fits size p) ∨
        ∃ xs n ys, FirstIn hp.start_addr size ps (hp.start_addr + span xs) ∧
          Allocated m hp.start_addr ps size 0 m' r xs n ys) := by
  obtain ⟨r, hl, hb⟩ := first_search size h.seg h.nonempty (by have := h.low; omega) hf
  refine ⟨(use_block m r size 0).1, (use_block m r size 0).2, by rw [first_fit_alloc, if_neg (by omega), hl]; rfl, ?_⟩
  rcases fit_alloc_spec 0 h hs (by decide) hb.found with ⟨hu, hnone⟩ | ⟨us, n, vs, rfl, hall⟩
  · exact .inl ⟨by rw [hu], by rw [hu], hnone⟩
  · exact .inr ⟨us, n, vs, hb, hall⟩

/-- The block whose payload starts at `ptr`, if there is one. -/
theorem get_block_search {hp : haper2} {ptr : Nat} (h : Holds m hp.start_addr ps) (hptr : ptr ≠ 0)
    (hlt : ptr < 2 ^ 32) (fuel : Nat) (hf : ps.length < fuel) :
    ∃ b, memory_block_laterator fuel hp m get_block (ptr, 0) = some (ptr, b) ∧
      ((b = 0 ∧ ∀ xs p ys, ps = xs ++ p :: ys → hp.start_addr + span xs + 20 ≠ ptr) ∨
        ∃ xs p ys, ps = xs ++ p :: ys ∧ b = hp.start_addr + span xs ∧ ptr = b + 20) := by
  have hlow := h.low
  suffices hw : ∃ r, memory_block_laterator fuel hp m get_block (ptr, 0) = some r ∧ ∃ b, r = (ptr, b) ∧
      ((b = 0 ∧ ∀ xs p ys, ps = xs ++ p :: ys → hp.start_addr + span xs + 20 ≠ ptr) ∨
        ∃ xs p ys, ps = xs ++ p :: ys ∧ b = hp.start_addr + span xs ∧ ptr = b + 20) by
    obtain ⟨_, hl, b, rfl, hb⟩ := hw
    exact ⟨b, hl, hb⟩
  unfold memory_block_laterator
  refine seg_walk (fun xs c => c = (ptr, 0) ∧ ∀ us p vs, xs = us ++ p :: vs → hp.start_addr + span us + 20 ≠ ptr) _
    h.seg h.nonempty ?_ ?_ ⟨rfl, by simp⟩ hf
  · rintro xs p ys _ rfl ⟨rfl, hnone⟩
    have hhigh := h.high
    simp only [span_append, span_cons] at hhigh
    have hcurr : hp.start_addr + span xs ≠ 0 := by omega
    by_cases hfound : u32 (hp.start_addr + span xs + sizeof_memory_block) = ptr
    · -- Only a last block without payload wraps to 0, and `ptr` is not 0.
      have hnowrap : hp.start_addr + span xs + 20 = ptr := by
        unfold u32 sizeof_memory_block at hfound
        omega
      refine .inl ⟨(ptr, hp.start_addr + span xs), ?_, _, rfl, .inr ⟨xs, p, ys, rfl, rfl, hnowrap.symm⟩⟩
      simp only [if_neg hcurr, get_block, if_pos hfound, if_true]
    · refine .inr ⟨(ptr, 0), ?_, rfl, fun us q vs hs => ?_⟩
      · simp only [if_neg hcurr, get_block, if_neg hfound]
        simp
      · rcases List.eq_nil_or_concat vs with rfl | ⟨ws, w, rfl⟩
        · obtain ⟨rfl, -⟩ := List.append_inj' hs rfl
          intro he
          apply hfound
          rw [sizeof_memory_block, he]
          exact u32_of_lt hlt
        · rw [List.concat_eq_append, ← List.cons_append, ← List.append_assoc] at hs
          obtain ⟨rfl, -⟩ := List.append_inj' hs rfl
          exact hnone us q ws rfl
  · rintro _ ⟨rfl, hnone⟩
    exact ⟨(ptr, 0), rfl, 0, rfl, .inl ⟨rfl, hnone⟩⟩

/-- `free_memory` on any block of the chain. A free block stays as it is. -/
theorem free_memory_holds {xs ys : List Part} {n : Nat} {u : Bool} (h : Holds m a (xs ++ ⟨n, u⟩ :: ys))
    (hc : Coalesced (xs ++ ⟨n, u⟩ :: ys)) (hpos : ∀ p ∈ xs ++ ⟨n, u⟩ :: ys, p.used = true → 0 < p.size)
    (fuel : Nat) (hf : 4 ≤ fuel) :
    ∃ m', free_memory fuel m (a + span xs) = some m' ∧
      Holds m' a (if u then freed xs n ys else xs ++ ⟨n, u⟩ :: ys) := by
  have hlow := h.low
  by_cases hn : n = 0
  · -- An empty block is free, and the merge loop does not start on it.
    subst hn
    have hu : u = false := by
      by_contra hu
      have := hpos ⟨0, u⟩ (by simp) (by simpa using hu)
      simp at this
    refine ⟨m, ?_, by subst hu; exact h⟩
    obtain ⟨fuel, rfl⟩ : ∃ k, fuel = k + 1 := ⟨fuel - 1, by omega⟩
    rw [free_memory, if_neg (by omega)]
    apply loop_done
    rw [free_memory_body, if_pos (hdr_at h.seg).size.symm]
  · obtain ⟨m', hm, hseg⟩ := free_memory_spec h.seg (by omega) h.high hc (Nat.pos_of_ne_zero hn) fuel hf
    have hfreed : Holds m' a (freed xs n ys) := h.replace hseg (by
      simp only [span_freed, span_append, span_cons]
      omega)
    refine ⟨m', hm, ?_⟩
    cases u with
    | true => exact hfreed
    | false => rwa [freed_free hc] at hfreed

/-- Freeing `ptr`: nothing when no block has its payload there, else the block
is freed and merged. -/
theorem free_haper_block_spec {hp : haper2} {ptr : Nat} (h : Holds m hp.start_addr ps) (hlt : ptr < 2 ^ 32)
    (hc : Coalesced ps) (hpos : ∀ p ∈ ps, p.used = true → 0 < p.size) {fuel : Nat} (hf : ps.length + 4 ≤ fuel) :
    ∃ m' rc, free_haper_block fuel hp m ptr = some (m', rc) ∧
      ((rc = -1 ∧ m' = m ∧ ∀ xs p ys, ps = xs ++ p :: ys → hp.start_addr + span xs + 20 ≠ ptr) ∨
        ∃ xs n u ys, ps = xs ++ ⟨n, u⟩ :: ys ∧ ptr = hp.start_addr + span xs + 20 ∧
          Holds m' hp.start_addr (if u then freed xs n ys else ps)) := by
  have hlow := h.low
  unfold free_haper_block
  by_cases hptr : ptr = 0
  · rw [if_pos hptr]
    exact ⟨m, -1, rfl, .inl ⟨rfl, rfl, fun xs p ys _ => by omega⟩⟩
  obtain ⟨b, hl, hb⟩ := get_block_search h hptr hlt fuel (by omega)
  rw [if_neg hptr, hl]
  rcases hb with ⟨rfl, hnone⟩ | ⟨xs, ⟨n, u⟩, ys, rfl, rfl, hpb⟩
  · exact ⟨m, -1, rfl, .inl ⟨rfl, rfl, hnone⟩⟩
  have hb0 : hp.start_addr + span xs ≠ 0 := by omega
  simp only [Option.bind_some, if_neg hb0]
  obtain ⟨m', hm, hold⟩ := free_memory_holds h hc hpos fuel (by omega)
  rw [hm]
  exact ⟨m', 0, rfl, .inr ⟨xs, n, u, ys, rfl, hpb, hold⟩⟩

end Calls

end McLinOS.Heap
