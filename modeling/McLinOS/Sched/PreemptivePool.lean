import Mathlib.Logic.Relation
import McLinOS.Sched.Preemptive
/-!
# The pool as a list

The pool is a chain from `task_head` in order of priority. Removing keeps it so.
Adding does when the new task goes between two tasks or into an empty pool.
-/
open CLib Function

namespace McLinOS.Sched

namespace Kernel
variable (k : Kernel) (t v : Nat)

theorem field_modify {α : Type} (g : task_struct → α) (f : task_struct → task_struct) (h : ∀ s, g (f s) = g s) (u : Nat) :
    g ((k.modify t f).tasks u) = g (k.tasks u) := by
  by_cases hu : u = t
  · simp [modify, hu, h]
  · simp [modify, hu]

@[simp] theorem next_set_next : (k.set_next t v).next = update k.next t v := by
  funext u
  by_cases hu : u = t
  · simp [next, set_next, modify, hu]
  · simp [next, set_next, modify, hu]

@[simp] theorem priv_set_priv : (k.set_priv t v).priv = update k.priv t v := by
  funext u
  by_cases hu : u = t
  · simp [priv, set_priv, modify, hu]
  · simp [priv, set_priv, modify, hu]

@[simp] theorem next_set_priv : (k.set_priv t v).next = k.next := funext fun u => field_modify k t (·.next) _ (by simp) u
@[simp] theorem priv_set_next : (k.set_next t v).priv = k.priv := funext fun u => field_modify k t (·.priv) _ (by simp) u
@[simp] theorem priority_set_next : (k.set_next t v).priority = k.priority :=
  funext fun u => field_modify k t (·.priority) _ (by simp) u
@[simp] theorem priority_set_priv : (k.set_priv t v).priority = k.priority :=
  funext fun u => field_modify k t (·.priority) _ (by simp) u
@[simp] theorem task_head_set_next : (k.set_next t v).task_head = k.task_head := rfl
@[simp] theorem task_head_set_priv : (k.set_priv t v).task_head = k.task_head := rfl

end Kernel

/-- The pool is the list `xs`, linked both ways, in non-increasing priority. -/
structure Pool (k : Kernel) (xs : List Nat) : Prop where
  chain : Chain k.next k.priv 0 xs 0
  head : k.task_head = xs.headD 0
  nonnull : 0 ∉ xs
  nodup : xs.Nodup
  sorted : xs.Pairwise fun t u => (k.priority u).toInt ≤ (k.priority t).toInt

section Pool
variable {k k' : Kernel} {xs us vs : List Nat} {t new : Nat}

theorem Pool.congr (h : Pool k xs) (hn : ∀ t ∈ xs, k'.next t = k.next t) (hp : ∀ t ∈ xs, k'.priv t = k.priv t)
    (hpr : ∀ t ∈ xs, k'.priority t = k.priority t) (hh : k'.task_head = k.task_head) : Pool k' xs where
  chain := h.chain.congr hn hp
  head := hh.trans h.head
  nonnull := h.nonnull
  nodup := h.nodup
  sorted := h.sorted.imp_of_mem fun ht hu hle => by rw [hpr _ ht, hpr _ hu]; exact hle

theorem Pool.empty_iff (h : Pool k xs) : k.task_head = 0 ↔ xs = [] := by
  rw [h.head]
  cases xs with
  | nil => simp
  | cons x xs => simpa using fun hx : x = 0 => h.nonnull (by simp [hx])

/-! ## Searching -/

/-- The search finds the first task whose priority is not above `priority`, or
follows the `NULL` behind the last one. -/
theorem search_eq {p : Nat} (priority : BitVec 32) (h : Chain k.next k.priv p xs 0) (h0 : 0 ∉ xs) {fuel : Nat}
    (hf : xs.length < fuel) : loop (get_task_by_priority_body k priority) fuel (xs.headD 0) =
      some (xs.find? fun t => (k.priority t).toNat ≤ priority.toNat) := by
  induction xs generalizing p fuel with
  | nil =>
    obtain ⟨fuel, rfl⟩ : ∃ n, fuel = n + 1 := ⟨fuel - 1, by simp at hf; omega⟩
    exact loop_done (by rw [get_task_by_priority_body, List.headD_nil, if_pos rfl]; rfl) fuel
  | cons x xs ih =>
    obtain ⟨fuel, rfl⟩ : ∃ n, fuel = n + 1 := ⟨fuel - 1, by simp at hf; omega⟩
    have hx : x ≠ 0 := by
      rintro rfl
      exact h0 (by simp)
    rw [List.headD_cons]
    by_cases hle : (k.priority x).toNat ≤ priority.toNat
    · rw [List.find?_cons_of_pos (by simpa using hle)]
      exact loop_done (by rw [get_task_by_priority_body, if_neg hx, if_pos hle]) fuel
    · rw [List.find?_cons_of_neg (by simpa using hle)]
      rw [loop_cont (by rw [get_task_by_priority_body, if_neg hx, if_neg hle]), h.2.1]
      exact ih h.2.2 (fun hm => h0 (by simp [hm])) (by simp at hf; omega)

/-- The search, whatever its fuel. -/
theorem search_det {p fuel r : Nat} {priority : BitVec 32} (h : Chain k.next k.priv p xs 0) (h0 : 0 ∉ xs)
    (hr : (loop (get_task_by_priority_body k priority) fuel (xs.headD 0)).join = some r) :
    (xs.find? fun t => (k.priority t).toNat ≤ priority.toNat) = some r := by
  exact (FuelMono.loop _ _).det (search_eq priority h h0 (Nat.lt_succ_self _)) (Option.join_eq_some_iff.1 hr)

/-! ## Adding -/

/-- When adding works: the pool is empty, or the new task has a lower priority
than the first one and some task has no higher priority than it. -/
def AddFits (k : Kernel) (members : List Nat) (new : Nat) : Prop :=
  k.task_head = 0 ∨ ((k.priority new).toNat < (k.priority k.task_head).toNat ∧
    ∃ t ∈ members, (k.priority t).toNat ≤ (k.priority new).toNat)

/-- The priorities of a sorted pool around the place found by the unsigned
comparison. -/
theorem between {z n t : BitVec 32} (hz : n.toNat < z.toNat) (ht : t.toNat ≤ n.toNat) (hs : t.toInt ≤ z.toInt) :
    n.toInt ≤ z.toInt ∧ t.toInt ≤ n.toInt := by
  have hz32 := z.isLt
  simp only [BitVec.toInt_eq_toNat_cond] at *
  split at hs <;> split at hs <;> split <;> constructor <;> omega

theorem Pool.insert {a y : Nat} (h : Pool k (us ++ a :: y :: vs)) (h0 : new ≠ 0) (hnew : new ∉ us ++ a :: y :: vs)
    (hbefore : ∀ z ∈ us ++ [a], (k.priority new).toNat < (k.priority z).toNat)
    (hy : (k.priority y).toNat ≤ (k.priority new).toNat) :
    Pool ((((k.set_next new y).set_priv new a).set_next a new).set_priv y new) (us ++ a :: new :: y :: vs) := by
  have e : us ++ a :: y :: vs = (us ++ [a]) ++ y :: vs := by simp
  have e' : us ++ a :: new :: y :: vs = (us ++ [a]) ++ new :: (y :: vs) := by simp
  have hsorted := h.sorted
  rw [e, List.pairwise_append] at hsorted
  obtain ⟨hs1, hs2, hs3⟩ := hsorted
  have hlow : ∀ w ∈ y :: vs, (k.priority w).toInt ≤ (k.priority new).toInt := by
    have hyn := (between (hbefore a (by simp)) hy (hs3 a (by simp) y (by simp))).2
    intro w hw
    rcases List.mem_cons.1 hw with rfl | hw
    · exact hyn
    · exact Int.le_trans (List.rel_of_pairwise_cons hs2 hw) hyn
  refine ⟨?_, ?_, ?_, ?_, ?_⟩
  · simpa using h.chain.insert h.nodup hnew
  · simp only [Kernel.task_head_set_priv, Kernel.task_head_set_next, h.head]
    cases us <;> rfl
  · have := h.nonnull
    simp only [List.mem_append, List.mem_cons, not_or] at this ⊢
    exact ⟨this.1, this.2.1, h0.symm, this.2.2⟩
  · have := h.nodup
    rw [e] at this hnew
    rw [e', List.nodup_middle, List.nodup_cons]
    exact ⟨hnew, this⟩
  · simp only [Kernel.priority_set_priv, Kernel.priority_set_next]
    rw [e', List.pairwise_append]
    refine ⟨hs1, List.pairwise_cons.2 ⟨hlow, hs2⟩, fun z hz w hw => ?_⟩
    rcases List.mem_cons.1 hw with rfl | hw
    · exact (between (hbefore z hz) hy (hs3 z hz y (by simp))).1
    · exact hs3 z hz w hw

theorem reset_pool (h : Pool k xs) (hnew : new ∉ xs) : Pool (task_reset k new) xs :=
  h.congr (fun t ht => by simp [task_reset, update_of_ne (show t ≠ new by rintro rfl; exact hnew ht)])
    (fun t ht => by simp [task_reset, update_of_ne (show t ≠ new by rintro rfl; exact hnew ht)])
    (fun t _ => by simp [task_reset]) rfl

theorem add_empty (fuel : Nat) (h : Pool k []) (h0 : new ≠ 0) :
    ∃ k', add_task_to_task_pool fuel new k = some k' ∧ Pool k' [new] := by
  have hh : (task_reset k new).task_head = 0 := h.head
  have hp : ({ task_reset k new with task_head := new } : Kernel).priv new = 0 :=
    show (task_reset k new).priv new = 0 by simp [task_reset]
  refine ⟨{ task_reset k new with task_head := new }, ?_, ?_, rfl, by simpa using h0.symm, by simp, by simp⟩
  · simp only [add_task_to_task_pool, if_pos hh, Option.map_some, hp]
    simp
  · exact Chain.singleton.2 ⟨hp, show (task_reset k new).next new = 0 by simp [task_reset]⟩

/-- Where the new task goes, read off the search. -/
theorem add_at (h : Pool k xs) (h0 : new ≠ 0) (hnew : new ∉ xs) {y : Nat} (hy : y ≠ xs.headD 0)
    (hfind : (xs.find? fun t => (k.priority t).toNat ≤ (k.priority new).toNat) = some y) :
    ∃ us a vs, xs = us ++ a :: y :: vs ∧ ∃ k', add_a_task_node k new y = some k' ∧ Pool k' (us ++ a :: new :: y :: vs) ∧
      k'.priv k'.task_head = 0 := by
  obtain ⟨hle, bs, vs, rfl, hbs⟩ := List.find?_eq_some_iff_append.1 hfind
  rcases List.eq_nil_or_concat bs with rfl | ⟨us, a, rfl⟩
  · exact absurd rfl hy
  rw [List.concat_eq_append] at *
  have e : us ++ [a] ++ y :: vs = us ++ a :: y :: vs := by simp
  rw [e] at h hnew
  have hpriv : k.priv y = a := by
    have := (Chain.split.1 (e ▸ h.chain : Chain k.next k.priv 0 ((us ++ [a]) ++ y :: vs) 0)).2.1.1
    rwa [List.getLastD_concat] at this
  have ha : a ≠ 0 := by
    rintro rfl
    exact h.nonnull (by simp)
  have hyn : y ≠ new := by
    rintro rfl
    exact hnew (by simp)
  have hpool := h.insert h0 hnew (fun z hz => by simpa using hbs z hz) (by simpa using hle)
  refine ⟨us, a, vs, e, _, ?_, hpool, ?_⟩
  · unfold add_a_task_node
    simp only [Kernel.priv_set_priv, Kernel.priv_set_next, update_of_ne hyn, hpriv, if_neg ha]
  · have hc := hpool.chain
    rw [hpool.head]
    rcases us with _ | ⟨u, us⟩
    · exact hc.1
    · exact hc.1

/-- Adding where it works. -/
theorem add_fits {fuel : Nat} (h : Pool k xs) (h0 : new ≠ 0) (hnew : new ∉ xs) (hfit : AddFits k xs new)
    (hf : xs.length < fuel) : ∃ k' ys, add_task_to_task_pool fuel new k = some k' ∧ Pool k' ys ∧ ys.Perm (new :: xs) := by
  have hr := reset_pool h hnew
  have hpr : (task_reset k new).priority = k.priority := by simp [task_reset]
  rcases hfit with he | ⟨hhead, t, ht, hle⟩
  · obtain rfl := h.empty_iff.1 he
    obtain ⟨k', hadd, hpool⟩ := add_empty fuel h h0
    exact ⟨k', _, hadd, hpool, .refl _⟩
  have hne : xs ≠ [] := List.ne_nil_of_mem ht
  have hh : ¬(task_reset k new).task_head = 0 := fun he => hne (hr.empty_iff.1 he)
  obtain ⟨y, hy⟩ : ∃ y, (xs.find? fun t => (k.priority t).toNat ≤ (k.priority new).toNat) = some y :=
    Option.isSome_iff_exists.1 (List.find?_isSome.2 ⟨t, ht, by simpa using hle⟩)
  have hyhead : y ≠ xs.headD 0 := by
    rw [← h.head]
    rintro rfl
    have := List.find?_some hy
    simp only [decide_eq_true_eq] at this
    omega
  have hy' : (xs.find? fun t => ((task_reset k new).priority t).toNat ≤ ((task_reset k new).priority new).toNat) =
      some y := by rw [hpr]; exact hy
  obtain ⟨us, a, vs, rfl, k', hadd, hpool, hpriv⟩ := add_at hr h0 hnew hyhead hy'
  have hy0 : y ≠ 0 := by
    rintro rfl
    exact h.nonnull (by simp)
  refine ⟨k', _, ?_, hpool, ?_⟩
  · simp only [add_task_to_task_pool, if_neg hh, get_task_by_priority]
    rw [hr.head, search_eq _ hr.chain hr.nonnull hf, hpr]
    simp only [hpr] at hy'
    rw [hy']
    simp only [Option.join_some, Option.bind_some, if_neg hy0, hadd, Option.map_some, hpriv]
    simp
  · have e : us ++ a :: new :: y :: vs = (us ++ [a]) ++ new :: (y :: vs) := by simp
    have e' : us ++ a :: y :: vs = (us ++ [a]) ++ y :: vs := by simp
    rw [e, e']
    exact List.perm_middle

/-- Adding anywhere else follows a `NULL` pointer. -/
theorem add_faults (fuel : Nat) (h : Pool k xs) (hnew : new ∉ xs) (hfit : ¬AddFits k xs new) :
    add_task_to_task_pool fuel new k = none := by
  have hr := reset_pool h hnew
  have hpr : (task_reset k new).priority = k.priority := by simp [task_reset]
  unfold AddFits at hfit
  rw [not_or] at hfit
  have hh : ¬(task_reset k new).task_head = 0 := hfit.1
  simp only [add_task_to_task_pool, if_neg hh, get_task_by_priority]
  rw [Option.map_eq_none_iff, Option.bind_eq_none_iff]
  intro y hy
  rw [hr.head] at hy
  have hfind := search_det hr.chain hr.nonnull hy
  rw [hpr] at hfind
  have hle := List.find?_some hfind
  simp only [decide_eq_true_eq] at hle
  have hmem := List.mem_of_find?_eq_some hfind
  have hy0 : y ≠ 0 := by
    rintro rfl
    exact h.nonnull hmem
  -- Some task is low enough, so the first one already is.
  have hhead : (k.priority k.task_head).toNat ≤ (k.priority new).toNat := by
    by_contra hlt
    exact hfit.2 ⟨by omega, y, hmem, hle⟩
  have hfirst : y = k.task_head := by
    rcases xs with _ | ⟨x, xs⟩
    · simp at hmem
    · have hx : k.task_head = x := h.head
      rw [hx] at hhead ⊢
      rw [List.find?_cons_of_pos (by simpa using hhead)] at hfind
      exact (Option.some.inj hfind).symm
  have hpriv : (task_reset k new).priv y = 0 := by
    rcases xs with _ | ⟨x, xs⟩
    · simp at hmem
    · rw [hfirst, h.head]
      exact hr.chain.1
  have hyn : y ≠ new := by
    rintro rfl
    exact hnew hmem
  rw [if_neg hy0, add_a_task_node]
  simp only [Kernel.priv_set_priv, Kernel.priv_set_next, update_of_ne hyn, hpriv]
  simp

/-! ## Removing -/

theorem remove_task_links (k : Kernel) {t : Nat} (h : k.priv t ≠ t) :
    (remove_task k t).next = Chain.unlinkNext k.next k.priv t ∧
      (remove_task k t).priv = Chain.unlinkPriv k.next k.priv t := by
  unfold remove_task Chain.unlinkNext Chain.unlinkPriv
  by_cases hp : k.priv t = 0
  · by_cases hn : k.next t = 0 <;> simp [hp, hn]
  · by_cases hn : k.next t = 0 <;> simp [hp, hn, update_of_ne h.symm]

theorem remove_task_priority (k : Kernel) (t : Nat) : (remove_task k t).priority = k.priority := by
  unfold remove_task
  dsimp only
  split <;> split <;> simp

theorem remove_task_head (k : Kernel) (t : Nat) : (remove_task k t).task_head = k.task_head := by
  unfold remove_task
  dsimp only
  split <;> split <;> rfl

/-- The node before a member is another member, or none. -/
theorem Pool.priv_ne (h : Pool k (us ++ t :: vs)) : k.priv t ≠ t := by
  have ht0 : t ≠ 0 := by
    rintro rfl
    exact h.nonnull (by simp)
  rw [(Chain.split.1 h.chain).2.1.1]
  rcases List.eq_nil_or_concat us with rfl | ⟨us, u, rfl⟩
  · exact ht0.symm
  · rw [List.concat_eq_append, List.getLastD_concat]
    rintro rfl
    exact (List.nodup_append.1 h.nodup).2.2 u (by simp) u (by simp) rfl

theorem Pool.drop (h : Pool k (us ++ t :: vs)) (hn : k'.next = Chain.unlinkNext k.next k.priv t)
    (hp : k'.priv = Chain.unlinkPriv k.next k.priv t) (hpr : k'.priority = k.priority)
    (hh : k'.task_head = (us ++ vs).headD 0) : Pool k' (us ++ vs) := by
  have hsub : List.Sublist (us ++ vs) (us ++ t :: vs) := List.Sublist.append_left (List.sublist_cons_self t vs) us
  refine ⟨?_, hh, fun hm => h.nonnull (hsub.subset hm), h.nodup.sublist hsub, ?_⟩
  · rw [hn, hp]
    exact h.chain.unlink h.nonnull h.nodup
  · rw [hpr]
    exact h.sorted.sublist hsub

/-- Removing a task that is not the only one. -/
theorem Pool.remove (h : Pool k (us ++ t :: vs)) (hne : us ≠ [] ∨ vs ≠ []) :
    Pool (remove_task_from_pool t k) (us ++ vs) := by
  have hnext : k.next t = vs.headD 0 := (Chain.split.1 h.chain).2.1.2
  have hcond : ¬(k.task_head = t ∧ k.next t = 0) := by
    rintro ⟨hh, hn⟩
    have hvs : vs = [] := by
      rw [hnext] at hn
      cases vs with
      | nil => rfl
      | cons v vs => exact absurd (by simp [show v = 0 from hn]) h.nonnull
    rcases us with _ | ⟨u, us⟩
    · exact hne.elim (· rfl) (· hvs)
    · have hu : u = t := h.head.symm.trans hh
      have := h.nodup
      simp [hu] at this
  unfold remove_task_from_pool
  rw [if_neg hcond]
  have hcur : ∀ k' : Kernel, Pool k' (us ++ vs) →
      Pool (if k'.current_task = t then { k' with current_task := 0 } else k') (us ++ vs) := by
    intro k' hk
    split
    · exact ⟨hk.chain, hk.head, hk.nonnull, hk.nodup, hk.sorted⟩
    · exact hk
  apply hcur _
  split
  · rename_i hh
    have hus : us = [] := by
      rcases us with _ | ⟨u, us⟩
      · rfl
      · have hu : u = t := h.head.symm.trans hh
        have := h.nodup
        simp [hu] at this
    subst hus
    have hl := remove_task_links { k with task_head := k.next t } h.priv_ne
    apply h.drop hl.1 hl.2 (remove_task_priority _ _)
    rw [remove_task_head]
    exact hnext
  · rename_i hh
    have hl := remove_task_links k h.priv_ne
    apply h.drop hl.1 hl.2 (remove_task_priority _ _)
    rw [remove_task_head, h.head]
    rcases us with _ | ⟨u, us⟩
    · exact absurd h.head hh
    · rfl

/-- The only task stays. -/
theorem remove_last (h : Pool k [t]) : remove_task_from_pool t k = k := by
  unfold remove_task_from_pool
  exact if_pos ⟨h.head, h.chain.2.1⟩

/-! ## Runs -/

/-- The members after a removal. The only task of a pool is not removed. -/
def removed (members : List Nat) (t : Nat) : List Nat := if members = [t] then members else members.erase t

/-- The pool is well formed and has exactly the given members, each once. -/
def PoolOk (k : Kernel) (members : List Nat) : Prop := ∃ xs, Pool k xs ∧ xs.Perm members

def AddSafe (k : Kernel) (members : List Nat) (new : Nat) : Prop :=
  ∃ fuel k', add_task_to_task_pool fuel new k = some k' ∧ PoolOk k' (new :: members)

/-- The calls, with `add` where it works, and the rest of the kernel, which
leaves the links and priorities of members alone. -/
inductive PoolStep : Kernel × List Nat → Kernel × List Nat → Prop
  | add {k k' : Kernel} {members : List Nat} (fuel new : Nat) : new ≠ 0 → new ∉ members → AddFits k members new →
      add_task_to_task_pool fuel new k = some k' → PoolStep (k, members) (k', new :: members)
  | remove {k : Kernel} {members : List Nat} (t : Nat) : t ∈ members →
      PoolStep (k, members) (remove_task_from_pool t k, removed members t)
  | other {k k' : Kernel} {members : List Nat} : (∀ t ∈ members, k'.next t = k.next t ∧ k'.priv t = k.priv t ∧
      k'.priority t = k.priority t) → k'.task_head = k.task_head → PoolStep (k, members) (k', members)

theorem add_mono (new : Nat) (k : Kernel) : FuelMono fun fuel => add_task_to_task_pool fuel new k := by
  have hget : ∀ p, FuelMono fun fuel => get_task_by_priority fuel (task_reset k new) p := by
    intro p
    unfold get_task_by_priority
    split
    · exact .const _
    · exact (FuelMono.loop _ _).join
  unfold add_task_to_task_pool
  dsimp only
  simp only [Option.map_eq_bind]
  refine FuelMono.bind ?_ fun _ => .const _
  split
  · exact .const _
  · exact (hget _).bind fun _ => .const _

theorem addFits_perm {members : List Nat} (hp : xs.Perm members) : AddFits k xs new ↔ AddFits k members new := by
  unfold AddFits
  simp only [hp.mem_iff]

theorem add_safe_iff {members : List Nat} (h : PoolOk k members) (h0 : new ≠ 0) (hnew : new ∉ members) :
    AddSafe k members new ↔ AddFits k members new := by
  obtain ⟨xs, hpool, hp⟩ := h
  have hnew' : new ∉ xs := fun hm => hnew (hp.subset hm)
  rw [← addFits_perm hp]
  constructor
  · rintro ⟨fuel, k', hadd, -⟩
    by_contra hfit
    rw [add_faults fuel hpool hnew' hfit] at hadd
    cases hadd
  · intro hfit
    obtain ⟨k', ys, hadd, hpool', hys⟩ := add_fits hpool h0 hnew' hfit (Nat.lt_succ_self _)
    exact ⟨_, k', hadd, ys, hpool', hys.trans (hp.cons new)⟩

theorem remove_ok {members : List Nat} (h : PoolOk k members) (ht : t ∈ members) :
    PoolOk (remove_task_from_pool t k) (removed members t) := by
  obtain ⟨xs, hpool, hp⟩ := h
  obtain ⟨us, vs, rfl⟩ := List.append_of_mem (hp.mem_iff.2 ht)
  unfold removed
  by_cases hone : us = [] ∧ vs = []
  · obtain ⟨rfl, rfl⟩ := hone
    rw [if_pos (List.perm_singleton.1 hp.symm), remove_last hpool]
    exact ⟨_, hpool, hp⟩
  · have hne : members ≠ [t] := by
      rintro rfl
      have := hp.length_eq
      simp only [List.length_append, List.length_cons, List.length_nil] at this
      exact hone ⟨List.eq_nil_of_length_eq_zero (by omega), List.eq_nil_of_length_eq_zero (by omega)⟩
    rw [if_neg hne]
    refine ⟨us ++ vs, hpool.remove (by tauto), ?_⟩
    have ht' : t ∉ us := fun hm => (List.nodup_append.1 hpool.nodup).2.2 t hm t (by simp) rfl
    have := hp.erase t
    rwa [List.erase_append_right _ ht', List.erase_cons_head] at this

theorem poolStep_ok {c c' : Kernel × List Nat} (h : PoolOk c.1 c.2) (hs : PoolStep c c') : PoolOk c'.1 c'.2 := by
  cases hs with
  | add fuel new h0 hnew hfit hadd =>
    obtain ⟨fuel', k', hadd', hok⟩ := (add_safe_iff h h0 hnew).2 hfit
    rwa [← (add_mono new _).det hadd' hadd]
  | remove t ht => exact remove_ok h ht
  | other hsame hhead =>
    obtain ⟨xs, hpool, hp⟩ := h
    have hmem : ∀ t ∈ xs, _ := fun t ht => hsame t (hp.subset ht)
    exact ⟨xs, hpool.congr (fun t ht => (hmem t ht).1) (fun t ht => (hmem t ht).2.1) (fun t ht => (hmem t ht).2.2)
      hhead, hp⟩

/-- In every run from a well-formed pool whose additions go into an empty pool
or between two tasks, the pool stays well formed with the members added and not
removed. The next addition works exactly if it goes there, the next removal works. -/
theorem pool_ordered {k₀ k : Kernel} {members₀ members : List Nat} (h₀ : PoolOk k₀ members₀)
    (h : Relation.ReflTransGen PoolStep (k₀, members₀) (k, members)) :
    PoolOk k members ∧ (∀ new, new ≠ 0 → new ∉ members → (AddSafe k members new ↔ AddFits k members new)) ∧
      ∀ t ∈ members, PoolOk (remove_task_from_pool t k) (removed members t) := by
  have hok : PoolOk k members := by
    suffices hall : ∀ c, Relation.ReflTransGen PoolStep (k₀, members₀) c → PoolOk c.1 c.2 from hall _ h
    intro c hc
    induction hc with
    | refl => exact h₀
    | tail _ hs ih => exact poolStep_ok ih hs
  exact ⟨hok, fun new h0 hnew => add_safe_iff hok h0 hnew, fun t ht => remove_ok hok ht⟩

/-- Tasks 1 to 3, of priorities 5, 3 and 4, and no pool yet. -/
def three_tasks : Kernel where
  tasks t := ⟨.TASK_READY, if t = 1 then 5 else if t = 2 then 3 else 4, 0, 0, 0, 0⟩
  task_head := 0
  current_task := 0
  scheduler_timer := 0
  Task_List := []
  Death_task_List := []

theorem three_empty : PoolOk three_tasks [] := ⟨[], ⟨trivial, rfl, by simp, by simp, by simp⟩, .refl _⟩

/-- The tasks 1 and 2 linked in this order. -/
def two_linked : Kernel := ((three_tasks.set_next 1 2).set_priv 2 1)

theorem pool_ordered_between : AddSafe { two_linked with task_head := 1 } [1, 2] 3 := by
  have hok : PoolOk { two_linked with task_head := 1 } [1, 2] :=
    ⟨[1, 2], ⟨⟨rfl, rfl, rfl, rfl, trivial⟩, rfl, by decide, by decide, by decide⟩, .refl _⟩
  exact ((pool_ordered hok .refl).2.1 3 (by decide) (by decide)).2 (.inr ⟨by decide, 2, by decide, by decide⟩)

/-- The search for a place of a second task with a lower priority than the
first runs over the end of the pool. -/
theorem pool_not_ordered : ¬∀ (k : Kernel) (members : List Nat) (new : Nat),
    Relation.ReflTransGen PoolStep (three_tasks, []) (k, members) → new ≠ 0 → new ∉ members → AddSafe k members new := by
  intro hall
  obtain ⟨k, hadd, hhead, h1, h2⟩ : ∃ k, add_task_to_task_pool 0 1 three_tasks = some k ∧ k.task_head = 1 ∧
      k.priority 1 = 5 ∧ k.priority 2 = 3 := ⟨_, rfl, rfl, rfl, rfl⟩
  have hstep : PoolStep (three_tasks, []) (k, [1]) := .add 0 1 (by decide) (by decide) (.inl rfl) hadd
  have hsafe := hall k [1] 2 (.single hstep) (by decide) (by decide)
  rcases (add_safe_iff (poolStep_ok three_empty hstep) (by decide) (by simp)).1 hsafe with h0 | ⟨-, t, ht, hle⟩
  · rw [hhead] at h0
    exact absurd h0 (by decide)
  · obtain rfl := List.mem_singleton.1 ht
    rw [h1, h2] at hle
    exact absurd hle (by decide)

end Pool

end McLinOS.Sched
