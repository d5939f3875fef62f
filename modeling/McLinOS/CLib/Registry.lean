import McLinOS.CLib.Chain
import McLinOS.CLib.Loop
import McLinOS.CLib.Runs
/-!
# Registries

A registry has at most one entry for a name. A linked list of entries with different
names stands for it, whatever the order they come in.
-/
namespace CLib

open Function

/-! ## Lists that are walked -/

/-- From `a` on, `next` leads through `xs` to `stop`. -/
def Leads (next : Nat → Nat) (stop : Nat) : Nat → List Nat → Prop
  | a, [] => a = stop
  | a, x :: xs => a = x ∧ x ≠ stop ∧ Leads next stop (next x) xs

namespace Leads
variable {next next' : Nat → Nat} {stop a x y : Nat} {xs us vs : List Nat}

theorem congr (h : Leads next stop a xs) (hn : ∀ x ∈ xs, next' x = next x) : Leads next' stop a xs := by
  induction xs generalizing a with
  | nil => exact h
  | cons x xs ih =>
    obtain ⟨ha, hx, hrest⟩ := h
    refine ⟨ha, hx, ?_⟩
    rw [hn x List.mem_cons_self]
    exact ih hrest fun y hy => hn y (List.mem_cons_of_mem x hy)

theorem stop_notMem (h : Leads next stop a xs) : stop ∉ xs := by
  induction xs generalizing a with
  | nil => simp
  | cons x xs ih => exact fun hm => (List.mem_cons.1 hm).elim (fun he => h.2.1 he.symm) (ih h.2.2)

/-- The entry behind the node `y` is left out. -/
theorem skip (h : Leads next stop a (us ++ y :: x :: vs)) (hnd : (us ++ y :: x :: vs).Nodup) :
    Leads (update next y (next x)) stop a (us ++ y :: vs) := by
  induction us generalizing a with
  | nil =>
    obtain ⟨ha, hy, -, -, hrest⟩ := h
    refine ⟨ha, hy, ?_⟩
    rw [update_self]
    have hout : y ∉ vs := fun hm => (List.nodup_cons.1 hnd).1 (List.mem_cons_of_mem x hm)
    refine hrest.congr fun z hz => update_of_ne ?_ _ _
    rintro rfl
    exact hout hz
  | cons u us ih =>
    obtain ⟨ha, hu, hrest⟩ := h
    obtain ⟨hout, hnd⟩ := List.nodup_cons.1 hnd
    refine ⟨ha, hu, ?_⟩
    rw [update_of_ne (fun he => hout (by simp [he]))]
    exact ih hrest hnd

/-- A walk that ends at the first entry that is looked for. -/
theorem search {hit : Nat → Prop} [DecidablePred hit] {body : Nat → ControlFlow Nat (Option Nat)}
    (hend : body stop = .done none) (hhit : ∀ x ∈ xs, hit x → body x = .done (some x))
    (hmiss : ∀ x ∈ xs, ¬hit x → body x = .cont (next x)) (h : Leads next stop a xs) {fuel : Nat} (hf : xs.length < fuel) :
    loop body fuel a = some (xs.find? fun x => hit x) := by
  induction xs generalizing a fuel with
  | nil =>
    obtain ⟨fuel, rfl⟩ : ∃ k, fuel = k + 1 := ⟨fuel - 1, by omega⟩
    obtain rfl : a = stop := h
    exact loop_done hend fuel
  | cons x xs ih =>
    obtain ⟨fuel, rfl⟩ : ∃ k, fuel = k + 1 := ⟨fuel - 1, by omega⟩
    obtain ⟨rfl, -, hrest⟩ := h
    by_cases hx : hit a
    · rw [loop_done (hhit a List.mem_cons_self hx), List.find?_cons_of_pos (by simpa using hx)]
    · rw [loop_cont (hmiss a List.mem_cons_self hx), List.find?_cons_of_neg (by simpa using hx)]
      exact ih (fun y hy => hhit y (List.mem_cons_of_mem a hy)) (fun y hy => hmiss y (List.mem_cons_of_mem a hy)) hrest
        (by simpa using hf)

end Leads

/-- A chain is walked from its first node to what is behind it. -/
theorem Chain.leads {nx pv : Nat → Nat} {p q : Nat} {xs : List Nat} (h : Chain nx pv p xs q) (hq : q ∉ xs) :
    Leads nx q (xs.headD q) xs := by
  induction xs generalizing p with
  | nil => rfl
  | cons x xs ih =>
    refine ⟨rfl, fun he => hq (he ▸ List.mem_cons_self), ?_⟩
    rw [h.2.1]
    exact ih h.2.2 fun hm => hq (List.mem_cons_of_mem x hm)

/-! ## Names and entries -/

/-- The entry under each name. -/
abbrev Registry (ν : Type) := ν → Option Nat

/-- The entries `xs` have different names and are those of `r`. -/
structure Lists {ν : Type} (name : Nat → ν) (xs : List Nat) (r : Registry ν) : Prop where
  distinct : (xs.map name).Nodup
  entry : ∀ n x, r n = some x ↔ x ∈ xs ∧ name x = n

namespace Lists
variable {ν : Type} {name : Nat → ν} {xs ys : List Nat} {r : Registry ν} {x : Nat} {n : ν}

theorem nil (name : Nat → ν) : Lists name [] fun _ => none := ⟨List.nodup_nil, by simp⟩

theorem perm (h : Lists name xs r) (hp : xs.Perm ys) : Lists name ys r where
  distinct := (hp.map name).nodup_iff.1 h.distinct
  entry n x := by rw [h.entry, hp.mem_iff]

theorem nodup (h : Lists name xs r) : xs.Nodup := h.distinct.of_map

theorem absent (h : Lists name xs r) (hn : r n = none) (hx : x ∈ xs) : name x ≠ n := by
  intro hname
  have hsome := (h.entry n x).2 ⟨hx, hname⟩
  rw [hn] at hsome
  cases hsome

theorem new_notMem (h : Lists name xs r) (hx : r (name x) = none) : x ∉ xs := fun hm => h.absent hx hm rfl

variable [DecidableEq ν]

/-- The first entry with a name is the one that is registered. -/
theorem find (h : Lists name xs r) (n : ν) : (xs.find? fun x => name x = n) = r n := by
  cases hr : r n with
  | none => exact List.find?_eq_none.2 fun x hx => by simpa using h.absent hr hx
  | some x =>
    cases hfind : xs.find? fun x => name x = n with
    | none =>
      obtain ⟨hx, hname⟩ := (h.entry n x).1 hr
      exact absurd (by simpa using hname) (List.find?_eq_none.1 hfind x hx)
    | some y =>
      have hy := (h.entry n y).2 ⟨List.mem_of_find?_eq_some hfind, by simpa using List.find?_some hfind⟩
      rw [← hy, hr]

theorem add (h : Lists name xs r) (hx : r (name x) = none) : Lists name (x :: xs) (update r (name x) (some x)) where
  distinct := by
    refine List.nodup_cons.2 ⟨fun hm => ?_, h.distinct⟩
    obtain ⟨y, hy, hname⟩ := List.mem_map.1 hm
    exact h.absent hx hy hname
  entry n y := by
    by_cases hn : n = name x
    · subst hn
      rw [update_self, List.mem_cons, Option.some.injEq]
      constructor
      · rintro rfl
        exact ⟨.inl rfl, rfl⟩
      · rintro ⟨rfl | hy, hname⟩
        · rfl
        · exact absurd hname (h.absent hx hy)
    · rw [update_of_ne hn, h.entry, List.mem_cons]
      refine and_congr_left fun hname => (or_iff_right ?_).symm
      rintro rfl
      exact hn hname.symm

theorem remove (h : Lists name (xs ++ x :: ys) r) : Lists name (xs ++ ys) (update r (name x) none) := by
  have hfirst : Lists name (x :: (xs ++ ys)) r := h.perm List.perm_middle
  obtain ⟨hout, hdistinct⟩ := List.nodup_cons.1 hfirst.distinct
  refine ⟨hdistinct, fun n y => ?_⟩
  by_cases hn : n = name x
  · subst hn
    rw [update_self]
    refine iff_of_false (by simp) ?_
    rintro ⟨hy, hname⟩
    exact hout (hname ▸ List.mem_map_of_mem hy)
  · rw [update_of_ne hn, hfirst.entry, List.mem_cons]
    refine and_congr_left fun hname => or_iff_right ?_
    rintro rfl
    exact hn hname.symm

end Lists

/-! ## Calls -/

/-- Calls that agree from related states, as long as there are at most `bound` entries and
each call adds one at most. -/
theorem calls_simulates_sized {σ τ α β : Type} {step : σ → α → β × σ} {step' : τ → α → β × τ} (R : Nat → σ → τ → Prop)
    (fits : α → Prop) (bound : Nat) (hstep : ∀ n s t, n < bound → R n s t → ∀ a, fits a →
      (step s a).1 = (step' t a).1 ∧ R (n + 1) (step s a).2 (step' t a).2) {n : Nat} {s : σ} {t : τ} (h : R n s t)
    {as : List α} (has : ∀ a ∈ as, fits a) (hn : n + as.length ≤ bound) :
    (calls step as s).1 = (calls step' as t).1 ∧ R (n + as.length) (calls step as s).2 (calls step' as t).2 := by
  induction as generalizing n s t with
  | nil => exact ⟨rfl, h⟩
  | cons a as ih =>
    rw [List.length_cons] at hn
    obtain ⟨hfits, hrest⟩ := List.forall_mem_cons.1 has
    obtain ⟨hresult, hnext⟩ := hstep n s t (by omega) h a hfits
    obtain ⟨hresults, hlast⟩ := ih hnext hrest (by omega)
    rw [List.length_cons, Nat.add_comm as.length, ← Nat.add_assoc]
    exact ⟨by rw [calls, calls, hresult, hresults], hlast⟩

end CLib
