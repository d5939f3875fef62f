import Mathlib.Logic.Relation
/-!
# Runs of a step relation

A system is an initial condition and a step relation. What one step preserves,
every run preserves.
-/
namespace CLib

variable {σ : Type} {init : σ → Prop} {step : σ → σ → Prop}

/-- `s` ends a run that starts in an initial state. -/
def Reachable (init : σ → Prop) (step : σ → σ → Prop) (s : σ) : Prop :=
  ∃ s₀, init s₀ ∧ Relation.ReflTransGen step s₀ s

theorem Reachable.start {s : σ} (h : init s) : Reachable init step s := ⟨s, h, .refl⟩

theorem Reachable.next {s s' : σ} (h : Reachable init step s) (hs : step s s') : Reachable init step s' :=
  let ⟨s₀, h0, hr⟩ := h
  ⟨s₀, h0, hr.tail hs⟩

/-- A run from a reachable state stays reachable. -/
theorem Reachable.run {s s' : σ} (h : Reachable init step s) (hr : Relation.ReflTransGen step s s') :
    Reachable init step s' :=
  let ⟨s₀, h0, h1⟩ := h
  ⟨s₀, h0, h1.trans hr⟩

/-- The invariant rule. -/
theorem Reachable.inv (I : σ → Prop) (hinit : ∀ s, init s → I s) (hstep : ∀ s s', I s → step s s' → I s')
    {s : σ} (h : Reachable init step s) : I s := by
  obtain ⟨s₀, h0, hr⟩ := h
  induction hr with
  | refl => exact hinit s₀ h0
  | tail _ hs ih => exact hstep _ _ ih hs

/-! ## Calls with results -/

section Calls
variable {τ α β : Type} {step : σ → α → β × σ} {step' : τ → α → β × τ}

/-- The results of calls one after another, and the state they leave. -/
def calls (step : σ → α → β × σ) : List α → σ → List β × σ
  | [], s => ([], s)
  | a :: as, s => ((step s a).1 :: (calls step as (step s a).2).1, (calls step as (step s a).2).2)

/-- Two systems whose calls from related states agree cannot be told apart. -/
theorem calls_simulates (R : σ → τ → Prop)
    (hstep : ∀ s t, R s t → ∀ a, (step s a).1 = (step' t a).1 ∧ R (step s a).2 (step' t a).2) {s : σ} {t : τ} (h : R s t)
    (as : List α) : (calls step as s).1 = (calls step' as t).1 ∧ R (calls step as s).2 (calls step' as t).2 := by
  induction as generalizing s t with
  | nil => exact ⟨rfl, h⟩
  | cons a as ih =>
    obtain ⟨hresult, hnext⟩ := hstep s t h a
    obtain ⟨hresults, hlast⟩ := ih hnext
    exact ⟨by rw [calls, calls, hresult, hresults], hlast⟩

end Calls

/-- Calls one after another that all succeed are a run. -/
theorem run_of_foldlM {α : Type*} {f : σ → α → Option σ} {as : List α} {s s' : σ}
    (hstep : ∀ a ∈ as, ∀ s s', f s a = some s' → step s s') (h : as.foldlM f s = some s') :
    Relation.ReflTransGen step s s' := by
  induction as generalizing s with
  | nil =>
    obtain rfl : s = s' := Option.some.inj h
    exact .refl
  | cons a as ih =>
    rw [List.foldlM_cons] at h
    obtain ⟨s₁, hcall, hrest⟩ := Option.bind_eq_some_iff.1 h
    rw [List.forall_mem_cons] at hstep
    exact .head (hstep.1 s s₁ hcall) (ih hstep.2 hrest)

end CLib
