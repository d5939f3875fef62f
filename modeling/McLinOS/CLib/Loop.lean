import Mathlib.Tactic.Common
/-!
# Loops with fuel

A C loop is run by `loop body fuel`. Each turn of `body` either leaves the
loop with a result or goes round again with a new state. `none` means that
`fuel` turns were not enough, so "the loop terminates" is "some fuel gives a
result".
-/
namespace CLib

/-- One turn of a loop. -/
inductive ControlFlow (σ ρ : Type) where
  | done (r : ρ)
  | cont (s : σ)

variable {σ ρ : Type}

def loop (body : σ → ControlFlow σ ρ) : Nat → σ → Option ρ
  | 0, _ => none
  | fuel + 1, s =>
    match body s with
    | .done r => some r
    | .cont s' => loop body fuel s'

theorem loop_done {body : σ → ControlFlow σ ρ} {s : σ} {r : ρ} (h : body s = .done r) (fuel : Nat) :
    loop body (fuel + 1) s = some r := by
  simp [loop, h]

theorem loop_cont {body : σ → ControlFlow σ ρ} {s s' : σ} (h : body s = .cont s') (fuel : Nat) :
    loop body (fuel + 1) s = loop body fuel s' := by
  simp [loop, h]

/-- More fuel does not change a result. -/
theorem loop_mono {body : σ → ControlFlow σ ρ} {n m : Nat} (hnm : n ≤ m) {s : σ} {r : ρ}
    (h : loop body n s = some r) : loop body m s = some r := by
  induction n generalizing m s with
  | zero => cases h
  | succ n ih =>
    obtain ⟨m, rfl⟩ : ∃ k, m = k + 1 := ⟨m - 1, by omega⟩
    unfold loop at h ⊢
    split <;> simp_all

/-- More fuel keeps a result of `f`. -/
def FuelMono (f : Nat → Option ρ) : Prop := ∀ n m r, n ≤ m → f n = some r → f m = some r

/-- Two fuels that both suffice give the same result. -/
theorem FuelMono.det {f : Nat → Option ρ} (h : FuelMono f) {n m : Nat} {r r' : ρ} (hn : f n = some r)
    (hm : f m = some r') : r = r' := by
  have h1 := h _ _ _ (Nat.le_max_left n m) hn
  rw [h _ _ _ (Nat.le_max_right n m) hm] at h1
  exact (Option.some.inj h1).symm

theorem FuelMono.const (r : Option ρ) : FuelMono fun _ => r := fun _ _ _ _ h => h

theorem FuelMono.loop (body : σ → ControlFlow σ ρ) (s : σ) : FuelMono fun n => loop body n s :=
  fun _ _ _ hnm h => loop_mono hnm h

theorem FuelMono.bind {f : Nat → Option σ} {g : σ → Nat → Option ρ} (hf : FuelMono f) (hg : ∀ a, FuelMono (g a)) :
    FuelMono fun n => (f n).bind fun a => g a n := by
  intro n m r hnm h
  obtain ⟨a, ha, hr⟩ := Option.bind_eq_some_iff.1 h
  exact Option.bind_eq_some_iff.2 ⟨a, hf _ _ _ hnm ha, hg a _ _ _ hnm hr⟩

theorem FuelMono.join {f : Nat → Option (Option ρ)} (hf : FuelMono f) : FuelMono fun n => (f n).join :=
  fun _ _ _ hnm h => Option.join_eq_some_iff.2 (hf _ _ _ hnm (Option.join_eq_some_iff.1 h))

/-- The invariant rule: a body that keeps `inv` and lowers `measure` leaves the
loop within `measure` turns, in a state satisfying `post`. -/
theorem loop_spec {body : σ → ControlFlow σ ρ} (measure : σ → Nat) (inv : σ → Prop) (post : ρ → Prop)
    (hbody : ∀ s, inv s → (∃ r, body s = .done r ∧ post r) ∨
      ∃ s', body s = .cont s' ∧ inv s' ∧ measure s' < measure s)
    {s : σ} (hs : inv s) {fuel : Nat} (hf : measure s < fuel) :
    ∃ r, loop body fuel s = some r ∧ post r := by
  induction fuel generalizing s with
  | zero => omega
  | succ fuel ih =>
    rcases hbody s hs with ⟨r, hr, hp⟩ | ⟨s', hs', hi, hm⟩
    · exact ⟨r, loop_done hr fuel, hp⟩
    · rw [loop_cont hs']
      exact ih hi (by omega)

/-- A loop that is left after `n` turns. -/
theorem loop_count {body : σ → ControlFlow σ ρ} (inv : Nat → σ → Prop) (post : ρ → Prop) {n : Nat}
    (hbody : ∀ k < n, ∀ s, inv k s → ∃ s', body s = .cont s' ∧ inv (k + 1) s')
    (hend : ∀ s, inv n s → ∃ r, body s = .done r ∧ post r) {s : σ} (hs : inv 0 s) {fuel : Nat} (hf : n < fuel) :
    ∃ r, loop body fuel s = some r ∧ post r := by
  have hfrom : ∀ (left k : Nat) (s : σ), k + left = n → inv k s → ∃ r, loop body (left + 1) s = some r ∧ post r := by
    intro left
    induction left with
    | zero =>
      rintro k s rfl hk
      obtain ⟨r, hr, hp⟩ := hend s hk
      exact ⟨r, loop_done hr 0, hp⟩
    | succ left ih =>
      intro k s hleft hk
      obtain ⟨s', hs', hk'⟩ := hbody k (by omega) s hk
      rw [loop_cont hs']
      exact ih (k + 1) s' (by omega) hk'
  obtain ⟨r, hr, hp⟩ := hfrom n 0 s (Nat.zero_add n) hs
  exact ⟨r, loop_mono hf hr, hp⟩

/-- A body that lowers `measure` leaves the loop. -/
theorem loop_ends {body : σ → ControlFlow σ ρ} (measure : σ → Nat)
    (hbody : ∀ s s', body s = .cont s' → measure s' < measure s) {s : σ} {fuel : Nat} (hf : measure s < fuel) :
    ∃ r, loop body fuel s = some r := by
  have hturn : ∀ s, True → (∃ r, body s = .done r ∧ True) ∨
      ∃ s', body s = .cont s' ∧ True ∧ measure s' < measure s := by
    intro s _
    cases h : body s with
    | done r => exact .inl ⟨r, rfl, trivial⟩
    | cont s' => exact .inr ⟨s', rfl, trivial, hbody s s' h⟩
  obtain ⟨r, hr, -⟩ := loop_spec measure (fun _ => True) (fun _ => True) hturn trivial hf
  exact ⟨r, hr⟩

/-- Any fuel beyond `measure` does. -/
theorem loop_enough {body : σ → ControlFlow σ ρ} (measure : σ → Nat)
    (hbody : ∀ s s', body s = .cont s' → measure s' < measure s) {s : σ} {fuel : Nat} (hf : measure s < fuel) :
    loop body fuel s = loop body (measure s + 1) s := by
  obtain ⟨r, hr⟩ := loop_ends measure hbody (Nat.lt_succ_self (measure s))
  rw [hr, loop_mono hf hr]

/-- Such a loop with just that fuel, turn by turn. -/
theorem loop_unfold {body : σ → ControlFlow σ ρ} (measure : σ → Nat)
    (hbody : ∀ s s', body s = .cont s' → measure s' < measure s) (s : σ) :
    loop body (measure s + 1) s =
      match body s with
      | .done r => some r
      | .cont s' => loop body (measure s' + 1) s' := by
  cases h : body s with
  | done r => exact loop_done h _
  | cont s' => exact (loop_cont h _).trans (loop_enough measure hbody (hbody s s' h))

/-- A `for` loop that counts to `n`. -/
theorem foldl_range_rec {α : Type} {motive : Nat → α → Prop} {f : α → Nat → α} {a : α} (n : Nat) (h0 : motive 0 a)
    (hs : ∀ k < n, ∀ b, motive k b → motive (k + 1) (f b k)) : motive n ((List.range n).foldl f a) := by
  induction n with
  | zero => exact h0
  | succ n ih =>
    rw [List.range_succ, List.foldl_append, List.foldl_cons, List.foldl_nil]
    exact hs n (Nat.lt_succ_self n) _ (ih fun k hk => hs k (Nat.lt_succ_of_lt hk))

/-- A loop whose body does something in only one of its turns. -/
theorem foldlM_one {α β : Type} (f : α → β → Option α) (p : β → Prop) [DecidablePred p] {xs : List β} {x : β} (hx : x ∈ xs)
    (hnd : xs.Nodup) (hp : ∀ y ∈ xs, p y ↔ y = x) (a : α) :
    xs.foldlM (fun a y => if p y then f a y else some a) a = f a x := by
  have hskip : ∀ (ys : List β) (b : α), (∀ y ∈ ys, ¬p y) → ys.foldlM (fun a y => if p y then f a y else some a) b = some b := by
    intro ys b
    induction ys with
    | nil => exact fun _ => rfl
    | cons y ys ih =>
      intro h
      obtain ⟨hy, hys⟩ := List.forall_mem_cons.1 h
      rw [List.foldlM_cons, if_neg hy]
      exact ih hys
  obtain ⟨us, vs, rfl⟩ := List.append_of_mem hx
  obtain ⟨-, hv, huv⟩ := List.nodup_append.1 hnd
  have hus : ∀ y ∈ us, ¬p y := fun y hy hpy => huv y hy x (by simp) ((hp y (by simp [hy])).1 hpy)
  have hvs : ∀ y ∈ vs, ¬p y := by
    intro y hy hpy
    obtain rfl := (hp y (by simp [hy])).1 hpy
    exact (List.nodup_cons.1 hv).1 hy
  rw [List.foldlM_append, hskip us a hus, Option.bind_eq_bind, Option.bind_some, List.foldlM_cons, if_pos ((hp x hx).2 rfl)]
  cases hf : f a x with
  | none => rfl
  | some b => exact hskip vs b hvs

end CLib
