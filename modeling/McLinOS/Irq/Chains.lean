import Mathlib.Logic.Relation
import McLinOS.Irq.Model
/-!
# Lines of handlers

Each line of `IRQ_list` is the chain of the actions registered for it. Requests
inside the table keep it so. A removal does unless it is of the first of several.
-/
open CLib Function

namespace McLinOS.Irq

/-- What `request_irq` registered: the action and its handler. -/
structure Entry where
  action : Nat
  handler : Nat
  dev_id : Nat
  deriving DecidableEq

namespace Irqs
variable (k : Irqs) (a v : Nat)

theorem field_modify {α : Type} (g : irqaction → α) (f : irqaction → irqaction) (h : g (f (k.actions a)) = g (k.actions a))
    (b : Nat) : g ((k.modify a f).actions b) = g (k.actions b) := by
  by_cases hb : b = a
  · simp [modify, hb, h]
  · simp [modify, hb]

@[simp] theorem next_set_next : (k.set_next a v).next = update k.next a v := by
  funext b
  by_cases hb : b = a
  · simp [next, set_next, modify, hb]
  · simp [next, set_next, modify, hb]

@[simp] theorem secondary_set_secondary : (k.set_secondary a v).secondary = update k.secondary a v := by
  funext b
  by_cases hb : b = a
  · simp [secondary, set_secondary, modify, hb]
  · simp [secondary, set_secondary, modify, hb]

@[simp] theorem next_set_secondary : (k.set_secondary a v).next = k.next :=
  funext fun b => k.field_modify a (·.next) _ (by simp) b
@[simp] theorem secondary_set_next : (k.set_next a v).secondary = k.secondary :=
  funext fun b => k.field_modify a (·.secondary) _ (by simp) b
@[simp] theorem next_touch : (k.touch a).next = k.next := rfl
@[simp] theorem secondary_touch : (k.touch a).secondary = k.secondary := rfl

theorem call_set_next (b : Nat) : call_of (k.set_next a v) b = call_of k b :=
  k.field_modify a (fun s => HandlerCall.mk s.handler s.irq s.dev_id) _ rfl b

theorem call_set_secondary (b : Nat) : call_of (k.set_secondary a v) b = call_of k b :=
  k.field_modify a (fun s => HandlerCall.mk s.handler s.irq s.dev_id) _ rfl b

theorem actions_set_next {b : Nat} (h : b ≠ a) : (k.set_next a v).actions b = k.actions b := update_of_ne h _ _

theorem actions_set_secondary {b : Nat} (h : b ≠ a) : (k.set_secondary a v).actions b = k.actions b :=
  update_of_ne h _ _

end Irqs

/-- The line of `irq` holds the actions of `es` in this order. -/
structure Line (k : Irqs) (irq : Nat) (es : List Entry) : Prop where
  chain : Chain k.next k.secondary 0 (es.map (·.action)) 0
  head : k.IRQ_list irq = (es.map (·.action)).headD 0
  nonnull : 0 ∉ es.map (·.action)
  nodup : (es.map (·.action)).Nodup
  filled : ∀ e ∈ es, call_of k e.action = ⟨e.handler, irq, e.dev_id⟩

/-- Every line of a table of `n` entries holds what is registered for it. -/
def Lines (n : Nat) (k : Irqs) (reg : Nat → List Entry) : Prop := ∀ irq < n, Line k irq (reg irq)

section Line
variable {n : Nat} {k k' : Irqs} {irq : Nat} {es : List Entry} {reg : Nat → List Entry}

theorem Line.congr (h : Line k irq es) (hact : ∀ e ∈ es, k'.actions e.action = k.actions e.action)
    (hl : k'.IRQ_list irq = k.IRQ_list irq) : Line k' irq es where
  chain := h.chain.congr (fun a ha => by
      obtain ⟨e, he, rfl⟩ := List.mem_map.1 ha
      rw [Irqs.next, Irqs.next, hact e he]) fun a ha => by
      obtain ⟨e, he, rfl⟩ := List.mem_map.1 ha
      rw [Irqs.secondary, Irqs.secondary, hact e he]
  head := hl.trans h.head
  nonnull := h.nonnull
  nodup := h.nodup
  filled := fun e he => by rw [← h.filled e he, call_of, call_of, hact e he]

/-- An action is on one line only. -/
theorem Lines.line_eq (h : Lines n k reg) {i j : Nat} (hi : i < n) (hj : j < n) {e e' : Entry} (he : e ∈ reg i)
    (he' : e' ∈ reg j) (ha : e.action = e'.action) : i = j := by
  have h1 := (h i hi).filled e he
  rw [ha, (h j hj).filled e' he'] at h1
  exact (HandlerCall.mk.inj h1).2.1.symm

/-! ## Dispatching -/

theorem run_irq {p : Nat} (calls : List HandlerCall) (h : Chain k.next k.secondary p (es.map (·.action)) 0)
    (h0 : 0 ∉ es.map (·.action)) {fuel : Nat} (hf : es.length < fuel) :
    loop (Run_IRQ_Fn_body k) fuel ((es.map (·.action)).headD 0, calls) =
      some (calls ++ es.map fun e => call_of k e.action) := by
  induction es generalizing p calls fuel with
  | nil =>
    obtain ⟨fuel, rfl⟩ : ∃ m, fuel = m + 1 := ⟨fuel - 1, by simp at hf; omega⟩
    have hturn : Run_IRQ_Fn_body k (0, calls) = .done calls := by simp [Run_IRQ_Fn_body]
    simpa using loop_done hturn fuel
  | cons e es ih =>
    obtain ⟨fuel, rfl⟩ : ∃ m, fuel = m + 1 := ⟨fuel - 1, by simp at hf; omega⟩
    have he : e.action ≠ 0 := by
      intro he
      exact h0 (by simp [he])
    have hturn : Run_IRQ_Fn_body k (e.action, calls) = .cont (k.next e.action, calls ++ [call_of k e.action]) :=
      if_neg he
    rw [List.map_cons, List.headD_cons, loop_cont hturn, h.2.1,
      ih _ h.2.2 (fun hm => h0 (by simp [hm])) (by simp at hf; omega)]
    simp

theorem run_empty {fuel : Nat} {calls : List HandlerCall} (h : Run_IRQ_Fn fuel k 0 = some calls) : calls = [] := by
  cases fuel with
  | zero => exact absurd h (by simp [Run_IRQ_Fn, loop])
  | succ fuel =>
    have hturn : Run_IRQ_Fn_body k (0, []) = .done [] := by simp [Run_IRQ_Fn_body]
    rw [Run_IRQ_Fn, loop_done hturn] at h
    exact (Option.some.inj h).symm

/-- Each line calls its handlers, each once, in the order of registration. -/
def DispatchOk (n : Nat) (k : Irqs) (reg : Nat → List Entry) : Prop :=
  ∀ irq < n, ∃ fuel, C_IRQ_Dispatcher n fuel k irq =
    some ((reg irq).map fun e => HandlerCall.mk e.handler irq e.dev_id, decide ((reg irq).length = 0))

theorem Lines.dispatch (h : Lines n k reg) : DispatchOk n k reg := by
  intro irq hirq
  have hl := h irq hirq
  refine ⟨(reg irq).length + 1, ?_⟩
  have hcalls : ((reg irq).map fun e => call_of k e.action) = (reg irq).map fun e => HandlerCall.mk e.handler irq e.dev_id :=
    List.map_congr_left hl.filled
  rw [C_IRQ_Dispatcher, if_neg (by omega), hl.head, Run_IRQ_Fn, run_irq [] hl.chain hl.nonnull (Nat.lt_succ_self _),
    List.nil_append, hcalls]
  simp

/-- What the kernel gets: the right calls, and only entries of the table used so far. -/
def Served (n : Nat) (k : Irqs) (reg : Nat → List Entry) : Prop := DispatchOk n k reg ∧ ∀ i ∈ k.accesses, i < n

/-! ## Requests -/

/-- The invariant behind `Served`. -/
structure IrqOk (n : Nat) (k : Irqs) (reg : Nat → List Entry) : Prop where
  lines : Lines n k reg
  inside : ∀ i ∈ k.accesses, i < n

theorem IrqOk.served (h : IrqOk n k reg) : Served n k reg := ⟨h.lines.dispatch, h.inside⟩

/-- Registered after a request that was given `new`. -/
def requested (reg : Nat → List Entry) (new : Option Nat) (irq handler dev : Nat) : Nat → List Entry :=
  match new with
  | none => reg
  | some a => update reg irq (reg irq ++ [⟨a, handler, dev⟩])

/-- `kmalloc` returned a block that is no action of the table. -/
def Fresh (n : Nat) (reg : Nat → List Entry) (new : Option Nat) : Prop :=
  ∀ a, new = some a → a ≠ 0 ∧ ∀ i < n, a ∉ (reg i).map (·.action)

def RequestSafe (n : Nat) (k : Irqs) (reg : Nat → List Entry) (new : Option Nat) (irq handler flags dev : Nat) : Prop :=
  ∃ fuel ret k', request_irq fuel new irq handler flags dev k = some (ret, k') ∧
    Served n k' (requested reg new irq handler dev)

def RequestFits (n : Nat) (new : Option Nat) (irq : Nat) : Prop := new = none ∨ irq < n

theorem last_walk {i p : Nat} {as : List Nat} (h : Chain k.next k.secondary p (as ++ [i]) 0) (h0 : 0 ∉ as ++ [i])
    {fuel : Nat} (hf : as.length < fuel) : loop (add_irq_body k) fuel ((as ++ [i]).headD 0) = some i := by
  induction as generalizing p fuel with
  | nil =>
    obtain ⟨fuel, rfl⟩ : ∃ m, fuel = m + 1 := ⟨fuel - 1, by simp at hf; omega⟩
    exact loop_done (show add_irq_body k i = .done i from if_pos h.2.1) fuel
  | cons a as ih =>
    obtain ⟨fuel, rfl⟩ : ∃ m, fuel = m + 1 := ⟨fuel - 1, by simp at hf; omega⟩
    have hnext : k.next a = (as ++ [i]).headD 0 := h.2.1
    have hne : k.next a ≠ 0 := by
      rw [hnext]
      intro hz
      cases as with
      | nil => exact h0 (by simp [show i = 0 from hz])
      | cons b as => exact h0 (by simp [show b = 0 from hz])
    have hturn : add_irq_body k a = .cont (k.next a) := if_neg hne
    rw [List.cons_append, List.headD_cons, loop_cont hturn, hnext]
    exact ih h.2.2 (fun hm => h0 (by simp at hm ⊢; tauto)) (by simp at hf; omega)

/-- The struct of the new action is filled, the lines are as before. -/
theorem Lines.fill {a : Nat} (h : Lines n k reg) (ha : ∀ i < n, a ∉ (reg i).map (·.action))
    (f : irqaction → irqaction) : Lines n (k.modify a f) reg := by
  intro i hi
  refine (h i hi).congr (fun e he => ?_) rfl
  have hne : e.action ≠ a := by
    rintro rfl
    exact ha i hi (List.mem_map_of_mem he)
  exact update_of_ne hne _ _

/-- A change to one line and its actions. -/
theorem Lines.update_line {as : List Nat} (h : Lines n k reg) (hirq : irq < n) (hl : Line k' irq es)
    (has : ∀ i < n, i ≠ irq → ∀ e ∈ reg i, e.action ∉ as)
    (hact : ∀ a, a ∉ as → k'.actions a = k.actions a) (hlist : ∀ i, i ≠ irq → k'.IRQ_list i = k.IRQ_list i) :
    Lines n k' (update reg irq es) := by
  intro i hi
  by_cases hne : i = irq
  · subst hne
    rwa [update_self]
  · rw [update_of_ne hne]
    exact (h i hi).congr (fun e he => hact _ (has i hi hne e he)) (hlist i hne)

theorem request_fits {new : Option Nat} {handler flags dev fuel : Nat} (h : IrqOk n k reg) (hnew : Fresh n reg new)
    (hfit : RequestFits n new irq) (hf : (reg irq).length < fuel) :
    ∃ ret k', request_irq fuel new irq handler flags dev k = some (ret, k') ∧
      IrqOk n k' (requested reg new irq handler dev) := by
  rcases new with _ | a
  · exact ⟨_, k, rfl, h⟩
  have hirq : irq < n := hfit.resolve_left (by simp)
  obtain ⟨ha0, hfresh⟩ := hnew a rfl
  let k₁ := k.modify a fun _ => { handler, dev_id := dev, next := 0, secondary := 0, irq, flags }
  have h₁ : Lines n k₁ reg := h.lines.fill hfresh _
  have hself : k₁.actions a = { handler, dev_id := dev, next := 0, secondary := 0, irq, flags } := by
    simp [k₁, Irqs.modify]
  have hl := h₁ irq hirq
  have hcall : call_of k₁ a = ⟨handler, irq, dev⟩ := by rw [call_of, hself]
  have hairq : (k₁.actions a).irq = irq := by rw [hself]
  have hsec : k₁.secondary a = 0 := by rw [Irqs.secondary, hself]
  have hnxt : k₁.next a = 0 := by rw [Irqs.next, hself]
  have hother : ∀ i < n, i ≠ irq → ∀ e ∈ reg i, e.action ∉ a :: (reg irq).map (·.action) := by
    intro i hi hne e he hm
    rcases List.mem_cons.1 hm with hm | hm
    · exact hfresh i hi (List.mem_map.2 ⟨e, he, hm⟩)
    · obtain ⟨e', he', hee⟩ := List.mem_map.1 hm
      exact hne (h.lines.line_eq hi hirq he he' hee.symm)
  have hins : ∀ i ∈ irq :: k.accesses, i < n := List.forall_mem_cons.2 ⟨hirq, h.inside⟩
  unfold request_irq
  simp only [requested]
  show ∃ ret k', (add_irq_to_table fuel a k₁).map _ = some (ret, k') ∧ _
  unfold add_irq_to_table
  rw [hairq]
  rcases List.eq_nil_or_concat (reg irq) with hnil | ⟨es, e, hes⟩
  · have hz : (k₁.touch irq).IRQ_list irq = 0 := by
      have := hl.head
      rwa [hnil] at this
    simp only [if_pos hz, Option.map_some]
    refine ⟨0, _, rfl, ?_, ?_⟩
    · refine h₁.update_line hirq ?_ hother (fun _ _ => rfl) fun i hi => update_of_ne hi _ _
      rw [hnil]
      refine ⟨?_, update_self _ _ _, by simpa using ha0.symm, by simp, ?_⟩
      · exact Chain.singleton.2 ⟨hsec, hnxt⟩
      · intro e he
        obtain rfl := List.mem_singleton.1 he
        exact hcall
    · exact List.forall_mem_cons.2 ⟨hirq, hins⟩
  · rw [List.concat_eq_append] at hes
    have hmap : (reg irq).map (·.action) = es.map (·.action) ++ [e.action] := by rw [hes]; simp
    have hz : (k₁.touch irq).IRQ_list irq ≠ 0 := by
      show k₁.IRQ_list irq ≠ 0
      rw [hl.head]
      intro hz
      have hn0 := hl.nonnull
      rw [hmap] at hz hn0
      cases hm : es.map (·.action) with
      | nil =>
        rw [hm] at hz hn0
        exact hn0 (by simp [show e.action = 0 from hz])
      | cons b bs =>
        rw [hm] at hz hn0
        exact hn0 (by simp [show b = 0 from hz])
    have hc := hl.chain
    have hn0 := hl.nonnull
    have hnd := hl.nodup
    rw [hmap] at hc hn0 hnd
    have hwalk : loop (add_irq_body (k₁.touch irq)) fuel ((k₁.touch irq).IRQ_list irq) = some e.action := by
      show loop (add_irq_body k₁) fuel (k₁.IRQ_list irq) = _
      rw [hl.head, hmap]
      apply last_walk hc hn0
      rw [hes] at hf
      simp at hf ⊢
      omega
    simp only [if_neg hz, hwalk, Option.map_some]
    have hae : a ∉ es.map (·.action) ++ [e.action] := by
      rw [← hmap]
      exact hfresh irq hirq
    have hea : e.action ∉ es.map (·.action) := fun hm =>
      (List.nodup_append.1 hnd).2.2 _ hm _ (by simp) rfl
    refine ⟨0, _, rfl, ?_, hins⟩
    refine h₁.update_line hirq ?_ hother (fun b hb => ?_) fun _ _ => rfl
    · have hmap' : (reg irq ++ [Entry.mk a handler dev]).map (·.action) = es.map (·.action) ++ [e.action, a] := by
        rw [List.map_append, hmap]
        simp
      have hfield : ∀ b, call_of (((k₁.touch irq).set_secondary a e.action).set_next e.action a) b = call_of k₁ b := by
        intro b
        rw [Irqs.call_set_next, Irqs.call_set_secondary]
        rfl
      refine ⟨?_, ?_, ?_, ?_, ?_⟩
      · rw [hmap']
        simp only [Irqs.next_set_next, Irqs.next_set_secondary, Irqs.secondary_set_next, Irqs.secondary_set_secondary,
          Irqs.next_touch, Irqs.secondary_touch]
        exact hc.push hea hae hnxt
      · rw [hmap']
        apply hl.head.trans
        rw [hmap]
        cases es <;> rfl
      · rw [hmap']
        simp only [List.mem_append, List.mem_cons, not_or] at hn0 ⊢
        exact ⟨hn0.1, hn0.2.1, ha0.symm, by simp⟩
      · rw [List.map_append, hmap]
        exact List.nodup_append.2 ⟨hnd, by simp, fun x hx y hy => by
          obtain rfl : y = a := by simpa using hy
          rintro rfl
          exact hae hx⟩
      · intro e' he'
        rw [hfield]
        rcases List.mem_append.1 he' with he' | he'
        · exact hl.filled e' he'
        · obtain rfl := List.mem_singleton.1 he'
          exact hcall
    · simp only [List.mem_cons, not_or] at hb
      obtain ⟨hba, hbe⟩ := hb
      have hbe' : b ≠ e.action := by
        rintro rfl
        exact hbe (by rw [hmap]; simp)
      exact (update_of_ne hbe' _ _).trans (update_of_ne hba _ _)

/-- A request outside the table reads the word behind it. -/
theorem request_touches {fuel a handler flags dev : Nat} {ret : Int}
    (h : request_irq fuel (some a) irq handler flags dev k = some (ret, k')) : irq ∈ k'.accesses := by
  obtain ⟨k₂, hadd, hk⟩ := Option.map_eq_some_iff.1 h
  obtain ⟨-, rfl⟩ := Prod.mk.inj hk
  have hself : ((k.modify a fun _ => { handler, dev_id := dev, next := 0, secondary := 0, irq, flags }).actions a).irq =
      irq := by simp [Irqs.modify]
  unfold add_irq_to_table at hadd
  rw [hself] at hadd
  dsimp only at hadd
  split at hadd
  · rw [← Option.some.inj hadd]
    exact List.mem_cons_self
  · obtain ⟨i, -, rfl⟩ := Option.map_eq_some_iff.1 hadd
    exact List.mem_cons_self

theorem request_mono (new : Option Nat) (irq handler flags dev : Nat) (k : Irqs) :
    FuelMono fun fuel => request_irq fuel new irq handler flags dev k := by
  unfold request_irq
  cases new with
  | none => exact .const _
  | some a =>
    unfold add_irq_to_table
    dsimp only
    simp only [Option.map_eq_bind]
    refine FuelMono.bind ?_ fun _ => .const _
    split
    · exact .const _
    · exact (FuelMono.loop _ _).bind fun _ => .const _

theorem request_safe_iff {new : Option Nat} {handler flags dev : Nat} (h : IrqOk n k reg) (hnew : Fresh n reg new) :
    RequestSafe n k reg new irq handler flags dev ↔ RequestFits n new irq := by
  constructor
  · rintro ⟨fuel, ret, k', hreq, hok⟩
    rcases new with _ | a
    · exact .inl rfl
    · exact .inr (hok.2 irq (request_touches hreq))
  · intro hfit
    obtain ⟨ret, k', hreq, hok⟩ := request_fits h hnew hfit (Nat.lt_succ_self _)
    exact ⟨_, ret, k', hreq, hok.served⟩

/-! ## Removals -/

def dropped (reg : Nat → List Entry) (irq : Nat) (e : Entry) : Nat → List Entry := update reg irq ((reg irq).erase e)

/-- The action is not the first of several. -/
def RemoveFits (k : Irqs) (irq : Nat) (e : Entry) : Prop := k.IRQ_list irq ≠ e.action ∨ k.next e.action = 0

theorem Line.headD_ne (h : Line k irq es) (hne : es ≠ []) : k.IRQ_list irq ≠ 0 := by
  rw [h.head]
  obtain ⟨e, es, rfl⟩ := List.exists_cons_of_ne_nil hne
  exact fun hz => h.nonnull (by simp [show e.action = 0 from hz])

theorem Line.secondary_ne {us vs : List Entry} {e : Entry} (h : Line k irq (us ++ e :: vs)) :
    k.secondary e.action ≠ e.action := by
  have hc := h.chain
  have hnd := h.nodup
  have hn0 := h.nonnull
  rw [List.map_append, List.map_cons] at hc hnd hn0
  rw [(Chain.split.1 hc).2.1.1]
  rcases List.eq_nil_or_concat us with rfl | ⟨us, u, rfl⟩
  · intro hz
    exact hn0 (by simp [← show (0 : Nat) = e.action from hz])
  · rw [List.concat_eq_append, List.map_append, List.map_singleton, List.getLastD_concat]
    intro hue
    exact (List.nodup_append.1 hnd).2.2 u.action (by simp) e.action (by simp) hue

/-- Only the links of the neighbours change. -/
theorem remove_irq_links {us vs : List Entry} {e : Entry} (h : Line k irq (us ++ e :: vs))
    (hirq : (k.actions e.action).irq = irq) (hhead : k.IRQ_list irq ≠ e.action) :
    (remove_irq e.action k).next = Chain.unlinkNext k.next k.secondary e.action ∧
      (remove_irq e.action k).secondary = Chain.unlinkPriv k.next k.secondary e.action ∧
      (remove_irq e.action k).IRQ_list = k.IRQ_list ∧ (remove_irq e.action k).accesses = irq :: k.accesses ∧
      (∀ b, call_of (remove_irq e.action k) b = call_of k b) ∧
      ∀ b, (k.secondary e.action ≠ 0 → b ≠ k.secondary e.action) → (k.next e.action ≠ 0 → b ≠ k.next e.action) →
        (remove_irq e.action k).actions b = k.actions b := by
  have hz : ¬(k.touch irq).IRQ_list irq = 0 := h.headD_ne (by simp)
  have hhead' : ¬(k.touch irq).IRQ_list irq = e.action := hhead
  have hself := h.secondary_ne
  unfold remove_irq
  rw [hirq]
  simp only [if_neg hz, if_neg hhead']
  unfold Chain.unlinkNext Chain.unlinkPriv
  by_cases hp : k.secondary e.action = 0
  · by_cases hn : k.next e.action = 0
    · simp only [hp, hn, Irqs.secondary_touch, Irqs.next_touch, ne_eq, not_true_eq_false, if_false]
      exact ⟨trivial, trivial, rfl, rfl, fun _ => rfl, fun _ _ _ => rfl⟩
    · simp only [hp, hn, Irqs.secondary_touch, Irqs.next_touch, ne_eq, not_true_eq_false, not_false_eq_true, if_false,
        if_true, Irqs.secondary_set_secondary, Irqs.next_set_secondary, Irqs.call_set_secondary]
      exact ⟨trivial, trivial, rfl, rfl, fun _ => rfl, fun b _ hb => Irqs.actions_set_secondary _ _ _ (hb trivial)⟩
  · by_cases hn : k.next e.action = 0
    · simp only [hp, hn, Irqs.secondary_touch, Irqs.next_touch, ne_eq, not_true_eq_false, not_false_eq_true, if_false,
        if_true, Irqs.secondary_set_next, Irqs.next_set_next, Irqs.call_set_next, update_of_ne hself.symm]
      exact ⟨trivial, trivial, rfl, rfl, fun _ => rfl, fun b hb _ => Irqs.actions_set_next _ _ _ (hb trivial)⟩
    · simp only [hp, hn, Irqs.secondary_touch, Irqs.next_touch, ne_eq, not_false_eq_true, if_true,
        Irqs.secondary_set_next, Irqs.next_set_next, Irqs.secondary_set_secondary, Irqs.next_set_secondary,
        Irqs.call_set_next, Irqs.call_set_secondary, update_of_ne hself.symm]
      refine ⟨trivial, trivial, rfl, rfl, fun _ => rfl, fun b hb hb' => ?_⟩
      exact (Irqs.actions_set_secondary _ _ _ (hb' trivial)).trans (Irqs.actions_set_next _ _ _ (hb trivial))

/-- The first action's line is set to `NULL`. -/
theorem remove_irq_first {e : Entry} (h0 : e.action ≠ 0) (hirq : (k.actions e.action).irq = irq)
    (hhead : k.IRQ_list irq = e.action) : remove_irq e.action k = (k.touch irq).set_list irq 0 := by
  have hz : ¬(k.touch irq).IRQ_list irq = 0 := by rwa [← hhead] at h0
  unfold remove_irq
  rw [hirq]
  simp only [if_neg hz, if_pos (show (k.touch irq).IRQ_list irq = e.action from hhead)]

theorem Line.head_nil {us vs : List Entry} {e : Entry} (h : Line k irq (us ++ e :: vs)) (he : k.IRQ_list irq = e.action) :
    us = [] := by
  have hd := h.head
  rw [he] at hd
  cases us with
  | nil => rfl
  | cons u us =>
    have hnd := h.nodup
    rw [List.cons_append, List.map_cons, List.nodup_cons] at hnd
    exact absurd (by simp [← show e.action = u.action from hd]) hnd.1

theorem Line.next_nil {us vs : List Entry} {e : Entry} (h : Line k irq (us ++ e :: vs)) (he : k.next e.action = 0) :
    vs = [] := by
  have hc := h.chain
  rw [List.map_append, List.map_cons] at hc
  have hq := (Chain.split.1 hc).2.1.2
  cases vs with
  | nil => rfl
  | cons v vs => exact absurd (by simp [show v.action = 0 from hq.symm.trans he]) h.nonnull

theorem Line.split_entry (h : Line k irq es) {e : Entry} (he : e ∈ es) :
    ∃ us vs, es = us ++ e :: vs ∧ es.erase e = us ++ vs := by
  obtain ⟨us, vs, rfl⟩ := List.append_of_mem he
  refine ⟨us, vs, rfl, ?_⟩
  have heu : e ∉ us := by
    intro hm
    have hnd := h.nodup
    rw [List.map_append, List.map_cons] at hnd
    exact (List.nodup_append.1 hnd).2.2 _ (List.mem_map_of_mem hm) e.action (by simp) rfl
  rw [List.erase_append_right _ heu, List.erase_cons_head]

theorem remove_fits {e : Entry} (h : IrqOk n k reg) (hirq : irq < n) (he : e ∈ reg irq) (hfit : RemoveFits k irq e) :
    IrqOk n (remove_irq e.action k) (dropped reg irq e) := by
  have hl := h.lines irq hirq
  obtain ⟨us, vs, hes, herase⟩ := hl.split_entry he
  have hairq : (k.actions e.action).irq = irq := (HandlerCall.mk.inj (hl.filled e he)).2.1
  have he0 : e.action ≠ 0 := by
    intro hz
    exact hl.nonnull (hz ▸ List.mem_map_of_mem he)
  have hother : ∀ i < n, i ≠ irq → ∀ e ∈ reg i, e.action ∉ (reg irq).map (·.action) := by
    intro i hi hne e he hm
    obtain ⟨e', he', hee⟩ := List.mem_map.1 hm
    exact hne (h.lines.line_eq hi hirq he he' hee.symm)
  unfold dropped
  rw [herase]
  rw [hes] at hl
  by_cases hhead : k.IRQ_list irq = e.action
  · have hus := hl.head_nil hhead
    have hvs := hl.next_nil (hfit.resolve_left (by simp [hhead]))
    subst hus hvs
    rw [remove_irq_first he0 hairq hhead]
    refine ⟨h.lines.update_line hirq ?_ hother (fun _ _ => rfl) fun i hi => update_of_ne hi _ _, ?_⟩
    · exact ⟨trivial, update_self _ _ _, by simp, by simp, by simp⟩
    · exact List.forall_mem_cons.2 ⟨hirq, List.forall_mem_cons.2 ⟨hirq, h.inside⟩⟩
  · obtain ⟨hnext, hsec, hlist, hacc, hcall, hact⟩ := remove_irq_links hl hairq hhead
    have hc := hl.chain
    have hn0 := hl.nonnull
    have hnd := hl.nodup
    rw [List.map_append, List.map_cons] at hc hn0 hnd
    obtain ⟨-, ⟨hp, hq⟩, -⟩ := Chain.split.1 hc
    refine ⟨h.lines.update_line hirq ?_ hother (fun b hb => hact b ?_ ?_) fun i _ => by rw [hlist], ?_⟩
    · refine ⟨?_, ?_, ?_, ?_, ?_⟩
      · rw [hnext, hsec, List.map_append]
        exact hc.unlink hn0 hnd
      · rw [hlist, hl.head]
        cases us with
        | nil => exact absurd hl.head hhead
        | cons u us => rfl
      · rw [List.map_append]
        simp only [List.mem_append, List.mem_cons, not_or] at hn0 ⊢
        exact ⟨hn0.1, hn0.2.2⟩
      · rw [List.map_append]
        exact hnd.sublist ((List.sublist_cons_self _ _).append_left _)
      · intro e' he'
        rw [hcall]
        exact hl.filled e' (by simp only [List.mem_append, List.mem_cons] at he' ⊢; tauto)
    · rintro hz rfl
      apply hb
      rw [hp] at hz ⊢
      rw [hes]
      rcases List.eq_nil_or_concat us with rfl | ⟨us, u, rfl⟩
      · exact absurd rfl hz
      · simp
    · rintro hz rfl
      apply hb
      rw [hq] at hz ⊢
      rw [hes]
      cases vs with
      | nil => exact absurd rfl hz
      | cons v vs => simp
    · rw [hacc]
      exact List.forall_mem_cons.2 ⟨hirq, h.inside⟩

def RemoveSafe (n : Nat) (k : Irqs) (reg : Nat → List Entry) (irq : Nat) (e : Entry) : Prop :=
  Served n (remove_irq e.action k) (dropped reg irq e)

theorem remove_safe_iff {e : Entry} (h : IrqOk n k reg) (hirq : irq < n) (he : e ∈ reg irq) :
    RemoveSafe n k reg irq e ↔ RemoveFits k irq e := by
  refine ⟨fun hsafe => ?_, fun hfit => (remove_fits h hirq he hfit).served⟩
  by_contra hfit
  obtain ⟨hhead, hne⟩ : k.IRQ_list irq = e.action ∧ k.next e.action ≠ 0 := by
    rw [RemoveFits, not_or, ne_eq, not_not] at hfit
    exact hfit
  have hl := h.lines irq hirq
  obtain ⟨us, vs, hes, herase⟩ := hl.split_entry he
  have hairq : (k.actions e.action).irq = irq := (HandlerCall.mk.inj (hl.filled e he)).2.1
  rw [hes] at hl
  have he0 : e.action ≠ 0 := by
    rw [← hhead]
    exact hl.headD_ne (by simp)
  -- Others are registered behind it, but the dispatcher finds an empty line.
  have hvs : vs ≠ [] := by
    rintro rfl
    have hc := hl.chain
    rw [List.map_append, List.map_cons] at hc
    exact hne (Chain.split.1 hc).2.1.2
  obtain ⟨fuel, hdis⟩ := hsafe.1 irq hirq
  have hempty : ((k.touch irq).set_list irq 0).IRQ_list irq = 0 := update_self _ _ _
  rw [remove_irq_first he0 hairq hhead, C_IRQ_Dispatcher, if_neg (by omega), hempty, dropped, update_self, herase] at hdis
  obtain ⟨calls, hcalls, heq⟩ := Option.map_eq_some_iff.1 hdis
  rw [run_empty hcalls] at heq
  have hlen := congrArg (fun r => r.1.length) heq
  simp only [List.length_nil, List.length_map, List.length_append] at hlen
  exact hvs (List.length_eq_zero_iff.1 (by omega))

/-! ## Runs -/

/-- A step of the system, with what it registers and removes. The last is what
other code does to memory that is not in use here. -/
inductive IrqStep (n : Nat) : Irqs × (Nat → List Entry) → Irqs × (Nat → List Entry) → Prop
  | request {k k' : Irqs} {reg : Nat → List Entry} {fuel irq handler flags dev : Nat} {new : Option Nat} {ret : Int} (hnew : Fresh n reg new) (hfit : RequestFits n new irq)
      (h : request_irq fuel new irq handler flags dev k = some (ret, k')) :
      IrqStep n (k, reg) (k', requested reg new irq handler dev)
  | remove {k : Irqs} {reg : Nat → List Entry} {irq : Nat} {e : Entry} (hirq : irq < n) (he : e ∈ reg irq) (hfit : RemoveFits k irq e) :
      IrqStep n (k, reg) (remove_irq e.action k, dropped reg irq e)
  | other {k k' : Irqs} {reg : Nat → List Entry} (hact : ∀ irq < n, ∀ e ∈ reg irq, k'.actions e.action = k.actions e.action)
      (hlist : ∀ irq < n, k'.IRQ_list irq = k.IRQ_list irq) (hacc : k'.accesses = k.accesses) :
      IrqStep n (k, reg) (k', reg)

theorem IrqStep.ok {s s' : Irqs × (Nat → List Entry)} (h : IrqStep n s s') (hok : IrqOk n s.1 s.2) :
    IrqOk n s'.1 s'.2 := by
  cases h with
  | request hnew hfit hreq =>
    obtain ⟨ret, k', hreq', hok'⟩ := request_fits hok hnew hfit (Nat.lt_succ_self _)
    obtain ⟨-, rfl⟩ := Prod.mk.inj ((request_mono _ _ _ _ _ _).det hreq hreq')
    exact hok'
  | remove hirq he hfit => exact remove_fits hok hirq he hfit
  | other hact hlist hacc =>
    refine ⟨fun irq hirq => (hok.lines irq hirq).congr (hact irq hirq) (hlist irq hirq), ?_⟩
    show ∀ i ∈ _, i < n
    rw [hacc]
    exact hok.inside

theorem IrqOk.empty (hlist : ∀ i < n, k.IRQ_list i = 0) (hacc : k.accesses = []) : IrqOk n k fun _ => [] where
  lines := fun i hi => ⟨trivial, hlist i hi, by simp, by simp, by simp⟩
  inside := by simp [hacc]

/-- From the empty table, as long as no removal is of the first of several
actions and no request is outside the table, every line calls what is registered
for it. In each such state the next call is right exactly if it fits. -/
theorem handlers_dispatched {k₀ : Irqs} (hlist : ∀ i < n, k₀.IRQ_list i = 0) (hacc : k₀.accesses = [])
    (h : Relation.ReflTransGen (IrqStep n) (k₀, fun _ => []) (k, reg)) :
    Served n k reg ∧
      (∀ new irq handler flags dev, Fresh n reg new →
        (RequestSafe n k reg new irq handler flags dev ↔ RequestFits n new irq)) ∧
      ∀ irq < n, ∀ e ∈ reg irq, RemoveSafe n k reg irq e ↔ RemoveFits k irq e := by
  have hok : ∀ s, Relation.ReflTransGen (IrqStep n) (k₀, fun _ => []) s → IrqOk n s.1 s.2 := by
    intro s hs
    induction hs with
    | refl => exact .empty hlist hacc
    | tail _ hstep ih => exact hstep.ok ih
  have hk := hok _ h
  exact ⟨hk.served, fun _ _ _ _ _ hnew => request_safe_iff hk hnew, fun _ hirq _ he => remove_safe_iff hk hirq he⟩

def no_handlers : Irqs := ⟨fun _ => ⟨0, 0, 0, 0, 0, 0⟩, fun _ => 0, []⟩

/-- The table after a request. -/
def after_request (new irq handler dev : Nat) (k : Irqs) : Irqs := ((request_irq 2 (some new) irq handler 0 dev k).getD (0, k)).2

/-- Two handlers on line 5, then the second is removed. -/
theorem shared_line_dispatched : ∃ k, ∃ reg : Nat → List Entry, reg 5 = [⟨100, 10, 1⟩] ∧ Served 52 k reg ∧
    (∀ new irq handler flags dev, Fresh 52 reg new →
      (RequestSafe 52 k reg new irq handler flags dev ↔ RequestFits 52 new irq)) ∧
    ∀ irq < 52, ∀ e ∈ reg irq, RemoveSafe 52 k reg irq e ↔ RemoveFits k irq e := by
  let reg := requested (fun _ => []) (some 100) 5 10 1
  have h1 : IrqStep 52 (no_handlers, fun _ => []) (after_request 100 5 10 1 no_handlers, reg) :=
    @IrqStep.request 52 _ _ _ 2 5 10 0 1 (some 100) 0 (by rintro a ⟨⟩; decide) (.inr (by decide)) rfl
  have h2 : IrqStep 52 (after_request 100 5 10 1 no_handlers, reg)
      (after_request 200 5 20 2 (after_request 100 5 10 1 no_handlers), requested reg (some 200) 5 20 2) :=
    @IrqStep.request 52 _ _ _ 2 5 20 0 2 (some 200) 0 (by rintro a ⟨⟩; decide) (.inr (by decide)) rfl
  have h3 := @IrqStep.remove 52 (after_request 200 5 20 2 (after_request 100 5 10 1 no_handlers)) (requested reg (some 200) 5 20 2) 5
    ⟨200, 20, 2⟩ (by decide) (by decide) (.inl (by decide))
  exact ⟨_, _, by decide, handlers_dispatched (fun _ _ => rfl) rfl (((Relation.ReflTransGen.single h1).tail h2).tail h3)⟩

/-- Two handlers share line 5. Removing the first leaves the line without any. -/
theorem shared_line_dropped : ∃ k₁ k₂, request_irq 2 (some 100) 5 10 0 1 no_handlers = some (0, k₁) ∧
    request_irq 2 (some 200) 5 20 0 2 k₁ = some (0, k₂) ∧
    C_IRQ_Dispatcher 52 2 (remove_irq 100 k₂) 5 = some ([], true) ∧
    ¬Served 52 (remove_irq 100 k₂) (dropped (requested (requested (fun _ => []) (some 100) 5 10 1) (some 200) 5 20 2) 5
      ⟨100, 10, 1⟩) := by
  refine ⟨_, _, rfl, rfl, by decide, fun h => ?_⟩
  obtain ⟨fuel, hcalls⟩ := h.1 5 (by decide)
  obtain ⟨calls, hcalls, heq⟩ := Option.map_eq_some_iff.1 hcalls
  rw [run_empty hcalls] at heq
  exact absurd heq (by decide)

end Line

end McLinOS.Irq
