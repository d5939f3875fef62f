import Mathlib.Logic.Relation
import McLinOS.Sched.TimeLoop
/-!
# The ring of tasks

The nodes of the registered tasks are a ring from `head_node`. Adding a task
keeps it so. Removing does unless the node is the head or the task is running.
-/
open CLib Function

namespace McLinOS.TimeLoop

namespace Scheduler
variable (s : Scheduler) (n v : Nat)

theorem field_modify {α : Type} (g : task_node → α) (f : task_node → task_node) (h : ∀ x, g (f x) = g x) (m : Nat) :
    g ((s.modify n f).nodes m) = g (s.nodes m) := by
  by_cases hm : m = n
  · simp [modify, hm, h]
  · simp [modify, hm]

@[simp] theorem next_set_next : (s.set_next n v).next = update s.next n v := by
  funext m
  by_cases hm : m = n
  · simp [next, set_next, modify, hm]
  · simp [next, set_next, modify, hm]

@[simp] theorem priv_set_priv : (s.set_priv n v).priv = update s.priv n v := by
  funext m
  by_cases hm : m = n
  · simp [priv, set_priv, modify, hm]
  · simp [priv, set_priv, modify, hm]

@[simp] theorem next_set_priv : (s.set_priv n v).next = s.next := funext fun m => s.field_modify n (·.next) _ (by simp) m
@[simp] theorem priv_set_next : (s.set_next n v).priv = s.priv := funext fun m => s.field_modify n (·.priv) _ (by simp) m
@[simp] theorem next_set_t_node : (s.set_t_node n v).next = s.next := rfl
@[simp] theorem priv_set_t_node : (s.set_t_node n v).priv = s.priv := rfl

end Scheduler

/-- Only nodes that are not freed are followed, or the `NULL` head of an empty
pool when no task runs. -/
def TimeLoopSafe (s : Scheduler) : Prop := ∀ n ∈ (time_loop s).2, n ∈ s.allocated ∨ (n = 0 ∧ s.current_task = 0)

/-- The ring of the registered tasks. -/
structure RingOk (s : Scheduler) (reg : List Nat) : Prop where
  head_null : s.head_node = 0 ↔ reg = []
  head_live : reg ≠ [] → s.head_node ∈ reg.map s.t_node
  live : ∀ task ∈ reg, s.t_node task ∈ s.allocated
  visits : reg ≠ [] → (List.iterate s.next s.head_node reg.length).Perm (reg.map s.t_node) ∧
    s.next^[reg.length] s.head_node = s.head_node
  once : (reg.map s.t_node).Nodup
  inverse : ∀ task ∈ reg, s.priv (s.next (s.t_node task)) = s.t_node task
  safe : TimeLoopSafe s

/-- The nodes from the head. -/
structure Nodes (s : Scheduler) (xs : List Nat) : Prop where
  ring : Ring s.next s.priv xs
  head : s.head_node = xs.headD 0
  nonnull : 0 ∉ xs
  nodup : xs.Nodup

/-- The invariant behind `RingOk`. -/
structure Inv (s : Scheduler) (reg : List Nat) : Prop where
  nodes : ∃ xs, Nodes s xs ∧ xs.Perm (reg.map s.t_node)
  live : ∀ task ∈ reg, s.t_node task ∈ s.allocated
  allocated : 0 ∉ s.allocated
  tasks : 0 ∉ reg
  current : s.current_task = 0 ∨ s.current_task ∈ reg

section Ring
variable {s s' : Scheduler} {xs reg : List Nat} {new task : Nat}

theorem Nodes.empty_iff (h : Nodes s xs) : s.head_node = 0 ↔ xs = [] := by
  rw [h.head]
  cases xs with
  | nil => simp
  | cons x xs => simpa using fun hx : x = 0 => h.nonnull (by simp [hx])

theorem Inv.ok (h : Inv s reg) : RingOk s reg := by
  obtain ⟨xs, hn, hp⟩ := h.nodes
  have hempty : xs = [] ↔ reg = [] := by
    rw [← List.length_eq_zero_iff, hp.length_eq, List.length_map, List.length_eq_zero_iff]
  have hhead : reg ≠ [] → s.head_node ∈ reg.map s.t_node := by
    intro hne
    obtain ⟨x, xs, rfl⟩ := List.exists_cons_of_ne_nil (mt hempty.1 hne)
    rw [hn.head]
    exact hp.subset (by simp)
  have hlive : ∀ n ∈ reg.map s.t_node, n ∈ s.allocated := by
    intro n hm
    obtain ⟨task, ht, rfl⟩ := List.mem_map.1 hm
    exact h.live task ht
  refine ⟨hn.empty_iff.trans hempty, hhead, h.live, ?_, hp.nodup_iff.1 hn.nodup, ?_, ?_⟩
  · intro hne
    obtain ⟨x, xs, rfl⟩ := List.exists_cons_of_ne_nil (mt hempty.1 hne)
    have hlen : reg.length = xs.length + 1 := by simpa using hp.length_eq.symm
    obtain ⟨h1, h2⟩ := hn.ring.iterate
    rw [hlen, hn.head, List.headD_cons, h1]
    exact ⟨hp, h2⟩
  · intro task ht
    exact hn.ring.priv_next (hp.symm.subset (List.mem_map_of_mem ht))
  · intro n hn'
    by_cases hc : s.current_task = 0
    · rw [time_loop, if_pos hc] at hn'
      obtain rfl := List.mem_singleton.1 hn'
      by_cases hne : reg = []
      · exact .inr ⟨hn.empty_iff.2 (hempty.2 hne), hc⟩
      · exact .inl (hlive _ (hhead hne))
    · rw [time_loop, if_neg hc] at hn'
      have hcur := h.live _ (h.current.resolve_left hc)
      have hmem : s.t_node s.current_task ∈ xs :=
        hp.symm.subset (List.mem_map_of_mem (h.current.resolve_left hc))
      simp only [List.mem_cons, List.not_mem_nil, or_false] at hn'
      rcases hn' with rfl | rfl
      · exact .inl hcur
      · exact .inl (hlive _ (hp.subset (hn.ring.next_mem hmem)))

/-! ## Adding -/

/-- The search ends at a node of the ring. -/
theorem place_walk (priority : Int) {p n q : Nat} (hq : s.head_node = q) (h : Chain s.next s.priv p (n :: xs) q)
    (hxs : q ∉ xs) {fuel : Nat} (hf : xs.length < fuel) :
    ∃ m, loop (place_body s priority) fuel n = some m ∧ (m ∈ n :: xs ∨ m = q) := by
  induction xs generalizing p n fuel with
  | nil =>
    obtain ⟨fuel, rfl⟩ : ∃ k, fuel = k + 1 := ⟨fuel - 1, by simp at hf; omega⟩
    have hn : s.next n = q := h.2.1
    by_cases hlt : priority < (s.nodes n).priority
    · exact ⟨s.next n, loop_done (by rw [place_body, if_pos hlt, if_pos (hn.trans hq.symm)]) fuel, .inr hn⟩
    · exact ⟨n, loop_done (by rw [place_body, if_neg hlt]) fuel, .inl (by simp)⟩
  | cons y ys ih =>
    obtain ⟨fuel, rfl⟩ : ∃ k, fuel = k + 1 := ⟨fuel - 1, by simp at hf; omega⟩
    have hn : s.next n = y := h.2.1
    by_cases hlt : priority < (s.nodes n).priority
    · have hy : ¬s.next n = s.head_node := by
        rw [hn, hq]
        rintro rfl
        exact hxs (by simp)
      have hfuel : ys.length < fuel := by
        simp at hf
        omega
      obtain ⟨m, hm, hmem⟩ := ih (n := y) h.2.2 (fun hm => hxs (by simp [hm])) hfuel
      refine ⟨m, ?_, ?_⟩
      · rw [loop_cont (by rw [place_body, if_pos hlt, if_neg hy]), hn, hm]
      · rcases hmem with hmem | hmem
        · exact .inl (by simp [List.mem_cons.1 hmem])
        · exact .inr hmem
    · exact ⟨n, loop_done (by rw [place_body, if_neg hlt]) fuel, .inl (by simp)⟩

theorem Nodes.congr (h : Nodes s xs) (hact : ∀ n ∈ xs, s'.nodes n = s.nodes n) (hh : s'.head_node = s.head_node) :
    Nodes s' xs where
  ring := h.ring.congr (fun n hn => by rw [Scheduler.next, Scheduler.next, hact n hn]) fun n hn => by
    rw [Scheduler.priv, Scheduler.priv, hact n hn]
  head := hh.trans h.head
  nonnull := h.nonnull
  nodup := h.nodup

/-- A node goes in before another one. Before the head it is the last one. -/
theorem Nodes.link {m : Nat} (h : Nodes s xs) (hm : m ∈ xs) (h0 : new ≠ 0) (hnew : new ∉ xs) :
    ∃ ys, Nodes (link_before s new m) ys ∧ ys.Perm (new :: xs) ∧ ys.filter (· ≠ new) = xs := by
  obtain ⟨us, vs, rfl⟩ := List.append_of_mem hm
  have hmn : m ≠ new := by
    rintro rfl
    exact hnew hm
  have hp : (us ++ m :: vs).Perm (m :: (vs ++ us)) := by
    rw [← List.cons_append]
    exact List.perm_append_comm
  have hring : Ring s.next s.priv (m :: (vs ++ us)) := Ring.rotate.1 h.ring
  have hring' : Ring (link_before s new m).next (link_before s new m).priv (m :: (vs ++ us) ++ [new]) := by
    have hi := hring.insert (hp.nodup_iff.1 h.nodup) (fun hm => hnew (hp.mem_iff.2 hm))
    simpa only [link_before, Scheduler.next_set_next, Scheduler.next_set_priv, Scheduler.priv_set_next,
      Scheduler.priv_set_priv, update_of_ne hmn] using hi
  have hnn : ∀ ys : List Nat, ys.Perm (new :: (us ++ m :: vs)) → 0 ∉ ys ∧ ys.Nodup := by
    intro ys hys
    refine ⟨fun hz => ?_, hys.nodup_iff.2 (List.nodup_cons.2 ⟨hnew, h.nodup⟩)⟩
    rcases List.mem_cons.1 (hys.subset hz) with hz | hz
    · exact h0 hz.symm
    · exact h.nonnull hz
  have hkeep : ∀ zs : List Nat, (∀ z ∈ zs, z ∈ us ++ m :: vs) → zs.filter (· ≠ new) = zs := fun zs hzs =>
    List.filter_eq_self.2 fun z hz => decide_eq_true fun he => hnew (he ▸ hzs z hz)
  have hgone : [new].filter (· ≠ new) = [] := by simp
  rcases us with _ | ⟨u, us⟩
  · have hperm : (m :: (vs ++ []) ++ [new]).Perm (new :: ([] ++ m :: vs)) := by
      simpa using List.perm_append_singleton new (m :: vs)
    refine ⟨_, ⟨hring', h.head, (hnn _ hperm).1, (hnn _ hperm).2⟩, hperm, ?_⟩
    rw [List.filter_append, hgone, hkeep _ (by simp)]
    simp
  · have e : m :: (vs ++ u :: us) ++ [new] = (m :: vs) ++ (u :: us ++ [new]) := by simp
    rw [e] at hring'
    have hperm : (u :: us ++ [new] ++ m :: vs).Perm (new :: (u :: us ++ m :: vs)) := by
      have hc := (List.perm_append_singleton new (u :: us)).append_right (m :: vs)
      simpa using hc
    refine ⟨_, ⟨Ring.rotate.1 hring', h.head, (hnn _ hperm).1, (hnn _ hperm).2⟩, hperm, ?_⟩
    rw [List.filter_append, List.filter_append, hgone, hkeep (u :: us) fun z hz => List.mem_append_left _ hz,
      hkeep (m :: vs) fun z hz => List.mem_append_right _ hz, List.append_nil]

/-- The node is filled and belongs to the task. -/
def filled (s : Scheduler) (new task : Nat) : Scheduler :=
  ({ s with allocated := insert new s.allocated }.modify new ({ · with task, priority := s.priority task })).set_t_node
    task new

theorem add_eq (fuel new task : Nat) (s : Scheduler) : add_task_to_task_pool fuel (some new) task s =
    if s.head_node = 0 then
      some (0, ({ filled s new task with head_node := new }.set_next new new).set_priv new new)
    else (loop (place_body (filled s new task) ((filled s new task).nodes new).priority) fuel s.head_node).map fun n =>
      (0, link_before (filled s new task) new n) := rfl

variable (task) in
theorem Nodes.add {fuel : Nat} (h : Nodes s xs) (h0 : new ≠ 0) (hnew : new ∉ xs) (hf : xs.length < fuel) :
    ∃ s' ys, add_task_to_task_pool fuel (some new) task s = some (0, s') ∧ Nodes s' ys ∧ ys.Perm (new :: xs) ∧
      ys.filter (· ≠ new) = xs ∧ s'.t_node = update s.t_node task new ∧ s'.allocated = insert new s.allocated ∧
      s'.current_task = s.current_task := by
  have hfilled : Nodes (filled s new task) xs := h.congr (fun n hn => update_of_ne (by
    rintro rfl
    exact hnew hn) _ _) rfl
  rw [add_eq]
  by_cases hz : s.head_node = 0
  · obtain rfl := h.empty_iff.1 hz
    rw [if_pos hz]
    refine ⟨_, [new], rfl, ⟨Ring.singleton.2 ⟨?_, ?_⟩, rfl, by simpa using h0.symm, by simp⟩, .refl _, by simp, rfl, rfl,
      rfl⟩
    · rw [Scheduler.priv_set_priv, update_self]
    · rw [Scheduler.next_set_priv, Scheduler.next_set_next, update_self]
  · rw [if_neg hz]
    obtain ⟨x, xs, rfl⟩ := List.exists_cons_of_ne_nil (mt h.empty_iff.2 hz)
    obtain ⟨m, hm, hmem⟩ := place_walk ((filled s new task).nodes new).priority hfilled.head hfilled.ring
      (List.nodup_cons.1 h.nodup).1 (by simpa using Nat.lt_of_succ_lt hf)
    have hmem' : m ∈ x :: xs := by
      rcases hmem with hmem | rfl
      · exact hmem
      · simp
    obtain ⟨ys, hys, hperm, hkeep⟩ := hfilled.link hmem' h0 hnew
    have hx : s.head_node = x := h.head
    rw [hx, show loop _ fuel x = some m from hm]
    exact ⟨_, ys, rfl, hys, hperm, hkeep, rfl, rfl, rfl⟩

theorem add_mono (new : Option Nat) (task : Nat) (s : Scheduler) :
    FuelMono fun fuel => add_task_to_task_pool fuel new task s := by
  cases new with
  | none => exact .const _
  | some new =>
    simp only [add_eq]
    split
    · exact .const _
    · simp only [Option.map_eq_bind]
      exact (FuelMono.loop _ _).bind fun _ => .const _

/-- `kmalloc` returned a block that is no node. -/
def Fresh (s : Scheduler) (new : Option Nat) : Prop := ∀ n, new = some n → n ≠ 0 ∧ n ∉ s.allocated

def registered (reg : List Nat) (new : Option Nat) (task : Nat) : List Nat := if new = none then reg else reg.insert task

def AddSafe (s : Scheduler) (reg : List Nat) (new : Option Nat) (task : Nat) : Prop :=
  ∃ fuel ret s', add_task_to_task_pool fuel new task s = some (ret, s') ∧ RingOk s' (registered reg new task)

/-- The task is not in the pool yet. -/
def AddFits (reg : List Nat) (new : Option Nat) (task : Nat) : Prop := new = none ∨ task ∉ reg

theorem Inv.fresh (h : Inv s reg) (hxs : xs.Perm (reg.map s.t_node)) (hnew : new ∉ s.allocated) : new ∉ xs := by
  intro hm
  obtain ⟨task, ht, rfl⟩ := List.mem_map.1 (hxs.subset hm)
  exact hnew (h.live task ht)

theorem add_fits {new : Option Nat} {fuel : Nat} (h : Inv s reg) (hnew : Fresh s new) (ht : task ≠ 0)
    (hfit : AddFits reg new task) (hf : reg.length < fuel) :
    ∃ ret s', add_task_to_task_pool fuel new task s = some (ret, s') ∧ Inv s' (registered reg new task) := by
  rcases new with _ | new
  · exact ⟨-1, s, rfl, h⟩
  have htask : task ∉ reg := hfit.resolve_left (by simp)
  obtain ⟨h0, hnew⟩ := hnew new rfl
  obtain ⟨xs, hn, hp⟩ := h.nodes
  have hlen : xs.length = reg.length := by simpa using hp.length_eq
  obtain ⟨s', ys, hadd, hys, hperm, -, htn, halloc, hcur⟩ :=
    hn.add task h0 (h.fresh hp hnew) (hlen ▸ hf)
  have hmap : ∀ t ∈ reg, s'.t_node t = s.t_node t := by
    intro t hm
    rw [htn, update_of_ne]
    rintro rfl
    exact htask hm
  have hreg : registered reg (some new) task = task :: reg := List.insert_of_not_mem htask
  refine ⟨0, s', hadd, ?_⟩
  rw [hreg]
  refine ⟨⟨ys, hys, ?_⟩, ?_, ?_, ?_, ?_⟩
  · rw [List.map_cons, htn, update_self, ← htn, List.map_congr_left hmap]
    exact hperm.trans (hp.cons new)
  · intro t ht
    rw [halloc, Finset.mem_insert]
    rcases List.mem_cons.1 ht with rfl | ht
    · rw [htn, update_self]
      exact .inl rfl
    · rw [hmap t ht]
      exact .inr (h.live t ht)
  · rw [halloc, Finset.mem_insert, not_or]
    exact ⟨h0.symm, h.allocated⟩
  · rw [List.mem_cons, not_or]
    exact ⟨ht.symm, h.tasks⟩
  · rw [hcur]
    exact h.current.imp_right fun hc => List.mem_cons_of_mem _ hc

theorem add_safe_iff {new : Option Nat} (h : Inv s reg) (hnew : Fresh s new) (ht : task ≠ 0) :
    AddSafe s reg new task ↔ AddFits reg new task := by
  constructor
  · rintro ⟨fuel, ret, s', hadd, hok⟩
    rcases new with _ | new
    · exact .inl rfl
    refine .inr fun htask => ?_
    -- The ring has one node more than there are tasks, so it does not come back in time.
    obtain ⟨h0, hnew⟩ := hnew new rfl
    obtain ⟨xs, hn, hp⟩ := h.nodes
    have hlen : xs.length = reg.length := by simpa using hp.length_eq
    obtain ⟨s'', ys, hadd', hys, hperm, -⟩ := hn.add task h0 (h.fresh hp hnew) (Nat.lt_succ_self _)
    obtain ⟨-, rfl⟩ := Prod.mk.inj ((add_mono _ _ _).det hadd hadd')
    have hreg : registered reg (some new) task = reg := List.insert_of_mem htask
    have hne : reg ≠ [] := List.ne_nil_of_mem htask
    have hylen : ys.length = reg.length + 1 := by simpa [hlen] using hperm.length_eq
    obtain ⟨y, ys, rfl⟩ := List.exists_cons_of_ne_nil (List.ne_nil_of_length_pos (show 0 < ys.length by omega))
    rw [hreg] at hok
    obtain ⟨hiter, -⟩ := hys.ring.iterate
    have hback := (hok.visits hne).2
    rw [hys.head, List.headD_cons] at hback
    have hlast : (y :: ys)[reg.length]? = some y := by
      rw [List.length_cons] at hylen
      rw [← hiter, List.getElem?_iterate _ _ _ _ (by omega), hback]
    have hzero : (y :: ys)[0]? = some y := rfl
    have := (List.getElem?_inj (by simp) hys.nodup).1 (hzero.trans hlast.symm)
    exact hne (List.length_eq_zero_iff.1 this.symm)
  · intro hfit
    obtain ⟨ret, s', hadd, hok⟩ := add_fits h hnew ht hfit (Nat.lt_succ_self _)
    exact ⟨_, ret, s', hadd, hok.ok⟩

/-! ## Removing -/

/-- The node is not the head and the task is not running. -/
def RemoveFits (s : Scheduler) (task : Nat) : Prop := s.head_node ≠ s.t_node task ∧ s.current_task ≠ task

def RemoveSafe (s : Scheduler) (reg : List Nat) (task : Nat) : Prop := RingOk (remove_task_from_pool task s) (reg.erase task)

theorem remove_next (s : Scheduler) (task : Nat) : (remove_task_from_pool task s).next =
    update s.next (s.priv (s.t_node task)) (s.next (s.t_node task)) := by
  show ((s.set_next _ _).set_priv _ _).next = _
  rw [Scheduler.next_set_priv, Scheduler.next_set_next]

theorem remove_priv (s : Scheduler) (task : Nat) : (remove_task_from_pool task s).priv =
    update s.priv (s.next (s.t_node task)) (s.priv (s.t_node task)) := by
  show ((s.set_next _ _).set_priv _ _).priv = _
  rw [Scheduler.priv_set_priv, Scheduler.priv_set_next, Scheduler.next_set_next]
  congr 1
  by_cases hp : s.t_node task = s.priv (s.t_node task)
  · rw [← hp, update_self]
  · rw [update_of_ne hp]

/-- A node that is not the first leaves. -/
theorem Nodes.remove {x : Nat} {us vs : List Nat} (h : Nodes s (x :: us ++ s.t_node task :: vs)) :
    Nodes (remove_task_from_pool task s) (x :: us ++ vs) := by
  have hsub : (x :: us ++ vs).Sublist (x :: us ++ s.t_node task :: vs) :=
    (List.sublist_cons_self _ _).append_left _
  refine ⟨?_, h.head, fun hm => h.nonnull (hsub.subset hm), h.nodup.sublist hsub⟩
  have hring : Ring s.next s.priv (s.t_node task :: (vs ++ x :: us)) := Ring.rotate.1 h.ring
  have hnd : (s.t_node task :: (vs ++ x :: us)).Nodup := by
    rw [← List.cons_append]
    exact List.perm_append_comm.nodup_iff.1 h.nodup
  rw [remove_next, remove_priv]
  apply Ring.rotate.2
  obtain ⟨y, ys, hys⟩ := List.exists_cons_of_ne_nil (show vs ++ x :: us ≠ [] by simp)
  rw [hys] at hring hnd ⊢
  exact hring.unlink hnd

theorem remove_fits (h : Inv s reg) (ht : task ∈ reg) (hfit : RemoveFits s task) :
    Inv (remove_task_from_pool task s) (reg.erase task) := by
  obtain ⟨xs, hn, hp⟩ := h.nodes
  have hnd : (reg.map s.t_node).Nodup := hp.nodup_iff.1 hn.nodup
  have hregnd : reg.Nodup := hnd.of_map _
  obtain ⟨rs, ts, hreg⟩ := List.append_of_mem ht
  have hrs : task ∉ rs ++ ts := by
    rw [hreg] at hregnd
    exact (List.nodup_cons.1 (List.perm_middle.nodup_iff.1 hregnd)).1
  have herase : reg.erase task = rs ++ ts := by
    rw [hreg, List.erase_append_right _ fun hm => hrs (List.mem_append_left _ hm), List.erase_cons_head]
  have hsub : ∀ t ∈ rs ++ ts, t ∈ reg := by
    intro t hm
    rw [← herase] at hm
    exact List.mem_of_mem_erase hm
  have hmap : ∀ t ∈ rs ++ ts, (remove_task_from_pool task s).t_node t = s.t_node t := by
    intro t hm
    refine update_of_ne ?_ _ _
    rintro rfl
    exact hrs hm
  have hregp : (reg.map s.t_node).Perm (s.t_node task :: (rs ++ ts).map s.t_node) := by
    rw [hreg]
    exact (List.perm_middle.map s.t_node)
  rw [herase]
  refine ⟨?_, ?_, ?_, fun hz => h.tasks (hsub 0 hz), ?_⟩
  · -- The node is behind the head.
    obtain ⟨us, vs, hus⟩ := List.append_of_mem (hp.symm.subset (List.mem_map_of_mem ht))
    cases us with
    | nil =>
      refine absurd ?_ hfit.1
      rw [hn.head, hus]
      rfl
    | cons x us =>
      rw [hus] at hn hp
      refine ⟨_, hn.remove, ?_⟩
      rw [List.map_congr_left hmap]
      exact (List.perm_middle.symm.trans (hp.trans hregp)).cons_inv
  · intro t hm
    rw [hmap t hm]
    refine Finset.mem_erase.2 ⟨fun he => ?_, h.live t (hsub t hm)⟩
    have := (List.nodup_cons.1 (hregp.nodup_iff.1 hnd)).1
    exact this (he ▸ List.mem_map_of_mem hm)
  · exact fun hm => h.allocated (Finset.mem_of_mem_erase hm)
  · rcases h.current with hc | hc
    · exact .inl hc
    · right
      rw [← herase]
      exact (List.mem_erase_of_ne hfit.2).2 hc

theorem remove_safe_iff (h : Inv s reg) (ht : task ∈ reg) : RemoveSafe s reg task ↔ RemoveFits s task := by
  constructor
  · intro hok
    have ht0 : task ≠ 0 := by
      rintro rfl
      exact h.tasks ht
    have hnull : s.t_node task ≠ 0 := fun hz => h.allocated (hz ▸ h.live task ht)
    constructor
    · -- The head would be the freed node.
      intro hh
      have hhead : (remove_task_from_pool task s).head_node = s.t_node task := hh
      by_cases hne : reg.erase task = []
      · exact hnull (hhead.symm.trans (hok.head_null.2 hne))
      · have hm := hok.head_live hne
        rw [hhead] at hm
        obtain ⟨t, ht', hte⟩ := List.mem_map.1 hm
        have hlive := hok.live t ht'
        rw [hte] at hlive
        exact Finset.notMem_erase _ _ hlive
    · -- The running task would have no node.
      intro hc
      have hcur : (remove_task_from_pool task s).current_task = task := hc
      have hnode : (remove_task_from_pool task s).t_node task = 0 := update_self _ _ _
      rcases hok.safe 0 (by rw [time_loop, hcur, if_neg ht0, hnode]; simp) with hm | ⟨-, hm⟩
      · exact h.allocated (Finset.mem_of_mem_erase hm)
      · exact ht0 (hcur.symm.trans hm)
  · exact fun hfit => (remove_fits h ht hfit).ok

/-! ## Runs -/

/-- No task runs, or a registered one. -/
def CurrentFits (reg : List Nat) (task : Nat) : Prop := task = 0 ∨ task ∈ reg

def CurrentSafe (s : Scheduler) (reg : List Nat) (task : Nat) : Prop := RingOk { s with current_task := task } reg

theorem Inv.set_current (h : Inv s reg) (hfit : CurrentFits reg task) : Inv { s with current_task := task } reg where
  nodes := h.nodes.imp fun _ ⟨hn, hp⟩ => ⟨hn.congr (fun _ _ => rfl) rfl, hp⟩
  live := h.live
  allocated := h.allocated
  tasks := h.tasks
  current := hfit

/-- For a task whose `t_node` the pool has set or cleared. -/
theorem current_safe_iff (h : Inv s reg) (ht : task ∈ reg ∨ s.t_node task = 0) :
    CurrentSafe s reg task ↔ CurrentFits reg task := by
  refine ⟨fun hok => ?_, fun hfit => (h.set_current hfit).ok⟩
  by_contra hfit
  obtain ⟨h0, hreg⟩ := not_or.1 hfit
  have hnode : s.t_node task = 0 := ht.resolve_left hreg
  rcases hok.safe 0 (by rw [time_loop, if_neg h0]; simp [hnode]) with hm | ⟨-, hm⟩
  · exact h.allocated hm
  · exact h0 hm

/-- A step of the system, with the registered tasks. The scheduler may choose
any task that fits. The last step is what other code does to other memory. -/
inductive RingStep : Scheduler × List Nat → Scheduler × List Nat → Prop
  | add {s s' : Scheduler} {reg : List Nat} {fuel task : Nat} {new : Option Nat} {ret : Int} (hnew : Fresh s new)
      (ht : task ≠ 0) (hfit : AddFits reg new task) (h : add_task_to_task_pool fuel new task s = some (ret, s')) :
      RingStep (s, reg) (s', registered reg new task)
  | remove {s : Scheduler} {reg : List Nat} {task : Nat} (ht : task ∈ reg) (hfit : RemoveFits s task) :
      RingStep (s, reg) (remove_task_from_pool task s, reg.erase task)
  | current {s : Scheduler} {reg : List Nat} {task : Nat} (hfit : CurrentFits reg task) :
      RingStep (s, reg) ({ s with current_task := task }, reg)
  | other {s s' : Scheduler} {reg : List Nat} (hnodes : ∀ n ∈ s.allocated, s'.nodes n = s.nodes n)
      (htasks : ∀ task ∈ reg, s'.t_node task = s.t_node task) (hhead : s'.head_node = s.head_node)
      (hcur : s'.current_task = s.current_task) (halloc : s'.allocated = s.allocated) : RingStep (s, reg) (s', reg)

theorem RingStep.inv {c c' : Scheduler × List Nat} (hs : RingStep c c') (h : Inv c.1 c.2) : Inv c'.1 c'.2 := by
  cases hs with
  | add hnew ht hfit hadd =>
    obtain ⟨ret, s', hadd', hinv⟩ := add_fits h hnew ht hfit (Nat.lt_succ_self _)
    obtain ⟨-, rfl⟩ := Prod.mk.inj ((add_mono _ _ _).det hadd hadd')
    exact hinv
  | remove ht hfit => exact remove_fits h ht hfit
  | current hfit => exact h.set_current hfit
  | other hnodes htasks hhead hcur halloc =>
    obtain ⟨xs, hn, hp⟩ := h.nodes
    have hlive : ∀ n ∈ xs, _ := fun n hm => hnodes n (by
      obtain ⟨task, ht, rfl⟩ := List.mem_map.1 (hp.subset hm)
      exact h.live task ht)
    refine ⟨⟨xs, hn.congr hlive hhead, ?_⟩, ?_, ?_, h.tasks, ?_⟩
    · rw [List.map_congr_left htasks]
      exact hp
    · intro task ht
      rw [htasks task ht, halloc]
      exact h.live task ht
    · rw [halloc]
      exact h.allocated
    · rw [hcur]
      exact h.current

/-- From the empty pool, as long as neither the head nor the running task is
removed and the running task is a registered one, the ring holds the registered
tasks. In each such state the next call is right exactly if it fits. -/
theorem ring_holds {s₀ : Scheduler} (hhead : s₀.head_node = 0) (hcur : s₀.current_task = 0) (halloc : s₀.allocated = ∅)
    (h : Relation.ReflTransGen RingStep (s₀, []) (s, reg)) :
    RingOk s reg ∧
      (∀ new task, Fresh s new → task ≠ 0 → (AddSafe s reg new task ↔ AddFits reg new task)) ∧
      (∀ task ∈ reg, RemoveSafe s reg task ↔ RemoveFits s task) ∧
      ∀ task, task ∈ reg ∨ s.t_node task = 0 → (CurrentSafe s reg task ↔ CurrentFits reg task) := by
  have hinv : ∀ c, Relation.ReflTransGen RingStep (s₀, []) c → Inv c.1 c.2 := by
    intro c hc
    induction hc with
    | refl =>
      exact ⟨⟨[], ⟨trivial, hhead, by simp, by simp⟩, .refl _⟩, by simp, by simp [halloc], by simp, .inl hcur⟩
    | tail _ hstep ih => exact hstep.inv ih
  have hs := hinv _ h
  exact ⟨hs.ok, fun _ _ hnew ht => add_safe_iff hs hnew ht, fun _ ht => remove_safe_iff hs ht,
    fun _ ht => current_safe_iff hs ht⟩

/-- Tasks of priority 5, no pool. -/
def no_tasks : Scheduler := ⟨fun _ => ⟨0, 0, 0, 0⟩, fun _ => 0, fun _ => 5, 0, 0, ∅⟩

def after_add (new task : Nat) (s : Scheduler) : Scheduler :=
  ((add_task_to_task_pool 2 (some new) task s).getD (0, s)).2

/-- Tasks 1 and 2 are added, then 2 is removed. -/
theorem two_tasks_ring : ∃ s : Scheduler, RingOk s [1] ∧
    (∀ new task, Fresh s new → task ≠ 0 → (AddSafe s [1] new task ↔ AddFits [1] new task)) ∧
    (∀ task ∈ [1], RemoveSafe s [1] task ↔ RemoveFits s task) ∧
    ∀ task, task ∈ [1] ∨ s.t_node task = 0 → (CurrentSafe s [1] task ↔ CurrentFits [1] task) := by
  have h1 : RingStep (no_tasks, []) (after_add 100 1 no_tasks, [1]) :=
    @RingStep.add _ _ [] 2 1 (some 100) 0 (by rintro n ⟨⟩; decide) (by decide) (.inr (by decide)) rfl
  have h2 : RingStep (after_add 100 1 no_tasks, [1]) (after_add 200 2 (after_add 100 1 no_tasks), [2, 1]) :=
    @RingStep.add _ _ [1] 2 2 (some 200) 0 (by rintro n ⟨⟩; decide) (by decide) (.inr (by decide)) rfl
  have h3 := @RingStep.remove (after_add 200 2 (after_add 100 1 no_tasks)) [2, 1] 2 (by decide) ⟨by decide, by decide⟩
  exact ⟨_, ring_holds rfl rfl rfl (((Relation.ReflTransGen.single h1).tail h2).tail h3)⟩

/-- The head is removed while task 2 is registered: with no running task the
freed node 100 is followed. -/
theorem freed_head_followed : ∃ s₁ s₂, add_task_to_task_pool 2 (some 100) 1 no_tasks = some (0, s₁) ∧
    add_task_to_task_pool 2 (some 200) 2 s₁ = some (0, s₂) ∧
    (time_loop (remove_task_from_pool 1 s₂)).2 = [100] ∧ 100 ∉ (remove_task_from_pool 1 s₂).allocated ∧
    (time_loop { remove_task_from_pool 1 s₂ with current_task := 1 }).2.head? = some 0 ∧
    ¬RingOk (remove_task_from_pool 1 s₂) [2] :=
  ⟨_, _, rfl, rfl, by decide, by decide, by decide, fun h => absurd (h.head_live (by decide)) (by decide)⟩

end Ring

end McLinOS.TimeLoop
