import McLinOS.Sched.TimeLoopRing
/-!
# Taking turns

The tasks that `time_loop` chooses one after the other, on a pool that tasks are
only added to. They are the ring of nodes read from the one after the running
task, and a new node changes that ring at its own place only.
-/
open CLib Function

set_option linter.style.nameCheck false

namespace McLinOS.TimeLoop

/-- The switch of `Scheduler_Task`, on a scheduler that runs. -/
def Scheduler_Task (s : Scheduler) : Scheduler := { s with current_task := (time_loop s).1 }

/-- The tasks chosen by the next `n` decisions. -/
def decisions (n : Nat) (s : Scheduler) : List Nat :=
  (List.iterate Scheduler_Task (Scheduler_Task s) n).map (·.current_task)

/-- The scheduler with the given task running. -/
def running (s : Scheduler) (task : Nat) : Scheduler := { s with current_task := task }

/-- A step after which every registered task still is. -/
def BuildStep (c c' : Scheduler × List Nat) : Prop := RingStep c c' ∧ c.2 ⊆ c'.2

/-- As many decisions as there are tasks choose each of them once, and then it
begins anew. -/
structure RoundRobin (s : Scheduler) (reg : List Nat) : Prop where
  once : reg.Nodup
  visits : ∀ task ∈ reg, (decisions reg.length (running s task)).Perm reg
  again : ∀ task ∈ reg, Scheduler_Task^[reg.length] (running s task) = running s task

/-- Without the tasks that came later the order is as it was. -/
def KeepsOrder (s : Scheduler) (reg : List Nat) (s' : Scheduler) (reg' : List Nat) : Prop :=
  ∀ task ∈ reg, (decisions reg'.length (running s' task)).filter (· ∈ reg) = decisions reg.length (running s task)

/-! ## The order of the ring -/

/-- The ring of the registered tasks, and each node leads to its task. -/
structure Order (s : Scheduler) (reg xs : List Nat) : Prop where
  nodes : Nodes s xs
  perm : xs.Perm (reg.map s.t_node)
  named : ∀ task ∈ reg, (s.nodes (s.t_node task)).task = task
  tasks : 0 ∉ reg

section Order
variable {s s' : Scheduler} {reg reg' xs ys us vs : List Nat} {n task : Nat}

theorem Order.mem (h : Order s reg xs) : n ∈ xs ↔ (s.nodes n).task ∈ reg ∧ s.t_node (s.nodes n).task = n := by
  rw [h.perm.mem_iff, List.mem_map]
  constructor
  · rintro ⟨task, ht, rfl⟩
    rw [h.named task ht]
    exact ⟨ht, rfl⟩
  · rintro ⟨ht, hn⟩
    exact ⟨_, ht, hn⟩

theorem Order.length (h : Order s reg xs) : reg.length = xs.length := by
  simpa using h.perm.length_eq.symm

/-- One decision goes on to the next node. -/
theorem Order.decide (h : Order s reg xs) (hn : n ∈ xs) :
    Scheduler_Task (running s (s.nodes n).task) = running s (s.nodes (s.next n)).task := by
  obtain ⟨ht, hnode⟩ := h.mem.1 hn
  have h0 : (s.nodes n).task ≠ 0 := fun h0 => h.tasks (h0 ▸ ht)
  unfold Scheduler_Task time_loop running
  dsimp only
  rw [if_neg h0, hnode]
  rfl

/-- Decisions follow the nodes. -/
theorem Order.iterate (h : Order s reg xs) (k : Nat) (hn : n ∈ xs) :
    List.iterate Scheduler_Task (running s (s.nodes n).task) k =
        (List.iterate s.next n k).map (fun m => running s (s.nodes m).task) ∧
      Scheduler_Task^[k] (running s (s.nodes n).task) = running s (s.nodes (s.next^[k] n)).task := by
  induction k generalizing n with
  | zero => exact ⟨rfl, rfl⟩
  | succ k ih =>
    obtain ⟨h1, h2⟩ := ih (h.nodes.ring.next_mem hn)
    rw [List.iterate, List.iterate, h.decide hn, h1, iterate_succ_apply, iterate_succ_apply, h.decide hn, h2]
    exact ⟨rfl, rfl⟩

/-- A round from a task visits the nodes behind its own, and ends at it. -/
theorem Order.round (h : Order s reg xs) (ht : task ∈ reg) (hxs : xs = us ++ s.t_node task :: vs) :
    decisions reg.length (running s task) = (vs ++ us ++ [s.t_node task]).map (fun n => (s.nodes n).task) ∧
      Scheduler_Task^[reg.length] (running s task) = running s task := by
  have hring : Ring s.next s.priv (s.t_node task :: (vs ++ us)) := Ring.rotate.1 (hxs ▸ h.nodes.ring)
  have hlen : reg.length = (vs ++ us).length + 1 := by
    rw [h.length, hxs]
    simp
    omega
  have hmem : s.t_node task ∈ xs := by simp [hxs]
  have hstart : running s task = running s (s.nodes (s.t_node task)).task := by rw [h.named task ht]
  constructor
  · rw [decisions, hstart, h.decide hmem, (h.iterate _ (h.nodes.ring.next_mem hmem)).1, hlen, hring.iterate_next,
      List.map_map]
    rfl
  · rw [hstart, (h.iterate _ hmem).2, hlen, hring.iterate.2]

theorem Order.roundRobin (h : Order s reg xs) : RoundRobin s reg := by
  have hsplit : ∀ task ∈ reg, ∃ us vs, xs = us ++ s.t_node task :: vs := fun task ht =>
    List.append_of_mem (h.perm.symm.subset (List.mem_map_of_mem ht))
  refine ⟨(h.perm.nodup_iff.1 h.nodes.nodup).of_map _, ?_, ?_⟩
  · intro task ht
    obtain ⟨us, vs, hxs⟩ := hsplit task ht
    have hnodes : (vs ++ us ++ [s.t_node task]).Perm (reg.map s.t_node) := by
      refine .trans ?_ (hxs ▸ h.perm)
      exact (List.perm_append_singleton _ (vs ++ us)).trans (@List.perm_append_comm _ (s.t_node task :: vs) us)
    have hnames : (reg.map s.t_node).map (fun n => (s.nodes n).task) = reg := by
      rw [List.map_map]
      exact (List.map_congr_left h.named).trans (List.map_id' reg)
    rw [(h.round ht hxs).1]
    exact (hnodes.map _).trans (.of_eq hnames)
  · intro task ht
    obtain ⟨us, vs, hxs⟩ := hsplit task ht
    exact (h.round ht hxs).2

/-- A ring that becomes the old one when the new nodes are left out. -/
theorem Order.keeps (h : Order s reg xs) (h' : Order s' reg' ys) (hreg : reg ⊆ reg')
    (hkeep : ys.filter (· ∈ xs) = xs) (hnode : ∀ task ∈ reg, s'.t_node task = s.t_node task) :
    KeepsOrder s reg s' reg' := by
  intro task ht
  have hsame : ∀ n ∈ xs, (s'.nodes n).task = (s.nodes n).task := by
    intro n hn
    obtain ⟨t, htr, rfl⟩ := List.mem_map.1 (h.perm.subset hn)
    rw [h.named t htr, ← hnode t htr, h'.named t (hreg htr)]
  have hold : ∀ n ∈ ys, ((s'.nodes n).task ∈ reg ↔ n ∈ xs) := by
    intro n hn
    constructor
    · intro htr
      have hback := (h'.mem.1 hn).2
      rw [hnode _ htr] at hback
      exact h.perm.symm.subset (List.mem_map.2 ⟨_, htr, hback⟩)
    · intro hx
      rw [hsame n hx]
      exact (h.mem.1 hx).1
  have hmem : s.t_node task ∈ xs := h.perm.symm.subset (List.mem_map_of_mem ht)
  obtain ⟨us, vs, hys⟩ := List.append_of_mem
    (show s'.t_node task ∈ ys from h'.perm.symm.subset (List.mem_map_of_mem (hreg ht)))
  have hxs : xs = us.filter (· ∈ xs) ++ s.t_node task :: vs.filter (· ∈ xs) := by
    conv_lhs => rw [← hkeep, hys, hnode task ht]
    rw [List.filter_append, List.filter_cons_of_pos (by simpa using hmem)]
  have hround : (vs ++ us ++ [s.t_node task]).filter (fun n => (s'.nodes n).task ∈ reg) =
      vs.filter (· ∈ xs) ++ us.filter (· ∈ xs) ++ [s.t_node task] := by
    have hin : ∀ n ∈ vs ++ us ++ [s.t_node task], n ∈ ys := by
      intro n hn
      rw [hys, hnode task ht]
      simp only [List.mem_append, List.mem_cons, List.not_mem_nil, or_false] at hn ⊢
      tauto
    rw [List.filter_congr fun n hn => decide_eq_decide.2 (hold n (hin n hn)), List.filter_append, List.filter_append,
      List.filter_cons_of_pos (by simpa using hmem), List.filter_nil]
  rw [(h.round ht hxs).1, (h'.round (hreg ht) hys).1, hnode task ht, List.filter_map]
  refine (congrArg (List.map _) hround).trans (List.map_congr_left fun n hn => hsame n ?_)
  rw [hxs]
  simp only [List.mem_append, List.mem_cons, List.not_mem_nil, or_false] at hn ⊢
  tauto

/-! ## Runs -/

theorem set_next_task (s : Scheduler) (v w m : Nat) : ((s.set_next v w).nodes m).task = (s.nodes m).task :=
  s.field_modify v (·.task) ({ · with next := w }) (fun _ => rfl) m

theorem set_priv_task (s : Scheduler) (v w m : Nat) : ((s.set_priv v w).nodes m).task = (s.nodes m).task :=
  s.field_modify v (·.task) ({ · with priv := w }) (fun _ => rfl) m

theorem link_task (s : Scheduler) (new n m : Nat) : ((link_before s new n).nodes m).task = (s.nodes m).task := by
  unfold link_before
  dsimp only
  rw [set_priv_task, set_next_task, set_priv_task, set_next_task]

/-- Only the new node is given a task. -/
theorem add_named {fuel new : Nat} {ret : Int} (h : add_task_to_task_pool fuel (some new) task s = some (ret, s')) (m : Nat) :
    (s'.nodes m).task = if m = new then task else (s.nodes m).task := by
  have hfilled : ((filled s new task).nodes m).task = if m = new then task else (s.nodes m).task := by
    by_cases hm : m = new
    · simp [filled, Scheduler.set_t_node, Scheduler.modify, hm]
    · simp [filled, Scheduler.set_t_node, Scheduler.modify, hm]
  rw [← hfilled]
  rw [add_eq] at h
  split at h
  · obtain ⟨-, rfl⟩ := Prod.mk.inj (Option.some.inj h)
    rw [set_priv_task, set_next_task]
  · obtain ⟨n, -, heq⟩ := Option.map_eq_some_iff.1 h
    obtain ⟨-, rfl⟩ := Prod.mk.inj heq
    exact link_task _ _ _ _

/-- What a step does to the order. -/
theorem BuildStep.order {c c' : Scheduler × List Nat} (hs : BuildStep c c') (hi : Inv c.1 c.2)
    (h : Order c.1 c.2 xs) : ∃ ys, Order c'.1 c'.2 ys ∧ ys.filter (· ∈ xs) = xs ∧
      ∀ task ∈ c.2, c'.1.t_node task = c.1.t_node task := by
  have hall : xs.filter (· ∈ xs) = xs := List.filter_eq_self.2 (by simp)
  obtain ⟨hring, hreg⟩ := hs
  cases hring with
  | @add s s' reg fuel task new ret hnew ht hfit hadd =>
    rcases new with _ | new
    · obtain ⟨-, rfl⟩ := Prod.mk.inj (Option.some.inj hadd)
      exact ⟨xs, h, hall, fun _ _ => rfl⟩
    have htask : task ∉ reg := hfit.resolve_left (by simp)
    obtain ⟨h0, hfresh⟩ := hnew new rfl
    have hnx : new ∉ xs := hi.fresh h.perm hfresh
    obtain ⟨s'', ys, hadd', hys, hperm, hkeep, htn, -, -⟩ := h.nodes.add task h0 hnx (Nat.lt_succ_self _)
    obtain ⟨rfl, rfl⟩ := Prod.mk.inj ((add_mono _ _ _).det hadd hadd')
    have hmap : ∀ t ∈ reg, s'.t_node t = s.t_node t := by
      intro t hm
      rw [htn, update_of_ne]
      rintro rfl
      exact htask hm
    have hinsert : registered reg (some new) task = task :: reg := List.insert_of_not_mem htask
    refine ⟨ys, ⟨hys, ?_, ?_, ?_⟩, ?_, hmap⟩
    · rw [hinsert, List.map_cons, htn, update_self, ← htn, List.map_congr_left hmap]
      exact hperm.trans (h.perm.cons new)
    · rw [hinsert]
      intro t ht'
      rw [add_named hadd]
      rcases List.mem_cons.1 ht' with rfl | hm
      · rw [htn, update_self, if_pos rfl]
      · have hne : s.t_node t ≠ new := by
          rintro rfl
          exact hnx (h.perm.symm.subset (List.mem_map_of_mem hm))
        rw [hmap t hm, if_neg hne, h.named t hm]
    · rw [hinsert, List.mem_cons, not_or]
      exact ⟨ht.symm, h.tasks⟩
    · conv_rhs => rw [← hkeep]
      refine List.filter_congr fun n hn => decide_eq_decide.2 ?_
      rcases List.mem_cons.1 (hperm.subset hn) with rfl | hx
      · simp [hnx]
      · simp only [hx, true_iff]
        rintro rfl
        exact hnx hx
  | @remove s reg task ht hfit =>
    have hnd : reg.Nodup := (h.perm.nodup_iff.1 h.nodes.nodup).of_map _
    exact absurd (hreg ht) hnd.not_mem_erase
  | current hfit => exact ⟨xs, ⟨h.nodes.congr (fun _ _ => rfl) rfl, h.perm, h.named, h.tasks⟩, hall, fun _ _ => rfl⟩
  | @other s s' reg hnodes htasks hhead hcur halloc =>
    have hlive : ∀ n ∈ xs, s'.nodes n = s.nodes n := by
      intro n hm
      obtain ⟨task, ht, rfl⟩ := List.mem_map.1 (h.perm.subset hm)
      exact hnodes _ (hi.live task ht)
    refine ⟨xs, ⟨h.nodes.congr hlive hhead, ?_, ?_, h.tasks⟩, hall, htasks⟩
    · rw [List.map_congr_left htasks]
      exact h.perm
    · intro task ht
      rw [htasks task ht, hnodes _ (hi.live task ht), h.named task ht]

/-- Keeping the order twice. -/
theorem KeepsOrder.trans {s'' : Scheduler} {reg'' : List Nat} (h : KeepsOrder s reg s' reg')
    (h' : KeepsOrder s' reg' s'' reg'') (hreg : reg ⊆ reg') : KeepsOrder s reg s'' reg'' := by
  intro task ht
  rw [← h task ht, ← h' task (hreg ht), List.filter_filter]
  refine List.filter_congr fun t _ => ?_
  by_cases hm : t ∈ reg
  · simp [hm, hreg hm]
  · simp [hm]

/-- On a pool that tasks were only added to, the decisions take turns. Whatever is
added later, the old tasks keep their order. -/
theorem time_loop_fair {s₀ : Scheduler} (hhead : s₀.head_node = 0) (hcur : s₀.current_task = 0) (halloc : s₀.allocated = ∅)
    (h : Relation.ReflTransGen BuildStep (s₀, []) (s, reg)) :
    RoundRobin s reg ∧
      (∀ new task, Fresh s (some new) → task ≠ 0 → task ∉ reg →
        ∃ fuel s', add_task_to_task_pool fuel (some new) task s = some (0, s') ∧ BuildStep (s, reg) (s', task :: reg)) ∧
      ∀ s' reg', Relation.ReflTransGen BuildStep (s, reg) (s', reg') →
        RoundRobin s' reg' ∧ reg ⊆ reg' ∧ KeepsOrder s reg s' reg' := by
  have hrun : ∀ c, Relation.ReflTransGen BuildStep (s₀, []) c → Inv c.1 c.2 ∧ ∃ xs, Order c.1 c.2 xs := by
    intro c hc
    induction hc with
    | refl =>
      have hnodes : Nodes s₀ [] := ⟨trivial, hhead, by simp, by simp⟩
      exact ⟨⟨⟨[], hnodes, .refl _⟩, by simp, by simp [halloc], by simp, .inl hcur⟩, [], hnodes, .refl _, by simp, by simp⟩
    | tail _ hstep ih =>
      obtain ⟨hi, xs, ho⟩ := ih
      obtain ⟨ys, hys, -⟩ := hstep.order hi ho
      exact ⟨hstep.1.inv hi, ys, hys⟩
  obtain ⟨hi, xs, ho⟩ := hrun _ h
  refine ⟨ho.roundRobin, ?_, ?_⟩
  · intro new task hnew ht htask
    have hinsert : registered reg (some new) task = task :: reg := List.insert_of_not_mem htask
    obtain ⟨h0, hfresh⟩ := hnew new rfl
    obtain ⟨s', ys, hadd, -⟩ := ho.nodes.add task h0 (hi.fresh ho.perm hfresh) (Nat.lt_succ_self _)
    have hstep := RingStep.add hnew ht (.inr htask) hadd
    rw [hinsert] at hstep
    exact ⟨_, s', hadd, hstep, List.subset_cons_self _ _⟩
  · intro s' reg' h'
    have hlater : ∀ c, Relation.ReflTransGen BuildStep (s, reg) c → reg ⊆ c.2 ∧ KeepsOrder s reg c.1 c.2 := by
      intro c hc
      induction hc with
      | refl => exact ⟨List.Subset.refl _, ho.keeps ho (List.Subset.refl _) (List.filter_eq_self.2 (by simp)) fun _ _ => rfl⟩
      | tail hc hstep ih =>
        obtain ⟨hi', ys, hys⟩ := hrun _ (h.trans hc)
        obtain ⟨zs, hzs, hkeep, hnode⟩ := hstep.order hi' hys
        exact ⟨List.Subset.trans ih.1 hstep.2, ih.2.trans (hys.keeps hzs hstep.2 hkeep hnode) ih.1⟩
    obtain ⟨-, ys, hys⟩ := hrun _ (h.trans h')
    exact ⟨hys.roundRobin, hlater _ h'⟩

/-- Tasks 1 and 2 are added. -/
theorem two_tasks_fair : RoundRobin (after_add 200 2 (after_add 100 1 no_tasks)) [2, 1] := by
  have h1 : RingStep (no_tasks, []) (after_add 100 1 no_tasks, [1]) :=
    @RingStep.add _ _ [] 2 1 (some 100) 0 (by rintro n ⟨⟩; decide) (by decide) (.inr (by decide)) rfl
  have h2 : RingStep (after_add 100 1 no_tasks, [1]) (after_add 200 2 (after_add 100 1 no_tasks), [2, 1]) :=
    @RingStep.add _ _ [1] 2 2 (some 200) 0 (by rintro n ⟨⟩; decide) (by decide) (.inr (by decide)) rfl
  exact (time_loop_fair rfl rfl rfl ((Relation.ReflTransGen.single ⟨h1, by simp⟩).tail ⟨h2, by simp⟩)).1

end Order

end McLinOS.TimeLoop
