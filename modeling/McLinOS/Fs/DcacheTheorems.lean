import McLinOS.Fs.DcacheNames
/-!
# Isolation of the kernel heap

In every run whose names fit, `dentry_rename` and `__d_alloc` keep to their own
buffers, and they do so on the next call exactly if its name fits.
-/
open CLib McLinOS.Heap

namespace McLinOS.Dcache

section Isolation
variable {space memory_size : Nat} {s : Sys} {ps : List Part}

/-! ## One call -/

theorem kmalloc_mono (c : Ctx) (size : Nat) : FuelMono fun fuel => kmalloc fuel c size := by
  simp only [kmalloc, Option.map_eq_bind]
  exact (smalloc_mono _ _ _).bind fun _ => .const _

theorem kfree_mono (c : Ctx) (ptr : Nat) : FuelMono fun fuel => kfree fuel c ptr := by
  simp only [kfree, Option.map_eq_bind]
  exact (sfree_mono _ _ _).bind fun _ => .const _

theorem set_name_mono (d r : Nat) (name : Name) (c : Ctx) : FuelMono fun fuel => set_name fuel d r name c := by
  unfold set_name
  dsimp only
  split
  · exact (kfree_mono _ _).bind fun _ => .const _
  · split
    · exact (kfree_mono _ _).bind fun _ => .const _
    · exact .const _

theorem dentry_rename_mono (d : Nat) (name : Name) (c : Ctx) : FuelMono fun fuel => dentry_rename fuel d name c := by
  unfold dentry_rename
  split
  · exact .const _
  · refine (kmalloc_mono _ _).bind fun r => ?_
    split
    · exact .const _
    · exact set_name_mono _ _ _ _

theorem d_alloc_mono (sb : Nat) (name : Name) (c : Ctx) : FuelMono fun fuel => __d_alloc fuel sb name c := by
  unfold __d_alloc
  refine (kmalloc_mono _ _).bind fun r => ?_
  dsimp only
  split
  · exact .const _
  · refine (dentry_rename_mono _ _ _).bind fun r => ?_
    split
    · exact (kfree_mono _ _).bind fun _ => .const _
    · exact .const _

theorem run_mono (s : Sys) (call : Call) : FuelMono fun fuel => call.run fuel s := by
  cases call with
  | dentry_rename d name => exact dentry_rename_mono _ _ _
  | __d_alloc sb name => exact d_alloc_mono _ _ _

theorem NamedAt.named (hi : Inv space memory_size s ps) {d b n : Nat} {name : Name} (hd : d = b + 20)
    (hb : (b, n) ∈ usedAt space ps) (hn : sizeof_dentry ≤ n) (h : NamedAt space s.mem ps d name) : Named s d name where
  dentry := ⟨⟨b, n, (used_iff hi b n).2 hb, hd, hn⟩, .inr (h.ptr.imp (·.1) fun ⟨b, n, hb, hp, hne, _⟩ =>
    ⟨b, n, (used_iff hi b n).2 hb, hp, hne⟩)⟩
  len := h.len
  bytes := h.bytes

theorem dentry_buf (hi : Inv space memory_size s ps) {d : Nat} (hd : IsDentry s d) (name : Name) :
    Buf space ps (Call.dentry_rename d name).own ((Call.dentry_rename d name).mine s) (.enter s) ps d sizeof_dentry ∧
      OldName space ps ((Call.dentry_rename d name).mine s) s.mem ps d := by
  obtain ⟨b, n, hb, rfl, hn⟩ := hd.block
  refine ⟨⟨⟨b, n, rfl, (used_iff hi b n).1 hb, hn, fun _ _ => by simp [Call.mine]⟩, by simp [Call.own]⟩, ?_⟩
  refine hd.name.imp_right (Or.imp_right fun ⟨e, l, he, hp, hne⟩ => ⟨e, l, (used_iff hi e l).1 he, hp, hne, ?_⟩)
  intro _ _
  simp [Call.mine, hp]

/-- A call whose name fits. -/
theorem call_keeps (hi : Inv space memory_size s ps) {call : Call} (hv : call.Valid s) (hfit : call.Fits ps)
    {fuel : Nat} (hf : memory_size + 4 ≤ fuel) :
    ∃ ret c ps', call.run fuel s = some (ret, c) ∧
      Keeps space memory_size s ps call.own (call.mine s) c ps' ∧ call.Done c.sys ret := by
  cases call with
  | dentry_rename d name =>
    obtain ⟨hbuf, hold⟩ := dentry_buf hi hv.1 name
    obtain ⟨ret, c, ps', hrun, hk, hbuf', hret⟩ := rename_keeps (.enter hi) hf hbuf (Nat.le_refl _) hold
      (hv.2 ps (inv_partition hi)) hfit
    refine ⟨ret, c, ps', hrun, hk, fun h0 => ?_⟩
    obtain ⟨b, n, hd, hb, hn, -⟩ := hbuf'.block
    rcases hret with rfl | ⟨-, hname⟩
    · exact absurd h0 (by decide)
    · exact hname.named hk.inv hd hb hn
  | __d_alloc sb name =>
    obtain ⟨ret, c, ps', hrun, hk, hret⟩ := d_alloc_keeps (.enter hi) hf sb (hv ps (inv_partition hi)) hfit
    refine ⟨ret, c, ps', hrun, hk, fun hok => ?_⟩
    rcases hret with herr | ⟨d, k, rfl, hbuf, h124, hname⟩
    · exact absurd herr hok
    · obtain ⟨b, n, hd, hb, hn, -⟩ := hbuf.block
      exact ⟨d, rfl, hname.named hk.inv hd hb (Nat.le_trans h124 hn)⟩

/-- A call whose name does not fit. -/
theorem call_strays (hi : Inv space memory_size s ps) {call : Call} (hv : call.Valid s) (hfit : ¬call.Fits ps) :
    ¬call.Safe space memory_size s := by
  rintro ⟨fuel, ret, c, hrun, hiso, -⟩
  suffices h : ∃ w ∈ c.writes, ¬InBuffer (call.own ++ c.blocks) w.addr w.len by
    obtain ⟨w, hw, hstray⟩ := h
    exact hstray (hiso.writes w hw).1
  cases call with
  | dentry_rename d name =>
    obtain ⟨b, n, hb, rfl, hn⟩ := hv.1.block
    have hk : Keeps space memory_size s ps [(b + 20, sizeof_dentry)] [] (.enter s) ps := .enter hi
    refine rename_strays hk (by omega) (fun e he => ?_) (hv.2 ps (inv_partition hi)) hfit hrun
    obtain rfl : e = (b + 20, sizeof_dentry) := by simpa [Ctx.enter, Call.own] using he
    exact ⟨b, n, rfl, (used_iff hi b n).1 hb, hn⟩
  | __d_alloc sb name =>
    have hk : Keeps space memory_size s ps [] [] (.enter s) ps := .enter hi
    exact d_alloc_strays hk (by simp [Ctx.enter]) (hv ps (inv_partition hi)) hfit hrun

/-! ## Runs -/

theorem kstep_inv {s' : Sys} (hi : Inv space memory_size s ps) (hs : KStep s s') : ∃ ps', Inv space memory_size s' ps' := by
  cases hs with
  | heap h => exact inv_preserved hi h
  | call call fuel hv hps hfit hrun =>
    obtain rfl := partition_unique hps (inv_partition hi)
    obtain ⟨ret, c, ps', hrun', hk, -⟩ := call_keeps hi hv hfit (Nat.le_refl (memory_size + 4))
    obtain ⟨-, rfl⟩ := Prod.mk.inj ((run_mono s call).det hrun' hrun)
    exact ⟨ps', hk.inv⟩

theorem kernel_inv (h : Reachable (Init space memory_size) KStep s) : ∃ ps, Inv space memory_size s ps :=
  h.inv (fun s => ∃ ps, Inv space memory_size s ps) (fun _ h0 => ⟨_, init_inv h0⟩) fun _ _ ⟨_, hi⟩ hs => kstep_inv hi hs

/-- In every run whose calls had names that fit, the next call is safe if and
only if its name fits. -/
theorem dentry_names_isolated (h : Reachable (Init space memory_size) KStep s) (hps : Partition s.haper s.mem ps)
    {call : Call} (hv : call.Valid s) : call.Safe space memory_size s ↔ call.Fits ps := by
  obtain ⟨ps', hi⟩ := kernel_inv h
  obtain rfl := partition_unique hps (inv_partition hi)
  constructor
  · intro hsafe
    by_contra hfit
    exact call_strays hi hv hfit hsafe
  · intro hfit
    obtain ⟨ret, c, ps', hrun, hk, hdone⟩ := call_keeps hi hv hfit (Nat.le_refl (memory_size + 4))
    exact ⟨memory_size + 4, ret, c, hrun, hk.isolates hi, hdone⟩

/-! ## A fresh heap -/

/-- Seven and eight letters `a`. -/
def seven : Name := ⟨List.replicate 7 97, by decide, by decide⟩
def eight : Name := ⟨List.replicate 8 97, by decide, by decide⟩

/-- A main heap of 400 bytes at 32, with nothing allocated. -/
def fresh_heap : Sys := ⟨(haper2_init (fun _ => 0) 32 400 0).2.1, (haper2_init (fun _ => 0) 32 400 0).2.2, []⟩

theorem fresh_init : Init 32 400 fresh_heap := ⟨by decide, by decide, rfl, fun _ => 0, 0, rfl⟩

theorem fresh_beside {name : Name} (h : strlen name ≤ 8) : Beside fresh_heap name := by
  intro ps hps p hp _
  obtain rfl := partition_unique hps (inv_partition (init_inv fresh_init))
  obtain rfl := List.mem_singleton.1 hp
  dsimp only
  omega

theorem dentry_names_isolated_seven : (Call.__d_alloc 0 seven).Safe 32 400 fresh_heap := by
  have hps : Partition fresh_heap.haper fresh_heap.mem [⟨400 - 20, false⟩] := inv_partition (init_inv fresh_init)
  have hv : (Call.__d_alloc 0 seven).Valid fresh_heap := fresh_beside (by decide)
  apply (dentry_names_isolated (.start fresh_init) hps hv).2
  intro xs n ys _ h8
  exact absurd h8 (by decide)

/-- A name of eight letters on the fresh heap: the block of its copy is split
off with 8 bytes and the NUL goes into the header behind it. -/
theorem dentry_names_stray : ¬∀ (space memory_size : Nat) (s : Sys) (call : Call),
    Reachable (Init space memory_size) KStep s → call.Valid s → call.Safe space memory_size s := by
  intro hall
  have hv : (Call.__d_alloc 0 eight).Valid fresh_heap := fresh_beside (by decide)
  refine call_strays (init_inv fresh_init) hv (fun hfit => ?_) (hall 32 400 fresh_heap _ (.start fresh_init) hv)
  have hbest : BestFit (use_memory_size sizeof_dentry) [⟨400 - 20, false⟩] [] 380 [] :=
    ⟨rfl, by decide, by simp, by simp⟩
  have hcopy : BestFit (strlen eight) ([] ++ (allotted 380 (use_memory_size sizeof_dentry) minimum_size ++ []))
      [⟨128, true⟩] 232 [] := ⟨by decide, by decide, by simp [Heap.Fits], by simp⟩
  exact absurd (hfit [] 380 [] hbest (by decide) _ _ _ hcopy).2 (by decide)

end Isolation

end McLinOS.Dcache
