import McLinOS.Fs.Dcache
/-!
# Names stay in their buffers

`Keeps` is what a call has kept so far. Each `kmalloc`, `kfree` and write of a
call keeps it as long as the write stays in a buffer, which is the question of
whether the name fits its copy.
-/
open CLib McLinOS.Heap

namespace McLinOS.Dcache

section Calls
variable {space memory_size : Nat} {s : Sys} {ps₀ ps : List Part} {own : List (Nat × Nat)} {mine : List Nat} {c : Ctx}

theorem used_iff (hi : Inv space memory_size s ps) (b n : Nat) : Used s b n ↔ (b, n) ∈ usedAt space ps := by
  constructor
  · rintro ⟨qs, hqs, hb⟩
    rwa [partition_unique hqs (inv_partition hi), hi.start_addr] at hb
  · exact fun hb => ⟨ps, inv_partition hi, by rwa [hi.start_addr]⟩

/-- No used block at `b` in `ps₀` belongs to someone else. -/
def Mine (space : Nat) (ps₀ : List Part) (mine : List Nat) (b : Nat) : Prop :=
  ∀ n, (b, n) ∈ usedAt space ps₀ → b + 20 ∈ mine

/-- The call `c` that began in `s` has so far done what `Isolates` allows. -/
structure Keeps (space memory_size : Nat) (s : Sys) (ps₀ : List Part) (own : List (Nat × Nat)) (mine : List Nat)
    (c : Ctx) (ps : List Part) : Prop where
  inv : Inv space memory_size c.sys ps
  haper : c.sys.haper = s.haper
  writes : ∀ w ∈ c.writes, InBuffer (own ++ c.blocks) w.addr w.len ∧
    ∃ qs, Partition s.haper w.before qs ∧ Partition s.haper w.after qs
  others : ∀ b n, (b, n) ∈ usedAt space ps₀ → b + 20 ∉ mine →
    (b, n) ∈ usedAt space ps ∧ Agree s.mem c.sys.mem (b + 20) (b + 20 + n)
  fresh : ∀ b n, (b, n) ∈ usedAt space ps → (b, n) ∈ usedAt space ps₀ ∨ b + 20 ∈ c.blocks.map (·.1)

/-- The buffers once the block `e'` is given. -/
theorem mem_buffers {blocks : List (Nat × Nat)} {e e' : Nat × Nat} :
    e ∈ own ++ e' :: blocks ↔ e = e' ∨ e ∈ own ++ blocks :=
  List.perm_middle.mem_iff.trans List.mem_cons

/-- A buffer of `k` bytes at `ptr` the call may write to. -/
structure Buf (space : Nat) (ps₀ : List Part) (own : List (Nat × Nat)) (mine : List Nat) (c : Ctx) (ps : List Part)
    (ptr k : Nat) : Prop where
  block : ∃ b n, ptr = b + 20 ∧ (b, n) ∈ usedAt space ps ∧ k ≤ n ∧ Mine space ps₀ mine b
  buffer : (ptr, k) ∈ own ++ c.blocks

theorem Keeps.enter (hi : Inv space memory_size s ps) : Keeps space memory_size s ps own mine (.enter s) ps where
  inv := hi
  haper := rfl
  writes := by simp [Ctx.enter]
  others := fun _ _ hb _ => ⟨hb, fun _ _ _ => rfl⟩
  fresh := fun _ _ hb => .inl hb

theorem Keeps.isolates (hi : Inv space memory_size s ps₀) (hk : Keeps space memory_size s ps₀ own mine c ps) :
    Isolates space memory_size s own mine c where
  writes := hk.writes
  others := fun b n hb hm => by
    rw [used_iff hi] at hb
    rw [used_iff hk.inv]
    exact hk.others b n hb hm
  fresh := fun b n hb => by
    rw [used_iff hk.inv] at hb
    rw [used_iff hi]
    exact hk.fresh b n hb
  heap := ⟨_, inv_tiles hk.inv, inv_isolated hk.inv⟩

/-! ## Writes -/

theorem Keeps.write (hk : Keeps space memory_size s ps₀ own mine c ps) {ptr k addr len : Nat} {m : Mem}
    (hb : Buf space ps₀ own mine c ps ptr k) (hlo : ptr ≤ addr) (hhi : addr + len ≤ ptr + k)
    (hm : ∀ x, x < addr ∨ addr + len ≤ x → m x = c.sys.mem x) :
    Keeps space memory_size s ps₀ own mine (c.write addr len m) ps := by
  obtain ⟨b, n, rfl, hbn, hkn, hmine⟩ := hb.block
  have hi : Inv space memory_size { c.sys with mem := m } ps := inv_payload hk.inv hbn fun x hx => hm x (by omega)
  have hbefore : Partition s.haper c.sys.mem ps := hk.haper ▸ inv_partition hk.inv
  have hafter : Partition s.haper m ps := by
    have hpart := inv_partition hi
    rw [← hk.haper]
    exact hpart
  refine ⟨hi, hk.haper, ?_, ?_, hk.fresh⟩
  · exact List.forall_mem_cons.2 ⟨⟨⟨_, hb.buffer, hlo, hhi⟩, ps, hbefore, hafter⟩, hk.writes⟩
  · intro b' n' hb' hm'
    obtain ⟨h1, h2⟩ := hk.others b' n' hb' hm'
    refine ⟨h1, fun x hx1 hx2 => (hm x ?_).trans (h2 x hx1 hx2)⟩
    have hne : b' ≠ b := by
      rintro rfl
      exact hm' (hmine n' hb')
    have := used_apart h1 hbn hne
    omega

theorem Buf.write {ptr k addr len : Nat} {m : Mem} (hb : Buf space ps₀ own mine c ps ptr k) :
    Buf space ps₀ own mine (c.write addr len m) ps ptr k := ⟨hb.block, hb.buffer⟩

theorem Keeps.strcpy (hk : Keeps space memory_size s ps₀ own mine c ps) {ptr k addr : Nat} {name : Name}
    (hb : Buf space ps₀ own mine c ps ptr k) (hlo : ptr ≤ addr) (hhi : addr + (strlen name + 1) ≤ ptr + k) :
    Keeps space memory_size s ps₀ own mine (strcpy c addr name) ps := by
  refine hk.write hb hlo hhi fun x hx => Mem.copy_apply_ne ?_
  simpa [strlen] using hx

theorem Keeps.set (hk : Keeps space memory_size s ps₀ own mine c ps) {ptr k addr v : Nat}
    (hb : Buf space ps₀ own mine c ps ptr k) (hlo : ptr ≤ addr) (hhi : addr + 4 ≤ ptr + k) :
    Keeps space memory_size s ps₀ own mine (c.set addr v) ps :=
  hk.write hb hlo hhi fun _ hx => Mem.store_apply_ne hx

/-! ## kmalloc and kfree -/

/-- What a `kmalloc` that found the block of `n` bytes gives the call. -/
structure Given (space memory_size : Nat) (s : Sys) (ps₀ : List Part) (own : List (Nat × Nat)) (mine : List Nat)
    (c : Ctx) (ps : List Part) (size r : Nat) (c' : Ctx) (xs : List Part) (n : Nat) (ys : List Part) : Prop where
  best : BestFit size ps xs n ys
  pos : 0 < size
  result : r = space + span xs + 20
  keeps : Keeps space memory_size s ps₀ own mine c' (xs ++ (allotted n size minimum_size ++ ys))
  buf : Buf space ps₀ own mine c' (xs ++ (allotted n size minimum_size ++ ys)) r (capacity n size)
  blocks : c'.blocks = (r, capacity n size) :: c.blocks
  writes : c'.writes = c.writes
  frame : ∀ x, UsedByte space ps x → c'.sys.mem x = c.sys.mem x

theorem keeps_kmalloc (hk : Keeps space memory_size s ps₀ own mine c ps) {fuel size r : Nat} {c' : Ctx}
    (h : kmalloc fuel c size = some (r, c')) :
    (r = 0 ∧ c' = c ∧ (use_memory_size (u32 size) = 0 ∨ ∀ p ∈ ps, ¬Heap.Fits (use_memory_size (u32 size)) p)) ∨
      ∃ xs n ys, Given space memory_size s ps₀ own mine c ps (use_memory_size (u32 size)) r c' xs n ys := by
  obtain ⟨⟨m, r'⟩, hs, hc⟩ := Option.map_eq_some_iff.1 h
  obtain ⟨rfl, rfl⟩ := Prod.mk.inj hc
  rcases smalloc_spec hk.inv hs with ⟨rfl, rfl, hno⟩ | ⟨xs, n, ys, hbest, hpos, rfl, hi⟩
  · exact .inl ⟨rfl, rfl, hno⟩
  have hlow := hk.inv.holds.low
  have hr : space + span xs + 20 ≠ 0 := by omega
  have hnew : ∀ e, e ∈ usedAt space (xs ++ (allotted n (use_memory_size (u32 size)) minimum_size ++ ys)) ↔
      e = (space + span xs, capacity n (use_memory_size (u32 size))) ∨ e ∈ usedAt space ps := fun e => by
    rw [hbest.split]
    exact mem_usedAt_allotted e
  have hcap : block_size m (space + span xs) = capacity n (use_memory_size (u32 size)) :=
    block_size_at hi.holds ((hnew _).2 (.inl rfl))
  have hframe : ∀ x, UsedByte space ps x → m x = c.sys.mem x := fun x hx => smalloc_frame hk.inv hs hx
  have hsub : space + span xs + 20 - sizeof_memory_block = space + span xs := by
    simp only [sizeof_memory_block]
    omega
  have hno : ∀ k, (space + span xs, k) ∉ usedAt space ps := fun k => by
    rw [hbest.split]
    exact not_used k
  simp only [if_neg hr, hsub, hcap]
  refine .inr ⟨xs, n, ys, hbest, hpos, rfl, ⟨hi, hk.haper, fun w hw => ?_, fun b k hb hm => ?_, fun b k hb => ?_⟩,
    ⟨⟨_, _, rfl, (hnew _).2 (.inl rfl), Nat.le_refl _, fun k hk' => ?_⟩, by simp⟩, rfl, rfl, hframe⟩
  · obtain ⟨⟨e, he, hin⟩, hqs⟩ := hk.writes w hw
    exact ⟨⟨e, mem_buffers.2 (.inr he), hin⟩, hqs⟩
  · obtain ⟨h1, h2⟩ := hk.others b k hb hm
    exact ⟨(hnew _).2 (.inr h1), fun x hx1 hx2 => (hframe x ⟨b, k, h1, hx1, hx2⟩).trans (h2 x hx1 hx2)⟩
  · rcases (hnew _).1 hb with hb | hb
    · rw [(Prod.mk.inj hb).1]
      exact .inr (by simp)
    · exact (hk.fresh b k hb).imp_right fun hb => List.mem_cons_of_mem _ hb
  · -- Another owner's block would still be in use, and the block given was free.
    by_contra hm
    exact hno k (hk.others _ k hk' hm).1

theorem keeps_kfree (hk : Keeps space memory_size s ps₀ own mine c ps) {fuel b n : Nat} {c' : Ctx}
    (hb : (b, n) ∈ usedAt space ps) (hmine : Mine space ps₀ mine b) (h : kfree fuel c (b + 20) = some c') :
    ∃ ps', Keeps space memory_size s ps₀ own mine c' ps' ∧ c'.blocks = c.blocks ∧ c'.writes = c.writes ∧
      (∀ e, e ∈ usedAt space ps' ↔ e ∈ usedAt space ps ∧ e.1 ≠ b) ∧
      ∀ d k, (d, k) ∈ usedAt space ps → d ≠ b → Agree c.sys.mem c'.sys.mem (d + 20) (d + 20 + k) := by
  obtain ⟨m, hs, rfl⟩ := Option.map_eq_some_iff.1 h
  obtain ⟨ps', hi, hmem, hframe⟩ := sfree_spec hk.inv hb hs
  refine ⟨ps', ⟨hi, hk.haper, hk.writes, fun d k hd hm => ?_, fun d k hd => hk.fresh d k ((hmem _).1 hd).1⟩,
    rfl, rfl, hmem, hframe⟩
  obtain ⟨h1, h2⟩ := hk.others d k hd hm
  have hne : d ≠ b := by
    rintro rfl
    exact hm (hmine k hd)
  exact ⟨(hmem _).2 ⟨h1, hne⟩, fun x hx1 hx2 => (hframe d k h1 hne x hx1 hx2).trans (h2 x hx1 hx2)⟩

/-! ## The new name -/

/-- `Named` on the memory and the partition. -/
structure NamedAt (space : Nat) (m : Mem) (ps : List Part) (d : Nat) (name : Name) : Prop where
  ptr : (d_name_inline m d ∧ strlen name + 1 ≤ DNAME_INLINE_LEN) ∨
    ∃ b n, (b, n) ∈ usedAt space ps ∧ d_name_name m d = b + 20 ∧ b + 20 ≠ d ∧ strlen name + 1 ≤ n
  len : d_name_len m d = strlen name
  bytes : Mem.bytes m (d_name_name m d) (strlen name + 1) = name.bytes ++ [0]

theorem bytes_strcpy (c : Ctx) (addr : Nat) (name : Name) :
    Mem.bytes (strcpy c addr name).sys.mem addr (strlen name + 1) = name.bytes ++ [0] := by
  have h := Mem.bytes_copy c.sys.mem addr (name.bytes ++ [0])
  rwa [List.length_append] at h

/-- Two different buffers of a call lie apart. -/
theorem Buf.apart {p q j k : Nat} (hp : Buf space ps₀ own mine c ps p j) (hq : Buf space ps₀ own mine c ps q k)
    (hne : p ≠ q) : p + j ≤ q ∨ q + k ≤ p := by
  obtain ⟨b, n, rfl, hb, hj, -⟩ := hp.block
  obtain ⟨b', n', rfl, hb', hk, -⟩ := hq.block
  have := used_apart hb hb' (by omega)
  omega

theorem Buf.high (hk : Keeps space memory_size s ps₀ own mine c ps) {p j : Nat}
    (hp : Buf space ps₀ own mine c ps p j) : p + j ≤ 2 ^ 32 := by
  obtain ⟨b, n, rfl, hb, hj, -⟩ := hp.block
  obtain ⟨us, vs, hsplit, hspan⟩ := mem_usedAt.1 hb
  have hhigh := hk.inv.holds.high
  rw [hsplit] at hhigh
  simp only [span_append, span_cons] at hhigh hspan
  omega

/-- A buffer keeps its block when another block is freed. -/
theorem Buf.freed {c' : Ctx} {ps' : List Part} {b p j : Nat} (hp : Buf space ps₀ own mine c ps p j)
    (hblocks : c'.blocks = c.blocks) (hmem : ∀ e, e ∈ usedAt space ps' ↔ e ∈ usedAt space ps ∧ e.1 ≠ b)
    (hne : p ≠ b + 20) : Buf space ps₀ own mine c' ps' p j := by
  obtain ⟨b', n, rfl, hb, hj, hm⟩ := hp.block
  exact ⟨⟨b', n, rfl, (hmem _).2 ⟨hb, by dsimp only; omega⟩, hj, hm⟩, by rw [hblocks]; exact hp.buffer⟩

/-- The old name of a dentry: none, inline, or a block of its own. -/
def OldName (space : Nat) (ps₀ : List Part) (mine : List Nat) (m : Mem) (ps : List Part) (d : Nat) : Prop :=
  d_name_name m d = 0 ∨ d_name_inline m d ∨
    ∃ b n, (b, n) ∈ usedAt space ps ∧ d_name_name m d = b + 20 ∧ b + 20 ≠ d ∧ Mine space ps₀ mine b

section Rename
variable {d k r j fuel : Nat} {name : Name}

/-- The name goes into the dentry. -/
theorem name_inlined (hk : Keeps space memory_size s ps₀ own mine c ps) (hd : Buf space ps₀ own mine c ps d k)
    (h124 : sizeof_dentry ≤ k) (hlen : strlen name + 1 < DNAME_INLINE_LEN) :
    Keeps space memory_size s ps₀ own mine
        ((strcpy (c.set (d + 24) (d_iname d)) (d_iname d) name).set (d + 20) (strlen name)) ps ∧
      NamedAt space ((strcpy (c.set (d + 24) (d_iname d)) (d_iname d) name).set (d + 20) (strlen name)).sys.mem ps d
        name := by
  have hhigh := hd.high hk
  simp only [sizeof_dentry, DNAME_INLINE_LEN] at h124 hlen
  have h1 := hk.set (v := d_iname d) hd (Nat.le_add_right d 24) (by omega)
  have h2 : Keeps space memory_size s ps₀ own mine (strcpy (c.set (d + 24) (d_iname d)) (d_iname d) name) ps :=
    h1.strcpy hd.write (Nat.le_add_right d 28) (by simp only [d_iname]; omega)
  refine ⟨h2.set hd.write.write (Nat.le_add_right d 20) (by omega), ?_⟩
  have hptr : d_name_name ((strcpy (c.set (d + 24) (d_iname d)) (d_iname d) name).set (d + 20) (strlen name)).sys.mem d =
      d_iname d := by
    have hload : Mem.load 4 (Mem.store 4 c.sys.mem (d + 24) (d_iname d)) (d + 24) = d_iname d := by
      rw [Mem.load_store_same]
      exact Nat.mod_eq_of_lt (by simp only [d_iname]; omega)
    refine (Mem.load_store_ne (by omega)).trans (Eq.trans (Mem.load_congr fun x hx1 hx2 => ?_) hload)
    exact Mem.copy_apply_ne (by simp only [d_iname]; omega)
  refine ⟨.inl ⟨hptr, by simp only [DNAME_INLINE_LEN]; omega⟩, ?_, ?_⟩
  · exact (Mem.load_store_same _ _ _ _).trans (Nat.mod_eq_of_lt (by omega))
  · rw [hptr]
    refine Eq.trans (Mem.bytes_congr fun x hx1 hx2 => ?_) (bytes_strcpy (c.set (d + 24) (d_iname d)) (d_iname d) name)
    exact Mem.store_apply_ne (by simp only [d_iname] at hx1; omega)

/-- The copy becomes the name. -/
theorem name_replaced (hk : Keeps space memory_size s ps₀ own mine c ps) (hd : Buf space ps₀ own mine c ps d k)
    (h124 : sizeof_dentry ≤ k) (hr : Buf space ps₀ own mine c ps r j) (hlen : strlen name + 1 ≤ j) (hne : r ≠ d)
    (hbytes : Mem.bytes c.sys.mem r (strlen name + 1) = name.bytes ++ [0]) :
    Keeps space memory_size s ps₀ own mine ((c.set (d + 20) (strlen name)).set (d + 24) r) ps ∧
      NamedAt space ((c.set (d + 20) (strlen name)).set (d + 24) r).sys.mem ps d name := by
  have hhigh := hr.high hk
  have hapart := hr.apart hd hne
  simp only [sizeof_dentry] at h124
  have h1 := hk.set (v := strlen name) hd (Nat.le_add_right d 20) (by omega)
  refine ⟨h1.set hd.write (Nat.le_add_right d 24) (by omega), ?_⟩
  have hptr : d_name_name ((c.set (d + 20) (strlen name)).set (d + 24) r).sys.mem d = r :=
    (Mem.load_store_same _ _ _ _).trans (Nat.mod_eq_of_lt (by omega))
  obtain ⟨b, n, rfl, hb, hj, -⟩ := hr.block
  refine ⟨.inr ⟨b, n, hb, hptr, hne, by omega⟩, ?_, ?_⟩
  · apply (Mem.load_store_ne (by omega)).trans
    exact (Mem.load_store_same _ _ _ _).trans (Nat.mod_eq_of_lt (by omega))
  · rw [hptr, ← hbytes]
    refine Mem.bytes_congr fun x hx1 hx2 => ?_
    exact (Mem.store_apply_ne (by omega)).trans (Mem.store_apply_ne (by omega))

theorem kfree_returns (hk : Keeps space memory_size s ps₀ own mine c ps) (hf : memory_size + 4 ≤ fuel) {ptr : Nat}
    (hlt : ptr < 2 ^ 32) : ∃ c', kfree fuel c ptr = some c' := by
  obtain ⟨m, hm⟩ := sfree_returns hk.inv hf hlt
  exact ⟨_, Option.map_eq_some_iff.2 ⟨m, hm, rfl⟩⟩

theorem Buf.block_lt (hk : Keeps space memory_size s ps₀ own mine c ps) {b n : Nat} (hb : (b, n) ∈ usedAt space ps) :
    b + 20 < 2 ^ 32 := by
  obtain ⟨us, vs, hsplit, hspan⟩ := mem_usedAt.1 hb
  have hhigh := hk.inv.holds.high
  have hpos := hk.inv.pos ⟨n, true⟩ (by rw [hsplit]; simp) rfl
  rw [hsplit] at hhigh
  simp only [span_append, span_cons] at hhigh hspan hpos
  omega

/-- The rest of `dentry_rename`, once the copy at `r` is made. -/
theorem set_name_keeps (hk : Keeps space memory_size s ps₀ own mine c ps) (hf : memory_size + 4 ≤ fuel)
    (hd : Buf space ps₀ own mine c ps d k) (h124 : sizeof_dentry ≤ k) (hr : Buf space ps₀ own mine c ps r j)
    (hlen : strlen name + 1 ≤ j) (hne : r ≠ d) (hbytes : Mem.bytes c.sys.mem r (strlen name + 1) = name.bytes ++ [0])
    (hold : OldName space ps₀ mine c.sys.mem ps d) (hfresh : d_name_name c.sys.mem d ≠ r) :
    ∃ c' ps', set_name fuel d r name c = some (0, c') ∧ Keeps space memory_size s ps₀ own mine c' ps' ∧
      Buf space ps₀ own mine c' ps' d k ∧ NamedAt space c'.sys.mem ps' d name := by
  have hd0 : d ≠ 0 := by
    obtain ⟨b, n, rfl, -⟩ := hd.block
    omega
  unfold set_name
  dsimp only
  split
  · rename_i hcond
    -- The copy is given back and the name goes inline.
    obtain ⟨b, n, rfl, hb, hj, hmine⟩ := hr.block
    obtain ⟨c', hfree⟩ := kfree_returns hk hf (Buf.block_lt hk hb)
    obtain ⟨ps', hk', hblocks, -, hmem, -⟩ := keeps_kfree hk hb hmine hfree
    have hd' := hd.freed hblocks hmem hne.symm
    obtain ⟨h1, h2⟩ := name_inlined hk' hd' h124 hcond.2
    exact ⟨_, ps', by rw [hfree]; rfl, h1, hd'.write.write.write, h2⟩
  · split
    · rename_i hext
      -- The old name is a block of its own, which is freed.
      rcases hold with h0 | hinl | ⟨b, n, hb, hptr, hbd, hmine⟩
      · exact absurd h0 hext.1
      · exact absurd hinl hext.2
      rw [hptr] at hfresh ⊢
      obtain ⟨c', hfree⟩ := kfree_returns hk hf (Buf.block_lt hk hb)
      obtain ⟨ps', hk', hblocks, -, hmem, hframe⟩ := keeps_kfree hk hb hmine hfree
      have hd' := hd.freed hblocks hmem hbd.symm
      have hr' := hr.freed hblocks hmem hfresh.symm
      have hbytes' : Mem.bytes c'.sys.mem r (strlen name + 1) = name.bytes ++ [0] := by
        rw [← hbytes]
        obtain ⟨e, l, rfl, he, hl, -⟩ := hr.block
        exact Mem.bytes_congr fun x hx1 hx2 => hframe e l he (by omega) x hx1 (by omega)
      obtain ⟨h1, h2⟩ := name_replaced hk' hd' h124 hr' hlen hne hbytes'
      exact ⟨_, ps', by rw [hfree]; rfl, h1, hd'.write.write, h2⟩
    · obtain ⟨h1, h2⟩ := name_replaced hk hd h124 hr hlen hne hbytes
      exact ⟨_, ps, rfl, h1, hd.write.write, h2⟩

/-! ## Whether the copy fits -/

/-- Next to the string, a block found for it is asked for by the length rounded up. -/
theorem copy_size {n : Nat} (hbeside : strlen name + 1 + (20 + n) ≤ 2 ^ 32) :
    use_memory_size (u32 (strlen name)) = (strlen name + 7) / 8 * 8 := by
  have h1 : u32 (strlen name) = strlen name := u32_of_lt (by omega)
  have h2 : u32 (strlen name + 7) = strlen name + 7 := u32_of_lt (by omega)
  rw [use_memory_size, h1, h2]

/-- The copy has room exactly if the name fits. -/
theorem copy_room {xs ys : List Part} {n : Nat} (hb : BestFit (use_memory_size (u32 (strlen name))) ps xs n ys)
    (hbeside : ∀ p ∈ ps, p.used = false → strlen name + 1 + (20 + p.size) ≤ 2 ^ 32) :
    (NameFits name ps → strlen name + 1 ≤ capacity n (use_memory_size (u32 (strlen name)))) ∧
      (¬NameFits name ps → capacity n (use_memory_size (u32 (strlen name))) = strlen name) := by
  have hn := hbeside ⟨n, false⟩ (by rw [hb.split]; simp) rfl
  have hsize := copy_size hn
  have hfits := hb.fits
  rw [hsize] at hb hfits ⊢
  constructor
  · intro hfit
    by_cases h8 : 8 ∣ strlen name
    · have he : (strlen name + 7) / 8 * 8 = strlen name := by omega
      rw [he] at hb ⊢
      obtain ⟨h1, h2⟩ := hfit h8 xs n ys hb
      simp only [sizeof_memory_block, minimum_size] at h2
      rw [capacity_whole h2]
      exact h1
    · by_cases hsplit : (strlen name + 7) / 8 * 8 + 28 ≤ n
      · rw [capacity_split hsplit]
        omega
      · rw [capacity_whole (by omega)]
        omega
  · intro hfit
    unfold NameFits at hfit
    push Not at hfit
    obtain ⟨h8, us, l, vs, hb', hl⟩ := hfit
    have he : (strlen name + 7) / 8 * 8 = strlen name := by omega
    rw [he] at hb hfits ⊢
    obtain ⟨-, rfl, -⟩ := hb.unique hb'
    simp only [sizeof_memory_block, minimum_size] at hl
    by_cases hsplit : strlen name + 28 ≤ n
    · exact capacity_split hsplit
    · rw [capacity_whole (by omega)]
      omega

/-! ## dentry_rename -/

theorem Given.used {size n : Nat} {c' : Ctx} {xs ys : List Part}
    (g : Given space memory_size s ps₀ own mine c ps size r c' xs n ys) {e : Nat × Nat} (he : e ∈ usedAt space ps) :
    e ∈ usedAt space (xs ++ (allotted n size minimum_size ++ ys)) :=
  (mem_usedAt_allotted e).2 (.inr (g.best.split ▸ he))

/-- No block that was in use is the one given. -/
theorem Given.fresh {size n b l : Nat} {c' : Ctx} {xs ys : List Part}
    (g : Given space memory_size s ps₀ own mine c ps size r c' xs n ys) (hb : (b, l) ∈ usedAt space ps) :
    b + 20 ≠ r := by
  intro h
  have hbs : b = space + span xs := by have := g.result; omega
  rw [hbs, g.best.split] at hb
  exact not_used l hb

theorem Buf.given {size n p l : Nat} {c' : Ctx} {xs ys : List Part}
    (g : Given space memory_size s ps₀ own mine c ps size r c' xs n ys) (hp : Buf space ps₀ own mine c ps p l) :
    Buf space ps₀ own mine c' (xs ++ (allotted n size minimum_size ++ ys)) p l := by
  obtain ⟨b, j, rfl, hb, hj, hm⟩ := hp.block
  refine ⟨⟨b, j, rfl, g.used hb, hj, hm⟩, ?_⟩
  rw [g.blocks]
  exact mem_buffers.2 (.inr hp.buffer)

/-- A name that fits: `dentry_rename` keeps to its buffers. -/
theorem rename_keeps (hk : Keeps space memory_size s ps₀ own mine c ps) (hf : memory_size + 4 ≤ fuel)
    (hd : Buf space ps₀ own mine c ps d k) (h124 : sizeof_dentry ≤ k) (hold : OldName space ps₀ mine c.sys.mem ps d)
    (hbeside : ∀ p ∈ ps, p.used = false → strlen name + 1 + (20 + p.size) ≤ 2 ^ 32) (hfit : NameFits name ps) :
    ∃ ret c' ps', dentry_rename fuel d name c = some (ret, c') ∧ Keeps space memory_size s ps₀ own mine c' ps' ∧
      Buf space ps₀ own mine c' ps' d k ∧ (ret = -ENOMEM ∨ ret = 0 ∧ NamedAt space c'.sys.mem ps' d name) := by
  have hd0 : d ≠ 0 := by
    obtain ⟨b, n, rfl, -⟩ := hd.block
    omega
  obtain ⟨m, r, hs⟩ := smalloc_returns hk.inv hf (u32 (strlen name))
  obtain ⟨c₁, hm⟩ : ∃ c₁, kmalloc fuel c (strlen name) = some (r, c₁) := ⟨_, Option.map_eq_some_iff.2 ⟨_, hs, rfl⟩⟩
  unfold dentry_rename
  rw [if_neg hd0, hm, Option.bind_some]
  rcases keeps_kmalloc hk hm with ⟨rfl, rfl, -⟩ | ⟨xs, n, ys, g⟩
  · exact ⟨_, c₁, ps, rfl, hk, hd, .inl rfl⟩
  have hr0 : r ≠ 0 := by have := g.result; omega
  have hroom := (copy_room g.best hbeside).1 hfit
  have hd₁ := hd.given g
  have hne : r ≠ d := by
    obtain ⟨b, l, rfl, hb, -⟩ := hd.block
    exact (g.fresh hb).symm
  have hapart := g.buf.apart hd₁ hne
  simp only [sizeof_dentry] at h124
  have hname : d_name_name (strcpy c₁ r name).sys.mem d = d_name_name c.sys.mem d := by
    obtain ⟨b, l, rfl, hb, hl, -⟩ := hd.block
    refine Mem.load_congr fun x hx1 hx2 => ?_
    refine (Mem.copy_apply_ne ?_).trans (g.frame x ⟨b, l, hb, by omega, by omega⟩)
    have hlen : (name.bytes ++ [0]).length = strlen name + 1 := List.length_append
    rw [hlen]
    omega
  have hold' : OldName space ps₀ mine (strcpy c₁ r name).sys.mem
      (xs ++ (allotted n (use_memory_size (u32 (strlen name))) minimum_size ++ ys)) d := by
    unfold OldName d_name_inline
    rw [hname]
    exact hold.imp_right (Or.imp_right fun ⟨b, l, hb, hrest⟩ => ⟨b, l, g.used hb, hrest⟩)
  have hfresh : d_name_name (strcpy c₁ r name).sys.mem d ≠ r := by
    rw [hname]
    rcases hold with h0 | hinl | ⟨b, l, hb, hp, -⟩
    · rw [h0]
      exact hr0.symm
    · rw [hinl, d_iname]
      omega
    · rw [hp]
      exact g.fresh hb
  obtain ⟨c', ps', hset, h1, h2, h3⟩ := set_name_keeps (g.keeps.strcpy g.buf (Nat.le_refl r) (by omega)) hf hd₁.write
    h124 g.buf.write hroom hne (bytes_strcpy c₁ r name) hold' hfresh
  exact ⟨0, c', ps', by rw [if_neg hr0]; exact hset, h1, h2, .inr ⟨rfl, h3⟩⟩

theorem kfree_grows {fuel ptr : Nat} {c' : Ctx} (h : kfree fuel c ptr = some c') :
    c'.blocks = c.blocks ∧ c'.writes = c.writes := by
  obtain ⟨m, -, rfl⟩ := Option.map_eq_some_iff.1 h
  exact ⟨rfl, rfl⟩

/-- What was written stays in the list of writes. -/
theorem set_name_grows {ret : Int} {c' : Ctx} (h : set_name fuel d r name c = some (ret, c')) :
    c'.blocks = c.blocks ∧ ∀ w ∈ c.writes, w ∈ c'.writes := by
  unfold set_name at h
  dsimp only at h
  split at h
  · obtain ⟨c₁, hfree, h⟩ := Option.bind_eq_some_iff.1 h
    obtain ⟨hb, hw⟩ := kfree_grows hfree
    obtain ⟨-, rfl⟩ := Prod.mk.inj (Option.some.inj h)
    exact ⟨hb, fun w hw' => by rw [← hw] at hw'; simp [Ctx.set, strcpy, Ctx.write, hw']⟩
  · obtain ⟨c₁, hfree, h⟩ := Option.bind_eq_some_iff.1 h
    obtain ⟨-, rfl⟩ := Prod.mk.inj (Option.some.inj h)
    split at hfree
    · obtain ⟨hb, hw⟩ := kfree_grows hfree
      exact ⟨hb, fun w hw' => by rw [← hw] at hw'; simp [Ctx.set, Ctx.write, hw']⟩
    · obtain rfl := Option.some.inj hfree
      exact ⟨rfl, fun w hw' => by simp [Ctx.set, Ctx.write, hw']⟩

/-- A name that does not fit: the NUL of the copy lands in no buffer. -/
theorem rename_strays (hk : Keeps space memory_size s ps₀ own mine c ps) (hd0 : d ≠ 0) {ret : Int} {c' : Ctx}
    (hbuf : ∀ e ∈ own ++ c.blocks, ∃ b n, e.1 = b + 20 ∧ (b, n) ∈ usedAt space ps ∧ e.2 ≤ n)
    (hbeside : ∀ p ∈ ps, p.used = false → strlen name + 1 + (20 + p.size) ≤ 2 ^ 32) (hfit : ¬NameFits name ps)
    (h : dentry_rename fuel d name c = some (ret, c')) :
    ∃ w ∈ c'.writes, ¬InBuffer (own ++ c'.blocks) w.addr w.len := by
  unfold dentry_rename at h
  rw [if_neg hd0] at h
  obtain ⟨⟨r, c₁⟩, hm, h⟩ := Option.bind_eq_some_iff.1 h
  rcases keeps_kmalloc hk hm with ⟨-, -, hno⟩ | ⟨xs, n, ys, g⟩
  · -- A block fits, so the copy was not refused.
    unfold NameFits at hfit
    push Not at hfit
    obtain ⟨h8, us, n, vs, hb, -⟩ := hfit
    have hmem : ⟨n, false⟩ ∈ ps := by rw [hb.split]; simp
    have hsize := copy_size (hbeside ⟨n, false⟩ hmem rfl)
    have hpos : 0 < strlen name := List.length_pos_of_ne_nil name.nonempty
    have he : (strlen name + 7) / 8 * 8 = strlen name := by omega
    rw [hsize, he] at hno
    rcases hno with h0 | hno
    · omega
    · exact absurd ⟨rfl, hb.fits⟩ (hno _ hmem)
  have hr0 : r ≠ 0 := by have := g.result; omega
  have hcap := (copy_room g.best hbeside).2 hfit
  rw [if_neg hr0] at h
  obtain ⟨hblocks, hgrow⟩ := set_name_grows h
  refine ⟨_, hgrow ⟨c₁.sys.mem, _, r, strlen name + 1⟩ List.mem_cons_self, ?_⟩
  rw [hblocks]
  rintro ⟨e, he, hlo, hhi⟩
  have he : e ∈ own ++ (r, strlen name) :: c.blocks := by rw [← hcap, ← g.blocks]; exact he
  dsimp only at hlo hhi
  rcases mem_buffers.1 he with rfl | he
  · dsimp only at hhi
    omega
  · obtain ⟨b, l, hbe, hb, hl⟩ := hbuf e he
    have hused : (space + span xs, strlen name) ∈ usedAt space (xs ++ (allotted n _ minimum_size ++ ys)) :=
      (mem_usedAt_allotted _).2 (.inl (by rw [hcap]))
    have hne := g.fresh hb
    have hres := g.result
    have := used_apart (g.used hb) hused (by omega)
    omega

/-! ## __d_alloc -/

/-- The name survives a write to the other fields of the dentry. -/
theorem NamedAt.set {ps' : List Part} (hd : Buf space ps₀ own mine c ps' d k) (h124 : sizeof_dentry ≤ k)
    (hn : NamedAt space c.sys.mem ps' d name) {addr v : Nat} (hlo : d ≤ addr) (hhi : addr + 4 ≤ d + sizeof_dentry)
    (hout : addr + 4 ≤ d + 20 ∨ d + 72 ≤ addr) : NamedAt space (c.set addr v).sys.mem ps' d name := by
  simp only [sizeof_dentry] at h124 hhi
  have hptr : d_name_name (c.set addr v).sys.mem d = d_name_name c.sys.mem d := Mem.load_store_ne (by omega)
  refine ⟨?_, (Mem.load_store_ne (by omega)).trans hn.len, ?_⟩
  · unfold d_name_inline
    rw [hptr]
    exact hn.ptr
  · rw [hptr, ← hn.bytes]
    refine Mem.bytes_congr fun x hx1 hx2 => Mem.store_apply_ne ?_
    rcases hn.ptr with ⟨hp, hl⟩ | ⟨b, n, hb, hp, hne, hl⟩
    · unfold d_name_inline at hp
      simp only [hp, d_iname, DNAME_INLINE_LEN] at hx1 hx2 hl
      omega
    · obtain ⟨e, l, rfl, he, hkl, -⟩ := hd.block
      have := used_apart hb he (by omega)
      omega

theorem init_dentry_keeps (hk : Keeps space memory_size s ps₀ own mine c ps) (hd : Buf space ps₀ own mine c ps d k)
    (h124 : sizeof_dentry ≤ k) (hn : NamedAt space c.sys.mem ps d name) (sb : Nat) :
    Keeps space memory_size s ps₀ own mine (init_dentry d sb c) ps ∧
      NamedAt space (init_dentry d sb c).sys.mem ps d name := by
  have h124' := h124
  simp only [sizeof_dentry] at h124'
  have step : ∀ {c : Ctx} (addr v : Nat), d ≤ addr → addr + 4 ≤ d + sizeof_dentry →
      (addr + 4 ≤ d + 20 ∨ d + 72 ≤ addr) →
      Keeps space memory_size s ps₀ own mine c ps ∧ Buf space ps₀ own mine c ps d k ∧
        NamedAt space c.sys.mem ps d name →
      Keeps space memory_size s ps₀ own mine (c.set addr v) ps ∧ Buf space ps₀ own mine (c.set addr v) ps d k ∧
        NamedAt space (c.set addr v).sys.mem ps d name := fun addr v hlo hhi hout ⟨h1, h2, h3⟩ =>
    ⟨h1.set h2 hlo (by omega), h2.write, h3.set h2 h124 hlo hhi hout⟩
  simp only [sizeof_dentry] at step
  have h := step (d + 80) sb (by omega) (by omega) (by omega) <| step (d + 108) 0 (by omega) (by omega) (by omega) <|
    step (d + 12) 0 (by omega) (by omega) (by omega) <| step (d + 8) 0 (by omega) (by omega) (by omega) <|
    step d 0 (by omega) (by omega) (by omega) ⟨hk, hd, hn⟩
  exact ⟨h.1, h.2.2⟩

/-- Splitting a free block leaves no larger ones. -/
theorem beside_allotted {xs ys : List Part} {n l : Nat} (size : Nat)
    (h : ∀ p ∈ xs ++ ⟨n, false⟩ :: ys, p.used = false → l + 1 + (20 + p.size) ≤ 2 ^ 32) :
    ∀ p ∈ xs ++ (allotted n size minimum_size ++ ys), p.used = false → l + 1 + (20 + p.size) ≤ 2 ^ 32 := by
  intro p hp hfree
  rcases List.mem_append.1 hp with hp | hp
  · exact h p (by simp [hp]) hfree
  rcases List.mem_append.1 hp with hp | hp
  · have hn := h ⟨n, false⟩ (by simp) rfl
    unfold allotted at hp
    split at hp
    · simp only [List.mem_cons, List.not_mem_nil, or_false] at hp
      rcases hp with rfl | rfl
      · simp at hfree
      · dsimp only at hn ⊢
        omega
    · obtain rfl := List.mem_singleton.1 hp
      simp at hfree
  · exact h p (by simp [hp]) hfree

theorem dentry_size : use_memory_size (u32 sizeof_dentry) = use_memory_size sizeof_dentry := by decide

theorem dentry_room {n : Nat} (hn : use_memory_size sizeof_dentry ≤ n) :
    sizeof_dentry ≤ capacity n (use_memory_size sizeof_dentry) := by
  have h128 : use_memory_size sizeof_dentry = 128 := by decide
  rw [h128] at hn ⊢
  simp only [sizeof_dentry]
  by_cases hsplit : 128 + 28 ≤ n
  · rw [capacity_split hsplit]
    omega
  · rw [capacity_whole (by omega)]
    omega

theorem d_alloc_keeps (hk : Keeps space memory_size s ps₀ own mine c ps) (hf : memory_size + 4 ≤ fuel) (sb : Nat)
    (hbeside : ∀ p ∈ ps, p.used = false → strlen name + 1 + (20 + p.size) ≤ 2 ^ 32)
    (hfit : (Call.__d_alloc sb name).Fits ps) :
    ∃ ret c' ps', __d_alloc fuel sb name c = some (ret, c') ∧ Keeps space memory_size s ps₀ own mine c' ps' ∧
      (IS_ERR ret ∨ ∃ d k : Nat, ret = d ∧ Buf space ps₀ own mine c' ps' d k ∧ sizeof_dentry ≤ k ∧
        NamedAt space c'.sys.mem ps' d name) := by
  obtain ⟨m, r, hs⟩ := smalloc_returns hk.inv hf (u32 sizeof_dentry)
  obtain ⟨c₁, hm⟩ : ∃ c₁, kmalloc fuel c sizeof_dentry = some (r, c₁) := ⟨_, Option.map_eq_some_iff.2 ⟨_, hs, rfl⟩⟩
  unfold __d_alloc
  rw [hm, Option.bind_some]
  have hg := keeps_kmalloc hk hm
  rw [dentry_size] at hg
  rcases hg with ⟨rfl, rfl, -⟩ | ⟨xs, n, ys, g⟩
  · exact ⟨_, c₁, ps, rfl, hk, .inl (by decide)⟩
  have hr0 : r ≠ 0 := by have := g.result; omega
  have h124 := dentry_room g.best.fits
  have hk₂ : Keeps space memory_size s ps₀ own mine (memset c₁ r 0 sizeof_dentry) _ :=
    g.keeps.write g.buf (Nat.le_refl r) (by omega) fun x hx => Mem.fill_apply_ne hx
  have hold : OldName space ps₀ mine (memset c₁ r 0 sizeof_dentry).sys.mem
      (xs ++ (allotted n (use_memory_size sizeof_dentry) minimum_size ++ ys)) r :=
    .inl (Mem.load_zero fun x hx1 hx2 => Mem.fill_apply (by omega) (by simp only [sizeof_dentry]; omega))
  have hbeside' := beside_allotted (use_memory_size sizeof_dentry) (g.best.split ▸ hbeside)
  obtain ⟨ret, c', ps', hren, hk', hd', hret⟩ :=
    rename_keeps hk₂ hf g.buf.write h124 hold hbeside' (hfit xs n ys g.best)
  simp only [if_neg hr0, hren, Option.bind_some]
  rcases hret with rfl | ⟨rfl, hn⟩
  · obtain ⟨b, l, rfl, hb, -, hmine⟩ := hd'.block
    obtain ⟨c'', hfree⟩ := kfree_returns hk' hf (Buf.block_lt hk' hb)
    obtain ⟨ps'', hk'', -⟩ := keeps_kfree hk' hb hmine hfree
    exact ⟨_, c'', ps'', by rw [if_pos (by decide), hfree]; rfl, hk'', .inl (by decide)⟩
  · obtain ⟨h1, h2⟩ := init_dentry_keeps hk' hd' h124 hn sb
    exact ⟨_, _, ps', by rw [if_neg (by decide)], h1, .inr ⟨r, _, rfl, ⟨hd'.block, hd'.buffer⟩, h124, h2⟩⟩

theorem d_alloc_strays (hk : Keeps space memory_size s ps₀ own mine c ps) {sb : Nat} {ret : Int} {c' : Ctx}
    (hbuf : ∀ e ∈ own ++ c.blocks, ∃ b n, e.1 = b + 20 ∧ (b, n) ∈ usedAt space ps ∧ e.2 ≤ n)
    (hbeside : ∀ p ∈ ps, p.used = false → strlen name + 1 + (20 + p.size) ≤ 2 ^ 32)
    (hfit : ¬(Call.__d_alloc sb name).Fits ps) (h : __d_alloc fuel sb name c = some (ret, c')) :
    ∃ w ∈ c'.writes, ¬InBuffer (own ++ c'.blocks) w.addr w.len := by
  simp only [Call.Fits] at hfit
  push Not at hfit
  obtain ⟨xs, n, ys, hb, hfit⟩ := hfit
  unfold __d_alloc at h
  obtain ⟨⟨r, c₁⟩, hm, h⟩ := Option.bind_eq_some_iff.1 h
  have hg := keeps_kmalloc hk hm
  rw [dentry_size] at hg
  rcases hg with ⟨-, -, hno | hno⟩ | ⟨us, l, vs, g⟩
  · exact absurd hno (by decide)
  · exact absurd ⟨rfl, hb.fits⟩ (hno ⟨n, false⟩ (by rw [hb.split]; simp))
  obtain ⟨rfl, rfl, rfl⟩ := hb.unique g.best
  have hr0 : r ≠ 0 := by have := g.result; omega
  have h124 := dentry_room g.best.fits
  have hk₂ : Keeps space memory_size s ps₀ own mine (memset c₁ r 0 sizeof_dentry) _ :=
    g.keeps.write g.buf (Nat.le_refl r) (by omega) fun x hx => Mem.fill_apply_ne hx
  have hbeside' := beside_allotted (use_memory_size sizeof_dentry) (g.best.split ▸ hbeside)
  simp only [if_neg hr0] at h
  obtain ⟨⟨ret', c₂⟩, hren, h⟩ := Option.bind_eq_some_iff.1 h
  have hbuf' : ∀ e ∈ own ++ (memset c₁ r 0 sizeof_dentry).blocks, ∃ b j, e.1 = b + 20 ∧
      (b, j) ∈ usedAt space (xs ++ (allotted n (use_memory_size sizeof_dentry) minimum_size ++ ys)) ∧ e.2 ≤ j := by
    intro e he
    have he : e ∈ own ++ (r, capacity n (use_memory_size sizeof_dentry)) :: c.blocks := by rw [← g.blocks]; exact he
    rcases mem_buffers.1 he with rfl | he
    · obtain ⟨b, j, hbr, hbj, hj, -⟩ := g.buf.block
      exact ⟨b, j, hbr, hbj, hj⟩
    · obtain ⟨b, j, hbr, hbj, hj⟩ := hbuf e he
      exact ⟨b, j, hbr, g.used hbj, hj⟩
  obtain ⟨w, hw, hstray⟩ := rename_strays hk₂ hr0 hbuf' hbeside' hfit hren
  split at h
  · obtain ⟨c₃, hfree, h⟩ := Option.bind_eq_some_iff.1 h
    obtain ⟨hblocks, hwrites⟩ := kfree_grows hfree
    obtain ⟨-, rfl⟩ := Prod.mk.inj (Option.some.inj h)
    exact ⟨w, by rw [hwrites]; exact hw, by rw [hblocks]; exact hstray⟩
  · obtain ⟨-, rfl⟩ := Prod.mk.inj (Option.some.inj h)
    exact ⟨w, by simp [init_dentry, Ctx.set, Ctx.write, hw], hstray⟩

end Rename

end Calls

end McLinOS.Dcache
