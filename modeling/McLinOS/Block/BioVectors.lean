import Mathlib.Data.List.Induction
import McLinOS.Block.Bio
import McLinOS.Heap.HapersTheorems
/-!
# The vectors of a bio

`bio_alloc_bioset`, `bio_add_page` and `bio_put` of `block/bio.c` on the heaps of
`haper.c`. The vectors of a bio follow it in its own block or have one to themselves.
-/
open CLib

set_option linter.style.nameCheck false

namespace McLinOS.BioVectors

open Bio (bio_vec PAGE_SIZE)
open Hapers (State Config asked)

def BIO_INLINE_VECS : UInt16 := 4
def ENOMEM : Int := 12
def sizeof_bio_vec : Nat := 12

/-- What the compiler makes of `struct bio`: its size, and where `bi_inline_vecs` is. -/
structure Layout where
  sizeof_bio : Nat
  bi_inline_vecs : Nat
  inside : bi_inline_vecs ≤ sizeof_bio
  pos : 0 < sizeof_bio
  small : sizeof_bio ≤ 2 ^ 16

/-- The struct at `addr`, with `slots` the vectors at `bi_io_vec`. -/
structure bio where
  addr : Nat
  bi_io_vec : Nat
  bi_max_vecs : UInt16
  bi_vcnt : UInt16
  bi_size : UInt32
  bi_bdev : Nat
  bi_opf : UInt32
  __bi_cnt : Int
  slots : Nat → bio_vec

/-! ## On the heaps -/

section Heaps
variable (fuel : Nat) (L : Layout) (cfg : Config)

def kmalloc (S : State) (size flags : Nat) : Option (State × Nat) :=
  (Hapers.kmalloc fuel cfg S.hapers S.mem size flags).map fun r => (S.allocated r.1 r.2 (asked flags (u32 size)), r.2)

def kmalloc_array (S : State) (n size flags : Nat) : Option (State × Nat) := kmalloc fuel cfg S (u32 (n * size)) flags

def kfree (S : State) (ptr : Nat) : Option State :=
  (Hapers.__sfree__ fuel S.hapers S.mem ptr).map fun m => S.freed m ptr

/-- `none` is `NULL`. Vectors of their own hold what was in their memory. -/
def bio_alloc_bioset (old : Nat → bio_vec) (S : State) (bdev : Nat) (nr_iovecs : UInt16) (opf : UInt32)
    (gfp_mask : Nat) : Option (State × Option bio) := do
  let use_inline_vecs := nr_iovecs ≤ BIO_INLINE_VECS
  let bio_size := if use_inline_vecs then L.sizeof_bio + sizeof_bio_vec * nr_iovecs.toNat else L.sizeof_bio
  let (S, addr) ← kmalloc fuel cfg S bio_size gfp_mask
  if addr = 0 then some (S, none)
  else
    let b : bio :=
      { addr, bi_io_vec := addr + L.bi_inline_vecs, bi_max_vecs := nr_iovecs, bi_vcnt := 0, bi_size := 0
        bi_bdev := bdev, bi_opf := opf, __bi_cnt := 1, slots := fun _ => ⟨0, 0, 0⟩ }
    if use_inline_vecs then some (S, some b)
    else
      let (S, bi_io_vec) ← kmalloc_array fuel cfg S nr_iovecs.toNat sizeof_bio_vec gfp_mask
      if bi_io_vec = 0 then (kfree fuel S addr).map fun S => (S, none)
      else some (S, some { b with bi_io_vec, slots := old })

def bio_put (S : State) (b : bio) : Option State := do
  if b.__bi_cnt - 1 = 0 then
    let S ← if b.bi_io_vec ≠ b.addr + L.bi_inline_vecs then kfree fuel S b.bi_io_vec else some S
    kfree fuel S b.addr
  else some S

end Heaps

/-! ## Adding pages -/

/-- The arguments of `bio_add_page` behind the bio. -/
structure Page where
  page : Option Nat
  len : UInt32
  offset : UInt32

def __bio_add_page (b : bio) (p : Page) : bio × Int :=
  match p.page with
  | none => (b, -ENOMEM)
  | some page =>
    if p.offset ≥ PAGE_SIZE then (b, -ENOMEM)
    else if b.bi_vcnt ≥ b.bi_max_vecs then (b, -ENOMEM)
    else if b.bi_size + p.len > 256 * PAGE_SIZE then (b, -ENOMEM)
    else
      let bv : bio_vec := { bv_page := page, bv_len := p.len, bv_offset := p.offset }
      ({ b with
          slots := Function.update b.slots b.bi_vcnt.toNat bv
          bi_size := b.bi_size + p.len
          bi_vcnt := b.bi_vcnt + 1 }, 0)

def bio_add_page (b : bio) (p : Page) : bio × Int := __bio_add_page b p

/-- The vectors that are in use. -/
def bio.segments (b : bio) : List bio_vec := (List.range b.bi_vcnt.toNat).map b.slots

/-- One call more, with the vectors that were accepted so far. -/
def add_next (r : bio × List bio_vec) (p : Page) : bio × List bio_vec :=
  let r' := bio_add_page r.1 p
  (r'.1, if r'.2 = 0 then r.2 ++ [⟨p.page.getD 0, p.len, p.offset⟩] else r.2)

def add_all (b : bio) (pages : List Page) : bio × List bio_vec := pages.foldl add_next (b, [])

/-! ## What is asked of it -/

/-- The blocks of a bio with `nr` vectors. -/
structure Owns (L : Layout) (S : State) (b : bio) (nr : UInt16) : Prop where
  own : ∃ e ∈ S.live, e.ptr = b.addr ∧ L.sizeof_bio ≤ e.size
  inline : nr ≤ BIO_INLINE_VECS → b.bi_io_vec = b.addr + L.bi_inline_vecs
  external : ¬nr ≤ BIO_INLINE_VECS → ∃ e ∈ S.live, e.ptr = b.bi_io_vec ∧ b.bi_io_vec ≠ b.addr
  array : ∃ e ∈ S.live, e.ptr ≤ b.bi_io_vec ∧ b.bi_io_vec + sizeof_bio_vec * nr.toNat ≤ e.ptr + e.size

/-- The last `bio_put` gives back the bio, and the vectors if they have a block. -/
def Released (L : Layout) (cfg : Config) (b : bio) (nr : UInt16) : Prop :=
  ∀ fuel S, (∀ i, cfg.memory_size i + 4 ≤ fuel) → Reachable Hapers.Boot (Hapers.Step cfg) S → Owns L S b nr →
    ∃ S', bio_put fuel L S b = some S' ∧
      S'.live = S.live.filter fun e => e.ptr ≠ b.addr ∧ (nr ≤ BIO_INLINE_VECS ∨ e.ptr ≠ b.bi_io_vec)

/-- After the calls so far: every accepted vector is at its place in the array, their
lengths add up to the size, and the blocks can be given back. -/
structure Constructed (L : Layout) (cfg : Config) (S : State) (b : bio) (nr : UInt16) (accepted : List bio_vec) : Prop where
  count : b.bi_vcnt ≤ nr
  stored : b.segments = accepted
  owns : Owns L S b nr
  size : b.bi_size.toNat = (accepted.map fun bv => bv.bv_len.toNat).sum
  limit : b.bi_size ≤ 256 * PAGE_SIZE
  refused : ∀ p, (bio_add_page b p).2 ≠ 0 → (bio_add_page b p).1 = b
  released : Released L cfg b nr

/-- The call gets to the check of the size. -/
def Passes (b : bio) (p : Page) : Prop := p.page.isSome ∧ p.offset < PAGE_SIZE ∧ b.bi_vcnt < b.bi_max_vecs

/-- No size that is checked wraps. -/
def NoWrap (b : bio) (pages : List Page) : Prop :=
  ∀ pre p, pre ++ [p] <+: pages → Passes (add_all b pre).1 p → (add_all b pre).1.bi_size.toNat + p.len.toNat < 2 ^ 32

/-! ## One call -/

section Add
variable {b : bio} {p : Page}

/-- The bio with one vector more. -/
def bio.with_vector (b : bio) (p : Page) : bio :=
  { b with
    slots := Function.update b.slots b.bi_vcnt.toNat ⟨p.page.getD 0, p.len, p.offset⟩
    bi_size := b.bi_size + p.len
    bi_vcnt := b.bi_vcnt + 1 }

theorem bio_add_page_cases (b : bio) (p : Page) :
    (bio_add_page b p = (b.with_vector p, 0) ∧ Passes b p ∧ b.bi_size + p.len ≤ 256 * PAGE_SIZE) ∨
      (bio_add_page b p = (b, -ENOMEM) ∧ ¬(Passes b p ∧ b.bi_size + p.len ≤ 256 * PAGE_SIZE)) := by
  obtain ⟨page, len, offset⟩ := p
  unfold bio_add_page __bio_add_page Passes
  cases page with
  | none => exact .inr ⟨rfl, fun h => by simp at h⟩
  | some page =>
    dsimp only
    by_cases hoff : offset ≥ PAGE_SIZE
    · exact .inr ⟨if_pos hoff, fun h => UInt32.not_lt.2 hoff h.1.2.1⟩
    by_cases hvecs : b.bi_vcnt ≥ b.bi_max_vecs
    · exact .inr ⟨by rw [if_neg hoff, if_pos hvecs], fun h => UInt16.not_lt.2 hvecs h.1.2.2⟩
    by_cases hsize : b.bi_size + len > 256 * PAGE_SIZE
    · exact .inr ⟨by rw [if_neg hoff, if_neg hvecs, if_pos hsize], fun h => UInt32.not_lt.2 h.2 hsize⟩
    · refine .inl ⟨by rw [if_neg hoff, if_neg hvecs, if_neg hsize]; rfl, ⟨rfl, ?_, ?_⟩, UInt32.not_lt.1 hsize⟩
      · exact UInt32.not_le.1 hoff
      · exact UInt16.not_le.1 hvecs

theorem with_vector_count (h : Passes b p) : (b.with_vector p).bi_vcnt.toNat = b.bi_vcnt.toNat + 1 := by
  have hlt : b.bi_vcnt.toNat < b.bi_max_vecs.toNat := UInt16.lt_iff_toNat_lt.1 h.2.2
  have hmax := b.bi_max_vecs.toNat_lt
  have hone : (b.with_vector p).bi_vcnt.toNat = (b.bi_vcnt.toNat + 1) % 2 ^ 16 := UInt16.toNat_add _ _
  rw [hone, Nat.mod_eq_of_lt (by omega)]

/-- The new vector is behind the ones in use. -/
theorem with_vector_segments (h : Passes b p) :
    (b.with_vector p).segments = b.segments ++ [⟨p.page.getD 0, p.len, p.offset⟩] := by
  have hslots : (b.with_vector p).slots = Function.update b.slots b.bi_vcnt.toNat ⟨p.page.getD 0, p.len, p.offset⟩ := rfl
  rw [bio.segments, with_vector_count h, List.range_succ, List.map_append, List.map_singleton, hslots, Function.update_self]
  refine congrArg (· ++ _) (List.map_congr_left fun i hi => ?_)
  rw [Function.update_of_ne (Nat.ne_of_lt (List.mem_range.1 hi))]

/-- What the requests are made from. -/
def bio.view (b : bio) (write : Bool) (sector : UInt32) : Bio.bio :=
  { write, bi_sector := sector, bi_size := b.bi_size, bi_max_vecs := b.bi_max_vecs, bi_io_vec := b.segments }

theorem add_page_view (write : Bool) (sector : UInt32) : Bio.__bio_add_page (b.view write sector) p.page p.len p.offset =
    if (bio_add_page b p).2 = 0 then some ((bio_add_page b p).1.view write sector) else none := by
  have hlen : (b.view write sector).bi_io_vec.length = b.bi_vcnt.toNat := by simp [bio.view, bio.segments]
  rcases bio_add_page_cases b p with ⟨hadd, hpass, hsize⟩ | ⟨hadd, hno⟩
  · rw [hadd, if_pos rfl]
    obtain ⟨page, hpage⟩ := Option.isSome_iff_exists.1 hpass.1
    have hvecs : ¬(b.view write sector).bi_io_vec.length ≥ (b.view write sector).bi_max_vecs.toNat := by
      rw [hlen]
      exact Nat.not_le.2 (UInt16.lt_iff_toNat_lt.1 hpass.2.2)
    have hsize' : ¬(b.view write sector).bi_size + p.len > 256 * PAGE_SIZE := UInt32.not_lt.2 hsize
    unfold Bio.__bio_add_page
    rw [hpage]
    dsimp only
    rw [if_neg (UInt32.not_le.2 hpass.2.1), if_neg hvecs, if_neg hsize', bio.view, bio.view, with_vector_segments hpass, hpage]
    rfl
  · have herr : ¬(b, -ENOMEM).2 = 0 := show ¬-ENOMEM = 0 by decide
    rw [hadd, if_neg herr]
    unfold Bio.__bio_add_page
    split
    · rfl
    rename_i page hpage
    split
    · rfl
    split
    · rfl
    split
    · rfl
    · rename_i hoff hvecs hsize
      rw [hlen] at hvecs
      refine absurd ⟨⟨by rw [hpage]; rfl, UInt32.not_le.1 hoff, UInt16.lt_iff_toNat_lt.2 (Nat.not_le.1 hvecs)⟩, ?_⟩ hno
      exact UInt32.not_lt.1 hsize

/-- Without a wrap the size grows by the length, with one it gets smaller. -/
theorem with_vector_size (hlimit : b.bi_size ≤ 256 * PAGE_SIZE) :
    (b.with_vector p).bi_size.toNat = b.bi_size.toNat + p.len.toNat ∧ b.bi_size.toNat + p.len.toNat < 2 ^ 32 ∨
      (b.with_vector p).bi_size ≤ 256 * PAGE_SIZE ∧ (b.with_vector p).bi_size.toNat ≠ b.bi_size.toNat + p.len.toNat ∧
        ¬b.bi_size.toNat + p.len.toNat < 2 ^ 32 := by
  have hsum : (b.with_vector p).bi_size.toNat = (b.bi_size.toNat + p.len.toNat) % 2 ^ 32 := UInt32.toNat_add _ _
  have hmax : (256 * PAGE_SIZE).toNat = 2 ^ 20 := by decide
  have hlen := p.len.toNat_lt
  rw [UInt32.le_iff_toNat_le, hmax] at hlimit
  rw [UInt32.le_iff_toNat_le, hmax, hsum]
  omega

end Add

/-! ## All calls -/

section Run
variable {b : bio} {pages : List Page} {p : Page} {nr : UInt16}

theorem add_all_snoc (b : bio) (pages : List Page) (p : Page) :
    add_all b (pages ++ [p]) = add_next (add_all b pages) p := by
  rw [add_all, List.foldl_append]
  rfl

/-- What a new bio has. -/
structure New (b : bio) (nr : UInt16) : Prop where
  max : b.bi_max_vecs = nr
  count : b.bi_vcnt = 0
  size : b.bi_size = 0
  cnt : b.__bi_cnt = 1

/-- What all calls keep, whatever the lengths. -/
structure Kept (b₀ b : bio) (nr : UInt16) (accepted : List bio_vec) : Prop where
  max : b.bi_max_vecs = nr
  count : b.bi_vcnt ≤ nr
  stored : b.segments = accepted
  limit : b.bi_size ≤ 256 * PAGE_SIZE
  addr : b.addr = b₀.addr
  io_vec : b.bi_io_vec = b₀.bi_io_vec
  cnt : b.__bi_cnt = 1

theorem add_next_kept {b₀ : bio} {accepted : List bio_vec} (h : Kept b₀ b nr accepted) (p : Page) :
    Kept b₀ (add_next (b, accepted) p).1 nr (add_next (b, accepted) p).2 := by
  obtain ⟨hmax, hcount, hstored, hlimit, haddr, hvec, hcnt⟩ := h
  unfold add_next
  rcases bio_add_page_cases b p with ⟨hadd, hpass, hsize⟩ | ⟨hadd, -⟩
  · rw [hadd]
    dsimp only
    rw [if_pos rfl]
    refine ⟨hmax, ?_, by rw [with_vector_segments hpass, hstored], hsize, haddr, hvec, hcnt⟩
    have hlt : b.bi_vcnt.toNat < b.bi_max_vecs.toNat := UInt16.lt_iff_toNat_lt.1 hpass.2.2
    rw [hmax] at hlt
    rw [UInt16.le_iff_toNat_le, with_vector_count hpass]
    exact hlt
  · rw [hadd]
    dsimp only
    rw [if_neg (show ¬-ENOMEM = 0 by decide)]
    exact ⟨hmax, hcount, hstored, hlimit, haddr, hvec, hcnt⟩

theorem add_all_kept (h : New b nr) (pages : List Page) : Kept b (add_all b pages).1 nr (add_all b pages).2 := by
  induction pages using List.reverseRecOn with
  | nil =>
    have hlimit : b.bi_size ≤ 256 * PAGE_SIZE := h.size ▸ by decide
    refine ⟨h.max, ?_, ?_, hlimit, rfl, rfl, h.cnt⟩
    · exact h.count ▸ UInt16.zero_le
    · rw [bio.segments, show (add_all b []).1 = b from rfl, h.count]
      rfl
  | append_singleton pages p ih =>
    rw [add_all_snoc]
    exact add_next_kept ih p

/-- The lengths add up to the size. -/
def Adds (r : bio × List bio_vec) : Prop := r.1.bi_size.toNat = (r.2.map fun bv => bv.bv_len.toNat).sum

/-- One call keeps the sum unless the size that it checks wraps. -/
theorem add_next_adds {b₀ : bio} {accepted : List bio_vec} (h : Kept b₀ b nr accepted) (hadds : Adds (b, accepted)) (p : Page) :
    Adds (add_next (b, accepted) p) ↔ (Passes b p → b.bi_size.toNat + p.len.toNat < 2 ^ 32) := by
  unfold Adds at *
  unfold add_next
  rcases bio_add_page_cases b p with ⟨hadd, hpass, hsize⟩ | ⟨hadd, hno⟩
  · rw [hadd]
    dsimp only at hadds ⊢
    rw [if_pos rfl, List.map_append, List.sum_append, List.map_singleton, List.sum_singleton, ← hadds]
    rcases with_vector_size (p := p) h.limit with ⟨hgrow, hlt⟩ | ⟨-, hne, hwrap⟩
    · exact iff_of_true hgrow fun _ => hlt
    · exact iff_of_false hne fun hlt => hwrap (hlt hpass)
  · rw [hadd]
    dsimp only at hadds ⊢
    rw [if_neg (show ¬-ENOMEM = 0 by decide)]
    refine iff_of_true hadds fun hpass => ?_
    -- A size that wraps is not too large.
    rcases with_vector_size (p := p) h.limit with ⟨-, hlt⟩ | ⟨hsmall, -, -⟩
    · exact hlt
    · exact absurd ⟨hpass, hsmall⟩ hno

theorem adds_iff (h : New b nr) (pages : List Page) : (∀ pre, pre <+: pages → Adds (add_all b pre)) ↔ NoWrap b pages := by
  have hstep : ∀ pre p, Adds (add_all b pre) → (Adds (add_all b (pre ++ [p])) ↔
      (Passes (add_all b pre).1 p → (add_all b pre).1.bi_size.toNat + p.len.toNat < 2 ^ 32)) := fun pre p hadds => by
    rw [add_all_snoc]
    exact add_next_adds (add_all_kept h pre) hadds p
  constructor
  · intro hall pre p hpre
    exact (hstep pre p (hall pre ((List.prefix_append pre [p]).trans hpre))).1 (hall _ hpre)
  · intro hwrap pre hpre
    induction pre using List.reverseRecOn with
    | nil =>
      show b.bi_size.toNat = 0
      rw [h.size]
      rfl
    | append_singleton pre p ih =>
      exact (hstep pre p (ih ((List.prefix_append pre [p]).trans hpre))).2 (hwrap pre p hpre)

end Run

/-! ## The blocks -/

section Blocks
variable {fuel : Nat} {L : Layout} {cfg : Config} {S S' : State} {b : bio} {nr : UInt16}

theorem kfree_live (hfuel : ∀ i, cfg.memory_size i + 4 ≤ fuel) (h : Hapers.Inv cfg S) {e : Heap.Alloc} (he : e ∈ S.live) :
    ∃ S', kfree fuel S e.ptr = some S' ∧ Hapers.Inv cfg S' ∧ S'.live = S.live.filter fun f => f.ptr ≠ e.ptr := by
  obtain ⟨m, hm, hinv, -⟩ := Hapers.sfree_cases h hfuel (h.live_lt he)
  exact ⟨S.freed m e.ptr, by rw [kfree, hm, Option.map_some], hinv, rfl⟩

theorem released (hcnt : b.__bi_cnt = 1) : Released L cfg b nr := by
  intro fuel S hfuel hS howns
  have hinv := Hapers.reachable_inv hS
  obtain ⟨e, he, haddr, hsize⟩ := howns.own
  have hzero : b.__bi_cnt - 1 = 0 := by rw [hcnt]; rfl
  rw [bio_put, if_pos hzero]
  by_cases hinline : nr ≤ BIO_INLINE_VECS
  · have hvec : ¬b.bi_io_vec ≠ b.addr + L.bi_inline_vecs := not_not.2 (howns.inline hinline)
    obtain ⟨S', hfree, -, hlive⟩ := kfree_live hfuel hinv he
    rw [haddr] at hfree hlive
    refine ⟨S', by rw [if_neg hvec]; exact hfree, ?_⟩
    rw [hlive]
    exact List.filter_congr fun f _ => by simp [hinline]
  · obtain ⟨f, hf, hptr, hne⟩ := howns.external hinline
    -- The header of the block keeps the vectors away from the end of the bio.
    have hvec : b.bi_io_vec ≠ b.addr + L.bi_inline_vecs := by
      have hapart := hinv.live_apart he hf (by rw [haddr, hptr]; exact hne.symm)
      have := L.inside
      rw [haddr, hptr, Heap.sizeof_memory_block] at hapart
      omega
    obtain ⟨S₁, hfree, hinv₁, hlive⟩ := kfree_live hfuel hinv hf
    have he₁ : e ∈ S₁.live := by
      rw [hlive]
      exact List.mem_filter.2 ⟨he, by simpa [haddr, hptr] using hne.symm⟩
    obtain ⟨S', hfree', -, hlive'⟩ := kfree_live hfuel hinv₁ he₁
    rw [hptr] at hfree hlive
    rw [haddr] at hfree' hlive'
    refine ⟨S', by rw [if_pos hvec, hfree]; exact hfree', ?_⟩
    rw [hlive', hlive, List.filter_filter]
    exact List.filter_congr fun f _ => by simp [hinline]

theorem kmalloc_block {size flags addr : Nat} (hfuel : ∀ i, cfg.memory_size i + 4 ≤ fuel)
    (hS : Reachable Hapers.Boot (Hapers.Step cfg) S) (hsz : size < 2 ^ 32)
    (hcall : kmalloc fuel cfg S size flags = some (S', addr)) (hne : addr ≠ 0) :
    Reachable Hapers.Boot (Hapers.Step cfg) S' ∧ ∃ n, size ≤ n ∧ S'.live = ⟨addr, n⟩ :: S.live := by
  obtain ⟨r, hr, heq⟩ := Option.map_eq_some_iff.1 hcall
  obtain ⟨rfl, rfl⟩ := Prod.mk.inj heq
  rw [Hapers.kmalloc, u32_of_lt hsz] at hr
  rw [u32_of_lt hsz]
  refine ⟨hS.next (.smalloc fuel size flags hsz hr), ?_⟩
  obtain ⟨m, r', hm, ⟨hzero, -⟩ | ⟨-, -, hle, -⟩⟩ := Hapers.smalloc_cases (Hapers.reachable_inv hS) hfuel hsz flags
  · obtain rfl := Option.some.inj (hr.symm.trans hm)
    exact absurd hzero hne
  · exact ⟨_, hle, if_neg hne⟩

theorem bio_alloc_spec {old : Nat → bio_vec} {bdev gfp_mask : Nat} {opf : UInt32}
    (hfuel : ∀ i, cfg.memory_size i + 4 ≤ fuel) (hS : Reachable Hapers.Boot (Hapers.Step cfg) S)
    (halloc : bio_alloc_bioset fuel L cfg old S bdev nr opf gfp_mask = some (S', some b)) :
    Reachable Hapers.Boot (Hapers.Step cfg) S' ∧ New b nr ∧ Owns L S' b nr := by
  have hnr := nr.toNat_lt
  have hsmall := L.small
  have hinside := L.inside
  unfold bio_alloc_bioset at halloc
  obtain ⟨⟨S₁, addr⟩, hcall, halloc⟩ := Option.bind_eq_some_iff.1 halloc
  dsimp only at halloc
  by_cases haddr : addr = 0
  · rw [if_pos haddr] at halloc
    cases halloc
  rw [if_neg haddr] at halloc
  by_cases hinline : nr ≤ BIO_INLINE_VECS
  · rw [if_pos hinline] at halloc hcall
    obtain ⟨hS₁, n, hn, hlive⟩ := kmalloc_block hfuel hS (by unfold sizeof_bio_vec; omega) hcall haddr
    obtain ⟨rfl, hb⟩ := Prod.mk.inj (Option.some.inj halloc)
    obtain rfl := Option.some.inj hb
    have hmem : (⟨addr, n⟩ : Heap.Alloc) ∈ S₁.live := hlive ▸ List.mem_cons_self
    refine ⟨hS₁, ⟨rfl, rfl, rfl, rfl⟩, ⟨⟨_, hmem, rfl, by dsimp only; omega⟩, fun _ => rfl, fun hno => absurd hinline hno,
      ⟨_, hmem, ?_, ?_⟩⟩⟩
    · exact Nat.le_add_right _ _
    · dsimp only
      omega
  · rw [if_neg hinline] at halloc hcall
    obtain ⟨hS₁, n, hn, hlive⟩ := kmalloc_block hfuel hS (by omega) hcall haddr
    obtain ⟨⟨S₂, vecs⟩, hcall₂, halloc⟩ := Option.bind_eq_some_iff.1 halloc
    dsimp only at halloc
    by_cases hvecs : vecs = 0
    · rw [if_pos hvecs] at halloc
      obtain ⟨S₃, -, heq⟩ := Option.map_eq_some_iff.1 halloc
      cases heq
    rw [if_neg hvecs] at halloc
    have hproduct : nr.toNat * sizeof_bio_vec < 2 ^ 32 := by
      unfold sizeof_bio_vec
      omega
    rw [kmalloc_array, u32_of_lt hproduct] at hcall₂
    obtain ⟨hS₂, k, hk, hlive₂⟩ := kmalloc_block hfuel hS₁ hproduct hcall₂ hvecs
    obtain ⟨rfl, hb⟩ := Prod.mk.inj (Option.some.inj halloc)
    obtain rfl := Option.some.inj hb
    have hmem : (⟨addr, n⟩ : Heap.Alloc) ∈ S₂.live := hlive₂ ▸ List.mem_cons_of_mem _ (hlive ▸ List.mem_cons_self)
    have hmem₂ : (⟨vecs, k⟩ : Heap.Alloc) ∈ S₂.live := hlive₂ ▸ List.mem_cons_self
    have hne : addr ≠ vecs := (Hapers.reachable_inv hS₂).live_new hlive₂ ⟨addr, n⟩ (hlive ▸ List.mem_cons_self)
    refine ⟨hS₂, ⟨rfl, rfl, rfl, rfl⟩, ⟨⟨_, hmem, rfl, hn⟩, fun hyes => absurd hyes hinline,
      fun _ => ⟨_, hmem₂, rfl, hne.symm⟩, ⟨_, hmem₂, Nat.le_refl _, ?_⟩⟩⟩
    dsimp only
    rw [Nat.mul_comm]
    omega

/-- The blocks do not change while pages are added. -/
theorem Owns.kept {b₀ : bio} {accepted : List bio_vec} (h : Owns L S b₀ nr) (hk : Kept b₀ b nr accepted) : Owns L S b nr := by
  obtain ⟨hown, hinline, hexternal, harray⟩ := h
  refine ⟨?_, ?_, ?_, ?_⟩
  · rw [hk.addr]
    exact hown
  · rw [hk.addr, hk.io_vec]
    exact hinline
  · rw [hk.addr, hk.io_vec]
    exact hexternal
  · rw [hk.io_vec]
    exact harray

/-- Every state of the construction is as it should be exactly if no size that is
checked wraps in 32 bits. -/
theorem bio_construction {old : Nat → bio_vec} {bdev gfp_mask : Nat} {opf : UInt32}
    (hfuel : ∀ i, cfg.memory_size i + 4 ≤ fuel) (hS : Reachable Hapers.Boot (Hapers.Step cfg) S)
    (halloc : bio_alloc_bioset fuel L cfg old S bdev nr opf gfp_mask = some (S', some b)) (pages : List Page) :
    (∀ pre, pre <+: pages → Constructed L cfg S' (add_all b pre).1 nr (add_all b pre).2) ↔ NoWrap b pages := by
  obtain ⟨-, hnew, howns⟩ := bio_alloc_spec hfuel hS halloc
  rw [← adds_iff hnew]
  refine forall_congr' fun pre => imp_congr_right fun _ => ⟨fun hc => hc.size, fun hadds => ?_⟩
  have hk := add_all_kept hnew pre
  refine ⟨hk.count, hk.stored, howns.kept hk, hadds, hk.limit, fun p hp => ?_, released hk.cnt⟩
  rcases bio_add_page_cases (add_all b pre).1 p with ⟨hadd, -⟩ | ⟨hadd, -⟩
  · rw [hadd] at hp
    exact absurd rfl hp
  · rw [hadd]

end Blocks

/-! ## Two vectors on a small heap -/

def bio_layout : Layout := ⟨80, 76, by decide, by decide, by decide⟩

def bio_config : Config where
  space _ := 32
  memory_size i := if i = Hapers.memory_haper then 200 else 0
  run_task _ := false
  low := by decide
  high := by decide
  apart := by decide

def bio_heap : State := State.initialised ⟨fun _ => Heap.expand_memory_haper, fun _ => 0, []⟩ bio_config Hapers.memory_haper 0

theorem bio_heap_reachable : Reachable Hapers.Boot (Hapers.Step bio_config) bio_heap := by
  have hboot : Reachable Hapers.Boot (Hapers.Step bio_config) ⟨fun _ => Heap.expand_memory_haper, fun _ => 0, []⟩ :=
    .start ⟨fun _ => rfl, rfl⟩
  exact hboot.next (.init Hapers.memory_haper 0 rfl)

theorem bio_fuel : ∀ i, bio_config.memory_size i + 4 ≤ 204 := by decide

theorem two_vectors : ∃ S' b, bio_alloc_bioset 204 bio_layout bio_config (fun _ => ⟨0, 0, 0⟩) bio_heap 0 2 0 0 = some (S', some b) := by
  have hsome : (bio_alloc_bioset 204 bio_layout bio_config (fun _ => ⟨0, 0, 0⟩) bio_heap 0 2 0 0).map (·.2.isSome) = some true := by
    decide +kernel
  obtain ⟨⟨S', o⟩, hcall, ho⟩ := Option.map_eq_some_iff.1 hsome
  obtain ⟨b, rfl⟩ := Option.isSome_iff_exists.1 ho
  exact ⟨S', b, hcall⟩

/-- One page after the other. -/
def two_pages : List Page := [⟨some 4096, 512, 0⟩, ⟨some 8192, 512, 512⟩]

theorem two_pages_constructed : ∃ S' b, Constructed bio_layout bio_config S' (add_all b two_pages).1 2 (add_all b two_pages).2 := by
  obtain ⟨S', b, halloc⟩ := two_vectors
  obtain ⟨-, hnew, -⟩ := bio_alloc_spec bio_fuel bio_heap_reachable halloc
  have hwrap : NoWrap b two_pages := by
    intro pre p hpre _
    have hlimit := UInt32.le_iff_toNat_le.1 (add_all_kept hnew pre).limit
    have hmax : (256 * PAGE_SIZE).toNat = 2 ^ 20 := by decide
    have hlen : p.len = 512 := by
      rcases List.mem_cons.1 (hpre.subset List.mem_concat_self) with rfl | hp
      · rfl
      · rw [List.mem_singleton.1 hp]
    rw [hlen]
    have h512 : (512 : UInt32).toNat = 512 := rfl
    omega
  exact ⟨S', b, (bio_construction bio_fuel bio_heap_reachable halloc two_pages).2 hwrap _ (List.prefix_refl _)⟩

/-- One byte, then all but one of `2^32`. -/
def wrapping_pages : List Page := [⟨some 4096, 1, 0⟩, ⟨some 8192, 0xffffffff, 0⟩]

/-- Both are accepted, and the size is 0. -/
theorem wrapping_pages_accepted : ¬∀ (fuel : Nat) (L : Layout) (cfg : Config) (S S' : State) (old : Nat → bio_vec)
    (bdev gfp_mask : Nat) (nr : UInt16) (opf : UInt32) (b : bio) (pages : List Page),
    (∀ i, cfg.memory_size i + 4 ≤ fuel) → Reachable Hapers.Boot (Hapers.Step cfg) S →
    bio_alloc_bioset fuel L cfg old S bdev nr opf gfp_mask = some (S', some b) →
      Constructed L cfg S' (add_all b pages).1 nr (add_all b pages).2 := by
  intro h
  obtain ⟨S', b, halloc⟩ := two_vectors
  obtain ⟨-, ⟨hmax, hcount, hsize, -⟩, -⟩ := bio_alloc_spec bio_fuel bio_heap_reachable halloc
  have hsum := (h _ _ _ _ _ _ _ _ _ _ b wrapping_pages bio_fuel bio_heap_reachable halloc).size
  obtain ⟨addr, bi_io_vec, bi_max_vecs, bi_vcnt, bi_size, bi_bdev, bi_opf, cnt, slots⟩ := b
  dsimp only at hmax hcount hsize
  subst hmax hcount hsize
  simp [add_all, add_next, bio_add_page, __bio_add_page, wrapping_pages, PAGE_SIZE] at hsum

end McLinOS.BioVectors
