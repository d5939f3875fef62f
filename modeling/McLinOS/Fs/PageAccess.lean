import McLinOS.CLib.Runs
import McLinOS.Fs.OpenFiles
/-!
# Access to the page of a file

`initramfs_read` and `initramfs_write` of `fs/initramfs/initramfs.c` on one file,
down to the addresses that are copied from and to. `memory` is all there is besides
the callers' own buffers.
-/
open CLib

namespace McLinOS.PageAccess

open OpenFiles (PAGE_SIZE O_ACCMODE O_RDONLY O_RDWR EBADF access_end)

/-! ## The source -/

/-- The address of the `PAGE_SIZE` bytes that `alloc_page` gets from `kmalloc`. -/
structure Page where
  addr : UInt32
  not_null : addr ≠ 0
  fits : addr.toNat + PAGE_SIZE ≤ 2 ^ 32

structure State where
  read_only : Bool
  i_page : Option Page
  size : UInt32
  memory : UInt32 → UInt8

/-- What is returned, `*offset` behind the call, the bytes in the buffer of a read,
and where in memory how many bytes were copied. -/
structure Result where
  state : State
  ret : Int
  offset : Int
  data : Nat → UInt8
  access : Option (UInt32 × UInt32)

def Result.refuse (s : State) (err offset : Int) : Result := ⟨s, err, offset, fun _ => 0, none⟩

/-- A `size_t` returned as an `int`. -/
def int_of (n : UInt32) : Int := if n.toNat < 2 ^ 31 then n.toNat else n.toNat - 2 ^ 32

/-- `page_data + offset`: of the offset 32 bits count. -/
def address (page_data : UInt32) (offset : Int) : UInt32 := page_data + UInt32.ofInt offset

def memcpy (memory : UInt32 → UInt8) (dst : UInt32) (data : Nat → UInt8) (size : UInt32) : UInt32 → UInt8 :=
  fun x => if x - dst < size then data (x - dst).toNat else memory x

/-- A sum out of the range of a `loff_t` is not defined. -/
def initramfs_read (s : State) (size : UInt32) (offset : Int) : Option Result :=
  match s.i_page with
  | none => some (.refuse s 0 offset)
  | some i_page => do
    if (← access_end offset size.toNat) > s.size.toNat then some (.refuse s 0 offset)
    else
      let page_data := i_page.addr
      if page_data = 0 then some (.refuse s (-Fs.ENOMEM) offset)
      else
        let src := address page_data offset
        some ⟨s, int_of size, offset + size.toNat, fun k => s.memory (src + UInt32.ofNat k), some (src, size)⟩

/-- The write, once the file has its page. -/
def copy_to_page (s : State) (i_page : Page) (data : Nat → UInt8) (size : UInt32) (offset : Int) : Option Result := do
  if (← access_end offset size.toNat) > PAGE_SIZE then some (.refuse s 0 offset)
  else
    let dst := address i_page.addr offset
    some ⟨{ s with memory := memcpy s.memory dst data size }, int_of size, offset + size.toNat, fun _ => 0, some (dst, size)⟩

/-- A new page keeps what its memory held. -/
def initramfs_write (s : State) (alloc_page : Option Page) (data : Nat → UInt8) (size : UInt32) (offset : Int) :
    Option Result :=
  if s.read_only then some (.refuse s 0 offset)
  else
    match s.i_page, alloc_page with
    | some i_page, _ => copy_to_page s i_page data size offset
    | none, none => some (.refuse s (-Fs.ENOMEM) offset)
    | none, some i_page =>
      copy_to_page { s with i_page := some i_page, size := UInt32.ofNat PAGE_SIZE } i_page data size offset

def kernel_read (s : State) (size : UInt32) (offset : Int) : Option Result := initramfs_read s size offset

def kernel_write (s : State) (f_flags : Nat) (alloc_page : Option Page) (data : Nat → UInt8) (size : UInt32)
    (offset : Int) : Option Result :=
  if f_flags &&& O_ACCMODE = O_RDONLY then some (.refuse s (-EBADF) offset)
  else initramfs_write s alloc_page data size offset

/-! ## Runs -/

inductive Call
  | kernel_read (size : UInt32) (offset : Int)
  | kernel_write (f_flags : Nat) (alloc_page : Option Page) (data : Nat → UInt8) (size : UInt32) (offset : Int)

def call (s : State) : Call → Option Result
  | .kernel_read size offset => kernel_read s size offset
  | .kernel_write f_flags alloc_page data size offset => kernel_write s f_flags alloc_page data size offset

def Step (s s' : State) : Prop := ∃ c r, call s c = some r ∧ r.state = s'

/-- A file that was just made. Its size is not set. -/
def Created (s : State) : Prop := s.read_only = false ∧ s.i_page = none

/-- What a page holds at offset `k`. -/
def Page.byte (p : Page) (memory : UInt32 → UInt8) (k : Nat) : UInt8 := memory (p.addr + UInt32.ofNat k)

/-! ## What is expected of a call -/

/-- The bytes that were last written to each offset. -/
abbrev Contents := Nat → Option UInt8

/-- At the start of a run the bytes in the page count as written. -/
def contents (s : State) : Contents := fun k =>
  s.i_page.bind fun p => if k < PAGE_SIZE then some (p.byte s.memory k) else none

/-- The contents behind a call. -/
def latest (w : Contents) (c : Call) (r : Result) : Contents :=
  match c with
  | .kernel_read _ _ => w
  | .kernel_write _ _ data _ offset => fun k =>
    if 0 < r.ret ∧ offset.toNat ≤ k ∧ k < offset.toNat + r.ret.toNat then some (data (k - offset.toNat)) else w k

/-- `n` bytes of `data` were put at `offset` of the page, and nothing else. -/
structure Writes (s : State) (data : Nat → UInt8) (n : Nat) (offset : Int) (p : Page) (s' : State) : Prop where
  page : s' = { s with i_page := some p, size := s'.size, memory := s'.memory }
  same : ∀ q, s.i_page = some q → p = q ∧ s'.size = s.size
  fresh : s.i_page = none → s'.size.toNat = PAGE_SIZE
  inside : 0 ≤ offset ∧ offset + n ≤ PAGE_SIZE
  written : ∀ k < n, p.byte s'.memory (offset.toNat + k) = data k
  kept : ∀ x, (∀ k < n, x ≠ p.addr + UInt32.ofNat (offset.toNat + k)) → s'.memory x = s.memory x

/-- The `n` bytes at `offset` were read. -/
structure Reads (s : State) (w : Contents) (n : Nat) (offset : Int) (data : Nat → UInt8) (s' : State) : Prop where
  same : s' = s
  inside : 0 ≤ offset ∧ offset + n ≤ PAGE_SIZE
  latest : ∀ k < n, ∀ b, w (offset.toNat + k) = some b → data k = b

def Transfers (s : State) (w : Contents) (c : Call) (r : Result) : Prop :=
  match c with
  | .kernel_read size offset =>
    r.ret = size.toNat ∧ r.offset = offset + r.ret ∧ Reads s w size.toNat offset r.data r.state
  | .kernel_write _ _ data size offset =>
    r.ret = size.toNat ∧ r.offset = offset + r.ret ∧ ∃ p, Writes s data size.toNat offset p r.state

def Call.offset : Call → Int
  | .kernel_read _ offset => offset
  | .kernel_write _ _ _ _ offset => offset

structure Good (s : State) (w : Contents) (c : Call) (r : Result) : Prop where
  idle : r.ret ≤ 0 → r.state = s ∧ r.offset = c.offset
  moves : 0 < r.ret → Transfers s w c r
  inside : ∀ a n, r.access = some (a, n) → ∃ p, r.state.i_page = some p ∧ ∀ x, x - a < n → (x - p.addr).toNat < PAGE_SIZE

/-- Every call of the run comes to an end and is a good one. -/
def GoodRun : State → Contents → List Call → Prop
  | _, _, [] => True
  | s, w, c :: cs => ∃ r, call s c = some r ∧ Good s w c r ∧ GoodRun r.state (latest w c r) cs

/-! ## Conditions -/

/-- The end is a `loff_t`, and an access that is not behind `limit` does not begin
before the page. -/
def InRange (limit : Nat) (size : UInt32) (offset : Int) : Prop :=
  offset + size.toNat < 2 ^ 63 ∧ (0 ≤ offset ∨ size = 0 ∨ (limit : Int) < offset + size.toNat)

/-- A write that makes the page has to be inside it. -/
def good_call (s : State) : Call → Prop
  | .kernel_read size offset => s.i_page = none ∨ InRange s.size.toNat size offset
  | .kernel_write f_flags alloc_page _ size offset =>
    f_flags &&& O_ACCMODE = O_RDONLY ∨
      match s.i_page, alloc_page with
      | some _, _ => InRange PAGE_SIZE size offset
      | none, none => True
      | none, some _ => 0 ≤ offset ∧ 0 < size ∧ offset + size.toNat ≤ PAGE_SIZE

def GoodCalls : State → List Call → Prop
  | _, [] => True
  | s, c :: cs => good_call s c ∧ ∀ r, call s c = some r → GoodCalls r.state cs

/-! ## Addresses -/

section Addresses
variable {p : Page} {n x : UInt32} {offset : Int}

theorem int_of_small (h : n.toNat < 2 ^ 31) : int_of n = n.toNat := if_pos h

/-- What is not returned as a positive number. -/
theorem int_of_nonpos (h : int_of n ≤ 0) : n = 0 ∨ 2 ^ 31 ≤ n.toNat := by
  unfold int_of at h
  split at h
  · exact .inl (UInt32.toNat_inj.1 (by rw [UInt32.toNat_zero]; omega))
  · rename_i hlarge
    exact .inr (Nat.not_lt.1 hlarge)

/-- The addresses of an access. -/
theorem access_iff (a x n : UInt32) : x - a < n ↔ ∃ k < n.toNat, x = a + UInt32.ofNat k := by
  constructor
  · intro h
    refine ⟨(x - a).toNat, UInt32.lt_iff_toNat_lt.1 h, ?_⟩
    rw [UInt32.ofNat_toNat, UInt32.add_comm, UInt32.sub_add_cancel]
  · rintro ⟨k, hk, rfl⟩
    have hn := n.toNat_lt
    rw [UInt32.add_comm, UInt32.add_sub_cancel, UInt32.lt_iff_toNat_lt, UInt32.toNat_ofNat']
    omega

theorem byte_address (p : Page) {k : Nat} (hk : k < PAGE_SIZE) : (p.addr + UInt32.ofNat k - p.addr).toNat = k := by
  have hpage : PAGE_SIZE = 4096 := rfl
  have hp := p.addr.toNat_lt
  rw [UInt32.toNat_sub, UInt32.toNat_add, UInt32.toNat_ofNat']
  omega

theorem address_add (p : Page) (hpos : 0 ≤ offset) (k : Nat) :
    address p.addr offset + UInt32.ofNat k = p.addr + UInt32.ofNat (offset.toNat + k) := by
  have hmod : offset.toNat = offset % 2 ^ 32 + 2 ^ 32 * (offset / 2 ^ 32) := by omega
  rw [← UInt32.toNat_inj, address, UInt32.toNat_add, UInt32.toNat_add, UInt32.toNat_add, UInt32.ofInt,
    UInt32.toNat_ofNat', UInt32.toNat_ofNat', UInt32.toNat_ofNat']
  omega

/-- An access inside the page. -/
theorem address_inside (hpos : 0 ≤ offset) (hend : offset + n.toNat ≤ PAGE_SIZE) (h : x - address p.addr offset < n) :
    (x - p.addr).toNat < PAGE_SIZE := by
  obtain ⟨k, hk, rfl⟩ := (access_iff _ _ _).1 h
  rw [address_add p hpos, byte_address p (by omega)]
  omega

/-- No page holds an access of more bytes than it has. -/
theorem access_leaves (a : UInt32) (hn : PAGE_SIZE < n.toNat) : ¬∀ x, x - a < n → (x - p.addr).toNat < PAGE_SIZE := by
  have hpage : PAGE_SIZE = 4096 := rfl
  intro h
  have hzero : (a - a).toNat = 0 := by
    rw [UInt32.sub_self]
    rfl
  have hpast : (a + 4096 - a).toNat = 4096 := by
    rw [UInt32.add_comm, UInt32.add_sub_cancel]
    rfl
  have hfirst := h a (UInt32.lt_iff_toNat_lt.2 (by omega))
  have hlast := h (a + 4096) (UInt32.lt_iff_toNat_lt.2 (by omega))
  have ha := a.toNat_lt
  have hp := p.addr.toNat_lt
  rw [UInt32.toNat_sub] at hfirst hlast
  rw [UInt32.toNat_add] at hlast
  have h4096 : (4096 : UInt32).toNat = 4096 := rfl
  omega

end Addresses

/-! ## One call -/

/-- What is known of a writable file and of the bytes written to it. -/
structure Sound (s : State) (w : Contents) : Prop where
  mode : s.read_only = false
  size : ∀ p, s.i_page = some p → s.size.toNat = PAGE_SIZE
  holds : ∀ k b, w k = some b → ∃ p, s.i_page = some p ∧ k < PAGE_SIZE ∧ p.byte s.memory k = b

section One
variable {s : State} {w : Contents} {c : Call} {r : Result} {p : Page} {data : Nat → UInt8} {size : UInt32} {offset : Int}

theorem Transfers.nonneg (h : Transfers s w c r) : 0 ≤ c.offset := by
  cases c with
  | kernel_read size offset => exact h.2.2.inside.1
  | kernel_write f_flags alloc_page data size offset =>
    obtain ⟨-, -, p, hwrites⟩ := h
    exact hwrites.inside.1

theorem good_refuse (s : State) (w : Contents) (c : Call) {err : Int} (h : err ≤ 0) : Good s w c (.refuse s err c.offset) :=
  ⟨fun _ => ⟨rfl, rfl⟩, fun hpos => absurd hpos (Int.not_lt.2 h), nofun⟩

/-- Bytes that are copied from before the page on. -/
theorem not_good_before (hneg : c.offset < 0) (hsize : size ≠ 0) (hret : r.ret = int_of size) {a : UInt32}
    (haccess : r.access = some (a, size)) : ¬Good s w c r := by
  intro h
  by_cases hpos : 0 < r.ret
  · exact Int.not_lt.2 (h.moves hpos).nonneg hneg
  · rw [hret] at hpos
    rcases int_of_nonpos (Int.not_lt.1 hpos) with hzero | hlarge
    · exact hsize hzero
    · -- So many bytes leave any page.
      obtain ⟨p, -, hinside⟩ := h.inside a size haccess
      have hpage : PAGE_SIZE = 4096 := rfl
      exact access_leaves a (by omega) hinside

theorem read_cases (hp : s.i_page = some p) (size : UInt32) (offset : Int) :
    (2 ^ 63 ≤ offset + size.toNat ∧ kernel_read s size offset = none) ∨
    (offset + size.toNat < 2 ^ 63 ∧ (s.size.toNat : Int) < offset + size.toNat ∧
      kernel_read s size offset = some (.refuse s 0 offset)) ∨
    offset + size.toNat < 2 ^ 63 ∧ offset + size.toNat ≤ s.size.toNat ∧ kernel_read s size offset =
      some ⟨s, int_of size, offset + size.toNat, fun k => s.memory (address p.addr offset + UInt32.ofNat k),
        some (address p.addr offset, size)⟩ := by
  unfold kernel_read initramfs_read access_end
  rw [hp]
  dsimp only
  by_cases hover : 2 ^ 63 ≤ offset + size.toNat
  · rw [if_pos hover]
    exact .inl ⟨hover, rfl⟩
  rw [if_neg hover, Option.bind_eq_bind, Option.bind_some]
  by_cases hpast : offset + size.toNat > s.size.toNat
  · rw [if_pos hpast]
    exact .inr (.inl ⟨Int.not_le.1 hover, hpast, rfl⟩)
  · rw [if_neg hpast, if_neg p.not_null]
    exact .inr (.inr ⟨Int.not_le.1 hover, Int.not_lt.1 hpast, rfl⟩)

theorem copy_cases (s : State) (p : Page) (data : Nat → UInt8) (size : UInt32) (offset : Int) :
    (2 ^ 63 ≤ offset + size.toNat ∧ copy_to_page s p data size offset = none) ∨
    (offset + size.toNat < 2 ^ 63 ∧ (PAGE_SIZE : Int) < offset + size.toNat ∧
      copy_to_page s p data size offset = some (.refuse s 0 offset)) ∨
    offset + size.toNat < 2 ^ 63 ∧ offset + size.toNat ≤ PAGE_SIZE ∧ copy_to_page s p data size offset =
      some ⟨{ s with memory := memcpy s.memory (address p.addr offset) data size }, int_of size, offset + size.toNat,
        fun _ => 0, some (address p.addr offset, size)⟩ := by
  unfold copy_to_page access_end
  by_cases hover : 2 ^ 63 ≤ offset + size.toNat
  · rw [if_pos hover]
    exact .inl ⟨hover, rfl⟩
  rw [if_neg hover, Option.bind_eq_bind, Option.bind_some]
  by_cases hpast : offset + size.toNat > PAGE_SIZE
  · rw [if_pos hpast]
    exact .inr (.inl ⟨Int.not_le.1 hover, hpast, rfl⟩)
  · rw [if_neg hpast]
    exact .inr (.inr ⟨Int.not_le.1 hover, Int.not_lt.1 hpast, rfl⟩)

theorem access_inside (hpos : 0 ≤ offset ∨ size = 0) (hend : offset + size.toNat ≤ PAGE_SIZE) {a n : UInt32}
    (h : some (address p.addr offset, size) = some (a, n)) : ∀ x, x - a < n → (x - p.addr).toNat < PAGE_SIZE := by
  obtain ⟨rfl, rfl⟩ := Prod.mk.inj (Option.some.inj h)
  intro x hx
  rcases hpos with hpos | rfl
  · exact address_inside hpos hend hx
  · exact absurd hx UInt32.not_lt_zero

/-- Bytes that are copied into the page. -/
theorem memcpy_writes {s₁ : State} (hs₁ : s₁ = { s with i_page := some p, size := s₁.size })
    (hsame : ∀ q, s.i_page = some q → p = q ∧ s₁.size = s.size)
    (hfresh : s.i_page = none → s₁.size.toNat = PAGE_SIZE) (hpos : 0 ≤ offset) (hend : offset + size.toNat ≤ PAGE_SIZE) :
    Writes s data size.toNat offset p { s₁ with memory := memcpy s₁.memory (address p.addr offset) data size } := by
  have hmemory : s₁.memory = s.memory := by rw [hs₁]
  refine ⟨?_, hsame, hfresh, ⟨hpos, hend⟩, ?_, ?_⟩
  · rw [hs₁]
  · intro k hk
    have hsize := size.toNat_lt
    have hk' : address p.addr offset + UInt32.ofNat k - address p.addr offset = UInt32.ofNat k := by
      rw [UInt32.add_comm, UInt32.add_sub_cancel]
    have hlt : address p.addr offset + UInt32.ofNat k - address p.addr offset < size :=
      (access_iff _ _ _).2 ⟨k, hk, rfl⟩
    rw [Page.byte, ← address_add p hpos]
    dsimp only
    rw [memcpy, if_pos hlt, hk', UInt32.toNat_ofNat', Nat.mod_eq_of_lt (by omega)]
  · intro x hx
    dsimp only
    rw [memcpy, if_neg, hmemory]
    intro hlt
    obtain ⟨k, hk, hxk⟩ := (access_iff _ _ _).1 hlt
    exact hx k hk (hxk.trans (address_add p hpos k))

/-- A read that is not refused. -/
theorem good_read_iff (h : Sound s w) (hp : s.i_page = some p) (hend : offset + size.toNat ≤ s.size.toNat) :
    Good s w (.kernel_read size offset) ⟨s, int_of size, offset + size.toNat,
      fun k => s.memory (address p.addr offset + UInt32.ofNat k), some (address p.addr offset, size)⟩ ↔
      0 ≤ offset ∨ size = 0 := by
  have hpage : PAGE_SIZE = 4096 := rfl
  rw [h.size p hp] at hend
  constructor
  · intro hgood
    by_contra hno
    obtain ⟨hneg, hsize⟩ := not_or.1 hno
    exact not_good_before (c := .kernel_read size offset) (Int.not_le.1 hneg) hsize rfl rfl hgood
  · intro hpos
    refine ⟨?_, ?_, fun a n haccess => ⟨p, hp, access_inside hpos hend haccess⟩⟩
    · intro hret
      refine ⟨rfl, ?_⟩
      rcases hpos with hpos | rfl
      · rcases int_of_nonpos hret with rfl | hlarge
        · exact Int.add_zero offset
        · omega
      · exact Int.add_zero offset
    · intro hret
      rcases hpos with hpos | rfl
      · have hret : int_of size = size.toNat := int_of_small (by omega)
        refine ⟨hret, by rw [hret], rfl, ⟨hpos, hend⟩, fun k hk b hb => ?_⟩
        obtain ⟨q, hq, -, hbyte⟩ := h.holds _ _ hb
        obtain rfl := Option.some.inj (hp.symm.trans hq)
        rw [← hbyte, Page.byte, ← address_add p hpos]
      · exact absurd hret (Int.lt_irrefl 0)

/-- A write that is not refused, and has made the page if there was none. -/
theorem good_write_iff {f_flags : Nat} {alloc_page : Option Page} {s₁ : State}
    (hs₁ : s₁ = { s with i_page := some p, size := s₁.size })
    (hsame : ∀ q, s.i_page = some q → p = q ∧ s₁.size = s.size)
    (hfresh : s.i_page = none → s₁.size.toNat = PAGE_SIZE) (hend : offset + size.toNat ≤ PAGE_SIZE) :
    Good s w (.kernel_write f_flags alloc_page data size offset)
      ⟨{ s₁ with memory := memcpy s₁.memory (address p.addr offset) data size }, int_of size, offset + size.toNat,
        fun _ => 0, some (address p.addr offset, size)⟩ ↔
      (0 ≤ offset ∨ size = 0) ∧ (s.i_page = none → size ≠ 0) := by
  have hpage : PAGE_SIZE = 4096 := rfl
  have hnew : s₁.i_page = some p := by rw [hs₁]
  constructor
  · intro hgood
    refine ⟨?_, ?_⟩
    · by_contra hno
      obtain ⟨hneg, hsize⟩ := not_or.1 hno
      exact not_good_before (c := .kernel_write f_flags alloc_page data size offset) (Int.not_le.1 hneg) hsize rfl rfl hgood
    · intro hnone hzero
      -- Nothing is written, but the page stays.
      subst hzero
      have hstate := congrArg State.i_page (hgood.idle (Int.le_refl 0)).1
      rw [hnone] at hstate
      exact absurd (hnew.symm.trans hstate) (by simp)
  · rintro ⟨hpos, hsome⟩
    refine ⟨?_, ?_, fun a n haccess => ⟨p, hnew, access_inside hpos hend haccess⟩⟩
    · intro hret
      obtain rfl : size = 0 := by
        rcases int_of_nonpos hret with hzero | hlarge
        · exact hzero
        · rcases hpos with hpos | hzero
          · omega
          · exact hzero
      obtain ⟨q, hq⟩ := Option.ne_none_iff_exists'.1 fun hnone => hsome hnone rfl
      obtain ⟨rfl, hsize⟩ := hsame q hq
      refine ⟨?_, Int.add_zero offset⟩
      have hmemory : memcpy s₁.memory (address p.addr offset) data 0 = s₁.memory :=
        funext fun x => if_neg UInt32.not_lt_zero
      rw [hmemory, hs₁, hsize, ← hq]
    · intro hret
      rcases hpos with hpos | rfl
      · have hret : int_of size = size.toNat := int_of_small (by omega)
        exact ⟨hret, by rw [hret], p, memcpy_writes hs₁ hsame hfresh hpos hend⟩
      · exact absurd hret (Int.lt_irrefl 0)

theorem read_good_call (h : Sound s w) : (∃ r, call s (.kernel_read size offset) = some r ∧
    Good s w (.kernel_read size offset) r) ↔ good_call s (.kernel_read size offset) := by
  simp only [call, good_call, InRange]
  cases hp : s.i_page with
  | none =>
    refine iff_of_true ⟨_, ?_, good_refuse s w (.kernel_read size offset) (Int.le_refl 0)⟩ (.inl rfl)
    simp only [kernel_read, initramfs_read, hp]
    rfl
  | some p =>
    rcases read_cases hp size offset with ⟨hover, hcall⟩ | ⟨hsum, hpast, hcall⟩ | ⟨hsum, hend, hcall⟩
    · rw [hcall]
      exact iff_of_false (by simp) fun h => h.elim (by simp) fun h => absurd h.1 (Int.not_lt.2 hover)
    · rw [hcall]
      exact iff_of_true ⟨_, rfl, good_refuse s w (.kernel_read size offset) (Int.le_refl 0)⟩
        (.inr ⟨hsum, .inr (.inr hpast)⟩)
    · simp only [hcall, Option.some.injEq, exists_eq_left', good_read_iff h hp hend, hsum, true_and, Int.not_lt.2 hend,
        or_false, reduceCtorEq, false_or]

/-- The write of a file with its page, which `s₁` has. -/
theorem copy_good_call {f_flags : Nat} {alloc_page : Option Page} {s₁ : State}
    (hs₁ : s₁ = { s with i_page := some p, size := s₁.size })
    (hsame : ∀ q, s.i_page = some q → p = q ∧ s₁.size = s.size)
    (hfresh : s.i_page = none → s₁.size.toNat = PAGE_SIZE) :
    (∃ r, copy_to_page s₁ p data size offset = some r ∧ Good s w (.kernel_write f_flags alloc_page data size offset) r) ↔
      if s.i_page = none then 0 ≤ offset ∧ 0 < size ∧ offset + size.toNat ≤ PAGE_SIZE
      else InRange PAGE_SIZE size offset := by
  have hpage : PAGE_SIZE = 4096 := rfl
  rcases copy_cases s₁ p data size offset with ⟨hover, hcall⟩ | ⟨hsum, hpast, hcall⟩ | ⟨hsum, hend, hcall⟩
  · rw [hcall]
    apply iff_of_false (by simp)
    split
    · omega
    · exact fun h => absurd h.1 (Int.not_lt.2 hover)
  · rw [hcall]
    by_cases hnone : s.i_page = none
    · -- The file has a page now, although the write is refused.
      rw [if_pos hnone]
      refine iff_of_false ?_ (by omega)
      rintro ⟨r, hr, hgood⟩
      obtain rfl := Option.some.inj hr
      have hstate := congrArg State.i_page (hgood.idle (Int.le_refl 0)).1
      rw [hnone] at hstate
      have hnew : s₁.i_page = some p := by rw [hs₁]
      exact absurd (hnew.symm.trans hstate) (by simp)
    · rw [if_neg hnone]
      obtain ⟨q, hq⟩ := Option.ne_none_iff_exists'.1 hnone
      obtain ⟨rfl, hsize⟩ := hsame q hq
      obtain rfl : s₁ = s := by rw [hs₁, hsize, ← hq]
      exact iff_of_true ⟨_, rfl, good_refuse _ w (.kernel_write f_flags alloc_page data size offset) (Int.le_refl 0)⟩
        ⟨hsum, .inr (.inr hpast)⟩
  · simp only [hcall, Option.some.injEq, exists_eq_left', good_write_iff hs₁ hsame hfresh hend]
    split
    · rename_i hnone
      have hpos : 0 < size ↔ size ≠ 0 := UInt32.pos_iff_ne_zero
      simp only [hnone, true_implies, hpos, hend, and_true]
      tauto
    · rename_i hsome
      simp only [hsome, false_implies, and_true, InRange, hsum, true_and, Int.not_lt.2 hend, or_false]

theorem write_good_call (h : Sound s w) (f_flags : Nat) (alloc_page : Option Page) :
    (∃ r, call s (.kernel_write f_flags alloc_page data size offset) = some r ∧
      Good s w (.kernel_write f_flags alloc_page data size offset) r) ↔
      good_call s (.kernel_write f_flags alloc_page data size offset) := by
  simp only [call, good_call, kernel_write]
  by_cases hflags : f_flags &&& O_ACCMODE = O_RDONLY
  · rw [if_pos hflags]
    exact iff_of_true ⟨_, rfl, good_refuse s w (.kernel_write f_flags alloc_page data size offset) (by decide)⟩ (.inl hflags)
  rw [if_neg hflags, or_iff_right hflags]
  simp only [initramfs_write, h.mode, Bool.false_eq_true, if_false]
  cases hp : s.i_page with
  | some p =>
    refine (copy_good_call (by rw [← hp]) (fun q hq => ⟨Option.some.inj (hp.symm.trans hq), rfl⟩) ?_).trans ?_
    · simp [hp]
    · rw [hp, if_neg (by simp)]
  | none =>
    cases alloc_page with
    | none => exact iff_of_true ⟨_, rfl, good_refuse s w (.kernel_write f_flags none data size offset) (by decide)⟩ trivial
    | some p =>
      refine (copy_good_call (s := s) (by rw [h.mode]) ?_ fun _ => rfl).trans ?_
      · simp [hp]
      · rw [if_pos hp]

theorem good_call_iff (h : Sound s w) (c : Call) : (∃ r, call s c = some r ∧ Good s w c r) ↔ good_call s c := by
  cases c with
  | kernel_read size offset => exact read_good_call h
  | kernel_write f_flags alloc_page data size offset => exact write_good_call h f_flags alloc_page

/-- What is known of the file stays known behind a good call. -/
theorem Sound.good (h : Sound s w) (hgood : Good s w c r) : Sound r.state (latest w c r) := by
  by_cases hret : 0 < r.ret
  · cases c with
    | kernel_read size offset =>
      rw [(hgood.moves hret).2.2.same]
      exact h
    | kernel_write f_flags alloc_page data size offset =>
      obtain ⟨hsize, -, p, hwrites⟩ := hgood.moves hret
      have hpage : r.state.i_page = some p := by rw [hwrites.page]
      refine ⟨by rw [hwrites.page]; exact h.mode, ?_, fun k b hb => ⟨p, hpage, ?_⟩⟩
      · intro q hq
        cases hs : s.i_page with
        | none => exact hwrites.fresh hs
        | some q' => rw [(hwrites.same q' hs).2, h.size q' hs]
      · have hend := hwrites.inside.2
        have hpos := hwrites.inside.1
        simp only [latest] at hb
        split at hb
        · rename_i hin
          obtain ⟨-, hlo, hhi⟩ := hin
          obtain ⟨j, rfl⟩ := Nat.exists_eq_add_of_le hlo
          rw [Nat.add_sub_cancel_left] at hb
          refine ⟨by omega, ?_⟩
          rw [hwrites.written j (by omega)]
          exact Option.some.inj hb
        · -- What the write left alone is in the page as before.
          rename_i hout
          obtain ⟨q, hq, hk, hbyte⟩ := h.holds k b hb
          obtain rfl := (hwrites.same q hq).1
          refine ⟨hk, (hwrites.kept _ fun j hj heq => hout ⟨hret, ?_⟩).trans hbyte⟩
          have hkj := byte_address p hk
          rw [heq, byte_address p (by omega)] at hkj
          omega
  · have hidle := (hgood.idle (Int.not_lt.1 hret)).1
    have hlatest : latest w c r = w := by
      cases c with
      | kernel_read size offset => rfl
      | kernel_write f_flags alloc_page data size offset => exact funext fun k => if_neg fun h => hret h.1
    rw [hidle, hlatest]
    exact h

end One

/-! ## Runs -/

theorem good_run_iff {s : State} {w : Contents} (h : Sound s w) (calls : List Call) :
    GoodRun s w calls ↔ GoodCalls s calls := by
  induction calls generalizing s w with
  | nil => exact Iff.rfl
  | cons c calls ih =>
    constructor
    · rintro ⟨r, hcall, hgood, hrest⟩
      refine ⟨(good_call_iff h c).1 ⟨r, hcall, hgood⟩, fun r' hcall' => ?_⟩
      obtain rfl := Option.some.inj (hcall.symm.trans hcall')
      exact (ih (h.good hgood)).1 hrest
    · rintro ⟨hc, hrest⟩
      obtain ⟨r, hcall, hgood⟩ := (good_call_iff h c).2 hc
      exact ⟨r, hcall, hgood, (ih (h.good hgood)).2 (hrest r hcall)⟩

/-- Whatever is called, the file stays writable, and its page is in its size. -/
def Writable (s : State) : Prop := s.read_only = false ∧ ∀ p, s.i_page = some p → s.size.toNat = PAGE_SIZE

theorem copy_state {s : State} {p : Page} {data : Nat → UInt8} {size : UInt32} {offset : Int} {r : Result}
    (h : copy_to_page s p data size offset = some r) : ∃ m, r.state = { s with memory := m } := by
  rcases copy_cases s p data size offset with ⟨-, hcall⟩ | ⟨-, -, hcall⟩ | ⟨-, -, hcall⟩
  · rw [hcall] at h
    cases h
  · rw [hcall] at h
    obtain rfl := Option.some.inj h
    exact ⟨s.memory, rfl⟩
  · rw [hcall] at h
    obtain rfl := Option.some.inj h
    exact ⟨_, rfl⟩

theorem writable_step {s s' : State} (h : Writable s) (hs : Step s s') : Writable s' := by
  have hmemory : ∀ m, Writable { s with memory := m } := fun m => h
  obtain ⟨c, r, hcall, rfl⟩ := hs
  cases c with
  | kernel_read size offset =>
    simp only [call] at hcall
    cases hp : s.i_page with
    | none =>
      simp only [kernel_read, initramfs_read, hp] at hcall
      obtain rfl := Option.some.inj hcall
      exact h
    | some p =>
      rcases read_cases hp size offset with ⟨-, hr⟩ | ⟨-, -, hr⟩ | ⟨-, -, hr⟩
      · rw [hr] at hcall
        cases hcall
      · obtain rfl := Option.some.inj (hr.symm.trans hcall)
        exact h
      · obtain rfl := Option.some.inj (hr.symm.trans hcall)
        exact h
  | kernel_write f_flags alloc_page data size offset =>
    simp only [call, kernel_write] at hcall
    split at hcall
    · obtain rfl := Option.some.inj hcall
      exact h
    simp only [initramfs_write, h.1, Bool.false_eq_true, if_false] at hcall
    split at hcall
    · obtain ⟨m, hm⟩ := copy_state hcall
      rw [hm]
      exact hmemory m
    · obtain rfl := Option.some.inj hcall
      exact h
    · obtain ⟨m, hm⟩ := copy_state hcall
      rw [hm]
      exact ⟨rfl, fun _ _ => rfl⟩

theorem sound_contents {s : State} (h : Writable s) : Sound s (contents s) := by
  refine ⟨h.1, h.2, fun k b hb => ?_⟩
  obtain ⟨p, hp, hb⟩ := Option.bind_eq_some_iff.1 hb
  split at hb
  · rename_i hk
    exact ⟨p, hp, hk, Option.some.inj hb⟩
  · cases hb

/-- The bytes that a file holds count as written at the start of the run. The
calls of a run are good ones as long as none meets the page from before it, runs
over the range of a `loff_t` or makes the page without writing. -/
theorem page_accesses {s : State} (h : Reachable Created Step s) (calls : List Call) :
    GoodRun s (contents s) calls ↔ GoodCalls s calls := by
  refine good_run_iff (sound_contents (h.inv Writable ?_ fun _ _ => writable_step)) calls
  rintro s ⟨hmode, hnone⟩
  exact ⟨hmode, fun p hp => absurd (hp.symm.trans hnone) (by simp)⟩

def sample_page : Page := ⟨0x20001000, by decide, by decide⟩

def sample_file : State := ⟨false, none, 0, fun _ => 0⟩

/-- A byte is written to a new file and read. -/
theorem page_accesses_byte : Reachable Created Step sample_file ∧
    GoodRun sample_file (contents sample_file) [.kernel_write O_RDWR (some sample_page) (fun _ => 7) 1 0, .kernel_read 1 0] := by
  have hreach : Reachable Created Step sample_file := .start ⟨rfl, rfl⟩
  refine ⟨hreach, (page_accesses hreach _).2 ⟨.inr ⟨by decide, by decide, by decide⟩, fun r hr => ⟨?_, fun _ _ => trivial⟩⟩⟩
  obtain rfl := Option.some.inj hr
  exact .inr ⟨by decide, .inl (by decide)⟩

/-- The file behind a write that is refused has a page. -/
def paged_file : State := ⟨false, some sample_page, 4096, fun _ => 0⟩

/-- One byte written at offset -1 changes the byte before the page, and a write
behind the page of a file that has none makes one. -/
theorem access_before_page :
    (¬∀ (s : State) (calls : List Call), Reachable Created Step s → GoodRun s (contents s) calls) ∧
    (∃ r, call paged_file (.kernel_write O_RDWR none (fun _ => 7) 1 (-1)) = some r ∧ r.ret = 1 ∧
      r.state.memory 0x20000fff = 7) ∧
    ∃ r, call sample_file (.kernel_write O_RDWR (some sample_page) (fun _ => 7) 1 4096) = some r ∧ r.ret = 0 ∧
      r.state.i_page = some sample_page := by
  refine ⟨fun h => ?_, ⟨_, rfl, by decide, by decide⟩, ⟨_, rfl, by decide, rfl⟩⟩
  have hgood := (good_run_iff (sound_contents ⟨rfl, fun p hp => absurd hp (by simp [sample_file])⟩) _).1
    (h sample_file [.kernel_write O_RDWR (some sample_page) (fun _ => 7) 1 4096] (.start ⟨rfl, rfl⟩))
  rcases hgood.1 with hflags | ⟨-, -, hend⟩
  · exact absurd hflags (by decide)
  · exact absurd hend (by decide)

end McLinOS.PageAccess
