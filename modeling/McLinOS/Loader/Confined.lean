import McLinOS.Loader.Model
/-!
# What a load may touch

Nothing in a file is checked against the block that is allocated for it. So a
load stays in its block exactly if the file says so.
-/
open CLib

namespace McLinOS.Loader

/-- Everything a load uses is in the block of `program_size + 8` bytes. -/
structure Confined (l : Load) : Prop where
  start : l.addr ≤ l.start ∧ l.start < l.addr + (l.app.program_size + 8)
  got_start : l.addr ≤ l.got_start ∧ l.got_start ≤ l.addr + (l.app.program_size + 8)
  got_end : l.addr ≤ l.got_end ∧ l.got_end ≤ l.addr + (l.app.program_size + 8)
  writes : ∀ w ∈ l.writes, l.addr ≤ w.1 ∧ w.1 + w.2 ≤ l.addr + (l.app.program_size + 8)

/-- A file that is too short is an error, any other one stays in its block. -/
def LoadSafe (config : loader_config_t) (f : AppFile) (stack : AppMeta) (kmalloc : Nat → Option Nat) (m : Mem) : Prop :=
  ∀ turns l, loader_user_app turns config f stack kmalloc m = .ok l → sizeof_AppMeta ≤ f.length ∧ Confined l

/-- The header in the block, whose offsets are in the block. No entry of the
table that is moved reaches over its end. -/
structure ImageFits (m : Mem) (addr size : Nat) : Prop where
  start : (AppMeta.load m addr).start < size
  got_start : (AppMeta.load m addr).got_start ≤ size
  got_end : (AppMeta.load m addr).got_end ≤ size
  entries : ∀ k, (AppMeta.load m addr).got_start + 4 * k < (AppMeta.load m addr).got_end →
    m.load 4 ((AppMeta.load m addr).got_start + addr + 4 * k) ≠ 0 → (AppMeta.load m addr).got_start + 4 * k + 4 ≤ size

/-- A header that is accepted belongs to a file that has one, and what the file
holds fits into the block its header asks for. -/
def LoadFits (config : loader_config_t) (f : AppFile) (stack : AppMeta) (kmalloc : Nat → Option Nat) (m : Mem) : Prop :=
  ∀ addr, check_app config (read_header f stack) = 0 → kmalloc ((read_header f stack).program_size + 8) = some addr →
    sizeof_AppMeta ≤ f.length ∧ (initramfs_read f f.i_size 0).length ≤ (read_header f stack).program_size + 8 ∧
      ImageFits (image f addr m) addr ((read_header f stack).program_size + 8)

section Loader
variable {base got_end turns entry hi : Nat} {s : Mem × List (Nat × Nat)}

theorem relocate_load {a : Nat} (h : a + 4 ≤ entry ∨ entry + 4 ≤ a) : (relocate base entry s).1.load 4 a = s.1.load 4 a := by
  unfold relocate
  split
  · exact Mem.load_store_ne h
  · rfl

theorem relocate_writes {w : Nat × Nat} (h : w ∈ (relocate base entry s).2) :
    w ∈ s.2 ∨ (w = (entry, 4) ∧ s.1.load 4 entry ≠ 0) := by
  unfold relocate at h
  split at h
  · next hne =>
    rcases List.mem_append.1 h with h | h
    · exact .inl h
    · exact .inr ⟨List.mem_singleton.1 h, hne⟩
  · exact .inl h

/-- The writes of the loop where each entry that is moved ends below `hi`. -/
theorem set_got_table_writes (hend : got_end + 4 ≤ 2 ^ 32)
    (hin : ∀ k, entry + 4 * k < got_end → s.1.load 4 (entry + 4 * k) ≠ 0 → entry + 4 * k + 4 ≤ hi) {w : Nat × Nat}
    (hw : w ∈ (set_got_table base got_end turns entry s).2) : w ∈ s.2 ∨ (entry ≤ w.1 ∧ w.1 + w.2 ≤ hi) := by
  induction turns generalizing entry s with
  | zero => exact .inl hw
  | succ turns ih =>
    unfold set_got_table at hw
    split at hw
    · next hlt =>
      rw [u32_of_lt (by omega)] at hw
      have hnext : ∀ k, entry + 4 + 4 * k < got_end → (relocate base entry s).1.load 4 (entry + 4 + 4 * k) ≠ 0 →
          entry + 4 + 4 * k + 4 ≤ hi := by
        intro k hk hne
        rw [relocate_load (by omega)] at hne
        have e : entry + 4 + 4 * k = entry + 4 * (k + 1) := by omega
        rw [e] at hk hne ⊢
        exact hin (k + 1) hk hne
      rcases ih hnext hw with hw | hw
      · rcases relocate_writes hw with hw | ⟨rfl, hne⟩
        · exact .inl hw
        · exact .inr ⟨Nat.le_refl _, hin 0 hlt hne⟩
      · exact .inr ⟨by omega, hw.2⟩
    · exact .inl hw

/-- The loop comes to each entry that is not zero and moves it. -/
theorem set_got_table_reaches (hend : got_end + 4 ≤ 2 ^ 32) {k : Nat} (hk : entry + 4 * k < got_end)
    (hne : s.1.load 4 (entry + 4 * k) ≠ 0) : (entry + 4 * k, 4) ∈ (set_got_table base got_end (k + 1) entry s).2 := by
  induction k generalizing entry s with
  | zero =>
    rw [Nat.mul_zero, Nat.add_zero] at hk hne ⊢
    rw [set_got_table, if_pos hk, set_got_table, relocate, if_pos hne]
    simp
  | succ k ih =>
    have e : entry + 4 * (k + 1) = entry + 4 + 4 * k := by omega
    rw [e] at hk hne ⊢
    rw [set_got_table, if_pos (by omega), u32_of_lt (by omega)]
    apply ih hk
    rwa [relocate_load (by omega)]

/-- The size of the block does not wrap. -/
theorem app_size_eq {config : loader_config_t} {app : AppMeta} (h : check_app config app = 0) :
    u32 (app.program_size + 8) = app.program_size + 8 := by
  apply u32_of_lt
  unfold check_app at h
  repeat' split at h
  all_goals try exact absurd h (by decide)
  next hle =>
    unfold u32 at hle
    omega

theorem in_block {off addr size : Nat} (ho : off < 2 ^ 32) (ha : addr + size < 2 ^ 32) :
    (addr ≤ u32 (off + addr) ∧ u32 (off + addr) < addr + size ↔ off < size) ∧
      (addr ≤ u32 (off + addr) ∧ u32 (off + addr) ≤ addr + size ↔ off ≤ size) := by
  unfold u32
  omega

/-- The load of an image. -/
def load_at (app : AppMeta) (addr len : Nat) (m : Mem) (turns : Nat) : Load :=
  let head := AppMeta.load m addr
  let t := set_got_table addr (u32 (head.got_end + addr)) turns (u32 (head.got_start + addr)) (m, [(addr, len)])
  ⟨app, addr, u32 (head.start + addr), u32 (head.got_start + addr), u32 (head.got_end + addr), t.1, t.2⟩

theorem loader_ok {config : loader_config_t} {f : AppFile} {stack : AppMeta} {kmalloc : Nat → Option Nat} {m : Mem}
    {addr : Nat} (hc : check_app config (read_header f stack) = 0)
    (hk : kmalloc ((read_header f stack).program_size + 8) = some addr) (turns : Nat) :
    loader_user_app turns config f stack kmalloc m =
      .ok (load_at (read_header f stack) addr (initramfs_read f f.i_size 0).length (image f addr m) turns) := by
  unfold loader_user_app
  simp only [hc, ne_eq, not_true_eq_false, if_false, app_size_eq hc, hk]
  rfl

theorem load_confined_iff {app : AppMeta} {addr len size : Nat} {m : Mem} (hsize : size = app.program_size + 8)
    (hb : addr + size + 4 ≤ 2 ^ 32) : (∀ turns, Confined (load_at app addr len m turns)) ↔ len ≤ size ∧ ImageFits m addr size := by
  have hs : (AppMeta.load m addr).start < 2 ^ 32 := Mem.load_lt 4 _ _
  have hgs : (AppMeta.load m addr).got_start < 2 ^ 32 := Mem.load_lt 4 _ _
  have hge : (AppMeta.load m addr).got_end < 2 ^ 32 := Mem.load_lt 4 _ _
  have ha : addr + size < 2 ^ 32 := by omega
  constructor
  · intro hconf
    have h0 := hconf 0
    have hwrites := fun turns => (hconf turns).writes
    simp only [load_at] at hwrites
    obtain ⟨h1, h2, h3, -⟩ := h0
    simp only [load_at, ← hsize] at h1 h2 h3 hwrites
    have hgs' := ((in_block hgs ha).2).1 h2
    have hge' := ((in_block hge ha).2).1 h3
    refine ⟨?_, ((in_block hs ha).1).1 h1, hgs', hge', ?_⟩
    · exact Nat.le_of_add_le_add_left (hwrites 0 _ List.mem_cons_self).2
    · intro k hlt hne
      -- An entry that is not zero is written once the loop has had a turn for it.
      have hw := hwrites (k + 1)
      rw [u32_of_lt (show (AppMeta.load m addr).got_end + addr < 2 ^ 32 by omega),
        u32_of_lt (show (AppMeta.load m addr).got_start + addr < 2 ^ 32 by omega)] at hw
      have := (hw _ (set_got_table_reaches (by omega) (by omega) hne)).2
      simp only at this
      omega
  · rintro ⟨hlen, hs', hgs', hge', hentries⟩ turns
    subst hsize
    refine ⟨((in_block hs ha).1).2 hs', ((in_block hgs ha).2).2 hgs', ((in_block hge ha).2).2 hge', ?_⟩
    · intro w hw
      simp only [load_at] at hw ⊢
      rw [u32_of_lt (show (AppMeta.load m addr).got_end + addr < 2 ^ 32 by omega),
        u32_of_lt (show (AppMeta.load m addr).got_start + addr < 2 ^ 32 by omega)] at hw
      have hin : ∀ k, (AppMeta.load m addr).got_start + addr + 4 * k < (AppMeta.load m addr).got_end + addr →
          m.load 4 ((AppMeta.load m addr).got_start + addr + 4 * k) ≠ 0 →
          (AppMeta.load m addr).got_start + addr + 4 * k + 4 ≤ addr + (app.program_size + 8) := by
        intro k hlt hne
        have := hentries k (by omega) hne
        omega
      rcases set_got_table_writes (by omega) hin hw with hw | hw
      · obtain rfl := List.mem_singleton.1 hw
        exact ⟨Nat.le_refl _, Nat.add_le_add_left hlen _⟩
      · exact ⟨by omega, hw.2⟩

/-- A load stays in its block, whatever the file, exactly if the file fits. The
blocks of `kmalloc` are not at the end of the address space. -/
theorem loader_confined (config : loader_config_t) (f : AppFile) (stack : AppMeta) (kmalloc : Nat → Option Nat) (m : Mem)
    (hmem : ∀ n addr, kmalloc n = some addr → addr + n + 4 ≤ 2 ^ 32) :
    LoadSafe config f stack kmalloc m ↔ LoadFits config f stack kmalloc m := by
  constructor
  · intro hsafe addr hc hk
    have hl := fun turns => hsafe turns _ (loader_ok hc hk turns)
    exact ⟨(hl 0).1, (load_confined_iff rfl (hmem _ _ hk)).1 fun turns => (hl turns).2⟩
  · intro hfits turns l hl
    by_cases hc : check_app config (read_header f stack) = 0
    · cases hk : kmalloc ((read_header f stack).program_size + 8) with
      | none =>
        unfold loader_user_app at hl
        simp only [hc, ne_eq, not_true_eq_false, if_false, app_size_eq hc, hk] at hl
        cases hl
      | some addr =>
        obtain ⟨hlen, hfile, himg⟩ := hfits addr hc hk
        rw [loader_ok hc hk turns] at hl
        obtain rfl := Except.ok.inj hl
        exact ⟨hlen, (load_confined_iff rfl (hmem _ _ hk)).2 ⟨hfile, himg⟩ turns⟩
    · unfold loader_user_app at hl
      simp only [hc, ne_eq, not_false_eq_true, if_true] at hl
      cases hl

end Loader

/-- A configuration with the magic of `/boot/config.txt`. -/
def config : loader_config_t := ⟨12345678, 0, 2, 1, 8192, 7, 0xffffffff⟩

/-- A header that is accepted. -/
def header (start got_start got_end program_size : Nat) : AppMeta :=
  ⟨12345678, 1, 1, 7, 4096, start, got_start, got_end, program_size⟩

/-- The bytes of the header, the lowest first. -/
def AppMeta.bytes (app : AppMeta) : List UInt8 :=
  [app.magic, app.kernel_ver, app.cmd, app.arch_flags, app.stack_size, app.start, app.got_start, app.got_end,
    app.program_size].flatMap fun w => (List.range 4).map fun i => UInt8.ofNat (w / 256 ^ i)

/-- A heap with one free block. -/
def heap (n : Nat) : Option Nat := if n ≤ 4096 then some 0x20001000 else none

/-- An application with one entry in its table, behind the header. -/
def one_entry : AppFile := ⟨some ((header 37 36 40 40).bytes ++ [0x24, 0, 0, 0, 0, 0, 0, 0]), 44⟩

theorem one_entry_confined : LoadSafe config one_entry (header 0 0 0 0) heap fun _ => 0 := by
  refine (loader_confined config one_entry (header 0 0 0 0) heap (fun _ => 0) fun n addr h => ?_).2 fun addr _ h => ?_
  · unfold heap at h
    split at h <;> simp at h
    omega
  · have hsize : (read_header one_entry (header 0 0 0 0)).program_size + 8 = 48 := by decide +kernel
    rw [hsize] at h ⊢
    obtain rfl : 0x20001000 = addr := by simpa [heap] using h
    have hs : (AppMeta.load (image one_entry 0x20001000 fun _ => 0) 0x20001000).got_start = 36 := by decide +kernel
    have he : (AppMeta.load (image one_entry 0x20001000 fun _ => 0) 0x20001000).got_end = 40 := by decide +kernel
    refine ⟨by decide, by decide, by decide +kernel, by omega, by omega, fun k hk _ => ?_⟩
    rw [hs, he] at hk
    omega

/-- A file that is a header for an empty program overruns the 8 bytes of its
block. An empty file is started if the stack happens to hold a header. -/
theorem header_overruns : ¬LoadSafe config ⟨some (header 0 0 0 0).bytes, 36⟩ (header 0 0 0 0) heap (fun _ => 0) ∧
    ¬LoadSafe config ⟨none, 0⟩ (header 0 0 0 0) heap fun _ => 0 := by
  constructor
  · intro h
    have hk : heap ((read_header ⟨some (header 0 0 0 0).bytes, 36⟩ (header 0 0 0 0)).program_size + 8) = some 0x20001000 := by
      decide +kernel
    have hl := h 0 _ (loader_ok (by decide +kernel) hk 0)
    exact absurd (hl.2.writes _ List.mem_cons_self).2 (by decide +kernel)
  · intro h
    have hk : heap ((read_header ⟨none, 0⟩ (header 0 0 0 0)).program_size + 8) = some 0x20001000 := by decide +kernel
    have hl := h 0 _ (loader_ok (by decide +kernel) hk 0)
    exact absurd hl.1 (by decide)

end McLinOS.Loader
