import McLinOS.CLib.Loop
import McLinOS.Loader.Confined
/-!
# The global offset table

`set_got_table` compares addresses, not offsets. So what it does to the table
depends on whether the sum of base address and offset wraps for one end of the
table only.
-/
open CLib

set_option linter.style.nameCheck false

namespace McLinOS.Loader

/-! ## The loop -/

/-- The entries that `set_got_table` reads. -/
def got_entries (got_end : Nat) : Nat → Nat → List Nat
  | 0, _ => []
  | turns + 1, entry => if entry < got_end then entry :: got_entries got_end turns (u32 (entry + 4)) else []

theorem set_got_table_eq (base got_end turns entry : Nat) (s : Mem × List (Nat × Nat)) :
    set_got_table base got_end turns entry s = (got_entries got_end turns entry).foldl (fun s e => relocate base e s) s := by
  induction turns generalizing entry s with
  | zero => rfl
  | succ turns ih =>
    unfold set_got_table got_entries
    split
    · rw [ih]
      rfl
    · rfl

theorem got_entries_run {first n turns : Nat} (hend : first + 4 * n < 2 ^ 32) (hn : n ≤ turns) :
    got_entries (first + 4 * n) turns first = (List.range n).map fun k => first + 4 * k := by
  induction n generalizing first turns with
  | zero =>
    cases turns with
    | zero => rfl
    | succ turns => exact if_neg (by omega)
  | succ n ih =>
    obtain ⟨turns, rfl⟩ : ∃ k, turns = k + 1 := ⟨turns - 1, by omega⟩
    have e : first + 4 * (n + 1) = first + 4 + 4 * n := by omega
    have hlt : first < first + 4 * (n + 1) := by omega
    rw [got_entries, if_pos hlt, u32_of_lt (by omega), e, ih (by omega) (by omega), List.range_succ_eq_map, List.map_cons,
      List.map_map]
    refine congrArg _ (List.map_congr_left fun k _ => ?_)
    dsimp only [Function.comp]
    omega

/-- A loop between two addresses whole words apart. -/
theorem got_entries_eq {first got_end turns : Nat} (hend : got_end < 2 ^ 32) (halign : first % 4 = got_end % 4)
    (hturns : 2 ^ 30 ≤ turns) :
    got_entries got_end turns first = (List.range ((got_end - first) / 4)).map fun k => first + 4 * k := by
  rcases Nat.lt_or_ge first got_end with hlt | hge
  · have e : got_end = first + 4 * ((got_end - first) / 4) := by omega
    have h : got_entries (first + 4 * ((got_end - first) / 4)) turns first =
        (List.range ((got_end - first) / 4)).map fun k => first + 4 * k := got_entries_run (by omega) (by omega)
    rwa [← e] at h
  · obtain ⟨turns, rfl⟩ : ∃ k, turns = k + 1 := ⟨turns - 1, by omega⟩
    have hn : (got_end - first) / 4 = 0 := by omega
    rw [got_entries, if_neg (by omega), hn]
    rfl

/-! ## What it does to memory -/

/-- An entry after the relocation. -/
def moved (base v : Nat) : Nat := if v = 0 then 0 else u32 (v + base)

theorem relocate_same (base entry : Nat) (s : Mem × List (Nat × Nat)) :
    (relocate base entry s).1.load 4 entry = moved base (s.1.load 4 entry) := by
  by_cases h : s.1.load 4 entry = 0
  · rw [relocate, if_neg (not_not.2 h), moved, if_pos h]
    exact h
  · rw [relocate, if_pos h, moved, if_neg h]
    exact (Mem.load_store_same 4 _ _ _).trans (Nat.mod_eq_of_lt (u32_lt _))

theorem relocate_apply {base entry x : Nat} (s : Mem × List (Nat × Nat)) (h : x < entry ∨ entry + 4 ≤ x) :
    (relocate base entry s).1 x = s.1 x := by
  unfold relocate
  split
  · exact Mem.store_apply_ne h
  · rfl

/-- `n` entries from `first` on, one after another. -/
theorem relocate_run (base first n : Nat) (s : Mem × List (Nat × Nat)) :
    let s' := ((List.range n).map fun k => first + 4 * k).foldl (fun s e => relocate base e s) s
    (∀ k < n, s'.1.load 4 (first + 4 * k) = moved base (s.1.load 4 (first + 4 * k))) ∧
      ∀ x, x < first ∨ first + 4 * n ≤ x → s'.1 x = s.1 x := by
  dsimp only
  rw [List.foldl_map]
  refine foldl_range_rec (motive := fun n (s' : Mem × List (Nat × Nat)) =>
    (∀ k < n, s'.1.load 4 (first + 4 * k) = moved base (s.1.load 4 (first + 4 * k))) ∧
      ∀ x, x < first ∨ first + 4 * n ≤ x → s'.1 x = s.1 x) n
    ⟨fun k hk => absurd hk (Nat.not_lt_zero k), fun x _ => rfl⟩ fun n _ s' ⟨hwords, hout⟩ => ⟨fun k hk => ?_, fun x hx => ?_⟩
  · rcases Nat.lt_succ_iff_lt_or_eq.1 hk with hk | rfl
    · exact (relocate_load (by omega)).trans (hwords k hk)
    · -- The word was not touched before its own turn.
      have hload := Mem.load_congr (w := 4) fun x h1 _ => hout x (.inr h1)
      exact (relocate_same base _ _).trans (by rw [hload])
  · exact (relocate_apply _ (by omega)).trans (hout x (by omega))

/-- The base address is added to the words of the table that are not zero, and only
to them. An empty table is not looked at. -/
structure Relocates (base got_start got_end : Nat) (m m' : Mem) (entries : List Nat) : Prop where
  words : ∀ off, got_start ≤ off → off < got_end → off % 4 = 0 →
    m'.load 4 (u32 (off + base)) = moved base (m.load 4 (u32 (off + base)))
  others : ∀ x, (∀ off, got_start ≤ off → off < got_end → off % 4 = 0 → x < u32 (off + base) ∨ u32 (off + base) + 4 ≤ x) →
    m' x = m x
  empty : got_end ≤ got_start → entries = []

/-- Only the lower offset is below the address space's end: the loop starts where it
should not, or does not start and then should have nothing to do. -/
def WrapsApart (base got_start got_end : Nat) (m : Mem) : Prop :=
  (got_end ≤ got_start ∧ got_end + base < 2 ^ 32 ∧ 2 ^ 32 ≤ got_start + base) ∨
    (got_start + base < 2 ^ 32 ∧ 2 ^ 32 ≤ got_end + base ∧
      ∃ off, got_start ≤ off ∧ off < got_end ∧ off % 4 = 0 ∧ m.load 4 (u32 (off + base)) ≠ 0)

theorem moved_eq_self {base v : Nat} (hb : base < 2 ^ 32) (hpos : 0 < base) : moved base v = v ↔ v = 0 := by
  unfold moved u32
  split
  · omega
  · omega

section Table
variable {base got_start got_end turns : Nat}

/-- The ends of the table wrap both or neither. -/
theorem relocates_together (m : Mem) (hb : base < 2 ^ 32) (hs : got_start < 2 ^ 32) (he : got_end < 2 ^ 32)
    (hs4 : got_start % 4 = 0) (he4 : got_end % 4 = 0) (hwrap : 2 ^ 32 ≤ got_start + base ↔ 2 ^ 32 ≤ got_end + base)
    (hturns : 2 ^ 30 ≤ turns) :
    Relocates base got_start got_end m
      (set_got_table base (u32 (got_end + base)) turns (u32 (got_start + base)) (m, [])).1
      (got_entries (u32 (got_end + base)) turns (u32 (got_start + base))) := by
  have hend := u32_lt (got_end + base)
  have hsub : u32 (got_end + base) - u32 (got_start + base) = got_end - got_start := by
    unfold u32
    omega
  have hoff : ∀ off, got_start ≤ off → off < got_end → u32 (off + base) = u32 (got_start + base) + (off - got_start) := by
    intro off h1 h2
    unfold u32
    omega
  have halign : u32 (got_start + base) % 4 = u32 (got_end + base) % 4 := by
    unfold u32
    omega
  rw [set_got_table_eq, got_entries_eq hend halign hturns, hsub]
  obtain ⟨hwords, hout⟩ := relocate_run base (u32 (got_start + base)) ((got_end - got_start) / 4) (m, [])
  refine ⟨?_, fun x hx => hout x ?_, ?_⟩
  · intro off h1 h2 h4
    have e : u32 (off + base) = u32 (got_start + base) + 4 * ((off - got_start) / 4) := by
      rw [hoff off h1 h2]
      omega
    rw [e]
    exact hwords _ (by omega)
  · rcases Nat.lt_or_ge got_start got_end with hlt | hge
    · -- A byte of the table is in one of its words.
      by_contra hin
      have h := hx (got_start + 4 * ((x - u32 (got_start + base)) / 4)) (by omega) (by omega) (by omega)
      rw [hoff _ (by omega) (by omega)] at h
      omega
    · omega
  · intro hle
    have hn : (got_end - got_start) / 4 = 0 := by omega
    rw [hn]
    rfl

/-- `set_got_table` ends, and relocates the table exactly if its ends do not wrap
apart. -/
theorem got_relocated (m : Mem) (hb : base < 2 ^ 32) (hs : got_start < 2 ^ 32) (he : got_end < 2 ^ 32)
    (hs4 : got_start % 4 = 0) (he4 : got_end % 4 = 0) (hturns : 2 ^ 30 ≤ turns) :
    set_got_table base (u32 (got_end + base)) turns (u32 (got_start + base)) (m, []) =
      set_got_table base (u32 (got_end + base)) (2 ^ 30) (u32 (got_start + base)) (m, []) ∧
    (Relocates base got_start got_end m
        (set_got_table base (u32 (got_end + base)) turns (u32 (got_start + base)) (m, [])).1
        (got_entries (u32 (got_end + base)) turns (u32 (got_start + base))) ↔
      ¬WrapsApart base got_start got_end m) := by
  have hend := u32_lt (got_end + base)
  have halign : u32 (got_start + base) % 4 = u32 (got_end + base) % 4 := by
    unfold u32
    omega
  constructor
  · rw [set_got_table_eq, set_got_table_eq, got_entries_eq hend halign hturns,
      got_entries_eq hend halign (Nat.le_refl _)]
  by_cases hwrap : 2 ^ 32 ≤ got_start + base ↔ 2 ^ 32 ≤ got_end + base
  · apply iff_of_true (relocates_together m hb hs he hs4 he4 hwrap hturns)
    rintro (⟨-, h1, h2⟩ | ⟨h1, h2, -⟩)
    · omega
    · omega
  rw [set_got_table_eq, got_entries_eq hend halign hturns]
  rcases Nat.lt_or_ge (got_start + base) (2 ^ 32) with hlow | hhigh
  · -- The end alone wraps, to an address not above the start.
    have hn : (u32 (got_end + base) - u32 (got_start + base)) / 4 = 0 := by
      unfold u32
      omega
    rw [hn]
    have hpos : 0 < base := by omega
    have hsame : ∀ off, moved base (m.load 4 (u32 (off + base))) = m.load 4 (u32 (off + base)) ↔
        m.load 4 (u32 (off + base)) = 0 := fun off => moved_eq_self hb hpos
    constructor
    · rintro ⟨hwords, -, -⟩ (⟨-, -, h2⟩ | ⟨-, -, off, h1, h2, h4, hne⟩)
      · omega
      · exact hne ((hsame off).1 (hwords off h1 h2 h4).symm)
    · intro hno
      refine ⟨fun off h1 h2 h4 => ((hsame off).2 ?_).symm, fun x _ => rfl, fun _ => rfl⟩
      by_contra hne
      exact hno (.inr ⟨hlow, by omega, off, h1, h2, h4, hne⟩)
  · -- The start alone wraps, to an address below the end: the loop runs on an empty table.
    have hn : 0 < (u32 (got_end + base) - u32 (got_start + base)) / 4 := by
      unfold u32
      omega
    refine iff_of_false (fun hrel => ?_) (not_not.2 (.inl ⟨by omega, by omega, hhigh⟩))
    have hnil := congrArg List.length (hrel.empty (by omega))
    rw [List.length_map, List.length_range, List.length_nil] at hnil
    omega

/-- A table of one entry behind a header. -/
theorem got_relocated_entry : Relocates 0x20001000 36 40 (fun _ => 1)
    (set_got_table 0x20001000 (u32 (40 + 0x20001000)) (2 ^ 30) (u32 (36 + 0x20001000)) (fun _ => 1, [])).1
    (got_entries (u32 (40 + 0x20001000)) (2 ^ 30) (u32 (36 + 0x20001000))) := by
  refine (got_relocated (fun _ => 1) (by decide) (by decide) (by decide) (by decide) (by decide) (Nat.le_refl _)).2.2 ?_
  rintro (⟨h, -⟩ | ⟨-, h, -⟩)
  · exact absurd h (by decide)
  · exact absurd h (by decide)

/-- A header with `got_end` 0 and a high `got_start` sends the loop over the memory
below the image. A table at the end of the address space is skipped. -/
theorem wrapped_table_misread :
    (∀ m turns, 2 ^ 30 ≤ turns → ¬Relocates 0x20001000 0xF0000000 0 m
      (set_got_table 0x20001000 (u32 (0 + 0x20001000)) turns (u32 (0xF0000000 + 0x20001000)) (m, [])).1
      (got_entries (u32 (0 + 0x20001000)) turns (u32 (0xF0000000 + 0x20001000)))) ∧
    ∀ turns, 2 ^ 30 ≤ turns → ¬Relocates 0xFFFFF000 0xFF8 0x1008 (fun _ => 1)
      (set_got_table 0xFFFFF000 (u32 (0x1008 + 0xFFFFF000)) turns (u32 (0xFF8 + 0xFFFFF000)) ((fun _ => 1), [])).1
      (got_entries (u32 (0x1008 + 0xFFFFF000)) turns (u32 (0xFF8 + 0xFFFFF000))) := by
  constructor
  · intro m turns hturns hrel
    have hempty := hrel.empty (by decide)
    rw [got_entries_eq (by decide) (by decide) hturns] at hempty
    exact absurd (congrArg List.length hempty) (by rw [List.length_map, List.length_range]; decide)
  · intro turns hturns hrel
    have hword := hrel.words 0xFF8 (by decide) (by decide) (by decide)
    rw [set_got_table_eq, got_entries_eq (by decide) (by decide) hturns] at hword
    exact absurd hword (by decide)

end Table

end McLinOS.Loader
