import McLinOS.Block.Partition
import McLinOS.CLib.Loop
import Mathlib.Data.Multiset.Basic
/-!
# Making an MBR partition

The table read back from the sector, tidying it up, and when the new partition
is a sound one.
-/
open CLib

namespace McLinOS.Block

/-! ## The sector -/

section Sector
variable {m : Mem} {a b : Nat} {e : mbr_partition}

theorem ofNat_load_store (m : Mem) (a : Nat) (v : UInt32) :
    UInt32.ofNat (Mem.load 4 (Mem.store 4 m a v.toNat) a) = v := by
  have hv : v.toNat < 256 ^ 4 := v.toNat_lt
  rw [Mem.load_store_same, Nat.mod_eq_of_lt hv, UInt32.ofNat_toNat]

theorem mbr_load_store (m : Mem) (a : Nat) (e : mbr_partition) : mbr_partition.load (e.store m a) a = e := by
  have hword : Mem.load 4 (e.store m a) (a + 8) =
      Mem.load 4 (Mem.store 4 (Mem.copy m a [e.boot_ind, e.start_head, e.start_sector, e.start_cyl, e.sys_ind,
        e.end_head, e.end_sector, e.end_cyl]) (a + 8) e.start_lba.toNat) (a + 8) := Mem.load_store_ne (by omega)
  have hbyte : ∀ i < 8, e.store m a (a + i) = [e.boot_ind, e.start_head, e.start_sector, e.start_cyl, e.sys_ind,
      e.end_head, e.end_sector, e.end_cyl].getD i 0 := by
    intro i hi
    have hin : a ≤ a + i ∧ a + i < a + 8 := by omega
    rw [mbr_partition.store, Mem.store_apply_ne (by omega), Mem.store_apply_ne (by omega)]
    exact (if_pos hin).trans (by rw [Nat.add_sub_cancel_left])
  have h0 := hbyte 0 (by omega)
  rw [Nat.add_zero] at h0
  rw [mbr_partition.load, hword, ofNat_load_store, h0, hbyte 1 (by omega), hbyte 2 (by omega), hbyte 3 (by omega),
    hbyte 4 (by omega), hbyte 5 (by omega), hbyte 6 (by omega), hbyte 7 (by omega)]
  exact congrArg _ (ofNat_load_store _ _ _)

theorem mbr_load_congr {m' : Mem} (h : ∀ x, a ≤ x → x < a + 16 → m' x = m x) :
    mbr_partition.load m' a = mbr_partition.load m a := by
  rw [mbr_partition.load, mbr_partition.load, Mem.load_congr fun x h1 h2 => h x (by omega) (by omega),
    Mem.load_congr (a := a + 12) fun x h1 h2 => h x (by omega) (by omega)]
  simp [h]

theorem mbr_store_apply_ne {x : Nat} (h : x < a ∨ a + 16 ≤ x) : e.store m a x = m x := by
  rw [mbr_partition.store, Mem.store_apply_ne (by omega), Mem.store_apply_ne (by omega), Mem.copy, if_neg]
  simp only [List.length_cons, List.length_nil]
  omega

/-- The four entries read back from a sector that was written. -/
theorem table_update {disk data : Mem} {t : partition} {i : Nat} (hi : i < 4) :
    table (Mem.copy disk 0 (Mem.bytes (update_sector data t) 0 512)) i = t i := by
  have hsector : table (Mem.copy disk 0 (Mem.bytes (update_sector data t) 0 512)) i = table (update_sector data t) i := by
    refine mbr_load_congr fun x h1 h2 => ?_
    rw [Mem.copy, Mem.length_bytes, if_pos (by omega), Mem.getD_bytes (by omega), Nat.sub_zero, Nat.zero_add]
  -- An entry that was stored is not stored over.
  have hstored : i < 4 → mbr_partition.load
      ((List.range 4).foldl (fun data i => (t i).store data (446 + 16 * i)) data) (446 + 16 * i) = t i := by
    refine foldl_range_rec (motive := fun k data => i < k → mbr_partition.load data (446 + 16 * i) = t i) 4
      (fun h => absurd h (Nat.not_lt_zero i)) fun k _ m ih hk => ?_
    rcases Nat.lt_succ_iff_lt_or_eq.1 hk with hlt | rfl
    · rw [mbr_load_congr fun x h1 h2 => mbr_store_apply_ne (by omega), ih hlt]
    · exact mbr_load_store _ _ _
  rw [hsector, table, update_sector, ← hstored hi]
  refine mbr_load_congr fun x h1 h2 => ?_
  rw [Mem.set_ne (by omega), Mem.set_ne (by omega)]

end Sector

/-! ## Tidying up -/

section Tidy
variable {t : partition} {e : mbr_partition} {n : Nat}

theorem check_empty_iff : check_empty_MBR_Table t n = true ↔ t n = .empty := by
  simp [check_empty_MBR_Table]

theorem entries_eq (t : partition) : entries t = [t 0, t 1, t 2, t 3].filter (· ≠ .empty) := rfl

theorem entries_congr {t' : partition} (h : ∀ i < 4, t' i = t i) : entries t' = entries t := by
  rw [entries_eq, entries_eq, h 0 (by omega), h 1 (by omega), h 2 (by omega), h 3 (by omega)]

/-- An entry moved into the free slot before it. -/
theorem entries_move {k : Nat} (hk : k < 3) (hfree : t k = .empty) : entries (move_MBR_Table t (k + 1) k) = entries t := by
  rw [entries_eq, entries_eq]
  obtain rfl | rfl | rfl : k = 0 ∨ k = 1 ∨ k = 2 := by omega
  all_goals simp [move_MBR_Table, hfree, List.filter_cons]

/-- The slots hold the entries of `t`, and `state` says which are in use. -/
def Tidied (t : partition) (p : partition × (Nat → Bool)) : Prop :=
  entries p.1 = entries t ∧ ∀ i, p.2 i = !check_empty_MBR_Table p.1 i

theorem tidy_up_step_tidied {p : partition × (Nat → Bool)} {k : Nat} (hk : k < 3) (h : Tidied t p) :
    Tidied t (tidy_up_step p k) := by
  obtain ⟨hentries, hstate⟩ := h
  unfold tidy_up_step
  split
  · rename_i hmove
    have hfree : p.1 k = .empty := by
      rw [← check_empty_iff]
      simpa [hstate k] using hmove.1
    have hused : check_empty_MBR_Table p.1 (k + 1) = false := by simpa [hstate (k + 1)] using hmove.2
    refine ⟨(entries_move hk hfree).trans hentries, fun i => ?_⟩
    by_cases h1 : i = k + 1
    · subst h1
      simp [move_MBR_Table, check_empty_MBR_Table]
    · by_cases h2 : i = k
      · subst h2
        simpa [move_MBR_Table, check_empty_MBR_Table] using hused
      · simp [move_MBR_Table, check_empty_MBR_Table, h1, h2, hstate i]
  · exact ⟨hentries, hstate⟩

theorem entries_tidy_up (t : partition) : entries (tidy_up_MBR_Table t) = entries t := by
  have hpass : ∀ p, Tidied t p → ∀ j ∈ List.range 3, Tidied t (tidy_up_pass p j) := fun p hp _ _ =>
    List.foldlRecOn _ _ hp fun q hq k hk => tidy_up_step_tidied (List.mem_range.1 hk) hq
  exact (List.foldlRecOn (motive := Tidied t) _ _ ⟨rfl, fun _ => rfl⟩ hpass).1

/-- An entry put into a free slot. -/
theorem entries_update (hn : n < 4) (hfree : t n = .empty) (he : e ≠ .empty) :
    (entries (Function.update t n e)).Perm (e :: entries t) := by
  rw [entries_eq, entries_eq]
  obtain rfl | rfl | rfl | rfl : n = 0 ∨ n = 1 ∨ n = 2 ∨ n = 3 := by omega
  all_goals simp only [Function.update_apply, hfree, List.filter_cons]
  all_goals grind

end Tidy

/-! ## The free range -/

/-- The sector the new partition begins at, when slot `n` is the first free one:
behind the entry of the slot before it. -/
def first_sector (t : partition) (n : Nat) : Nat :=
  if n = 0 then 2048 else ((t (n - 1)).start_lba.toNat + (t (n - 1)).nr_sectors.toNat + 7) / 8 * 8

/-- The sector it has to end before: what is found in `device` for the slot
behind, or the 34 last sectors of the disk. -/
def limit_sector (device : Mem) (n : Nat) : Nat :=
  let stray := as_partition device (n + 1)
  if n < 3 ∧ stray ≠ .empty ∧ stray.start_lba ≠ INVALID_PARTITION then stray.start_lba.toNat
  else (bd_nr_sectors device).toNat - 34

section Range
variable {device : Mem} {t : partition} {n : Nat} {N : Nat}

theorem align_up {x : UInt32} (h : x.toNat + 8 ≤ 2 ^ 32) :
    (if x % 8 > 0 then x - x % 8 + 8 else x).toNat = (x.toNat + 7) / 8 * 8 := by
  have h8 : (x % 8).toNat = x.toNat % 8 := by simp
  have hgt : x % 8 > 0 ↔ 0 < x.toNat % 8 := by rw [gt_iff_lt, UInt32.lt_iff_toNat_lt, h8, UInt32.toNat_zero]
  by_cases h0 : 0 < x.toNat % 8
  · have hsub : (x - x % 8).toNat = x.toNat - x.toNat % 8 := by
      rw [UInt32.toNat_sub_of_le _ _ (UInt32.le_iff_toNat_le.2 (h8 ▸ Nat.mod_le _ _)), h8]
    have h8 : (8 : UInt32).toNat = 8 := rfl
    rw [if_pos (hgt.2 h0), UInt32.toNat_add, hsub, h8]
    omega
  · rw [if_neg (mt hgt.1 h0)]
    omega

theorem end_of_disk {N : UInt32} (h : 34 ≤ N.toNat) : (N - 33 - 1).toNat = N.toNat - 34 := by
  have h33 : (N - 33).toNat = N.toNat - 33 := UInt32.toNat_sub_of_le _ _ (UInt32.le_iff_toNat_le.2 (by simp; omega))
  rw [UInt32.toNat_sub_of_le _ _ (UInt32.le_iff_toNat_le.2 (by rw [h33]; simp; omega)), h33, UInt32.toNat_one]
  omega

theorem get_empty_some (h : get_empty_MBR_Table t = some n) :
    n < 4 ∧ t n = .empty ∧ ∀ i < n, t i ≠ .empty := by
  obtain ⟨hfree, hn, hused⟩ := List.find?_range_eq_some.1 h
  refine ⟨List.mem_range.1 hn, check_empty_iff.1 hfree, fun i hi hempty => ?_⟩
  have hno := hused i hi
  rw [check_empty_iff.2 hempty] at hno
  exact absurd hno (by decide)

theorem mem_entries {i : Nat} (hi : i < 4) (h : t i ≠ .empty) : t i ∈ entries t :=
  List.mem_filter.2 ⟨List.mem_map_of_mem (List.mem_range.2 hi), by simpa using h⟩

theorem get_start_address {i : Nat} (hi : i < 4) :
    get_mbr_partition_start_address t i = if t i = .empty then INVALID_PARTITION else (t i).start_lba := by
  have hrange : ¬((i : Int) < 0 ∨ (i : Int) > 3) := by omega
  rw [get_mbr_partition_start_address, if_neg hrange, Int.toNat_natCast]
  simp only [check_empty_iff]

theorem get_size {i : Nat} (hi : i < 4) (h : t i ≠ .empty) : get_mbr_partition_size t i = (t i).nr_sectors := by
  have hrange : ¬((i : Int) < 0 ∨ (i : Int) > 3) := by omega
  rw [get_mbr_partition_size, if_neg hrange, Int.toNat_natCast, if_neg (mt check_empty_iff.1 h)]

/-- The free range of a sound table. -/
theorem free_range_eq (hsound : Sound (bd_nr_sectors device).toNat t) (h : get_empty_MBR_Table t = some n) :
    (n = 0 ∧ (bd_nr_sectors device).toNat < 2048 ∧ free_range device t n = none) ∨
      ¬(n = 0 ∧ (bd_nr_sectors device).toNat < 2048) ∧ 34 ≤ (bd_nr_sectors device).toNat ∧
        ∃ s e, free_range device t n = some (s, e) ∧ s.toNat = first_sector t n ∧ e.toNat = limit_sector device n := by
  obtain ⟨hn, -, hused⟩ := get_empty_some h
  have hN := (bd_nr_sectors device).toNat_lt
  have h2048 : bd_nr_sectors device < 2048 ↔ (bd_nr_sectors device).toNat < 2048 := UInt32.lt_iff_toNat_lt
  have hlimit : 34 ≤ (bd_nr_sectors device).toNat → ∀ e,
      e = (if (n : Int) + 1 < 4 then get_mbr_partition_start_address (as_partition device) (n + 1) else INVALID_PARTITION) →
      (if e = INVALID_PARTITION then bd_nr_sectors device - 33 - 1 else e).toNat = limit_sector device n := by
    rintro h34 e rfl
    unfold limit_sector
    by_cases hlast : n < 3
    · have hlt : n + 1 < 4 := by omega
      have hlt' : (n : Int) + 1 < 4 := by omega
      have hcast : (n : Int) + 1 = (n + 1 : Nat) := by omega
      rw [if_pos hlt', hcast, get_start_address hlt]
      by_cases hempty : as_partition device (n + 1) = .empty
      · rw [if_pos hempty, if_pos rfl, if_neg fun h => h.2.1 hempty, end_of_disk h34]
      · rw [if_neg hempty]
        by_cases hinv : (as_partition device (n + 1)).start_lba = INVALID_PARTITION
        · rw [if_pos hinv, if_neg fun h => h.2.2 hinv, end_of_disk h34]
        · rw [if_neg hinv, if_pos ⟨hlast, hempty, hinv⟩]
    · have hlt : ¬(n : Int) + 1 < 4 := by omega
      rw [if_neg hlt, if_pos rfl, if_neg fun h => hlast h.1, end_of_disk h34]
  unfold free_range
  rcases Nat.eq_zero_or_pos n with rfl | hpos
  · have hfirst : ¬((0 : Nat) : Int) - 1 ≥ 0 := by omega
    simp only [if_neg hfirst, true_and]
    by_cases hsmall : (bd_nr_sectors device).toNat < 2048
    · exact .inl ⟨hsmall, if_pos (h2048.2 hsmall)⟩
    · have h34 : 34 ≤ (bd_nr_sectors device).toNat := by omega
      exact .inr ⟨hsmall, h34, _, _, if_neg (mt h2048.1 hsmall), by simp [first_sector], hlimit h34 _ rfl⟩
  · obtain ⟨i, rfl⟩ : ∃ i, n = i + 1 := ⟨n - 1, by omega⟩
    have hi : i < 4 := by omega
    have hprev : (((i + 1 : Nat) : Int) - 1) = (i : Nat) := by omega
    have hge : ((i : Nat) : Int) ≥ 0 := by omega
    have huse := hused i (by omega)
    obtain ⟨h1, hin⟩ := hsound.1 _ (mem_entries hi huse)
    have hvalid : (t i).start_lba ≠ INVALID_PARTITION := by
      intro heq
      rw [heq] at hin
      have : INVALID_PARTITION.toNat = 2 ^ 32 - 1 := rfl
      omega
    have hsum : ((t i).start_lba + (t i).nr_sectors).toNat = (t i).start_lba.toNat + (t i).nr_sectors.toNat := by
      rw [UInt32.toNat_add]
      omega
    have h34 : 34 ≤ (bd_nr_sectors device).toNat := by omega
    simp only [hprev, if_pos hge, get_start_address hi, if_neg huse, get_size hi huse, hvalid, false_and, if_false]
    refine .inr ⟨by omega, h34, _, _, rfl, ?_, hlimit h34 _ rfl⟩
    rw [align_up (by omega), hsum, first_sector, if_neg (by omega)]
    rfl

/-- The size the new partition gets, for a request of `S` sectors. -/
theorem cut_size {s e S : UInt32} (h : ¬e < s) :
    (if e ≤ s + S then e - s else S).toNat =
      if s.toNat + S.toNat < 2 ^ 32 then min S.toNat (e.toNat - s.toNat) else S.toNat := by
  have hle : s.toNat ≤ e.toNat := Nat.not_lt.1 (mt UInt32.lt_iff_toNat_lt.2 h)
  have hsub : (e - s).toNat = e.toNat - s.toNat := UInt32.toNat_sub_of_le _ _ (UInt32.le_iff_toNat_le.2 hle)
  have hS := S.toNat_lt
  have hs := s.toNat_lt
  simp only [UInt32.le_iff_toNat_le, UInt32.toNat_add]
  by_cases hwrap : s.toNat + S.toNat < 2 ^ 32
  · rw [if_pos hwrap, Nat.mod_eq_of_lt hwrap]
    split
    · rw [hsub]
      omega
    · omega
  · have hno : ¬e.toNat ≤ (s.toNat + S.toNat) % 2 ^ 32 := by omega
    rw [if_neg hwrap, if_neg hno]

theorem apart_iff {a b : mbr_partition} : a.Apart b ↔ a.nr_sectors.toNat = 0 ∨ b.nr_sectors.toNat = 0 ∨
    a.start_lba.toNat + a.nr_sectors.toNat ≤ b.start_lba.toNat ∨
    b.start_lba.toNat + b.nr_sectors.toNat ≤ a.start_lba.toNat := by
  constructor
  · intro h
    have h := h (max a.start_lba.toNat b.start_lba.toNat)
    omega
  · intro h x
    omega

end Range

/-! ## Formatting -/

/-- What a call that returns `r` has to do: add a sound entry, or leave the disk
as it was. -/
def Formats (nr_sectors size : Nat) (disk : Mem) (r : Int × Mem) : Prop :=
  (r.1 = 0 → ∃ e, Added nr_sectors size (table disk) (table r.2) e) ∧ (r.1 ≠ 0 → r.2 = disk)

/-- No partition is made, or the update works and the sectors of the new one are
free. -/
def good_format (env : Env) (device disk : Mem) (size : UInt32) : Prop :=
  env.load_kmalloc = false ∨ env.load_transfer = false ∨
    match get_empty_MBR_Table (table disk) with
    | none => True
    | some n =>
      let nr_sectors := (bd_nr_sectors device).toNat
      let first := first_sector (table disk) n
      let limit := limit_sector device n
      let last := first + size.toNat / 8 * 8
      (n = 0 ∧ nr_sectors < 2048) ∨ limit < first ∨ size.toNat < 8 ∨ (limit = first ∧ last < 2 ^ 32) ∨
        (env.update_kmalloc.isSome ∧ env.update_transfer = true ∧ 2048 ≤ first ∧ last < 2 ^ 32 ∧
          min last limit + 33 ≤ nr_sectors ∧ ∀ o ∈ entries (table disk), o.nr_sectors.toNat = 0 ∨
            o.start_lba.toNat + o.nr_sectors.toNat ≤ first ∨ min last limit ≤ o.start_lba.toNat)

section Format
variable {env : Env} {device disk : Mem} {size : UInt32} {type : UInt8} {n : Nat}

theorem create_start (s c : UInt32) : (MBR_partition_table_create 0 s c type).start_lba = s := rfl

theorem create_size (s c : UInt32) : (MBR_partition_table_create 0 s c type).nr_sectors = c := rfl

theorem create_ne_empty (type : UInt8) (s c : UInt32) : MBR_partition_table_create 0 s c type ≠ .empty := fun h => by
  have hhead := congrArg mbr_partition.start_head h
  exact absurd hhead (by decide : (0x20 : UInt8) ≠ 0)

theorem update_cases (env : Env) (disk : Mem) (t : partition) :
    (¬(env.update_kmalloc.isSome ∧ env.update_transfer = true) ∧ (mbr_partition_table_update env disk t).2 = disk) ∨
      ∃ data, env.update_kmalloc = some data ∧ env.update_transfer = true ∧
        (mbr_partition_table_update env disk t).2 = Mem.copy disk 0 (Mem.bytes (update_sector data t) 0 512) := by
  unfold mbr_partition_table_update
  cases hk : env.update_kmalloc with
  | none => exact .inl ⟨fun h => absurd h.1 (by simp), rfl⟩
  | some data =>
    cases ht : env.update_transfer with
    | false => exact .inl ⟨fun h => absurd h.2 (by simp), rfl⟩
    | true =>
      refine .inr ⟨data, rfl, rfl, ?_⟩
      simp only [Bool.true_eq_false, if_false]

/-- A call that writes the table. -/
theorem written_iff {N z : Nat} {s c : UInt32} (hfree : get_empty_MBR_Table (table disk) = some n) :
    (∃ e, Added N z (table disk) (table (mbr_partition_table_update env disk
      (tidy_up_MBR_Table (Function.update (table disk) n (MBR_partition_table_create 0 s c type)))).2) e) ↔
      env.update_kmalloc.isSome ∧ env.update_transfer = true ∧ s.toNat % 8 = 0 ∧ 2048 ≤ s.toNat ∧ 0 < c.toNat ∧
        c.toNat ≤ z / 8 * 8 ∧ (∀ o ∈ entries (table disk), (MBR_partition_table_create 0 s c type).Apart o) ∧
        (MBR_partition_table_create 0 s c type).Inside N := by
  obtain ⟨hn, hempty, -⟩ := get_empty_some hfree
  have hsame : ¬∃ e, (entries (table disk)).Perm (e :: entries (table disk)) := by
    rintro ⟨e, h⟩
    have hlen := h.length_eq
    rw [List.length_cons] at hlen
    omega
  rcases update_cases env disk (tidy_up_MBR_Table
    (Function.update (table disk) n (MBR_partition_table_create 0 s c type))) with ⟨hfail, hdisk⟩ | ⟨data, hk, ht, hdisk⟩
  · rw [hdisk]
    exact ⟨fun ⟨e, h⟩ => absurd ⟨e, h.entries⟩ hsame, fun h => absurd ⟨h.1, h.2.1⟩ hfail⟩
  · rw [hdisk, hk, ht]
    have hnew : (entries (table (Mem.copy disk 0 (Mem.bytes (update_sector data (tidy_up_MBR_Table
        (Function.update (table disk) n (MBR_partition_table_create 0 s c type)))) 0 512)))).Perm
        (MBR_partition_table_create 0 s c type :: entries (table disk)) := by
      rw [entries_congr fun i hi => table_update hi, entries_tidy_up]
      exact entries_update hn hempty (create_ne_empty type s c)
    constructor
    · rintro ⟨e, h⟩
      -- The entry added can only be the one made.
      obtain rfl : MBR_partition_table_create 0 s c type = e := by
        have hcons := Multiset.coe_eq_coe.2 (hnew.symm.trans h.entries)
        rw [← Multiset.cons_coe, ← Multiset.cons_coe] at hcons
        exact (Multiset.cons_inj_left _).1 hcons
      obtain ⟨-, h1, h2, h3, h4, h5, h6⟩ := h
      rw [create_start] at h1 h2
      rw [create_size] at h3 h4
      exact ⟨rfl, rfl, h1, h2, h3, h4, h5, h6⟩
    · rintro ⟨-, -, h1, h2, h3, h4, h5, h6⟩
      refine ⟨_, hnew, ?_, ?_, ?_, ?_, h5, h6⟩
      · rwa [create_start]
      · rwa [create_start]
      · rwa [create_size]
      · rwa [create_size]

theorem formats_refused (N z : Nat) (disk : Mem) : Formats N z disk (-1, disk) :=
  ⟨fun h => absurd h (by simp), fun _ => rfl⟩

theorem formats_made {N z : Nat} {disk disk' : Mem} :
    Formats N z disk (0, disk') ↔ ∃ e, Added N z (table disk) (table disk') e :=
  ⟨fun h => h.1 rfl, fun h => ⟨fun _ => h, fun h => absurd rfl h⟩⟩

theorem first_sector_aligned (t : partition) (n : Nat) : first_sector t n % 8 = 0 := by
  unfold first_sector
  split
  · rfl
  · exact Nat.mul_mod_left _ _

theorem sectors_down (size : UInt32) : (size / 8 * 8).toNat = size.toNat / 8 * 8 := by
  have hdiv : (size / 8).toNat = size.toNat / 8 := by simp
  have h8 : (8 : UInt32).toNat = 8 := rfl
  have hsize := size.toNat_lt
  rw [UInt32.toNat_mul, hdiv, h8]
  omega

/-- Formatting a disk whose table is sound adds a sound entry, or leaves the disk
alone, exactly when the sectors it takes are free. -/
theorem mbr_format_sound (hsound : Sound (bd_nr_sectors device).toNat (table disk)) :
    Formats (bd_nr_sectors device).toNat size.toNat disk (mbr_partition_table_format env device disk size type) ↔
      good_format env device disk size := by
  have hN := (bd_nr_sectors device).toNat_lt
  unfold good_format mbr_partition_table_format mbr_partition_table_load
  by_cases h1 : env.load_kmalloc = false
  · rw [if_pos h1]
    exact iff_of_true (formats_refused _ _ _) (.inl h1)
  by_cases h2 : env.load_transfer = false
  · rw [if_neg h1, if_pos h2]
    exact iff_of_true (formats_refused _ _ _) (.inr (.inl h2))
  rw [if_neg h1, if_neg h2, or_iff_right h1, or_iff_right h2]
  dsimp only
  cases hempty : get_empty_MBR_Table (table disk) with
  | none => exact iff_of_true (formats_refused _ _ _) trivial
  | some n =>
    dsimp only
    rcases free_range_eq hsound hempty with ⟨h0, hsmall, hnone⟩ | ⟨hroom, h34, s, e, hrange, hs, he⟩
    · rw [hnone]
      exact iff_of_true (formats_refused _ _ _) (.inl ⟨h0, hsmall⟩)
    rw [hrange, or_iff_right hroom, ← hs, ← he]
    dsimp only
    by_cases hlt : e < s
    · rw [if_pos hlt]
      exact iff_of_true (formats_refused _ _ _) (.inl (UInt32.lt_iff_toNat_lt.1 hlt))
    have hle : ¬e.toNat < s.toNat := mt UInt32.lt_iff_toNat_lt.2 hlt
    have hcut := cut_size (S := size / 8 * 8) hlt
    rw [if_neg hlt, or_iff_right hle]
    generalize (if e ≤ s + size / 8 * 8 then e - s else size / 8 * 8) = c at hcut ⊢
    rw [sectors_down] at hcut
    by_cases hzero : c = 0
    · rw [if_pos hzero]
      apply iff_of_true (formats_refused _ _ _)
      rw [hzero, UInt32.toNat_zero] at hcut
      split at hcut <;> omega
    · have hpos : 0 < c.toNat := Nat.pos_of_ne_zero fun h => hzero (UInt32.toNat_inj.1 h)
      have hal : s.toNat % 8 = 0 := by rw [hs, first_sector_aligned]
      rw [if_neg hzero, formats_made, written_iff hempty]
      by_cases hwrap : s.toNat + size.toNat / 8 * 8 < 2 ^ 32
      · rw [if_pos hwrap] at hcut
        have hmade : ¬size.toNat < 8 := by omega
        have hmore : ¬(e.toNat = s.toNat ∧ s.toNat + size.toNat / 8 * 8 < 2 ^ 32) := by omega
        have hlast : s.toNat + c.toNat = min (s.toNat + size.toNat / 8 * 8) e.toNat := by omega
        rw [or_iff_right hmade, or_iff_right hmore, ← hlast]
        unfold mbr_partition.Inside
        simp only [apart_iff, create_start, create_size]
        constructor
        · rintro ⟨hk, ht, -, h2048, -, -, hapart, -, hin⟩
          refine ⟨hk, ht, h2048, hwrap, hin, fun o ho => ?_⟩
          have := hapart o ho
          omega
        · rintro ⟨hk, ht, h2048, -, hin, hfree⟩
          refine ⟨hk, ht, hal, h2048, hpos, by omega, fun o ho => ?_, by omega, hin⟩
          have := hfree o ho
          omega
      · -- A sum that wraps is behind the end of the disk.
        rw [if_neg hwrap] at hcut
        refine iff_of_false ?_ ?_
        · rintro ⟨-, -, -, -, -, -, -, -, hin⟩
          rw [create_start, create_size, hcut] at hin
          omega
        · rintro (h | ⟨-, h⟩ | ⟨-, -, -, h, -⟩)
          · omega
          · exact hwrap h
          · exact hwrap h

end Format

/-- A disk of `nr_sectors` sectors and a table of the given entries, on a machine
where nothing fails. -/
def sample_device (nr_sectors : Nat) : Mem := Mem.store 4 (fun _ => 0) 4 nr_sectors

def sample_disk (table : List mbr_partition) : Mem := update_sector (fun _ => 0) fun i => table.getD i .empty

def sample_env : Env := ⟨true, true, some fun _ => 0, true⟩

/-- A second partition behind the first. -/
theorem mbr_format_sound_second :
    let disk := sample_disk [MBR_partition_table_create 0 2048 8192 0x83]
    good_format sample_env (sample_device 20000) disk 100 ∧
      Formats 20000 100 disk (mbr_partition_table_format sample_env (sample_device 20000) disk 100 0x83) := by
  intro disk
  have hentries : entries (table disk) = [MBR_partition_table_create 0 2048 8192 0x83] := by decide +kernel
  have hsound : Sound (bd_nr_sectors (sample_device 20000)).toNat (table disk) := by
    unfold Sound
    rw [hentries]
    refine ⟨fun e he => ?_, List.pairwise_singleton _ _⟩
    obtain rfl := List.mem_singleton.1 he
    exact ⟨by decide +kernel, by decide +kernel⟩
  have hempty : get_empty_MBR_Table (table disk) = some 1 := by decide +kernel
  have hgood : good_format sample_env (sample_device 20000) disk 100 := by
    unfold good_format
    rw [hempty]
    refine .inr (.inr (.inr (.inr (.inr (.inr ⟨rfl, rfl, ?_⟩)))))
    rw [hentries]
    decide +kernel
  exact ⟨hgood, (mbr_format_sound hsound).2 hgood⟩

/-- Entries out of order: the new partition runs over the one in slot 0. -/
theorem mbr_format_unsound : ¬∀ (env : Env) (device disk : Mem) (size : UInt32) (type : UInt8),
    Sound (bd_nr_sectors device).toNat (table disk) →
      Formats (bd_nr_sectors device).toNat size.toNat disk (mbr_partition_table_format env device disk size type) := by
  intro h
  let a := MBR_partition_table_create 0 10000 8 0x83
  let b := MBR_partition_table_create 0 2048 8 0x83
  let c := MBR_partition_table_create 0 2056 16000 0x83
  let disk := sample_disk [a, b]
  have hentries : entries (table disk) = [a, b] := by decide +kernel
  have hsound : Sound (bd_nr_sectors (sample_device 20000)).toNat (table disk) := by
    unfold Sound
    rw [hentries]
    refine ⟨?_, List.pairwise_pair.2 fun x => ?_⟩
    · intro e he
      rcases List.mem_pair.1 he with rfl | rfl
      · exact ⟨by decide +kernel, by decide +kernel⟩
      · exact ⟨by decide +kernel, by decide +kernel⟩
    · have ha : a.start_lba.toNat = 10000 ∧ a.nr_sectors.toNat = 8 := by decide
      have hb : b.start_lba.toNat = 2048 ∧ b.nr_sectors.toNat = 8 := by decide
      omega
  have hzero : (mbr_partition_table_format sample_env (sample_device 20000) disk 16000 0x83).1 = 0 := by decide +kernel
  have hnew : c ∈ entries (table (mbr_partition_table_format sample_env (sample_device 20000) disk 16000 0x83).2) := by
    decide +kernel
  obtain ⟨e, he⟩ := (h sample_env (sample_device 20000) disk 16000 0x83 hsound).1 hzero
  rw [he.entries.mem_iff, List.mem_cons, hentries] at hnew
  rcases hnew with rfl | hold
  · exact he.apart a (by rw [hentries]; exact List.mem_cons_self) 10000 (by decide)
  · exact absurd hold (by decide)

end McLinOS.Block
