import McLinOS.Block.PartitionFormat
/-!
# Rewriting the first sector

`mbr_partition_table_update` and the two functions that end in it, `mbr_table_delete`
and `mbr_partition_table_format`: what a load reads afterwards and what is left of
the rest of the sector.
-/
open CLib

namespace McLinOS.Block

inductive block_device_flags_t
  | BLOCK_DEVICE_FLAG_NOT_INITIALIZED
  | BLOCK_DEVICE_FLAG_MBR
  | BLOCK_DEVICE_FLAG_GPT
  | BLOCK_DEVICE_FLAG_PROTECTIVE_MBR
  | BLOCK_DEVICE_FLAG_BROKEN_MBR
  | BLOCK_DEVICE_FLAG_BROKEN_GPT
  | BLOCK_DEVICE_FLAG_BROKEN_PROTECTIVE_MBR
  deriving DecidableEq, Repr

/-- What the function returns, the caller's table and the disk behind it. The
result of the update is not looked at. -/
def mbr_table_delete (env : Env) (disk : Mem) (partition : partition) (number : Int) (flags : block_device_flags_t) :
    Int × Block.partition × Mem :=
  if flags ≠ .BLOCK_DEVICE_FLAG_MBR ∧ flags ≠ .BLOCK_DEVICE_FLAG_PROTECTIVE_MBR then (-1, partition, disk)
  else if number < 0 ∨ number > 3 then (-1, partition, disk)
  else
    match mbr_partition_table_load env disk with
    | none => (-1, partition, disk)
    | some partition =>
      if check_empty_MBR_Table partition number.toNat then (-1, partition, disk)
      else
        let partition := tidy_up_MBR_Table (Function.update partition number.toNat .empty)
        (0, partition, (mbr_partition_table_update env disk partition).2)

/-! ## Packing -/

section Pack
variable {t : partition} {j k : Nat}

/-- Slot `l` is free when one before it is: so for the last `j` slots, and for
the one the pass has come to. -/
def Packing (j k : Nat) (t : partition) : Prop :=
  ∀ i l, i < l → l < 4 → 4 ≤ l + j ∨ l = min k (3 - j) → t i = .empty → t l = .empty

theorem tidy_up_step_eq {p : partition × (Nat → Bool)} (h : Tidied t p) :
    (tidy_up_step p k).1 = if p.1 k = .empty ∧ p.1 (k + 1) ≠ .empty then move_MBR_Table p.1 (k + 1) k else p.1 := by
  have hstate : p.2 k = false ∧ p.2 (k + 1) = true ↔ p.1 k = .empty ∧ p.1 (k + 1) ≠ .empty := by
    simp [h.2, check_empty_MBR_Table]
  unfold tidy_up_step
  by_cases hmove : p.1 k = .empty ∧ p.1 (k + 1) ≠ .empty
  · rw [if_pos hmove, if_pos (hstate.2 hmove)]
  · rw [if_neg hmove, if_neg (mt hstate.1 hmove)]

theorem tidy_up_step_packing {p : partition × (Nat → Bool)} (hk : k < 3) (h : Tidied t p) (hp : Packing j k p.1) :
    Packing j (k + 1) (tidy_up_step p k).1 := by
  intro i l hil hl hlast hfree
  rw [tidy_up_step_eq h] at hfree ⊢
  split at hfree
  · rename_i hmove
    rw [if_pos hmove]
    by_cases hk1 : l = k + 1
    · rw [hk1, move_MBR_Table, Function.update_self]
    · -- The last `j` slots are packed, so none of them is the one that moves.
      have hsettled : ¬4 ≤ k + 1 + j := fun h4 => hmove.2 (hp k (k + 1) (by omega) (by omega) (.inl h4) hmove.1)
      have h4 : 4 ≤ l + j := by omega
      have hlk : l ≠ k := by omega
      rw [move_MBR_Table, Function.update_of_ne hk1, Function.update_of_ne hlk]
      exact hp k l (by omega) hl (.inl h4) hmove.1
  · rename_i hstay
    rw [if_neg hstay]
    by_cases h4 : 4 ≤ l + j
    · exact hp i l hil hl (.inl h4) hfree
    · by_contra hused
      -- The pass has come to slot `k + 1`, or is behind the slots it has to order.
      by_cases hmin : k + 1 ≤ 3 - j
      · obtain rfl : l = k + 1 := by omega
        rcases Nat.lt_succ_iff_lt_or_eq.1 hil with hlt | rfl
        · exact hstay ⟨hp i k hlt (by omega) (.inr (by omega)) hfree, hused⟩
        · exact hstay ⟨hfree, hused⟩
      · exact hused (hp i l hil hl (.inr (by omega)) hfree)

theorem tidy_up_pass_packing {p : partition × (Nat → Bool)} (hj : j < 3) (h : Tidied t p) (hp : Packing j 0 p.1) :
    Tidied t (tidy_up_pass p j) ∧ Packing (j + 1) 0 (tidy_up_pass p j).1 := by
  have hpass := foldl_range_rec (motive := fun k q => Tidied t q ∧ Packing j k q.1) 3 ⟨h, hp⟩
    fun k hk q hq => ⟨tidy_up_step_tidied hk hq.1, tidy_up_step_packing hk hq.1 hq.2⟩
  exact ⟨hpass.1, fun i l hil hl hlast => hpass.2 i l hil hl (by omega)⟩

theorem packed_getD (h : ∀ i l, i < l → l < 4 → t i = .empty → t l = .empty) {i : Nat} (hi : i < 4) :
    t i = (entries t).getD i .empty := by
  rw [entries_eq]
  obtain rfl | rfl | rfl | rfl : i = 0 ∨ i = 1 ∨ i = 2 ∨ i = 3 := by omega
  all_goals
    by_cases h0 : t 0 = .empty
    · simp [h0, h 0 1 (by omega) (by omega) h0, h 0 2 (by omega) (by omega) h0,
        h 0 3 (by omega) (by omega) h0]
    by_cases h1 : t 1 = .empty
    · simp [h0, h1, h 1 2 (by omega) (by omega) h1, h 1 3 (by omega) (by omega) h1]
    by_cases h2 : t 2 = .empty
    · simp [h0, h1, h2, h 2 3 (by omega) (by omega) h2]
    by_cases h3 : t 3 = .empty
    · simp [h0, h1, h2, h3]
    · simp [h0, h1, h2, h3]

/-- The entries in use are moved to the front. -/
theorem tidy_up_packed (t : partition) {i : Nat} (hi : i < 4) : tidy_up_MBR_Table t i = (entries t).getD i .empty := by
  have hstart : Tidied t (t, fun i => !check_empty_MBR_Table t i) ∧ Packing 0 0 t :=
    ⟨⟨rfl, fun _ => rfl⟩, fun i l hil hl hlast => by omega⟩
  have hrun := foldl_range_rec (motive := fun j q => Tidied t q ∧ Packing j 0 q.1) 3 hstart
    fun j hj q hq => tidy_up_pass_packing hj hq.1 hq.2
  rw [← entries_tidy_up t]
  exact packed_getD (fun i l hil hl => hrun.2 i l hil hl (.inl (by omega))) hi

/-- The entries in use but for slot `n`'s, in slot order. -/
def others (t : partition) (n : Nat) : List mbr_partition :=
  (((List.range 4).filter (· ≠ n)).map t).filter (· ≠ .empty)

theorem entries_clear (t : partition) {n : Nat} (hn : n < 4) : entries (Function.update t n .empty) = others t n := by
  have hrange : List.range 4 = [0, 1, 2, 3] := rfl
  rw [entries_eq, others, hrange]
  obtain rfl | rfl | rfl | rfl : n = 0 ∨ n = 1 ∨ n = 2 ∨ n = 3 := by omega
  all_goals simp [List.filter_cons]

theorem tidy_up_cleared (t : partition) {n i : Nat} (hn : n < 4) (hi : i < 4) :
    tidy_up_MBR_Table (Function.update t n .empty) i = (others t n).getD i .empty := by
  rw [tidy_up_packed _ hi, entries_clear t hn]

end Pack

/-! ## The sector -/

/-- A load of the signed sector gives `t`. -/
structure Holds (disk : Mem) (t : partition) : Prop where
  loaded : ∀ env : Env, env.load_kmalloc = true → env.load_transfer = true →
    ∃ t', mbr_partition_table_load env disk = some t' ∧ ∀ i < 4, t' i = t i
  signature : disk 0x01FE = 0x55 ∧ disk 0x01FF = 0xAA

/-- The rest of the sector is as it was. -/
structure Rewritten (disk disk' : Mem) (t : partition) : Prop extends Holds disk' t where
  kept : ∀ x < 446, disk' x = disk x

def write_issued (env : Env) : Prop := env.update_kmalloc.isSome ∧ env.update_transfer = true

/-- The sector is written, and the block of the second `kmalloc` holds the bytes
before the table already. -/
def keeps_boot (env : Env) (disk : Mem) : Prop :=
  ∃ data, env.update_kmalloc = some data ∧ env.update_transfer = true ∧ ∀ x < 446, data x = disk x

section Sector
variable {env : Env} {disk data : Mem} {t : partition}

theorem load_table (hk : env.load_kmalloc = true) (ht : env.load_transfer = true) :
    mbr_partition_table_load env disk = some (table disk) := by
  rw [mbr_partition_table_load, hk, ht]
  rfl

theorem load_cases (env : Env) (disk : Mem) :
    (¬(env.load_kmalloc = true ∧ env.load_transfer = true) ∧ mbr_partition_table_load env disk = none) ∨
      env.load_kmalloc = true ∧ env.load_transfer = true ∧ mbr_partition_table_load env disk = some (table disk) := by
  cases hk : env.load_kmalloc with
  | false => exact .inl ⟨by simp, if_pos hk⟩
  | true =>
    cases ht : env.load_transfer with
    | false => exact .inl ⟨by simp, by rw [mbr_partition_table_load, hk, ht]; rfl⟩
    | true => exact .inr ⟨rfl, rfl, load_table hk ht⟩

theorem written_apply {x : Nat} (h : x < 512) :
    Mem.copy disk 0 (Mem.bytes (update_sector data t) 0 512) x = update_sector data t x := by
  rw [Mem.copy, Mem.length_bytes, if_pos (by omega), Mem.getD_bytes (by omega), Nat.sub_zero, Nat.zero_add]

theorem update_sector_boot {x : Nat} (h : x < 446) : update_sector data t x = data x := by
  rw [update_sector, Mem.set_ne (by omega), Mem.set_ne (by omega)]
  exact foldl_range_rec (motive := fun (_ : Nat) (m : Mem) => m x = data x) 4 rfl fun k hk m hm =>
    (mbr_store_apply_ne (by omega)).trans hm

/-- The write leaves the bytes of the block before the table. -/
theorem written_boot {x : Nat} (h : x < 446) :
    Mem.copy disk 0 (Mem.bytes (update_sector data t) 0 512) x = data x :=
  (written_apply (by omega)).trans (update_sector_boot h)

theorem update_issued (env : Env) (disk : Mem) (t : partition) :
    (¬write_issued env ∧ (mbr_partition_table_update env disk t).2 = disk ∧ ¬keeps_boot env disk) ∨
      write_issued env ∧ Holds (mbr_partition_table_update env disk t).2 t ∧
        ((∀ x < 446, (mbr_partition_table_update env disk t).2 x = disk x) ↔ keeps_boot env disk) := by
  unfold mbr_partition_table_update write_issued keeps_boot
  cases hk : env.update_kmalloc with
  | none => exact .inl ⟨fun h => absurd h.1 (by simp), rfl, by simp⟩
  | some data =>
    cases ht : env.update_transfer with
    | false => exact .inl ⟨fun h => absurd h.2 (by simp), rfl, by simp⟩
    | true =>
      simp only [Bool.true_eq_false, if_false]
      refine .inr ⟨⟨rfl, trivial⟩, ⟨fun env hk ht => ⟨_, load_table hk ht, fun i hi => table_update hi⟩, ?_, ?_⟩, ?_⟩
      · exact (written_apply (by omega)).trans (by rw [update_sector, Mem.set_ne (by omega), Mem.set_same])
      · exact (written_apply (by omega)).trans (by rw [update_sector, Mem.set_same])
      · refine ⟨fun h => ⟨data, rfl, trivial, fun x hx => (written_boot hx).symm.trans (h x hx)⟩, ?_⟩
        rintro ⟨_, hdata, -, h⟩ x hx
        obtain rfl := Option.some.inj hdata
        exact (written_boot hx).trans (h x hx)

end Sector

/-! ## Results -/

/-- What an update to `t` has to do. -/
structure Updates (env : Env) (disk : Mem) (t : partition) (r : Int × Mem) : Prop where
  written : write_issued env → Rewritten disk r.2 t
  unwritten : ¬write_issued env → r.2 = disk
  returned : r.1 = 0 ↔ write_issued env

/-- What a deletion of slot `number` has to do. -/
structure Deletes (disk : Mem) (number : Int) (r : Int × partition × Mem) : Prop where
  removed : r.1 = 0 → ∃ n : Nat, number = n ∧ n < 4 ∧ table disk n ≠ .empty ∧ Rewritten disk r.2.2 r.2.1 ∧
    ∀ i < 4, r.2.1 i = (others (table disk) n).getD i .empty
  refused : r.1 ≠ 0 → r.2.2 = disk

/-- What has to be left of the sector when a partition is made. -/
structure Enters (disk : Mem) (type : UInt8) (r : Int × Mem) : Prop where
  entered : r.1 = 0 → ∃ n s c, get_empty_MBR_Table (table disk) = some n ∧ Rewritten disk r.2
    (tidy_up_MBR_Table (Function.update (table disk) n (MBR_partition_table_create 0x00 s c type)))
  refused : r.1 ≠ 0 → r.2 = disk

/-- Slot `number` can be deleted. -/
def deletable (env : Env) (disk : Mem) (number : Int) (flags : block_device_flags_t) : Prop :=
  (flags = .BLOCK_DEVICE_FLAG_MBR ∨ flags = .BLOCK_DEVICE_FLAG_PROTECTIVE_MBR) ∧ 0 ≤ number ∧ number ≤ 3 ∧
    env.load_kmalloc = true ∧ env.load_transfer = true ∧ table disk number.toNat ≠ .empty

/-- There are a free slot and free sectors. -/
def creatable (env : Env) (device disk : Mem) (size : UInt32) : Prop :=
  env.load_kmalloc = true ∧ env.load_transfer = true ∧ ∃ n s e, get_empty_MBR_Table (table disk) = some n ∧
    free_range device (table disk) n = some (s, e) ∧ ¬e < s ∧
      (if e ≤ s + size / 8 * 8 then e - s else size / 8 * 8) ≠ 0

section Results
variable {env : Env} {device disk : Mem} {size : UInt32} {type : UInt8} {number : Int} {flags : block_device_flags_t}

theorem updates_iff (env : Env) (disk : Mem) (t : partition) :
    Updates env disk t (mbr_partition_table_update env disk t) ↔ env.update_kmalloc = none := by
  cases hk : env.update_kmalloc with
  | none =>
    have hno : ¬write_issued env := fun h => by simp [write_issued, hk] at h
    refine iff_of_true ⟨fun h => absurd h hno, fun _ => ?_, ?_⟩ rfl
    · rw [mbr_partition_table_update, hk]
    · rw [mbr_partition_table_update, hk]
      exact iff_of_false (by simp) hno
  | some data =>
    -- The two results are the wrong way round.
    refine iff_of_false (fun h => ?_) (by simp)
    have hreturn := h.returned
    rw [mbr_partition_table_update, write_issued, hk] at hreturn
    cases ht : env.update_transfer with
    | false => simp [ht] at hreturn
    | true => simp [ht] at hreturn

/-- What was changed in the table was written. -/
theorem rewritten_keeps {t t' : partition} (hchanged : entries t' ≠ entries (table disk))
    (h : Rewritten disk (mbr_partition_table_update env disk t).2 t') : keeps_boot env disk := by
  rcases update_issued env disk t with ⟨-, hdisk, -⟩ | ⟨-, -, hkept⟩
  · obtain ⟨t'', hload, hread⟩ := h.loaded sample_env rfl rfl
    rw [hdisk, load_table rfl rfl] at hload
    obtain rfl : table disk = t'' := Option.some.inj hload
    exact absurd (entries_congr hread).symm hchanged
  · exact hkept.1 h.kept

theorem keeps_rewritten {t : partition} (h : keeps_boot env disk) :
    Rewritten disk (mbr_partition_table_update env disk t).2 t := by
  rcases update_issued env disk t with ⟨-, -, hno⟩ | ⟨-, hholds, hkept⟩
  · exact absurd h hno
  · exact ⟨hholds, hkept.2 h⟩

theorem issued_holds {t : partition} (h : write_issued env) : Holds (mbr_partition_table_update env disk t).2 t := by
  rcases update_issued env disk t with ⟨hno, -, -⟩ | ⟨-, hholds, -⟩
  · exact absurd h hno
  · exact hholds

theorem mbr_table_delete_cases (env : Env) (disk : Mem) (t : partition) (number : Int) (flags : block_device_flags_t) :
    (¬deletable env disk number flags ∧ ∃ t', mbr_table_delete env disk t number flags = (-1, t', disk)) ∨
      ∃ n : Nat, number = n ∧ n < 4 ∧ deletable env disk number flags ∧ table disk n ≠ .empty ∧
        mbr_table_delete env disk t number flags = (0, tidy_up_MBR_Table (Function.update (table disk) n .empty),
          (mbr_partition_table_update env disk (tidy_up_MBR_Table (Function.update (table disk) n .empty))).2) := by
  unfold mbr_table_delete
  by_cases hflags : flags ≠ .BLOCK_DEVICE_FLAG_MBR ∧ flags ≠ .BLOCK_DEVICE_FLAG_PROTECTIVE_MBR
  · rw [if_pos hflags]
    exact .inl ⟨fun h => h.1.elim hflags.1 hflags.2, _, rfl⟩
  rw [if_neg hflags]
  by_cases hnumber : number < 0 ∨ number > 3
  · rw [if_pos hnumber]
    exact .inl ⟨fun h => hnumber.elim (Int.not_lt.2 h.2.1) (Int.not_lt.2 h.2.2.1), _, rfl⟩
  obtain ⟨n, rfl⟩ : ∃ n : Nat, number = n := ⟨number.toNat, by omega⟩
  have hn : n < 4 := by omega
  rw [if_neg hnumber, Int.toNat_natCast]
  rcases load_cases env disk with ⟨hfail, hload⟩ | ⟨hk, ht, hload⟩
  · rw [hload]
    exact .inl ⟨fun h => hfail ⟨h.2.2.2.1, h.2.2.2.2.1⟩, _, rfl⟩
  · rw [hload]
    dsimp only
    by_cases hempty : table disk n = .empty
    · rw [if_pos (check_empty_iff.2 hempty)]
      exact .inl ⟨fun h => h.2.2.2.2.2 hempty, _, rfl⟩
    · rw [if_neg (mt check_empty_iff.1 hempty)]
      exact .inr ⟨n, rfl, hn, ⟨by tauto, by omega, by omega, hk, ht, hempty⟩, hempty, rfl⟩

theorem others_ne {t : partition} {n : Nat} (hn : n < 4) (hused : t n ≠ .empty) : others t n ≠ entries t := by
  intro heq
  have hperm := entries_update (t := Function.update t n .empty) hn (Function.update_self ..) hused
  rw [Function.update_idem, Function.update_eq_self, entries_clear t hn, heq] at hperm
  have hlen := hperm.length_eq
  rw [List.length_cons] at hlen
  omega

theorem deletes_iff (env : Env) (disk : Mem) (t : partition) (number : Int) (flags : block_device_flags_t) :
    Deletes disk number (mbr_table_delete env disk t number flags) ↔
      (deletable env disk number flags → keeps_boot env disk) := by
  rcases mbr_table_delete_cases env disk t number flags with ⟨hno, t', hdel⟩ | ⟨n, rfl, hn, hyes, hused, hdel⟩
  · rw [hdel]
    exact iff_of_true ⟨fun h => absurd h (by simp), fun _ => rfl⟩ fun h => absurd h hno
  · rw [hdel]
    constructor
    · -- One entry fewer is not the table that was there, so it was written.
      intro h _
      obtain ⟨_, -, -, -, hrewritten, -⟩ := h.removed rfl
      refine rewritten_keeps ?_ hrewritten
      rw [entries_tidy_up, entries_clear _ hn]
      exact others_ne hn hused
    · intro h
      exact ⟨fun _ => ⟨n, rfl, hn, hused, keeps_rewritten (h hyes), fun i hi => tidy_up_cleared _ hn hi⟩,
        fun h => absurd rfl h⟩

/-- A deletion that is written. -/
theorem deleted_holds {t : partition} (hyes : deletable env disk number flags) (hissued : write_issued env) :
    Holds (mbr_table_delete env disk t number flags).2.2 (mbr_table_delete env disk t number flags).2.1 ∧
      ∀ i < 4, (mbr_table_delete env disk t number flags).2.1 i = (others (table disk) number.toNat).getD i .empty := by
  rcases mbr_table_delete_cases env disk t number flags with ⟨hno, -⟩ | ⟨n, rfl, hn, -, -, hdel⟩
  · exact absurd hyes hno
  · rw [hdel]
    exact ⟨issued_holds hissued, fun i hi => tidy_up_cleared _ hn hi⟩

theorem mbr_partition_table_format_cases (env : Env) (device disk : Mem) (size : UInt32) (type : UInt8) :
    (¬creatable env device disk size ∧ mbr_partition_table_format env device disk size type = (-1, disk)) ∨
      ∃ n s c, creatable env device disk size ∧ get_empty_MBR_Table (table disk) = some n ∧
        mbr_partition_table_format env device disk size type = (0, (mbr_partition_table_update env disk
          (tidy_up_MBR_Table (Function.update (table disk) n (MBR_partition_table_create 0x00 s c type)))).2) := by
  unfold mbr_partition_table_format creatable
  rcases load_cases env disk with ⟨hfail, hload⟩ | ⟨hk, ht, hload⟩
  · rw [hload]
    exact .inl ⟨fun h => hfail ⟨h.1, h.2.1⟩, rfl⟩
  rw [hload, hk, ht]
  dsimp only
  cases hempty : get_empty_MBR_Table (table disk) with
  | none => exact .inl ⟨fun ⟨_, _, _, _, _, h, _⟩ => (by cases h), rfl⟩
  | some n =>
    dsimp only
    cases hrange : free_range device (table disk) n with
    | none =>
      refine .inl ⟨?_, rfl⟩
      rintro ⟨-, -, _, _, _, h, hr, -⟩
      obtain rfl := Option.some.inj h
      rw [hrange] at hr
      cases hr
    | some r =>
      obtain ⟨s, e⟩ := r
      have hunique : ∀ {n' s' e'}, some n = some n' → free_range device (table disk) n' = some (s', e') →
          n' = n ∧ s' = s ∧ e' = e := by
        rintro n' s' e' h hr
        obtain rfl := Option.some.inj h
        rw [hrange] at hr
        obtain ⟨rfl, rfl⟩ := Prod.mk.inj (Option.some.inj hr)
        exact ⟨rfl, rfl, rfl⟩
      dsimp only
      by_cases hlt : e < s
      · rw [if_pos hlt]
        refine .inl ⟨?_, rfl⟩
        rintro ⟨-, -, _, _, _, h, hr, hle, -⟩
        obtain ⟨rfl, rfl, rfl⟩ := hunique h hr
        exact hle hlt
      · rw [if_neg hlt]
        by_cases hzero : (if e ≤ s + size / 8 * 8 then e - s else size / 8 * 8) = 0
        · rw [if_pos hzero]
          refine .inl ⟨?_, rfl⟩
          rintro ⟨-, -, _, _, _, h, hr, -, hpos⟩
          obtain ⟨rfl, rfl, rfl⟩ := hunique h hr
          exact hpos hzero
        · rw [if_neg hzero]
          exact .inr ⟨n, s, _, ⟨rfl, rfl, n, s, e, rfl, hrange, hlt, hzero⟩, rfl, rfl⟩

theorem enters_iff (env : Env) (device disk : Mem) (size : UInt32) (type : UInt8) :
    Enters disk type (mbr_partition_table_format env device disk size type) ↔
      (creatable env device disk size → keeps_boot env disk) := by
  rcases mbr_partition_table_format_cases env device disk size type with ⟨hno, hform⟩ | ⟨n, s, c, hyes, hempty, hform⟩
  · rw [hform]
    exact iff_of_true ⟨fun h => absurd h (by simp), fun _ => rfl⟩ fun h => absurd h hno
  · obtain ⟨hn, hfree, -⟩ := get_empty_some hempty
    have hchanged : ∀ s c, entries (tidy_up_MBR_Table
        (Function.update (table disk) n (MBR_partition_table_create 0x00 s c type))) ≠ entries (table disk) := by
      intro s c heq
      have hperm := entries_update hn hfree (create_ne_empty type s c)
      rw [← entries_tidy_up, heq] at hperm
      have hlen := hperm.length_eq
      rw [List.length_cons] at hlen
      omega
    rw [hform]
    constructor
    · intro h _
      obtain ⟨n', s', c', hn', hrewritten⟩ := h.entered rfl
      obtain rfl : n = n' := Option.some.inj (hempty.symm.trans hn')
      exact rewritten_keeps (hchanged s' c') hrewritten
    · intro h
      exact ⟨fun _ => ⟨n, s, c, hempty, keeps_rewritten (h hyes)⟩, fun h => absurd rfl h⟩

end Results

/-- What is written is signed and read back, and a deletion takes one entry out,
but the bytes before the table are those of the new block, and an update returns 0
only when it could not write. -/
theorem mbr_sector_rewritten (env : Env) (disk : Mem) :
    (∀ t : partition,
      (Updates env disk t (mbr_partition_table_update env disk t) ↔ env.update_kmalloc = none) ∧
      (write_issued env → Holds (mbr_partition_table_update env disk t).2 t ∧
        ((∀ x < 446, (mbr_partition_table_update env disk t).2 x = disk x) ↔ keeps_boot env disk))) ∧
    (∀ (t : partition) (number : Int) (flags : block_device_flags_t),
      (Deletes disk number (mbr_table_delete env disk t number flags) ↔
        (deletable env disk number flags → keeps_boot env disk)) ∧
      (deletable env disk number flags → write_issued env →
        Holds (mbr_table_delete env disk t number flags).2.2 (mbr_table_delete env disk t number flags).2.1 ∧
        ∀ i < 4, (mbr_table_delete env disk t number flags).2.1 i =
          (others (table disk) number.toNat).getD i .empty)) ∧
    ∀ (device : Mem) (size : UInt32) (type : UInt8),
      Enters disk type (mbr_partition_table_format env device disk size type) ↔
        (creatable env device disk size → keeps_boot env disk) := by
  refine ⟨fun t => ⟨updates_iff env disk t, fun hissued => ?_⟩,
    fun t number flags => ⟨deletes_iff env disk t number flags, deleted_holds⟩,
    fun device size type => enters_iff env device disk size type⟩
  rcases update_issued env disk t with ⟨hno, -, -⟩ | ⟨-, hrest⟩
  · exact absurd hissued hno
  · exact hrest

/-- A first sector with boot code and one partition. -/
def boot_disk : Mem := (sample_disk [MBR_partition_table_create 0 2048 8192 0x83]).set 0 0xFA

/-- The update returns -1 with the sector written, and the boot code is gone in each
of the three. -/
theorem boot_code_lost :
    (¬∀ (env : Env) (disk : Mem) (t : partition), Updates env disk t (mbr_partition_table_update env disk t)) ∧
    (¬∀ (env : Env) (disk : Mem) (t : partition) (number : Int) (flags : block_device_flags_t),
      Deletes disk number (mbr_table_delete env disk t number flags)) ∧
    ¬∀ (env : Env) (device disk : Mem) (size : UInt32) (type : UInt8),
      Enters disk type (mbr_partition_table_format env device disk size type) := by
  have hlost : ¬keeps_boot sample_env boot_disk := by
    rintro ⟨data, hdata, -, h⟩
    obtain rfl := Option.some.inj hdata
    exact absurd (h 0 (by omega)) (by decide)
  have hdeletable : deletable sample_env boot_disk 0 .BLOCK_DEVICE_FLAG_MBR :=
    ⟨.inl rfl, by decide, by decide, rfl, rfl, by decide +kernel⟩
  have hcreatable : creatable sample_env (sample_device 20000) boot_disk 100 :=
    ⟨rfl, rfl, 1, 10240, 19966, by decide +kernel, by decide +kernel, by decide, by decide⟩
  refine ⟨?_, ?_, ?_⟩
  · intro h
    exact absurd ((h sample_env boot_disk (table boot_disk)).returned.2 ⟨rfl, rfl⟩) (by decide : (-1 : Int) ≠ 0)
  · intro h
    exact hlost ((deletes_iff _ _ _ _ _).1 (h sample_env boot_disk (table boot_disk) 0 _) hdeletable)
  · intro h
    exact hlost ((enters_iff _ _ _ _ _).1 (h sample_env (sample_device 20000) boot_disk 100 0x83) hcreatable)

end McLinOS.Block
