import McLinOS.Block.Bio
import McLinOS.Block.PartitionFormat
import Mathlib.Data.List.Nodup
/-!
# Finding the partitions of a new disk

`__add_disk` of `block/add_disk.c`: the nodes that are made for the disk and its
partitions, and what becomes of the memory taken on the way.
-/
open CLib

set_option linter.style.nameCheck false

namespace McLinOS.Discovery

open Block Bio

/-! ## Events -/

/-- What is allocated: the `struct block_device` of the disk or of a slot, and the
`struct partition` that the slots are read into. -/
inductive Alloc
  | part0
  | table
  | son (number : Nat)
  deriving DecidableEq, Repr

inductive Event
  | kmalloc (a : Alloc)
  | kfree (a : Alloc)
  /-- A node under `/dev`. -/
  | node (name : List UInt8) (dev : block_device)
  deriving DecidableEq, Repr

/-- What the environment does: the blocks that `kmalloc` gives, the transfer of
the first sector and the dentries that are made. -/
structure Env where
  part0_kmalloc : Option block_device
  own_dentry : Bool
  table_kmalloc : Bool
  load : Block.Env
  son_kmalloc : Nat → Bool
  son_dentry : Nat → Bool

/-! ## The source -/

def ENOMEM : Int := 12

/-- The name of the disk stands for a name that is `NULL`. -/
def __register_disk (new_dentry : Bool) (dev : block_device) (disk_name : List UInt8) (name : Option (List UInt8)) :
    List Event :=
  if new_dentry = false then [] else [.node (name.getD disk_name) dev]

/-- What `name` holds, for a disk name of a few letters. -/
def son_name (disk_name : List UInt8) (number : Nat) : List UInt8 := disk_name ++ [0x30 + UInt8.ofNat number]

def add_mbr_son_disk (env : Env) (disk_name : List UInt8) (partition : partition) (number : Nat) : Int × List Event :=
  if env.son_kmalloc number = false then (-ENOMEM, [])
  else if check_empty_MBR_Table partition number then (-1, [.kmalloc (.son number)])
  else
    let son_dev : block_device :=
      { bd_start_sect := get_partiton_data partition number mbr_partiton_startaddress
        bd_nr_sectors := get_partiton_data partition number mbr_partiton_size }
    (0, .kmalloc (.son number) ::
      __register_disk (env.son_dentry number) son_dev disk_name (some (son_name disk_name number)))

/-- The buffer of the load is freed on every path of it. -/
def get_partition_from_device (env : Env) (disk : Mem) : Option partition × List Event :=
  if env.table_kmalloc = false then (none, [])
  else
    match mbr_partition_table_load env.load disk with
    | none => (none, [.kmalloc .table, .kfree .table])
    | some partition => (some partition, [.kmalloc .table])

def add_son_disks (env : Env) (disk_name : List UInt8) (partition : partition) : List Nat → List Event
  | [] => []
  | i :: slots =>
    let (ret, events) := add_mbr_son_disk env disk_name partition i
    if ret < 0 then events else events ++ add_son_disks env disk_name partition slots

def register_son_disk (env : Env) (disk : Mem) (disk_name : List UInt8) : List Event :=
  match get_partition_from_device env disk with
  | (none, events) => events
  | (some partition, events) => events ++ add_son_disks env disk_name partition (List.range 4)

/-- `disk` is what the sectors of `part0` hold. -/
def __add_disk (env : Env) (disk : Mem) (disk_name : List UInt8) (part0 : Option block_device) : Int × List Event :=
  match part0, env.part0_kmalloc with
  | some dev, _ => (0, __register_disk env.own_dentry dev disk_name none ++ register_son_disk env disk disk_name)
  | none, none => (-ENOMEM, [])
  | none, some dev =>
    (0, .kmalloc .part0 :: __register_disk env.own_dentry dev disk_name none ++ register_son_disk env disk disk_name)

/-! ## What is expected -/

def Event.son (disk_name : List UInt8) : Event → Option (List UInt8 × block_device)
  | .node name dev => if name = disk_name then none else some (name, dev)
  | _ => none

/-- The nodes made besides that of the whole disk. -/
def sons (disk_name : List UInt8) (events : List Event) : List (List UInt8 × block_device) :=
  events.filterMap (Event.son disk_name)

def Signed (disk : Mem) : Prop := disk 0x01FE = 0x55 ∧ disk 0x01FF = 0xAA

instance (disk : Mem) : Decidable (Signed disk) := inferInstanceAs (Decidable (_ ∧ _))

/-- The node of slot `i`. -/
def slot_node (disk : Mem) (disk_name : List UInt8) (i : Nat) : List UInt8 × block_device :=
  (son_name disk_name i, ⟨(table disk i).start_lba, (table disk i).nr_sectors⟩)

/-- One node for each slot in use, if the sector is signed. -/
def expected (disk : Mem) (disk_name : List UInt8) : List (List UInt8 × block_device) :=
  if Signed disk then ((List.range 4).filter fun i => table disk i ≠ .empty).map (slot_node disk disk_name) else []

/-- How often the table was allocated and not freed. -/
def held (events : List Event) : Int := events.count (.kmalloc .table) - events.count (.kfree .table)

/-! ## Conditions -/

/-- The table is read. -/
def Reads (env : Env) (part0 : Option block_device) : Prop :=
  (part0.isSome ∨ env.part0_kmalloc.isSome) ∧ env.table_kmalloc = true ∧ env.load.load_kmalloc = true ∧
    env.load.load_transfer = true

instance (env : Env) (part0 : Option block_device) : Decidable (Reads env part0) :=
  inferInstanceAs (Decidable ((_ ∨ _) ∧ _))

/-- No slot up to `i` is free, there is memory for each and a dentry for `i`. -/
def Found (env : Env) (disk : Mem) (i : Nat) : Prop :=
  (∀ j ≤ i, env.son_kmalloc j = true ∧ table disk j ≠ .empty) ∧ env.son_dentry i = true

instance (env : Env) (disk : Mem) (i : Nat) : Decidable (Found env disk i) := inferInstanceAs (Decidable (_ ∧ _))

/-! ## The slots that get a node -/

section Slots
variable {env : Env} {disk : Mem} {disk_name : List UInt8} {t : partition}

theorem takeWhile_range' (a : Nat → Bool) (k n : Nat) : (List.range' k n).takeWhile a =
    (List.range' k n).filter fun i => decide (∀ j, k ≤ j → j ≤ i → a j = true) := by
  induction n generalizing k with
  | zero => rfl
  | succ n ih =>
    rw [List.range'_succ, List.takeWhile_cons, List.filter_cons]
    cases hk : a k with
    | false =>
      have hno : ∀ i, k ≤ i → ¬∀ j, k ≤ j → j ≤ i → a j = true := fun i hi h => by
        have := h k (Nat.le_refl k) hi
        rw [hk] at this
        cases this
      rw [if_neg (by simp), if_neg (by simpa using hno k (Nat.le_refl k)), List.filter_eq_nil_iff.2]
      intro i hi
      have hi := List.mem_range'_1.1 hi
      simpa using hno i (by omega)
    | true =>
      have hsame : ∀ i, (∀ j, k ≤ j → j ≤ i → a j = true) ↔ ∀ j, k + 1 ≤ j → j ≤ i → a j = true := by
        refine fun i => ⟨fun h j hj => h j (by omega), fun h j hj hji => ?_⟩
        rcases Nat.eq_or_lt_of_le hj with rfl | hlt
        · exact hk
        · exact h j hlt hji
      rw [if_pos rfl, if_pos (by simp [hsame]; omega), ih]
      simp only [hsame]

theorem son_name_ne (disk_name : List UInt8) (i : Nat) : son_name disk_name i ≠ disk_name := fun h => by
  have hlen := congrArg List.length h
  simp [son_name] at hlen

theorem sons_append (a b : List Event) : sons disk_name (a ++ b) = sons disk_name a ++ sons disk_name b :=
  List.filterMap_append

theorem sons_kmalloc (x : Alloc) (a : List Event) : sons disk_name (.kmalloc x :: a) = sons disk_name a := rfl

theorem sons_register (new_dentry : Bool) (dev : block_device) (i : Nat) :
    sons disk_name (__register_disk new_dentry dev disk_name (some (son_name disk_name i))) =
      if new_dentry = true then [(son_name disk_name i, dev)] else [] := by
  cases new_dentry with
  | false => rfl
  | true => simp [sons, __register_disk, Event.son, son_name_ne]

theorem sons_register_own (new_dentry : Bool) (dev : block_device) :
    sons disk_name (__register_disk new_dentry dev disk_name none) = [] := by
  cases new_dentry with
  | false => rfl
  | true => simp [sons, __register_disk, Event.son]

/-- What one slot comes to. The memory of a free slot is not given back. -/
theorem add_mbr_son_disk_cases (env : Env) (disk : Mem) (disk_name : List UInt8) {i : Nat} (hi : i < 4) :
    (¬(env.son_kmalloc i = true ∧ table disk i ≠ .empty) ∧ ∃ ret events,
      add_mbr_son_disk env disk_name (table disk) i = (ret, events) ∧ ret < 0 ∧ ∀ e ∈ events, e = .kmalloc (.son i)) ∨
    (env.son_kmalloc i = true ∧ table disk i ≠ .empty) ∧ add_mbr_son_disk env disk_name (table disk) i =
      (0, .kmalloc (.son i) :: __register_disk (env.son_dentry i) (slot_node disk disk_name i).2 disk_name
        (some (son_name disk_name i))) := by
  unfold add_mbr_son_disk
  cases hk : env.son_kmalloc i with
  | false => exact .inl ⟨by simp, _, _, if_pos rfl, by decide, by simp⟩
  | true =>
    rw [if_neg (by simp)]
    by_cases hempty : table disk i = .empty
    · rw [if_pos (check_empty_iff.2 hempty)]
      exact .inl ⟨by simp [hempty], _, _, rfl, by decide, by simp⟩
    · have hbio : Bio.add_mbr_son_disk true (table disk) i =
          some ⟨get_partiton_data (table disk) i mbr_partiton_startaddress,
            get_partiton_data (table disk) i mbr_partiton_size⟩ := by
        rw [Bio.add_mbr_son_disk, if_neg (by simp), if_neg (mt check_empty_iff.1 hempty)]
      rw [if_neg (mt check_empty_iff.1 hempty), (add_mbr_son_disk_eq hi hbio).2]
      exact .inr ⟨⟨rfl, hempty⟩, rfl⟩

theorem add_son_disks_cons (env : Env) (disk_name : List UInt8) (t : partition) (i : Nat) (slots : List Nat) :
    add_son_disks env disk_name t (i :: slots) =
      if (add_mbr_son_disk env disk_name t i).1 < 0 then (add_mbr_son_disk env disk_name t i).2
      else (add_mbr_son_disk env disk_name t i).2 ++ add_son_disks env disk_name t slots := rfl

/-- The loop takes the slots up to the first that is free or has no memory. -/
theorem sons_add_son_disks {slots : List Nat} (hslots : ∀ i ∈ slots, i < 4) :
    sons disk_name (add_son_disks env disk_name (table disk) slots) =
      ((slots.takeWhile fun i => decide (env.son_kmalloc i = true ∧ table disk i ≠ .empty)).filter env.son_dentry).map
        (slot_node disk disk_name) := by
  induction slots with
  | nil => rfl
  | cons i slots ih =>
    have ih := ih fun j hj => hslots j (List.mem_cons_of_mem _ hj)
    rcases add_mbr_son_disk_cases env disk disk_name (hslots i List.mem_cons_self) with
      ⟨hno, ret, events, hadd, hneg, hevents⟩ | ⟨hyes, hadd⟩
    · -- A slot without a node ends the loop, whatever is behind it.
      rw [add_son_disks_cons, hadd, if_pos hneg, List.takeWhile_cons, if_neg (by simpa using hno)]
      exact List.filterMap_eq_nil_iff.2 fun e he => by rw [hevents e he]; rfl
    · rw [add_son_disks_cons, hadd, if_neg (Int.lt_irrefl 0), List.takeWhile_cons, if_pos (decide_eq_true hyes),
        List.filter_cons, sons_append, sons_kmalloc, sons_register, ih]
      cases hd : env.son_dentry i with
      | false => rfl
      | true => rfl

theorem add_son_disks_events {slots : List Nat} (hslots : ∀ i ∈ slots, i < 4) :
    ∀ e ∈ add_son_disks env disk_name (table disk) slots, e ≠ .kmalloc .table ∧ e ≠ .kfree .table := by
  induction slots with
  | nil => exact fun e he => absurd he List.not_mem_nil
  | cons i slots ih =>
    have ih := ih fun j hj => hslots j (List.mem_cons_of_mem _ hj)
    rcases add_mbr_son_disk_cases env disk disk_name (hslots i List.mem_cons_self) with
      ⟨-, ret, events, hadd, hneg, hevents⟩ | ⟨-, hadd⟩
    · rw [add_son_disks_cons, hadd, if_pos hneg]
      exact fun e he => by simp [hevents e he]
    · rw [add_son_disks_cons, hadd, if_neg (Int.lt_irrefl 0), __register_disk]
      intro e he
      rcases List.mem_append.1 he with h | h
      · rcases List.mem_cons.1 h with rfl | h
        · exact ⟨by simp, by simp⟩
        · split at h
          · cases h
          · obtain rfl := List.mem_singleton.1 h
            exact ⟨by simp, by simp⟩
      · exact ih e h

/-- The nodes of a table that was read. -/
theorem sons_range : sons disk_name (add_son_disks env disk_name (table disk) (List.range 4)) =
    ((List.range 4).filter fun i => decide (Found env disk i)).map (slot_node disk disk_name) := by
  rw [sons_add_son_disks fun i hi => List.mem_range.1 hi, List.range_eq_range', takeWhile_range', List.filter_filter]
  congr 1
  refine List.filter_congr fun i _ => ?_
  rw [Bool.eq_iff_iff, Bool.and_eq_true, decide_eq_true_iff, decide_eq_true_iff, and_comm, Found]
  simp only [decide_eq_true_iff, Nat.zero_le, true_implies]

end Slots

/-! ## Results -/

section Results
variable {env : Env} {disk : Mem} {disk_name : List UInt8} {part0 : Option block_device}

theorem get_partition_cases (env : Env) (disk : Mem) :
    (¬(env.table_kmalloc = true ∧ env.load.load_kmalloc = true ∧ env.load.load_transfer = true) ∧ ∃ events,
      get_partition_from_device env disk = (none, events) ∧ held events = 0 ∧ ∀ disk_name, sons disk_name events = []) ∨
    (env.table_kmalloc = true ∧ env.load.load_kmalloc = true ∧ env.load.load_transfer = true) ∧
      get_partition_from_device env disk = (some (table disk), [.kmalloc .table]) := by
  unfold get_partition_from_device mbr_partition_table_load
  cases hk : env.table_kmalloc with
  | false => exact .inl ⟨by simp, [], rfl, rfl, fun _ => rfl⟩
  | true =>
    cases hl : env.load.load_kmalloc with
    | false => exact .inl ⟨by simp, [.kmalloc .table, .kfree .table], rfl, rfl, fun _ => rfl⟩
    | true =>
      cases ht : env.load.load_transfer with
      | false => exact .inl ⟨by simp, [.kmalloc .table, .kfree .table], rfl, rfl, fun _ => rfl⟩
      | true => exact .inr ⟨⟨rfl, rfl, rfl⟩, rfl⟩

theorem held_append (a b : List Event) : held (a ++ b) = held a + held b := by
  simp only [held, List.count_append]
  omega

theorem held_zero {a : List Event} (h : ∀ e ∈ a, e ≠ .kmalloc .table ∧ e ≠ .kfree .table) : held a = 0 := by
  rw [held, List.count_eq_zero.2 fun he => (h _ he).1 rfl, List.count_eq_zero.2 fun he => (h _ he).2 rfl]
  rfl

theorem held_register (new_dentry : Bool) (dev : block_device) (name : Option (List UInt8)) :
    held (__register_disk new_dentry dev disk_name name) = 0 := by
  refine held_zero fun e he => ?_
  unfold __register_disk at he
  split at he
  · cases he
  · obtain rfl := List.mem_singleton.1 he
    exact ⟨by simp, by simp⟩

theorem register_son_disk_cases (env : Env) (disk : Mem) (disk_name : List UInt8) :
    (¬(env.table_kmalloc = true ∧ env.load.load_kmalloc = true ∧ env.load.load_transfer = true) ∧
      sons disk_name (register_son_disk env disk disk_name) = [] ∧ held (register_son_disk env disk disk_name) = 0) ∨
    (env.table_kmalloc = true ∧ env.load.load_kmalloc = true ∧ env.load.load_transfer = true) ∧
      sons disk_name (register_son_disk env disk disk_name) =
        ((List.range 4).filter fun i => decide (Found env disk i)).map (slot_node disk disk_name) ∧
      held (register_son_disk env disk disk_name) = 1 := by
  unfold register_son_disk
  rcases get_partition_cases env disk with ⟨hno, events, hget, hheld, hsons⟩ | ⟨hyes, hget⟩
  · rw [hget]
    exact .inl ⟨hno, hsons disk_name, hheld⟩
  · rw [hget]
    dsimp only
    refine .inr ⟨hyes, ?_, ?_⟩
    · rw [List.singleton_append, sons_kmalloc, sons_range]
    · rw [held_append, held_zero (add_son_disks_events fun i hi => List.mem_range.1 hi)]
      rfl

/-- The nodes of the slots and what is left of the table, in all cases. -/
theorem add_disk_cases (env : Env) (disk : Mem) (disk_name : List UInt8) (part0 : Option block_device) :
    (¬Reads env part0 ∧ sons disk_name (__add_disk env disk disk_name part0).2 = [] ∧
      held (__add_disk env disk disk_name part0).2 = 0) ∨
    Reads env part0 ∧ sons disk_name (__add_disk env disk disk_name part0).2 =
        ((List.range 4).filter fun i => decide (Found env disk i)).map (slot_node disk disk_name) ∧
      held (__add_disk env disk disk_name part0).2 = 1 := by
  by_cases hpart0 : part0.isSome ∨ env.part0_kmalloc.isSome
  · -- The node of the disk itself is no son, and the table is taken behind it.
    have hsame : sons disk_name (__add_disk env disk disk_name part0).2 =
        sons disk_name (register_son_disk env disk disk_name) ∧
        held (__add_disk env disk disk_name part0).2 = held (register_son_disk env disk disk_name) := by
      unfold __add_disk
      cases part0 with
      | some dev =>
        dsimp only
        rw [sons_append, sons_register_own, held_append, held_register]
        exact ⟨rfl, Int.zero_add _⟩
      | none =>
        cases hk : env.part0_kmalloc with
        | none => simp [hk] at hpart0
        | some dev =>
          dsimp only
          rw [List.cons_append, sons_kmalloc, sons_append, sons_register_own, ← List.singleton_append, held_append,
            held_append, held_register, Int.zero_add]
          exact ⟨rfl, Int.zero_add _⟩
    rw [hsame.1, hsame.2, Reads, and_iff_right hpart0]
    exact register_son_disk_cases env disk disk_name
  · refine .inl ⟨fun h => hpart0 h.1, ?_⟩
    obtain ⟨hnone, hkmalloc⟩ := not_or.1 hpart0
    rw [Option.not_isSome_iff_eq_none] at hnone hkmalloc
    subst hnone
    simp only [__add_disk, hkmalloc]
    exact ⟨rfl, rfl⟩

theorem slot_node_injective (disk : Mem) (disk_name : List UInt8) {i j : Nat} (hi : i < 4) (hj : j < 4)
    (h : (slot_node disk disk_name i).1 = (slot_node disk disk_name j).1) : i = j := by
  have hdigit := List.append_cancel_left h
  rw [List.cons.injEq, UInt8.add_right_inj] at hdigit
  have hnat := congrArg UInt8.toNat hdigit.1
  rw [UInt8.toNat_ofNat', UInt8.toNat_ofNat'] at hnat
  omega

/-- Two choices of slots give the same nodes. -/
theorem slot_nodes_eq {p q : Nat → Prop} [DecidablePred p] [DecidablePred q] :
    ((List.range 4).filter fun i => decide (p i)).map (slot_node disk disk_name) =
      ((List.range 4).filter fun i => decide (q i)).map (slot_node disk disk_name) ↔ ∀ i < 4, p i ↔ q i := by
  have hmem : ∀ (r : Nat → Prop) [DecidablePred r], ∀ i < 4, slot_node disk disk_name i ∈
      ((List.range 4).filter fun i => decide (r i)).map (slot_node disk disk_name) ↔ r i := by
    intro r _ i hi
    rw [List.mem_map]
    constructor
    · rintro ⟨j, hj, heq⟩
      obtain ⟨hj4, hr⟩ := List.mem_filter.1 hj
      rw [slot_node_injective disk disk_name hi (List.mem_range.1 hj4) (congrArg Prod.fst heq).symm]
      exact of_decide_eq_true hr
    · exact fun h => ⟨i, List.mem_filter.2 ⟨List.mem_range.2 hi, decide_eq_true h⟩, rfl⟩
  constructor
  · intro h i hi
    rw [← hmem p i hi, h, hmem q i hi]
  · intro h
    congr 1
    refine List.filter_congr fun i hi => ?_
    rw [decide_eq_decide]
    exact h i (List.mem_range.1 hi)

theorem expected_eq (disk : Mem) (disk_name : List UInt8) : expected disk disk_name =
    ((List.range 4).filter fun i => decide (Signed disk ∧ table disk i ≠ .empty)).map (slot_node disk disk_name) := by
  unfold expected
  by_cases hsigned : Signed disk
  · rw [if_pos hsigned]
    simp only [hsigned, true_and]
  · rw [if_neg hsigned]
    simp [hsigned]

theorem sons_add_disk (env : Env) (disk : Mem) (disk_name : List UInt8) (part0 : Option block_device) :
    sons disk_name (__add_disk env disk disk_name part0).2 =
      ((List.range 4).filter fun i => decide (Reads env part0 ∧ Found env disk i)).map (slot_node disk disk_name) := by
  rcases add_disk_cases env disk disk_name part0 with ⟨hno, hsons, -⟩ | ⟨hyes, hsons, -⟩
  · rw [hsons]
    simp [hno]
  · rw [hsons]
    simp only [hyes, true_and]

theorem held_add_disk (env : Env) (disk : Mem) (disk_name : List UInt8) (part0 : Option block_device) :
    held (__add_disk env disk disk_name part0).2 = 0 ↔ ¬Reads env part0 := by
  rcases add_disk_cases env disk disk_name part0 with ⟨hno, -, hheld⟩ | ⟨hyes, -, hheld⟩
  · exact iff_of_true hheld hno
  · rw [hheld]
    exact iff_of_false (by decide) fun h => h hyes

/-- The nodes are the expected ones, and nothing is left of the table. -/
structure Discovers (disk : Mem) (disk_name : List UInt8) (events : List Event) : Prop where
  nodes : sons disk_name events = expected disk disk_name
  released : held events = 0

/-- Memory and dentries for all slots. -/
def Supplied (env : Env) : Prop := ∀ i < 4, env.son_kmalloc i = true ∧ env.son_dentry i = true

theorem found_iff (h : Supplied env) {i : Nat} (hi : i < 4) :
    Found env disk i ↔ ∀ j ≤ i, table disk j ≠ .empty :=
  ⟨fun hf j hj => (hf.1 j hj).2, fun hused => ⟨fun j hj => ⟨(h j (by omega)).1, hused j hj⟩, (h i hi).2⟩⟩

/-- The loop ends at the first free slot, and the signature is not looked at. -/
theorem supplied_iff (h : Supplied env) : (∀ i < 4, Found env disk i ↔ Signed disk ∧ table disk i ≠ .empty) ↔
    if Signed disk then ∀ i < 4, table disk i ≠ .empty → ∀ j < i, table disk j ≠ .empty else table disk 0 = .empty := by
  split
  · rename_i hsigned
    refine forall₂_congr fun i hi => ?_
    rw [found_iff h hi, and_iff_right hsigned]
    constructor
    · -- A slot with a node has used slots before it.
      intro hiff hused j hj
      exact hiff.2 hused j (Nat.le_of_lt hj)
    · intro hprefix
      refine ⟨fun hf => hf i (Nat.le_refl i), fun hused j hj => ?_⟩
      rcases Nat.eq_or_lt_of_le hj with rfl | hlt
      · exact hused
      · exact hprefix hused j hlt
  · rename_i hsigned
    constructor
    · intro hiff
      -- Without the signature a used first slot gets a node all the same.
      by_contra hused
      refine hsigned ((hiff 0 (by omega)).1 ((found_iff h (by omega)).2 fun j hj => ?_)).1
      rwa [Nat.le_zero.1 hj]
    · intro hfree i hi
      refine iff_of_false (fun hf => ?_) fun hs => hsigned hs.1
      exact (found_iff h hi).1 hf 0 (Nat.zero_le i) hfree

end Results

/-- Every node is that of a slot in use, and no two have the same name. The table
is freed only where it was not read. -/
theorem partitions_discovered (env : Env) (disk : Mem) (disk_name : List UInt8) (part0 : Option block_device) :
    let events := (__add_disk env disk disk_name part0).2
    (Discovers disk disk_name events ↔ ¬Reads env part0 ∧ (Signed disk → ∀ i < 4, table disk i = .empty)) ∧
    (held events = 0 ↔ ¬Reads env part0) ∧
    (Reads env part0 → Supplied env → (sons disk_name events = expected disk disk_name ↔
      if Signed disk then ∀ i < 4, table disk i ≠ .empty → ∀ j < i, table disk j ≠ .empty
      else table disk 0 = .empty)) ∧
    ((sons disk_name events).map Prod.fst).Nodup ∧
    ∀ node ∈ sons disk_name events, ∃ i < 4, table disk i ≠ .empty ∧ node = slot_node disk disk_name i := by
  intro events
  have hsons : sons disk_name events = _ := sons_add_disk env disk disk_name part0
  have hheld : held events = 0 ↔ _ := held_add_disk env disk disk_name part0
  have hnodes : sons disk_name events = expected disk disk_name ↔
      ∀ i < 4, Reads env part0 ∧ Found env disk i ↔ Signed disk ∧ table disk i ≠ .empty := by
    rw [hsons, expected_eq, slot_nodes_eq]
  refine ⟨?_, hheld, ?_, ?_, ?_⟩
  · constructor
    · intro h
      have hno := hheld.1 h.released
      refine ⟨hno, fun hsigned i hi => ?_⟩
      by_contra hused
      exact hno ((hnodes.1 h.nodes i hi).2 ⟨hsigned, hused⟩).1
    · rintro ⟨hno, hempty⟩
      exact ⟨hnodes.2 fun i hi => iff_of_false (fun h => hno h.1) fun h => h.2 (hempty h.1 i hi), hheld.2 hno⟩
  · intro hreads hsupplied
    rw [hnodes, ← supplied_iff hsupplied]
    simp only [hreads, true_and]
  · rw [hsons, List.map_map]
    refine List.Nodup.map_on (fun i hi j hj heq => ?_) (List.nodup_range.filter _)
    exact slot_node_injective disk disk_name (List.mem_range.1 (List.mem_of_mem_filter hi))
      (List.mem_range.1 (List.mem_of_mem_filter hj)) heq
  · intro node hnode
    rw [hsons] at hnode
    obtain ⟨i, hi, rfl⟩ := List.mem_map.1 hnode
    obtain ⟨hi4, hfound⟩ := List.mem_filter.1 hi
    exact ⟨i, List.mem_range.1 hi4, ((of_decide_eq_true hfound).2.1 i (Nat.le_refl i)).2, rfl⟩

/-- A machine where nothing fails. -/
def supplied_env : Env := ⟨none, true, true, sample_env, fun _ => true, fun _ => true⟩

/-- A signed sector with a partition in slot 1 only. -/
def gap_disk : Mem := sample_disk [.empty, MBR_partition_table_create 0 2048 8192 0x83]

/-- The bytes of a partition in slot 0, without the signature. -/
def unsigned_disk : Mem := (sample_disk [MBR_partition_table_create 0 2048 8192 0x83]).set 0x01FE 0

def sda : List UInt8 := [0x73, 0x64, 0x61]

def whole : block_device := ⟨0, 20000⟩

/-- A free first slot hides the second, an unsigned sector gives a node, and the
table is not freed. -/
theorem discovery_misses :
    (¬∀ (env : Env) (disk : Mem) (disk_name : List UInt8) (part0 : Option block_device),
      Discovers disk disk_name (__add_disk env disk disk_name part0).2) ∧
    sons sda (__add_disk supplied_env gap_disk sda (some whole)).2 = [] ∧
    expected gap_disk sda = [(sda ++ [0x31], ⟨2048, 8192⟩)] ∧
    sons sda (__add_disk supplied_env unsigned_disk sda (some whole)).2 = [(sda ++ [0x30], ⟨2048, 8192⟩)] ∧
    expected unsigned_disk sda = [] ∧
    held (__add_disk supplied_env gap_disk sda (some whole)).2 = 1 := by
  have hsons : sons sda (__add_disk supplied_env gap_disk sda (some whole)).2 = [] := by decide +kernel
  have hexpected : expected gap_disk sda = [(sda ++ [0x31], ⟨2048, 8192⟩)] := by decide +kernel
  refine ⟨fun h => ?_, hsons, hexpected, by decide +kernel, by decide +kernel, by decide +kernel⟩
  have hnodes := (h supplied_env gap_disk sda (some whole)).nodes
  rw [hsons, hexpected] at hnodes
  cases hnodes

end McLinOS.Discovery
