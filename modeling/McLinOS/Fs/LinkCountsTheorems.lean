import McLinOS.Fs.LinkCounts
/-!
# Theorems about link counts

An operation makes an entry, takes one away, or changes a mode. Counts stay
right as long as no inode is freed whose list has entries, and no entry that is
in a list.
-/
open CLib

namespace McLinOS.LinkCounts

open Fs (Name S_IFMT S_IFREG S_IFDIR ENOMEM initramfs_inode initramfs_dentry)

/-! ## The invariant -/

/-- Live inodes are on the superblock's list and have entries, except that `x` may
have none yet. An entry is in one list and leads to a live inode. -/
structure Inv (x : Option Nat) (s : State) : Prop where
  root : Live s s.rootinode
  bound : ∀ n ∈ s.freed_inodes, n < s.inodes.next
  once : s.freed_inodes.Nodup
  freed_bound : ∀ e ∈ s.freed_dentries, e < s.dentries.next
  entry : ∀ n, Live s n → ∀ e ∈ (s.inodes.get n).dentry_list_head,
    e < s.dentries.next ∧ e ∉ s.freed_dentries ∧ Live s (target_inode s e)
  nodup : ∀ n, Live s n → (s.inodes.get n).dentry_list_head.Nodup
  disjoint : ∀ n m e, Live s n → Live s m → e ∈ (s.inodes.get n).dentry_list_head →
    e ∈ (s.inodes.get m).dentry_list_head → n = m
  counted : ∀ n, Live s n →
    (s.inodes.get n).dentry_count = ((entries_of s n).card + if n = s.rootinode then 1 else 0 : Nat)
  dead : ∀ n ∈ s.freed_inodes, (s.inodes.get n).dentry_count = 0
  list_nodup : s.inode_list_head.Nodup
  listed : ∀ n, n ∈ s.inode_list_head ↔ Live s n
  positive : ∀ n, Live s n → x ≠ some n → 0 < (s.inodes.get n).dentry_count

section Invariant
variable {x : Option Nat} {s s' : State} {e n : Nat}

theorem listed_iff : Listed s e ↔ ∃ n, Live s n ∧ e ∈ (s.inodes.get n).dentry_list_head :=
  ⟨fun ⟨n, _, h⟩ => ⟨n, h⟩, fun ⟨n, h⟩ => ⟨n, h.1.1, h⟩⟩

theorem Inv.mem_entries (hi : Inv x s) : e ∈ entries_of s n ↔ Listed s e ∧ target_inode s e = n := by
  simp only [entries_of, Finset.mem_filter, Finset.mem_range, and_iff_right_iff_imp]
  rintro ⟨hl, -⟩
  obtain ⟨m, hm, he⟩ := listed_iff.1 hl
  exact (hi.entry m hm e he).1

/-- With the entries in the directories those that lead to an inode stay. -/
theorem entries_congr (hdentries : s'.dentries = s.dentries) (hlisted : ∀ e, Listed s' e ↔ Listed s e) (n : Nat) :
    entries_of s' n = entries_of s n := by
  have htarget : ∀ e, target_inode s' e = target_inode s e := by
    intro e
    unfold target_inode
    rw [hdentries]
  ext e
  simp only [entries_of, Finset.mem_filter, hlisted, htarget, hdentries]

theorem Inv.links (hi : Inv none s) : Links s where
  counted := hi.counted
  listed := by
    intro n
    rw [hi.listed]
    refine ⟨fun hn => ⟨hn.1, hi.positive n hn (by simp)⟩, fun ⟨hn, hpos⟩ => ⟨hn, fun hf => ?_⟩⟩
    rw [hi.dead n hf] at hpos
    exact Int.lt_irrefl _ hpos
  freed := by
    intro n
    refine ⟨fun hn => ⟨hi.bound n hn, hi.dead n hn⟩, fun ⟨hn, h0⟩ => ?_⟩
    by_contra hf
    have hpos := hi.positive n ⟨hn, hf⟩ (by simp)
    omega
  once := hi.once
  entries := fun n hn e he => (hi.entry n hn e he).2.1

theorem init_inv (h : Init s) : Inv none s := by
  subst h
  have hlive : ∀ n, Live initramfs_superblock_create n ↔ n = 0 := by
    intro n
    simp [Live, initramfs_superblock_create, Pool.empty]
  have hlist : ∀ n, Live initramfs_superblock_create n →
      (initramfs_superblock_create.inodes.get n).dentry_list_head = [] := by
    intro n hn
    rw [(hlive n).1 hn]
    rfl
  refine ⟨(hlive 0).2 rfl, by simp [initramfs_superblock_create], List.nodup_nil, by simp [initramfs_superblock_create],
    ?_, ?_, ?_, ?_, by simp [initramfs_superblock_create], List.nodup_singleton 0, ?_, ?_⟩
  · intro n hn e he
    rw [hlist n hn] at he
    exact absurd he List.not_mem_nil
  · intro n hn
    rw [hlist n hn]
    exact List.nodup_nil
  · intro n m e hn _ he
    rw [hlist n hn] at he
    exact absurd he List.not_mem_nil
  · intro n hn
    rw [(hlive n).1 hn]
    rfl
  · intro n
    rw [hlive]
    exact List.mem_singleton
  · intro n hn _
    rw [(hlive n).1 hn]
    decide

/-- Modes and names do not matter. -/
theorem Inv.congr (hi : Inv x s) (hnext : s'.inodes.next = s.inodes.next)
    (hcount : ∀ n, (s'.inodes.get n).dentry_count = (s.inodes.get n).dentry_count)
    (hlist : ∀ n, (s'.inodes.get n).dentry_list_head = (s.inodes.get n).dentry_list_head)
    (hdentries : s'.dentries = s.dentries) (hlisted : s'.inode_list_head = s.inode_list_head)
    (hroot : s'.rootinode = s.rootinode) (hfreed : s'.freed_inodes = s.freed_inodes)
    (hdead : s'.freed_dentries = s.freed_dentries) : Inv x s' := by
  have hlive : ∀ n, Live s' n ↔ Live s n := by
    intro n
    unfold Live
    rw [hnext, hfreed]
  have htarget : ∀ e, target_inode s' e = target_inode s e := by
    intro e
    unfold target_inode
    rw [hdentries]
  have hlisted' : ∀ e, Listed s' e ↔ Listed s e := by
    intro e
    simp only [listed_iff, hlive, hlist]
  have hentries := entries_congr hdentries hlisted'
  refine ⟨?_, ?_, ?_, ?_, ?_, ?_, ?_, ?_, ?_, ?_, ?_, ?_⟩
  · rw [hroot, hlive]
    exact hi.root
  · rw [hfreed, hnext]
    exact hi.bound
  · rw [hfreed]
    exact hi.once
  · rw [hdead, hdentries]
    exact hi.freed_bound
  · simp only [hlive, hlist, hdentries, hdead, htarget]
    exact hi.entry
  · simp only [hlive, hlist]
    exact hi.nodup
  · simp only [hlive, hlist]
    exact hi.disjoint
  · simp only [hlive, hcount, hentries, hroot]
    exact hi.counted
  · simp only [hfreed, hcount]
    exact hi.dead
  · rw [hlisted]
    exact hi.list_nodup
  · simp only [hlisted, hlive]
    exact hi.listed
  · simp only [hlive, hcount]
    exact hi.positive

theorem Inv.set_mode (hi : Inv x s) (e mode : Nat) : Inv x (set_target_mode s e mode) := by
  have hget : ∀ n, ∃ i_mode, (set_target_mode s e mode).inodes.get n = { s.inodes.get n with i_mode } := by
    intro n
    simp only [set_target_mode, Pool.get_modify]
    split
    · rename_i hn
      exact ⟨mode, by rw [hn]⟩
    · exact ⟨_, rfl⟩
  refine hi.congr rfl (fun n => ?_) (fun n => ?_) rfl rfl rfl rfl rfl
  · obtain ⟨i_mode, h⟩ := hget n
    rw [h]
  · obtain ⟨i_mode, h⟩ := hget n
    rw [h]

/-! ## Making entries -/

/-- An inode without entries. -/
theorem Inv.no_entries (hi : Inv x s) (hn : Live s n) (h0 : (s.inodes.get n).dentry_count = 0) :
    entries_of s n = ∅ ∧ n ≠ s.rootinode := by
  have hcount := hi.counted n hn
  rw [h0] at hcount
  refine ⟨Finset.card_eq_zero.1 (by omega), ?_⟩
  rintro rfl
  rw [if_pos rfl] at hcount
  omega

/-- A new inode without entries, the next one, on the superblock's list. -/
structure Made (s s' : State) : Prop where
  next : s'.inodes.next = s.inodes.next + 1
  dentries : s'.dentries = s.dentries
  root : s'.rootinode = s.rootinode
  freed : s'.freed_inodes = s.freed_inodes
  dead : s'.freed_dentries = s.freed_dentries
  list_head : s'.inode_list_head = s.inodes.next :: s.inode_list_head
  count : (s'.inodes.get s.inodes.next).dentry_count = 0
  empty : (s'.inodes.get s.inodes.next).dentry_list_head = []
  others : ∀ n, n ≠ s.inodes.next → s'.inodes.get n = s.inodes.get n

theorem create_empty_made {mem : Memory} (h : initramfs_create_empty_inode mem s = (s', some n)) :
    n = s.inodes.next ∧ Made s s' := by
  unfold initramfs_create_empty_inode at h
  split at h
  · obtain ⟨rfl, hn⟩ := Prod.mk.inj h
    refine ⟨(Option.some.inj hn).symm, rfl, rfl, rfl, rfl, rfl, rfl, ?_, ?_, ?_⟩
    · rw [Pool.get_alloc_next]
    · rw [Pool.get_alloc_next]
    · intro m hm
      rw [Pool.get_alloc, if_neg hm]
  · simp at h

theorem Made.live (h : Made s s') (hi : Inv x s) (n : Nat) : Live s' n ↔ Live s n ∨ n = s.inodes.next := by
  unfold Live
  rw [h.next, h.freed]
  exact Pool.live_alloc fun hf => Nat.lt_irrefl _ (hi.bound _ hf)

theorem Made.get (h : Made s s') (hn : Live s n) : s'.inodes.get n = s.inodes.get n := h.others n (Nat.ne_of_lt hn.1)

/-- The lists with entries are the old ones. -/
theorem Made.in_list (h : Made s s') (hi : Inv x s) (hn : Live s' n) (he : e ∈ (s'.inodes.get n).dentry_list_head) :
    Live s n ∧ e ∈ (s.inodes.get n).dentry_list_head := by
  rcases (h.live hi n).1 hn with hn | rfl
  · rw [h.get hn] at he
    exact ⟨hn, he⟩
  · rw [h.empty] at he
    exact absurd he List.not_mem_nil

theorem Made.listed (h : Made s s') (hi : Inv x s) (e : Nat) : Listed s' e ↔ Listed s e := by
  rw [listed_iff, listed_iff]
  constructor
  · rintro ⟨n, hn, he⟩
    exact ⟨n, h.in_list hi hn he⟩
  · rintro ⟨n, hn, he⟩
    exact ⟨n, (h.live hi n).2 (.inl hn), by rwa [h.get hn]⟩

/-- The new inode is on the list and has no entry yet. -/
theorem Inv.made (hi : Inv none s) (h : Made s s') : Inv (some s.inodes.next) s' := by
  have hlive := h.live hi
  have hentries := entries_congr h.dentries (h.listed hi)
  have hold : ∀ {n}, Live s n → n ≠ s.inodes.next := fun hn => Nat.ne_of_lt hn.1
  refine ⟨?_, ?_, ?_, ?_, ?_, ?_, ?_, ?_, ?_, ?_, ?_, ?_⟩
  · rw [h.root]
    exact (hlive _).2 (.inl hi.root)
  · rw [h.freed, h.next]
    exact fun n hn => Nat.lt_succ_of_lt (hi.bound n hn)
  · rw [h.freed]
    exact hi.once
  · rw [h.dead, h.dentries]
    exact hi.freed_bound
  · intro n hn e he
    obtain ⟨hn, he⟩ := h.in_list hi hn he
    obtain ⟨h1, h2, h3⟩ := hi.entry n hn e he
    refine ⟨by rwa [h.dentries], by rwa [h.dead], ?_⟩
    unfold target_inode
    rw [h.dentries]
    exact (hlive _).2 (.inl h3)
  · intro n hn
    rcases (hlive n).1 hn with hn | rfl
    · rw [h.get hn]
      exact hi.nodup n hn
    · rw [h.empty]
      exact List.nodup_nil
  · intro n m e hn hm hen hem
    obtain ⟨hn, hen⟩ := h.in_list hi hn hen
    obtain ⟨hm, hem⟩ := h.in_list hi hm hem
    exact hi.disjoint n m e hn hm hen hem
  · intro n hn
    rw [hentries, h.root]
    rcases (hlive n).1 hn with hn | rfl
    · rw [h.get hn]
      exact hi.counted n hn
    · -- What leads to an inode leads to a live one.
      have hnone : entries_of s s.inodes.next = ∅ := by
        refine Finset.eq_empty_of_forall_notMem fun e he => ?_
        obtain ⟨hl, ht⟩ := hi.mem_entries.1 he
        obtain ⟨m, hm, hem⟩ := listed_iff.1 hl
        exact hold (hi.entry m hm e hem).2.2 ht
      rw [h.count, hnone, if_neg (hold hi.root).symm]
      rfl
  · intro n hn
    rw [h.freed] at hn
    rw [h.others n (Nat.ne_of_lt (hi.bound n hn))]
    exact hi.dead n hn
  · rw [h.list_head]
    exact List.nodup_cons.2 ⟨fun hm => Nat.lt_irrefl _ ((hi.listed _).1 hm).1, hi.list_nodup⟩
  · intro n
    rw [hlive, ← hi.listed, h.list_head, List.mem_cons, or_comm]
  · intro n hn hx
    rcases (hlive n).1 hn with hn | rfl
    · rw [h.get hn]
      exact hi.positive n hn (by simp)
    · exact absurd rfl hx

/-- A new entry of `dir` that leads to `target`, the next one. -/
structure Linked (s s' : State) (dir target : Nat) : Prop where
  next : s'.inodes.next = s.inodes.next
  next_dentry : s'.dentries.next = s.dentries.next + 1
  root : s'.rootinode = s.rootinode
  freed : s'.freed_inodes = s.freed_inodes
  dead : s'.freed_dentries = s.freed_dentries
  list_head : s'.inode_list_head = s.inode_list_head
  new : target_inode s' s.dentries.next = target
  others : ∀ e, e ≠ s.dentries.next → target_inode s' e = target_inode s e
  count : ∀ n, (s'.inodes.get n).dentry_count = (s.inodes.get n).dentry_count + if n = target then 1 else 0
  list : ∀ n, (s'.inodes.get n).dentry_list_head =
    if n = dir then s.dentries.next :: (s.inodes.get n).dentry_list_head else (s.inodes.get n).dentry_list_head

theorem create_dentry_linked {mem : Memory} {dir target : Nat} {name : Name}
    (h : initramfs_create_dentry mem s dir target name = (s', some e)) : Linked s s' dir target := by
  unfold initramfs_create_dentry at h
  split at h
  · simp at h
  obtain ⟨hs', -⟩ := Prod.mk.inj h
  have hget : ∀ n, s'.inodes.get n = { s.inodes.get n with
      dentry_count := (s.inodes.get n).dentry_count + if n = target then 1 else 0
      dentry_list_head := if n = dir then s.dentries.next :: (s.inodes.get n).dentry_list_head
        else (s.inodes.get n).dentry_list_head } := by
    intro n
    rw [← hs']
    simp only [Pool.get_modify]
    -- The directory and the target may be the same inode.
    by_cases hd : n = dir <;> by_cases ht : n = target
    · subst hd
      simp [ht]
    · subst hd
      simp [ht]
    · subst ht
      simp [hd]
    · simp [hd, ht]
  have hdentries : s'.dentries = s.dentries.alloc { name, target_inode := target } := by rw [← hs']
  refine ⟨by rw [← hs']; rfl, by rw [hdentries]; rfl, by rw [← hs'], by rw [← hs'], by rw [← hs'], by rw [← hs'], ?_,
    ?_, fun n => by rw [hget], fun n => by rw [hget]⟩
  · unfold target_inode
    rw [hdentries, Pool.get_alloc_next]
  · intro e he
    unfold target_inode
    rw [hdentries, Pool.get_alloc, if_neg he]

section Linked
variable {dir target : Nat}

theorem Linked.live (h : Linked s s' dir target) (n : Nat) : Live s' n ↔ Live s n := by
  unfold Live
  rw [h.next, h.freed]

theorem Linked.mem (h : Linked s s' dir target) (n e : Nat) : e ∈ (s'.inodes.get n).dentry_list_head ↔
    e ∈ (s.inodes.get n).dentry_list_head ∨ (n = dir ∧ e = s.dentries.next) := by
  rw [h.list]
  split
  · rename_i hn
    simp [hn, or_comm]
  · rename_i hn
    simp [hn]

theorem Linked.listed (h : Linked s s' dir target) (hdir : Live s dir) (e : Nat) :
    Listed s' e ↔ Listed s e ∨ e = s.dentries.next := by
  simp only [listed_iff, h.live, h.mem]
  constructor
  · rintro ⟨n, hn, he | ⟨-, he⟩⟩
    · exact .inl ⟨n, hn, he⟩
    · exact .inr he
  · rintro (⟨n, hn, he⟩ | he)
    · exact ⟨n, hn, .inl he⟩
    · exact ⟨dir, hdir, .inr ⟨rfl, he⟩⟩

theorem next_notMem (s : State) (n : Nat) : s.dentries.next ∉ entries_of s n := by
  intro he
  simp [entries_of] at he

theorem Linked.entries (h : Linked s s' dir target) (hdir : Live s dir) (n : Nat) :
    entries_of s' n = if n = target then insert s.dentries.next (entries_of s n) else entries_of s n := by
  ext e
  by_cases he : e = s.dentries.next
  · subst he
    have hno := next_notMem s n
    simp only [entries_of, Finset.mem_filter, Finset.mem_range, h.listed hdir, h.new, h.next_dentry]
    split
    · rename_i hn
      simp [hn]
    · rename_i hn
      simp [Ne.symm hn]
  · have hlt : e < s.dentries.next + 1 ↔ e < s.dentries.next := by omega
    simp only [entries_of, Finset.mem_filter, Finset.mem_range, h.listed hdir, h.others e he, h.next_dentry, he,
      or_false, hlt]
    split
    · simp [he]
    · simp

theorem Inv.linked (hi : Inv x s) (h : Linked s s' dir target) (hdir : Live s dir) (htarget : Live s target)
    (hx : ∀ n, x = some n → n = target) : Inv none s' := by
  have hlive := h.live
  have hold : ∀ n, Live s n → ∀ e ∈ (s.inodes.get n).dentry_list_head, e ≠ s.dentries.next :=
    fun n hn e he => Nat.ne_of_lt (hi.entry n hn e he).1
  refine ⟨?_, ?_, ?_, ?_, ?_, ?_, ?_, ?_, ?_, ?_, ?_, ?_⟩
  · rw [h.root, hlive]
    exact hi.root
  · rw [h.freed, h.next]
    exact hi.bound
  · rw [h.freed]
    exact hi.once
  · rw [h.dead, h.next_dentry]
    exact fun e he => Nat.lt_succ_of_lt (hi.freed_bound e he)
  · intro n hn e he
    rw [hlive] at hn
    rw [h.next_dentry, h.dead, hlive]
    rcases (h.mem n e).1 he with he | ⟨rfl, rfl⟩
    · obtain ⟨h1, h2, h3⟩ := hi.entry n hn e he
      rw [h.others e (hold n hn e he)]
      exact ⟨Nat.lt_succ_of_lt h1, h2, h3⟩
    · rw [h.new]
      exact ⟨Nat.lt_succ_self _, fun hf => Nat.lt_irrefl _ (hi.freed_bound _ hf), htarget⟩
  · intro n hn
    rw [hlive] at hn
    rw [h.list]
    split
    · exact List.nodup_cons.2 ⟨fun he => hold n hn _ he rfl, hi.nodup n hn⟩
    · exact hi.nodup n hn
  · intro n m e hn hm hen hem
    rw [hlive] at hn hm
    rcases (h.mem n e).1 hen with hen | ⟨rfl, rfl⟩
    · rcases (h.mem m e).1 hem with hem | ⟨rfl, rfl⟩
      · exact hi.disjoint n m e hn hm hen hem
      · exact absurd rfl (hold n hn _ hen)
    · rcases (h.mem m s.dentries.next).1 hem with hem | ⟨rfl, -⟩
      · exact absurd rfl (hold m hm _ hem)
      · rfl
  · intro n hn
    rw [hlive] at hn
    rw [h.count, h.entries hdir, h.root, hi.counted n hn]
    by_cases ht : n = target
    · rw [if_pos ht, if_pos ht, Finset.card_insert_of_notMem (next_notMem s n)]
      push_cast
      omega
    · rw [if_neg ht, if_neg ht, add_zero]
  · intro n hn
    rw [h.freed] at hn
    have hne : n ≠ target := by
      rintro rfl
      exact htarget.2 hn
    rw [h.count, if_neg hne, hi.dead n hn]
    rfl
  · rw [h.list_head]
    exact hi.list_nodup
  · simp only [h.list_head, hlive]
    exact hi.listed
  · intro n hn _
    rw [hlive] at hn
    rw [h.count]
    by_cases ht : n = target
    · have hc := hi.counted n hn
      rw [if_pos ht]
      omega
    · have hpos := hi.positive n hn fun hxn => ht (hx n hxn)
      rw [if_neg ht]
      omega

end Linked

/-- Without memory for an entry nothing happens. -/
theorem create_dentry_none {mem : Memory} {dir target : Nat} {name : Name}
    (h : initramfs_create_dentry mem s dir target name = (s', none)) : s' = s := by
  unfold initramfs_create_dentry at h
  split at h
  · exact (Prod.mk.inj h).1.symm
  · simp at h

/-- An inode that got no entry is taken from the list and freed. -/
theorem Inv.put_back (hi : Inv (some n) s) (hn : Live s n) (h0 : (s.inodes.get n).dentry_count = 0)
    (hempty : (s.inodes.get n).dentry_list_head = []) :
    Inv none (initramfs_inode_put { s with inode_list_head := s.inode_list_head.erase n } n) := by
  obtain ⟨hno, hroot⟩ := hi.no_entries hn h0
  generalize hs' : initramfs_inode_put { s with inode_list_head := s.inode_list_head.erase n } n = s'
  have hinodes : s'.inodes = s.inodes := by rw [← hs']; rfl
  have hdentries : s'.dentries = s.dentries := by rw [← hs']; rfl
  have hfreed : s'.freed_inodes = n :: s.freed_inodes := by rw [← hs']; rfl
  have hdead : s'.freed_dentries = s.freed_dentries := by rw [← hs']; rfl
  have hrooti : s'.rootinode = s.rootinode := by rw [← hs']; rfl
  have hlive : ∀ m, Live s' m ↔ Live s m ∧ m ≠ n := by
    intro m
    unfold Live
    rw [hinodes, hfreed, List.mem_cons, not_or]
    tauto
  have htarget : ∀ e, target_inode s' e = target_inode s e := by
    intro e
    unfold target_inode
    rw [hdentries]
  have hlisted : ∀ e, Listed s' e ↔ Listed s e := by
    intro e
    simp only [listed_iff, hlive, hinodes]
    constructor
    · rintro ⟨m, ⟨hm, -⟩, he⟩
      exact ⟨m, hm, he⟩
    · rintro ⟨m, hm, he⟩
      refine ⟨m, ⟨hm, ?_⟩, he⟩
      rintro rfl
      rw [hempty] at he
      exact absurd he List.not_mem_nil
  have hentries := entries_congr hdentries hlisted
  refine ⟨?_, ?_, ?_, ?_, ?_, ?_, ?_, ?_, ?_, ?_, ?_, ?_⟩
  · rw [hrooti, hlive]
    exact ⟨hi.root, hroot.symm⟩
  · rw [hfreed, hinodes]
    exact List.forall_mem_cons.2 ⟨hn.1, hi.bound⟩
  · rw [hfreed]
    exact List.nodup_cons.2 ⟨hn.2, hi.once⟩
  · rw [hdead, hdentries]
    exact hi.freed_bound
  · intro m hm e he
    obtain ⟨hm, -⟩ := (hlive m).1 hm
    rw [hinodes] at he
    obtain ⟨h1, h2, h3⟩ := hi.entry m hm e he
    refine ⟨by rwa [hdentries], by rwa [hdead], ?_⟩
    rw [htarget, hlive]
    refine ⟨h3, fun ht => ?_⟩
    have hin : e ∈ entries_of s n := hi.mem_entries.2 ⟨listed_iff.2 ⟨m, hm, he⟩, ht⟩
    rw [hno] at hin
    exact absurd hin (Finset.notMem_empty e)
  · intro m hm
    rw [hinodes]
    exact hi.nodup m ((hlive m).1 hm).1
  · intro m k e hm hk
    rw [hinodes]
    exact hi.disjoint m k e ((hlive m).1 hm).1 ((hlive k).1 hk).1
  · intro m hm
    rw [hinodes, hentries, hrooti]
    exact hi.counted m ((hlive m).1 hm).1
  · rw [hfreed, hinodes]
    exact List.forall_mem_cons.2 ⟨h0, hi.dead⟩
  · rw [← hs']
    exact hi.list_nodup.erase n
  · intro m
    rw [hlive, ← hi.listed, ← hs']
    exact hi.list_nodup.mem_erase_iff.trans and_comm
  · intro m hm _
    obtain ⟨hm, hmn⟩ := (hlive m).1 hm
    rw [hinodes]
    exact hi.positive m hm fun h => hmn (Option.some.inj h).symm

/-! ## Taking entries away -/

/-- The entry `e` is freed, with the inode it leads to if it was the last one. The
lists of the directories are left open. -/
structure Put (s s' : State) (e : Nat) : Prop where
  next : s'.inodes.next = s.inodes.next
  dentries : s'.dentries = s.dentries
  root : s'.rootinode = s.rootinode
  dead : s'.freed_dentries = e :: s.freed_dentries
  count : ∀ n, (s'.inodes.get n).dentry_count =
    (s.inodes.get n).dentry_count - if n = target_inode s e then 1 else 0
  last : (s.inodes.get (target_inode s e)).dentry_count = 1 →
    s'.freed_inodes = target_inode s e :: s.freed_inodes ∧ s'.inode_list_head = s.inode_list_head.erase (target_inode s e)
  more : (s.inodes.get (target_inode s e)).dentry_count ≠ 1 →
    s'.freed_inodes = s.freed_inodes ∧ s'.inode_list_head = s.inode_list_head

theorem dentry_put_put (s : State) (e : Nat) : Put s (dentry_put s e) e ∧
    ∀ n, ((dentry_put s e).inodes.get n).dentry_list_head = (s.inodes.get n).dentry_list_head := by
  generalize hs₁ : ({ s with inodes := s.inodes.modify (target_inode s e) fun i =>
    { i with dentry_count := i.dentry_count - 1 } } : State) = s₁
  have hcount : ∀ n, (s₁.inodes.get n).dentry_count =
      (s.inodes.get n).dentry_count - if n = target_inode s e then 1 else 0 := by
    intro n
    rw [← hs₁]
    simp only [Pool.get_modify]
    split
    · rename_i hn
      rw [hn]
    · simp
  have hlist : ∀ n, (s₁.inodes.get n).dentry_list_head = (s.inodes.get n).dentry_list_head := by
    intro n
    rw [← hs₁]
    simp only [Pool.get_modify]
    split
    · rename_i hn
      rw [hn]
    · rfl
  have htarget := hcount (target_inode s e)
  rw [if_pos rfl] at htarget
  unfold dentry_put
  simp only [hs₁]
  by_cases h1 : (s.inodes.get (target_inode s e)).dentry_count = 1
  · have h0 : (s₁.inodes.get (target_inode s e)).dentry_count = 0 := by omega
    subst hs₁
    rw [if_pos h0]
    exact ⟨⟨rfl, rfl, rfl, rfl, hcount, fun _ => ⟨rfl, rfl⟩, fun h => absurd h1 h⟩, hlist⟩
  · have h0 : (s₁.inodes.get (target_inode s e)).dentry_count ≠ 0 := by omega
    subst hs₁
    rw [if_neg h0]
    exact ⟨⟨rfl, rfl, rfl, rfl, hcount, fun h => absurd h h1, fun _ => ⟨rfl, rfl⟩⟩, hlist⟩

/-- Off its list first. -/
theorem list_del_put (s : State) (e : Nat) : Put s (dentry_put (list_del s e) e) e ∧
    ∀ n, ((dentry_put (list_del s e) e).inodes.get n).dentry_list_head = (s.inodes.get n).dentry_list_head.erase e := by
  obtain ⟨h, hlist⟩ := dentry_put_put (list_del s e) e
  exact ⟨⟨h.next, h.dentries, h.root, h.dead, h.count, h.last, h.more⟩, hlist⟩

theorem Put.target (hp : Put s s' e) (y : Nat) : target_inode s' y = target_inode s y := by
  unfold target_inode
  rw [hp.dentries]

/-- Only the inode of the last entry goes. -/
theorem Put.live (hp : Put s s' e) (n : Nat) : Live s' n ↔
    Live s n ∧ ¬((s.inodes.get (target_inode s e)).dentry_count = 1 ∧ n = target_inode s e) := by
  unfold Live
  by_cases h1 : (s.inodes.get (target_inode s e)).dentry_count = 1
  · rw [hp.next, (hp.last h1).1, List.mem_cons]
    tauto
  · rw [hp.next, (hp.more h1).1]
    tauto

/-- The entries that lead to the target of a listed entry. -/
theorem Inv.target (hi : Inv x s) (he : Listed s e) :
    Live s (target_inode s e) ∧ e ∈ entries_of s (target_inode s e) ∧
      ((s.inodes.get (target_inode s e)).dentry_count = 1 →
        target_inode s e ≠ s.rootinode ∧ (entries_of s (target_inode s e)).card = 1) := by
  have hmem : e ∈ entries_of s (target_inode s e) := hi.mem_entries.2 ⟨he, rfl⟩
  have hpos := Finset.card_pos.2 ⟨e, hmem⟩
  obtain ⟨n, hn, hen⟩ := listed_iff.1 he
  have ht := (hi.entry n hn e hen).2.2
  refine ⟨ht, hmem, fun h1 => ?_⟩
  have hcount := hi.counted _ ht
  rw [h1] at hcount
  split at hcount
  · omega
  · rename_i hroot
    exact ⟨hroot, by omega⟩

section Put
variable (hi : Inv none s) (he : Listed s e) (hp : Put s s' e)
  (hlist : ∀ n, Live s' n → (s'.inodes.get n).dentry_list_head = (s.inodes.get n).dentry_list_head.erase e)
  (hlast : (s.inodes.get (target_inode s e)).dentry_count = 1 →
    ∀ y ∈ (s.inodes.get (target_inode s e)).dentry_list_head, y = e)
include hi hp hlist

theorem Put.mem (hn : Live s' n) (y : Nat) : y ∈ (s'.inodes.get n).dentry_list_head ↔
    y ≠ e ∧ y ∈ (s.inodes.get n).dentry_list_head := by
  rw [hlist n hn]
  exact (hi.nodup n ((hp.live n).1 hn).1).mem_erase_iff

include hlast

theorem Put.listed (y : Nat) : Listed s' y ↔ Listed s y ∧ y ≠ e := by
  rw [listed_iff, listed_iff]
  constructor
  · rintro ⟨n, hn, hy⟩
    obtain ⟨hne, hy⟩ := (Put.mem hi hp hlist hn y).1 hy
    exact ⟨⟨n, ((hp.live n).1 hn).1, hy⟩, hne⟩
  · rintro ⟨⟨n, hn, hy⟩, hne⟩
    -- A directory that goes has only `e`.
    have hn' : Live s' n := by
      refine (hp.live n).2 ⟨hn, ?_⟩
      rintro ⟨h1, rfl⟩
      exact hne (hlast h1 y hy)
    exact ⟨n, hn', (Put.mem hi hp hlist hn' y).2 ⟨hne, hy⟩⟩

theorem Put.entries (n : Nat) : entries_of s' n = (entries_of s n).erase e := by
  ext y
  simp only [entries_of, Finset.mem_erase, Finset.mem_filter, Put.listed hi hp hlist hlast, hp.target, hp.dentries]
  tauto

include he

/-- The entry goes from its list too, and the last entry of an inode takes no
others with it. -/
theorem Inv.put : Inv none s' := by
  obtain ⟨ht, hemem, hone⟩ := hi.target he
  have hlive := hp.live
  have hmem : ∀ n, Live s' n → ∀ y, y ∈ (s'.inodes.get n).dentry_list_head ↔
      y ≠ e ∧ y ∈ (s.inodes.get n).dentry_list_head := fun n hn => Put.mem hi hp hlist hn
  have hentries := Put.entries hi hp hlist hlast
  -- An entry that stays does not lead to the inode that goes.
  have hstay : ∀ y, Listed s y → y ≠ e → Live s' (target_inode s y) := by
    intro y hy hne
    refine (hlive _).2 ⟨(hi.target hy).1, ?_⟩
    rintro ⟨h1, hty⟩
    have htwo := Finset.one_lt_card.2 ⟨y, hi.mem_entries.2 ⟨hy, hty⟩, e, hemem, hne⟩
    have hcard := (hone h1).2
    omega
  refine ⟨?_, ?_, ?_, ?_, ?_, ?_, ?_, ?_, ?_, ?_, ?_, ?_⟩
  · rw [hp.root, hlive]
    exact ⟨hi.root, fun ⟨h1, h⟩ => (hone h1).1 h.symm⟩
  · by_cases h1 : (s.inodes.get (target_inode s e)).dentry_count = 1
    · rw [(hp.last h1).1, hp.next]
      exact List.forall_mem_cons.2 ⟨ht.1, hi.bound⟩
    · rw [(hp.more h1).1, hp.next]
      exact hi.bound
  · by_cases h1 : (s.inodes.get (target_inode s e)).dentry_count = 1
    · rw [(hp.last h1).1]
      exact List.nodup_cons.2 ⟨ht.2, hi.once⟩
    · rw [(hp.more h1).1]
      exact hi.once
  · rw [hp.dead, hp.dentries]
    exact List.forall_mem_cons.2 ⟨Finset.mem_range.1 (Finset.mem_filter.1 hemem).1, hi.freed_bound⟩
  · intro n hn y hy
    obtain ⟨hne, hy⟩ := (hmem n hn y).1 hy
    have hn := ((hlive n).1 hn).1
    obtain ⟨h1, h2, -⟩ := hi.entry n hn y hy
    refine ⟨by rwa [hp.dentries], ?_, ?_⟩
    · rw [hp.dead]
      exact List.not_mem_cons_of_ne_of_not_mem hne h2
    · rw [hp.target]
      exact hstay y (listed_iff.2 ⟨n, hn, hy⟩) hne
  · intro n hn
    rw [hlist n hn]
    exact (hi.nodup n ((hlive n).1 hn).1).erase e
  · intro n m y hn hm hyn hym
    exact hi.disjoint n m y ((hlive n).1 hn).1 ((hlive m).1 hm).1 ((hmem n hn y).1 hyn).2 ((hmem m hm y).1 hym).2
  · intro n hn
    have hcount := hi.counted n ((hlive n).1 hn).1
    rw [hp.count, hentries, hp.root, hcount]
    -- The count and the entries lose one each, or both stay.
    by_cases hnt : n = target_inode s e
    · rw [← hnt] at hemem
      have hcard := Finset.card_erase_add_one hemem
      rw [if_pos hnt]
      omega
    · have hno : e ∉ entries_of s n := fun h => hnt (hi.mem_entries.1 h).2.symm
      rw [if_neg hnt, Finset.erase_eq_of_notMem hno, sub_zero]
  · intro n hn
    rw [hp.count]
    by_cases h1 : (s.inodes.get (target_inode s e)).dentry_count = 1
    · rw [(hp.last h1).1] at hn
      by_cases hnt : n = target_inode s e
      · rw [if_pos hnt, hnt, h1]
        rfl
      · rw [if_neg hnt, hi.dead n (List.mem_of_ne_of_mem hnt hn)]
        rfl
    · rw [(hp.more h1).1] at hn
      have hnt : n ≠ target_inode s e := fun h => ht.2 (h ▸ hn)
      rw [if_neg hnt, hi.dead n hn]
      rfl
  · by_cases h1 : (s.inodes.get (target_inode s e)).dentry_count = 1
    · rw [(hp.last h1).2]
      exact hi.list_nodup.erase _
    · rw [(hp.more h1).2]
      exact hi.list_nodup
  · intro n
    by_cases h1 : (s.inodes.get (target_inode s e)).dentry_count = 1
    · rw [(hp.last h1).2, hlive, hi.list_nodup.mem_erase_iff, hi.listed]
      tauto
    · rw [(hp.more h1).2, hlive, hi.listed]
      tauto
  · intro n hn _
    obtain ⟨hn, hgone⟩ := (hlive n).1 hn
    have hpos := hi.positive n hn (by simp)
    rw [hp.count]
    split
    · rename_i hnt
      have h1 : (s.inodes.get n).dentry_count ≠ 1 := fun h => hgone ⟨hnt ▸ h, hnt⟩
      omega
    · omega

end Put

/-- An inode that goes while its list has other entries leaves the counts of what
they lead to too high. -/
theorem lost {y : Nat} (hi : Inv none s) (he : Listed s e) (hp : Put s s' e)
    (hsub : ∀ n, (s'.inodes.get n).dentry_list_head ⊆ (s.inodes.get n).dentry_list_head)
    (h1 : (s.inodes.get (target_inode s e)).dentry_count = 1)
    (hy : y ∈ (s.inodes.get (target_inode s e)).dentry_list_head) (hne : y ≠ e) : ¬Links s' := by
  obtain ⟨ht, hemem, hone⟩ := hi.target he
  have hylisted : Listed s y := listed_iff.2 ⟨_, ht, hy⟩
  obtain ⟨hu, hymem, -⟩ := hi.target hylisted
  have hut : target_inode s y ≠ target_inode s e := by
    intro h
    rw [h] at hymem
    have htwo := Finset.one_lt_card.2 ⟨y, hymem, e, hemem, hne⟩
    have hcard := (hone h1).2
    omega
  have hlisted : ∀ z, Listed s' z → Listed s z ∧ z ≠ y := by
    intro z hz
    obtain ⟨n, hn, hz⟩ := listed_iff.1 hz
    obtain ⟨hn, hgone⟩ := (hp.live n).1 hn
    refine ⟨listed_iff.2 ⟨n, hn, hsub n hz⟩, ?_⟩
    rintro rfl
    exact hgone ⟨h1, hi.disjoint n _ z hn ht (hsub n hz) hy⟩
  -- The count of its target stays, but `y` is in no directory any more.
  have hfewer : entries_of s' (target_inode s y) ⊂ entries_of s (target_inode s y) := by
    refine (Finset.ssubset_iff_of_subset fun z hz => ?_).2 ⟨y, hymem, fun h => ?_⟩
    · obtain ⟨-, hz, hzt⟩ := Finset.mem_filter.1 hz
      exact hi.mem_entries.2 ⟨(hlisted z hz).1, by rwa [← hp.target]⟩
    · exact (hlisted y (Finset.mem_filter.1 h).2.1).2 rfl
  intro hl
  have hcount := hi.counted _ hu
  have hcount' := hl.counted _ ((hp.live _).2 ⟨hu, fun h => hut h.2⟩)
  rw [hp.count, if_neg hut, hp.root, hcount, sub_zero] at hcount'
  have hcard := Finset.card_lt_card hfewer
  omega

end Invariant

/-! ## The calls -/

section Calls
variable {s : State} {mem : Memory} {dir dentry : Nat} {name : Name}

/-- However far it gets. -/
theorem create_inode_inv (hi : Inv none s) (hdir : Live s dir) : Inv none (initramfs_create_inode mem s dir name).1 := by
  unfold initramfs_create_inode
  split
  · rename_i s₁ hempty
    unfold initramfs_create_empty_inode at hempty
    split at hempty
    · simp at hempty
    · rw [← (Prod.mk.inj hempty).1]
      exact hi
  rename_i s₁ n hempty
  obtain ⟨rfl, hmade⟩ := create_empty_made hempty
  have hi₁ := hi.made hmade
  have hn := (hmade.live hi _).2 (.inr rfl)
  split
  · rename_i s₂ hfail
    rw [create_dentry_none hfail]
    exact hi₁.put_back hn hmade.count hmade.empty
  · rename_i s₂ e hdentry
    have hdir₁ := (hmade.live hi dir).2 (.inl hdir)
    exact hi₁.linked (create_dentry_linked hdentry) hdir₁ hn fun m hm => (Option.some.inj hm).symm

theorem create_dir_inv (hi : Inv none s) (hdir : Live s dir) : Inv none (initramfs_create_dir mem s dir name).1 := by
  have hmade : Inv none (initramfs_create_inode mem s dir name).1 := create_inode_inv hi hdir
  unfold initramfs_create_dir
  split
  · rename_i s₁ hnone
    rwa [hnone] at hmade
  · rename_i s₁ e hsome
    rw [hsome] at hmade
    exact hmade.set_mode e _

theorem finish_inv {r : State × Option Nat} (mode : Nat) (hi : Inv none r.1) : Inv none (finish mem mode r).1 := by
  obtain ⟨s₁, _ | file⟩ := r
  · exact hi
  · exact hi.set_mode file mode

theorem create_inv {mode : Nat} (hi : Inv none s) (hdir : Live s dir) : Inv none (initramfs_create mem s dir name mode).1 := by
  apply finish_inv mode
  split
  · exact hi
  · exact create_inode_inv hi hdir

theorem mkdir_inv {mode : Nat} (hi : Inv none s) (hdir : Live s dir) : Inv none (initramfs_mkdir mem s dir name mode).1 := by
  apply finish_inv _
  split
  · exact hi
  · exact create_dir_inv hi hdir

theorem link_inv {old : Nat} (hi : Inv none s) (hold : Live s old) (hdir : Live s dir) :
    Inv none (initramfs_link mem s old dir name).1 := by
  unfold initramfs_link
  split
  · rename_i s₁ hfail
    rw [create_dentry_none hfail]
    exact hi
  · rename_i s₁ e hdentry
    exact hi.linked (create_dentry_linked hdentry) hdir hold (by simp)

theorem unlink_spec (hi : Inv none s) (hv : Valid s (.unlink dir dentry)) :
    (good s (.unlink dir dentry) → Inv none (initramfs_unlink s dentry).1) ∧
      (¬good s (.unlink dir dentry) → ¬Links (initramfs_unlink s dentry).1) := by
  have he : Listed s dentry := listed_iff.2 ⟨dir, hv.1, hv.2⟩
  obtain ⟨hp, hlist⟩ := list_del_put s dentry
  unfold initramfs_unlink initramfs_delete_dentry good
  by_cases hr : Refused s dentry
  · rw [if_pos hr]
    exact ⟨fun _ => hi, fun hbad => absurd (.inl hr) hbad⟩
  rw [if_neg hr]
  refine ⟨fun hg => hi.put he hp (fun n _ => hlist n) fun h1 => ?_, ?_⟩
  · rcases hg with h | h | h
    · exact absurd h hr
    · exact absurd h1 h
    · exact h
  · intro hbad
    simp only [not_or, not_not, not_forall] at hbad
    obtain ⟨-, h1, y, hy, hne⟩ := hbad
    refine lost hi he hp (fun n => ?_) h1 hy hne
    rw [hlist]
    exact List.erase_subset

/-- The entry stays in the list it is in. -/
theorem rmdir_spec (hi : Inv none s) (hv : Valid s (.rmdir dir dentry)) :
    (good s (.rmdir dir dentry) → Inv none (initramfs_rmdir s dentry).1) ∧
      (¬good s (.rmdir dir dentry) → ¬Links (initramfs_rmdir s dentry).1) := by
  obtain ⟨hdir, hmem⟩ := hv
  have he : Listed s dentry := listed_iff.2 ⟨dir, hdir, hmem⟩
  obtain ⟨hp, hlist⟩ := dentry_put_put s dentry
  unfold initramfs_rmdir initramfs_release_dentry good
  constructor
  · rintro ⟨ht, h1, hlast⟩
    refine hi.put he hp (fun n hn => ?_) fun _ => ?_
    · obtain ⟨hn, hgone⟩ := (hp.live n).1 hn
      rw [hlist, List.erase_of_not_mem]
      intro h
      exact hgone ⟨by rw [ht, h1], by rw [ht]; exact hi.disjoint n dir dentry hn hdir h hmem⟩
    · rw [ht]
      exact hlast
  · intro hbad
    by_cases hgone : (s.inodes.get (target_inode s dentry)).dentry_count = 1 ∧ dir = target_inode s dentry
    · obtain ⟨h1, ht⟩ := hgone
      -- The directory goes with its list, which has another entry.
      have hother : ¬∀ e ∈ (s.inodes.get dir).dentry_list_head, e = dentry :=
        fun h => hbad ⟨ht.symm, by rw [ht]; exact h1, h⟩
      simp only [not_forall] at hother
      obtain ⟨y, hy, hne⟩ := hother
      rw [ht] at hy
      exact lost hi he hp (fun n => by rw [hlist]; exact List.Subset.refl _) h1 hy hne
    · -- The directory is still there, and so is the freed entry in its list.
      intro hl
      refine hl.entries dir ((hp.live dir).2 ⟨hdir, hgone⟩) dentry ?_ ?_
      · rwa [hlist]
      · rw [hp.dead]
        exact List.mem_cons_self

/-- The step lemma: a call keeps the counts and lists if and only if it meets the
condition. -/
theorem call_spec {c : Call} (hi : Inv none s) (hv : Valid s c) :
    (good s c → Inv none (call s c).1) ∧ (¬good s c → ¬Links (call s c).1) := by
  cases c with
  | create mem dir name mode => exact ⟨fun _ => create_inv hi hv, fun hbad => absurd trivial hbad⟩
  | mkdir mem dir name mode => exact ⟨fun _ => mkdir_inv hi hv, fun hbad => absurd trivial hbad⟩
  | link mem old dir name => exact ⟨fun _ => link_inv hi hv.1 hv.2, fun hbad => absurd trivial hbad⟩
  | unlink dir dentry => exact unlink_spec hi hv
  | rmdir dir dentry => exact rmdir_spec hi hv

theorem reachable_inv (h : Reachable Init Step s) : Inv none s :=
  h.inv _ (fun _ h0 => init_inv h0) fun _ _ hi ⟨_, hv, hg, hs⟩ => hs ▸ (call_spec hi hv).1 hg

/-- In every run whose calls meet the condition counts and lists are right, and
the next call leaves them so exactly if it meets the condition too. -/
theorem link_counts (h : Reachable Init Step s) :
    Links s ∧ ∀ c, Valid s c → (Links (call s c).1 ↔ good s c) := by
  have hi := reachable_inv h
  refine ⟨hi.links, fun c hv => ?_⟩
  obtain ⟨hkeep, hlose⟩ := call_spec hi hv
  exact ⟨fun hl => by_contra fun hbad => hlose hbad hl, fun hg => (hkeep hg).links⟩

/-! ## A file with two names -/

def memory : Memory := { inode := true, dentry := true, name := true, vfs_inode := true }
def create_f : Call := .create memory 0 ['f'] (S_IFREG ||| 0o644)
def link_g : Call := .link memory 1 0 ['g']
def mkdir_d : Call := .mkdir memory 0 ['d'] 0o755

/-- `/f` is made, `/g` is linked to it and `/f` unlinked: one name is left. -/
theorem link_counts_names : Links (call (call (call initramfs_superblock_create create_f).1 link_g).1 (.unlink 0 0)).1 := by
  refine ((link_counts (.next (.next (.start rfl) ⟨create_f, ?_, trivial, rfl⟩) ⟨link_g, ?_, trivial, rfl⟩)).2 _ ?_).2 ?_
  · show Live initramfs_superblock_create 0
    decide
  · exact ⟨by decide, by decide⟩
  · exact ⟨by decide, by decide⟩
  · exact .inr (.inl (by decide))

/-- `initramfs_rmdir` of `/d` leaves its freed entry in the list of the root. -/
theorem rmdir_listed :
    ¬∀ s, Reachable Init (fun s s' => ∃ c, Valid s c ∧ s' = (call s c).1) s → Links s := by
  intro hall
  have hroot : Live initramfs_superblock_create 0 := by decide
  have hl := hall (call (call initramfs_superblock_create mkdir_d).1 (.rmdir 0 0)).1
    (.next (.next (.start rfl) ⟨mkdir_d, hroot, rfl⟩) ⟨.rmdir 0 0, ⟨by decide, by decide⟩, rfl⟩)
  exact hl.entries 0 (by decide) 0 (by decide) (by decide)

end Calls

end McLinOS.LinkCounts
