import Mathlib.Data.List.Pairwise
import Mathlib.Data.List.Nodup
import McLinOS.Fs.CharDevice
/-!
# Finding a character device

The invariant of the table over all calls, and what a lookup does under it.
-/
open CLib

set_option linter.style.nameCheck false

namespace McLinOS.CharDevice

/-- The entry that a call has made. -/
def MadeBy (cd : char_device_struct) (ops : Nat) (c : Call) : Prop :=
  ∃ mem mem' major, (major = cd.major ∨ major = 0) ∧ c = .register_chrdev mem mem' major cd.baseminor cd.minorct ops

structure Inv (calls : List Call) (s : Table) : Prop where
  ordered : Ordered s
  entry : ∀ i, ∀ cd ∈ s.chrdevs i, cd < s.cds.next ∧ major_to_index (s.cds.get cd).major = i ∧
    (s.cds.get cd).baseminor + (s.cds.get cd).minorct < 2 ^ 32
  freed : ∀ c ∈ s.freed, c < s.cdevs.next
  owned : ∀ cd, Current s cd → ∀ c, (s.cds.get cd).cdev = some c → c < s.cdevs.next ∧ c ∉ s.freed ∧
    ∀ cd', Current s cd' → (s.cds.get cd').cdev = some c → cd' = cd
  made : ∀ cd, Current s cd → ∀ c, (s.cds.get cd).cdev = some c → ∃ call ∈ calls,
    MadeBy (s.cds.get cd) (s.cdevs.get c).ops call

section Table
variable {calls : List Call} {s s' : Table} {major baseminor minorct cd : Nat}

theorem empty_inv : Inv [] empty where
  ordered := fun _ => ⟨List.nodup_nil, List.Pairwise.nil⟩
  entry := nofun
  freed := nofun
  owned := fun _ ⟨_, hm⟩ => nomatch hm
  made := fun _ ⟨_, hm⟩ => nomatch hm

theorem Inv.more (h : Inv calls s) (c : Call) : Inv (c :: calls) s := by
  refine ⟨h.ordered, h.entry, h.freed, h.owned, fun cd hcd p hp => ?_⟩
  obtain ⟨call, hcall, hmade⟩ := h.made cd hcd p hp
  exact ⟨call, List.mem_cons_of_mem _ hcall, hmade⟩

theorem Inv.cleared (h : Inv calls s) (mem : Bool) : Inv calls (kzalloc mem s) :=
  ⟨h.ordered, h.entry, h.freed, h.owned, h.made⟩

theorem Inv.same {mem : Bool} (h : Inv calls s) (hs : s' = s ∨ s' = kzalloc mem s) : Inv calls s' := by
  rcases hs with rfl | rfl
  · exact h
  · exact h.cleared mem

/-- Entries may be taken out. -/
theorem Inv.fewer (h : Inv calls s) {chrdevs : Nat → List Nat} (hsub : ∀ i, (chrdevs i).Sublist (s.chrdevs i)) :
    Inv calls { s with chrdevs } := by
  have hcur : ∀ cd, Current { s with chrdevs } cd → Current s cd := fun cd ⟨i, hm⟩ => ⟨i, (hsub i).subset hm⟩
  refine ⟨fun i => ⟨(h.ordered i).1.sublist (hsub i), (h.ordered i).2.sublist (hsub i)⟩,
    fun i cd hm => h.entry i cd ((hsub i).subset hm), h.freed, fun cd hcd c hc => ?_, fun cd hcd => h.made cd (hcur cd hcd)⟩
  obtain ⟨hlt, hfree, hone⟩ := h.owned cd (hcur cd hcd) c hc
  exact ⟨hlt, hfree, fun cd' hcd' => hone cd' (hcur cd' hcd')⟩

/-! ## Registering -/

/-- The new range goes behind the entry `x`. -/
def Passes (s : Table) (major baseminor x : Nat) : Prop :=
  (s.cds.get x).major < major ∨ ((s.cds.get x).major = major ∧ (s.cds.get x).ends ≤ baseminor)

structure Placed (s : Table) (major baseminor minorct : Nat) (l pre post : List Nat) : Prop where
  split : l = pre ++ post
  ahead : ∀ x ∈ pre, Passes s major baseminor x
  behind : ∀ y ∈ post.head?, major < (s.cds.get y).major ∨
    (major = (s.cds.get y).major ∧ (baseminor + minorct) % 2 ^ 32 ≤ (s.cds.get y).baseminor)

theorem Placed.cons {l pre post : List Nat} {x : Nat} (h : Placed s major baseminor minorct l pre post)
    (hx : Passes s major baseminor x) : Placed s major baseminor minorct (x :: l) (x :: pre) post :=
  ⟨by rw [h.split, List.cons_append], List.forall_mem_cons.2 ⟨hx, h.ahead⟩, h.behind⟩

theorem place_spec {l pre post : List Nat} (h : place s major baseminor minorct l = some (pre, post)) :
    Placed s major baseminor minorct l pre post := by
  induction l generalizing pre with
  | nil =>
    obtain ⟨rfl, rfl⟩ := Prod.mk.inj (Option.some.inj h)
    exact ⟨rfl, nofun, nofun⟩
  | cons curr next ih =>
    have hpass : (place s major baseminor minorct next).map (fun r => (curr :: r.1, r.2)) = some (pre, post) →
        Passes s major baseminor curr → Placed s major baseminor minorct (curr :: next) pre post := by
      intro hmap hcurr
      obtain ⟨⟨pre', post'⟩, hplace, heq⟩ := Option.map_eq_some_iff.1 hmap
      obtain ⟨rfl, rfl⟩ := Prod.mk.inj heq
      exact (ih hplace).cons hcurr
    have hstop : some ([], curr :: next) = some (pre, post) → (major < (s.cds.get curr).major ∨
        (major = (s.cds.get curr).major ∧ (baseminor + minorct) % 2 ^ 32 ≤ (s.cds.get curr).baseminor)) →
        Placed s major baseminor minorct (curr :: next) pre post := by
      intro hsome hcurr
      obtain ⟨rfl, rfl⟩ := Prod.mk.inj (Option.some.inj hsome)
      exact ⟨rfl, nofun, fun y hy => Option.some.inj hy ▸ hcurr⟩
    rw [place] at h
    by_cases hlt : (s.cds.get curr).major < major
    · rw [if_pos hlt] at h
      exact hpass h (.inl hlt)
    · rw [if_neg hlt] at h
      by_cases hgt : (s.cds.get curr).major > major
      · rw [if_pos hgt] at h
        exact hstop h (.inl hgt)
      · have hmajor : (s.cds.get curr).major = major := by omega
        rw [if_neg hgt] at h
        by_cases hends : (s.cds.get curr).ends ≤ baseminor
        · rw [if_pos hends] at h
          exact hpass h (.inr ⟨hmajor, hends⟩)
        · rw [if_neg hends] at h
          by_cases hbase : (s.cds.get curr).baseminor ≥ (baseminor + minorct) % 2 ^ 32
          · rw [if_pos hbase] at h
            exact hstop h (.inr ⟨hmajor.symm, hbase⟩)
          · rw [if_neg hbase] at h
            cases h

theorem Before.trans {a b c : char_device_struct} (h : Before a b) (h' : Before b c) : Before a c := by
  unfold Before at *
  omega

/-- Where nothing wraps, the new range is between the two parts of the bucket. -/
theorem Placed.between {l pre post : List Nat} (h : Placed s major baseminor minorct l pre post)
    (hsmall : baseminor + minorct < 2 ^ 32) (hends : ∀ x ∈ l, (s.cds.get x).baseminor + (s.cds.get x).minorct < 2 ^ 32)
    (hsorted : l.Pairwise fun x y => Before (s.cds.get x) (s.cds.get y)) :
    (∀ x ∈ pre, Before (s.cds.get x) ⟨major, baseminor, minorct, none⟩) ∧
      (∀ y ∈ post, Before ⟨major, baseminor, minorct, none⟩ (s.cds.get y)) := by
  rw [h.split] at hends hsorted
  refine ⟨?_, ?_⟩
  · intro x hx
    have hpass := h.ahead x hx
    unfold Passes char_device_struct.ends at hpass
    rw [Nat.mod_eq_of_lt (hends x (List.mem_append_left _ hx))] at hpass
    exact hpass
  · have hhead := h.behind
    rw [Nat.mod_eq_of_lt hsmall] at hhead
    cases post with
    | nil => nofun
    | cons y ys =>
      have hy : Before ⟨major, baseminor, minorct, none⟩ (s.cds.get y) := hhead y rfl
      have hys := (List.pairwise_cons.1 (List.pairwise_append.1 hsorted).2.1).1
      exact List.forall_mem_cons.2 ⟨hy, fun z hz => hy.trans (hys z hz)⟩

theorem pairwise_insert {α : Type} {r : α → α → Prop} {pre post : List α} {a : α} (h : (pre ++ post).Pairwise r)
    (hpre : ∀ x ∈ pre, r x a) (hpost : ∀ y ∈ post, r a y) : (pre ++ a :: post).Pairwise r := by
  obtain ⟨h1, h2, h3⟩ := List.pairwise_append.1 h
  refine List.pairwise_append.2 ⟨h1, List.pairwise_cons.2 ⟨hpost, h2⟩, fun x hx => ?_⟩
  exact List.forall_mem_cons.2 ⟨hpre x hx, h3 x hx⟩

/-- The state with one entry more. -/
def with_entry (s : Table) (major baseminor minorct : Nat) (pre post : List Nat) : Table :=
  { s with
    cds := s.cds.alloc { major, baseminor, minorct, cdev := none }
    chrdevs := Function.update s.chrdevs (major_to_index major) (pre ++ s.cds.next :: post) }

section Insert
variable {pre post : List Nat}

theorem with_entry_old {i x : Nat} (h : Inv calls s) (hx : x ∈ s.chrdevs i) :
    (with_entry s major baseminor minorct pre post).cds.get x = s.cds.get x := Pool.get_alloc_lt (h.entry i x hx).1 _

theorem with_entry_new :
    (with_entry s major baseminor minorct pre post).cds.get s.cds.next = ⟨major, baseminor, minorct, none⟩ :=
  Pool.get_alloc_next _ _

theorem mem_with_entry {i x : Nat} (hsplit : s.chrdevs (major_to_index major) = pre ++ post)
    (hx : x ∈ (with_entry s major baseminor minorct pre post).chrdevs i) :
    x ∈ s.chrdevs i ∨ (x = s.cds.next ∧ i = major_to_index major) := by
  by_cases hi : i = major_to_index major
  · subst hi
    have hx' : x ∈ pre ++ s.cds.next :: post := by simpa [with_entry] using hx
    rw [hsplit]
    simp only [List.mem_append, List.mem_cons] at hx' ⊢
    tauto
  · exact .inl (by simpa [with_entry, Function.update_of_ne hi] using hx)

/-- The new entry has no cdev yet. -/
theorem with_entry_cdev {x c : Nat} (h : Inv calls s) (hsplit : s.chrdevs (major_to_index major) = pre ++ post)
    (hx : Current (with_entry s major baseminor minorct pre post) x)
    (hc : ((with_entry s major baseminor minorct pre post).cds.get x).cdev = some c) :
    Current s x ∧ (s.cds.get x).cdev = some c := by
  obtain ⟨i, hx⟩ := hx
  rcases mem_with_entry hsplit hx with hx | ⟨rfl, -⟩
  · exact ⟨⟨i, hx⟩, with_entry_old h hx ▸ hc⟩
  · rw [with_entry_new] at hc
    cases hc

theorem with_entry_ordered (h : Inv calls s) (hsmall : baseminor + minorct < 2 ^ 32)
    (hplace : Placed s major baseminor minorct (s.chrdevs (major_to_index major)) pre post) :
    Ordered (with_entry s major baseminor minorct pre post) := by
  intro i
  by_cases hi : i = major_to_index major
  · subst hi
    have hlist : (with_entry s major baseminor minorct pre post).chrdevs (major_to_index major) =
        pre ++ s.cds.next :: post := Function.update_self _ _ _
    obtain ⟨hnodup, hsorted⟩ := h.ordered (major_to_index major)
    have hentry := h.entry (major_to_index major)
    have hget : ∀ x ∈ s.chrdevs (major_to_index major), (with_entry s major baseminor minorct pre post).cds.get x = s.cds.get x :=
      fun x hx => with_entry_old h hx
    obtain ⟨hpre, hpost⟩ := hplace.between hsmall (fun x hx => (hentry x hx).2.2) hsorted
    rw [hplace.split] at hnodup hsorted hentry hget
    rw [hlist]
    refine ⟨List.nodup_middle.2 (List.nodup_cons.2 ⟨fun hm => Nat.lt_irrefl _ (hentry _ hm).1, hnodup⟩),
      pairwise_insert (hsorted.imp_of_mem fun hx hy hb => ?_) (fun x hx => ?_) fun y hy => ?_⟩
    · rw [hget _ hx, hget _ hy]
      exact hb
    · rw [with_entry_new, hget x (List.mem_append_left _ hx)]
      exact hpre x hx
    · rw [with_entry_new, hget y (List.mem_append_right _ hy)]
      exact hpost y hy
  · have hlist : (with_entry s major baseminor minorct pre post).chrdevs i = s.chrdevs i := Function.update_of_ne hi _ _
    rw [hlist]
    refine ⟨(h.ordered i).1, (h.ordered i).2.imp_of_mem fun hx hy hb => ?_⟩
    rw [with_entry_old h hx, with_entry_old h hy]
    exact hb

theorem Inv.insert (h : Inv calls s) (hsmall : baseminor + minorct < 2 ^ 32)
    (hplace : Placed s major baseminor minorct (s.chrdevs (major_to_index major)) pre post) :
    Inv calls (with_entry s major baseminor minorct pre post) := by
  refine ⟨with_entry_ordered h hsmall hplace, ?_, h.freed, ?_, ?_⟩
  · intro i x hx
    rcases mem_with_entry hplace.split hx with hx | ⟨rfl, rfl⟩
    · obtain ⟨hlt, hindex, hends⟩ := h.entry i x hx
      rw [with_entry_old h hx]
      exact ⟨Nat.lt_succ_of_lt hlt, hindex, hends⟩
    · rw [with_entry_new]
      exact ⟨Nat.lt_succ_self _, rfl, hsmall⟩
  · intro x hx c hc
    obtain ⟨hx', hc'⟩ := with_entry_cdev h hplace.split hx hc
    obtain ⟨hlt, hfree, hone⟩ := h.owned x hx' c hc'
    refine ⟨hlt, hfree, fun y hy hyc => ?_⟩
    obtain ⟨hy', hyc'⟩ := with_entry_cdev h hplace.split hy hyc
    exact hone y hy' hyc'
  · intro x hx c hc
    obtain ⟨⟨i, hx'⟩, hc'⟩ := with_entry_cdev h hplace.split hx hc
    rw [with_entry_old h hx']
    exact h.made x ⟨i, hx'⟩ c hc'

end Insert

/-- What `__register_chrdev_region` returns and leaves. -/
theorem register_region_cases (mem : Bool) (major : Nat) (h : Inv calls s) (hfits : RangeFits baseminor minorct) :
    (∃ t, ∃ e < 0, __register_chrdev_region mem s major baseminor minorct = (t, .error e) ∧ (t = s ∨ t = kzalloc mem s)) ∨
      ∃ s' cd, __register_chrdev_region mem s major baseminor minorct = (s', .ok cd) ∧ Inv calls s' ∧ Current s' cd ∧
        ∃ major', (major = major' ∨ major = 0) ∧ s'.cds.get cd = ⟨major', baseminor, minorct, none⟩ := by
  unfold __register_chrdev_region
  by_cases hmajor : major ≥ CHRDEV_MAJOR_MAX
  · exact .inl ⟨s, -EINVAL, by decide, by rw [if_pos hmajor], .inl rfl⟩
  by_cases hrange : minorct > (MINORMASK + 1 + 2 ^ 32 - baseminor) % 2 ^ 32
  · exact .inl ⟨s, -EINVAL, by decide, by rw [if_neg hmajor, if_pos hrange], .inl rfl⟩
  by_cases hmem : mem = false
  · exact .inl ⟨kzalloc mem s, -ENOMEM, by decide, by rw [if_neg hmajor, if_neg hrange, if_pos hmem], .inr rfl⟩
  rw [if_neg hmajor, if_neg hrange, if_neg hmem]
  have hsmall : baseminor + minorct < 2 ^ 32 := by
    unfold RangeFits MINORMASK MINORBITS at *
    omega
  cases hdyn : if major = 0 then find_dynamic_major s else some major with
  | none => exact .inl ⟨s, -EBUSY, by decide, rfl, .inl rfl⟩
  | some major' =>
    dsimp only
    cases hplace : place s major' baseminor minorct (s.chrdevs (major_to_index major')) with
    | none => exact .inl ⟨s, -EBUSY, by decide, rfl, .inl rfl⟩
    | some r =>
      refine .inr ⟨with_entry s major' baseminor minorct r.1 r.2, s.cds.next, rfl, h.insert hsmall (place_spec hplace),
        ⟨major_to_index major', ?_⟩, major', ?_, Pool.get_alloc_next _ _⟩
      · simp [with_entry]
      · by_cases hzero : major = 0
        · exact .inr hzero
        · rw [if_neg hzero] at hdyn
          exact .inl (Option.some.inj hdyn)

/-! ## Unregistering -/

theorem unregister_region_spec (major baseminor minorct : Nat) (h : Inv calls s) :
    ∃ chrdevs r, __unregister_chrdev_region s major baseminor minorct = ({ s with chrdevs }, r) ∧
      Inv calls { s with chrdevs } ∧ ∀ cd, r = some cd → Current s cd ∧ ¬Current { s with chrdevs } cd ∧
        ∀ x, Current { s with chrdevs } x → Current s x := by
  unfold __unregister_chrdev_region
  dsimp only
  split
  · exact ⟨s.chrdevs, none, rfl, h, nofun⟩
  · rename_i cd hfound
    have hcd := List.mem_of_find?_eq_some hfound
    have hsub : ∀ i, (Function.update s.chrdevs (major_to_index major)
        ((s.chrdevs (major_to_index major)).erase cd) i).Sublist (s.chrdevs i) := by
      intro i
      by_cases hi : i = major_to_index major
      · subst hi
        rw [Function.update_self]
        exact List.erase_sublist
      · rw [Function.update_of_ne hi]
    refine ⟨_, some cd, rfl, h.fewer hsub, fun x hx => ?_⟩
    obtain rfl := Option.some.inj hx
    refine ⟨⟨_, hcd⟩, fun ⟨i, hm⟩ => ?_, fun x ⟨i, hm⟩ => ⟨i, (hsub i).subset hm⟩⟩
    -- It was only in the bucket of its own major.
    have hi : i = major_to_index major := by
      rw [← (h.entry i cd ((hsub i).subset hm)).2.1, (h.entry _ cd hcd).2.1]
    subst hi
    dsimp only at hm
    rw [Function.update_self] at hm
    exact (List.Nodup.mem_erase_iff (h.ordered _).1).1 hm |>.1 rfl

theorem Inv.cdev_del {c : Nat} (h : Inv calls s) (hc : c < s.cdevs.next)
    (hno : ∀ cd, Current s cd → (s.cds.get cd).cdev ≠ some c) : Inv calls (cdev_del s c) := by
  refine ⟨h.ordered, h.entry, List.forall_mem_cons.2 ⟨hc, h.freed⟩, fun cd hcd p hp => ?_, h.made⟩
  obtain ⟨hlt, hfree, hone⟩ := h.owned cd hcd p hp
  exact ⟨hlt, fun hm => (List.mem_cons.1 hm).elim (fun heq => hno cd hcd (heq ▸ hp)) hfree, hone⟩

theorem unregister_chrdev_inv (h : Inv calls s) : Inv calls (__unregister_chrdev s major baseminor minorct) := by
  obtain ⟨chrdevs, r, hcall, hinv, hout⟩ := unregister_region_spec major baseminor minorct h
  rw [__unregister_chrdev, hcall]
  cases r with
  | none => exact hinv
  | some cd =>
    obtain ⟨hcd, hgone, hsub⟩ := hout cd rfl
    dsimp only
    cases hc : (s.cds.get cd).cdev with
    | none => exact hinv
    | some c =>
      obtain ⟨hlt, -, hone⟩ := h.owned cd hcd c hc
      refine hinv.cdev_del hlt fun x hx hxc => hgone ?_
      rw [← hone x (hsub x hx) hxc]
      exact hx

/-! ## The cdev of an entry -/

/-- The state in which the entry `cd` has a new cdev. -/
def with_cdev (s : Table) (cd : Nat) (p : cdev) : Table :=
  { s with cdevs := s.cdevs.alloc p, cds := s.cds.modify cd ({ · with cdev := some s.cdevs.next }) }

section Bind
variable {p : cdev}

theorem with_cdev_get (x : Nat) : (with_cdev s cd p).cds.get x =
    if x = cd then { s.cds.get cd with cdev := some s.cdevs.next } else s.cds.get x := by
  rw [with_cdev, Pool.get_modify]

/-- Ranges are as before. -/
theorem with_cdev_range (x : Nat) : ((with_cdev s cd p).cds.get x).major = (s.cds.get x).major ∧
    ((with_cdev s cd p).cds.get x).baseminor = (s.cds.get x).baseminor ∧
    ((with_cdev s cd p).cds.get x).minorct = (s.cds.get x).minorct := by
  rw [with_cdev_get]
  split
  · rename_i hx
    rw [hx]
    exact ⟨rfl, rfl, rfl⟩
  · exact ⟨rfl, rfl, rfl⟩

theorem with_cdev_cdev {x c : Nat} (hc : ((with_cdev s cd p).cds.get x).cdev = some c) :
    (x = cd ∧ c = s.cdevs.next) ∨ (x ≠ cd ∧ (s.cds.get x).cdev = some c) := by
  rw [with_cdev_get] at hc
  by_cases hx : x = cd
  · rw [if_pos hx] at hc
    exact .inl ⟨hx, (Option.some.inj hc).symm⟩
  · rw [if_neg hx] at hc
    exact .inr ⟨hx, hc⟩

theorem MadeBy.with_cdev {x ops : Nat} {call : Call} (h : MadeBy (s.cds.get x) ops call) :
    MadeBy ((with_cdev s cd p).cds.get x) ops call := by
  obtain ⟨mem, mem', m, hm, rfl⟩ := h
  obtain ⟨h1, h2, h3⟩ := @with_cdev_range s cd p x
  exact ⟨mem, mem', m, by rw [h1]; exact hm, by rw [h2, h3]⟩

theorem Inv.bind {call : Call} (h : Inv calls s) (hcd : Current s cd) (hmade : MadeBy (s.cds.get cd) p.ops call) :
    Inv (call :: calls) (with_cdev s cd p) := by
  refine ⟨fun i => ⟨(h.ordered i).1, (h.ordered i).2.imp fun {x y} hb => ?_⟩, ?_, ?_, ?_, ?_⟩
  · unfold Before at *
    obtain ⟨h1, h2, h3⟩ := @with_cdev_range s cd p x
    obtain ⟨h1', h2', -⟩ := @with_cdev_range s cd p y
    rw [h1, h2, h3, h1', h2']
    exact hb
  · intro i x hx
    obtain ⟨h1, h2, h3⟩ := @with_cdev_range s cd p x
    rw [h1, h2, h3]
    exact h.entry i x hx
  · intro c hc
    exact Nat.lt_succ_of_lt (h.freed c hc)
  · intro x hx c hc
    rcases with_cdev_cdev hc with ⟨rfl, rfl⟩ | ⟨hne, hc⟩
    · refine ⟨Nat.lt_succ_self _, fun hm => Nat.lt_irrefl _ (h.freed _ hm), fun y hy hyc => ?_⟩
      rcases with_cdev_cdev hyc with ⟨rfl, -⟩ | ⟨-, hyc⟩
      · rfl
      · exact absurd (h.owned y hy _ hyc).1 (Nat.lt_irrefl _)
    · obtain ⟨hlt, hfree, hone⟩ := h.owned x hx c hc
      refine ⟨Nat.lt_succ_of_lt hlt, hfree, fun y hy hyc => ?_⟩
      rcases with_cdev_cdev hyc with ⟨-, rfl⟩ | ⟨-, hyc⟩
      · exact absurd hlt (Nat.lt_irrefl _)
      · exact hone y hy hyc
  · intro x hx c hc
    rcases with_cdev_cdev hc with ⟨rfl, rfl⟩ | ⟨hne, hc⟩
    · refine ⟨call, List.mem_cons_self, MadeBy.with_cdev ?_⟩
      rw [CharDevice.with_cdev, Pool.get_alloc_next]
      exact hmade
    · obtain ⟨c', hc', hm⟩ := h.made x hx c hc
      refine ⟨c', List.mem_cons_of_mem _ hc', MadeBy.with_cdev ?_⟩
      rw [CharDevice.with_cdev, Pool.get_alloc_lt (h.owned x hx c hc).1]
      exact hm

end Bind

theorem register_chrdev_inv {mem mem' : Bool} {fops : Nat} (h : Inv calls s) (hfits : RangeFits baseminor minorct) :
    Inv (.register_chrdev mem mem' major baseminor minorct fops :: calls)
      (__register_chrdev mem mem' s major baseminor minorct fops).1 := by
  unfold __register_chrdev
  rcases register_region_cases mem major h hfits with ⟨t, e, -, hcall, ht⟩ |
    ⟨s', cd, hcall, hinv, hcd, major', hmajor, hget⟩
  · rw [hcall]
    exact (h.same ht).more _
  · rw [hcall]
    dsimp only
    by_cases hmem : mem' = false
    · rw [if_pos hmem]
      obtain ⟨_, _, hun, hinv', -⟩ := unregister_region_spec (s'.cds.get cd).major baseminor minorct (hinv.cleared _)
      rw [hun]
      exact hinv'.more _
    · rw [if_neg hmem]
      refine hinv.bind (p := ⟨fops, _, _⟩) hcd ?_
      rw [hget]
      exact ⟨mem, mem', major, hmajor, rfl⟩

/-- A call that succeeds leaves an entry with the given operations. -/
theorem register_chrdev_current {mem mem' : Bool} {fops : Nat} (h : Inv calls s) (hfits : RangeFits baseminor minorct)
    (hret : 0 ≤ (__register_chrdev mem mem' s major baseminor minorct fops).2) :
    let s' := (__register_chrdev mem mem' s major baseminor minorct fops).1
    ∃ cd c, Current s' cd ∧ s'.cds.get cd = ⟨(s'.cds.get cd).major, baseminor, minorct, some c⟩ ∧
      (major = (s'.cds.get cd).major ∨ major = 0) ∧ (s'.cdevs.get c).ops = fops := by
  unfold __register_chrdev at *
  rcases register_region_cases mem major h hfits with ⟨_, e, he, hcall, -⟩ | ⟨s', cd, hcall, -, ⟨i, hcd⟩, major', hmajor, hget⟩
  · rw [hcall] at hret
    exact absurd hret (Int.not_le.2 he)
  · rw [hcall] at hret ⊢
    dsimp only at hret ⊢
    by_cases hmem : mem' = false
    · rw [if_pos hmem] at hret
      exact absurd hret (show ¬(0 : Int) ≤ -ENOMEM by decide)
    · rw [if_neg hmem]
      refine ⟨cd, s'.cdevs.next, ⟨i, hcd⟩, ?_⟩
      simp only [Pool.get_modify, if_true, hget, Pool.get_alloc_next]
      exact ⟨trivial, hmajor, trivial⟩

/-! ## All calls -/

theorem minor_fits (n count : Nat) : RangeFits (MINOR n) count := by
  have : MINOR n < 2 ^ MINORBITS := Nat.mod_lt _ (by decide)
  unfold RangeFits MINORMASK MINORBITS at *
  omega

theorem unregister_until_inv {to_dev n : Nat} (fuel : Nat) (h : Inv calls s)
    (hrun : unregister_until to_dev fuel s n = some s') : Inv calls s' := by
  induction fuel generalizing s n with
  | zero => cases hrun
  | succ fuel ih =>
    rw [unregister_until] at hrun
    split at hrun
    · obtain ⟨_, _, hun, hinv, -⟩ := unregister_region_spec (MAJOR n) (MINOR n)
        ((MKDEV (MAJOR n + 1) 0 + 2 ^ 32 - n) % 2 ^ 32) h
      dsimp only at hrun
      rw [hun] at hrun
      exact ih hinv hrun
    · exact Option.some.inj hrun ▸ h

theorem unregister_from_inv {to_dev n : Nat} (fuel : Nat) (h : Inv calls s)
    (hrun : unregister_from to_dev fuel s n = some s') : Inv calls s' := by
  induction fuel generalizing s n with
  | zero => cases hrun
  | succ fuel ih =>
    rw [unregister_from] at hrun
    split at hrun
    · obtain ⟨_, _, hun, hinv, -⟩ := unregister_region_spec (MAJOR n) (MINOR n)
        (((if MKDEV (MAJOR n + 1) 0 > to_dev then to_dev else MKDEV (MAJOR n + 1) 0) + 2 ^ 32 - n) % 2 ^ 32) h
      dsimp only at hrun
      rw [hun] at hrun
      exact ih hinv hrun
    · exact Option.some.inj hrun ▸ h

theorem register_from_inv {mem : Nat → Bool} {from_dev to_dev n : Nat} {ret : Int} (fuel : Nat) (h : Inv calls s)
    (hrun : register_from mem from_dev to_dev fuel s n = some (s', ret)) : Inv calls s' := by
  induction fuel generalizing s n with
  | zero => cases hrun
  | succ fuel ih =>
    rw [register_from] at hrun
    split at hrun
    · dsimp only at hrun
      rcases register_region_cases (mem n) (MAJOR n) h (minor_fits n
        (((if MKDEV (MAJOR n + 1) 0 > to_dev then to_dev else MKDEV (MAJOR n + 1) 0) + 2 ^ 32 - n) % 2 ^ 32)) with
        ⟨t, e, -, hcall, ht⟩ | ⟨t, cd, hcall, hinv, -⟩
      · rw [hcall] at hrun
        obtain ⟨t', hun, heq⟩ := Option.map_eq_some_iff.1 hrun
        exact (Prod.mk.inj heq).1 ▸ unregister_until_inv fuel (h.same ht) hun
      · rw [hcall] at hrun
        exact ih hinv hrun
    · exact (Prod.mk.inj (Option.some.inj hrun)).1 ▸ h

theorem step_inv {c : Call} (h : Inv calls s) (hfits : Fits c) (hstep : Step s c s') : Inv (c :: calls) s' := by
  cases hstep with
  | register_chrdev mem mem' s major baseminor count fops => exact register_chrdev_inv h hfits
  | register_chrdev_region mem fuel hrun => exact (register_from_inv fuel h hrun).more _
  | alloc_chrdev_region mem s baseminor count =>
    rw [alloc_chrdev_region]
    rcases register_region_cases mem 0 h hfits with ⟨t, e, -, hcall, ht⟩ | ⟨t, cd, hcall, hinv, -⟩ <;> rw [hcall]
    · exact (h.same ht).more _
    · exact hinv.more _
  | unregister_chrdev s major baseminor count => exact (unregister_chrdev_inv h).more _
  | unregister_chrdev_region fuel hrun => exact (unregister_from_inv fuel h hrun).more _

theorem run_inv (hrun : Run calls s) (hfits : ∀ c ∈ calls, Fits c) : Inv calls s := by
  induction hrun with
  | nil => exact empty_inv
  | step _ hstep ih =>
    obtain ⟨hc, hcalls⟩ := List.forall_mem_cons.1 hfits
    exact step_inv (ih hcalls) hc hstep

/-! ## The address 0 -/

theorem register_region_null (major baseminor minorct : Nat) :
    (__register_chrdev_region true s major baseminor minorct).1.null_cleared = s.null_cleared := by
  unfold __register_chrdev_region
  dsimp only
  by_cases hmajor : major ≥ CHRDEV_MAJOR_MAX
  · rw [if_pos hmajor]
  by_cases hrange : minorct > (MINORMASK + 1 + 2 ^ 32 - baseminor) % 2 ^ 32
  · rw [if_neg hmajor, if_pos hrange]
  rw [if_neg hmajor, if_neg hrange, if_neg (Bool.noConfusion : ¬true = false)]
  split
  · rfl
  split <;> rfl

theorem unregister_region_null (major baseminor minorct : Nat) :
    (__unregister_chrdev_region s major baseminor minorct).1.null_cleared = s.null_cleared := by
  unfold __unregister_chrdev_region
  dsimp only
  split <;> rfl

theorem unregister_until_null {to_dev n : Nat} (fuel : Nat) (hrun : unregister_until to_dev fuel s n = some s') :
    s'.null_cleared = s.null_cleared := by
  induction fuel generalizing s n with
  | zero => cases hrun
  | succ fuel ih =>
    rw [unregister_until] at hrun
    split at hrun
    · exact (ih hrun).trans (unregister_region_null _ _ _)
    · exact Option.some.inj hrun ▸ rfl

theorem unregister_from_null {to_dev n : Nat} (fuel : Nat) (hrun : unregister_from to_dev fuel s n = some s') :
    s'.null_cleared = s.null_cleared := by
  induction fuel generalizing s n with
  | zero => cases hrun
  | succ fuel ih =>
    rw [unregister_from] at hrun
    split at hrun
    · exact (ih hrun).trans (unregister_region_null _ _ _)
    · exact Option.some.inj hrun ▸ rfl

theorem register_from_null {mem : Nat → Bool} {from_dev to_dev n : Nat} {ret : Int} (fuel : Nat) (hmem : ∀ n, mem n = true)
    (hrun : register_from mem from_dev to_dev fuel s n = some (s', ret)) : s'.null_cleared = s.null_cleared := by
  induction fuel generalizing s n with
  | zero => cases hrun
  | succ fuel ih =>
    rw [register_from] at hrun
    split at hrun
    · dsimp only at hrun
      rw [hmem] at hrun
      have hregion := @register_region_null s (MAJOR n) (MINOR n)
        (((if MKDEV (MAJOR n + 1) 0 > to_dev then to_dev else MKDEV (MAJOR n + 1) 0) + 2 ^ 32 - n) % 2 ^ 32)
      split at hrun
      case h_1 t e hcall =>
        rw [hcall] at hregion
        obtain ⟨t', hun, heq⟩ := Option.map_eq_some_iff.1 hrun
        rw [← (Prod.mk.inj heq).1, unregister_until_null fuel hun]
        exact hregion
      case h_2 t cd hcall =>
        rw [hcall] at hregion
        exact (ih hrun).trans hregion
    · exact (Prod.mk.inj (Option.some.inj hrun)).1 ▸ rfl

theorem register_chrdev_null {fops : Nat} :
    (__register_chrdev true true s major baseminor minorct fops).1.null_cleared = s.null_cleared := by
  have hregion := @register_region_null s major baseminor minorct
  unfold __register_chrdev
  split
  case h_1 t e hcall =>
    rw [hcall] at hregion
    exact hregion
  case h_2 t cd hcall =>
    rw [hcall] at hregion
    exact hregion

theorem alloc_region_null : (alloc_chrdev_region true s baseminor minorct).1.null_cleared = s.null_cleared := by
  have hregion := @register_region_null s 0 baseminor minorct
  unfold alloc_chrdev_region
  split
  case h_1 t e hcall =>
    rw [hcall] at hregion
    exact hregion
  case h_2 t cd hcall =>
    rw [hcall] at hregion
    exact hregion

theorem unregister_chrdev_null : (__unregister_chrdev s major baseminor minorct).null_cleared = s.null_cleared := by
  have hregion := @unregister_region_null s major baseminor minorct
  unfold __unregister_chrdev
  split
  case h_1 t hcall =>
    rw [hcall] at hregion
    exact hregion
  case h_2 t cd hcall =>
    rw [hcall] at hregion
    split <;> exact hregion

/-- A call that gets its memory writes nothing at the address 0. -/
theorem step_null {c : Call} (hmem : Supplied c) (hstep : Step s c s') : s'.null_cleared = s.null_cleared := by
  cases hstep with
  | register_chrdev mem mem' s major baseminor count fops =>
    obtain ⟨rfl, rfl⟩ := hmem
    exact register_chrdev_null
  | register_chrdev_region mem fuel hrun => exact register_from_null fuel hmem hrun
  | alloc_chrdev_region mem s baseminor count =>
    obtain rfl := hmem
    exact alloc_region_null
  | unregister_chrdev s major baseminor count => exact unregister_chrdev_null
  | unregister_chrdev_region fuel hrun => exact unregister_from_null fuel hrun

theorem run_null (hrun : Run calls s) (hmem : ∀ c ∈ calls, Supplied c) : s.null_cleared = false := by
  induction hrun with
  | nil => rfl
  | step _ hstep ih =>
    obtain ⟨hc, hcalls⟩ := List.forall_mem_cons.1 hmem
    exact (step_null hc hstep).trans (ih hcalls)

/-! ## Looking up -/

theorem Before.not_both {a b : char_device_struct} {minor : Nat} (h : Before a b ∨ Before b a) (hmajor : a.major = b.major)
    (ha : a.baseminor ≤ minor ∧ minor < a.baseminor + a.minorct) :
    ¬(b.baseminor ≤ minor ∧ minor < b.baseminor + b.minorct) := by
  unfold Before at h
  omega

theorem Inv.holds_unique {minor x y : Nat} (h : Inv calls s) (hx : Current s x) (hy : Current s y)
    (hhx : Holds s major minor x) (hhy : Holds s major minor y) : x = y := by
  obtain ⟨i, hx⟩ := hx
  obtain ⟨j, hy⟩ := hy
  obtain ⟨hmx, hrx⟩ := hhx
  obtain ⟨hmy, hry⟩ := hhy
  obtain rfl : j = i := by rw [← (h.entry j y hy).2.1, ← (h.entry i x hx).2.1, hmx, hmy]
  by_contra hne
  let Apart (x y : Nat) : Prop := Before (s.cds.get x) (s.cds.get y) ∨ Before (s.cds.get y) (s.cds.get x)
  have : Std.Symm Apart := ⟨fun _ _ => Or.symm⟩
  have hsorted : (s.chrdevs j).Pairwise Apart := (h.ordered j).2.imp .inl
  exact Before.not_both (hsorted.forall hx hy hne) (hmx.trans hmy.symm) hrx hry

/-- The entry that a lookup stops at. -/
theorem Inv.lookup (h : Inv calls s) (major minor : Nat) :
    (find_chrdev s major minor = some none ∧ ∀ cd, Current s cd → ¬Holds s major minor cd) ∨
      ∃ cd, Current s cd ∧ Holds s major minor cd ∧
        find_chrdev s major minor = (s.cds.get cd).cdev.map fun c => some (s.cdevs.get c).ops := by
  have hholds : ∀ i, ∀ cd ∈ s.chrdevs i, (s.cds.get cd).major = major ∧ (s.cds.get cd).baseminor ≤ minor ∧
      minor < (s.cds.get cd).ends ↔ Holds s major minor cd := by
    intro i cd hcd
    rw [char_device_struct.ends, Nat.mod_eq_of_lt (h.entry i cd hcd).2.2, Holds]
  unfold find_chrdev
  dsimp only
  split
  · rename_i hnone
    refine .inl ⟨rfl, fun cd ⟨i, hcd⟩ hcdh => ?_⟩
    have hi : i = major_to_index major := by rw [← (h.entry i cd hcd).2.1, hcdh.1]
    have hno := List.find?_eq_none.1 hnone cd (hi ▸ hcd)
    exact hno (decide_eq_true ((hholds i cd hcd).2 hcdh))
  · rename_i cd hsome
    have hcd := List.mem_of_find?_eq_some hsome
    have hfound := List.find?_some hsome
    rw [decide_eq_true_eq] at hfound
    have hcdh := (hholds _ cd hcd).1 hfound
    refine .inr ⟨cd, ⟨_, hcd⟩, hcdh, ?_⟩
    cases hc : (s.cds.get cd).cdev with
    | none => rfl
    | some c =>
      obtain ⟨hlt, hfree, -⟩ := h.owned cd ⟨_, hcd⟩ c hc
      exact if_pos ⟨hlt, hfree⟩

theorem Inv.right_iff (h : Inv calls s) (major minor : Nat) :
    Right s major minor ↔ ∀ cd, Current s cd → Holds s major minor cd → (s.cds.get cd).cdev ≠ none := by
  rcases h.lookup major minor with ⟨hfind, hno⟩ | ⟨cd, hcd, hcdh, hfind⟩
  · exact iff_of_true ⟨fun cd hcd hcdh => absurd hcdh (hno cd hcd), fun _ => hfind⟩
      fun cd hcd hcdh => absurd hcdh (hno cd hcd)
  · have honly : ∀ x, Current s x → Holds s major minor x → x = cd := fun x hx hxh => h.holds_unique hx hcd hxh hcdh
    constructor
    · intro hright x hx hxh hnone
      obtain rfl := honly x hx hxh
      have := (hright.found x hx hxh).1
      rw [hfind, hnone] at this
      cases this
    · intro hcdev
      refine ⟨fun x hx hxh => ⟨?_, fun y hy hyh => (honly y hy hyh).trans (honly x hx hxh).symm⟩,
        fun hno => absurd hcdh (hno cd hcd)⟩
      obtain rfl := honly x hx hxh
      obtain ⟨c, hc⟩ := Option.ne_none_iff_exists'.1 (hcdev x hx hxh)
      rw [hfind, hc]
      rfl

/-- After calls whose ranges do not wrap, the buckets are sorted without ranges that
meet, and a lookup is right exactly if the entry with its number has a cdev. With
memory for all calls nothing is written at the address 0. -/
theorem find_chrdev_right (hrun : Run calls s) (hfits : ∀ c ∈ calls, Fits c) (hmem : ∀ c ∈ calls, Supplied c) :
    Ordered s ∧ s.null_cleared = false ∧
    (∀ cd, Current s cd → ∀ c, (s.cds.get cd).cdev = some c → ∃ call ∈ calls, MadeBy (s.cds.get cd) (s.cdevs.get c).ops call) ∧
    ∀ major minor, Right s major minor ↔ ∀ cd, Current s cd → Holds s major minor cd → (s.cds.get cd).cdev ≠ none := by
  have h := run_inv hrun hfits
  exact ⟨h.ordered, run_null hrun hmem, h.made, h.right_iff⟩

end Table

/-- A driver has registered the minors up to 255 of the major 5. -/
def one_driver : Table := (__register_chrdev true true empty 5 0 256 7).1

theorem one_driver_entries {cd : Nat} (h : Current one_driver cd) : cd = 0 := by
  obtain ⟨i, hi⟩ := h
  have hlist : one_driver.chrdevs = Function.update (fun _ => []) 5 [0] := rfl
  rw [hlist, Function.update_apply] at hi
  split at hi
  · exact List.mem_singleton.1 hi
  · cases hi

theorem one_driver_found : Right one_driver 5 3 := by
  refine ((find_chrdev_right (.step .nil (.register_chrdev true true empty 5 0 256 7)) ?_ ?_).2.2.2 5 3).2 fun cd hcd _ => ?_
  · exact fun c hc => by rw [List.mem_singleton.1 hc]; exact .inl (Nat.zero_le _)
  · exact fun c hc => by rw [List.mem_singleton.1 hc]; exact ⟨rfl, rfl⟩
  · rw [one_driver_entries hcd]
    decide +kernel

/-- `register_chrdev_region` for one number of the major 5. -/
def one_region : Table := { empty with
  cds := Pool.empty.alloc { major := 5, baseminor := 0, minorct := 1, cdev := none }
  chrdevs := Function.update (fun _ => []) 5 [0] }

theorem one_region_run : Run [.register_chrdev_region (fun _ => true) (5 * 2 ^ MINORBITS) 1] one_region :=
  have hcall : register_chrdev_region (fun _ => true) 2 empty (5 * 2 ^ MINORBITS) 1 = some (one_region, 0) := rfl
  .step .nil (.register_chrdev_region _ 2 hcall)

/-- A region has no cdev, and the lookup reads through it. -/
theorem region_not_right : ¬∀ (calls : List Call) (s : Table), Run calls s → Ordered s ∧ ∀ major minor, Right s major minor := by
  intro h
  have hright := (h _ _ one_region_run).2 5 0
  have hfound := (hright.found 0 ⟨5, by simp [one_region]⟩ ⟨rfl, by decide +kernel, by decide +kernel⟩).1
  revert hfound
  decide +kernel

/-- Behind the last minor of a major, a range can end where the 32-bit numbers begin
again, and is then given out twice. -/
example : (__register_chrdev true true (__register_chrdev true true empty 5 (2 ^ 32 - 1) 1 7).1 5 (2 ^ 32 - 1) 1 8).2 = 0 := by
  decide +kernel

end McLinOS.CharDevice
