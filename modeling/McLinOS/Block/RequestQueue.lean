import Mathlib.Data.Finset.Basic
import Mathlib.Data.Finset.Card
import McLinOS.CLib.Loop
import McLinOS.CLib.Ring
import McLinOS.CLib.Runs
/-!
# The request queue

`block/request_queue.c` with `submit_bio_wait` and the loop of the w25qxx driver.
A request is named by the address of its `queuelist`, `q` is the address of the
queue's `icq_list`. What holds `queue_lock` is one step. The `kmalloc` of
`request_alloc` succeeds: where it fails, the code goes on with `NULL`.
-/
open CLib Function

set_option linter.style.nameCheck false

namespace McLinOS.RequestQueue

def LIST_POISON1 : Nat := 0x100
def LIST_POISON2 : Nat := 0x122

/-- `next` and `prev` are the links of every `list_head`. `requests` are the
requests that are allocated, `serving` those that were fetched and have not ended.
The bios of `submit_bio_wait` and of `blk_fetch_request` are in `submitted` and
`fetched`, in order. `accesses` has the list heads whose links were used, `frees`
what `vfree` was given, each with whether it was there at that time. -/
structure Queue where
  next : Nat → Nat
  prev : Nat → Nat
  bio : Nat → Nat
  requests : Finset Nat
  serving : List Nat
  submitted : List Nat
  fetched : List Nat
  ended : List Nat
  accesses : List (Nat × Bool)
  frees : List (Nat × Bool)

section Lists
variable (q : Nat)

def touch (n : Nat) (s : Queue) : Queue := { s with accesses := (n, decide (n = q ∨ n ∈ s.requests)) :: s.accesses }

def set_next (n v : Nat) (s : Queue) : Queue := { touch q n s with next := update s.next n v }

def set_prev (n v : Nat) (s : Queue) : Queue := { touch q n s with prev := update s.prev n v }

def INIT_LIST_HEAD (list : Nat) (s : Queue) : Queue := set_prev q list list (set_next q list list s)

def __list_add (new prev next : Nat) (s : Queue) : Queue :=
  set_next q prev new (set_prev q new prev (set_next q new next (set_prev q next new s)))

def list_add_tail (new head : Nat) (s : Queue) : Queue := __list_add q new (s.prev head) head (touch q head s)

def __list_del (prev next : Nat) (s : Queue) : Queue := set_next q prev next (set_prev q next prev s)

def __list_del_entry (entry : Nat) (s : Queue) : Queue := __list_del q (s.prev entry) (s.next entry) (touch q entry s)

def list_del (entry : Nat) (s : Queue) : Queue :=
  set_prev q entry LIST_POISON2 (set_next q entry LIST_POISON1 (__list_del_entry q entry s))

def list_del_init (entry : Nat) (s : Queue) : Queue := INIT_LIST_HEAD q entry (__list_del_entry q entry s)

def list_empty (head : Nat) (s : Queue) : Bool × Queue := (s.next head = head, touch q head s)

/-! ## Requests -/

def vfree (req : Nat) (s : Queue) : Queue :=
  { s with frees := (req, decide (req ∈ s.requests)) :: s.frees, requests := s.requests.erase req }

/-- The request that `kmalloc` gave. -/
def request_alloc (rq : Nat) (s : Queue) : Queue := INIT_LIST_HEAD q rq { s with requests := insert rq s.requests }

def request_queue_add (req : Nat) (s : Queue) : Queue := list_add_tail q req q s

def request_queue_remove (req : Nat) (s : Queue) : Queue :=
  let (empty, s) := list_empty q req s
  if empty then s else vfree req (list_del_init q req s)

def blk_mq_end_request (rq : Nat) (s : Queue) : Queue :=
  { request_queue_remove q rq s with serving := s.serving.erase rq, ended := rq :: s.ended }

/-- The request, or `none` for `NULL`. -/
def blk_fetch_request (s : Queue) : Option Nat × Queue :=
  let (empty, s) := list_empty q q s
  if empty then (none, s)
  else
    let req := s.next q
    (some req, { list_del q req (touch q q s) with serving := req :: s.serving, fetched := s.fetched ++ [s.bio req] })

/-- `submit_bio_wait` up to the call of the driver. -/
def submit (rq bio : Nat) (s : Queue) : Queue :=
  let s := request_alloc q rq s
  let s := { s with bio := update s.bio rq bio, submitted := s.submitted ++ [bio] }
  request_queue_add q rq s

/-- A turn of the driver's loop. Serving the request does not use the queue
before `blk_mq_end_request`. -/
def w25qxx_request_queue_body (s : Queue) : ControlFlow Queue Queue :=
  match blk_fetch_request q s with
  | (none, s) => .done s
  | (some req, s) => .cont (blk_mq_end_request q req s)

def w25qxx_request_queue (fuel : Nat) (s : Queue) : Option Queue := loop (w25qxx_request_queue_body q) fuel s

def submit_bio_wait (fuel rq bio : Nat) (s : Queue) : Option Queue := w25qxx_request_queue q fuel (submit q rq bio s)

/-! ## Runs -/

/-- What `kmalloc` may give. -/
structure Fresh (rq : Nat) (s : Queue) : Prop where
  not_used : rq ∉ s.requests
  not_head : rq ≠ q
  not_poison : rq ≠ LIST_POISON1 ∧ rq ≠ LIST_POISON2

/-- Any number of tasks are in `submit_bio_wait`, so the steps come in any order. -/
inductive Step (s : Queue) : Queue → Prop
  | submit {rq} (bio : Nat) : Fresh q rq s → Step s (submit q rq bio s)
  | fetch : Step s (blk_fetch_request q s).2
  | end_request {req} : req ∈ s.serving → Step s (blk_mq_end_request q req s)

/-- After `request_queue_init`. -/
def Init (s : Queue) : Prop :=
  (q ≠ LIST_POISON1 ∧ q ≠ LIST_POISON2) ∧ s.next q = q ∧ s.prev q = q ∧ s.requests = ∅ ∧ s.serving = [] ∧
    s.submitted = [] ∧ s.fetched = [] ∧ s.ended = [] ∧ s.accesses = [] ∧ s.frees = []

/-- The queue is a circular list of the requests that were not fetched yet, these
are the last ones submitted, no link of anything else was used, and each request
that ended was freed once, while it was there. -/
structure Lifecycle (s : Queue) : Prop where
  list : ∃ queue, Ring s.next s.prev (q :: queue) ∧ (q :: queue).Nodup ∧ s.submitted = s.fetched ++ queue.map s.bio
  links : ∀ a ∈ s.accesses, a.2 = true
  frees : s.frees = s.ended.map fun rq => (rq, true)

end Lists

/-! ## The invariant -/

section Steps
variable {q : Nat} {s s' : Queue} {queue : List Nat} {rq : Nat}

/-- `queue` are the requests in the list. The links of the others are poisoned. -/
structure Inv (q : Nat) (s : Queue) (queue : List Nat) : Prop where
  ring : Ring s.next s.prev (q :: queue)
  nodup : (q :: (queue ++ s.serving)).Nodup
  live : ∀ n, n ∈ s.requests ↔ n ∈ queue ++ s.serving
  not_poison : ∀ n, n = q ∨ n ∈ s.requests → n ≠ LIST_POISON1 ∧ n ≠ LIST_POISON2
  poisoned : ∀ n ∈ s.serving, s.next n = LIST_POISON1 ∧ s.prev n = LIST_POISON2
  order : s.submitted = s.fetched ++ queue.map s.bio
  frees : s.frees = s.ended.map fun rq => (rq, true)
  links : s.ended = [] → ∀ a ∈ s.accesses, a.2 = true
  stray : s.ended ≠ [] → (LIST_POISON1, false) ∈ s.accesses

theorem Inv.queue_nodup (h : Inv q s queue) : (q :: queue).Nodup :=
  h.nodup.sublist ((List.sublist_append_left _ _).cons_cons _)

theorem Inv.lifecycle_iff (h : Inv q s queue) : Lifecycle q s ↔ s.ended = [] := by
  constructor
  · intro hl
    by_contra hne
    exact absurd (hl.links _ (h.stray hne)) (by simp)
  · exact fun he => ⟨⟨queue, h.ring, h.queue_nodup, h.order⟩, h.links he, h.frees⟩

theorem Init.inv (h : Init q s) : Inv q s [] := by
  obtain ⟨hq, hnext, hprev, hreq, hserving, hsub, hfetched, hended, hacc, hfrees⟩ := h
  refine ⟨Ring.singleton.2 ⟨hprev, hnext⟩, by simp [hserving], by simp [hreq, hserving], ?_, by simp [hserving],
    by simp [hsub, hfetched], by simp [hfrees, hended], by simp [hacc], fun hne => absurd hended hne⟩
  rintro n (rfl | hn)
  · exact hq
  · simp [hreq] at hn

/-- The node before the head. -/
theorem prev_head_mem (h : Ring s.next s.prev (q :: queue)) : s.prev q ∈ q :: queue := by
  have hprev : s.prev q = queue.getLastD q := h.1
  rw [hprev]
  exact List.getLastD_mem_cons

theorem mem_live {n : Nat} (h : Inv q s queue) (hn : n ∈ q :: queue) : n = q ∨ n ∈ s.requests :=
  (List.mem_cons.1 hn).imp_right fun hn => (h.live n).2 (List.mem_append_left _ hn)

theorem Inv.apart (h : Inv q s queue) {n : Nat} (hn : n ∈ q :: queue) : n ∉ s.serving := by
  have hnd := h.nodup
  rw [← List.cons_append] at hnd
  exact fun hs => (List.nodup_append.1 hnd).2.2 n hn n hs rfl

theorem Fresh.not_mem (h : Inv q s queue) (hf : Fresh q rq s) : rq ∉ q :: queue ∧ rq ∉ s.serving := by
  have hno : rq ∉ queue ++ s.serving := fun hm => hf.not_used ((h.live rq).2 hm)
  exact ⟨fun hm => (List.mem_cons.1 hm).elim hf.not_head fun hm => hno (List.mem_append_left _ hm),
    fun hm => hno (List.mem_append_right _ hm)⟩

theorem inv_submit (h : Inv q s queue) (hf : Fresh q rq s) (bio : Nat) : Inv q (submit q rq bio s) (queue ++ [rq]) := by
  obtain ⟨hring, hserving⟩ := Fresh.not_mem h hf
  -- `INIT_LIST_HEAD` of the request leaves the head's links alone.
  have hprev : update s.prev rq rq q = s.prev q := update_of_ne hf.not_head.symm ..
  have hnext : (submit q rq bio s).next = update (update s.next rq q) (s.prev q) rq := by
    show update (update (update s.next rq rq) rq q) (update s.prev rq rq q) rq = _
    rw [hprev, update_idem]
  have hprev' : (submit q rq bio s).prev = update (update s.prev rq (s.prev q)) q rq := by
    show update (update (update s.prev rq rq) q rq) rq (update s.prev rq rq q) = _
    rw [hprev, update_comm hf.not_head.symm, update_idem]
  have hprevmem := prev_head_mem h.ring
  have hlive : ∀ n, n ∈ s.requests → n ∈ insert rq s.requests := fun n => Finset.mem_insert_of_mem
  refine ⟨?_, ?_, ?_, ?_, ?_, ?_, h.frees, ?_, ?_⟩
  · rw [hnext, hprev']
    exact Ring.insert h.ring h.queue_nodup hring
  · have hperm : (q :: (queue ++ [rq] ++ s.serving)).Perm (rq :: q :: (queue ++ s.serving)) := by
      rw [List.append_assoc]
      exact (List.perm_middle.cons q).trans (.swap ..)
    refine hperm.nodup_iff.2 (List.nodup_cons.2 ⟨fun hm => ?_, h.nodup⟩)
    rw [← List.cons_append] at hm
    exact (List.mem_append.1 hm).elim hring hserving
  · intro n
    show n ∈ insert rq s.requests ↔ n ∈ queue ++ [rq] ++ s.serving
    rw [Finset.mem_insert, h.live, List.mem_append, List.mem_append, List.mem_append, List.mem_singleton]
    tauto
  · intro n hn
    rcases hn with hn | hn
    · exact h.not_poison n (.inl hn)
    · rcases Finset.mem_insert.1 hn with rfl | hn
      · exact hf.not_poison
      · exact h.not_poison n (.inr hn)
  · intro n hn
    have hne : n ≠ rq := by
      rintro rfl
      exact hserving hn
    have hring : n ∉ q :: queue := fun hm => h.apart hm hn
    have hnprev : n ≠ s.prev q := fun he => hring (he ▸ hprevmem)
    rw [hnext, hprev', update_of_ne hnprev, update_of_ne hne, update_of_ne (List.ne_of_not_mem_cons hring),
      update_of_ne hne]
    exact h.poisoned n hn
  · have hbio : (queue ++ [rq]).map (submit q rq bio s).bio = queue.map s.bio ++ [bio] := by
      rw [List.map_append]
      refine congrArg₂ _ (List.map_congr_left fun n hn => update_of_ne ?_ ..) (congrArg (fun b => [b]) (update_self ..))
      rintro rfl
      exact hring (List.mem_cons_of_mem _ hn)
    rw [hbio, ← List.append_assoc]
    exact congrArg (· ++ [bio]) h.order
  · intro he a ha
    -- The links used are those of the request, the head and the node before it.
    have hacc : (submit q rq bio s).accesses = ([s.prev q, rq, rq, q, q, rq, rq].map fun n =>
        (n, decide (n = q ∨ n ∈ insert rq s.requests))) ++ s.accesses := by
      rw [← hprev]
      rfl
    rw [hacc] at ha
    rcases List.mem_append.1 ha with ha | ha
    · obtain ⟨n, hn, rfl⟩ := List.mem_map.1 ha
      have hn : n = s.prev q ∨ n = rq ∨ n = q := by simp at hn; tauto
      rw [decide_eq_true_eq]
      rcases hn with rfl | rfl | rfl
      · exact (mem_live h hprevmem).imp_right (hlive _)
      · exact .inr (Finset.mem_insert_self ..)
      · exact .inl rfl
    · exact h.links he a ha
  · intro hne
    exact List.mem_append_right [_, _, _, _, _, _, _] (h.stray hne)

theorem inv_touch (h : Inv q s queue) : Inv q (touch q q s) queue where
  ring := h.ring
  nodup := h.nodup
  live := h.live
  not_poison := h.not_poison
  poisoned := h.poisoned
  order := h.order
  frees := h.frees
  links := fun he => List.forall_mem_cons.2 ⟨by simp, h.links he⟩
  stray := fun hne => List.mem_cons_of_mem _ (h.stray hne)

theorem fetch_empty (h : Inv q s []) : blk_fetch_request q s = (none, touch q q s) := by
  have hnext : s.next q = q := (Ring.singleton.1 h.ring).2
  have hempty : list_empty q q s = (true, touch q q s) := by simp [list_empty, hnext]
  rw [blk_fetch_request, hempty]
  rfl

/-- The first request leaves the ring. -/
theorem ring_list_del (h : Inv q s (rq :: queue)) :
    Ring (update (update s.next (s.prev rq) (s.next rq)) rq LIST_POISON1)
      (update (update s.prev (s.next rq) (s.prev rq)) rq LIST_POISON2) (q :: queue) := by
  have hnd := h.queue_nodup
  have hrq : rq ∉ q :: queue := fun hm => by
    rcases List.mem_cons.1 hm with rfl | hm
    · exact (List.nodup_cons.1 hnd).1 List.mem_cons_self
    · exact (List.nodup_cons.1 (List.nodup_cons.1 hnd).2).1 hm
  have hfirst : Ring s.next s.prev ([q] ++ rq :: queue) := h.ring
  have hring : Ring s.next s.prev (rq :: (queue ++ [q])) := Ring.rotate.1 hfirst
  have hnd' : (rq :: (queue ++ [q])).Nodup := (List.perm_append_singleton q (rq :: queue)).nodup_iff.2 hnd
  have hdel : Ring (update s.next (s.prev rq) (s.next rq)) (update s.prev (s.next rq) (s.prev rq)) (queue ++ [q]) := by
    cases queue with
    | nil => exact Ring.unlink hring hnd'
    | cons r queue => exact Ring.unlink hring hnd'
  have hback : Ring _ _ ([q] ++ queue) := Ring.rotate.1 hdel
  exact Ring.congr hback (fun n hn => update_of_ne (by rintro rfl; exact hrq hn) ..)
    fun n hn => update_of_ne (by rintro rfl; exact hrq hn) ..

/-- The state after `rq` was fetched. -/
def taken (q rq : Nat) (s : Queue) : Queue :=
  { list_del q rq (touch q q (touch q q s)) with serving := rq :: s.serving, fetched := s.fetched ++ [s.bio rq] }

theorem fetch_cons (h : Inv q s (rq :: queue)) : blk_fetch_request q s = (some rq, taken q rq s) := by
  have hnext : s.next q = rq := h.ring.2.1
  have hne : rq ≠ q := by
    rintro rfl
    exact (List.nodup_cons.1 h.queue_nodup).1 List.mem_cons_self
  have hempty : list_empty q q s = (false, touch q q s) := by simp [list_empty, hnext, hne]
  have hnext' : (touch q q s).next q = rq := hnext
  rw [blk_fetch_request, hempty]
  simp only [hnext', Bool.false_eq_true, if_false]
  rfl

/-- The fields that a fetch changes. -/
theorem taken_eq (q rq : Nat) (s : Queue) : taken q rq s = { s with
    next := update (update s.next (s.prev rq) (s.next rq)) rq LIST_POISON1
    prev := update (update s.prev (s.next rq) (s.prev rq)) rq LIST_POISON2
    accesses := ([rq, rq, s.prev rq, s.next rq, rq, q, q].map fun n => (n, decide (n = q ∨ n ∈ s.requests))) ++ s.accesses
    serving := rq :: s.serving
    fetched := s.fetched ++ [s.bio rq] } := by
  simp only [taken, list_del, __list_del_entry, __list_del, set_next, set_prev, touch, List.map_cons, List.map_nil,
    List.cons_append, List.nil_append]

theorem inv_taken (h : Inv q s (rq :: queue)) : Inv q (taken q rq s) queue := by
  have hnextmem : s.next rq ∈ q :: rq :: queue := Ring.next_mem h.ring (by simp)
  have hprev : s.prev rq = q := h.ring.2.2.1
  have hperm : (queue ++ (rq :: s.serving)).Perm (rq :: queue ++ s.serving) := List.perm_middle
  -- The poisoned links are not among those that change.
  have hne : ∀ n ∈ s.serving, n ≠ rq ∧ n ≠ s.next rq ∧ n ≠ q := by
    intro n hn
    refine ⟨?_, ?_, ?_⟩ <;> rintro rfl
    · exact h.apart (by simp) hn
    · exact h.apart hnextmem hn
    · exact h.apart (by simp) hn
  have hring := ring_list_del h
  rw [taken_eq]
  refine ⟨hring, ?_, ?_, h.not_poison, ?_, ?_, h.frees, ?_, ?_⟩
  · exact ((hperm.cons q).nodup_iff).2 h.nodup
  · intro n
    exact (h.live n).trans hperm.symm.mem_iff
  · intro n hn
    dsimp only
    rcases List.mem_cons.1 hn with rfl | hn
    · exact ⟨update_self .., update_self ..⟩
    · obtain ⟨h1, h2, h3⟩ := hne n hn
      rw [update_of_ne h1, update_of_ne h1, hprev, update_of_ne h2, update_of_ne h3]
      exact h.poisoned n hn
  · have horder := h.order
    rw [List.map_cons] at horder
    dsimp only
    rw [horder, List.append_assoc, List.singleton_append]
  · intro he a ha
    rcases List.mem_append.1 ha with ha | ha
    · obtain ⟨n, hn, rfl⟩ := List.mem_map.1 ha
      have hn : n = rq ∨ n = s.next rq ∨ n = q := by simp [hprev] at hn; tauto
      rw [decide_eq_true_eq]
      rcases hn with rfl | rfl | rfl
      · exact mem_live h (by simp)
      · exact mem_live h hnextmem
      · exact .inl rfl
    · exact h.links he a ha
  · intro hne
    exact List.mem_append_right [_, _, _, _, _, _, _] (h.stray hne)

/-- The links of a request that was fetched are poisoned, so it does not look
unlinked, and `list_del_init` writes through them. -/
theorem end_request_eq (h : Inv q s queue) (hrq : rq ∈ s.serving) : request_queue_remove q rq s =
    vfree rq (INIT_LIST_HEAD q rq (__list_del q LIST_POISON2 LIST_POISON1 (touch q rq (touch q rq s)))) := by
  obtain ⟨hnext, hprev⟩ := h.poisoned rq hrq
  have hreq : rq ∈ s.requests := (h.live rq).2 (List.mem_append_right _ hrq)
  have hne : LIST_POISON1 ≠ rq := (h.not_poison rq (.inr hreq)).1.symm
  have hempty : list_empty q rq s = (false, touch q rq s) := by simp [list_empty, hnext, hne]
  have hnext' : (touch q rq s).next rq = LIST_POISON1 := hnext
  have hprev' : (touch q rq s).prev rq = LIST_POISON2 := hprev
  rw [request_queue_remove, hempty]
  simp only [Bool.false_eq_true, if_false, list_del_init, __list_del_entry, hnext', hprev']

theorem inv_end_request (h : Inv q s queue) (hrq : rq ∈ s.serving) : Inv q (blk_mq_end_request q rq s) queue := by
  have hreq : rq ∈ s.requests := (h.live rq).2 (List.mem_append_right _ hrq)
  have hnd := (List.nodup_cons.1 h.nodup).2
  have hserving : s.serving.Nodup := (List.nodup_append.1 hnd).2.1
  have hqueue : rq ∉ queue := fun hm => h.apart (List.mem_cons_of_mem _ hm) hrq
  have hmem : ∀ n, n ∈ queue ++ s.serving.erase rq ↔ n ≠ rq ∧ n ∈ queue ++ s.serving := by
    intro n
    rw [List.mem_append, List.mem_append, hserving.mem_erase_iff]
    constructor
    · rintro (hn | ⟨hne, hn⟩)
      · exact ⟨fun he => hqueue (he ▸ hn), .inl hn⟩
      · exact ⟨hne, .inr hn⟩
    · rintro ⟨hne, hn | hn⟩
      · exact .inl hn
      · exact .inr ⟨hne, hn⟩
  -- None of the links that are written is that of a request in the list.
  have hlinks : ∀ n, n = q ∨ n ∈ s.requests → n ≠ rq →
      (blk_mq_end_request q rq s).next n = s.next n ∧ (blk_mq_end_request q rq s).prev n = s.prev n := by
    intro n hn hne
    obtain ⟨h1, h2⟩ := h.not_poison n hn
    rw [blk_mq_end_request, end_request_eq h hrq]
    show update (update s.next LIST_POISON2 LIST_POISON1) rq rq n = _ ∧
      update (update s.prev LIST_POISON1 LIST_POISON2) rq rq n = _
    rw [update_of_ne hne, update_of_ne hne, update_of_ne h1, update_of_ne h2]
    exact ⟨rfl, rfl⟩
  have heq : blk_mq_end_request q rq s = { request_queue_remove q rq s with
      serving := s.serving.erase rq, ended := rq :: s.ended } := rfl
  rw [end_request_eq h hrq] at heq
  have hin : ∀ n ∈ q :: queue, n ≠ rq := by
    rintro n hn rfl
    exact h.apart hn hrq
  have hreqs : (blk_mq_end_request q rq s).requests = s.requests.erase rq := by
    rw [heq]
    rfl
  refine ⟨?_, ?_, ?_, ?_, ?_, ?_, ?_, ?_, ?_⟩
  · exact Ring.congr h.ring (fun n hn => (hlinks n (mem_live h hn) (hin n hn)).1)
      fun n hn => (hlinks n (mem_live h hn) (hin n hn)).2
  · exact h.nodup.sublist (((List.erase_sublist).append_left queue).cons_cons q)
  · intro n
    rw [hreqs, Finset.mem_erase, h.live]
    exact (hmem n).symm
  · intro n hn
    rw [hreqs] at hn
    exact h.not_poison n (hn.imp_right Finset.mem_of_mem_erase)
  · intro n hn
    have hn := hserving.mem_erase_iff.1 hn
    obtain ⟨h1, h2⟩ := hlinks n (.inr ((h.live n).2 (List.mem_append_right _ hn.2))) hn.1
    rw [h1, h2]
    exact h.poisoned n hn.2
  · rw [heq]
    exact h.order
  · rw [heq]
    show (rq, decide (rq ∈ s.requests)) :: s.frees = _
    rw [decide_eq_true hreq, h.frees]
    rfl
  · intro he
    cases he
  · intro _
    have hdead : ¬(LIST_POISON1 = q ∨ LIST_POISON1 ∈ s.requests) := fun hp => (h.not_poison _ hp).1 rfl
    have hacc : (blk_mq_end_request q rq s).accesses = ([rq, rq, LIST_POISON2, LIST_POISON1, rq, rq].map fun n =>
        (n, decide (n = q ∨ n ∈ s.requests))) ++ s.accesses := by
      rw [heq]
      rfl
    rw [hacc]
    refine List.mem_append_left _ (List.mem_map.2 ⟨LIST_POISON1, by simp, ?_⟩)
    rw [decide_eq_false hdead]

theorem inv_step (h : ∃ queue, Inv q s queue) (hstep : Step q s s') : ∃ queue, Inv q s' queue := by
  obtain ⟨queue, h⟩ := h
  cases hstep with
  | submit bio hf => exact ⟨_, inv_submit h hf bio⟩
  | fetch =>
    cases queue with
    | nil =>
      rw [fetch_empty h]
      exact ⟨_, inv_touch h⟩
    | cons rq queue =>
      rw [fetch_cons h]
      exact ⟨_, inv_taken h⟩
  | end_request hrq => exact ⟨_, inv_end_request h hrq⟩

theorem run_inv (h : Reachable (Init q) (Step q) s) : ∃ queue, Inv q s queue :=
  h.inv (fun s => ∃ queue, Inv q s queue) (fun _ h0 => ⟨[], h0.inv⟩) fun _ _ hi hs => inv_step hi hs

/-! ## submit_bio_wait -/

/-- The driver's loop empties the queue and ends every request it fetches. -/
theorem serve_all (h : Inv q s queue) (hr : Reachable (Init q) (Step q) s) {fuel : Nat} (hf : queue.length < fuel) :
    ∃ s', w25qxx_request_queue q fuel s = some s' ∧ Reachable (Init q) (Step q) s' ∧
      s'.ended.length = s.ended.length + queue.length := by
  induction queue generalizing s fuel with
  | nil =>
    obtain ⟨fuel, rfl⟩ : ∃ k, fuel = k + 1 := ⟨fuel - 1, by omega⟩
    have hfetch := fetch_empty h
    refine ⟨touch q q s, loop_done ?_ fuel, ?_, rfl⟩
    · rw [w25qxx_request_queue_body, hfetch]
    · have hstep : Step q s (blk_fetch_request q s).2 := .fetch
      rw [hfetch] at hstep
      exact hr.next hstep
  | cons rq queue ih =>
    obtain ⟨fuel, rfl⟩ : ∃ k, fuel = k + 1 := ⟨fuel - 1, by omega⟩
    have hfetch := fetch_cons h
    have hstep : Step q s (blk_fetch_request q s).2 := .fetch
    rw [hfetch] at hstep
    have hrq : rq ∈ (taken q rq s).serving := List.mem_cons_self
    have hbody : w25qxx_request_queue_body q s = .cont (blk_mq_end_request q rq (taken q rq s)) := by
      rw [w25qxx_request_queue_body, hfetch]
    obtain ⟨s', hs', hr', hlen⟩ := ih (inv_end_request (inv_taken h) hrq) ((hr.next hstep).next (.end_request hrq))
      (by simpa using hf)
    refine ⟨s', (loop_cont hbody fuel).trans hs', hr', ?_⟩
    have hended : (blk_mq_end_request q rq (taken q rq s)).ended = rq :: s.ended := rfl
    rw [hlen, hended, List.length_cons, List.length_cons]
    omega

theorem Inv.length_le (h : Inv q s queue) : queue.length ≤ s.requests.card := by
  have hnd : queue.Nodup := (List.nodup_append.1 (List.nodup_cons.1 h.nodup).2).1
  rw [← List.toFinset_card_of_nodup hnd]
  exact Finset.card_le_card fun n hn => (h.live n).2 (List.mem_append_left _ (List.mem_toFinset.1 hn))

/-- In every run the requests are fetched in order, each once, from a circular
list, and freed once. Until one ends only links of the list are used, from then
on the lifecycle is broken. Every `submit_bio_wait` ends one. -/
theorem queue_lifecycle (h : Reachable (Init q) (Step q) s) : (Lifecycle q s ↔ s.ended = []) ∧
    (∃ queue, Ring s.next s.prev (q :: queue) ∧ (q :: queue).Nodup ∧ s.submitted = s.fetched ++ queue.map s.bio) ∧
    (s.frees = s.ended.map fun rq => (rq, true)) ∧
    ∀ fuel rq bio, Fresh q rq s → s.requests.card + 2 ≤ fuel → ∃ s', submit_bio_wait q fuel rq bio s = some s' ∧
      Reachable (Init q) (Step q) s' ∧ ¬Lifecycle q s' := by
  obtain ⟨queue, hi⟩ := run_inv h
  refine ⟨hi.lifecycle_iff, ⟨queue, hi.ring, hi.queue_nodup, hi.order⟩, hi.frees, fun fuel rq bio hf hfuel => ?_⟩
  have hlen := hi.length_le
  have hqueue : (queue ++ [rq]).length < fuel := by
    rw [List.length_append, List.length_singleton]
    omega
  obtain ⟨s', hs', hr', hended⟩ := serve_all (inv_submit hi hf bio) (h.next (.submit bio hf)) hqueue
  refine ⟨s', hs', hr', fun hl => ?_⟩
  obtain ⟨queue', hi'⟩ := run_inv hr'
  rw [hi'.lifecycle_iff.1 hl, List.length_append, List.length_singleton, List.length_nil] at hended
  omega

end Steps

/-- An empty queue whose head is at 16. -/
def empty_queue : Queue :=
  { next := fun _ => 16, prev := fun _ => 16, bio := fun _ => 0, requests := ∅, serving := [], submitted := [],
    fetched := [], ended := [], accesses := [], frees := [] }

theorem empty_queue_init : Init 16 empty_queue := ⟨by decide, rfl, rfl, rfl, rfl, rfl, rfl, rfl, rfl, rfl⟩

/-- Two requests, the first of which is fetched. -/
theorem queue_lifecycle_two : ∃ s, s.submitted = [7, 8] ∧ s.fetched = [7] ∧ Lifecycle 16 s ∧
    ∃ s', submit_bio_wait 16 8 64 9 s = some s' ∧ ¬Lifecycle 16 s' := by
  have h0 : Reachable (Init 16) (Step 16) empty_queue := .start empty_queue_init
  have h1 := h0.next (.submit 7 (⟨by decide, by decide, by decide⟩ : Fresh 16 32 _))
  have h2 := h1.next (.submit 8 (⟨by decide, by decide, by decide⟩ : Fresh 16 48 _))
  have h3 := h2.next .fetch
  obtain ⟨hiff, -, -, hsubmit⟩ := queue_lifecycle h3
  obtain ⟨s', hs', -, hbroken⟩ := hsubmit 8 64 9 ⟨by decide, by decide, by decide⟩ (by decide)
  exact ⟨_, rfl, rfl, hiff.2 rfl, s', hs', hbroken⟩

/-- Completing the first request of an empty queue writes through its poisoned
links. -/
theorem completion_follows_poison : ¬∀ (q fuel rq bio : Nat) (s s' : Queue), Init q s → Fresh q rq s →
    submit_bio_wait q fuel rq bio s = some s' → Lifecycle q s' := by
  intro h
  have hf : Fresh 16 32 empty_queue := ⟨by decide, by decide, by decide⟩
  have hs := h 16 2 32 7 empty_queue _ empty_queue_init hf rfl
  exact absurd (hs.links (LIST_POISON1, false) (by decide)) (by decide)

end McLinOS.RequestQueue
