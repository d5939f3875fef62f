import Mathlib.Data.List.ReduceOption
import McLinOS.CLib.Circular
/-!
# The receive buffer of the serial line

`drivers/tty/stm32f4/stm32f4_tty0.c`: the interrupt puts each byte in a ring, a
full ring loses its oldest byte, and `tty_read` takes bytes one at a time, each
with interrupts off.
-/
open CLib Function

set_option linter.style.nameCheck false

namespace McLinOS.Tty

def RX_BUFFER_SIZE : Nat := 1024

structure Usart1 where
  usrat1_rx_buffer : Nat → UInt8
  usrat1_rx_index_rear : Nat
  usrat1_rx_index_front : Nat

/-- With the byte in `DR`, if bit 5 of `SR` says that there is one. -/
def USART1_IRQHandler (DR : Option UInt8) (s : Usart1) : Usart1 :=
  match DR with
  | none => s
  | some data =>
    let next_rear := (s.usrat1_rx_index_front + 1) % RX_BUFFER_SIZE
    { usrat1_rx_buffer := update s.usrat1_rx_buffer s.usrat1_rx_index_front data
      usrat1_rx_index_rear :=
        if next_rear = s.usrat1_rx_index_rear then (s.usrat1_rx_index_rear + 1) % RX_BUFFER_SIZE
        else s.usrat1_rx_index_rear
      usrat1_rx_index_front := next_rear }

def get_rx_buffer_state (s : Usart1) : Int := if s.usrat1_rx_index_rear ≠ s.usrat1_rx_index_front then 1 else 0

def get_rx_buffer_data (s : Usart1) : UInt8 × Usart1 :=
  (s.usrat1_rx_buffer s.usrat1_rx_index_rear,
    { s with usrat1_rx_index_rear := (s.usrat1_rx_index_rear + 1) % RX_BUFFER_SIZE })

/-- `none` is -1. -/
def Usart1_read (s : Usart1) : Option (UInt8 × Usart1) :=
  if get_rx_buffer_state s = 1 then some (get_rx_buffer_data s) else none

/-- One interrupt after the other. -/
def interrupts (DRs : List (Option UInt8)) (s : Usart1) : Usart1 := DRs.foldl (fun s DR => USART1_IRQHandler DR s) s

/-- The loop from byte `i` on with `size` bytes to go. `pending i` are the interrupts
before its `Usart1_read`. The bytes are those in `buserdata`, as many as are returned. -/
def read_loop (pending : Nat → List (Option UInt8)) : Nat → Nat → Usart1 → List UInt8 × Usart1
  | 0, _, s => ([], s)
  | size + 1, i, s =>
    match Usart1_read (interrupts (pending i) s) with
    | none => ([], interrupts (pending i) s)
    | some (byte, s) => (byte :: (read_loop pending size (i + 1) s).1, (read_loop pending size (i + 1) s).2)

def tty_read (pending : Nat → List (Option UInt8)) (size : Nat) (s : Usart1) : List UInt8 × Usart1 :=
  read_loop pending size 0 s

/-! ## A queue of the newest bytes -/

/-- The ring holds the bytes `xs`, the oldest first. -/
def Holds (s : Usart1) (xs : List UInt8) : Prop :=
  Circular s.usrat1_rx_buffer RX_BUFFER_SIZE s.usrat1_rx_index_front s.usrat1_rx_index_rear xs

/-- How many bytes there are between the indices. -/
def available (s : Usart1) : Nat :=
  (s.usrat1_rx_index_front + RX_BUFFER_SIZE - s.usrat1_rx_index_rear) % RX_BUFFER_SIZE

section Ring
variable {s : Usart1} {xs : List UInt8}

theorem Holds.available (h : Holds s xs) : Tty.available s = xs.length := h.length_eq

theorem Holds.length_lt (h : Holds s xs) : xs.length < RX_BUFFER_SIZE := Circular.length_lt h

theorem Holds.irq (h : Holds s xs) (DR : Option UInt8) :
    Holds (USART1_IRQHandler DR s) (newest (RX_BUFFER_SIZE - 1) (xs ++ DR.toList)) := by
  have hlen := h.length_lt
  cases DR with
  | none =>
    rw [Option.toList_none, List.append_nil, newest_of_le (by omega)]
    exact h
  | some data =>
    rw [Option.toList_some]
    unfold USART1_IRQHandler
    dsimp only
    by_cases hfull : (s.usrat1_rx_index_front + 1) % RX_BUFFER_SIZE = s.usrat1_rx_index_rear
    · rw [if_pos hfull]
      have hsize := h.full_iff.1 hfull
      obtain ⟨x, ys, rfl⟩ := List.exists_cons_of_length_pos (show 0 < xs.length by unfold RX_BUFFER_SIZE at hsize; omega)
      have hnew : newest (RX_BUFFER_SIZE - 1) (x :: ys ++ [data]) = ys ++ [data] := by
        rw [newest, List.length_append, List.length_singleton, hsize, Nat.sub_sub_self (by decide)]
        rfl
      rw [hnew]
      exact h.overwrite data
    · rw [if_neg hfull]
      have hroom : xs.length + 1 ≠ RX_BUFFER_SIZE := fun he => hfull (h.full_iff.2 he)
      rw [newest_of_le (by rw [List.length_append, List.length_singleton]; omega)]
      exact h.push hroom data

theorem Holds.interrupts (h : Holds s xs) (DRs : List (Option UInt8)) :
    Holds (interrupts DRs s) (newest (RX_BUFFER_SIZE - 1) (xs ++ DRs.reduceOption)) := by
  induction DRs generalizing s xs with
  | nil =>
    have hlen := h.length_lt
    rw [List.reduceOption_nil, List.append_nil, newest_of_le (by omega)]
    exact h
  | cons DR DRs ih =>
    have hrest := ih (h.irq DR)
    rw [newest_append, List.append_assoc] at hrest
    cases DR <;> exact hrest

theorem Holds.read_nil (h : Holds s []) : Usart1_read s = none := by
  have he := h.empty_iff.2 rfl
  unfold Usart1_read get_rx_buffer_state
  simp [he]

/-- The oldest byte is read. -/
theorem Holds.read_cons {x : UInt8} (h : Holds s (x :: xs)) : ∃ s', Usart1_read s = some (x, s') ∧ Holds s' xs := by
  have hne : s.usrat1_rx_index_rear ≠ s.usrat1_rx_index_front := fun he => absurd (h.empty_iff.1 he.symm) (by simp)
  obtain ⟨hx, hrest⟩ := h.pop
  refine ⟨(get_rx_buffer_data s).2, ?_, hrest⟩
  unfold Usart1_read get_rx_buffer_state
  rw [if_pos hne, if_pos rfl, ← hx]
  rfl

/-! ## A call of `tty_read` -/

/-- The bytes that arrive before the reads `i` to `i + size - 1`. -/
def arriving (pending : Nat → List (Option UInt8)) (size i : Nat) : List UInt8 :=
  (List.range' i size).flatMap fun k => (pending k).reduceOption

/-- What a call takes out of `xs`, and what it leaves. -/
structure Takes (pending : Nat → List (Option UInt8)) (size i : Nat) (xs data left : List UInt8) : Prop where
  at_most : data.length ≤ size
  at_least : min size xs.length ≤ data.length
  drained : data.length < size → left = []
  quiet : arriving pending size i = [] → data = xs.take size ∧ left = xs.drop size
  oldest : xs.length + (arriving pending size i).length < RX_BUFFER_SIZE → data <+: xs ++ arriving pending size i

theorem arriving_succ (pending : Nat → List (Option UInt8)) (size i : Nat) :
    arriving pending (size + 1) i = (pending i).reduceOption ++ arriving pending size (i + 1) := by
  rw [arriving, List.range'_succ, List.flatMap_cons, arriving]

theorem Takes.zero (pending : Nat → List (Option UInt8)) (i : Nat) (xs : List UInt8) : Takes pending 0 i xs [] xs where
  at_most := Nat.le_refl _
  at_least := Nat.min_le_left _ _
  drained := fun h => absurd h (Nat.lt_irrefl _)
  quiet := fun _ => ⟨rfl, rfl⟩
  oldest := fun _ => List.nil_prefix

section Call
variable {pending : Nat → List (Option UInt8)} {size i : Nat} {x : UInt8} {ys data left : List UInt8}

/-- Nothing is there for the first read. -/
theorem Takes.nil (h : newest (RX_BUFFER_SIZE - 1) (xs ++ (pending i).reduceOption) = []) :
    Takes pending (size + 1) i xs [] [] := by
  have hlen := length_newest (RX_BUFFER_SIZE - 1) (xs ++ (pending i).reduceOption)
  rw [h, List.length_nil, List.length_append] at hlen
  have hpos : 0 < RX_BUFFER_SIZE - 1 := by decide
  obtain rfl : xs = [] := List.length_eq_zero_iff.1 (by omega)
  exact ⟨Nat.zero_le _, Nat.min_le_right _ _, fun _ => rfl, fun _ => ⟨rfl, rfl⟩, fun _ => List.nil_prefix⟩

/-- The first read gives `x`. -/
theorem Takes.cons (hlen : xs.length < RX_BUFFER_SIZE)
    (hnew : newest (RX_BUFFER_SIZE - 1) (xs ++ (pending i).reduceOption) = x :: ys)
    (h : Takes pending size (i + 1) ys data left) : Takes pending (size + 1) i xs (x :: data) left := by
  have hys := length_newest (RX_BUFFER_SIZE - 1) (xs ++ (pending i).reduceOption)
  rw [hnew, List.length_cons, List.length_append] at hys
  have hall : xs.length + (pending i).reduceOption.length < RX_BUFFER_SIZE →
      xs ++ (pending i).reduceOption = x :: ys := by
    intro hroom
    rw [← hnew, newest_of_le (by rw [List.length_append]; omega)]
  refine ⟨Nat.succ_le_succ h.at_most, ?_, fun hlt => h.drained (Nat.lt_of_succ_lt_succ hlt), ?_, ?_⟩
  · have hleast := h.at_least
    rw [List.length_cons]
    omega
  · intro hquiet
    rw [arriving_succ, List.append_eq_nil_iff] at hquiet
    obtain ⟨hdata, hleft⟩ := h.quiet hquiet.2
    have hxs := hall (by rw [hquiet.1]; exact hlen)
    rw [hquiet.1, List.append_nil] at hxs
    rw [hxs, hdata, hleft]
    exact ⟨rfl, rfl⟩
  · intro hroom
    rw [arriving_succ, List.length_append] at hroom
    have hxs := hall (by omega)
    have hys' : ys.length + 1 = xs.length + (pending i).reduceOption.length := by
      rw [← List.length_append, hxs, List.length_cons]
    rw [arriving_succ, ← List.append_assoc, hxs, List.cons_append]
    exact (List.prefix_cons_inj x).2 (h.oldest (by omega))

theorem Holds.read_loop (h : Holds s xs) (pending : Nat → List (Option UInt8)) (size i : Nat) :
    ∃ left, Holds (read_loop pending size i s).2 left ∧ Takes pending size i xs (read_loop pending size i s).1 left := by
  induction size generalizing i s xs with
  | zero => exact ⟨xs, h, .zero pending i xs⟩
  | succ size ih =>
    have hirq := h.interrupts (pending i)
    rw [Tty.read_loop]
    cases hnew : newest (RX_BUFFER_SIZE - 1) (xs ++ (pending i).reduceOption) with
    | nil =>
      rw [hnew] at hirq
      rw [hirq.read_nil]
      exact ⟨[], hirq, .nil hnew⟩
    | cons x ys =>
      rw [hnew] at hirq
      obtain ⟨s', hs', hys⟩ := hirq.read_cons
      obtain ⟨left, hleft, htakes⟩ := ih hys (i + 1)
      rw [hs']
      exact ⟨left, hleft, .cons h.length_lt hnew htakes⟩

end Call

end Ring

/-! ## Runs -/

/-- The line since it was set up: `received` has the bytes that the interrupt took,
`places` where in it those are that were read, and `returned` what was read. -/
structure Line where
  usart : Usart1
  received : List UInt8
  places : List Nat
  returned : List UInt8

inductive Event where
  | irq (DR : Option UInt8)
  | read
  deriving DecidableEq, Repr

def Line.step (l : Line) : Event → Line
  | .irq DR => { l with usart := USART1_IRQHandler DR l.usart, received := l.received ++ DR.toList }
  | .read =>
    match Usart1_read l.usart with
    | none => l
    | some (byte, usart) =>
      { l with
        usart := usart
        places := l.places ++ [l.received.length - available l.usart]
        returned := l.returned ++ [byte] }

/-- The static variables at the start. -/
def line_start : Line := ⟨⟨fun _ => 0, 0, 0⟩, [], [], []⟩

/-- The bytes of the ring. -/
def Line.unread (l : Line) : List UInt8 := l.received.drop (l.received.length - available l.usart)

/-- The bytes that left the ring, read or lost. -/
def Line.gone (l : Line) : List UInt8 := l.received.take (l.received.length - available l.usart)

/-- What was returned are bytes of those that left the ring, in their order and each
once. One that was lost has had as many newer ones as fit in the ring. -/
structure LineOk (l : Line) : Prop where
  ring : Holds l.usart l.unread
  order : l.places.Pairwise (· < ·)
  bytes : l.returned.map some = l.places.map (l.received[·]?)
  subsequence : l.returned.Sublist l.gone
  behind : ∀ p ∈ l.places, p < l.gone.length
  lost : ∀ p < l.gone.length, p ∉ l.places → p + (RX_BUFFER_SIZE - 1) < l.received.length

section Line
variable {l : Line} {old xs : List UInt8}

theorem Line.gone_append (l : Line) : l.gone ++ l.unread = l.received := List.take_append_drop _ _

/-- The ring has the last bytes, so the others are gone. -/
theorem split_eq (hring : Holds l.usart xs) (hreceived : l.received = old ++ xs) : l.gone = old ∧ l.unread = xs := by
  have hcut : l.received.length - available l.usart = old.length := by
    rw [hring.available, hreceived, List.length_append, Nat.add_sub_cancel]
  rw [Line.gone, Line.unread, hcut, hreceived]
  exact ⟨List.take_left, List.drop_left⟩

theorem LineOk.irq (h : LineOk l) (DR : Option UInt8) : LineOk (l.step (.irq DR)) := by
  obtain ⟨lost, hlost⟩ : ∃ lost, l.unread ++ DR.toList =
      lost ++ newest (RX_BUFFER_SIZE - 1) (l.unread ++ DR.toList) := ⟨_, (List.take_append_drop _ _).symm⟩
  have hring : Holds (l.step (.irq DR)).usart _ := h.ring.irq DR
  have hreceived : (l.step (.irq DR)).received =
      l.gone ++ lost ++ newest (RX_BUFFER_SIZE - 1) (l.unread ++ DR.toList) := by
    rw [List.append_assoc, ← hlost, ← List.append_assoc, l.gone_append]
    rfl
  obtain ⟨hgone, hunread⟩ := split_eq hring hreceived
  have hle : l.gone.length ≤ l.received.length := by
    rw [← l.gone_append, List.length_append]
    omega
  refine ⟨hunread ▸ hring, h.order, ?_, ?_, ?_, ?_⟩
  · show l.returned.map some = l.places.map ((l.received ++ DR.toList)[·]?)
    rw [h.bytes]
    refine List.map_congr_left ?_
    intro p hp
    rw [List.getElem?_append_left (Nat.lt_of_lt_of_le (h.behind p hp) hle)]
  · rw [hgone]
    exact h.subsequence.trans (List.sublist_append_left _ _)
  · intro p hp
    have hlt := h.behind p hp
    rw [hgone, List.length_append]
    omega
  · intro p hp hplace
    show p + (RX_BUFFER_SIZE - 1) < (l.received ++ DR.toList).length
    rw [hgone, List.length_append] at hp
    by_cases hold : p < l.gone.length
    · have := h.lost p hold hplace
      rw [List.length_append]
      omega
    · -- The byte is lost now, and the ring is full.
      have hnew := length_newest (RX_BUFFER_SIZE - 1) (l.unread ++ DR.toList)
      have hlen : (l.unread ++ DR.toList).length =
          lost.length + (newest (RX_BUFFER_SIZE - 1) (l.unread ++ DR.toList)).length := by
        rw [← List.length_append, ← hlost]
      rw [← l.gone_append, List.append_assoc, List.length_append]
      omega

theorem LineOk.read (h : LineOk l) : LineOk (l.step .read) := by
  have hring := h.ring
  cases hxs : l.unread with
  | nil =>
    rw [hxs] at hring
    have hstep : l.step .read = l := by
      rw [Line.step, hring.read_nil]
    rwa [hstep]
  | cons x xs =>
    rw [hxs] at hring
    obtain ⟨usart, hread, hleft⟩ := hring.read_cons
    have hsplit : l.received = l.gone ++ [x] ++ xs := by
      rw [← l.gone_append, hxs, List.append_assoc]
      rfl
    have hplace : l.received.length - available l.usart = l.gone.length := by
      rw [hring.available, hsplit, List.append_assoc, List.length_append]
      exact Nat.add_sub_cancel _ _
    have hstep : l.step .read =
        { l with usart := usart, places := l.places ++ [l.gone.length], returned := l.returned ++ [x] } := by
      rw [Line.step, hread, hplace]
    rw [hstep]
    obtain ⟨hgone, hunread⟩ := split_eq (l := ⟨usart, l.received, l.places ++ [l.gone.length], l.returned ++ [x]⟩) hleft hsplit
    have hlen : (l.gone ++ [x]).length = l.gone.length + 1 := List.length_append
    refine ⟨hunread ▸ hleft, ?_, ?_, ?_, ?_, ?_⟩
    · refine List.pairwise_append.2 ⟨h.order, List.pairwise_singleton _ _, ?_⟩
      intro p hp q hq
      rw [List.mem_singleton.1 hq]
      exact h.behind p hp
    · show (l.returned ++ [x]).map some = (l.places ++ [l.gone.length]).map (l.received[·]?)
      rw [List.map_append, List.map_append, h.bytes]
      congr 1
      show [some x] = [l.received[l.gone.length]?]
      rw [hsplit, List.append_assoc, List.getElem?_append_right (Nat.le_refl _), Nat.sub_self]
      rfl
    · rw [hgone]
      exact h.subsequence.append (List.Sublist.refl [x])
    · intro p hp
      rw [hgone, hlen]
      rcases List.mem_append.1 hp with hp | hp
      · exact Nat.lt_succ_of_lt (h.behind p hp)
      · rw [List.mem_singleton.1 hp]
        exact Nat.lt_succ_self _
    · intro p hp hplaces
      obtain ⟨hold, hlast⟩ := not_or.1 (List.mem_append.not.1 hplaces)
      rw [hgone, hlen] at hp
      have hne := List.mem_singleton.not.1 hlast
      exact h.lost p (by omega) hold

end Line

theorem line_start_ok : LineOk line_start where
  ring := Circular.empty (by decide)
  order := .nil
  bytes := rfl
  subsequence := .slnil
  behind := fun p hp => absurd hp List.not_mem_nil
  lost := fun p hp => absurd hp (Nat.not_lt_zero p)

theorem events_ok {l : Line} (h : LineOk l) (events : List Event) : LineOk (events.foldl Line.step l) := by
  induction events generalizing l with
  | nil => exact h
  | cons event events ih =>
    apply ih
    cases event with
    | irq DR => exact h.irq DR
    | read => exact h.read

/-- What `Usart1_read` gives is the oldest byte of the ring. -/
theorem LineOk.oldest {l : Line} (h : LineOk l) : (Usart1_read l.usart).map (·.1) = l.unread.head? := by
  have hring := h.ring
  cases hxs : l.unread with
  | nil =>
    rw [hxs] at hring
    rw [hring.read_nil]
    rfl
  | cons x xs =>
    rw [hxs] at hring
    obtain ⟨usart, hread, -⟩ := hring.read_cons
    rw [hread]
    rfl

theorem interrupts_events (DRs : List (Option UInt8)) (l : Line) :
    (DRs.map Event.irq).foldl Line.step l = { l with
      usart := interrupts DRs l.usart
      received := l.received ++ DRs.reduceOption } := by
  induction DRs generalizing l with
  | nil =>
    rw [List.reduceOption_nil, List.append_nil]
    rfl
  | cons DR DRs ih =>
    rw [List.map_cons, List.foldl_cons, ih]
    cases DR with
    | none =>
      rw [List.reduceOption_cons_of_none]
      simp only [Line.step, Option.toList_none, List.append_nil]
      rfl
    | some data =>
      rw [List.reduceOption_cons_of_some]
      simp only [Line.step, Option.toList_some, List.append_assoc]
      rfl

/-- A call of `tty_read` is made of such events. -/
theorem read_loop_events (pending : Nat → List (Option UInt8)) (size i : Nat) (l : Line) :
    ∃ events : List Event, (events.foldl Line.step l).usart = (read_loop pending size i l.usart).2 ∧
      (events.foldl Line.step l).returned = l.returned ++ (read_loop pending size i l.usart).1 := by
  induction size generalizing i l with
  | zero => exact ⟨[], rfl, (List.append_nil _).symm⟩
  | succ size ih =>
    rw [read_loop]
    cases hread : Usart1_read (interrupts (pending i) l.usart) with
    | none =>
      refine ⟨(pending i).map Event.irq, ?_, ?_⟩
      · rw [interrupts_events]
      · rw [interrupts_events, List.append_nil]
    | some read =>
      have hfirst : ((pending i).map Event.irq ++ [Event.read]).foldl Line.step l =
          ({ l with usart := interrupts (pending i) l.usart, received := l.received ++ (pending i).reduceOption } :
            Line).step .read := by
        rw [List.foldl_append, interrupts_events]
        rfl
      simp only [Line.step, hread] at hfirst
      obtain ⟨events, husart, hreturned⟩ := ih (i + 1) (((pending i).map Event.irq ++ [Event.read]).foldl Line.step l)
      refine ⟨(pending i).map Event.irq ++ [Event.read] ++ events, ?_, ?_⟩
      · rw [List.foldl_append, husart, hfirst]
      · rw [List.foldl_append, hreturned, hfirst, List.append_assoc]
        rfl

/-- After any interrupts and reads: what was returned are received bytes in order,
lost bytes had 1023 newer ones, and a read gives the oldest byte that is left. A
call of `tty_read` is made of such reads and takes the oldest bytes, as many as
there are. -/
theorem received_in_order (events : List Event) :
    let l := events.foldl Line.step line_start
    LineOk l ∧ (Usart1_read l.usart).map (·.1) = l.unread.head? ∧
      ∀ pending size, (∃ left, Holds (tty_read pending size l.usart).2 left ∧
          Takes pending size 0 l.unread (tty_read pending size l.usart).1 left) ∧
        ∃ call : List Event, (call.foldl Line.step l).usart = (tty_read pending size l.usart).2 ∧
          (call.foldl Line.step l).returned = l.returned ++ (tty_read pending size l.usart).1 := by
  intro l
  have hok : LineOk l := events_ok line_start_ok events
  refine ⟨hok, hok.oldest, ?_⟩
  intro pending size
  exact ⟨hok.ring.read_loop pending size 0, read_loop_events pending size 0 l⟩

end McLinOS.Tty
