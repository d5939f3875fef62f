import Mathlib.Order.Monotone.Basic
import McLinOS.CLib.Loop
import McLinOS.CLib.Mem
/-!
# Reading a 64-bit counter by words

`drivers/timer/rp2350/timer.c`. The timer counts on while its two words are read,
so a carry may fall between any two reads. `uint64_t` is `unsigned long`
(`asm-generic/int-l64.h`), which has 32 bits here.
-/
open CLib

set_option linter.style.nameCheck false

namespace McLinOS.Timer

/-- The counter at every instant. It only increases, and its high word does not
wrap. -/
structure Counter (T : Type) [Preorder T] where
  count : T → Nat
  increases : Monotone count
  bounded : ∀ t, count t < 2 ^ 64

/-- The instants of the word reads of one call. -/
structure Reads (T : Type) [Preorder T] where
  instant : Nat → T
  ordered : Monotone instant

/-! ## The code -/

def TIMERAWH (count : Nat) : Nat := count / 2 ^ 32

def TIMERAWL (count : Nat) : Nat := count % 2 ^ 32

/-- `((uint64_t)hi << 32) | lo`. The shift is by the whole width, and the `lsls` that is
compiled for it leaves 0. -/
def join (hi lo : Nat) : Nat := u32 (hi <<< 32) ||| lo

/-- A round of the loop. The next word read is number `k`, and `seen k` is what the
counter has then. -/
def time_turn (seen : Nat → Nat) (k : Nat) : ControlFlow Nat (Nat × Nat) :=
  let hi := TIMERAWH (seen k)
  let lo := TIMERAWL (seen (k + 1))
  if TIMERAWH (seen (k + 2)) ≠ hi then .cont (k + 3) else .done (join hi lo, k + 2)

/-- The result and the number of the last word read. -/
def time_us_64 (seen : Nat → Nat) (fuel : Nat) : Option (Nat × Nat) := loop (time_turn seen) fuel 0

/-! ## One round -/

/-- The high word is the same at the end of the round. -/
def Steady (seen : Nat → Nat) (k : Nat) : Prop := TIMERAWH (seen (k + 2)) = TIMERAWH (seen k)

section Round
variable {seen : Nat → Nat}

/-- Nothing is left of the high word. -/
theorem join_eq (hi lo : Nat) : join hi lo = lo := by
  have hhigh : u32 (hi <<< 32) = 0 := by rw [u32, Nat.shiftLeft_eq, Nat.mul_mod_left]
  rw [join, hhigh, Nat.zero_or]

theorem high_le {a b : Nat} (h : a ≤ b) : TIMERAWH a ≤ TIMERAWH b := Nat.div_le_div_right h

/-- A steady round gives the low word of its second read. -/
theorem turn_steady {k : Nat} (h : Steady seen k) : time_turn seen k = .done (TIMERAWL (seen (k + 1)), k + 2) := by
  have hsame : ¬TIMERAWH (seen (k + 2)) ≠ TIMERAWH (seen k) := not_not.2 h
  rw [time_turn, if_neg hsame, join_eq]

theorem turn_unsteady {k : Nat} (h : ¬Steady seen k) : time_turn seen k = .cont (k + 3) := if_pos h

/-! ## The loop -/

/-- The loop ends in the first steady round. -/
theorem loop_iff (seen : Nat → Nat) (fuel k : Nat) (r : Nat × Nat) : loop (time_turn seen) fuel k = some r ↔
    ∃ n < fuel, Steady seen (k + 3 * n) ∧ (∀ m < n, ¬Steady seen (k + 3 * m)) ∧
      r = (TIMERAWL (seen (k + 3 * n + 1)), k + 3 * n + 2) := by
  induction fuel generalizing k with
  | zero => simp [loop]
  | succ fuel ih =>
    by_cases hk : Steady seen k
    · rw [loop_done (turn_steady hk), Option.some.injEq]
      constructor
      · rintro rfl
        exact ⟨0, Nat.succ_pos fuel, hk, by simp, rfl⟩
      · rintro ⟨n, -, -, hfirst, rfl⟩
        obtain rfl : n = 0 := by
          by_contra hn
          exact hfirst 0 (Nat.pos_of_ne_zero hn) hk
        rfl
    · rw [loop_cont (turn_unsteady hk), ih]
      constructor
      · rintro ⟨n, hn, hsteady, hfirst, rfl⟩
        have hnext : k + 3 + 3 * n = k + 3 * (n + 1) := by omega
        rw [hnext] at hsteady ⊢
        refine ⟨n + 1, Nat.succ_lt_succ hn, hsteady, ?_, rfl⟩
        rintro (_ | m) hm
        · exact hk
        · rw [← show k + 3 + 3 * m = k + 3 * (m + 1) by omega]
          exact hfirst m (Nat.lt_of_succ_lt_succ hm)
      · rintro ⟨_ | n, hn, hsteady, hfirst, rfl⟩
        · exact absurd hsteady hk
        · have hnext : k + 3 * (n + 1) = k + 3 + 3 * n := by omega
          rw [hnext] at hsteady ⊢
          refine ⟨n, Nat.lt_of_succ_lt_succ hn, hsteady, ?_, rfl⟩
          intro m hm
          rw [show k + 3 + 3 * m = k + 3 * (m + 1) by omega]
          exact hfirst (m + 1) (Nat.succ_lt_succ hm)

/-- Every round that is not the last one sees the high word grow. -/
theorem loop_ends_bounded (hseen : Monotone seen) (hbound : ∀ k, seen k < 2 ^ 64) (k : Nat) :
    ∃ r, loop (time_turn seen) (2 ^ 32 + 1) k = some r := by
  have hhigh : ∀ k, TIMERAWH (seen k) < 2 ^ 32 := fun k => Nat.div_lt_of_lt_mul (hbound k)
  refine loop_ends (fun k => 2 ^ 32 - TIMERAWH (seen k)) ?_ (Nat.lt_succ_of_le (Nat.sub_le _ _))
  intro k k' hturn
  by_cases hk : Steady seen k
  · rw [turn_steady hk] at hturn
    cases hturn
  · rw [turn_unsteady hk] at hturn
    obtain rfl := ControlFlow.cont.inj hturn
    have h1 := high_le (hseen (show k ≤ k + 2 by omega))
    have h2 := high_le (hseen (show k + 2 ≤ k + 3 by omega))
    have h3 := hhigh (k + 3)
    unfold Steady at hk
    omega

end Round

/-! ## Calls -/

section Calls
variable {T : Type} [Preorder T]

/-- What the counter has at the reads of a call. -/
def Counter.seen (timer : Counter T) (reads : Reads T) (k : Nat) : Nat := timer.count (reads.instant k)

theorem Counter.seen_mono (timer : Counter T) (reads : Reads T) : Monotone (timer.seen reads) :=
  timer.increases.comp reads.ordered

/-- The calls on a counter give its time: each returns a value the counter had between
its first and its last read, and a later one no less. -/
structure Consistent (timer : Counter T) : Prop where
  value : ∀ reads fuel r, time_us_64 (timer.seen reads) fuel = some r →
    ∃ t, reads.instant 0 ≤ t ∧ t ≤ reads.instant r.2 ∧ r.1 = timer.count t
  ordered : ∀ (reads later : Reads T) (fuel fuel' : Nat) (r r' : Nat × Nat), time_us_64 (timer.seen reads) fuel = some r →
    time_us_64 (timer.seen later) fuel' = some r' → reads.instant r.2 ≤ later.instant 0 → r.1 ≤ r'.1

theorem time_us_64_iff (timer : Counter T) (reads : Reads T) (fuel : Nat) (r : Nat × Nat) :
    time_us_64 (timer.seen reads) fuel = some r ↔
      ∃ n < fuel, Steady (timer.seen reads) (3 * n) ∧ (∀ m < n, ¬Steady (timer.seen reads) (3 * m)) ∧
        r = (TIMERAWL (timer.seen reads (3 * n + 1)), 3 * n + 2) := by
  have hiff := loop_iff (timer.seen reads) fuel 0 r
  simp only [Nat.zero_add] at hiff
  exact hiff

/-- Below `2 ^ 32` the low word is all of the counter. -/
theorem result_at {timer : Counter T} (hsmall : ∀ t, timer.count t < 2 ^ 32) {reads : Reads T} {fuel : Nat} {r : Nat × Nat}
    (h : time_us_64 (timer.seen reads) fuel = some r) :
    ∃ t, reads.instant 0 ≤ t ∧ t ≤ reads.instant r.2 ∧ r.1 = timer.count t := by
  obtain ⟨n, -, -, -, rfl⟩ := (time_us_64_iff timer reads fuel r).1 h
  exact ⟨reads.instant (3 * n + 1), reads.ordered (Nat.zero_le _), reads.ordered (Nat.le_succ _), Nat.mod_eq_of_lt (hsmall _)⟩

theorem consistent_of_small {timer : Counter T} (hsmall : ∀ t, timer.count t < 2 ^ 32) : Consistent timer where
  value _ _ _ h := result_at hsmall h
  ordered reads later fuel fuel' r r' h h' hlater := by
    obtain ⟨t, -, ht, hr⟩ := result_at hsmall h
    obtain ⟨t', ht', -, hr'⟩ := result_at hsmall h'
    rw [hr, hr']
    exact timer.increases (le_trans ht (le_trans hlater ht'))

/-- A call that makes all its reads at one instant. -/
def Reads.at (t : T) : Reads T := ⟨fun _ => t, fun _ _ _ => le_refl t⟩

/-- Such a call returns the low word at once, which is not the time from `2 ^ 32` on. -/
theorem small_of_consistent {timer : Counter T} (h : Consistent timer) (t : T) : timer.count t < 2 ^ 32 := by
  have hcall : time_us_64 (timer.seen (Reads.at t)) 1 = some (TIMERAWL (timer.count t), 2) :=
    (time_us_64_iff timer (Reads.at t) 1 _).2 ⟨0, Nat.one_pos, rfl, fun m hm => absurd hm (Nat.not_lt_zero m), rfl⟩
  obtain ⟨t', hle, hge, hvalue⟩ := h.value _ _ _ hcall
  have hsame : timer.count t' = timer.count t := Nat.le_antisymm (timer.increases hge) (timer.increases hle)
  rw [hsame] at hvalue
  have hlow : TIMERAWL (timer.count t) < 2 ^ 32 := Nat.mod_lt _ (by decide)
  exact hvalue ▸ hlow

/-- The calls give the time exactly as long as it fits 32 bits. Whatever the counter
does, a call returns, and in the first round in which the high word did not change. -/
theorem time_us_64_consistent (timer : Counter T) :
    (Consistent timer ↔ ∀ t, timer.count t < 2 ^ 32) ∧
    ∀ reads, (∃ fuel r, time_us_64 (timer.seen reads) fuel = some r) ∧
      ∀ fuel r, time_us_64 (timer.seen reads) fuel = some r ↔
        ∃ n < fuel, Steady (timer.seen reads) (3 * n) ∧ (∀ m < n, ¬Steady (timer.seen reads) (3 * m)) ∧
          r = (TIMERAWL (timer.seen reads (3 * n + 1)), 3 * n + 2) :=
  ⟨⟨fun h t => small_of_consistent h t, consistent_of_small⟩, fun reads =>
    ⟨⟨_, loop_ends_bounded (timer.seen_mono reads) (fun _ => timer.bounded _) 0⟩, time_us_64_iff timer reads⟩⟩

end Calls

/-- A counter that carries after the first instant, until it is full. -/
def carry : Counter Nat where
  count := fun t => min (0xffffffff + t) 0xffffffffffffffff
  increases := fun _ _ h => Nat.le_min.2 ⟨(Nat.min_le_left _ _).trans (Nat.add_le_add_left h _), Nat.min_le_right _ _⟩
  bounded := fun _ => Nat.lt_of_le_of_lt (Nat.min_le_right _ _) (by decide)

/-- Behind the carry the calls start again at 0. -/
theorem time_us_64_restarts : ¬∀ timer : Counter Nat, Consistent timer := by
  intro h
  have hbefore : time_us_64 (carry.seen (Reads.at 0)) 1 = some (0xffffffff, 2) := by decide +kernel
  have hafter : time_us_64 (carry.seen (Reads.at 1)) 1 = some (0, 2) := by decide +kernel
  exact absurd ((h carry).ordered _ _ _ _ _ _ hbefore hafter (Nat.zero_le 1)) (by decide)

end McLinOS.Timer
