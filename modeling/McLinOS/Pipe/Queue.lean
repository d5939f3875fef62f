import McLinOS.Pipe.Model
/-!
# The ring of a pipe is a queue

Of any size. One cell stays free, to tell a full ring from an empty one.
-/
open CLib Function

namespace McLinOS.Pipefs

inductive Op where
  | write (data : UInt8)
  | read
  deriving DecidableEq, Repr

/-- A result `none` is -1, and `some` is 0 with the byte of a read. -/
def ring_call (buf : pipe_buffer) : Op → Option (Option UInt8) × pipe_buffer
  | .write data =>
    match pipe_buffer_write buf data with
    | none => (none, buf)
    | some buf => (some none, buf)
  | .read =>
    match pipe_buffer_read buf with
    | none => (none, buf)
    | some (byte, buf) => (some (some byte), buf)

/-- A queue for `capacity` bytes, first in first out. -/
def queue_call (capacity : Nat) (q : List UInt8) : Op → Option (Option UInt8) × List UInt8
  | .write data => if q.length = capacity then (none, q) else (some none, q ++ [data])
  | .read =>
    match q with
    | [] => (none, [])
    | x :: xs => (some (some x), xs)

/-- The ring holds the bytes of the queue. Behind its cells nothing was changed. -/
structure IsQueue (size : Nat) (buffer : Nat → UInt8) (buf : pipe_buffer) (q : List UInt8) : Prop where
  size_eq : buf.size = size
  ring : Circular buf.buffer size buf.head buf.tail q
  behind : ∀ i, size ≤ i → buf.buffer i = buffer i

section Queue
variable {size : Nat} {buffer : Nat → UInt8} {buf : pipe_buffer} {q : List UInt8}

theorem IsQueue.write (h : IsQueue size buffer buf q) (data : UInt8) :
    (ring_call buf (.write data)).1 = (queue_call (size - 1) q (.write data)).1 ∧
      IsQueue size buffer (ring_call buf (.write data)).2 (queue_call (size - 1) q (.write data)).2 := by
  have hlen := h.ring.length_lt
  have hfull := h.ring.full_iff
  rw [ring_call, queue_call, pipe_buffer_write, h.size_eq]
  by_cases hroom : q.length = size - 1
  · rw [if_pos (hfull.2 (by omega)), if_pos hroom]
    exact ⟨rfl, h⟩
  · rw [if_neg fun he => hroom (by have := hfull.1 he; omega), if_neg hroom]
    refine ⟨rfl, rfl, h.ring.push (by omega) data, ?_⟩
    intro i hi
    have hhead := h.ring.head_lt
    show update buf.buffer buf.head data i = buffer i
    rw [update_of_ne (by omega), h.behind i hi]

theorem IsQueue.read (h : IsQueue size buffer buf q) : (ring_call buf .read).1 = (queue_call (size - 1) q .read).1 ∧
    IsQueue size buffer (ring_call buf .read).2 (queue_call (size - 1) q .read).2 := by
  have hempty := h.ring.empty_iff
  rw [ring_call, pipe_buffer_read, h.size_eq]
  cases q with
  | nil =>
    rw [if_pos (hempty.2 rfl)]
    exact ⟨rfl, h⟩
  | cons x xs =>
    rw [if_neg fun he => by cases hempty.1 he]
    obtain ⟨hx, hring⟩ := h.ring.pop
    rw [hx]
    exact ⟨rfl, rfl, hring, h.behind⟩

theorem IsQueue.call (h : IsQueue size buffer buf q) (op : Op) :
    (ring_call buf op).1 = (queue_call (size - 1) q op).1 ∧
      IsQueue size buffer (ring_call buf op).2 (queue_call (size - 1) q op).2 := by
  cases op with
  | write data => exact h.write data
  | read => exact h.read

end Queue

/-- A ring that was set up empty answers like a queue for one byte less than its
size, whatever is written and read, and its indices stay in its cells. -/
theorem ring_is_queue (buffer : Nat → UInt8) (size : Nat) (hsize : 2 ≤ size) (ops : List Op) :
    let ring := calls ring_call ops ⟨buffer, size, 0, 0⟩
    let queue := calls (queue_call (size - 1)) ops []
    ring.1 = queue.1 ∧ IsQueue size buffer ring.2 queue.2 ∧ ring.2.head < size ∧ ring.2.tail < size := by
  intro ring queue
  have hstart : IsQueue size buffer ⟨buffer, size, 0, 0⟩ [] := ⟨rfl, .empty (show 0 < size by omega), fun _ _ => rfl⟩
  obtain ⟨hresults, hqueue⟩ := calls_simulates (IsQueue size buffer) (fun _ _ h op => h.call op) hstart ops
  exact ⟨hresults, hqueue, hqueue.ring.head_lt, hqueue.ring.tail_lt⟩

/-- A ring of three cells, once full and once empty. -/
theorem ring_is_queue_three :
    (calls ring_call [.write 1, .write 2, .write 3, .read, .write 4, .read, .read, .read] ⟨fun _ => 0, 3, 0, 0⟩).1 =
      [some none, some none, none, some (some 1), some none, some (some 2), some (some 4), none] :=
  (ring_is_queue (fun _ => 0) 3 (by decide) _).1.trans (by decide)

end McLinOS.Pipefs
