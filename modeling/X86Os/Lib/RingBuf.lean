import Mathlib.Data.Nat.Notation
import Mathlib.Logic.Function.Basic
import Mathlib.Tactic.TypeStar

/-!
# Ring buffers

A buffer of `n` slots with two cursors is a queue of at most `n - 1` elements: what lies between the
read cursor and the write cursor, wrapping around at `n`. One slot stays free, so that equal cursors
mean an empty queue and a write cursor just behind the read cursor means a full one.

`RingBuf` is that abstraction, for any size and any type of elements, and the lemmas are the
operations: what a write at one cursor and a read at the other do to the queue, and how its length
can be told from the cursors.
-/

namespace X86Os

/-- The queue `q` lies in the `n` slots of `buf` between the cursors. -/
structure RingBuf {α : Type*} (n : ℕ) (buf : ℕ → α) (tail head : ℕ) (q : List α) : Prop where
  tail_lt : tail < n
  length_lt : q.length < n
  head_eq : head = (tail + q.length) % n
  slot : ∀ i < q.length, q[i]? = some (buf ((tail + i) % n))

namespace RingBuf

variable {α : Type*} {n : ℕ} {buf : ℕ → α} {tail head : ℕ} {q : List α} {x : α}

theorem nil (h : tail < n) : RingBuf n buf tail tail [] :=
  ⟨h, by simp only [List.length_nil]; omega, (Nat.mod_eq_of_lt h).symm,
    fun i hi => absurd hi (by simp)⟩

/-- A sum of a slot and at most `n` wraps around at most once. -/
theorem wrap {k : ℕ} (ht : tail < n) (hk : k < n) :
    (tail + k) % n = if tail + k < n then tail + k else tail + k - n := by
  split
  · exact Nat.mod_eq_of_lt ‹_›
  · rw [Nat.mod_eq_sub_mod (by omega), Nat.mod_eq_of_lt (by omega)]

/-- Different distances from the read cursor are different slots. -/
theorem slot_ne {i k : ℕ} (ht : tail < n) (hi : i < k) (hk : k < n) :
    (tail + i) % n ≠ (tail + k) % n := by
  rw [wrap ht (by omega), wrap ht hk]
  split <;> split <;> omega

/-- **Empty.** -/
theorem eq_iff (h : RingBuf n buf tail head q) : head = tail ↔ q = [] := by
  have ht := h.tail_lt
  have hl := h.length_lt
  rw [h.head_eq, wrap ht hl, ← List.length_eq_zero_iff]
  split <;> omega

/-- **Full.** -/
theorem next_eq_iff (h : RingBuf n buf tail head q) : (head + 1) % n = tail ↔ q.length + 1 = n := by
  have ht := h.tail_lt
  have hl := h.length_lt
  rw [h.head_eq, Nat.mod_add_mod, Nat.add_assoc]
  by_cases hfull : q.length + 1 = n
  · rw [hfull, Nat.add_mod_right, Nat.mod_eq_of_lt ht]
    exact ⟨fun _ => rfl, fun _ => rfl⟩
  · rw [wrap ht (by omega)]
    split <;> omega

/-- **The length**, by which of the cursors is ahead. -/
theorem length_eq (h : RingBuf n buf tail head q) :
    (if tail ≤ head then head - tail else n - (tail - head)) = q.length := by
  have ht := h.tail_lt
  have hl := h.length_lt
  rw [h.head_eq, wrap ht hl]
  split <;> split <;> omega

/-- **A write** at the write cursor of a queue that is not full. -/
theorem push (h : RingBuf n buf tail head q) (hroom : q.length + 1 < n) (x : α) :
    RingBuf n (Function.update buf head x) tail ((head + 1) % n) (q ++ [x]) := by
  refine ⟨h.tail_lt, by simpa using hroom, ?_, fun i hi => ?_⟩
  · rw [h.head_eq, Nat.mod_add_mod, List.length_append, List.length_singleton, Nat.add_assoc]
  · rw [List.length_append, List.length_singleton] at hi
    by_cases hlast : i = q.length
    · rw [hlast, ← h.head_eq, Function.update_self, List.getElem?_concat_length]
    · have hi' : i < q.length := by omega
      rw [List.getElem?_append_left hi', h.slot i hi', Function.update_of_ne]
      rw [h.head_eq]
      exact slot_ne h.tail_lt hi' h.length_lt

/-- **A read** at the read cursor. -/
theorem pop (h : RingBuf n buf tail head (x :: q)) :
    buf tail = x ∧ RingBuf n buf ((tail + 1) % n) head q := by
  have ht := h.tail_lt
  have hl := h.length_lt
  rw [List.length_cons] at hl
  refine ⟨?_, Nat.mod_lt _ (by omega), by omega, ?_, fun i hi => ?_⟩
  · have hslot := h.slot 0 (by simp)
    rw [Nat.add_zero, Nat.mod_eq_of_lt ht] at hslot
    exact (Option.some.inj hslot).symm
  · rw [h.head_eq, Nat.mod_add_mod, List.length_cons, Nat.add_assoc, Nat.add_comm 1]
  · have hslot := h.slot (i + 1) (by simpa using hi)
    rw [List.getElem?_cons_succ] at hslot
    rw [hslot, Nat.mod_add_mod, Nat.add_assoc, Nat.add_comm 1]

end RingBuf

end X86Os
