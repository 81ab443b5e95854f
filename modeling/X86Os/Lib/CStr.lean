import Mathlib.Data.List.GetD
import X86Os.Lib.Bytes

/-!
# Strings in buffers

A row of bytes is `put` into a buffer at an offset; a string is in a buffer if its bytes are there,
none of them zero, and a zero after them. Routines that store one byte after the other are one `put`
(`put_append`), and one that stores a terminator and then goes on over it leaves none
(`put_overlap`).
-/

namespace X86Os.Buf

variable {b : Buf} {off i k : ℕ} {c : Byte} {s t : List Byte}

/-- Store the bytes of a list at `off` and after. -/
def put (b : Buf) (off : ℕ) (s : List Byte) : Buf := b.splice off (fun i => s.getD i 0) s.length

/-- The string `s` and its terminator, at `off`. -/
structure HoldsStr (b : Buf) (off : ℕ) (s : List Byte) : Prop where
  bytes : ∀ (i : ℕ) (h : i < s.length), b (off + i) = s[i]
  ne_zero : ∀ c ∈ s, c ≠ 0
  nul : b (off + s.length) = 0

theorem put_of_not_mem (h : k < off ∨ off + s.length ≤ k) : b.put off s k = b k :=
  splice_of_not_mem h

theorem put_add (h : i < s.length) : b.put off s (off + i) = s[i] := by
  rw [put, splice_add h, List.getD_eq_getElem _ _ h]

@[simp] theorem put_nil : b.put off [] = b := by
  funext k
  exact put_of_not_mem (by simp; omega)

/-- A store after another, into a buffer that may differ where it goes. -/
theorem put_put {b' : Buf}
    (h : ∀ k, k < off + s.length ∨ off + s.length + t.length ≤ k → b' k = b.put off s k) :
    b'.put (off + s.length) t = b.put off (s ++ t) := by
  funext k
  by_cases hk : k < off + s.length ∨ off + s.length + t.length ≤ k
  · rw [put_of_not_mem hk, h k hk]
    by_cases hs : k < off ∨ off + s.length ≤ k
    · rw [put_of_not_mem hs, put_of_not_mem (by rw [List.length_append]; omega)]
    · obtain ⟨i, rfl⟩ := Nat.exists_eq_add_of_le (show off ≤ k by omega)
      rw [put_add (by omega), put_add (by rw [List.length_append]; omega),
        List.getElem_append_left]
  · obtain ⟨i, rfl⟩ := Nat.exists_eq_add_of_le (show off + s.length ≤ k by omega)
    rw [put_add (by omega), Nat.add_assoc, put_add (by rw [List.length_append]; omega),
      List.getElem_append_right (by omega)]
    simp only [Nat.add_sub_cancel_left]

theorem put_append : (b.put off s).put (off + s.length) t = b.put off (s ++ t) :=
  put_put fun _ _ => rfl

/-- A store over the last byte of another. -/
theorem put_overlap (ht : t ≠ []) :
    (b.put off (s ++ [c])).put (off + s.length) t = b.put off (s ++ t) := by
  have hpos : 0 < t.length := List.length_pos_iff.2 ht
  refine put_put fun k hk => ?_
  rw [← put_append, put_of_not_mem]
  simp only [List.length_singleton]
  omega

theorem put_singleton : b.put off [c] = Function.update b off c := by
  funext k
  rcases eq_or_ne k off with rfl | hk
  · rw [Function.update_self]
    exact put_add (show 0 < [c].length from Nat.one_pos)
  · rw [Function.update_of_ne hk, put_of_not_mem]
    simp only [List.length_singleton]
    omega

theorem put_cons : put (Function.update b off c) (off + 1) s = b.put off (c :: s) := by
  rw [← put_singleton]
  exact put_append

end X86Os.Buf
