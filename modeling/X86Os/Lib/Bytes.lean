import Mathlib.Algebra.Group.Nat.Defs
import Mathlib.Data.Nat.Notation
import Mathlib.Tactic.Common

/-!
# Byte buffers and little-endian words

A buffer is a function from byte offsets to bytes. It has no length of its own: a routine that
fills `n` bytes says so by the range it writes, and a statement about a buffer says which range it
is about. `splice` overwrites a range with the start of another buffer; it is the only way a buffer
changes here.

A 32-bit word occupies four bytes, the lowest first. `toWords` and `ofWords` read a whole buffer as
words and back; they are mutually inverse with no side condition, so a record made of words is
moved in and out of a buffer without reasoning about bytes.
-/

namespace X86Os

/-- A byte. -/
abbrev Byte := BitVec 8

/-- A 32-bit machine word. -/
abbrev Word := BitVec 32

/-- A byte buffer, by offset. -/
abbrev Buf := ℕ → Byte

namespace Buf

/-! ### Splicing -/

/-- Overwrite the bytes `off, …, off + n - 1` of `dst` with the first `n` bytes of `src`. -/
def splice (dst : Buf) (off : ℕ) (src : Buf) (n : ℕ) : Buf := fun k =>
  if off ≤ k ∧ k < off + n then src (k - off) else dst k

theorem splice_of_mem {dst src : Buf} {off n k : ℕ} (h1 : off ≤ k) (h2 : k < off + n) :
    splice dst off src n k = src (k - off) := if_pos ⟨h1, h2⟩

theorem splice_of_not_mem {dst src : Buf} {off n k : ℕ} (h : k < off ∨ off + n ≤ k) :
    splice dst off src n k = dst k := if_neg (by omega)

/-- A splice at an offset, read from that offset on. -/
theorem splice_add {dst src : Buf} {off n k : ℕ} (h : k < n) :
    splice dst off src n (off + k) = src k := by
  rw [splice_of_mem (Nat.le_add_right _ _) (by omega), Nat.add_sub_cancel_left]

/-! ### Words -/

/-- Byte `i` of a word, lowest first. -/
def wordByte (w : Word) (i : ℕ) : Byte := w.extractLsb' (8 * i) 8

/-- The word made of four bytes, lowest first. -/
def word (b0 b1 b2 b3 : Byte) : Word := b3 ++ b2 ++ b1 ++ b0

theorem getLsbD_word (b0 b1 b2 b3 : Byte) (i : ℕ) :
    (word b0 b1 b2 b3).getLsbD i =
      if i < 8 then b0.getLsbD i else if i < 16 then b1.getLsbD (i - 8)
      else if i < 24 then b2.getLsbD (i - 16) else b3.getLsbD (i - 24) := by
  simp only [word, BitVec.getLsbD_append, show i - 8 - 8 = i - 16 by omega,
    show i - 16 - 8 = i - 24 by omega, show i - 8 < 8 ↔ i < 16 by omega,
    show i - 16 < 8 ↔ i < 24 by omega]

theorem getLsbD_wordByte (w : Word) (j i : ℕ) :
    (wordByte w j).getLsbD i = (decide (i < 8) && w.getLsbD (8 * j + i)) := by
  simp only [wordByte, BitVec.getLsbD_extractLsb']

theorem word_wordByte (w : Word) :
    word (wordByte w 0) (wordByte w 1) (wordByte w 2) (wordByte w 3) = w := by
  refine BitVec.eq_of_getLsbD_eq fun i hi => ?_
  simp only [getLsbD_word, getLsbD_wordByte]
  -- the four bytes are the four ranges of bit positions
  split_ifs with h0 h1 h2
  · simp [h0]
  · simp [show i - 8 < 8 by omega, show 8 + (i - 8) = i by omega]
  · simp [show i - 16 < 8 by omega, show 16 + (i - 16) = i by omega]
  · simp [show i - 24 < 8 by omega, show 24 + (i - 24) = i by omega]

theorem wordByte_word (b0 b1 b2 b3 : Byte) :
    wordByte (word b0 b1 b2 b3) 0 = b0 ∧ wordByte (word b0 b1 b2 b3) 1 = b1 ∧
      wordByte (word b0 b1 b2 b3) 2 = b2 ∧ wordByte (word b0 b1 b2 b3) 3 = b3 := by
  refine ⟨?_, ?_, ?_, ?_⟩ <;> refine BitVec.eq_of_getLsbD_eq fun i hi => ?_ <;>
    rw [getLsbD_wordByte, getLsbD_word, decide_eq_true hi, Bool.true_and]
  · simp [hi]
  · rw [if_neg (by omega), if_pos (by omega), show 8 * 1 + i - 8 = i by omega]
  · rw [if_neg (by omega), if_neg (by omega), if_pos (by omega), show 8 * 2 + i - 16 = i by omega]
  · rw [if_neg (by omega), if_neg (by omega), if_neg (by omega), show 8 * 3 + i - 24 = i by omega]

/-- The words of a buffer. -/
def toWords (b : Buf) : ℕ → Word := fun j =>
  word (b (4 * j)) (b (4 * j + 1)) (b (4 * j + 2)) (b (4 * j + 3))

/-- The buffer holding a sequence of words. -/
def ofWords (f : ℕ → Word) : Buf := fun k => wordByte (f (k / 4)) (k % 4)

@[simp] theorem toWords_ofWords (f : ℕ → Word) : toWords (ofWords f) = f := by
  funext j
  have h : ∀ i < 4, ofWords f (4 * j + i) = wordByte (f j) i := by
    intro i hi
    rw [ofWords, show (4 * j + i) / 4 = j by omega, show (4 * j + i) % 4 = i by omega]
  rw [toWords, h 1 (by omega), h 2 (by omega), h 3 (by omega),
    show ofWords f (4 * j) = wordByte (f j) 0 from h 0 (by omega), word_wordByte]

@[simp] theorem ofWords_toWords (b : Buf) : ofWords (toWords b) = b := by
  funext k
  obtain ⟨h0, h1, h2, h3⟩ := wordByte_word (b (4 * (k / 4))) (b (4 * (k / 4) + 1))
    (b (4 * (k / 4) + 2)) (b (4 * (k / 4) + 3))
  have hk : k % 4 = 0 ∨ k % 4 = 1 ∨ k % 4 = 2 ∨ k % 4 = 3 := by omega
  rw [ofWords, toWords]
  rcases hk with h | h | h | h <;> rw [h]
  · rw [h0]; congr 1; omega
  · rw [h1]; congr 1; omega
  · rw [h2]; congr 1; omega
  · rw [h3]; congr 1; omega

/-- A word depends on its own four bytes only. -/
theorem toWords_congr {b b' : Buf} {j : ℕ} (h : ∀ k, 4 * j ≤ k → k < 4 * j + 4 → b k = b' k) :
    toWords b j = toWords b' j := by
  simp only [toWords]
  rw [h (4 * j) (by omega) (by omega), h (4 * j + 1) (by omega) (by omega),
    h (4 * j + 2) (by omega) (by omega), h (4 * j + 3) (by omega) (by omega)]

theorem ofWords_congr {f g : ℕ → Word} {k : ℕ} (h : f (k / 4) = g (k / 4)) :
    ofWords f k = ofWords g k := by rw [ofWords, ofWords, h]

end Buf

end X86Os
