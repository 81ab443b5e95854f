import Mathlib.Algebra.BigOperators.Intervals
import Mathlib.Algebra.Order.BigOperators.Group.Finset

/-!
# Counting references in a family of tables

A number of holders, each with a table of slots, refer to objects by what stands in the slots.
`refs` is how many slots of the holders refer to an object, among the slots that count. A reference
count is right if it is that number, and the lemmas here say how the number changes when a slot is
rewritten, when a holder comes with a table, and when one goes.
-/

namespace X86Os

open Finset

variable {ι κ β : Type} [DecidableEq β]

/-- How many of the slots of one table refer to `b`. -/
def rowRefs (slots : Finset κ) (row : κ → β) (b : β) : ℕ := ∑ k ∈ slots, if row k = b then 1 else 0

/-- How many of the slots of the holders' tables refer to `b`. -/
def refs (holders : Finset ι) (slots : Finset κ) (tab : ι → κ → β) (b : β) : ℕ :=
  ∑ p ∈ holders, rowRefs slots (tab p) b

section

variable {holders : Finset ι} {slots : Finset κ} {row row' : κ → β} {tab tab' : ι → κ → β} {b : β}

theorem rowRefs_congr (h : ∀ k ∈ slots, row k = row' k) :
    rowRefs slots row b = rowRefs slots row' b :=
  sum_congr rfl fun k hk => by rw [h k hk]

theorem refs_congr (h : ∀ p ∈ holders, ∀ k ∈ slots, tab p k = tab' p k) :
    refs holders slots tab b = refs holders slots tab' b :=
  sum_congr rfl fun p hp => rowRefs_congr (h p hp)

theorem rowRefs_pos_iff : 0 < rowRefs slots row b ↔ ∃ k ∈ slots, row k = b := by
  rw [rowRefs, sum_pos_iff]
  simp only [Nat.pos_iff_ne_zero, ne_eq, ite_eq_right_iff, Nat.one_ne_zero, imp_false, not_not]

theorem refs_pos_iff :
    0 < refs holders slots tab b ↔ ∃ p ∈ holders, ∃ k ∈ slots, tab p k = b := by
  rw [refs, sum_pos_iff]
  simp only [rowRefs_pos_iff]

theorem rowRefs_le : rowRefs slots row b ≤ slots.card := by
  refine (sum_le_card_nsmul slots _ 1 fun k _ => ?_).trans_eq (Nat.mul_one _)
  split <;> omega

theorem refs_le (holders : Finset ι) (slots : Finset κ) (tab : ι → κ → β) (b : β) :
    refs holders slots tab b ≤ holders.card * slots.card :=
  sum_le_card_nsmul holders _ _ fun _ _ => rowRefs_le

/-- The first slot of an interval, and the others. -/
theorem rowRefs_Ico_succ (row : ℕ → β) (a n : ℕ) :
    rowRefs (Ico a (a + (n + 1))) row b =
      (if row a = b then 1 else 0) + rowRefs (Ico (a + 1) (a + 1 + n)) row b := by
  rw [rowRefs, sum_eq_sum_Ico_succ_bot (by omega), rowRefs, Nat.add_right_comm a 1 n, Nat.add_assoc]

variable {p : ι} {k : κ}

theorem rowRefs_update [DecidableEq κ] (row : κ → β) (v b : β) (hk : k ∈ slots) :
    rowRefs slots (fun j => if j = k then v else row j) b + (if row k = b then 1 else 0) =
      rowRefs slots row b + if v = b then 1 else 0 := by
  rw [rowRefs, rowRefs, ← add_sum_erase slots _ hk, ← add_sum_erase slots _ hk, if_pos rfl]
  have hrest : ∑ j ∈ slots.erase k, (if (if j = k then v else row j) = b then 1 else 0) =
      ∑ j ∈ slots.erase k, if row j = b then 1 else 0 :=
    sum_congr rfl fun j hj => by rw [if_neg (ne_of_mem_erase hj)]
  omega

variable [DecidableEq ι]

/-- **A holder comes.** -/
theorem refs_insert (hp : p ∉ holders) :
    refs (insert p holders) slots tab b = rowRefs slots (tab p) b + refs holders slots tab b :=
  sum_insert hp

/-- **A holder goes.** -/
theorem refs_erase (tab : ι → κ → β) (hp : p ∈ holders) :
    rowRefs slots (tab p) b + refs (holders.erase p) slots tab b = refs holders slots tab b :=
  add_sum_erase holders (fun p => rowRefs slots (tab p) b) hp

/-- **A slot is rewritten.** -/
theorem refs_update [DecidableEq κ] (tab : ι → κ → β) (v b : β) (hp : p ∈ holders)
    (hk : k ∈ slots) :
    refs holders slots (fun q j => if q = p ∧ j = k then v else tab q j) b +
        (if tab p k = b then 1 else 0) =
      refs holders slots tab b + if v = b then 1 else 0 := by
  rw [← refs_erase _ hp, ← refs_erase tab hp]
  have hrest : refs (holders.erase p) slots (fun q j => if q = p ∧ j = k then v else tab q j) b =
      refs (holders.erase p) slots tab b :=
    refs_congr fun q hq j _ => if_neg fun h => ne_of_mem_erase hq h.1
  have hrow := rowRefs_update (tab p) v b hk
  simp only [true_and]
  omega

end

end X86Os
