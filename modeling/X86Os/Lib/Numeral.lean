import Mathlib.Data.Nat.Digits.Lemmas

/-!
# Positional numerals

The numeral of a number in a base, most significant digit first, over an alphabet of digits. Mathlib
has the digits of a number, least significant first and none for zero; a numeral is what is printed,
so zero has one digit.

A program prints a numeral by division, and so the numeral is used through its recursion: the
numeral of the quotient and one more digit (`numeral_of_le`).
-/

namespace X86Os.Numeral

variable {α : Type*} (digit : ℕ → α) {b v : ℕ}

/-- The numeral of `v` in base `b`. -/
def numeral (b v : ℕ) : List α :=
  if v = 0 then [digit 0] else (b.digits v).reverse.map digit

/-- A numeral as it is written: of digits, and with no zero in front unless it is the zero. -/
structure Canonical (b : ℕ) (s : List α) : Prop where
  digits : ∀ c ∈ s, ∃ d < b, digit d = c
  ne_nil : s ≠ []
  leading : s.head? = some (digit 0) → s = [digit 0]

/-- The value of a row of digits. -/
def value (val : α → ℕ) (b : ℕ) (s : List α) : ℕ := s.foldl (fun n c => b * n + val c) 0

theorem numeral_of_lt (h : v < b) : numeral digit b v = [digit v] := by
  rw [numeral]
  split_ifs with h0
  · rw [h0]
  · rw [Nat.digits_of_lt b v h0 h]
    rfl

/-- **The recursion.** -/
theorem numeral_of_le (hb : 2 ≤ b) (h : b ≤ v) :
    numeral digit b v = numeral digit b (v / b) ++ [digit (v % b)] := by
  have hq : v / b ≠ 0 := (Nat.div_pos h (by omega)).ne'
  rw [numeral, numeral, if_neg (by omega), if_neg hq, Nat.digits_def' hb (by omega),
    List.reverse_cons, List.map_append]
  rfl

/-- What holds of single digits and of one more digit holds of numerals. -/
theorem numeral_induction {P : ℕ → List α → Prop} (hb : 2 ≤ b)
    (hone : ∀ v < b, P v [digit v])
    (hmore : ∀ v, b ≤ v → P (v / b) (numeral digit b (v / b)) →
      P v (numeral digit b (v / b) ++ [digit (v % b)])) (v : ℕ) : P v (numeral digit b v) := by
  induction v using Nat.strongRecOn with
  | _ v ih =>
    rcases Nat.lt_or_ge v b with h | h
    · rw [numeral_of_lt digit h]
      exact hone v h
    · rw [numeral_of_le digit hb h]
      exact hmore v h (ih _ (Nat.div_lt_self (by omega) hb))

theorem numeral_ne_nil (hb : 2 ≤ b) (v : ℕ) : numeral digit b v ≠ [] :=
  numeral_induction digit (P := fun _ s => s ≠ []) hb (fun _ _ => by simp) (fun _ _ _ => by simp) v

/-- The last `n` digits of `v`. -/
def lastDigits (b : ℕ) : (n v : ℕ) → List α
  | 0, _ => []
  | n + 1, v => digit (v / b ^ n % b) :: lastDigits b n v

theorem lastDigits_succ (b n v : ℕ) :
    lastDigits digit b (n + 1) v = lastDigits digit b n (v / b) ++ [digit (v % b)] := by
  induction n with
  | zero => simp [lastDigits]
  | succ n ih =>
    rw [lastDigits, ih, lastDigits, Nat.div_div_eq_div_mul, ← pow_succ', List.cons_append]

theorem numeral_eq_lastDigits (hb : 2 ≤ b) {n : ℕ} (hle : b ^ n ≤ v) (hlt : v < b ^ (n + 1)) :
    numeral digit b v = lastDigits digit b (n + 1) v := by
  induction n generalizing v with
  | zero =>
    have hv : v < b := by simpa using hlt
    rw [numeral_of_lt digit hv, lastDigits_succ, Nat.mod_eq_of_lt hv]
    rfl
  | succ n ih =>
    have hbv : b ≤ v := (Nat.le_self_pow (Nat.succ_ne_zero n) b).trans hle
    have hlow : b ^ n ≤ v / b := (Nat.le_div_iff_mul_le (by omega)).2 (by rwa [← pow_succ])
    have hhigh : v / b < b ^ (n + 1) := Nat.div_lt_of_lt_mul (by rwa [← pow_succ'])
    rw [numeral_of_le digit hb hbv, ih hlow hhigh, lastDigits_succ digit b (n + 1)]

/-- **The numeral is in canonical form.** -/
theorem canonical_numeral (hb : 2 ≤ b) (hinj : ∀ d < b, digit d = digit 0 → d = 0) (v : ℕ) :
    Canonical digit b (numeral digit b v) := by
  have hdigits : ∀ c ∈ numeral digit b v, ∃ d < b, digit d = c := by
    refine numeral_induction digit (P := fun _ s => ∀ c ∈ s, ∃ d < b, digit d = c) hb ?_ ?_ v
    · rintro v hv c hc
      exact ⟨v, hv, (List.mem_singleton.1 hc).symm⟩
    · rintro v - ih c hc
      rcases List.mem_append.1 hc with hc | hc
      · exact ih c hc
      · exact ⟨v % b, Nat.mod_lt _ (by omega), (List.mem_singleton.1 hc).symm⟩
  have hleading : (numeral digit b v).head? = some (digit 0) → v = 0 := by
    refine numeral_induction digit (P := fun v s => s.head? = some (digit 0) → v = 0) hb ?_ ?_ v
    · rintro v hv hhead
      exact hinj v hv (Option.some.inj hhead)
    · rintro v hv ih hhead
      rw [List.head?_append_of_ne_nil _ (numeral_ne_nil digit hb _)] at hhead
      have hpos := Nat.div_pos hv (by omega)
      have hzero := ih hhead
      omega
  refine ⟨hdigits, numeral_ne_nil digit hb v, fun hhead => ?_⟩
  rw [hleading hhead, numeral_of_lt digit (by omega)]

/-- **The value of the numeral.** -/
theorem value_numeral {val : α → ℕ} (hb : 2 ≤ b) (hval : ∀ d < b, val (digit d) = d) (v : ℕ) :
    value val b (numeral digit b v) = v := by
  refine numeral_induction digit (P := fun v s => value val b s = v) hb ?_ ?_ v
  · intro v hv
    simp [value, hval v hv]
  · intro v hv ih
    rw [value, List.foldl_append, ← value, ih, List.foldl_cons, List.foldl_nil,
      hval _ (Nat.mod_lt _ (by omega)), Nat.div_add_mod]

end X86Os.Numeral
