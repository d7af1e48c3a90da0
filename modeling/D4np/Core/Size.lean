import D4np.Lib.Word
import Mathlib.Algebra.Group.Nat.Even

/-!
# Sizes

The target is LP64: `size_t` has 64 bits, pointers have 8 bytes, and the widest fundamental
alignment is 16 (that of `long double`).  A `size_t` is a natural number, reduced modulo `2 ^ 64`
wherever the code computes with it.
-/

namespace D4np

open Word64

/-- `(size_t)-1`. -/
abbrev sizeMax : ℕ := Word64.maxWord

/-- `alignof` of the union of `long double`, `long long`, `void *` and a function pointer that
every module declares as its maximum alignment. -/
def maxAlign : ℕ := 16

/-- `sizeof(void *)`. -/
def ptrSize : ℕ := 8

/-- `round_up`, of `hashmap.c` and of `pool.c`. -/
def roundUp (value multiple : ℕ) : ℕ :=
  wrap (value + sub multiple 1) &&& compl (sub multiple 1)

/-- The loop `while (cap < n)` of the two functions `next_pow2_at_least`, cut off after `fuel`
rounds.  A word can be doubled at most 64 times before it saturates. -/
def nextPow2Loop (n : ℕ) : ℕ → ℕ → ℕ
  | 0, cap => cap
  | fuel + 1, cap =>
    if cap < n then
      if cap > sizeMax / 2 then cap
      else nextPow2Loop n fuel (wrap (cap * 2))
    else cap

/-! ## Rounding to the maximum alignment -/

theorem roundUp_eq {v : ℕ} (h : v + 15 < 2 ^ 64) :
    roundUp v maxAlign = v + 15 - (v + 15) % 16 := by
  have hs : sub maxAlign 1 = 2 ^ 4 - 1 := by decide
  unfold roundUp
  rw [hs, wrap_of_lt (by omega), land_compl_pow (by omega) (by norm_num)]
  norm_num

/-- Past the last representable multiple the sum wraps and the rounding gives zero. -/
theorem roundUp_eq_zero {v : ℕ} (h : 2 ^ 64 ≤ v + 15) (hv : v < 2 ^ 64) :
    roundUp v maxAlign = 0 := by
  have hs : sub maxAlign 1 = 2 ^ 4 - 1 := by decide
  have hw : wrap (v + 15) = v + 15 - 2 ^ 64 := by unfold wrap; omega
  unfold roundUp
  rw [hs, show 2 ^ 4 - 1 = 15 from rfl, hw, show (15 : ℕ) = 2 ^ 4 - 1 from rfl,
    land_compl_pow (by omega) (by norm_num)]
  omega

/-! ## The doubling loop -/

/-- From a power of two below `2 ^ 64`, with enough rounds to reach `2 ^ 63`, the loop ends in a
power of two that is at least `n` unless it is `2 ^ 63`. -/
theorem nextPow2Loop_pow (n : ℕ) :
    ∀ (fuel j : ℕ), j < 64 → 64 ≤ j + fuel →
      ∃ i, j ≤ i ∧ i < 64 ∧ nextPow2Loop n fuel (2 ^ j) = 2 ^ i ∧ (n ≤ 2 ^ i ∨ i = 63) := by
  intro fuel
  induction fuel with
  | zero => intro j hj hf; omega
  | succ fuel ih =>
    intro j hj hf
    unfold nextPow2Loop
    by_cases hlt : 2 ^ j < n
    · rw [if_pos hlt]
      by_cases hsat : j = 63
      · subst hsat
        rw [if_pos (by decide)]
        exact ⟨63, le_refl _, hj, rfl, Or.inr rfl⟩
      · have hle : 2 ^ j ≤ 2 ^ 62 := Nat.pow_le_pow_right (by norm_num) (by omega)
        rw [if_neg (by unfold sizeMax Word64.maxWord; omega), wrap_of_lt (by omega), ← pow_succ]
        obtain ⟨i, hi, hi', he, hn⟩ := ih (j + 1) (by omega) (by omega)
        exact ⟨i, by omega, hi', he, hn⟩
    · rw [if_neg hlt]
      exact ⟨j, le_refl _, hj, rfl, Or.inl (by omega)⟩

end D4np
