import Mathlib.Data.Nat.Bitwise
import Mathlib.Algebra.Order.Group.Nat
import Mathlib.Tactic.Ring
import Mathlib.Tactic.NormNum

/-!
# 64-bit unsigned arithmetic on natural numbers

A machine word is a natural number below `2 ^ 64`; the operations reduce modulo `2 ^ 64` where
the machine's do.  Masking with a complement subtracts the masked part (`land_compl`), so rounding
`v` up by `(v + m) & ~m` never goes below `v` whatever the mask `m` is (`le_add_land_compl`), and is
rounding to a multiple of `m + 1` when that is a power of two (`land_compl_pow`).
-/

namespace Word64

/-- The largest word. -/
abbrev maxWord : ℕ := 2 ^ 64 - 1

/-- A natural number reduced to a word. -/
def wrap (n : ℕ) : ℕ := n % 2 ^ 64

/-- Subtraction modulo `2 ^ 64`. -/
def sub (a b : ℕ) : ℕ := (a + (2 ^ 64 - b)) % 2 ^ 64

/-- The bitwise complement of a word. -/
def compl (n : ℕ) : ℕ := 2 ^ 64 - 1 - n

theorem wrap_of_lt {n : ℕ} (h : n < 2 ^ 64) : wrap n = n := Nat.mod_eq_of_lt h

theorem sub_of_le {a b : ℕ} (hb : b ≤ a) (ha : a < 2 ^ 64) : sub a b = a - b := by
  unfold sub; omega

theorem sub_one {a : ℕ} (h : 0 < a) (ha : a < 2 ^ 64) : sub a 1 = a - 1 := sub_of_le h ha

/-- Counters that wrap have the difference of what they count, as long as that is a word. -/
theorem sub_wrap {a b : ℕ} (hle : b ≤ a) (hlt : a - b < 2 ^ 64) :
    sub (wrap a) (wrap b) = a - b := by
  unfold sub wrap
  omega

theorem wrap_inj {a b : ℕ} (hle : b ≤ a) (hlt : a - b < 2 ^ 64) (h : wrap b = wrap a) : a = b := by
  unfold wrap at h
  omega

theorem wrap_wrap_add_one (n : ℕ) : wrap (wrap n + 1) = wrap (n + 1) := by
  unfold wrap
  omega

/-! ## Masks -/

/-- A word splits into its bits under a mask and its bits outside it. -/
theorem land_add_land_compl {x m : ℕ} (hx : x < 2 ^ 64) (hm : m < 2 ^ 64) :
    (x &&& m) + (x &&& compl m) = x := by
  let a : BitVec 64 := BitVec.ofNat 64 x
  let b : BitVec 64 := BitVec.ofNat 64 m
  have hz : (a &&& b) &&& (a &&& ~~~b) = 0 := by
    ext i; simp; tauto
  have hor : (a &&& b) ||| (a &&& ~~~b) = a := by
    ext i; simp; cases a[i] <;> cases b[i] <;> rfl
  have h := BitVec.toNat_add_of_and_eq_zero hz
  rw [BitVec.add_eq_or_of_and_eq_zero _ _ hz, hor] at h
  simp only [a, b, BitVec.toNat_and, BitVec.toNat_not, BitVec.toNat_ofNat, Nat.mod_eq_of_lt hx,
    Nat.mod_eq_of_lt hm] at h
  exact h.symm

/-- Clearing the bits of `m` subtracts the masked part. -/
theorem land_compl {x m : ℕ} (hx : x < 2 ^ 64) (hm : m < 2 ^ 64) :
    x &&& compl m = x - (x &&& m) := by
  have := land_add_land_compl hx hm
  omega

/-- Rounding up by any mask does not go below the value. -/
theorem le_add_land_compl {v m : ℕ} (h : v + m < 2 ^ 64) : v ≤ (v + m) &&& compl m := by
  have hm : (v + m) &&& m ≤ m := Nat.and_le_right
  rw [land_compl h (by omega)]
  omega

/-- Clearing the low `k` bits rounds down to a multiple of `2 ^ k`. -/
theorem land_compl_pow {x k : ℕ} (hx : x < 2 ^ 64) (hk : k < 64) :
    x &&& compl (2 ^ k - 1) = x - x % 2 ^ k := by
  have hlt : 2 ^ k < 2 ^ 64 := Nat.pow_lt_pow_right (by norm_num) hk
  rw [land_compl hx (by omega), Nat.and_two_pow_sub_one_eq_mod]

/-- A counter that wraps, under a mask of low bits. -/
theorem wrap_land_mask {n k : ℕ} (hk : k ≤ 64) : wrap n &&& (2 ^ k - 1) = n % 2 ^ k := by
  unfold wrap
  rw [Nat.and_two_pow_sub_one_eq_mod, Nat.mod_mod_of_dvd _ (Nat.pow_dvd_pow 2 hk)]

/-! ## Rounding to a multiple -/

/-- `(v + (a - 1))` rounded down to a multiple of `a` is the least multiple at or above `v`. -/
theorem roundUp_le_of_dvd {v a n : ℕ} (hv : v ≤ n) (hd : a ∣ n) :
    v + (a - 1) - (v + (a - 1)) % a ≤ n := by
  obtain ⟨q, rfl⟩ := hd
  rcases Nat.eq_zero_or_pos a with rfl | ha
  · simp at hv; simp [hv]
  have hdiv := Nat.div_add_mod (v + (a - 1)) a
  have hq : (v + (a - 1)) / a ≤ q := by
    rw [Nat.div_le_iff_le_mul_add_pred ha]
    omega
  have := Nat.mul_le_mul_left a hq
  omega

theorem le_roundUp {v a : ℕ} (ha : 0 < a) : v ≤ v + (a - 1) - (v + (a - 1)) % a := by
  have := Nat.mod_lt (v + (a - 1)) ha
  omega

/-- A power of two that is a word has an exponent below `64`. -/
theorem exponent_lt {k : ℕ} (h : 2 ^ k < 2 ^ 64) : k < 64 :=
  (Nat.pow_lt_pow_iff_right (by norm_num)).mp h

end Word64
