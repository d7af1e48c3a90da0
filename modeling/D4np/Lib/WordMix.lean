import Mathlib.Data.Nat.ModEq
import Mathlib.Data.Nat.Prime.Basic
import Mathlib.Tactic.Common

/-!
# Mixing words

Steps that hash functions and generators mix words with, and what they lose, which is nothing:
multiplication by an odd word and the exclusive or with the word shifted to the right are injective,
and a counter that goes up by an odd word runs through all words before one comes again.  A word is
the bytes it is stored as, in either order (`wordBytes_injective`).
-/

namespace WordMix

variable {w : ℕ}

theorem coprime_of_odd {a : BitVec w} (h : a.toNat % 2 = 1) : Nat.gcd (2 ^ w) a.toNat = 1 := by
  apply Nat.Coprime.pow_left
  rw [Nat.coprime_two_left, Nat.odd_iff]
  exact h

/-- An odd factor can be cancelled. -/
theorem mul_odd_injective {a : BitVec w} (h : a.toNat % 2 = 1) :
    Function.Injective fun x : BitVec w => x * a := by
  intro x y hxy
  have hmod : x.toNat * a.toNat ≡ y.toNat * a.toNat [MOD 2 ^ w] := by
    have hnat := congrArg BitVec.toNat hxy
    rw [BitVec.toNat_mul, BitVec.toNat_mul] at hnat
    exact hnat
  apply BitVec.eq_of_toNat_eq
  exact (hmod.cancel_right_of_coprime (coprime_of_odd h)).eq_of_lt_of_lt x.isLt y.isLt

/-- A word that is its own shift is zero. -/
theorem eq_zero_of_shift {k : ℕ} (hk : 0 < k) {d : BitVec w} (h : d >>> k = d) : d = 0#w := by
  by_contra hne
  have hpos : 0 < d.toNat := Nat.pos_of_ne_zero fun hz => hne (BitVec.eq_of_toNat_eq hz)
  have hlt : d.toNat / 2 ^ k < d.toNat := Nat.div_lt_self hpos (Nat.one_lt_two_pow hk.ne')
  have hnat := congrArg BitVec.toNat h
  rw [BitVec.toNat_ushiftRight, Nat.shiftRight_eq_div_pow] at hnat
  omega

/-- The exclusive or with the word shifted to the right can be undone. -/
theorem xor_shift_injective {k : ℕ} (hk : 0 < k) :
    Function.Injective fun x : BitVec w => x ^^^ x >>> k := by
  intro x y hxy
  replace hxy : x ^^^ x >>> k = y ^^^ y >>> k := hxy
  -- the difference of the two words is its own shift
  have hd : (x ^^^ y) >>> k = x ^^^ y := by
    rw [BitVec.ushiftRight_xor_distrib]
    calc x >>> k ^^^ y >>> k
        = x ^^^ (x ^^^ x >>> k) ^^^ y >>> k := by
          rw [← BitVec.xor_assoc, BitVec.xor_self, BitVec.zero_xor]
      _ = x ^^^ (y ^^^ y >>> k) ^^^ y >>> k := by rw [hxy]
      _ = x ^^^ y := by
          rw [BitVec.xor_assoc, BitVec.xor_assoc, BitVec.xor_self, BitVec.xor_zero]
  exact BitVec.xor_eq_zero_iff.mp (eq_zero_of_shift hk hd)

/-- A counter that goes up by an odd word does not come back before it has been everywhere. -/
theorem counter_injective {s a : BitVec w} (h : a.toNat % 2 = 1) {i j : ℕ} (hi : i < 2 ^ w)
    (hj : j < 2 ^ w) (hij : s + BitVec.ofNat w i * a = s + BitVec.ofNat w j * a) : i = j := by
  have hmul : BitVec.ofNat w i * a = BitVec.ofNat w j * a := (BitVec.add_right_inj s).mp hij
  have hnat := congrArg BitVec.toNat (mul_odd_injective h hmul)
  rw [BitVec.toNat_ofNat, BitVec.toNat_ofNat, Nat.mod_eq_of_lt hi, Nat.mod_eq_of_lt hj] at hnat
  exact hnat

/-! ## Words of 64 bits -/

theorem uint64_mul_injective {a : UInt64} (h : a.toNat % 2 = 1) :
    Function.Injective fun x : UInt64 => x * a := by
  intro x y hxy
  apply UInt64.toBitVec_inj.mp
  apply mul_odd_injective (a := a.toBitVec) h
  exact UInt64.toBitVec_inj.mpr hxy

theorem uint64_xor_shift_injective {k : UInt64} (hk : 0 < k.toNat % 64) :
    Function.Injective fun x : UInt64 => x ^^^ x >>> k := by
  intro x y hxy
  apply UInt64.toBitVec_inj.mp
  apply xor_shift_injective hk
  exact UInt64.toBitVec_inj.mpr hxy

theorem uint64_counter_injective {s a : UInt64} (h : a.toNat % 2 = 1) {i j : ℕ} (hi : i < 2 ^ 64)
    (hj : j < 2 ^ 64) (hij : s + UInt64.ofNat i * a = s + UInt64.ofNat j * a) : i = j :=
  counter_injective (a := a.toBitVec) h hi hj (UInt64.toBitVec_inj.mpr hij)

/-! ## The bytes of a word -/

/-- The order a machine stores the bytes of a word in. -/
inductive ByteOrder
  | little
  | big
  deriving DecidableEq

/-- The place of the byte that is stored at offset `i`, counted from the least byte. -/
def ByteOrder.place : ByteOrder → ℕ → ℕ
  | .little, i => i
  | .big, i => 7 - i

/-- A word as it is stored. -/
def wordBytes (order : ByteOrder) (x : UInt64) : Vector UInt8 8 :=
  Vector.ofFn fun i => UInt8.ofNat (x.toNat / 256 ^ order.place i)

/-- What holds of 256 bytes holds of all. -/
theorem forall_byte {P : UInt8 → Prop} (h : ∀ n < 256, P (UInt8.ofNat n)) (x : UInt8) : P x := by
  have hx := h x.toNat x.toNat_lt
  rwa [UInt8.ofNat_toNat] at hx

/-- Numbers with the same digits are equal. -/
theorem eq_of_digits {b : ℕ} : ∀ {n x y : ℕ}, x < b ^ n → y < b ^ n →
    (∀ i < n, x / b ^ i % b = y / b ^ i % b) → x = y := by
  intro n
  induction n with
  | zero =>
    intro x y hx hy _
    rw [pow_zero] at hx hy
    omega
  | succ n ih =>
    intro x y hx hy hd
    have hlow := hd 0 (Nat.succ_pos n)
    rw [pow_zero, Nat.div_one, Nat.div_one] at hlow
    have hhigh : x / b = y / b := by
      refine ih ?_ ?_ fun i hi => ?_
      · exact Nat.div_lt_of_lt_mul (by rwa [pow_succ'] at hx)
      · exact Nat.div_lt_of_lt_mul (by rwa [pow_succ'] at hy)
      · have := hd (i + 1) (Nat.succ_lt_succ hi)
        rwa [pow_succ', ← Nat.div_div_eq_div_mul, ← Nat.div_div_eq_div_mul] at this
    rw [← Nat.div_add_mod x b, ← Nat.div_add_mod y b, hhigh, hlow]

/-- Every byte has its place. -/
theorem ByteOrder.exists_place (order : ByteOrder) {i : ℕ} (hi : i < 8) :
    ∃ j < 8, order.place j = i := by
  cases order with
  | little => exact ⟨i, hi, rfl⟩
  | big => exact ⟨7 - i, by omega, by show 7 - (7 - i) = i; omega⟩

/-- A word is the bytes it is stored as. -/
theorem wordBytes_injective (order : ByteOrder) : Function.Injective (wordBytes order) := by
  intro x y hxy
  apply UInt64.toNat_inj.mp
  refine eq_of_digits (n := 8) (b := 256) x.toNat_lt y.toNat_lt fun i hi => ?_
  obtain ⟨j, hj, rfl⟩ := order.exists_place hi
  have hbyte := congrArg (fun v : Vector UInt8 8 => v[j].toNat) hxy
  simpa [wordBytes] using hbyte

end WordMix
