import D4np.Ds.HashmapChurn
import Mathlib.Tactic

/-!
# The strides of the hash map

`round_up` wraps to zero for a size above the last multiple of the alignment, and `resize` divides
by the strides.  Its guard is given here with the divisions made one after the other, so that one by
zero shows (`overflowGuard`); where none is made the guard is the test `resize` takes
(`overflowGuard_iff`).  A size that wraps is an error nobody reports: the initialisation divides by
zero, or succeeds without a table and leaves the division to the first put.  The one way out is a
key stride so large that no table fits, for then the guard answers before it comes to the value
stride.
-/

namespace D4np

open Word64 TransitionSystem

namespace Hashmap

variable {ks vs : ℕ}

/-- A division, which traps on a divisor of zero. -/
def divide (a b : ℕ) : Option ℕ := if b = 0 then none else some (a / b)

/-- The overflow guard of `resize`; `none` where it divides by zero. -/
def overflowGuard (m : Hashmap ks vs) (newCapacity : ℕ) : Option Bool :=
  (divide sizeMax m.keyStride).bind fun quotient =>
    if newCapacity > quotient then some true
    else (divide sizeMax m.valueStride).map fun quotient => newCapacity > quotient

/-- `d4np_hashmap_init` divides by zero. -/
def InitDivides (ks vs initialCapacity : ℕ) (a : Allocator) (hash : Option (HashFn ks))
    (keyEq : Option (KeyEqFn ks)) : Prop :=
  initialCapacity > 0 ∧
    overflowGuard (lazyMap a hash keyEq : Hashmap ks vs) (nextPow2AtLeast initialCapacity) = none

/-- A call divides by zero. -/
def Divides (m : Hashmap ks vs) : Call ks vs → Prop
  | .put (some _) (some _) => m.needsGrowth ∧ overflowGuard m m.grown = none
  | _ => False

/-- The runs of a map from one initialisation, whatever it returned. -/
def systemAt (ks vs initialCapacity : ℕ) (a : Allocator) (hash : Option (HashFn ks))
    (keyEq : Option (KeyEqFn ks)) (h₀ : Heap) : System (Run ks vs) (Call ks vs) where
  init r := ∃ rc, init a ks vs initialCapacity hash keyEq h₀ = (rc, some r.map, r.heap) ∧
    r.history = []
  step r c := some (r.step c)

/-- `s` is a stride for a size: a positive multiple of the maximum alignment that is large enough.
-/
def IsStride (size s : ℕ) : Prop := size ≤ s ∧ 0 < s ∧ s < 2 ^ 64 ∧ maxAlign ∣ s

/-- What is asked of an initialisation and the calls after it: none divides by zero, a successful
initialisation has its strides, and sizes without strides are reported. -/
structure StridesSafe (ks vs initialCapacity : ℕ) (a : Allocator) (hash : Option (HashFn ks))
    (keyEq : Option (KeyEqFn ks)) (h₀ : Heap) : Prop where
  init_divides : ¬InitDivides ks vs initialCapacity a hash keyEq
  run_divides : ∀ r, Reachable (systemAt ks vs initialCapacity a hash keyEq h₀) r →
    ∀ c, ¬Divides r.map c
  strides : ∀ m h, init a ks vs initialCapacity hash keyEq h₀ = (.ok, some m, h) →
    IsStride ks m.keyStride ∧ IsStride vs m.valueStride
  reported : ((∀ s, ¬IsStride ks s) ∨ ∀ s, ¬IsStride vs s) →
    (init a ks vs initialCapacity hash keyEq h₀).1 = .errOverflow

/-! ## The guard -/

variable {m : Hashmap ks vs}

theorem overflowGuard_eq_none {n : ℕ} : overflowGuard m n = none ↔
    m.keyStride = 0 ∨ n ≤ sizeMax / m.keyStride ∧ m.valueStride = 0 := by
  unfold overflowGuard divide
  by_cases hk : m.keyStride = 0
  · rw [if_pos hk]
    exact iff_of_true rfl (Or.inl hk)
  rw [if_neg hk, Option.bind_some]
  by_cases hn : n > sizeMax / m.keyStride
  · rw [if_pos hn]
    exact iff_of_false nofun (by omega)
  rw [if_neg hn, Option.map_eq_none_iff]
  by_cases hv : m.valueStride = 0
  · rw [if_pos hv]
    exact iff_of_true rfl (Or.inr ⟨by omega, hv⟩)
  · rw [if_neg hv]
    exact iff_of_false nofun (by omega)

/-- Where the guard divides by zero nowhere it is the test `resize` takes. -/
theorem overflowGuard_iff {n : ℕ} {b : Bool} (h : overflowGuard m n = some b) :
    b = true ↔ n > sizeMax / m.keyStride ∨ n > sizeMax / m.valueStride := by
  have hnone : overflowGuard m n ≠ none := by
    rw [h]
    nofun
  rw [ne_eq, overflowGuard_eq_none, not_or] at hnone
  unfold overflowGuard divide at h
  rw [if_neg hnone.1, Option.bind_some] at h
  split_ifs at h with hn hv
  · cases h
    exact iff_of_true rfl (Or.inl hn)
  · cases h
  · cases h
    rw [decide_eq_true_iff]
    omega

/-! ## Strides -/

theorem isStride_roundUp {v : ℕ} (hpos : 0 < v) (h : v ≤ 2 ^ 64 - 16) :
    IsStride v (roundUp v maxAlign) := by
  rw [roundUp_eq (by omega)]
  refine ⟨by omega, by omega, by omega, ?_⟩
  exact Nat.dvd_sub_mod _

theorem not_isStride {v : ℕ} (h : 2 ^ 64 - 16 < v) (s : ℕ) : ¬IsStride v s := by
  rintro ⟨hle, _, hlt, k, rfl⟩
  unfold maxAlign at *
  omega

/-- Eight slots of a stride fit unless the size is above an eighth of the address space. -/
theorem div_roundUp_lt_iff {v : ℕ} (hpos : 0 < v) (h : v ≤ 2 ^ 64 - 16) :
    sizeMax / roundUp v maxAlign < 8 ↔ 2 ^ 61 - 16 < v := by
  rw [roundUp_eq (by omega), Nat.div_lt_iff_lt_mul (by omega)]
  unfold sizeMax Word64.maxWord
  omega

/-! ## Initialisations and runs -/

section Runs

variable {a : Allocator} {hash : Option (HashFn ks)} {keyEq : Option (KeyEqFn ks)} {h₀ : Heap}
  {initialCapacity : ℕ}

theorem eight_le_nextPow2 (n : ℕ) : 8 ≤ nextPow2AtLeast n := by
  obtain ⟨k, hk, _, he, _⟩ := nextPow2Loop_pow n 64 3 (by norm_num) (by norm_num)
  have hpow : nextPow2AtLeast n = 2 ^ k := he
  rw [hpow]
  exact Nat.pow_le_pow_right (show 0 < 2 by norm_num) hk

theorem systemAt_reachable (hc : initialCapacity < 2 ^ 64) {r : Run ks vs}
    (h : Reachable (systemAt ks vs initialCapacity a hash keyEq h₀) r) :
    Reachable (system ks vs a hash keyEq) r := by
  refine h.mono ?_ fun _ _ _ hs => hs
  rintro r ⟨rc, hi, hnil⟩
  exact ⟨initialCapacity, h₀, rc, hc, hi, hnil⟩

/-- Without an initial capacity there is nothing to go wrong, whatever the strides are. -/
theorem init_zero (hks : 0 < ks) (hvs : 0 < vs) :
    init a ks vs 0 hash keyEq h₀ = (.ok, some (lazyMap a hash keyEq), h₀) := by
  unfold init
  rw [if_neg (by omega), if_neg (by omega)]

/-- The guard of the first table answers that it does not fit. -/
theorem init_overflow (hks : 0 < ks) (hvs : 0 < vs) (hc : 0 < initialCapacity)
    (hbig : sizeMax / roundUp ks maxAlign < 8 ∨ sizeMax / roundUp vs maxAlign < 8) :
    init a ks vs initialCapacity hash keyEq h₀ =
      (.errOverflow, some (lazyMap a hash keyEq), h₀) := by
  have h8 := eight_le_nextPow2 initialCapacity
  have hover : resize (lazyMap a hash keyEq : Hashmap ks vs) (nextPow2AtLeast initialCapacity) h₀ =
      (.errOverflow, lazyMap a hash keyEq, h₀) := by
    simp only [resize]
    rw [if_pos]
    show _ > sizeMax / roundUp ks maxAlign ∨ _ > sizeMax / roundUp vs maxAlign
    omega
  unfold init
  rw [if_neg (by omega)]
  simp only [if_pos hc, hover]

/-- Strides that did not wrap are divided by without harm. -/
theorem StridesSafe.of_small (hks : 0 < ks) (hvs : 0 < vs) (hc : initialCapacity < 2 ^ 64)
    (hk : ks ≤ 2 ^ 64 - 16) (hv : vs ≤ 2 ^ 64 - 16) :
    StridesSafe ks vs initialCapacity a hash keyEq h₀ := by
  have hsk := isStride_roundUp hks hk
  have hsv := isStride_roundUp hvs hv
  have hguard : ∀ {m : Hashmap ks vs}, Configured a m → ∀ n, overflowGuard m n ≠ none := by
    intro m hm n hnone
    rw [overflowGuard_eq_none, hm.keyStride_eq, hm.valueStride_eq] at hnone
    have := hsk.2.1
    have := hsv.2.1
    omega
  refine ⟨fun h => hguard (lazyMap_configured hash keyEq) _ h.2, fun r hr c hd => ?_,
    fun m h hi => ?_, ?_⟩
  · have hconf := reachable_configured (systemAt_reachable hc hr)
    unfold Divides at hd
    split at hd
    · exact hguard hconf _ hd.2
    · exact hd
  · have hconf := reachable_configured (.init ⟨initialCapacity, h₀, .ok, hc, hi, rfl⟩ :
      Reachable (system ks vs a hash keyEq) ⟨m, h, []⟩)
    rw [hconf.keyStride_eq, hconf.valueStride_eq]
    exact ⟨hsk, hsv⟩
  · rintro (hno | hno)
    · exact absurd hsk (hno _)
    · exact absurd hsv (hno _)

/-- With a key stride that leaves no room for a table, the guard never comes to the value stride. -/
theorem StridesSafe.of_large_key (hks : 0 < ks) (hvs : 0 < vs) (hc : 0 < initialCapacity)
    (hk : ks ≤ 2 ^ 64 - 16) (hlarge : 2 ^ 61 - 16 < ks) :
    StridesSafe ks vs initialCapacity a hash keyEq h₀ := by
  have hsk := isStride_roundUp hks hk
  have hq := (div_roundUp_lt_iff hks hk).mpr hlarge
  have hi : init a ks vs initialCapacity hash keyEq h₀ =
      (.errOverflow, some (lazyMap a hash keyEq), h₀) := init_overflow hks hvs hc (Or.inl hq)
  have hguard : ∀ n, 8 ≤ n → overflowGuard (lazyMap a hash keyEq : Hashmap ks vs) n ≠ none := by
    intro n hn hnone
    rw [overflowGuard_eq_none] at hnone
    replace hnone : roundUp ks maxAlign = 0 ∨ n ≤ sizeMax / roundUp ks maxAlign ∧ _ := hnone
    have := hsk.2.1
    omega
  have hlazy : ∀ r, Reachable (systemAt ks vs initialCapacity a hash keyEq h₀) r →
      r.map = lazyMap a hash keyEq := by
    intro r hr
    refine hr.induct (P := fun r => r.map = lazyMap a hash keyEq) ?_ ?_
    · rintro r ⟨rc, hi', _⟩
      rw [hi, Prod.mk.injEq, Prod.mk.injEq, Option.some.injEq] at hi'
      exact hi'.2.1.symm
    · intro r c t hr hs
      cases hs
      exact Run.step_lazy (Or.inl hq) hr c
  refine ⟨fun h => hguard _ (eight_le_nextPow2 _) h.2, fun r hr c hd => ?_, fun m h hi' => ?_,
    fun _ => by rw [hi]⟩
  · rw [hlazy r hr] at hd
    unfold Divides at hd
    split at hd
    · exact hguard _ (le_refl 8) hd.2
    · exact hd
  · rw [hi] at hi'
    cases hi'

/-- **The strides of the hash map.** For sizes of at least one byte, an initialisation and the calls
after it do what is asked of them exactly if the key size can be rounded up to a stride, and the
value size can too or there is an initial capacity and the key stride leaves no room for any table.
-/
theorem stridesSafe_iff (hks : 0 < ks ∧ ks < 2 ^ 64) (hvs : 0 < vs ∧ vs < 2 ^ 64)
    (hc : initialCapacity < 2 ^ 64) :
    StridesSafe ks vs initialCapacity a hash keyEq h₀ ↔
      ks ≤ 2 ^ 64 - 16 ∧ (vs ≤ 2 ^ 64 - 16 ∨ 0 < initialCapacity ∧ 2 ^ 61 - 16 < ks) := by
  constructor
  · intro h
    have hzero : initialCapacity = 0 →
        IsStride ks (roundUp ks maxAlign) ∧ IsStride vs (roundUp vs maxAlign) := by
      rintro rfl
      exact h.strides _ _ (init_zero hks.1 hvs.1)
    have hdivides : 0 < initialCapacity → ¬(roundUp ks maxAlign = 0 ∨
        nextPow2AtLeast initialCapacity ≤ sizeMax / roundUp ks maxAlign ∧ roundUp vs maxAlign = 0) :=
      fun hpos hnone => h.init_divides ⟨hpos, overflowGuard_eq_none.mpr hnone⟩
    have hk : ks ≤ 2 ^ 64 - 16 := by
      by_contra hk
      have hstride := roundUp_eq_zero (show 2 ^ 64 ≤ ks + 15 by omega) hks.2
      rcases Nat.eq_zero_or_pos initialCapacity with hz | hpos
      · exact not_isStride (by omega) _ (hzero hz).1
      · exact hdivides hpos (Or.inl hstride)
    refine ⟨hk, ?_⟩
    by_contra hv
    have hstride := roundUp_eq_zero (show 2 ^ 64 ≤ vs + 15 by omega) hvs.2
    rcases Nat.eq_zero_or_pos initialCapacity with hz | hpos
    · exact not_isStride (by omega) _ (hzero hz).2
    -- the initialisation left no table, and the first put tries for one of eight slots
    have hq : 8 ≤ sizeMax / roundUp ks maxAlign := by
      have := (div_roundUp_lt_iff hks.1 hk).not
      omega
    have hi : init a ks vs initialCapacity hash keyEq h₀ =
        (.errOverflow, some (lazyMap a hash keyEq), h₀) :=
      init_overflow hks.1 hvs.1 hpos (Or.inr (by rw [hstride]; norm_num))
    have hr : Reachable (systemAt ks vs initialCapacity a hash keyEq h₀)
        ⟨lazyMap a hash keyEq, h₀, []⟩ := .init ⟨.errOverflow, hi, rfl⟩
    apply h.run_divides _ hr (.put (some (Vector.replicate ks 0)) (some (Vector.replicate vs 0)))
    exact ⟨Nat.zero_le _, overflowGuard_eq_none.mpr (Or.inr ⟨hq, hstride⟩)⟩
  · rintro ⟨hk, hv | ⟨hpos, hlarge⟩⟩
    · exact .of_small hks.1 hvs.1 hc hk hv
    · exact .of_large_key hks.1 hvs.1 hpos hk hlarge

/-- Keys of two bytes and values of one. -/
theorem stridesSafe_iff_small : StridesSafe 2 1 4 pageAllocator none none ⟨0, []⟩ :=
  (stridesSafe_iff (by norm_num) (by norm_num) (by norm_num)).mpr (by norm_num)

/-- A key size of `2 ^ 64 - 8` is accepted with a stride of zero, and divided by if there is an
initial capacity. -/
theorem init_divides_by_zero :
    (init pageAllocator (2 ^ 64 - 8) 1 0 none none ⟨0, []⟩).1 = .ok ∧
    (∀ m h, init pageAllocator (2 ^ 64 - 8) 1 0 none none ⟨0, []⟩ = (.ok, some m, h) →
      m.keyStride = 0) ∧
    InitDivides (2 ^ 64 - 8) 1 1 pageAllocator none none := by
  have hstride := roundUp_eq_zero (v := 2 ^ 64 - 8) (by norm_num) (by norm_num)
  have hi : init pageAllocator (2 ^ 64 - 8) 1 0 none none ⟨0, []⟩ =
      (.ok, some (lazyMap pageAllocator none none), ⟨0, []⟩) := init_zero (by norm_num) (by norm_num)
  refine ⟨by rw [hi], fun m h he => ?_, by norm_num, overflowGuard_eq_none.mpr (Or.inl hstride)⟩
  rw [hi, Prod.mk.injEq, Prod.mk.injEq, Option.some.injEq] at he
  rw [← he.2.1]
  exact hstride

end Runs

end Hashmap

end D4np
