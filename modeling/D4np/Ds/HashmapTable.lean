import D4np.Ds.Hashmap
import D4np.Lib.Probing
import Mathlib.Tactic

/-!
# The table of a hash map

What a table must satisfy for a search to find what was stored (`Table`): its capacity is a power
of two, its blocks fit in the address space, and each occupied slot is reached from the home slot of
its key before any empty slot.  Under it the machine arithmetic is exact (`probeSlot_eq`), a slot
can be written without touching another (`store_keyAt_of_ne`), and the loop of `locate` and the
inner loop of `resize` do what `locate_spec` and `reinsertSlot_spec` say.
-/

namespace D4np

open Word64 ByteMem Probing

namespace Hashmap

variable {ks vs : ℕ} {m : Hashmap ks vs}

/-- The strides hold a key and a value, and are at least the maximum alignment. -/
structure Strides (m : Hashmap ks vs) : Prop where
  key_le : ks ≤ m.keyStride
  value_le : vs ≤ m.valueStride
  key_ge : maxAlign ≤ m.keyStride
  value_ge : maxAlign ≤ m.valueStride

/-- A table of the right shape. -/
structure Shape (m : Hashmap ks vs) : Prop extends Strides m where
  pow : ∃ k, 3 ≤ k ∧ m.capacity = 2 ^ k
  ctl_length : m.controlBytes.length = m.capacity
  key_fits : m.capacity * m.keyStride < 2 ^ 64
  value_fits : m.capacity * m.valueStride < 2 ^ 64

/-- A table in which a search from the home slot of a stored key reaches it. -/
structure Table (m : Hashmap ks vs) : Prop extends Shape m where
  reach : ∀ i < m.capacity, m.ctl i = .occupied →
    Reaches m.capacity (fun j => m.ctl j = .empty) (m.home (m.keyAt i)) i

namespace Shape

theorem capacity_pos (h : Shape m) : 0 < m.capacity := by
  obtain ⟨k, _, hk⟩ := h.pow
  rw [hk]
  positivity

theorem capacity_le (h : Shape m) : m.capacity ≤ 2 ^ 60 := by
  have h1 := h.key_fits
  have h2 := Nat.mul_le_mul_left m.capacity h.key_ge
  unfold maxAlign at h2
  omega

theorem mask_eq (h : Shape m) : ∃ k, m.capacity = 2 ^ k ∧ m.mask = 2 ^ k - 1 := by
  obtain ⟨k, _, hk⟩ := h.pow
  have := h.capacity_le
  refine ⟨k, hk, ?_⟩
  unfold mask
  rw [sub_one h.capacity_pos (by omega), hk]

/-- The home slot is the hash modulo the capacity. -/
theorem home_eq (h : Shape m) (key : Vector UInt8 ks) :
    m.home key = (m.hash key).toNat % m.capacity := by
  obtain ⟨k, hk, hm⟩ := h.mask_eq
  unfold home
  rw [hm, hk, Nat.and_two_pow_sub_one_eq_mod]

theorem home_lt (h : Shape m) (key : Vector UInt8 ks) : m.home key < m.capacity := by
  rw [h.home_eq]
  exact Nat.mod_lt _ h.capacity_pos

/-- A probe looks at its slot of the cyclic table. -/
theorem probeSlot_eq (h : Shape m) {start probe : ℕ} (hs : start < m.capacity)
    (hp : probe < m.capacity) : m.probeSlot start probe = (start + probe) % m.capacity := by
  obtain ⟨k, hk, hm⟩ := h.mask_eq
  have := h.capacity_le
  unfold probeSlot
  rw [wrap_of_lt (by omega), hm, hk, Nat.and_two_pow_sub_one_eq_mod]

theorem key_span (h : Shape m) {i : ℕ} (hi : i < m.capacity) :
    wrap (i * m.keyStride) = i * m.keyStride := by
  have := Nat.mul_le_mul_right m.keyStride hi.le
  have := h.key_fits
  exact wrap_of_lt (by omega)

theorem value_span (h : Shape m) {i : ℕ} (hi : i < m.capacity) :
    wrap (i * m.valueStride) = i * m.valueStride := by
  have := Nat.mul_le_mul_right m.valueStride hi.le
  have := h.value_fits
  exact wrap_of_lt (by omega)

end Shape

/-! ## Writing a slot -/

section Store

variable {i j : ℕ} {key : Vector UInt8 ks} {value : Vector UInt8 vs}

theorem ctl_set {l : List Slot} (hj : j < l.length) (x : Slot) :
    (l.set j x).getD i .empty = if i = j then x else l.getD i .empty := by
  by_cases h : i = j
  · subst h
    simp [hj]
  · rw [if_neg h]
    simp [List.getD_eq_getElem?_getD, List.getElem?_set_ne (Ne.symm h)]

theorem store_ctl (h : Shape m) (hj : j < m.capacity) :
    (m.store j key value).ctl i = if i = j then .occupied else m.ctl i :=
  ctl_set (by rw [h.ctl_length]; exact hj) _

theorem store_keyAt_self : (m.store j key value).keyAt j = key := readAt_writeAt ..

theorem store_valueAt_self : (m.store j key value).valueAt j = value := readAt_writeAt ..

theorem store_keyAt_of_ne (h : Shape m) (hi : i < m.capacity) (hj : j < m.capacity) (hij : i ≠ j) :
    (m.store j key value).keyAt i = m.keyAt i := by
  refine readAt_writeAt_of_disjoint _ _ ?_
  show wrap (i * m.keyStride) + ks ≤ wrap (j * m.keyStride) ∨
    wrap (j * m.keyStride) + ks ≤ wrap (i * m.keyStride)
  rw [h.key_span hi, h.key_span hj]
  exact span_disjoint hij h.key_le

/-- A value written to one slot is no value of another. -/
theorem writeValue_of_ne (h : Shape m) (hi : i < m.capacity) (hj : j < m.capacity) (hij : i ≠ j) :
    readAt (writeAt m.valueBytes (wrap (j * m.valueStride)) value) (wrap (i * m.valueStride)) vs =
      m.valueAt i := by
  refine readAt_writeAt_of_disjoint _ _ ?_
  rw [h.value_span hi, h.value_span hj]
  exact span_disjoint hij h.value_le

theorem store_valueAt_of_ne (h : Shape m) (hi : i < m.capacity) (hj : j < m.capacity)
    (hij : i ≠ j) : (m.store j key value).valueAt i = m.valueAt i :=
  writeValue_of_ne h hi hj hij

end Store

/-! ## Searching -/

/-- The first `d` probes of a search for `key` met no empty slot and not the key. -/
def Passed (m : Hashmap ks vs) (key : Vector UInt8 ks) (d : ℕ) : Prop :=
  ∀ e < d, m.ctl ((m.home key + e) % m.capacity) ≠ .empty ∧
    (m.ctl ((m.home key + e) % m.capacity) = .occupied →
      m.keyEq (m.keyAt ((m.home key + e) % m.capacity)) key = false)

theorem Passed.succ {key : Vector UInt8 ks} {d : ℕ} (h : m.Passed key d)
    (he : m.ctl ((m.home key + d) % m.capacity) ≠ .empty)
    (ho : m.ctl ((m.home key + d) % m.capacity) = .occupied →
      m.keyEq (m.keyAt ((m.home key + d) % m.capacity)) key = false) : m.Passed key (d + 1) := by
  intro e hlt
  rcases Nat.lt_succ_iff_lt_or_eq.mp hlt with h' | rfl
  · exact h e h'
  · exact ⟨he, ho⟩

/-- The search ends at probe `d`, in the slot of the key. -/
structure FoundAt (m : Hashmap ks vs) (key : Vector UInt8 ks) (d i : ℕ) : Prop where
  lt : d < m.capacity
  passed : m.Passed key d
  slot : (m.home key + d) % m.capacity = i
  occupied : m.ctl i = .occupied
  eq : m.keyEq (m.keyAt i) key = true

/-- The search ends at probe `d`, in an empty slot; `i` is that slot or a tombstone seen before. -/
structure MissAt (m : Hashmap ks vs) (key : Vector UInt8 ks) (d i : ℕ) : Prop where
  lt : d < m.capacity
  passed : m.Passed key d
  empty : m.ctl ((m.home key + d) % m.capacity) = .empty
  slot : (m.home key + d) % m.capacity = i ∨
    ∃ e < d, (m.home key + e) % m.capacity = i ∧ m.ctl i = .deleted

/-- What the loop of `locate` leaves behind, in each of its three exits. -/
theorem locateLoop_spec (h : Shape m) (key : Vector UInt8 ks) :
    ∀ (rem probe firstTomb : ℕ), probe + rem = m.capacity → m.Passed key probe →
      (firstTomb = sizeMax ∨ ∃ e < probe, (m.home key + e) % m.capacity = firstTomb ∧
        m.ctl firstTomb = .deleted) →
      (∃ d i, m.FoundAt key d i ∧
        m.locateLoop key (m.home key) rem probe firstTomb = .found i) ∨
      (∃ d i, m.MissAt key d i ∧
        m.locateLoop key (m.home key) rem probe firstTomb = .empty i) ∨
      m.Passed key m.capacity := by
  intro rem
  induction rem with
  | zero =>
    intro probe firstTomb hp hpass _
    rw [Nat.add_zero] at hp
    exact Or.inr (Or.inr (hp ▸ hpass))
  | succ rem ih =>
    intro probe firstTomb hp hpass htomb
    have hlt : probe < m.capacity := by omega
    have hslot := h.probeSlot_eq (h.home_lt key) hlt
    have hcap := h.capacity_le
    have hmod := Nat.mod_lt (m.home key + probe) h.capacity_pos
    simp only [locateLoop, hslot]
    rcases hc : m.ctl ((m.home key + probe) % m.capacity) with _ | _ | _
    · -- an empty slot: the first tombstone wins, if there is one
      refine Or.inr (Or.inl ⟨probe, _, ⟨hlt, hpass, hc, ?_⟩, rfl⟩)
      rcases htomb with ht | ⟨e, he, hs, hd⟩
      · rw [if_neg (not_not.mpr ht)]
        exact Or.inl rfl
      · have hne : firstTomb ≠ sizeMax := by
          have := Nat.mod_lt (m.home key + e) h.capacity_pos
          unfold sizeMax Word64.maxWord
          omega
        rw [if_pos hne]
        exact Or.inr ⟨e, he, hs, hd⟩
    · -- an occupied slot: the key, or passed
      by_cases heq : m.keyEq (m.keyAt ((m.home key + probe) % m.capacity)) key = true
      · simp only [heq, if_true]
        exact Or.inl ⟨probe, _, ⟨hlt, hpass, rfl, hc, heq⟩, rfl⟩
      · rw [Bool.not_eq_true] at heq
        simp only [heq]
        refine ih (probe + 1) firstTomb (by omega) (hpass.succ (by rw [hc]; simp) fun _ => heq) ?_
        rcases htomb with ht | ⟨e, he, hs⟩
        · exact Or.inl ht
        · exact Or.inr ⟨e, by omega, hs⟩
    · -- a tombstone: remembered if it is the first
      refine ih (probe + 1) _ (by omega)
        (hpass.succ (by rw [hc]; simp) fun ho => by rw [hc] at ho; simp at ho) ?_
      by_cases ht : firstTomb = sizeMax
      · rw [if_pos ht]
        exact Or.inr ⟨probe, by omega, rfl, hc⟩
      · rw [if_neg ht]
        obtain ⟨e, he, hs⟩ := htomb.resolve_left ht
        exact Or.inr ⟨e, by omega, hs⟩

/-- A search that passes every probe has seen no empty slot. -/
theorem Passed.no_empty {key : Vector UInt8 ks} (hp : m.Passed key m.capacity) {i : ℕ}
    (hi : i < m.capacity) : m.ctl i ≠ .empty := by
  obtain ⟨d, hd, rfl⟩ := exists_probe (m.home key) hi
  exact (hp d hd).1

/-- **Search.** With an empty slot in the table, `locate` finds the key or a slot for it. -/
theorem locate_spec (h : Shape m) (he : ∃ i < m.capacity, m.ctl i = .empty)
    (key : Vector UInt8 ks) :
    (∃ d i, m.FoundAt key d i ∧ m.locateExit key = .found i ∧ m.locate key = (i, true)) ∨
    (∃ d i, m.MissAt key d i ∧ m.locateExit key = .empty i ∧ m.locate key = (i, false)) := by
  have hspec := locateLoop_spec h key m.capacity 0 sizeMax (Nat.zero_add _)
    (fun e he => absurd he (Nat.not_lt_zero e)) (Or.inl rfl)
  rcases hspec with ⟨d, i, hf, hx⟩ | ⟨d, i, hm, hx⟩ | hp
  · exact Or.inl ⟨d, i, hf, hx, by unfold locate locateExit; rw [hx]⟩
  · exact Or.inr ⟨d, i, hm, hx, by unfold locate locateExit; rw [hx]⟩
  · obtain ⟨i, hi, hc⟩ := he
    exact absurd hc (hp.no_empty hi)

theorem FoundAt.slot_lt (h : Shape m) {key : Vector UInt8 ks} {d i : ℕ} (hf : m.FoundAt key d i) :
    i < m.capacity := by
  rw [← hf.slot]
  exact Nat.mod_lt _ h.capacity_pos

theorem MissAt.slot_lt (h : Shape m) {key : Vector UInt8 ks} {d i : ℕ} (hm : m.MissAt key d i) :
    i < m.capacity := by
  rcases hm.slot with rfl | ⟨e, _, rfl, _⟩ <;> exact Nat.mod_lt _ h.capacity_pos

theorem MissAt.not_occupied {key : Vector UInt8 ks} {d i : ℕ} (hm : m.MissAt key d i) :
    m.ctl i ≠ .occupied := by
  rcases hm.slot with rfl | ⟨e, _, _, hd⟩
  · rw [hm.empty]; simp
  · rw [hd]; simp

/-- The probes of a failed search up to the slot it returns meet no other empty slot. -/
theorem MissAt.reaches {key : Vector UInt8 ks} {d i : ℕ} (hm : m.MissAt key d i) :
    Reaches m.capacity (fun j => j ≠ i ∧ m.ctl j = .empty) (m.home key) i := by
  rcases hm.slot with hi | ⟨e, he, hi, _⟩
  · refine ⟨d, hm.lt, hi, fun e he ⟨hne, hempty⟩ => ?_⟩
    rcases Nat.lt_or_eq_of_le he with he | rfl
    · exact (hm.passed e he).1 hempty
    · exact hne hi
  · have hlt := hm.lt
    exact ⟨e, by omega, hi, fun f hf ⟨_, hempty⟩ => (hm.passed f (by omega)).1 hempty⟩

/-! ## Placing a key -/

/-- What the inner loop of `resize` leaves behind, `probe` probes into the search. -/
theorem findEmpty_spec (h : Shape m) {start : ℕ} (hs : start < m.capacity) :
    ∀ rem probe : ℕ, probe + rem = m.capacity →
      (∀ e < probe, m.ctl ((start + e) % m.capacity) ≠ .empty) →
      (∃ d < m.capacity, m.findEmpty start rem probe = some ((start + d) % m.capacity) ∧
        m.ctl ((start + d) % m.capacity) = .empty ∧
        ∀ e < d, m.ctl ((start + e) % m.capacity) ≠ .empty) ∨
      ∀ e < m.capacity, m.ctl ((start + e) % m.capacity) ≠ .empty := by
  intro rem
  induction rem with
  | zero =>
    intro probe hp hpass
    rw [Nat.add_zero] at hp
    exact Or.inr (hp ▸ hpass)
  | succ rem ih =>
    intro probe hp hpass
    have hlt : probe < m.capacity := by omega
    simp only [findEmpty, h.probeSlot_eq hs hlt]
    by_cases hc : m.ctl ((start + probe) % m.capacity) = .empty
    · rw [if_pos hc]
      exact Or.inl ⟨probe, hlt, rfl, hc, hpass⟩
    · rw [if_neg hc]
      refine ih (probe + 1) (by omega) fun e he => ?_
      rcases Nat.lt_succ_iff_lt_or_eq.mp he with he | rfl
      · exact hpass e he
      · exact hc

/-- **Re-insertion.** With an empty slot in the table, the inner loop of `resize` ends at one, and
the slots it passed are not empty. -/
theorem reinsertSlot_spec (h : Shape m) (he : ∃ i < m.capacity, m.ctl i = .empty)
    (key : Vector UInt8 ks) :
    ∃ j < m.capacity, m.reinsertSlot key = some j ∧ m.ctl j = .empty ∧
      Reaches m.capacity (fun i => i ≠ j ∧ m.ctl i = .empty) (m.home key) j := by
  rcases findEmpty_spec h (h.home_lt key) m.capacity 0 (Nat.zero_add _)
    (fun e he => absurd he (Nat.not_lt_zero e)) with ⟨d, hd, hf, hc, hpass⟩ | hnone
  · refine ⟨_, Nat.mod_lt _ h.capacity_pos, hf, hc, d, hd, rfl, fun e he ⟨hne, hempty⟩ => ?_⟩
    rcases Nat.lt_or_eq_of_le he with he | rfl
    · exact hpass e he hempty
    · exact hne rfl
  · obtain ⟨i, hi, hc⟩ := he
    obtain ⟨d, hd, rfl⟩ := exists_probe (m.home key) hi
    exact absurd hc (hnone d hd)

theorem Shape.store (h : Shape m) (j : ℕ) (key : Vector UInt8 ks) (value : Vector UInt8 vs) :
    Shape (m.store j key value) where
  toStrides := ⟨h.key_le, h.value_le, h.key_ge, h.value_ge⟩
  pow := h.pow
  ctl_length := by simpa [Hashmap.store] using h.ctl_length
  key_fits := h.key_fits
  value_fits := h.value_fits

/-- A key stored where a search for it stopped keeps every key reachable. -/
theorem Table.store (h : Table m) {j : ℕ} (hj : j < m.capacity) {key : Vector UInt8 ks}
    (hr : Reaches m.capacity (fun i => i ≠ j ∧ m.ctl i = .empty) (m.home key) j)
    (value : Vector UInt8 vs) : Table (m.store j key value) where
  toShape := h.toShape.store j key value
  reach := by
    -- no slot becomes empty, so the old paths stay open
    have hE : ∀ i, (m.store j key value).ctl i = .empty → i ≠ j ∧ m.ctl i = .empty := by
      intro i hi
      rw [store_ctl h.toShape hj] at hi
      split_ifs at hi with hij
      exact ⟨hij, hi⟩
    intro i hi hocc
    by_cases hij : i = j
    · subst hij
      rw [store_keyAt_self]
      exact hr.mono hE
    · rw [store_keyAt_of_ne h.toShape hi hj hij]
      rw [store_ctl h.toShape hj, if_neg hij] at hocc
      exact (h.reach i hi hocc).mono fun k hk => (hE k hk).2

end Hashmap

end D4np
