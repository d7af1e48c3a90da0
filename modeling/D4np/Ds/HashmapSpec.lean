import D4np.Ds.HashmapInv
import Mathlib.Data.Set.Card

/-!
# What the hash map is for

A map holds a value for a key when some occupied slot has a key equal to it (`Holds`).  With lawful
callbacks the stored keys are pairwise different (`Distinct`), so a search finds all there is to
find, and the operations change `Holds` as the operations of a finite map would.
-/

namespace D4np

open Word64 ByteMem Probing

namespace Hashmap

variable {ks vs : ℕ} {m : Hashmap ks vs}

/-- Equal keys are equal both ways and hash equally. -/
structure Coherent (hash : HashFn ks) (keyEq : KeyEqFn ks) : Prop where
  symm : ∀ {a b}, keyEq a b = true → keyEq b a = true
  hash_eq : ∀ {a b}, keyEq a b = true → hash a = hash b

/-- `key_eq` is an equivalence relation, and equal keys hash equally. -/
structure Lawful (hash : HashFn ks) (keyEq : KeyEqFn ks) : Prop extends Coherent hash keyEq where
  refl : ∀ a, keyEq a a = true
  trans : ∀ {a b c}, keyEq a b = true → keyEq b c = true → keyEq a c = true

/-- The defaults are lawful. -/
theorem default_lawful : Lawful (defaultHash : HashFn ks) defaultKeyEq where
  symm h := by simpa [defaultKeyEq, eq_comm] using h
  hash_eq h := by rw [of_decide_eq_true h]
  refl _ := by simp [defaultKeyEq]
  trans h h' := by
    rw [of_decide_eq_true h]
    exact h'

/-- The stored keys are pairwise different. -/
def Distinct (m : Hashmap ks vs) : Prop :=
  ∀ i < m.capacity, ∀ j < m.capacity, i ≠ j → m.ctl i = .occupied → m.ctl j = .occupied →
    m.keyEq (m.keyAt i) (m.keyAt j) = false

/-- A search that misses passed every stored key that could be equal. -/
theorem MissAt.not_stored {key : Vector UInt8 ks} {d i j : ℕ} (hm : m.MissAt key d i)
    (h : Table m) (hc : Coherent m.hash m.keyEq) (hj : j < m.capacity)
    (ho : m.ctl j = .occupied) : m.keyEq (m.keyAt j) key = false := by
  by_contra hne
  rw [Bool.not_eq_false] at hne
  have hhome : m.home (m.keyAt j) = m.home key := by
    unfold home
    rw [hc.hash_eq hne]
  have hr := h.reach j hj ho
  rw [hhome] at hr
  obtain ⟨e, he, rfl⟩ := hr.before hm.empty
  rw [(hm.passed e he).2 ho] at hne
  simp at hne

/-! ## The stored keys stay apart -/

/-- No operation that only takes slots out of use makes two keys equal. -/
theorem Distinct.of_subset {m' : Hashmap ks vs} (h : Distinct m) (hcap : m'.capacity = m.capacity)
    (hkey : m'.keyAt = m.keyAt) (heq : m'.keyEq = m.keyEq)
    (hocc : ∀ i < m.capacity, m'.ctl i = .occupied → m.ctl i = .occupied) : Distinct m' := by
  intro i hi j hj hij ho ho'
  rw [hcap] at hi hj
  rw [heq, hkey]
  exact h i hi j hj hij (hocc i hi ho) (hocc j hj ho')

theorem Placed.distinct {r : Hashmap ks vs} {place : ℕ → ℕ} (hp : Placed m r m.capacity place)
    (heq : r.keyEq = m.keyEq) (h : Distinct m) : Distinct r := by
  intro j hj j' hj' hne ho ho'
  obtain ⟨i, hi, hoi, rfl⟩ := hp.origin j hj ho
  obtain ⟨i', hi', hoi', rfl⟩ := hp.origin j' hj' ho'
  rw [heq, hp.key i hi hoi, hp.key i' hi' hoi']
  refine h i hi i' hi' (fun hii => hne ?_) hoi hoi'
  rw [hii]

theorem Distinct.insert (h : Distinct m) (hL : Live m) (hc : Coherent m.hash m.keyEq)
    (key : Vector UInt8 ks) (value : Vector UInt8 vs) : Distinct (m.insert key value) := by
  rcases hL.insert_cases key value with ⟨d, i, hf, he⟩ | ⟨d, i, hm, he⟩
  · rw [he]
    exact h
  · have hi := hm.slot_lt hL.toShape
    have hD : Distinct (m.store i key value) := by
      intro a ha b hb hab ho ho'
      rw [store_ctl hL.toShape hi] at ho ho'
      show m.keyEq _ _ = false
      by_cases hai : a = i
      · subst hai
        rw [if_neg (Ne.symm hab)] at ho'
        rw [store_keyAt_self, store_keyAt_of_ne hL.toShape hb hi (Ne.symm hab)]
        by_contra hne
        rw [Bool.not_eq_false] at hne
        have := hm.not_stored hL.toTable hc hb ho'
        rw [hc.symm hne] at this
        simp at this
      · rw [if_neg hai] at ho
        rw [store_keyAt_of_ne hL.toShape ha hi hai]
        by_cases hbi : b = i
        · subst hbi
          rw [store_keyAt_self]
          exact hm.not_stored hL.toTable hc ha ho
        · rw [if_neg hbi] at ho'
          rw [store_keyAt_of_ne hL.toShape hb hi hbi]
          exact h a ha b hb hab ho ho'
    rw [he]
    exact hD

theorem Distinct.put (h : Distinct m) (hW : Wf m) (hc : Coherent m.hash m.keyEq)
    (key : Option (Vector UInt8 ks)) (value : Option (Vector UInt8 vs)) (heap : Heap) :
    Distinct (m.putBytes key value heap).2.1 := by
  rcases key with _ | key
  · exact h
  rcases value with _ | value
  · exact h
  rcases hW.put_cases key value heap with ⟨rc, heap', _, he⟩ | ⟨r, heap', hr, he⟩
  · rw [he]
    exact h
  · rw [he]
    obtain ⟨place, hp⟩ := hr.placed
    apply (hp.distinct hr.keyEq_eq h).insert hr.toLive
    rw [hr.hash_eq, hr.keyEq_eq]
    exact hc

theorem Distinct.remove (h : Distinct m) (hW : Wf m) (key : Option (Vector UInt8 ks)) :
    Distinct (m.remove key).2 := by
  rcases key with _ | key
  · exact h
  by_cases hcap : m.capacity = 0
  · simp only [Hashmap.remove, if_pos hcap]
    exact h
  have hL := hW.live hcap
  rcases hL.remove_cases key with ⟨d, i, hf, he⟩ | ⟨d, i, _, he⟩
  · rw [he]
    refine h.of_subset rfl rfl rfl fun j _ ho => ?_
    have hlt : i < m.controlBytes.length := by
      rw [hL.ctl_length]
      exact hf.slot_lt hL.toShape
    rw [ctl, ctl_set hlt] at ho
    split_ifs at ho
    exact ho
  · rw [he]
    exact h

theorem Distinct.clear (h : Distinct m) : Distinct m.clear := by
  unfold Hashmap.clear
  split_ifs
  · exact h
  · refine h.of_subset rfl rfl rfl fun j _ ho => ?_
    rw [ctl, ctl_replicate] at ho
    simp at ho

/-! ## The finite map -/

/-- The map holds `value` for `key`. -/
def Holds (m : Hashmap ks vs) (key : Vector UInt8 ks) (value : Vector UInt8 vs) : Prop :=
  ∃ i < m.capacity, m.ctl i = .occupied ∧ m.keyEq (m.keyAt i) key = true ∧ m.valueAt i = value

section Lawful

variable (hl : Lawful m.hash m.keyEq) {key k : Vector UInt8 ks}

include hl

/-- At most one slot holds a key. -/
theorem Distinct.slot_unique (h : Distinct m) {i j : ℕ} (hi : i < m.capacity) (hj : j < m.capacity)
    (hoi : m.ctl i = .occupied) (hoj : m.ctl j = .occupied) (hki : m.keyEq (m.keyAt i) key = true)
    (hkj : m.keyEq (m.keyAt j) key = true) : i = j := by
  by_contra hne
  have := h i hi j hj hne hoi hoj
  rw [hl.trans hki (hl.symm hkj)] at this
  simp at this

/-- **Lookup.** A lookup returns what the map holds. -/
theorem Live.lookup_eq_some_iff (hL : Live m) (h : Distinct m) (key : Vector UInt8 ks)
    (value : Vector UInt8 vs) : m.lookup key = some value ↔ m.Holds key value := by
  have hcap := hL.capacity_pos
  unfold lookup get
  simp only
  rw [if_neg (by omega)]
  rcases locate_spec hL.toShape hL.exists_empty key with ⟨d, i, hf, _, he⟩ | ⟨d, i, hm, _, he⟩
  · rw [he]
    have hi := hf.slot_lt hL.toShape
    constructor
    · intro hv
      cases hv
      exact ⟨i, hi, hf.occupied, hf.eq, rfl⟩
    · rintro ⟨j, hj, ho, hk, rfl⟩
      rw [h.slot_unique hl hi hj hf.occupied ho hf.eq hk]
      rfl
  · rw [he]
    constructor
    · intro hv
      simp at hv
    · rintro ⟨j, hj, ho, hk, _⟩
      rw [hm.not_stored hL.toTable hl.toCoherent hj ho] at hk
      simp at hk

/-- A value written over that of a stored key. -/
theorem FoundAt.holds_writeValue {d i : ℕ} (hf : m.FoundAt key d i) (hS : Shape m) (h : Distinct m)
    (value v : Vector UInt8 vs) :
    ({ m with valueBytes := writeAt m.valueBytes (wrap (i * m.valueStride)) value } :
      Hashmap ks vs).Holds k v ↔ if m.keyEq key k then v = value else m.Holds k v := by
  have hi := hf.slot_lt hS
  have hself : readAt (writeAt m.valueBytes (wrap (i * m.valueStride)) value)
      (wrap (i * m.valueStride)) vs = value := readAt_writeAt ..
  by_cases hk : m.keyEq key k = true
  · rw [if_pos hk]
    constructor
    · rintro ⟨j, hj, ho, hkj, rfl⟩
      have hij : i = j := h.slot_unique hl hi hj hf.occupied ho (hl.trans hf.eq hk) hkj
      subst hij
      exact hself
    · rintro rfl
      exact ⟨i, hi, hf.occupied, hl.trans hf.eq hk, hself⟩
  · rw [if_neg hk]
    have hne : ∀ j, m.keyEq (m.keyAt j) k = true → j ≠ i := by
      rintro j hkj rfl
      exact hk (hl.trans (hl.symm hf.eq) hkj)
    constructor
    · rintro ⟨j, hj, ho, hkj, rfl⟩
      exact ⟨j, hj, ho, hkj, (writeValue_of_ne hS hj hi (hne j hkj)).symm⟩
    · rintro ⟨j, hj, ho, hkj, rfl⟩
      exact ⟨j, hj, ho, hkj, writeValue_of_ne hS hj hi (hne j hkj)⟩

/-- A key that is not stored, put into the slot where its search ended. -/
theorem MissAt.holds_store {d i : ℕ} (hm : m.MissAt key d i) (hT : Table m)
    (value v : Vector UInt8 vs) :
    (m.store i key value).Holds k v ↔ if m.keyEq key k then v = value else m.Holds k v := by
  have hi := hm.slot_lt hT.toShape
  have hctl : ∀ j, (m.store i key value).ctl j = if j = i then .occupied else m.ctl j :=
    fun j => store_ctl hT.toShape hi
  by_cases hk : m.keyEq key k = true
  · rw [if_pos hk]
    constructor
    · rintro ⟨j, hj, ho, hkj, rfl⟩
      by_cases hji : j = i
      · subst hji
        exact store_valueAt_self
      · rw [hctl, if_neg hji] at ho
        rw [store_keyAt_of_ne hT.toShape hj hi hji] at hkj
        have := hm.not_stored hT hl.toCoherent hj ho
        rw [hl.trans hkj (hl.symm hk)] at this
        simp at this
    · rintro rfl
      refine ⟨i, hi, ?_, ?_, store_valueAt_self⟩
      · rw [hctl, if_pos rfl]
      · rw [store_keyAt_self]
        exact hk
  · rw [if_neg hk]
    constructor
    · rintro ⟨j, hj, ho, hkj, rfl⟩
      by_cases hji : j = i
      · subst hji
        rw [store_keyAt_self] at hkj
        exact absurd hkj hk
      · rw [hctl, if_neg hji] at ho
        rw [store_keyAt_of_ne hT.toShape hj hi hji] at hkj
        exact ⟨j, hj, ho, hkj, (store_valueAt_of_ne hT.toShape hj hi hji).symm⟩
    · rintro ⟨j, hj, ho, hkj, rfl⟩
      have hji : j ≠ i := by
        rintro rfl
        exact hm.not_occupied ho
      refine ⟨j, hj, ?_, ?_, store_valueAt_of_ne hT.toShape hj hi hji⟩
      · rw [hctl, if_neg hji]
        exact ho
      · rw [store_keyAt_of_ne hT.toShape hj hi hji]
        exact hkj

/-- **Insertion** gives the key, and every key equal to it, the new value, and changes no other. -/
theorem Live.holds_insert (hL : Live m) (h : Distinct m) (value v : Vector UInt8 vs) :
    (m.insert key value).Holds k v ↔ if m.keyEq key k then v = value else m.Holds k v := by
  rcases hL.insert_cases key value with ⟨d, i, hf, he⟩ | ⟨d, i, hm, he⟩
  · rw [he]
    exact hf.holds_writeValue hl hL.toShape h value v
  · -- the counters are not part of what the map holds
    rw [he]
    exact hm.holds_store hl hL.toTable value v

/-- **Removal** takes out the key and every key equal to it. -/
theorem Live.holds_remove (hL : Live m) (h : Distinct m) (v : Vector UInt8 vs) :
    (m.remove (some key)).2.Holds k v ↔ m.keyEq key k = false ∧ m.Holds k v := by
  rcases hL.remove_cases key with ⟨d, i, hf, he⟩ | ⟨d, i, hm, he⟩
  · have hi := hf.slot_lt hL.toShape
    have hlt : i < m.controlBytes.length := by rw [hL.ctl_length]; exact hi
    have hctl : ∀ j, (m.controlBytes.set i .deleted).getD j .empty =
        if j = i then .deleted else m.ctl j := fun j => ctl_set hlt _
    rw [he]
    constructor
    · rintro ⟨j, hj, ho, hkj, rfl⟩
      rw [ctl, hctl] at ho
      split_ifs at ho with hji
      refine ⟨?_, j, hj, ho, hkj, rfl⟩
      by_contra hk
      rw [Bool.not_eq_false] at hk
      exact hji (h.slot_unique hl hj hi ho hf.occupied hkj (hl.trans hf.eq hk))
    · rintro ⟨hk, j, hj, ho, hkj, rfl⟩
      refine ⟨j, hj, ?_, hkj, rfl⟩
      rw [ctl, hctl, if_neg]
      · exact ho
      · rintro rfl
        rw [hl.trans (hl.symm hf.eq) hkj] at hk
        simp at hk
  · rw [he]
    constructor
    · rintro ⟨j, hj, ho, hkj, hv⟩
      refine ⟨?_, j, hj, ho, hkj, hv⟩
      by_contra hk
      rw [Bool.not_eq_false] at hk
      have := hm.not_stored hL.toTable hl.toCoherent hj ho
      rw [hl.trans hkj (hl.symm hk)] at this
      simp at this
    · exact fun hh => hh.2

end Lawful

/-- A cleared map holds nothing. -/
theorem Wf.not_holds_clear (h : Wf m) (key : Vector UInt8 ks) (value : Vector UInt8 vs) :
    ¬ m.clear.Holds key value := by
  rintro ⟨i, hi, ho, _⟩
  unfold Hashmap.clear at hi ho
  split_ifs at hi ho with hc
  · rcases h with h | h
    · rw [h.capacity_eq] at hi
      exact absurd hi (Nat.not_lt_zero i)
    · exact h.control_ne hc
  · rw [ctl, ctl_replicate] at ho
    simp at ho

/-- A resize changes nothing that the map holds. -/
theorem Placed.holds_iff {r : Hashmap ks vs} {place : ℕ → ℕ} (hp : Placed m r m.capacity place)
    (heq : r.keyEq = m.keyEq) (key : Vector UInt8 ks) (value : Vector UInt8 vs) :
    r.Holds key value ↔ m.Holds key value := by
  constructor
  · rintro ⟨j, hj, ho, hk, rfl⟩
    obtain ⟨i, hi, hoi, rfl⟩ := hp.origin j hj ho
    rw [heq, hp.key i hi hoi] at hk
    exact ⟨i, hi, hoi, hk, (hp.value i hi hoi).symm⟩
  · rintro ⟨i, hi, ho, hk, rfl⟩
    refine ⟨place i, hp.lt i hi ho, hp.occupied i hi ho, ?_, hp.value i hi ho⟩
    rw [heq, hp.key i hi ho]
    exact hk

theorem Lazy.not_holds (h : Lazy m) (key : Vector UInt8 ks) (value : Vector UInt8 vs) :
    ¬ m.Holds key value := by
  rintro ⟨i, hi, _⟩
  rw [h.capacity_eq] at hi
  exact Nat.not_lt_zero i hi

section Operations

variable (hl : Lawful m.hash m.keyEq) (hW : Wf m) (hD : Distinct m)

include hl hW hD

theorem Wf.lookup_eq_some_iff (key : Vector UInt8 ks) (value : Vector UInt8 vs) :
    m.lookup key = some value ↔ m.Holds key value := by
  rcases hW with h | h
  · have hnone : m.lookup key = none := by
      simp only [lookup, get, if_pos h.capacity_eq, Option.map_none]
    rw [hnone]
    simpa using h.not_holds key value
  · exact h.lookup_eq_some_iff hl hD key value

/-- A put either fails and leaves the map as it is, or gives the key its value. -/
theorem Wf.holds_put (key : Vector UInt8 ks) (value : Vector UInt8 vs) (heap : Heap) :
    ((m.putBytes (some key) (some value) heap).1 ≠ .ok ∧
      (m.putBytes (some key) (some value) heap).2.1 = m) ∨
    ((m.putBytes (some key) (some value) heap).1 = .ok ∧
      ∀ k v, (m.putBytes (some key) (some value) heap).2.1.Holds k v ↔
        if m.keyEq key k then v = value else m.Holds k v) := by
  rcases hW.put_cases key value heap with ⟨rc, heap', hrc, he⟩ | ⟨r, heap', hr, he⟩
  · rw [he]
    exact Or.inl ⟨hrc, rfl⟩
  · rw [he]
    obtain ⟨place, hp⟩ := hr.placed
    have hl' : Lawful r.hash r.keyEq := by
      rw [hr.hash_eq, hr.keyEq_eq]
      exact hl
    refine Or.inr ⟨rfl, fun k v => ?_⟩
    rw [hr.toLive.holds_insert hl' (hp.distinct hr.keyEq_eq hD), hr.keyEq_eq,
      hp.holds_iff hr.keyEq_eq]

theorem Wf.holds_remove (key k : Vector UInt8 ks) (v : Vector UInt8 vs) :
    (m.remove (some key)).2.Holds k v ↔ m.keyEq key k = false ∧ m.Holds k v := by
  rcases hW with h | h
  · have hsame : m.remove (some key) = (false, m) := by
      simp only [Hashmap.remove, if_pos h.capacity_eq]
    rw [hsame]
    have := h.not_holds k v
    constructor
    · exact fun hh => absurd hh this
    · exact fun hh => absurd hh.2 this
  · exact h.holds_remove hl hD v

end Operations

end Hashmap

end D4np
