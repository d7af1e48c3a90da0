import D4np.Ds.HashmapTable

/-!
# The invariant of the hash map

A map is either still without a table (`Lazy`) or has one whose counters count its control bytes and
whose load leaves a slot empty (`Live`).  Inserting, removing and clearing keep this, and so does a
resize: each round of its loop puts one entry of the old table into a free slot of the new one
(`Rehashed`), and at the end the entries of the two tables correspond (`Placed`).
-/

namespace D4np

open Word64 ByteMem Probing

namespace Hashmap

variable {ks vs : ℕ} {m : Hashmap ks vs}

/-! ## Counting control bytes -/

theorem count_slots (l : List Slot) :
    l.count .empty + l.count .occupied + l.count .deleted = l.length := by
  induction l with
  | nil => rfl
  | cons x l ih => cases x <;> simp <;> omega

theorem count_set_add {l : List Slot} {i : ℕ} (hi : i < l.length) (x y : Slot) :
    (l.set i x).count y + (if l.getD i .empty = y then 1 else 0) =
      l.count y + if x = y then 1 else 0 := by
  have hx : l.getD i .empty = l[i] := by simp [hi]
  have hpos : l[i] = y → 0 < l.count y := fun h => List.count_pos_iff.mpr (h ▸ List.getElem_mem hi)
  rw [List.count_set hi, hx]
  by_cases hy : l[i] = y
  · have := hpos hy
    simp only [hy, beq_self_eq_true, if_true, beq_iff_eq]
    omega
  · simp [hy]

theorem count_take_succ (l : List Slot) (n : ℕ) :
    (l.take (n + 1)).count .occupied =
      (l.take n).count .occupied + if l.getD n .empty = .occupied then 1 else 0 := by
  rw [List.take_add_one, List.count_append, List.getD_eq_getElem?_getD]
  rcases l[n]? with _ | x
  · rfl
  · cases x <;> rfl

/-- The control bytes of a fresh table are empty. -/
theorem ctl_replicate (n i : ℕ) : (List.replicate n Slot.empty).getD i .empty = .empty := by
  simp only [List.getD_eq_getElem?_getD, List.getElem?_replicate]
  split_ifs <;> rfl

/-- A table whose used slots are fewer than its slots has an empty one. -/
theorem Shape.exists_empty (h : Shape m)
    (hc : m.controlBytes.count .occupied + m.controlBytes.count .deleted < m.capacity) :
    ∃ i < m.capacity, m.ctl i = .empty := by
  have hsum := count_slots m.controlBytes
  rw [h.ctl_length] at hsum
  obtain ⟨i, hi, he⟩ := List.getElem_of_mem (List.count_pos_iff.mp
    (show 0 < m.controlBytes.count .empty by omega))
  refine ⟨i, by rw [← h.ctl_length]; exact hi, ?_⟩
  simp [ctl, hi, he]

/-! ## Rehashing -/

/-- The occupied slots of `old` before `n` are the occupied slots of `m`: slot `i` is in `place i`,
with its key and value. -/
structure Placed (old m : Hashmap ks vs) (n : ℕ) (place : ℕ → ℕ) : Prop where
  lt : ∀ i < n, old.ctl i = .occupied → place i < m.capacity
  occupied : ∀ i < n, old.ctl i = .occupied → m.ctl (place i) = .occupied
  origin : ∀ j < m.capacity, m.ctl j = .occupied → ∃ i < n, old.ctl i = .occupied ∧ place i = j
  inj : ∀ i < n, ∀ i' < n, old.ctl i = .occupied → old.ctl i' = .occupied → place i = place i' →
    i = i'
  key : ∀ i < n, old.ctl i = .occupied → m.keyAt (place i) = old.keyAt i
  value : ∀ i < n, old.ctl i = .occupied → m.valueAt (place i) = old.valueAt i

theorem Placed.refl (m : Hashmap ks vs) : Placed m m m.capacity id where
  lt _ hi _ := hi
  occupied _ _ ho := ho
  origin j hj ho := ⟨j, hj, ho, rfl⟩
  inj _ _ _ _ _ _ h := h
  key _ _ _ := rfl
  value _ _ _ := rfl

theorem Placed.skip {old : Hashmap ks vs} {n : ℕ} {place : ℕ → ℕ} (h : Placed old m n place)
    (hn : old.ctl n ≠ .occupied) : Placed old m (n + 1) place := by
  have hlt : ∀ i < n + 1, old.ctl i = .occupied → i < n := by
    intro i hi ho
    rcases Nat.lt_succ_iff_lt_or_eq.mp hi with hi | rfl
    · exact hi
    · exact absurd ho hn
  exact {
    lt := fun i hi ho => h.lt i (hlt i hi ho) ho
    occupied := fun i hi ho => h.occupied i (hlt i hi ho) ho
    origin := fun j hj ho => by
      obtain ⟨i, hi, h⟩ := h.origin j hj ho
      exact ⟨i, by omega, h⟩
    inj := fun i hi i' hi' ho ho' => h.inj i (hlt i hi ho) i' (hlt i' hi' ho') ho ho'
    key := fun i hi ho => h.key i (hlt i hi ho) ho
    value := fun i hi ho => h.value i (hlt i hi ho) ho }

/-- The entry of slot `n` goes into the free slot `j`. -/
theorem Placed.store {old : Hashmap ks vs} {n j : ℕ} {place : ℕ → ℕ} (h : Placed old m n place)
    (hm : Shape m) (hj : j < m.capacity) (hfree : m.ctl j = .empty) (hn : old.ctl n = .occupied) :
    Placed old (m.store j (old.keyAt n) (old.valueAt n)) (n + 1) (Function.update place n j) := by
  have hctl : ∀ i, (m.store j (old.keyAt n) (old.valueAt n)).ctl i =
      if i = j then .occupied else m.ctl i := fun i => store_ctl hm hj
  have hself : Function.update place n j n = j := Function.update_self ..
  have hother : ∀ i < n, Function.update place n j i = place i :=
    fun i hi => Function.update_of_ne (by omega) _ _
  -- the slots in use are not the free one
  have hne : ∀ i < n, old.ctl i = .occupied → place i ≠ j := by
    intro i hi ho hij
    have := h.occupied i hi ho
    rw [hij, hfree] at this
    simp at this
  refine ⟨?_, ?_, ?_, ?_, ?_, ?_⟩
  · intro i hi ho
    rcases Nat.lt_succ_iff_lt_or_eq.mp hi with hi | rfl
    · rw [hother i hi]
      exact h.lt i hi ho
    · rw [hself]
      exact hj
  · intro i hi ho
    rw [hctl]
    rcases Nat.lt_succ_iff_lt_or_eq.mp hi with hi | rfl
    · rw [hother i hi, if_neg (hne i hi ho)]
      exact h.occupied i hi ho
    · rw [hself, if_pos rfl]
  · intro k hk ho
    rw [hctl] at ho
    by_cases hkj : k = j
    · exact ⟨n, by omega, hn, hself.trans hkj.symm⟩
    · rw [if_neg hkj] at ho
      obtain ⟨i, hi, hoi, hp⟩ := h.origin k hk ho
      exact ⟨i, by omega, hoi, (hother i hi).trans hp⟩
  · intro i hi i' hi' ho ho' heq
    rcases Nat.lt_succ_iff_lt_or_eq.mp hi with hi | rfl <;>
      rcases Nat.lt_succ_iff_lt_or_eq.mp hi' with hi' | rfl
    · rw [hother i hi, hother i' hi'] at heq
      exact h.inj i hi i' hi' ho ho' heq
    · rw [hother i hi, hself] at heq
      exact absurd heq (hne i hi ho)
    · rw [hother i' hi', hself] at heq
      exact absurd heq.symm (hne i' hi' ho')
    · rfl
  · intro i hi ho
    rcases Nat.lt_succ_iff_lt_or_eq.mp hi with hi | rfl
    · rw [hother i hi, store_keyAt_of_ne hm (h.lt i hi ho) hj (hne i hi ho)]
      exact h.key i hi ho
    · rw [hself]
      exact store_keyAt_self
  · intro i hi ho
    rcases Nat.lt_succ_iff_lt_or_eq.mp hi with hi | rfl
    · rw [hother i hi, store_valueAt_of_ne hm (h.lt i hi ho) hj (hne i hi ho)]
      exact h.value i hi ho
    · rw [hself]
      exact store_valueAt_self

/-- The state of the new table after `n` rounds. -/
structure Rehashed (old m : Hashmap ks vs) (n : ℕ) : Prop extends Table m where
  count_deleted : m.controlBytes.count .deleted = 0
  count_occupied : m.controlBytes.count .occupied = (old.controlBytes.take n).count .occupied
  placed : ∃ place, Placed old m n place

/-- What `resize` passes to its loop: the room the old entries need, and the guard on the spans. -/
structure Room (m : Hashmap ks vs) (newCapacity : ℕ) : Prop extends Strides m where
  pow : ∃ k, 3 ≤ k ∧ newCapacity = 2 ^ k
  key_le_div : newCapacity ≤ sizeMax / m.keyStride
  value_le_div : newCapacity ≤ sizeMax / m.valueStride
  count_lt : m.controlBytes.count .occupied < newCapacity

/-- A capacity that passes the guard of `resize` gives a span that does not wrap. -/
theorem span_lt {newCapacity stride : ℕ} (hs : maxAlign ≤ stride)
    (h : newCapacity ≤ sizeMax / stride) : newCapacity * stride < 2 ^ 64 := by
  have hpos : 0 < stride := by unfold maxAlign at hs; omega
  have := (Nat.le_div_iff_mul_le hpos).mp h
  unfold sizeMax Word64.maxWord at this
  omega

theorem Room.rehashed_zero {newCapacity : ℕ} (h : Room m newCapacity) (nc nk nv : Block) :
    Rehashed m (m.withTable newCapacity nc nk nv) 0 := by
  have hempty : ∀ i, (m.withTable newCapacity nc nk nv).ctl i = .empty := by
    intro i
    exact ctl_replicate newCapacity i
  refine ⟨⟨⟨⟨h.key_le, h.value_le, h.key_ge, h.value_ge⟩, h.pow, ?_, ?_, ?_⟩, ?_⟩, ?_, ?_, id, ?_⟩
  · simp [withTable]
  · exact span_lt h.key_ge h.key_le_div
  · exact span_lt h.value_ge h.value_le_div
  · intro i _ ho
    rw [hempty] at ho
    simp at ho
  · simp [withTable, List.count_replicate]
  · simp [withTable, List.count_replicate]
  · refine ⟨?_, ?_, fun j _ ho => ?_, ?_, ?_, ?_⟩
    · simp
    · simp
    · rw [hempty] at ho
      simp at ho
    · simp
    · simp
    · simp

/-- The loop of `resize` writes the three blocks of the new table only. -/
theorem rehash_frame (old new : Hashmap ks vs) (n : ℕ) :
    ∃ c k v, old.rehash new n = { new with controlBytes := c, keyBytes := k, valueBytes := v } := by
  induction n with
  | zero => exact ⟨new.controlBytes, new.keyBytes, new.valueBytes, rfl⟩
  | succ n ih =>
    obtain ⟨c, k, v, he⟩ := ih
    simp only [rehash, rehashStep, he]
    split
    · exact ⟨c, k, v, rfl⟩
    · split
      · exact ⟨c, k, v, rfl⟩
      · exact ⟨_, _, _, rfl⟩

/-- A new table that holds fewer entries than it has slots has an empty slot. -/
theorem Rehashed.exists_empty {old : Hashmap ks vs} {n : ℕ} (h : Rehashed old m n)
    (hc : old.controlBytes.count .occupied < m.capacity) : ∃ i < m.capacity, m.ctl i = .empty := by
  have hle := (List.take_sublist n old.controlBytes).count_le Slot.occupied
  apply h.toShape.exists_empty
  rw [h.count_deleted, h.count_occupied]
  omega

/-- One round of the loop of `resize`. -/
theorem Rehashed.step {old : Hashmap ks vs} {n : ℕ} (h : Rehashed old m n)
    (hc : old.controlBytes.count .occupied < m.capacity) :
    Rehashed old (old.rehashStep n m) (n + 1) := by
  obtain ⟨place, hp⟩ := h.placed
  have htake := count_take_succ old.controlBytes n
  unfold rehashStep
  by_cases hn : old.ctl n = .occupied
  · rw [if_neg (not_not.mpr hn)]
    obtain ⟨j, hj, hf, hempty, hr⟩ := reinsertSlot_spec h.toShape (h.exists_empty hc) (old.keyAt n)
    simp only [hf]
    have hlt : j < m.controlBytes.length := by rw [h.ctl_length]; exact hj
    have hctl : m.controlBytes.getD j .empty = .empty := hempty
    have hdel := count_set_add hlt .occupied .deleted
    have hocc := count_set_add hlt .occupied .occupied
    simp only [hctl, reduceCtorEq, if_false, if_true, Nat.add_zero] at hdel hocc
    rw [if_pos (show old.controlBytes.getD n .empty = .occupied from hn)] at htake
    have h1 := h.count_deleted
    have h2 := h.count_occupied
    refine ⟨h.toTable.store hj hr _, ?_, ?_, _, hp.store h.toShape hj hempty hn⟩
    · show (m.controlBytes.set j .occupied).count .deleted = 0
      omega
    · show (m.controlBytes.set j .occupied).count .occupied = _
      omega
  · rw [if_pos hn]
    rw [if_neg (show ¬ old.controlBytes.getD n .empty = .occupied from hn), Nat.add_zero] at htake
    exact ⟨h.toTable, h.count_deleted, h.count_occupied.trans htake.symm, place, hp.skip hn⟩

/-- **Rehashing.** After `n` rounds the new table holds the entries of the first `n` old slots. -/
theorem Room.rehashed {newCapacity : ℕ} (h : Room m newCapacity) (nc nk nv : Block) (n : ℕ) :
    Rehashed m (m.rehash (m.withTable newCapacity nc nk nv) n) n := by
  induction n with
  | zero => exact h.rehashed_zero nc nk nv
  | succ n ih =>
    apply ih.step
    obtain ⟨c, k, v, he⟩ := rehash_frame m (m.withTable newCapacity nc nk nv) n
    rw [he]
    exact h.count_lt

/-- Every re-insertion of a resize finds a slot. -/
theorem Room.reinsertSlot_isSome {newCapacity : ℕ} (h : Room m newCapacity) (nc nk nv : Block)
    (n : ℕ) (key : Vector UInt8 ks) :
    ((m.rehash (m.withTable newCapacity nc nk nv) n).reinsertSlot key).isSome := by
  have hR := h.rehashed nc nk nv n
  obtain ⟨c, k, v, he⟩ := rehash_frame m (m.withTable newCapacity nc nk nv) n
  obtain ⟨j, _, hf, _⟩ := reinsertSlot_spec hR.toShape
    (hR.exists_empty (by rw [he]; exact h.count_lt)) key
  rw [hf]
  rfl

/-- `resize` either fails and leaves the map as it is, or runs its loop over a fresh table. -/
theorem resize_cases (m : Hashmap ks vs) (newCapacity : ℕ) (h : Heap) :
    (∃ rc h', rc ≠ Status.ok ∧ m.resize newCapacity h = (rc, m, h')) ∨
    (newCapacity ≤ sizeMax / m.keyStride ∧ newCapacity ≤ sizeMax / m.valueStride ∧
      ∃ nc nk nv h', m.resize newCapacity h =
        (.ok, m.rehash (m.withTable newCapacity nc nk nv) m.capacity, h')) := by
  simp only [resize]
  split_ifs with hguard
  · exact Or.inl ⟨_, _, by simp, rfl⟩
  · split
    · refine Or.inr ⟨by omega, by omega, _, _, _, _, rfl⟩
    · exact Or.inl ⟨_, _, by simp, rfl⟩

/-! ## The invariant -/

/-- A map without a table. -/
structure Lazy (m : Hashmap ks vs) : Prop extends Strides m where
  capacity_eq : m.capacity = 0
  control_eq : m.control = none
  controlBytes_eq : m.controlBytes = []
  len_eq : m.len = 0
  tombstones_eq : m.tombstones = 0

/-- A map with a table. -/
structure Live (m : Hashmap ks vs) : Prop extends Table m where
  control_ne : m.control ≠ none
  len_eq : m.len = m.controlBytes.count .occupied
  tombstones_eq : m.tombstones = m.controlBytes.count .deleted
  load : 4 * (m.len + m.tombstones) < 3 * m.capacity

/-- The invariant of the hash map. -/
def Wf (m : Hashmap ks vs) : Prop := Lazy m ∨ Live m

theorem Live.exists_empty (h : Live m) : ∃ i < m.capacity, m.ctl i = .empty := by
  apply h.toShape.exists_empty
  rw [← h.len_eq, ← h.tombstones_eq]
  have := h.load
  omega

/-- The loop of `locate` never runs to its end. -/
theorem Live.locateExit_ne (h : Live m) (key : Vector UInt8 ks) (tomb : ℕ) :
    m.locateExit key ≠ .exhausted tomb := by
  rcases locate_spec h.toShape h.exists_empty key with ⟨_, i, _, he, _⟩ | ⟨_, i, _, he, _⟩
  · rw [he]
    simp
  · rw [he]
    simp

theorem Live.eight_le (h : Live m) : 8 ≤ m.capacity := by
  obtain ⟨k, hk, he⟩ := h.pow
  have := Nat.pow_le_pow_right (show 0 < 2 by norm_num) hk
  omega

theorem Wf.live (h : Wf m) (hc : m.capacity ≠ 0) : Live m := by
  rcases h with h | h
  · exact absurd h.capacity_eq hc
  · exact h

theorem Wf.strides (h : Wf m) : Strides m := by
  rcases h with h | h
  · exact h.toStrides
  · exact h.toStrides

/-- The capacity `d4np_hashmap_put` grows to has room for the entries of the map. -/
theorem Wf.room_grown (h : Wf m) (hk : m.grown ≤ sizeMax / m.keyStride)
    (hv : m.grown ≤ sizeMax / m.valueStride) : Room m m.grown := by
  refine ⟨h.strides, ?_, hk, hv, ?_⟩
  · rcases h with h | h
    · refine ⟨3, le_refl _, ?_⟩
      unfold grown
      rw [if_pos h.capacity_eq]
      rfl
    · obtain ⟨k, hk, he⟩ := h.pow
      have := h.capacity_le
      have := h.eight_le
      refine ⟨k + 1, by omega, ?_⟩
      unfold grown
      rw [if_neg (by omega), wrap_of_lt (by omega), he, pow_succ]
  · rcases h with h | h
    · rw [h.controlBytes_eq]
      unfold grown
      rw [if_pos h.capacity_eq]
      decide
    · have := h.capacity_le
      have := h.eight_le
      have := h.load
      rw [← h.len_eq]
      unfold grown
      rw [if_neg (by omega), wrap_of_lt (by omega)]
      omega

/-- The map an insertion works on: the map itself or its resized copy, with room for one more. -/
structure Prepared (m r : Hashmap ks vs) : Prop extends Live r where
  hash_eq : r.hash = m.hash
  keyEq_eq : r.keyEq = m.keyEq
  room : 4 * (r.len + r.tombstones + 1) < 3 * r.capacity
  placed : ∃ place, Placed m r m.capacity place

/-- A resized map is live. -/
theorem Room.live {newCapacity : ℕ} (h : Room m newCapacity) (nc nk nv : Block)
    (hlen : m.len = m.controlBytes.count .occupied) (hctl : m.controlBytes.length = m.capacity)
    (hload : 4 * m.len < 3 * newCapacity) :
    Live (m.rehash (m.withTable newCapacity nc nk nv) m.capacity) := by
  have hR := h.rehashed nc nk nv m.capacity
  obtain ⟨c, k, v, he⟩ := rehash_frame m (m.withTable newCapacity nc nk nv) m.capacity
  have hcount := hR.count_occupied
  rw [← hctl, List.take_length] at hcount
  refine ⟨hR.toTable, ?_, ?_, ?_, ?_⟩
  · rw [he]
    simp [withTable]
  · rw [← hctl, hcount, ← hlen, hctl, he]
    rfl
  · rw [hR.count_deleted, he]
    rfl
  · rw [he]
    simpa [withTable] using hload

theorem Wf.ctl_length (h : Wf m) : m.controlBytes.length = m.capacity := by
  rcases h with h | h
  · rw [h.controlBytes_eq, h.capacity_eq]
    rfl
  · exact h.toShape.ctl_length

theorem Wf.len_eq (h : Wf m) : m.len = m.controlBytes.count .occupied := by
  rcases h with h | h
  · rw [h.len_eq, h.controlBytes_eq]
    rfl
  · exact h.len_eq

theorem Wf.tombstones_eq (h : Wf m) : m.tombstones = m.controlBytes.count .deleted := by
  rcases h with h | h
  · rw [h.tombstones_eq, h.controlBytes_eq]
    rfl
  · exact h.tombstones_eq

/-- None of the sums and products in the load test wraps. -/
theorem Wf.load_exact (h : Wf m) :
    m.capacity * 3 < 2 ^ 64 ∧ (m.len + m.tombstones + 1) * 4 < 2 ^ 64 := by
  rcases h with h | h
  · rw [h.capacity_eq, h.len_eq, h.tombstones_eq]
    norm_num
  · have := h.capacity_le
    have := h.load
    omega

theorem Wf.needsGrowth_iff (h : Wf m) :
    m.needsGrowth ↔ 3 * m.capacity ≤ 4 * (m.len + m.tombstones + 1) := by
  obtain ⟨h1, h2⟩ := h.load_exact
  unfold needsGrowth
  rw [wrap_of_lt h1, wrap_of_lt (show m.len + m.tombstones < 2 ^ 64 by omega),
    wrap_of_lt (show m.len + m.tombstones + 1 < 2 ^ 64 by omega), wrap_of_lt h2]
  omega

/-- Without growth there is a table with room. -/
theorem Wf.prepared_self (h : Wf m) (hg : ¬ m.needsGrowth) : Prepared m m := by
  rw [h.needsGrowth_iff] at hg
  have hL := h.live (by omega)
  exact ⟨hL, rfl, rfl, by omega, id, Placed.refl m⟩

/-- A successful growth gives a table with room that holds the same entries. -/
theorem Wf.prepared_resize (h : Wf m) {r : Hashmap ks vs} {heap heap' : Heap}
    (hr : m.resize m.grown heap = (.ok, r, heap')) : Prepared m r := by
  rcases resize_cases m m.grown heap with ⟨rc, h', hrc, he⟩ | ⟨hk, hv, nc, nk, nv, h', he⟩
  · rw [he] at hr
    exact absurd (congrArg Prod.fst hr) hrc
  · rw [he] at hr
    cases hr
    have hroom := h.room_grown hk hv
    have hload : 4 * (m.len + 1) < 3 * m.grown := by
      rcases h with h | h
      · unfold grown
        rw [if_pos h.capacity_eq, h.len_eq]
        decide
      · have := h.capacity_le
        have := h.eight_le
        have := h.load
        unfold grown
        rw [if_neg (by omega), wrap_of_lt (by omega)]
        omega
    have hL := hroom.live nc nk nv h.len_eq h.ctl_length (by omega)
    have hR := hroom.rehashed nc nk nv m.capacity
    obtain ⟨c, k, v, hframe⟩ := rehash_frame m (m.withTable m.grown nc nk nv) m.capacity
    refine ⟨hL, ?_, ?_, ?_, hR.placed⟩
    · rw [hframe]
      rfl
    · rw [hframe]
      rfl
    · rw [hframe]
      simpa [withTable] using hload

/-- `d4np_hashmap_put` either fails and leaves the map as it is, or inserts into a table with
room that holds the same entries. -/
theorem Wf.put_cases (h : Wf m) (key : Vector UInt8 ks) (value : Vector UInt8 vs) (heap : Heap) :
    (∃ rc heap', rc ≠ Status.ok ∧ m.putBytes (some key) (some value) heap = (rc, m, heap')) ∨
    ∃ r heap', Prepared m r ∧ m.putBytes (some key) (some value) heap =
      (.ok, r.insert key value, heap') := by
  simp only [putBytes]
  by_cases hg : m.needsGrowth
  · rw [if_pos hg]
    rcases hres : m.resize m.grown heap with ⟨rc, r, heap'⟩
    by_cases hrc : rc = .ok
    · subst hrc
      exact Or.inr ⟨r, heap', h.prepared_resize hres, rfl⟩
    · left
      rcases resize_cases m m.grown heap with ⟨rc', h', _, he⟩ | ⟨_, _, _, _, _, _, he⟩
      · rw [hres] at he
        cases he
        refine ⟨rc, heap', hrc, ?_⟩
        cases rc <;> simp_all
      · rw [hres] at he
        exact absurd (congrArg Prod.fst he) hrc
  · rw [if_neg hg]
    exact Or.inr ⟨m, heap, h.prepared_self hg, rfl⟩

/-! ## The operations keep the invariant -/

/-- A table does not depend on the counters, nor on the values it stores. -/
theorem Table.frame (h : Table m) (valueBytes : Mem) (len tombstones : ℕ) :
    Table ({ m with valueBytes := valueBytes, len := len, tombstones := tombstones } :
      Hashmap ks vs) :=
  ⟨⟨⟨h.key_le, h.value_le, h.key_ge, h.value_ge⟩, h.pow, h.ctl_length, h.key_fits, h.value_fits⟩,
    h.reach⟩

/-- The search of an insertion, and what it writes. -/
theorem Live.insert_cases (h : Live m) (key : Vector UInt8 ks) (value : Vector UInt8 vs) :
    (∃ d i, m.FoundAt key d i ∧ m.insert key value =
      { m with valueBytes := writeAt m.valueBytes (wrap (i * m.valueStride)) value }) ∨
    (∃ d i, m.MissAt key d i ∧ m.insert key value =
      { m.store i key value with
        tombstones := if m.ctl i = .deleted then sub m.tombstones 1 else m.tombstones
        len := wrap (m.len + 1) }) := by
  unfold insert
  rcases locate_spec h.toShape h.exists_empty key with ⟨d, i, hf, _, he⟩ | ⟨d, i, hm, _, he⟩
  · rw [he]
    exact Or.inl ⟨d, i, hf, rfl⟩
  · rw [he]
    exact Or.inr ⟨d, i, hm, rfl⟩

/-- An insertion into a table with room keeps the invariant. -/
theorem Live.insert (h : Live m) (hroom : 4 * (m.len + m.tombstones + 1) < 3 * m.capacity)
    (key : Vector UInt8 ks) (value : Vector UInt8 vs) : Live (m.insert key value) := by
  have hlen := h.len_eq
  have htomb := h.tombstones_eq
  have hcap := h.capacity_le
  rcases h.insert_cases key value with ⟨d, i, hf, he⟩ | ⟨d, i, hm, he⟩
  · rw [he]
    exact ⟨h.toTable.frame _ _ _, h.control_ne, hlen, htomb, h.load⟩
  · have hi := hm.slot_lt h.toShape
    have hlt : i < m.controlBytes.length := by rw [h.ctl_length]; exact hi
    have hne : m.controlBytes.getD i .empty ≠ .occupied := hm.not_occupied
    have hdel := count_set_add hlt .occupied .deleted
    have hocc := count_set_add hlt .occupied .occupied
    simp only [if_neg hne, if_true, reduceCtorEq, if_false, Nat.add_zero] at hdel hocc
    have hwrap : wrap (m.len + 1) = m.len + 1 := wrap_of_lt (by omega)
    -- a reused tombstone is one tombstone less
    have hnew : (if m.ctl i = .deleted then sub m.tombstones 1 else m.tombstones) =
        (m.controlBytes.set i .occupied).count .deleted := by
      by_cases hd : m.ctl i = .deleted
      · rw [if_pos (show m.controlBytes.getD i .empty = .deleted from hd)] at hdel
        rw [if_pos hd, sub_one (by omega) (by omega)]
        omega
      · rw [if_neg (show ¬ m.controlBytes.getD i .empty = .deleted from hd)] at hdel
        rw [if_neg hd]
        omega
    rw [he]
    refine ⟨(h.toTable.store hi hm.reaches value).frame _ _ _, h.control_ne, ?_, hnew, ?_⟩
    · show wrap (m.len + 1) = (m.controlBytes.set i .occupied).count .occupied
      omega
    · show 4 * (wrap (m.len + 1) +
        if m.ctl i = .deleted then sub m.tombstones 1 else m.tombstones) < 3 * m.capacity
      rw [hnew]
      split_ifs at hdel <;> omega

theorem Wf.put (h : Wf m) (key : Option (Vector UInt8 ks)) (value : Option (Vector UInt8 vs))
    (heap : Heap) : Wf (m.putBytes key value heap).2.1 := by
  rcases key with _ | key
  · exact h
  rcases value with _ | value
  · exact h
  rcases h.put_cases key value heap with ⟨rc, heap', _, he⟩ | ⟨r, heap', hr, he⟩
  · rw [he]
    exact h
  · rw [he]
    exact Or.inr (hr.toLive.insert hr.room key value)

/-- `d4np_hashmap_remove` on a live map: the search, and what it writes. -/
theorem Live.remove_cases (h : Live m) (key : Vector UInt8 ks) :
    (∃ d i, m.FoundAt key d i ∧ m.remove (some key) = (true, { m with
      controlBytes := m.controlBytes.set i .deleted
      len := sub m.len 1
      tombstones := wrap (m.tombstones + 1) })) ∨
    (∃ d i, m.MissAt key d i ∧ m.remove (some key) = (false, m)) := by
  have hcap := h.capacity_pos
  simp only [Hashmap.remove]
  rw [if_neg (by omega)]
  rcases locate_spec h.toShape h.exists_empty key with ⟨d, i, hf, _, he⟩ | ⟨d, i, hm, _, he⟩
  · rw [he]
    exact Or.inl ⟨d, i, hf, rfl⟩
  · rw [he]
    exact Or.inr ⟨d, i, hm, rfl⟩

/-- A slot that becomes a tombstone breaks no probe path. -/
theorem Table.tombstone (h : Table m) {i : ℕ} (hi : i < m.capacity) (len tombstones : ℕ) :
    Table ({ m with
      controlBytes := m.controlBytes.set i .deleted, len := len, tombstones := tombstones } :
      Hashmap ks vs) := by
  have hlt : i < m.controlBytes.length := by rw [h.ctl_length]; exact hi
  have hctl : ∀ j, (m.controlBytes.set i .deleted).getD j .empty =
      if j = i then .deleted else m.ctl j := fun j => ctl_set hlt _
  refine ⟨⟨⟨h.key_le, h.value_le, h.key_ge, h.value_ge⟩, h.pow, ?_, h.key_fits, h.value_fits⟩, ?_⟩
  · show (m.controlBytes.set i .deleted).length = m.capacity
    rw [List.length_set, h.ctl_length]
  · intro j hj ho
    have ho' : m.ctl j = .occupied := by
      have := hctl j
      rw [show (m.controlBytes.set i .deleted).getD j .empty = .occupied from ho] at this
      split_ifs at this
      exact this.symm
    refine (h.reach j hj ho').mono fun k hk => ?_
    have := hctl k
    rw [show (m.controlBytes.set i .deleted).getD k .empty = .empty from hk] at this
    split_ifs at this
    exact this.symm

theorem Wf.remove (h : Wf m) (key : Option (Vector UInt8 ks)) : Wf (m.remove key).2 := by
  rcases key with _ | key
  · exact h
  by_cases hc : m.capacity = 0
  · simp only [Hashmap.remove, if_pos hc]
    exact h
  have hL := h.live hc
  rcases hL.remove_cases key with ⟨d, i, hf, he⟩ | ⟨d, i, _, he⟩
  · have hi := hf.slot_lt hL.toShape
    have hlt : i < m.controlBytes.length := by rw [h.ctl_length]; exact hi
    have hctl : m.controlBytes.getD i .empty = .occupied := hf.occupied
    have hdel := count_set_add hlt .deleted .deleted
    have hocc := count_set_add hlt .deleted .occupied
    simp only [hctl, reduceCtorEq, if_false, if_true, Nat.add_zero] at hdel hocc
    have hlen := hL.len_eq
    have htomb := hL.tombstones_eq
    have hload := hL.load
    have hcap := hL.capacity_le
    have hpos : sub m.len 1 = m.len - 1 := sub_one (by omega) (by omega)
    have hwrap : wrap (m.tombstones + 1) = m.tombstones + 1 := wrap_of_lt (by omega)
    rw [he]
    refine Or.inr ⟨hL.toTable.tombstone hi _ _, hL.control_ne, ?_, ?_, ?_⟩
    · show sub m.len 1 = (m.controlBytes.set i .deleted).count .occupied
      omega
    · show wrap (m.tombstones + 1) = (m.controlBytes.set i .deleted).count .deleted
      omega
    · show 4 * (sub m.len 1 + wrap (m.tombstones + 1)) < 3 * m.capacity
      omega
  · rw [he]
    exact h

theorem Wf.clear (h : Wf m) : Wf m.clear := by
  unfold Hashmap.clear
  split_ifs with hc
  · exact h
  · rcases h with h | h
    · exact absurd h.control_eq hc
    · have hpos := h.capacity_pos
      refine Or.inr ⟨⟨⟨⟨h.key_le, h.value_le, h.key_ge, h.value_ge⟩, h.pow, ?_, h.key_fits,
        h.value_fits⟩, ?_⟩, h.control_ne, ?_, ?_, ?_⟩
      · simp
      · intro i _ ho
        have := ctl_replicate m.capacity i
        rw [show (List.replicate m.capacity Slot.empty).getD i .empty = .occupied from ho] at this
        simp at this
      · simp [List.count_replicate]
      · simp [List.count_replicate]
      · simpa using hpos

/-- The strides of a new map. -/
theorem lazyMap_lazy (a : Allocator) (hash : Option (HashFn ks)) (keyEq : Option (KeyEqFn ks))
    (hk : 0 < ks) (hv : 0 < vs) (hks : ks ≤ sizeMax - maxAlign) (hvs : vs ≤ sizeMax - maxAlign) :
    Lazy (lazyMap a hash keyEq : Hashmap ks vs) := by
  unfold sizeMax Word64.maxWord maxAlign at hks hvs
  have h1 := roundUp_eq (show ks + 15 < 2 ^ 64 by omega)
  have h2 := roundUp_eq (show vs + 15 < 2 ^ 64 by omega)
  refine ⟨⟨?_, ?_, ?_, ?_⟩, rfl, rfl, rfl, rfl, rfl⟩
  · show ks ≤ roundUp ks maxAlign
    omega
  · show vs ≤ roundUp vs maxAlign
    omega
  · show maxAlign ≤ roundUp ks maxAlign
    rw [h1]
    unfold maxAlign
    omega
  · show maxAlign ≤ roundUp vs maxAlign
    rw [h2]
    unfold maxAlign
    omega

/-- What `d4np_hashmap_init` leaves in the map: no table, or a fresh one. -/
theorem init_cases {a : Allocator} {initialCapacity : ℕ} {hash : Option (HashFn ks)}
    {keyEq : Option (KeyEqFn ks)} {heap heap' : Heap} {rc : Status}
    (h : init a ks vs initialCapacity hash keyEq heap = (rc, some m, heap')) :
    0 < ks ∧ 0 < vs ∧ (m = lazyMap a hash keyEq ∨
      ∃ nc nk nv k, 3 ≤ k ∧ 2 ^ k ≤ sizeMax / roundUp ks maxAlign ∧
        2 ^ k ≤ sizeMax / roundUp vs maxAlign ∧
        m = (lazyMap a hash keyEq).withTable (2 ^ k) nc nk nv) := by
  unfold init at h
  split_ifs at h with hz hcap
  · simp at h
  · refine ⟨by omega, by omega, ?_⟩
    obtain ⟨k, hk, _, he, _⟩ := nextPow2Loop_pow initialCapacity 64 3 (by norm_num) (by norm_num)
    have hpow : nextPow2AtLeast initialCapacity = 2 ^ k := he
    rw [hpow] at h
    rcases resize_cases (lazyMap a hash keyEq : Hashmap ks vs) (2 ^ k) heap with
      ⟨rc', h', _, he⟩ | ⟨hk1, hv1, nc, nk, nv, h', he⟩
    · simp only [he] at h
      cases h
      exact Or.inl rfl
    · simp only [he] at h
      cases h
      exact Or.inr ⟨nc, nk, nv, k, hk, hk1, hv1, rfl⟩
  · refine ⟨by omega, by omega, Or.inl ?_⟩
    cases h
    rfl

theorem init_wf {a : Allocator} {initialCapacity : ℕ} {hash : Option (HashFn ks)}
    {keyEq : Option (KeyEqFn ks)} {heap heap' : Heap} {rc : Status}
    (hks : ks ≤ sizeMax - maxAlign) (hvs : vs ≤ sizeMax - maxAlign)
    (h : init a ks vs initialCapacity hash keyEq heap = (rc, some m, heap')) : Wf m := by
  obtain ⟨hk, hv, hm⟩ := init_cases h
  have hlazy : Lazy (lazyMap a hash keyEq : Hashmap ks vs) := lazyMap_lazy a hash keyEq hk hv hks hvs
  rcases hm with rfl | ⟨nc, nk, nv, k, hk, hk1, hv1, rfl⟩
  · exact Or.inl hlazy
  · have hroom : Room (lazyMap a hash keyEq : Hashmap ks vs) (2 ^ k) :=
      ⟨hlazy.toStrides, ⟨k, hk, rfl⟩, hk1, hv1, Nat.two_pow_pos k⟩
    -- there is nothing to re-insert: the loop over the old table makes no round
    exact Or.inr (hroom.live nc nk nv rfl rfl (Nat.mul_pos (by norm_num) (Nat.two_pow_pos k)))

end Hashmap

end D4np
