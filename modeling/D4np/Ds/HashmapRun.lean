import D4np.Ds.HashmapSpec
import D4np.Lib.TransitionSystem

/-!
# Runs of the hash map

A run starts with an initialisation, whatever it returned, and makes any calls in any order.  It
keeps its history of calls and return values.  `expected` reads off the history what a lookup must
give: the value of the last successful put of the key, unless it was removed or the map was cleared
since.
-/

namespace D4np

open Word64 Probing TransitionSystem

namespace Hashmap

variable {ks vs : ℕ}

/-- A call on a map, with the bytes it reads through its pointers; a null key or value is `none`. -/
inductive Call (ks vs : ℕ)
  | put (key : Option (Vector UInt8 ks)) (value : Option (Vector UInt8 vs))
  | get (key : Option (Vector UInt8 ks))
  | contains (key : Option (Vector UInt8 ks))
  | remove (key : Option (Vector UInt8 ks))
  | len
  | clear

/-- What a call returns; for a lookup, the bytes behind the pointer. -/
inductive Outcome (vs : ℕ)
  | status (rc : Status)
  | value (v : Option (Vector UInt8 vs))
  | bool (b : Bool)
  | size (n : ℕ)
  | done

/-- A map in use, with the calls made so far and what they returned, newest first. -/
structure Run (ks vs : ℕ) where
  map : Hashmap ks vs
  heap : Heap
  history : List (Call ks vs × Outcome vs)

namespace Run

/-- What a call returns and leaves behind. -/
def exec (r : Run ks vs) : Call ks vs → Outcome vs × Hashmap ks vs × Heap
  | .put key value =>
    let (rc, m, h) := r.map.putBytes key value r.heap
    (.status rc, m, h)
  | .get key => (.value ((r.map.get key).map r.map.valueAt), r.map, r.heap)
  | .contains key => (.bool (r.map.contains key), r.map, r.heap)
  | .remove key =>
    let (b, m) := r.map.remove key
    (.bool b, m, r.heap)
  | .len => (.size r.map.len, r.map, r.heap)
  | .clear => (.done, r.map.clear, r.heap)

/-- One call. -/
def step (r : Run ks vs) (c : Call ks vs) : Run ks vs :=
  ⟨(r.exec c).2.1, (r.exec c).2.2, (c, (r.exec c).1) :: r.history⟩

end Run

/-- The runs of a map with the given allocator and callbacks, from any initialisation. -/
def system (ks vs : ℕ) (a : Allocator) (hash : Option (HashFn ks)) (keyEq : Option (KeyEqFn ks)) :
    System (Run ks vs) (Call ks vs) where
  init r := ∃ initialCapacity heap rc, initialCapacity < 2 ^ 64 ∧
    init a ks vs initialCapacity hash keyEq heap = (rc, some r.map, r.heap) ∧ r.history = []
  step r c := some (r.step c)

/-- What a lookup must give after the calls of a history. -/
def expected (keyEq : KeyEqFn ks) :
    List (Call ks vs × Outcome vs) → Vector UInt8 ks → Option (Vector UInt8 vs)
  | [], _ => none
  | (.put (some k) (some v), .status .ok) :: history, key =>
    if keyEq k key then some v else expected keyEq history key
  | (.remove (some k), _) :: history, key =>
    if keyEq k key then none else expected keyEq history key
  | (.clear, _) :: _, _ => none
  | _ :: history, key => expected keyEq history key

/-! ## What a call can change -/

/-- `m'` is `m` with other contents of its blocks and other counters. -/
def SameTable (m m' : Hashmap ks vs) : Prop :=
  ∃ c k v len tombstones, m' = { m with
    controlBytes := c, keyBytes := k, valueBytes := v, len := len, tombstones := tombstones }

theorem SameTable.refl (m : Hashmap ks vs) : SameTable m m := ⟨_, _, _, _, _, rfl⟩

theorem insert_sameTable (m : Hashmap ks vs) (key : Vector UInt8 ks) (value : Vector UInt8 vs) :
    SameTable m (m.insert key value) := by
  unfold insert
  split <;> exact ⟨_, _, _, _, _, rfl⟩

theorem remove_sameTable (m : Hashmap ks vs) (key : Option (Vector UInt8 ks)) :
    SameTable m (m.remove key).2 := by
  rcases key with _ | key
  · exact SameTable.refl m
  · simp only [remove]
    split_ifs
    · exact SameTable.refl m
    · split <;> exact ⟨_, _, _, _, _, rfl⟩

theorem clear_sameTable (m : Hashmap ks vs) : SameTable m m.clear := by
  unfold clear
  split_ifs
  · exact SameTable.refl m
  · exact ⟨_, _, _, _, _, rfl⟩

theorem SameTable.capacity_eq {m m' : Hashmap ks vs} (h : SameTable m m') :
    m'.capacity = m.capacity := by
  obtain ⟨_, _, _, _, _, rfl⟩ := h
  rfl

/-- A put resizes the table if it is too full, and then writes into it. -/
theorem put_induct {P : Hashmap ks vs → Heap → Prop} {m : Hashmap ks vs} {heap : Heap}
    (h : P m heap) (hresize : P (m.resize m.grown heap).2.1 (m.resize m.grown heap).2.2)
    (hframe : ∀ {m m' : Hashmap ks vs} {heap : Heap}, SameTable m m' → P m heap → P m' heap)
    (key : Option (Vector UInt8 ks)) (value : Option (Vector UInt8 vs)) :
    P (m.putBytes key value heap).2.1 (m.putBytes key value heap).2.2 := by
  rcases key with _ | key
  · exact h
  rcases value with _ | value
  · exact h
  simp only [putBytes]
  split_ifs
  · split
    · rename_i he
      rw [he] at hresize
      exact hframe (insert_sameTable _ key value) hresize
    · rename_i he
      rw [he] at hresize
      exact hresize
  · exact hframe (insert_sameTable m key value) h

/-- **A call** resizes the table, or writes into the table there is, or changes nothing. -/
theorem Run.step_induct {P : Hashmap ks vs → Heap → Prop} {r : Run ks vs} (h : P r.map r.heap)
    (hresize : P (r.map.resize r.map.grown r.heap).2.1 (r.map.resize r.map.grown r.heap).2.2)
    (hframe : ∀ {m m' : Hashmap ks vs} {heap : Heap}, SameTable m m' → P m heap → P m' heap)
    (c : Call ks vs) : P (r.step c).map (r.step c).heap := by
  cases c with
  | put key value => exact put_induct h hresize hframe key value
  | get key => exact h
  | contains key => exact h
  | remove key => exact hframe (remove_sameTable r.map key) h
  | len => exact h
  | clear => exact hframe (clear_sameTable r.map) h

/-! ## The invariant over runs -/

/-- The same callbacks. -/
def SameCallbacks (m m' : Hashmap ks vs) : Prop := m'.hash = m.hash ∧ m'.keyEq = m.keyEq

theorem SameTable.callbacks {m m' : Hashmap ks vs} (h : SameTable m m') : SameCallbacks m m' := by
  obtain ⟨_, _, _, _, _, rfl⟩ := h
  exact ⟨rfl, rfl⟩

theorem Wf.put_callbacks {m : Hashmap ks vs} (h : Wf m) (key : Option (Vector UInt8 ks))
    (value : Option (Vector UInt8 vs)) (heap : Heap) :
    SameCallbacks m (m.putBytes key value heap).2.1 := by
  rcases key with _ | key
  · exact ⟨rfl, rfl⟩
  rcases value with _ | value
  · exact ⟨rfl, rfl⟩
  rcases h.put_cases key value heap with ⟨rc, heap', _, he⟩ | ⟨r, heap', hr, he⟩
  · rw [he]
    exact ⟨rfl, rfl⟩
  · rw [he]
    have hi := (insert_sameTable r key value).callbacks
    exact ⟨hi.1.trans hr.hash_eq, hi.2.trans hr.keyEq_eq⟩

/-- The allocator and the strides of the initialisation. -/
structure Configured (a : Allocator) (m : Hashmap ks vs) : Prop where
  allocator_eq : m.allocator = a
  keyStride_eq : m.keyStride = roundUp ks maxAlign
  valueStride_eq : m.valueStride = roundUp vs maxAlign

section Config

variable {a : Allocator} {m : Hashmap ks vs}

theorem lazyMap_configured (hash : Option (HashFn ks)) (keyEq : Option (KeyEqFn ks)) :
    Configured a (lazyMap a hash keyEq : Hashmap ks vs) :=
  ⟨rfl, rfl, rfl⟩

theorem Configured.frame {m' : Hashmap ks vs} (h : Configured a m) (hs : SameTable m m') :
    Configured a m' := by
  obtain ⟨_, _, _, _, _, rfl⟩ := hs
  exact ⟨h.allocator_eq, h.keyStride_eq, h.valueStride_eq⟩

theorem Configured.resize (h : Configured a m) (newCapacity : ℕ) (heap : Heap) :
    Configured a (m.resize newCapacity heap).2.1 := by
  rcases resize_cases m newCapacity heap with ⟨rc, _, _, he⟩ | ⟨_, _, nc, nk, nv, _, he⟩
  · rw [he]
    exact h
  · rw [he]
    obtain ⟨c, k, v, hframe⟩ := rehash_frame m (m.withTable newCapacity nc nk nv) m.capacity
    rw [hframe]
    exact ⟨h.allocator_eq, h.keyStride_eq, h.valueStride_eq⟩

theorem Configured.step {r : Run ks vs} (h : Configured a r.map) (c : Call ks vs) :
    Configured a (r.step c).map :=
  Run.step_induct (P := fun m _ => Configured a m) h (h.resize _ _) (fun hs h => h.frame hs) c

end Config

section Runs

variable {a : Allocator} {hash : Option (HashFn ks)} {keyEq : Option (KeyEqFn ks)}

/-- The map is well formed and has the callbacks it was given. -/
structure Run.Inv (hash : Option (HashFn ks)) (keyEq : Option (KeyEqFn ks)) (r : Run ks vs) :
    Prop where
  wf : Wf r.map
  hash_eq : r.map.hash = hash.getD defaultHash
  keyEq_eq : r.map.keyEq = keyEq.getD defaultKeyEq

theorem Run.Inv.of_callbacks {r : Run ks vs} (h : r.Inv hash keyEq) {m : Hashmap ks vs}
    (hW : Wf m) (hs : SameCallbacks r.map m) (heap : Heap)
    (history : List (Call ks vs × Outcome vs)) : Run.Inv hash keyEq ⟨m, heap, history⟩ :=
  ⟨hW, hs.1.trans h.hash_eq, hs.2.trans h.keyEq_eq⟩

theorem Run.Inv.step {r : Run ks vs} (h : r.Inv hash keyEq) (c : Call ks vs) :
    (r.step c).Inv hash keyEq := by
  have hsame : SameCallbacks r.map r.map := ⟨rfl, rfl⟩
  cases c with
  | put key value => exact h.of_callbacks (h.wf.put _ _ _) (h.wf.put_callbacks _ _ _) _ _
  | get key => exact h.of_callbacks h.wf hsame _ _
  | contains key => exact h.of_callbacks h.wf hsame _ _
  | remove key => exact h.of_callbacks (h.wf.remove _) ((remove_sameTable _ _).callbacks) _ _
  | len => exact h.of_callbacks h.wf hsame _ _
  | clear => exact h.of_callbacks h.wf.clear ((clear_sameTable _).callbacks) _ _

theorem init_callbacks {initialCapacity : ℕ} {m : Hashmap ks vs} {heap heap' : Heap} {rc : Status}
    (h : init a ks vs initialCapacity hash keyEq heap = (rc, some m, heap')) :
    m.hash = hash.getD defaultHash ∧ m.keyEq = keyEq.getD defaultKeyEq := by
  obtain ⟨_, _, rfl | ⟨_, _, _, _, _, _, _, rfl⟩⟩ := init_cases h <;> exact ⟨rfl, rfl⟩

theorem reachable_inv (hks : ks ≤ sizeMax - maxAlign) (hvs : vs ≤ sizeMax - maxAlign)
    {r : Run ks vs} (h : Reachable (system ks vs a hash keyEq) r) : r.Inv hash keyEq := by
  refine h.induct ?_ ?_
  · rintro r ⟨_, _, _, _, hi, _⟩
    exact ⟨init_wf hks hvs hi, (init_callbacks hi).1, (init_callbacks hi).2⟩
  · intro r c t hr hs
    cases hs
    exact hr.step c

theorem reachable_configured {r : Run ks vs} (h : Reachable (system ks vs a hash keyEq) r) :
    Configured a r.map := by
  refine h.induct (P := fun r => Configured a r.map) ?_ ?_
  · rintro r ⟨_, _, _, _, hi, _⟩
    obtain ⟨_, _, hm | ⟨_, _, _, _, _, _, _, hm⟩⟩ := init_cases hi
    · rw [hm]
      exact lazyMap_configured hash keyEq
    · rw [hm]
      exact ⟨rfl, rfl, rfl⟩
  · intro r c t hr hs
    cases hs
    exact hr.step c

/-- A map fresh from its initialisation has no occupied slot. -/
theorem init_not_occupied {initialCapacity : ℕ} {m : Hashmap ks vs} {heap heap' : Heap}
    {rc : Status} (h : init a ks vs initialCapacity hash keyEq heap = (rc, some m, heap')) (i : ℕ) :
    m.ctl i ≠ .occupied := by
  obtain ⟨_, _, rfl | ⟨_, _, _, k, _, _, _, rfl⟩⟩ := init_cases h
  · simp [ctl, lazyMap]
  · have : (List.replicate (2 ^ k) Slot.empty).getD i .empty = .empty := ctl_replicate _ _
    show (List.replicate (2 ^ k) Slot.empty).getD i .empty ≠ .occupied
    rw [this]
    simp

theorem Distinct.step {r : Run ks vs} (hD : Distinct r.map) (hW : Wf r.map)
    (hc : Coherent r.map.hash r.map.keyEq) (c : Call ks vs) : Distinct (r.step c).map := by
  cases c with
  | put key value => exact hD.put hW hc key value r.heap
  | get key => exact hD
  | contains key => exact hD
  | remove key => exact hD.remove hW key
  | len => exact hD
  | clear => exact hD.clear

/-- With coherent callbacks the stored keys stay apart in every run. -/
theorem reachable_distinct (hks : ks ≤ sizeMax - maxAlign) (hvs : vs ≤ sizeMax - maxAlign)
    (hc : Coherent (hash.getD defaultHash) (keyEq.getD defaultKeyEq)) {r : Run ks vs}
    (h : Reachable (system ks vs a hash keyEq) r) : Distinct r.map := by
  refine h.induct_of (P := fun r => Distinct r.map) (fun _ hs => reachable_inv hks hvs hs) ?_ ?_
  · rintro r ⟨_, _, _, _, hi, _⟩ i _ j _ _ ho
    exact absurd ho (init_not_occupied hi i)
  · intro r c t hI hD hs
    cases hs
    refine hD.step hI.wf ?_ c
    rw [hI.hash_eq, hI.keyEq_eq]
    exact hc

/-- **The invariant of the hash map.** In every state reached from an initialisation by any calls,
whatever the callbacks and the allocator do: the capacity is zero or a power of two of at least
eight; the counters count the control bytes; the load leaves a slot empty; and no empty slot lies
between the home slot of a stored key and its own.  If equal keys are equal both ways and hash
equally, the stored keys are pairwise different.  So no search falls through, no re-insertion of a
resize fails, and no computation of a size wraps. -/
theorem hashmap_invariant (hks : ks ≤ sizeMax - maxAlign) (hvs : vs ≤ sizeMax - maxAlign)
    {r : Run ks vs} (h : Reachable (system ks vs a hash keyEq) r) :
    (r.map.capacity = 0 ∨ ∃ k, 3 ≤ k ∧ r.map.capacity = 2 ^ k) ∧
    r.map.controlBytes.length = r.map.capacity ∧
    r.map.len = r.map.controlBytes.count .occupied ∧
    r.map.tombstones = r.map.controlBytes.count .deleted ∧
    (0 < r.map.capacity → 4 * (r.map.len + r.map.tombstones) < 3 * r.map.capacity ∧
      ∃ i < r.map.capacity, r.map.ctl i = .empty) ∧
    (Coherent (hash.getD defaultHash) (keyEq.getD defaultKeyEq) → Distinct r.map) ∧
    (∀ i < r.map.capacity, r.map.ctl i = .occupied →
      ∃ d < r.map.capacity, (r.map.home (r.map.keyAt i) + d) % r.map.capacity = i ∧
        ∀ e ≤ d, r.map.ctl ((r.map.home (r.map.keyAt i) + e) % r.map.capacity) ≠ .empty) ∧
    -- no search falls through: neither on the map, nor on the grown map a put works on
    (0 < r.map.capacity → ∀ key tomb, r.map.locateExit key ≠ .exhausted tomb) ∧
    (¬ r.map.needsGrowth → 0 < r.map.capacity) ∧
    (∀ m heap heap', r.map.resize r.map.grown heap = (.ok, m, heap') →
      ∀ key tomb, m.locateExit key ≠ .exhausted tomb) ∧
    -- every re-insertion finds a slot
    (r.map.grown ≤ sizeMax / r.map.keyStride → r.map.grown ≤ sizeMax / r.map.valueStride →
      ∀ nc nk nv n, n < r.map.capacity → r.map.ctl n = .occupied →
        ((r.map.rehash (r.map.withTable r.map.grown nc nk nv) n).reinsertSlot
          (r.map.keyAt n)).isSome) ∧
    -- nothing wraps
    r.map.capacity * 2 < 2 ^ 64 ∧ r.map.capacity * 3 < 2 ^ 64 ∧
    (r.map.len + r.map.tombstones + 1) * 4 < 2 ^ 64 ∧
    r.map.capacity * r.map.keyStride < 2 ^ 64 ∧ r.map.capacity * r.map.valueStride < 2 ^ 64 ∧
    ∀ newCapacity, newCapacity ≤ sizeMax / r.map.keyStride →
      newCapacity ≤ sizeMax / r.map.valueStride →
      newCapacity * r.map.keyStride < 2 ^ 64 ∧ newCapacity * r.map.valueStride < 2 ^ 64 := by
  have hW := (reachable_inv hks hvs h).wf
  have hstr := hW.strides
  refine ⟨?_, hW.ctl_length, hW.len_eq, hW.tombstones_eq, fun hc => ?_,
    fun hc => reachable_distinct hks hvs hc h, fun i hi ho => ?_, fun hc key tomb => ?_, fun hg => ?_,
    fun m heap heap' hm key tomb => ?_, fun hk hv nc nk nv n _ _ => ?_, by
      have := hW.load_exact.1
      omega, hW.load_exact.1, hW.load_exact.2, ?_, ?_,
    fun n hk hv => ⟨span_lt hstr.key_ge hk, span_lt hstr.value_ge hv⟩⟩
  · rcases hW with hL | hL
    · exact Or.inl hL.capacity_eq
    · exact Or.inr hL.pow
  · have hL := hW.live (by omega)
    exact ⟨hL.load, hL.exists_empty⟩
  · exact (hW.live (by omega)).reach i hi ho
  · exact (hW.live (by omega)).locateExit_ne key tomb
  · exact (hW.prepared_self hg).capacity_pos
  · exact (hW.prepared_resize hm).locateExit_ne key tomb
  · exact (hW.room_grown hk hv).reinsertSlot_isSome nc nk nv n _
  · rcases hW with hL | hL
    · rw [hL.capacity_eq]
      norm_num
    · exact hL.key_fits
  · rcases hW with hL | hL
    · rw [hL.capacity_eq]
      norm_num
    · exact hL.value_fits

/-- A key or a value of one byte. -/
def single (b : UInt8) : Option (Vector UInt8 1) := some (Vector.replicate 1 b)

/-- Five keys are put and two of them removed; the put of a sixth finds their tombstones and grows
the table, and one more key is removed. -/
def churn : List (Call 1 1) :=
  [.put (single 0) (single 10), .put (single 1) (single 11), .put (single 2) (single 12),
    .put (single 3) (single 13), .put (single 4) (single 14), .remove (single 0),
    .remove (single 1), .put (single 5) (single 15), .remove (single 2)]

/-- Where `churn` leads: the growth left no tombstone. -/
theorem churn_run :
    ((system 1 1 pageAllocator none none).run
      ⟨lazyMap pageAllocator none none, ⟨0, []⟩, []⟩ churn).map
        (fun r => (r.map.capacity, r.map.len, r.map.tombstones)) = some (16, 3, 1) := by
  decide +kernel

theorem hashmap_invariant_churn :
    ∃ r, Reachable (system 1 1 pageAllocator none none) r ∧ r.map.capacity = 16 ∧
      r.map.controlBytes.count .occupied = 3 ∧ r.map.controlBytes.count .deleted = 1 ∧
      Distinct r.map ∧ ∃ i < 16, r.map.ctl i = .empty := by
  have h0 : Reachable (system 1 1 pageAllocator none none)
      ⟨lazyMap pageAllocator none none, ⟨0, []⟩, []⟩ :=
    .init ⟨0, ⟨0, []⟩, .ok, by norm_num, rfl, rfl⟩
  obtain ⟨r, hrun, he⟩ := Option.map_eq_some_iff.mp churn_run
  obtain ⟨hcap, hlen, htomb⟩ := Prod.mk.inj he |>.imp_right Prod.mk.inj
  obtain ⟨_, _, hoccupied, hdeleted, hload, hdistinct, _⟩ :=
    hashmap_invariant (by decide) (by decide) (h0.run hrun)
  have hempty := (hload (by omega)).2
  rw [hcap] at hempty
  exact ⟨r, h0.run hrun, hcap, hoccupied.symm.trans hlen, hdeleted.symm.trans htomb,
    hdistinct default_lawful.toCoherent, hempty⟩

/-- Two puts under callbacks that call all keys equal, but hash them apart. -/
theorem hashmap_equal_keys_stored_twice :
    ∃ r, Reachable (system 1 1 pageAllocator (some fun k => k[0].toUInt64) (some fun _ _ => true)) r ∧
      ∃ i < r.map.capacity, ∃ j < r.map.capacity, i ≠ j ∧ r.map.ctl i = .occupied ∧
        r.map.ctl j = .occupied ∧ r.map.keyEq (r.map.keyAt i) (r.map.keyAt j) = true := by
  obtain ⟨m, heap, hinit⟩ : ∃ m heap, init pageAllocator 1 1 0 (some fun k => k[0].toUInt64)
      (some fun _ _ => true) ⟨0, []⟩ = (.ok, some m, heap) := ⟨_, _, rfl⟩
  have h0 : Reachable (system 1 1 pageAllocator (some fun k => k[0].toUInt64)
      (some fun _ _ => true)) ⟨m, heap, []⟩ :=
    .init ⟨0, ⟨0, []⟩, .ok, by norm_num, hinit, rfl⟩
  refine ⟨_, (h0.step (e := .put (some #v[0]) (some #v[5])) rfl).step
    (e := .put (some #v[1]) (some #v[6])) rfl, 0, ?_, 1, ?_, by norm_num, ?_, ?_, ?_⟩
  all_goals cases hinit
  · decide
  · decide
  · rfl
  · rfl
  · rfl

/-! ## Refinement -/

/-- The map holds what the history says. -/
def Run.Refines (keyEq : Option (KeyEqFn ks)) (r : Run ks vs) : Prop :=
  ∀ k v, expected (keyEq.getD defaultKeyEq) r.history k = some v ↔ r.map.Holds k v

theorem expected_put (keyEq : KeyEqFn ks) (key : Vector UInt8 ks) (value : Vector UInt8 vs)
    (rc : Status) (history : List (Call ks vs × Outcome vs)) (k : Vector UInt8 ks) :
    expected keyEq ((.put (some key) (some value), .status rc) :: history) k =
      if rc = .ok ∧ keyEq key k = true then some value else expected keyEq history k := by
  cases rc <;> simp [expected]

theorem Run.Refines.step {r : Run ks vs} (hR : r.Refines keyEq) (hI : r.Inv hash keyEq)
    (hD : Distinct r.map) (hl : Lawful r.map.hash r.map.keyEq) (c : Call ks vs) :
    (r.step c).Refines keyEq := by
  have hk := hI.keyEq_eq
  cases c with
  | put key value =>
    rcases key with _ | key
    · exact hR
    rcases value with _ | value
    · exact hR
    intro k v
    show expected _ ((.put (some key) (some value), .status _) :: r.history) k = some v ↔
      (r.map.putBytes (some key) (some value) r.heap).2.1.Holds k v
    rw [expected_put]
    rcases hI.wf.holds_put hl hD key value r.heap with ⟨hrc, hm⟩ | ⟨hrc, hm⟩
    · rw [if_neg (fun hh => hrc hh.1), hm]
      exact hR k v
    · rw [hm, hk]
      by_cases hkey : keyEq.getD defaultKeyEq key k = true
      · rw [if_pos ⟨hrc, hkey⟩, if_pos hkey, Option.some_inj]
        exact eq_comm
      · rw [if_neg (fun hh => hkey hh.2), if_neg hkey]
        exact hR k v
  | get key => exact hR
  | contains key => exact hR
  | remove key =>
    rcases key with _ | key
    · exact hR
    intro k v
    show (if keyEq.getD defaultKeyEq key k = true then none
      else expected (keyEq.getD defaultKeyEq) r.history k) = some v ↔
      (r.map.remove (some key)).2.Holds k v
    rw [hI.wf.holds_remove hl hD, hk, ← hR k v]
    by_cases hkey : keyEq.getD defaultKeyEq key k = true
    · simp [hkey]
    · simp [hkey]
  | len => exact hR
  | clear =>
    intro k v
    have := hI.wf.not_holds_clear k v
    exact ⟨fun hh => by simp [Run.step, Run.exec, expected] at hh, fun hh => absurd hh this⟩

theorem reachable_refines (hks : ks ≤ sizeMax - maxAlign) (hvs : vs ≤ sizeMax - maxAlign)
    (hl : Lawful (hash.getD defaultHash) (keyEq.getD defaultKeyEq)) {r : Run ks vs}
    (h : Reachable (system ks vs a hash keyEq) r) : r.Refines keyEq := by
  refine h.induct_of (P := fun r => r.Refines keyEq)
    (fun _ hs => And.intro (reachable_inv hks hvs hs) (reachable_distinct hks hvs hl.toCoherent hs))
    ?_ ?_
  · rintro r ⟨_, _, _, _, hi, hnil⟩ k v
    rw [hnil]
    constructor
    · intro hh
      simp [expected] at hh
    · rintro ⟨i, _, ho, _⟩
      exact absurd ho (init_not_occupied hi i)
  · rintro r c t ⟨hI, hD⟩ hR hs
    cases hs
    refine hR.step hI hD ?_ c
    rw [hI.hash_eq, hI.keyEq_eq]
    exact hl

end Runs

end Hashmap

end D4np
