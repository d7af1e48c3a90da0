import D4np.Ds.HashmapRun

/-!
# Calls that are given pointers into the table

`d4np_hashmap_get` hands out pointers to stored values, and they may come back as the key or the
value of a later call.  A lookup or a removal has read its key when it writes, and so has a put into
a table with room.  A put that moves the table reads what the allocator left of the old one, and
stores that (`hashmap_put_stores_freed`).  Where no such put is given a pointer into the table, a
call reads what its pointers led to when it was made (`Run.stepAt_eq`), and the map is the finite
map of its history.
-/

namespace D4np

open Word64 Probing TransitionSystem

namespace Hashmap

variable {ks vs : ℕ}

/-- A call with the pointers it is given; `freed` is the memory once a put has freed the old
blocks. -/
inductive Request (ks vs : ℕ)
  | put (key : Option (Pointer ks)) (value : Option (Pointer vs)) (freed : ByteMem.Mem)
  | get (key : Option (Pointer ks))
  | contains (key : Option (Pointer ks))
  | remove (key : Option (Pointer ks))
  | len
  | clear

/-- The pointer leads to bytes of the caller's own. -/
def Pointer.Own {n : ℕ} : Pointer n → Prop
  | .own _ => True
  | .table _ => False

/-- The pointer leads to bytes of the caller's own, or into the value of a slot. -/
def Pointer.Valid {n : ℕ} (m : Hashmap ks vs) : Pointer n → Prop
  | .own _ => True
  | .table addr => ∃ base ∈ m.values, ∃ i < m.capacity,
      base + wrap (i * m.valueStride) ≤ addr ∧ addr + n ≤ base + wrap (i * m.valueStride) + vs

/-- The allocator grants the next three requests, for the blocks of a table of `n` slots. -/
def Grants (m : Hashmap ks vs) (n : ℕ) (h : Heap) : Prop :=
  (m.allocator.alloc h.requests n maxAlign).isSome ∧
  (m.allocator.alloc (h.requests + 1) (wrap (n * m.keyStride)) maxAlign).isSome ∧
  (m.allocator.alloc (h.requests + 2) (wrap (n * m.valueStride)) maxAlign).isSome

/-- A put moves the table: it needs growth, and the new table has a size that can be asked for and
is granted. -/
def Moves (m : Hashmap ks vs) (h : Heap) : Prop :=
  m.needsGrowth ∧ m.grown ≤ sizeMax / m.keyStride ∧ m.grown ≤ sizeMax / m.valueStride ∧
    m.Grants m.grown h

namespace Request

/-- The call, with the bytes its pointers lead to when it is made. -/
def call (m : Hashmap ks vs) : Request ks vs → Call ks vs
  | .put key value _ => .put (key.map (·.read m)) (value.map (·.read m))
  | .get key => .get (key.map (·.read m))
  | .contains key => .contains (key.map (·.read m))
  | .remove key => .remove (key.map (·.read m))
  | .len => .len
  | .clear => .clear

/-- Its pointers are valid. -/
def Valid (m : Hashmap ks vs) : Request ks vs → Prop
  | .put key value _ => (∀ p ∈ key, p.Valid m) ∧ ∀ p ∈ value, p.Valid m
  | .get key | .contains key | .remove key => ∀ p ∈ key, p.Valid m
  | .len | .clear => True

/-- It is no put that moves the table and is given a pointer into it. -/
def Fresh (r : Run ks vs) : Request ks vs → Prop
  | .put (some key) (some value) _ => r.map.Moves r.heap → key.Own ∧ value.Own
  | _ => True

end Request

instance {n : ℕ} (p : Pointer n) : Decidable p.Own :=
  match p with
  | .own _ => inferInstanceAs (Decidable True)
  | .table _ => inferInstanceAs (Decidable False)

instance {n : ℕ} (m : Hashmap ks vs) (p : Pointer n) : Decidable (p.Valid m) :=
  match p with
  | .own _ => inferInstanceAs (Decidable True)
  | .table _ => inferInstanceAs (Decidable (∃ base ∈ m.values, ∃ i < m.capacity, _ ∧ _))

instance (m : Hashmap ks vs) (n : ℕ) (h : Heap) : Decidable (m.Grants n h) :=
  inferInstanceAs (Decidable (_ ∧ _ ∧ _))

instance (m : Hashmap ks vs) (h : Heap) : Decidable (m.Moves h) :=
  inferInstanceAs (Decidable (_ ∧ _ ∧ _ ∧ _))

instance (m : Hashmap ks vs) (q : Request ks vs) : Decidable (q.Valid m) :=
  match q with
  | .put _ _ _ => inferInstanceAs (Decidable (_ ∧ _))
  | .get key | .contains key | .remove key =>
    inferInstanceAs (Decidable (∀ p ∈ key, p.Valid m))
  | .len | .clear => inferInstanceAs (Decidable True)

instance (r : Run ks vs) (q : Request ks vs) : Decidable (q.Fresh r) :=
  match q with
  | .put (some _) (some _) _ => inferInstanceAs (Decidable (_ → _))
  | .put none _ _ | .put (some _) none _ | .get _ | .contains _ | .remove _ | .len | .clear =>
    inferInstanceAs (Decidable True)

namespace Run

/-- What a call returns and leaves behind. -/
def execAt (r : Run ks vs) : Request ks vs → Outcome vs × Hashmap ks vs × Heap
  | .put key value freed =>
    let (rc, m, h) := r.map.put key value freed r.heap
    (.status rc, m, h)
  | q => r.exec (q.call r.map)

/-- One call; the history keeps the bytes its pointers led to. -/
def stepAt (r : Run ks vs) (q : Request ks vs) : Run ks vs :=
  ⟨(r.execAt q).2.1, (r.execAt q).2.2, (q.call r.map, (r.execAt q).1) :: r.history⟩

end Run

theorem Pointer.Own.readFreed_eq {n : ℕ} {p : Pointer n} (h : p.Own) (freed : ByteMem.Mem)
    (m : Hashmap ks vs) : p.readFreed freed = p.read m := by
  cases p with
  | own bytes => rfl
  | table addr => exact h.elim

/-- The table is replaced exactly if the sizes do not overflow and the blocks are granted. -/
theorem resize_ok_iff (m : Hashmap ks vs) (n : ℕ) (h : Heap) :
    (m.resize n h).1 = .ok ↔
      n ≤ sizeMax / m.keyStride ∧ n ≤ sizeMax / m.valueStride ∧ m.Grants n h := by
  simp only [resize, d4npAlloc, Grants]
  by_cases hguard : n > sizeMax / m.keyStride ∨ n > sizeMax / m.valueStride
  · rw [if_pos hguard]
    refine iff_of_false (by simp) fun hle => ?_
    omega
  · rw [if_neg hguard, and_iff_right (by omega), and_iff_right (by omega)]
    rcases m.allocator.alloc h.requests n maxAlign with _ | nc
    · simp
    rcases m.allocator.alloc (h.requests + 1) (wrap (n * m.keyStride)) maxAlign with _ | nk
    · simp
    rcases m.allocator.alloc (h.requests + 1 + 1) (wrap (n * m.valueStride)) maxAlign with _ | nv
    · simp
    · simp

/-- A put that does not move the table, or is given no pointer into it, reads what its pointers
lead to when it is called. -/
theorem put_eq_of_own {m : Hashmap ks vs} {key : Pointer ks} {value : Pointer vs} {h : Heap}
    (hown : m.Moves h → key.Own ∧ value.Own) (freed : ByteMem.Mem) :
    m.put (some key) (some value) freed h =
      m.putBytes (some (key.read m)) (some (value.read m)) h := by
  simp only [put, putBytes]
  by_cases hg : m.needsGrowth
  · rw [if_pos hg, if_pos hg]
    rcases hr : m.resize m.grown h with ⟨rc, m', h'⟩
    by_cases hrc : rc = .ok
    · subst hrc
      obtain ⟨hk, hv⟩ := hown ⟨hg, (resize_ok_iff m m.grown h).mp (by rw [hr])⟩
      rw [hk.readFreed_eq freed m, hv.readFreed_eq freed m]
    · cases rc <;> first | rfl | exact absurd rfl hrc
  · rw [if_neg hg, if_neg hg]

/-- **A call** reads what its pointers lead to when it is made. -/
theorem Run.stepAt_eq {r : Run ks vs} {q : Request ks vs} (h : q.Fresh r) :
    r.stepAt q = r.step (q.call r.map) := by
  rcases q with ⟨_ | key, value, freed⟩ | _ | _ | _ | _ | _
  · rfl
  · rcases value with _ | value
    · rfl
    · unfold stepAt step execAt
      simp only [put_eq_of_own h freed]
      rfl
  all_goals rfl

section Runs

variable {a : Allocator} {hash : Option (HashFn ks)} {keyEq : Option (KeyEqFn ks)}

end Runs

end Hashmap

end D4np
