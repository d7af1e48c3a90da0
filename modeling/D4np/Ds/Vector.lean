import D4np.Core.Ledger
import D4np.Lib.ByteMem
import D4np.Lib.TransitionSystem
import Mathlib.Tactic

/-!
# The dynamic array

A block of `capacity` elements of `elem_size` bytes, of which the first `len` are in use.  The block
is given by its pointer and its contents, which a reallocation carries over as far as both sizes
reach.  An element is a vector of `elem_size` bytes at a multiple of it.

The bytes of the elements lie below `capacity * elem_size`, so a growth moves them unchanged and a
push writes behind them: the block holds what the history of the calls says (`Refines`).
-/

namespace D4np

open Word64 ByteMem TransitionSystem

/-- `d4np_vector_t` for elements of `es` bytes. -/
structure Vec (es : ℕ) where
  allocator : Allocator
  data : Option ℕ
  bytes : Mem
  len : ℕ
  capacity : ℕ

namespace Vec

variable {es : ℕ}

/-- `D4NP_VECTOR_MIN_CAPACITY`. -/
def minCapacity : ℕ := 8

/-- The vector with its storage moved to the block `b` of `newCapacity` elements. -/
def moved (v : Vec es) (newCapacity : ℕ) (b : Block) : Vec es :=
  { v with
    data := some b.addr
    bytes := (resized v.data v.bytes (wrap (v.capacity * es)) (wrap (newCapacity * es)) b).bytes
    capacity := newCapacity }

/-- `d4np_vector_reserve`. -/
def reserve (v : Vec es) (minCapacity : ℕ) (h : Heap) : Status × Vec es × Heap :=
  if minCapacity ≤ v.capacity then (.ok, v, h)
  else if minCapacity > sizeMax / es then (.errOverflow, v, h)
  else
    let newBytes := wrap (minCapacity * es)
    let oldBytes := wrap (v.capacity * es)
    match d4npRealloc v.allocator v.data v.bytes oldBytes newBytes maxAlign h with
    | (none, h) => (.errOutOfMemory, v, h)
    | (some p, h) =>
      (.ok, { v with data := some p.addr, bytes := p.bytes, capacity := minCapacity }, h)

/-- `d4np_vector_init`: the status and the vector, which is there even when its first block was
refused. -/
def init (allocator : Allocator) (es initialCapacity : ℕ) (h : Heap) :
    Status × Option (Vec es) × Heap :=
  if es = 0 then (.errInvalidArgument, none, h)
  else
    let v : Vec es := ⟨allocator, none, fun _ => 0, 0, 0⟩
    if initialCapacity > 0 then
      let (rc, v, h) := v.reserve initialCapacity h
      (rc, some v, h)
    else (.ok, some v, h)

/-- `d4np_vector_destroy`. -/
def destroy (v : Vec es) (h : Heap) : Vec es × Heap :=
  if v.data = none then (v, h)
  else
    ({ v with data := none, len := 0, capacity := 0 },
      d4npFree v.data (wrap (v.capacity * es)) h)

/-- The copy and the count of `d4np_vector_push`. -/
def store (v : Vec es) (elem : Vector UInt8 es) : Vec es :=
  { v with bytes := writeAt v.bytes (wrap (v.len * es)) elem, len := wrap (v.len + 1) }

/-- The capacity `d4np_vector_push` grows to. -/
def grown (v : Vec es) : ℕ := if v.capacity = 0 then minCapacity else wrap (v.capacity * 2)

/-- `d4np_vector_push`; a null element is `none`. -/
def push (v : Vec es) (elem : Option (Vector UInt8 es)) (h : Heap) : Status × Vec es × Heap :=
  match elem with
  | none => (.errInvalidArgument, v, h)
  | some elem =>
    if v.len = v.capacity then
      match v.reserve v.grown h with
      | (.ok, v, h) => (.ok, v.store elem, h)
      | (rc, v, h) => (rc, v, h)
    else (.ok, v.store elem, h)

/-- The element at offset `i * elem_size`. -/
def elem (v : Vec es) (i : ℕ) : Vector UInt8 es := readAt v.bytes (wrap (i * es)) es

/-- `d4np_vector_pop`; `out` says whether the caller passed a place to copy the element to. -/
def pop (v : Vec es) (out : Bool) : Status × Option (Vector UInt8 es) × Vec es :=
  if v.len = 0 then (.errNotFound, none, v)
  else
    let v := { v with len := sub v.len 1 }
    (.ok, if out then some (v.elem v.len) else none, v)

/-- `d4np_vector_at`: the offset of the element the pointer returned points at. -/
def atIndex (v : Vec es) (index : ℕ) : Option ℕ :=
  if index ≥ v.len then none else some (wrap (index * es))

/-- `d4np_vector_is_empty`. -/
def isEmpty (v : Vec es) : Bool := v.len == 0

/-- `d4np_vector_clear`. -/
def clear (v : Vec es) : Vec es := { v with len := 0 }

/-- The elements in use. -/
def elems (v : Vec es) : List (Vector UInt8 es) := (List.range v.len).map v.elem

/-! ## Runs -/

/-- A call on a vector. -/
inductive Call (es : ℕ)
  | reserve (minCapacity : ℕ)
  | push (elem : Option (Vector UInt8 es))
  | pop (out : Bool)
  | atIndex (index : ℕ)
  | len
  | capacity
  | isEmpty
  | clear

/-- What a call returns; for `d4np_vector_at`, the bytes behind the pointer. -/
inductive Outcome (es : ℕ)
  | status (rc : Status)
  | popped (rc : Status) (out : Option (Vector UInt8 es))
  | elem (e : Option (Vector UInt8 es))
  | size (n : ℕ)
  | bool (b : Bool)
  | done

/-- The call returned an error. -/
def Outcome.failed : Outcome es → Bool
  | .status rc | .popped rc _ => rc != .ok
  | _ => false

/-- A vector in use, with the calls made so far and what they returned, newest first. -/
structure Run (es : ℕ) where
  vec : Vec es
  heap : Heap
  history : List (Call es × Outcome es)

namespace Run

/-- What a call returns and leaves behind. -/
def exec (r : Run es) : Call es → Outcome es × Vec es × Heap
  | .reserve minCapacity =>
    let (rc, v, h) := r.vec.reserve minCapacity r.heap
    (.status rc, v, h)
  | .push elem =>
    let (rc, v, h) := r.vec.push elem r.heap
    (.status rc, v, h)
  | .pop out =>
    let (rc, e, v) := r.vec.pop out
    (.popped rc e, v, r.heap)
  | .atIndex index =>
    (.elem ((r.vec.atIndex index).map fun offset => readAt r.vec.bytes offset es), r.vec, r.heap)
  | .len => (.size r.vec.len, r.vec, r.heap)
  | .capacity => (.size r.vec.capacity, r.vec, r.heap)
  | .isEmpty => (.bool r.vec.isEmpty, r.vec, r.heap)
  | .clear => (.done, r.vec.clear, r.heap)

/-- One call. -/
def step (r : Run es) (c : Call es) : Run es :=
  ⟨(r.exec c).2.1, (r.exec c).2.2, (c, (r.exec c).1) :: r.history⟩

end Run

/-- The runs of a vector from any initialisation that finds the given heap. -/
def system (a : Allocator) (es : ℕ) (h₀ : Heap) : System (Run es) (Call es) where
  init r := ∃ initialCapacity rc, initialCapacity < 2 ^ 64 ∧
    init a es initialCapacity h₀ = (rc, some r.vec, r.heap) ∧ r.history = []
  step r c := some (r.step c)

/-- The sequence the calls of a history have made. -/
def expected : List (Call es × Outcome es) → List (Vector UInt8 es)
  | [] => []
  | (.push (some e), .status .ok) :: history => expected history ++ [e]
  | (.pop _, .popped .ok _) :: history => (expected history).dropLast
  | (.clear, _) :: _ => []
  | _ :: history => expected history

/-! ## Storage -/

/-- The elements in use fit in the block, the block fits in half the address space, and there is one
if and only if it has room. -/
structure Wf (v : Vec es) : Prop where
  pos : 0 < es
  le : v.len ≤ v.capacity
  fits : v.capacity * es < 2 ^ 63
  null : v.data = none ↔ v.capacity = 0

variable {v : Vec es}

theorem Wf.capacity_lt (h : Wf v) : v.capacity < 2 ^ 63 := by
  have := Nat.le_mul_of_pos_right v.capacity h.pos
  have := h.fits
  omega

/-- An element below the capacity lies inside the block. -/
theorem Wf.span (h : Wf v) {i : ℕ} (hi : i < v.capacity) :
    wrap (i * es) = i * es ∧ i * es + es ≤ v.capacity * es := by
  have hle := span_end_le hi es
  have := h.fits
  exact ⟨wrap_of_lt (by omega), hle⟩

theorem elem_eq_of_bytes {v' : Vec es} (h : Wf v) {i : ℕ} (hi : i < v.capacity)
    (hb : ∀ x < v.capacity * es, v'.bytes x = v.bytes x) : v'.elem i = v.elem i := by
  obtain ⟨hw, hle⟩ := h.span hi
  refine readAt_congr fun j hj => hb _ ?_
  rw [hw]
  omega

/-- What `d4np_vector_reserve` does, and what it asks of the allocator. -/
theorem reserve_cases (v : Vec es) (n : ℕ) (h : Heap) :
    (n ≤ v.capacity ∧ v.reserve n h = (.ok, v, h)) ∨
    v.reserve n h = (.errOverflow, v, h) ∨
    v.reserve n h = (.errOutOfMemory, v, ⟨h.requests + 1,
      .realloc v.data (wrap (v.capacity * es)) (wrap (n * es)) maxAlign none :: h.log⟩) ∨
    ∃ b, v.capacity < n ∧ n ≤ sizeMax / es ∧
      v.allocator.alloc h.requests (wrap (n * es)) maxAlign = some b ∧
      v.reserve n h = (.ok, v.moved n b, ⟨h.requests + 1,
        .realloc v.data (wrap (v.capacity * es)) (wrap (n * es)) maxAlign (some b.addr) ::
          h.log⟩) := by
  unfold reserve
  by_cases hle : n ≤ v.capacity
  · rw [if_pos hle]
    exact Or.inl ⟨hle, rfl⟩
  rw [if_neg hle]
  by_cases hover : n > sizeMax / es
  · rw [if_pos hover]
    exact Or.inr (Or.inl rfl)
  rw [if_neg hover]
  rcases d4npRealloc_cases v.allocator v.data v.bytes (wrap (v.capacity * es)) (wrap (n * es))
    maxAlign h with he | ⟨b, hb, he⟩
  · refine Or.inr (Or.inr (Or.inl ?_))
    simp only [he]
  · refine Or.inr (Or.inr (Or.inr ⟨b, by omega, by omega, hb, ?_⟩))
    simp only [he]
    rfl

/-- A move to a larger block keeps the elements. -/
theorem Wf.moved (h : Wf v) (ha : v.allocator.Bounded) {n : ℕ} {b : Block} {requests : ℕ}
    (hlt : v.capacity < n) (hn : n ≤ sizeMax / es)
    (hb : v.allocator.alloc requests (wrap (n * es)) maxAlign = some b) :
    Wf (v.moved n b) ∧ (v.moved n b).elems = v.elems ∧ wrap (n * es) = n * es := by
  have hfit := h.fits
  have hmul := (Nat.le_div_iff_mul_le h.pos).mp hn
  have hw : wrap (n * es) = n * es := by
    unfold sizeMax Word64.maxWord at hmul
    exact wrap_of_lt (by omega)
  have hle := Nat.mul_le_mul_right es hlt.le
  have hbound := ha hb
  rw [hw] at hbound
  refine ⟨⟨h.pos, h.le.trans hlt.le, hbound, ?_⟩, ?_, hw⟩
  · show some b.addr = none ↔ n = 0
    exact iff_of_false nofun (by omega)
  · unfold elems
    apply List.map_congr_left
    intro i hi
    have hlen := h.le
    have hi' : i < v.capacity := by
      have : i < v.len := List.mem_range.mp hi
      omega
    refine elem_eq_of_bytes h hi' fun x hx => ?_
    show (resized v.data v.bytes _ _ b).bytes x = v.bytes x
    rw [hw, wrap_of_lt (show v.capacity * es < 2 ^ 64 by omega)]
    have hcap : v.capacity ≠ 0 := by omega
    exact resized_bytes (fun hn => hcap (h.null.mp hn)) hx (by omega)

/-- **Reservation.** -/
theorem Wf.reserve (h : Wf v) (ha : v.allocator.Bounded) (n : ℕ) (heap : Heap) :
    Wf (v.reserve n heap).2.1 ∧ (v.reserve n heap).2.1.elems = v.elems ∧
    (v.reserve n heap).2.1.len = v.len ∧ (v.reserve n heap).2.1.allocator = v.allocator ∧
    ((v.reserve n heap).1 ≠ .ok → (v.reserve n heap).2.1 = v) ∧
    ((v.reserve n heap).1 = .ok → n ≤ (v.reserve n heap).2.1.capacity) := by
  rcases reserve_cases v n heap with ⟨hle, he⟩ | he | he | ⟨b, hlt, hn, hb, he⟩
  · rw [he]
    exact ⟨h, rfl, rfl, rfl, fun _ => rfl, fun _ => hle⟩
  · rw [he]
    exact ⟨h, rfl, rfl, rfl, fun _ => rfl, nofun⟩
  · rw [he]
    exact ⟨h, rfl, rfl, rfl, fun _ => rfl, nofun⟩
  · rw [he]
    obtain ⟨hW, hel, _⟩ := h.moved ha hlt hn hb
    exact ⟨hW, hel, rfl, rfl, fun hne => absurd rfl hne, fun _ => le_refl n⟩

/-- An element stored behind the others. -/
theorem Wf.store (h : Wf v) (hlt : v.len < v.capacity) (e : Vector UInt8 es) :
    Wf (v.store e) ∧ (v.store e).elems = v.elems ++ [e] ∧ (v.store e).len = v.len + 1 := by
  have hcap := h.capacity_lt
  have hlen : (v.store e).len = v.len + 1 := wrap_of_lt (by omega)
  refine ⟨⟨h.pos, ?_, h.fits, h.null⟩, ?_, hlen⟩
  · rw [hlen]
    exact hlt
  · have hold : ∀ i ∈ List.range v.len, (v.store e).elem i = v.elem i := by
      intro i hi
      have hi : i < v.len := List.mem_range.mp hi
      refine readAt_writeAt_of_disjoint _ _ ?_
      rw [(h.span hlt).1, (h.span (hi.trans hlt)).1]
      exact span_disjoint hi.ne (le_refl es)
    unfold elems
    rw [hlen, List.range_succ, List.map_append, List.map_congr_left hold]
    congr 1
    exact congrArg (fun x => [x]) (readAt_writeAt v.bytes (wrap (v.len * es)) e)

/-- A capacity below half the address space can be doubled. -/
theorem capacity_lt_grown (hcap : v.capacity < 2 ^ 63) : v.capacity < v.grown := by
  unfold grown minCapacity
  split_ifs with hz
  · omega
  · rw [wrap_of_lt (by omega)]
    omega

/-- **Push.** It fails and changes nothing, or it stores into a vector with room that holds the same
elements. -/
theorem Wf.push_cases (h : Wf v) (ha : v.allocator.Bounded) (e : Vector UInt8 es) (heap : Heap) :
    (∃ rc heap', rc ≠ .ok ∧ v.push (some e) heap = (rc, v, heap')) ∨
    ∃ v' heap', Wf v' ∧ v'.elems = v.elems ∧ v'.len = v.len ∧ v'.allocator = v.allocator ∧
      v'.len < v'.capacity ∧ v.push (some e) heap = (.ok, v'.store e, heap') := by
  simp only [push]
  by_cases hfull : v.len = v.capacity
  · rw [if_pos hfull]
    obtain ⟨hW, hel, hlen, hal, hfail, hok⟩ := h.reserve ha v.grown heap
    rcases hr : v.reserve v.grown heap with ⟨rc, v', heap'⟩
    rw [hr] at hW hel hlen hal hfail hok
    by_cases hrc : rc = .ok
    · subst hrc
      have hgt := capacity_lt_grown h.capacity_lt
      have hge := hok rfl
      exact Or.inr ⟨v', heap', hW, hel, hlen, hal, by simp only at hlen hge; omega, rfl⟩
    · have hv := hfail hrc
      simp only at hv
      subst hv
      refine Or.inl ⟨rc, heap', hrc, ?_⟩
      cases rc <;> first | rfl | exact absurd rfl hrc
  · rw [if_neg hfull]
    exact Or.inr ⟨v, heap, h, rfl, rfl, rfl, by have := h.le; omega, rfl⟩

/-- The block held is live with the size of the capacity. -/
def Sized (v : Vec es) (h : Heap) : Prop :=
  ∀ p, v.data = some p → liveSize h.log p = some (v.capacity * es)

theorem Sized.reserve {heap : Heap} (hs : Sized v heap) (h : Wf v) (ha : v.allocator.Bounded)
    (n : ℕ) : Sized (v.reserve n heap).2.1 (v.reserve n heap).2.2 := by
  rcases reserve_cases v n heap with ⟨_, he⟩ | he | he | ⟨b, hlt, hn, hb, he⟩
  · rw [he]
    exact hs
  · rw [he]
    exact hs
  · rw [he]
    exact hs
  · rw [he]
    intro p hp
    replace hp : some b.addr = some p := hp
    cases hp
    show liveSize (.realloc v.data _ (wrap (n * es)) maxAlign (some b.addr) :: heap.log) b.addr =
      some (n * es)
    simp only [liveSize, if_pos]
    rw [(h.moved ha hlt hn hb).2.2]

/-- A push reserves room if the block is full, and then stores into it. -/
theorem push_induct {P : Vec es → Heap → Prop} {heap : Heap} (h : P v heap)
    (hreserve : P (v.reserve v.grown heap).2.1 (v.reserve v.grown heap).2.2)
    (hstore : ∀ {v : Vec es} {heap : Heap}, P v heap → ∀ e, P (v.store e) heap)
    (e : Option (Vector UInt8 es)) : P (v.push e heap).2.1 (v.push e heap).2.2 := by
  rcases e with _ | e
  · exact h
  simp only [push]
  split_ifs
  · split
    · rename_i he
      rw [he] at hreserve
      exact hstore hreserve e
    · rename_i he
      rw [he] at hreserve
      exact hreserve
  · exact hstore h e

theorem Sized.push {heap : Heap} (hs : Sized v heap) (h : Wf v) (ha : v.allocator.Bounded)
    (e : Option (Vector UInt8 es)) : Sized (v.push e heap).2.1 (v.push e heap).2.2 :=
  push_induct hs (hs.reserve h ha v.grown) (fun hs _ => hs) e

theorem pop_empty (hlen : v.len = 0) (out : Bool) : v.pop out = (.errNotFound, none, v) := by
  unfold pop
  rw [if_pos hlen]

theorem Wf.pop (h : Wf v) (hlen : v.len ≠ 0) (out : Bool) :
    ∃ v', v.pop out = (.ok, if out then some (v.elem (v.len - 1)) else none, v') ∧ Wf v' ∧
      v'.elems = v.elems.dropLast ∧ v'.data = v.data ∧ v'.capacity = v.capacity ∧
      v'.allocator = v.allocator := by
  have hcap := h.capacity_lt
  have hle := h.le
  have hsub : sub v.len 1 = v.len - 1 := sub_one (by omega) (by omega)
  refine ⟨{ v with len := v.len - 1 }, ?_, ⟨h.pos, by simp only; omega, h.fits, h.null⟩, ?_, rfl, rfl,
    rfl⟩
  · simp only [Vec.pop, if_neg hlen, hsub]
    rfl
  · obtain ⟨n, hn⟩ := Nat.exists_eq_succ_of_ne_zero hlen
    show (List.range (v.len - 1)).map v.elem = ((List.range v.len).map v.elem).dropLast
    rw [hn, Nat.succ_sub_one, List.range_succ, List.map_append, List.map_singleton,
      List.dropLast_concat]

/-! ## Refinement -/

variable {a : Allocator}

/-- The vector is well formed, holds what the history says, and its block has its size. -/
structure Run.Inv (a : Allocator) (r : Run es) : Prop where
  wf : Wf r.vec
  allocator_eq : r.vec.allocator = a
  refines : r.vec.elems = expected r.history
  sized : Sized r.vec r.heap

theorem elems_length (v : Vec es) : v.elems.length = v.len := by
  simp [elems]

theorem expected_push (e : Vector UInt8 es) (rc : Status) (history : List (Call es × Outcome es)) :
    expected ((.push (some e), .status rc) :: history) =
      if rc = .ok then expected history ++ [e] else expected history := by
  cases rc <;> rfl

theorem Run.Inv.step {r : Run es} (ha : a.Bounded) (h : r.Inv a) (c : Call es) :
    (r.step c).Inv a := by
  have ha' : r.vec.allocator.Bounded := by rw [h.allocator_eq]; exact ha
  cases c with
  | reserve n =>
    obtain ⟨hW, hel, _, hal, _⟩ := h.wf.reserve ha' n r.heap
    exact ⟨hW, hal.trans h.allocator_eq, hel.trans h.refines, h.sized.reserve h.wf ha' n⟩
  | push e =>
    have hsized := h.sized.push h.wf ha' e
    rcases e with _ | e
    · exact ⟨h.wf, h.allocator_eq, h.refines, h.sized⟩
    rcases h.wf.push_cases ha' e r.heap with ⟨rc, heap', hrc, he⟩ | ⟨v', heap', hW, hel, _, hal, hlt, he⟩
    · refine ⟨?_, ?_, ?_, hsized⟩
      · show Wf (r.vec.push (some e) r.heap).2.1
        rw [he]
        exact h.wf
      · show (r.vec.push (some e) r.heap).2.1.allocator = a
        rw [he]
        exact h.allocator_eq
      · show (r.vec.push (some e) r.heap).2.1.elems =
          expected ((.push (some e), .status (r.vec.push (some e) r.heap).1) :: r.history)
        rw [he, expected_push, if_neg hrc]
        exact h.refines
    · obtain ⟨hW', hel', _⟩ := hW.store hlt e
      refine ⟨?_, ?_, ?_, hsized⟩
      · show Wf (r.vec.push (some e) r.heap).2.1
        rw [he]
        exact hW'
      · show (r.vec.push (some e) r.heap).2.1.allocator = a
        rw [he]
        exact hal.trans h.allocator_eq
      · show (r.vec.push (some e) r.heap).2.1.elems =
          expected ((.push (some e), .status (r.vec.push (some e) r.heap).1) :: r.history)
        rw [he, expected_push, if_pos rfl]
        show (v'.store e).elems = _
        rw [hel', hel, h.refines]
  | pop out =>
    by_cases hlen : r.vec.len = 0
    · unfold Run.step Run.exec
      simp only [pop_empty hlen]
      exact ⟨h.wf, h.allocator_eq, h.refines, h.sized⟩
    · obtain ⟨v', he, hW, hel, hdata, hcap, hal⟩ := h.wf.pop hlen out
      unfold Run.step Run.exec
      simp only [he]
      refine ⟨hW, hal.trans h.allocator_eq, ?_, ?_⟩
      · show v'.elems = (expected r.history).dropLast
        rw [hel, h.refines]
      · intro p hp
        replace hp : v'.data = some p := hp
        show liveSize r.heap.log p = some (v'.capacity * es)
        rw [hcap]
        exact h.sized p (hdata ▸ hp)
  | atIndex i => exact ⟨h.wf, h.allocator_eq, h.refines, h.sized⟩
  | len => exact ⟨h.wf, h.allocator_eq, h.refines, h.sized⟩
  | capacity => exact ⟨h.wf, h.allocator_eq, h.refines, h.sized⟩
  | isEmpty => exact ⟨h.wf, h.allocator_eq, h.refines, h.sized⟩
  | clear =>
    exact ⟨⟨h.wf.pos, Nat.zero_le _, h.wf.fits, h.wf.null⟩, h.allocator_eq, rfl, h.sized⟩

/-- What an initialisation leaves: the empty vector, or one that has been reserved room. -/
theorem init_cases {initialCapacity : ℕ} {heap heap' : Heap} {rc : Status} {v : Vec es}
    (h : init a es initialCapacity heap = (rc, some v, heap')) :
    0 < es ∧ ((v, heap') = (⟨a, none, fun _ => 0, 0, 0⟩, heap) ∨
      (⟨a, none, fun _ => 0, 0, 0⟩ : Vec es).reserve initialCapacity heap = (rc, v, heap')) := by
  unfold init at h
  by_cases hz : es = 0
  · rw [if_pos hz] at h
    cases h
  rw [if_neg hz] at h
  by_cases hc : initialCapacity > 0
  · simp only [if_pos hc] at h
    rcases hr : (⟨a, none, fun _ => 0, 0, 0⟩ : Vec es).reserve initialCapacity heap with ⟨rc', v', heap''⟩
    rw [hr] at h
    simp only [Prod.mk.injEq, Option.some.injEq] at h
    obtain ⟨rfl, rfl, rfl⟩ := h
    exact ⟨Nat.pos_of_ne_zero hz, Or.inr rfl⟩
  · simp only [if_neg hc, Prod.mk.injEq, Option.some.injEq] at h
    obtain ⟨_, rfl, rfl⟩ := h
    exact ⟨Nat.pos_of_ne_zero hz, Or.inl rfl⟩

theorem empty_wf (a : Allocator) (hes : 0 < es) : Wf (⟨a, none, fun _ => 0, 0, 0⟩ : Vec es) :=
  ⟨hes, le_refl 0, by simp, iff_of_true rfl rfl⟩

theorem init_inv (ha : a.Bounded) {initialCapacity : ℕ} {heap heap' : Heap} {rc : Status}
    {v : Vec es} (h : init a es initialCapacity heap = (rc, some v, heap')) :
    Wf v ∧ v.allocator = a ∧ v.elems = [] ∧ Sized v heap' := by
  obtain ⟨hes, he | he⟩ := init_cases h
  · cases he
    exact ⟨empty_wf a hes, rfl, rfl, nofun⟩
  · have hs : Sized (⟨a, none, fun _ => 0, 0, 0⟩ : Vec es) heap := nofun
    have hr := (empty_wf a hes).reserve ha initialCapacity heap
    have hs := hs.reserve (empty_wf a hes) ha initialCapacity
    rw [he] at hr hs
    exact ⟨hr.1, hr.2.2.2.1, hr.2.1, hs⟩

theorem reachable_inv (ha : a.Bounded) {h₀ : Heap} {r : Run es}
    (h : Reachable (system a es h₀) r) : r.Inv a := by
  refine h.induct (P := fun r => r.Inv a) ?_ ?_
  · rintro r ⟨n, rc, _, hi, hnil⟩
    obtain ⟨hW, hal, hel, hs⟩ := init_inv ha hi
    exact ⟨hW, hal, by rw [hel, hnil]; rfl, hs⟩
  · intro r c t hr hs
    cases hs
    exact hr.step ha c

theorem elems_getElem? (v : Vec es) (i : ℕ) :
    v.elems[i]? = if i < v.len then some (v.elem i) else none := by
  unfold elems
  split_ifs with hi
  · simp [hi]
  · rw [List.getElem?_eq_none]
    simpa using hi

/-- A call that fails leaves the vector as it was. -/
theorem Wf.exec_failed {r : Run es} (h : Wf r.vec) (ha : r.vec.allocator.Bounded) (c : Call es)
    (hf : (r.exec c).1.failed = true) : (r.exec c).2.1 = r.vec := by
  cases c with
  | reserve n =>
    refine (h.reserve ha n r.heap).2.2.2.2.1 ?_
    simpa [Run.exec, Outcome.failed] using hf
  | push e =>
    rcases e with _ | e
    · rfl
    rcases h.push_cases ha e r.heap with ⟨rc, heap', hrc, he⟩ | ⟨v', heap', _, _, _, _, _, he⟩
    · show (r.vec.push (some e) r.heap).2.1 = r.vec
      rw [he]
    · simp [Run.exec, Outcome.failed, he] at hf
  | pop out =>
    by_cases hlen : r.vec.len = 0
    · simp [Run.exec, pop_empty hlen]
    · obtain ⟨v', he, _⟩ := h.pop hlen out
      simp [Run.exec, Outcome.failed, he] at hf
  | atIndex i => rfl
  | len => rfl
  | capacity => rfl
  | isEmpty => rfl
  | clear => cases hf

/-- **The vector is a sequence.** In every state reached from an initialisation by any calls, with
an allocator that may refuse any request: the elements are those the successful pushes and pops
since the last clear have left, `d4np_vector_at` finds them and nothing else, and a pop copies out
the last one; the length is at most the capacity, and the block held has the size of the capacity;
every copy stays inside it; a call that fails changes nothing, and an initialisation that fails
leaves the empty vector. -/
theorem vector_refines_sequence (ha : a.Bounded) {h₀ : Heap} {r : Run es}
    (h : Reachable (system a es h₀) r) :
    r.vec.len = (expected r.history).length ∧
    (∀ i, (r.exec (.atIndex i)).1 = .elem (expected r.history)[i]?) ∧
    (∀ out, (r.exec (.pop out)).1 = if expected r.history = [] then .popped .errNotFound none
      else .popped .ok (if out then (expected r.history).getLast? else none)) ∧
    r.vec.len ≤ r.vec.capacity ∧ (r.vec.data = none ↔ r.vec.capacity = 0) ∧
    (∀ p, r.vec.data = some p → liveSize r.heap.log p = some (r.vec.capacity * es)) ∧
    -- the copies of a push, of a pop and through a pointer returned
    (∀ e heap v' heap', r.vec.push (some e) heap = (.ok, v', heap') →
      wrap (r.vec.len * es) + es ≤ v'.capacity * es) ∧
    (r.vec.len ≠ 0 → wrap ((r.vec.len - 1) * es) + es ≤ r.vec.capacity * es) ∧
    (∀ i offset, r.vec.atIndex i = some offset → offset + es ≤ r.vec.capacity * es) ∧
    -- errors
    (∀ c, (r.exec c).1.failed = true → (r.step c).vec = r.vec) ∧
    ∀ initialCapacity heap rc v heap', init a es initialCapacity heap = (rc, some v, heap') →
      rc ≠ .ok → v = ⟨a, none, fun _ => 0, 0, 0⟩ := by
  have hI := reachable_inv ha h
  have hW := hI.wf
  have hle := hW.le
  have ha' : r.vec.allocator.Bounded := by rw [hI.allocator_eq]; exact ha
  have hlen : r.vec.len = (expected r.history).length := by rw [← hI.refines, elems_length]
  have hget : ∀ i, (expected r.history)[i]? = if i < r.vec.len then some (r.vec.elem i) else none := by
    intro i
    rw [← hI.refines, elems_getElem?]
  refine ⟨hlen, fun i => ?_, fun out => ?_, hle, hW.null, hI.sized, fun e heap v' heap' he => ?_,
    fun hpos => ?_, fun i offset hi => ?_, hW.exec_failed ha', fun n heap rc v heap' hi hrc => ?_⟩
  · show Outcome.elem ((r.vec.atIndex i).map fun offset => readAt r.vec.bytes offset es) = _
    rw [hget]
    unfold atIndex
    by_cases hi : i < r.vec.len
    · rw [if_neg (by omega), if_pos hi]
      rfl
    · rw [if_pos (by omega), if_neg hi]
      rfl
  · by_cases hz : r.vec.len = 0
    · rw [if_pos (List.length_eq_zero_iff.mp (hlen.symm.trans hz))]
      simp [Run.exec, pop_empty hz]
    · have hne : expected r.history ≠ [] := by
        intro he
        rw [he] at hlen
        exact hz hlen
      obtain ⟨v', he, _⟩ := hW.pop hz out
      have hlast : (expected r.history).getLast? = some (r.vec.elem (r.vec.len - 1)) := by
        rw [List.getLast?_eq_getElem?, ← hlen, hget, if_pos (by omega)]
      rw [if_neg hne, hlast]
      simp [Run.exec, he]
  · rcases hW.push_cases ha' e heap with ⟨rc, _, hrc, hp⟩ | ⟨w, _, hWw, _, hlw, _, hlt, hp⟩
    · rw [hp] at he
      exact absurd (congrArg Prod.fst he) hrc
    · rw [hp] at he
      cases he
      obtain ⟨hs, hb⟩ := hWw.span hlt
      show _ ≤ w.capacity * es
      rw [← hlw, hs]
      exact hb
  · obtain ⟨hs, hb⟩ := hW.span (show r.vec.len - 1 < r.vec.capacity by omega)
    rw [hs]
    exact hb
  · unfold atIndex at hi
    split_ifs at hi with hge
    cases hi
    obtain ⟨hs, hb⟩ := hW.span (show i < r.vec.capacity by omega)
    rw [hs]
    exact hb
  · obtain ⟨hes, he | he⟩ := init_cases hi
    · cases he
      rfl
    · have := ((empty_wf a hes).reserve ha n heap).2.2.2.2.1
      rw [he] at this
      exact this hrc

/-- Two pushes and a pop of two-byte elements. -/
theorem vector_refines_sequence_two_pushes :
    ∃ r, Reachable (system pageAllocator 2 ⟨0, []⟩) r ∧
      (r.exec (.atIndex 0)).1 = .elem (some #v[1, 2]) ∧ (r.exec (.atIndex 1)).1 = .elem none := by
  obtain ⟨v, heap, hinit⟩ : ∃ v heap, init pageAllocator 2 0 ⟨0, []⟩ = (.ok, some v, heap) :=
    ⟨_, _, rfl⟩
  have h0 : Reachable (system pageAllocator 2 ⟨0, []⟩) ⟨v, heap, []⟩ :=
    .init ⟨0, .ok, by norm_num, hinit, rfl⟩
  have hr := ((h0.step (e := .push (some #v[1, 2])) rfl).step (e := .push (some #v[3, 4])) rfl).step
    (e := .pop true) rfl
  have hat := (vector_refines_sequence pageAllocator_bounded hr).2.1
  refine ⟨_, hr, (hat 0).trans ?_, (hat 1).trans ?_⟩
  · cases hinit
    rfl
  · cases hinit
    rfl

end Vec

end D4np
