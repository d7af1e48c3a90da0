import D4np.Concurrency.AtomicQueueFifo

/-!
# The linked queue with addresses that come back

In the runs of the queue a node is named by its allocation, so that no name comes back.  An
allocator hands the addresses of freed nodes out again, while the two sides may still hold pointers
to the old ones: the tail names a node that the consumer has freed for as long as the producer has
not moved it.  Here the allocator may take the address of any freed node back, at any time, and
grant it again.  The invariant of the queue looks at live nodes only, so it is kept, and with it all
that follows from it.
-/

namespace D4np

open Links TransitionSystem TransitionSystem.Fifo

namespace AtomicQueue

variable {es : ℕ}

/-- What can happen: a step of the queue, or the allocator takes the address of a freed node back,
from when on it may grant it again. -/
inductive ReuseEvent (es : ℕ)
  | step (e : Event es)
  | recycle (a : ℕ)

namespace Run

/-- The address of a freed node is as good as one that was never used. -/
def recycle (r : Run es) (a : ℕ) : Option (Run es) :=
  match r.heap a with
  | .freed => some { r with heap := Function.update r.heap a .unused }
  | _ => none

/-- What a step shows. -/
def reuseMarks (r : Run es) :
    ReuseEvent es → List (Mark Side (Op (Vector UInt8 es)) (Result (Vector UInt8 es)))
  | .step e => r.marks e
  | .recycle _ => []

end Run

/-- The runs of a queue over an allocator that hands addresses out again. -/
def reusing (es : ℕ) : System (Run es) (ReuseEvent es) where
  init := (system es).init
  step r
    | .step e => r.step e
    | .recycle a => r.recycle a

section Heap

variable {heap : NodeHeap es} {a : ℕ}

theorem live_recycle (h : heap a = .freed) (b : ℕ) :
    Live (Function.update heap a .unused) b ↔ Live heap b := by
  by_cases hb : b = a
  · subst hb
    unfold Live
    rw [Function.update_self, h]
    simp
  · exact live_update_of_ne hb

theorem nextOf_recycle (h : heap a = .freed) :
    nextOf (Function.update heap a .unused) = nextOf heap := by
  funext b
  by_cases hb : b = a
  · subst hb
    unfold nextOf
    rw [Function.update_self, h]
  · exact nextOf_update_of_ne hb

theorem dataOf_recycle (h : heap a = .freed) :
    dataOf (Function.update heap a .unused) = dataOf heap := by
  funext b
  by_cases hb : b = a
  · subst hb
    unfold dataOf
    rw [Function.update_self, h]
  · exact dataOf_update_of_ne hb

end Heap

namespace Run

variable {r r' : Run es} {rest : List ℕ} {taken pending : List (Vector UInt8 es)} {a : ℕ}

theorem recycle_eq (hs : r.recycle a = some r') :
    r.heap a = .freed ∧ r' = { r with heap := Function.update r.heap a .unused } := by
  unfold recycle at hs
  split at hs
  · rename_i h
    exact ⟨h, (Option.some.inj hs).symm⟩
  · cases hs

/-- The invariant looks at live nodes only. -/
theorem Holds.recycle (h : r.Holds rest taken pending) (hf : r.heap a = .freed) :
    Holds { r with heap := Function.update r.heap a .unused } rest taken pending := by
  refine ⟨h.fault_eq, fun b => (live_recycle hf b).trans (h.live_iff b), h.nodup, h.null, ?_, ?_,
    h.accepted_eq, h.delivers, h.last_eq, ?_, h.consumer⟩
  · show Chain (nextOf (Function.update r.heap a .unused)) _ _ _
    rw [nextOf_recycle hf]
    exact h.chain
  · show rest.map (dataOf (Function.update r.heap a .unused)) = _
    rw [dataOf_recycle hf]
    exact h.payload
  · have hp := h.producer
    unfold ProducerInv at hp ⊢
    simp only [nextOf_recycle hf, dataOf_recycle hf]
    exact hp

/-- A step keeps the invariant and is one of the atomic queue's. -/
theorem reuse_step {e : ReuseEvent es} (hI : r.Inv) (hs : (reusing es).step r e = some r') :
    r'.Inv ∧ (queue unbounded).Moves r.toAtomic (r.reuseMarks e) r'.toAtomic := by
  cases e with
  | step e => exact ⟨step_inv hI hs, step_moves hI hs⟩
  | recycle a =>
    obtain ⟨hf, rfl⟩ := recycle_eq hs
    obtain ⟨rest, taken, pending, h⟩ := hI
    exact ⟨⟨rest, taken, pending, h.recycle hf⟩, .refl⟩

/-- The live nodes: one for each element in the queue, the dummy in front of them, and what the two
sides have in hand. -/
theorem Holds.owned_length (h : r.Holds rest taken pending) :
    (r.owned rest).length =
      r.queued.length + 1 + r.producer.node.length + r.consumer.node.length := by
  have hlen : rest.length = pending.length := by
    have := congrArg List.length h.payload
    rwa [List.length_map, List.length_map] at this
  unfold owned
  rw [h.queued_eq, List.length_append, List.length_append, List.length_cons, hlen]
  omega

end Run

/-- **Addresses may come back.** In any interleaving of the steps of one producer and one consumer,
while the allocator grants the addresses of freed nodes again as it likes: the calls and returns are
those of a first-in first-out queue on which every call acts in one instant; no node is touched that
is not live, and none is freed twice; the live nodes are those of the elements in the queue, one
dummy, and at most one that each side has in hand; and a destruction while neither side is in a call
frees all of them, each once, and no other. -/
theorem atomicQueue_reuses_addresses {r₀ r : Run es} (hinit : (reusing es).init r₀)
    {evs : List (ReuseEvent es)} (hr : (reusing es).run r₀ evs = some r) :
    (queue unbounded).Explains ((reusing es).trace Run.reuseMarks r₀ evs) r.queued ∧
    r.fault = false ∧
    ∃ nodes, nodes.Nodup ∧ (∀ a, a ∈ nodes ↔ Live r.heap a) ∧
      nodes.length = r.queued.length + 1 + r.producer.node.length + r.consumer.node.length ∧
      (r.producer = .idle → r.consumer = .idle → ∀ fuel, nodes.length ≤ fuel →
        r.destroy fuel = .done { r with
          heap := fun a => if a ∈ nodes then .freed else r.heap a
          head := 0
          tail := 0 } nodes) := by
  have hI : r₀.Inv := Run.init_inv hinit
  have hstart := Run.toAtomic_init hinit
  refine ⟨Object.explains_of_map (f := Run.toAtomic) (Q := Run.Inv) (fun _ _ _ => Run.reuse_step) hI
    hstart hr, ?_⟩
  obtain ⟨rest, taken, pending, h⟩ : r.Inv :=
    System.run_induct (fun _ _ _ hs he => (Run.reuse_step hs he).1) hI hr
  exact ⟨h.fault_eq, r.owned rest, h.nodup, fun a => (h.live_iff a).symm, h.owned_length,
    fun hp hc _ hf => h.destroy_eq hp hc hf⟩

/-- The address of the first dummy is granted again for the second element. -/
theorem atomicQueue_reuses_addresses_first_dummy :
    ∃ r : Run 1, Live r.heap 1 ∧ r.fault = false ∧ (queue unbounded).Explains
      [.call Side.producer (.push (some #v[7])), .ret Side.producer (.pushed true),
        .call Side.consumer (.pop true), .ret Side.consumer (.popped (some (some #v[7]))),
        .call Side.producer (.push (some #v[8])), .ret Side.producer (.pushed true)] r.queued := by
  let s : Run 1 := ⟨Function.update (fun _ => .unused) 1 (.live ⟨0, #v[0]⟩), 1, 1, .idle, .idle, [],
    [], false⟩
  have h0 : (reusing 1).init s :=
    ⟨some (1, #v[0]), ⟨by norm_num, rfl⟩, rfl, rfl, rfl, rfl, rfl, rfl, rfl⟩
  obtain ⟨r, hr⟩ : ∃ r, (reusing 1).run s [.step (.enqueue (some #v[7])),
      .step (.alloc (some (2, #v[0]))), .step .producer, .step .producer, .step .producer,
      .step (.dequeue true), .step .consumer, .step .consumer, .step .consumer, .step .consumer,
      .recycle 1, .step (.enqueue (some #v[8])), .step (.alloc (some (1, #v[0]))), .step .producer,
      .step .producer, .step .producer] = some r := ⟨_, rfl⟩
  obtain ⟨hexplains, hfault, _⟩ := atomicQueue_reuses_addresses h0 hr
  refine ⟨r, ?_, hfault, hexplains⟩
  cases hr
  exact ⟨_, rfl⟩

end AtomicQueue

end D4np
