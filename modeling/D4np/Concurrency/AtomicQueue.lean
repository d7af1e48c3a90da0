import D4np.Core.Allocator
import D4np.Lib.Chain
import D4np.Lib.TransitionSystem
import Mathlib.Tactic

/-!
# The single-producer single-consumer queue

A linked queue with a dummy node in front.  The producer and the consumer each run their call step
by step over one heap of nodes, and the steps interleave freely.  A node is named by the allocation
that made it: an address the allocator hands out again is a new node, so that a pointer to a freed
node is always told from a pointer to a live one.  An access to a node that is not live, or a second
free of one, sets `fault`.

The nodes from `head` on form a chain to `NULL` whose payloads, after the dummy's, are the elements
accepted and not yet delivered.  The only live nodes outside the chain are the one the producer has
not published yet and the old head the consumer has not freed yet (`Run.owned`).
-/

namespace D4np

open Word64 Links TransitionSystem

namespace AtomicQueue

/-- `d4np_atomic_queue_node` with its element bytes. -/
structure Node (es : ℕ) where
  next : ℕ
  data : Vector UInt8 es
  deriving DecidableEq

/-- What the heap knows of a node. -/
inductive Cell (es : ℕ)
  | unused
  | live (n : Node es)
  | freed
  deriving DecidableEq

/-- A heap of nodes; the name zero is `NULL`. -/
abbrev NodeHeap (es : ℕ) := ℕ → Cell es

variable {es : ℕ}

/-- The node behind a pointer, if it is live. -/
def deref (heap : NodeHeap es) (a : ℕ) : Option (Node es) :=
  match heap a with
  | .live n => some n
  | _ => none

/-- The answer of the allocator to a request: `NULL`, or a node with arbitrary payload. -/
abbrev Answer (es : ℕ) := Option (ℕ × Vector UInt8 es)

/-- An answer the allocator can give: a granted node is not `NULL` and not in use. -/
def Answer.Admissible (heap : NodeHeap es) : Answer es → Prop
  | none => True
  | some (a, _) => a ≠ 0 ∧ heap a = .unused

instance (heap : NodeHeap es) : (answer : Answer es) → Decidable (answer.Admissible heap)
  | none => isTrue trivial
  | some (a, _) => inferInstanceAs (Decidable (a ≠ 0 ∧ heap a = .unused))

/-- `node_alloc`. -/
def nodeAlloc (heap : NodeHeap es) : Answer es → ℕ × NodeHeap es
  | none => (0, heap)
  | some (a, junk) => (a, Function.update heap a (.live ⟨0, junk⟩))

/-- `D4NP_AQ_DATA_OFFSET`: the link, rounded up to the maximum alignment. -/
def dataOffset : ℕ := (ptrSize + (maxAlign - 1)) / maxAlign * maxAlign

/-- `d4np_atomic_queue_init`: the status, and the dummy that is head and tail. -/
def init (answer : Answer es) (heap : NodeHeap es) : Status × Option ℕ × NodeHeap es :=
  if es = 0 then (.errInvalidArgument, none, heap)
  else if es > sizeMax - dataOffset then (.errOverflow, none, heap)
  else
    match nodeAlloc heap answer with
    | (0, heap) => (.errOutOfMemory, none, heap)
    | (dummy, heap) => (.ok, some dummy, heap)

/-- Where the producer is in `d4np_atomic_queue_enqueue`. -/
inductive Producer (es : ℕ)
  | idle
  | entered (elem : Vector UInt8 es)
  | allocated (elem : Vector UInt8 es) (n : ℕ)
  | written (elem : Vector UInt8 es) (n : ℕ)
  | published (n : ℕ)

/-- Where the consumer is in `d4np_atomic_queue_dequeue`; what it has read is `none` when it was
called with a null `out`. -/
inductive Consumer (es : ℕ)
  | idle
  | entered (out : Bool)
  | loaded (out : Bool) (next : ℕ)
  | read (next : ℕ) (got : Option (Vector UInt8 es))
  | moved (oldHead : ℕ)

/-- A queue in use. -/
structure Run (es : ℕ) where
  heap : NodeHeap es
  head : ℕ
  tail : ℕ
  producer : Producer es
  consumer : Consumer es
  accepted : List (Vector UInt8 es)
  delivered : List (Option (Vector UInt8 es))
  fault : Bool

/-- What can happen: a call is made, the allocator answers the producer, or a side takes its next
step. -/
inductive Event (es : ℕ)
  | enqueue (elem : Option (Vector UInt8 es))
  | alloc (answer : Answer es)
  | producer
  | dequeue (out : Bool)
  | consumer

namespace Run

/-- The heap with the live node `a` replaced, or a fault. -/
def write (r : Run es) (a : ℕ) (f : Node es → Node es) : Run es :=
  match r.heap a with
  | .live n => { r with heap := Function.update r.heap a (.live (f n)) }
  | _ => { r with fault := true }

/-- `d4np_free` of a node; freeing one that is not live is a fault. -/
def free (r : Run es) (a : ℕ) : Run es :=
  match r.heap a with
  | .live _ => { r with heap := Function.update r.heap a .freed }
  | _ => { r with fault := true }

/-- The next step of `d4np_atomic_queue_enqueue` after the allocation. -/
def producerStep (r : Run es) : Option (Run es) :=
  match r.producer with
  | .idle => none
  | .entered _ => none
  | .allocated elem n =>
    some { r.write n (fun node => { node with data := elem }) with producer := .written elem n }
  | .written elem n =>
    some { r.write r.tail (fun node => { node with next := n }) with
      producer := .published n
      accepted := r.accepted ++ [elem] }
  | .published n => some { r with tail := n, producer := .idle }

/-- The next step of `d4np_atomic_queue_dequeue`. -/
def consumerStep (r : Run es) : Option (Run es) :=
  match r.consumer with
  | .idle => none
  | .entered out =>
    match deref r.heap r.head with
    | none => some { r with fault := true }
    | some node =>
      if node.next = 0 then some { r with consumer := .idle }
      else some { r with consumer := .loaded out node.next }
  | .loaded false next => some { r with consumer := .read next none }
  | .loaded true next =>
    match deref r.heap next with
    | none => some { r with fault := true }
    | some node => some { r with consumer := .read next (some node.data) }
  | .read next got =>
    some { r with
      head := next
      consumer := .moved r.head
      delivered := r.delivered ++ [got] }
  | .moved oldHead => some { r.free oldHead with consumer := .idle }

/-- The allocation of `d4np_atomic_queue_enqueue`, with the allocator's answer. -/
def allocStep (r : Run es) (answer : Answer es) : Option (Run es) :=
  match r.producer with
  | .entered elem =>
    if answer.Admissible r.heap then
      match nodeAlloc r.heap answer with
      | (0, _) => some { r with producer := .idle }
      | (n + 1, heap) => some { r with heap := heap, producer := .allocated elem (n + 1) }
    else none
  | _ => none

/-- One step of the run; a call can be made only when the previous one has returned. -/
def step (r : Run es) : Event es → Option (Run es)
  | .enqueue elem =>
    match r.producer, elem with
    | .idle, none => some r
    | .idle, some elem => some { r with producer := .entered elem }
    | _, _ => none
  | .alloc answer => r.allocStep answer
  | .producer => r.producerStep
  | .dequeue out =>
    match r.consumer with
    | .idle => some { r with consumer := .entered out }
    | _ => none
  | .consumer => r.consumerStep

end Run

/-- The runs of a queue from a successful initialisation on a heap without nodes. -/
def system (es : ℕ) : System (Run es) (Event es) where
  init r := ∃ answer : Answer es, answer.Admissible (fun _ => Cell.unused) ∧
    init answer (fun _ => Cell.unused) = (.ok, some r.head, r.heap) ∧ r.tail = r.head ∧
    r.producer = .idle ∧ r.consumer = .idle ∧ r.accepted = [] ∧ r.delivered = [] ∧ r.fault = false
  step := Run.step

/-- How `d4np_atomic_queue_destroy` ends. -/
inductive Destroyed (σ : Type)
  | done (s : σ) (freed : List ℕ)
  | fault
  | outOfFuel

/-- The loop of `d4np_atomic_queue_destroy` from `cur`, cut off after `fuel` rounds. -/
def destroyLoop : ℕ → NodeHeap es → ℕ → List ℕ → Destroyed (NodeHeap es)
  | _, heap, 0, freed => .done heap freed
  | 0, _, _ + 1, _ => .outOfFuel
  | fuel + 1, heap, cur + 1, freed =>
    match heap (cur + 1) with
    | .live n =>
      destroyLoop fuel (Function.update heap (cur + 1) .freed) n.next (freed ++ [cur + 1])
    | _ => .fault

/-- `d4np_atomic_queue_destroy`. -/
def Run.destroy (r : Run es) (fuel : ℕ) : Destroyed (Run es) :=
  match destroyLoop fuel r.heap r.head [] with
  | .done heap freed => .done { r with heap := heap, head := 0, tail := 0 } freed
  | .fault => .fault
  | .outOfFuel => .outOfFuel

/-! ## The heap as links and payloads -/

/-- The node is live. -/
def Live (heap : NodeHeap es) (a : ℕ) : Prop := ∃ n, heap a = .live n

/-- The link of a live node. -/
def nextOf (heap : NodeHeap es) (a : ℕ) : ℕ :=
  match heap a with
  | .live n => n.next
  | _ => 0

/-- The payload of a live node. -/
def dataOf (heap : NodeHeap es) (a : ℕ) : Option (Vector UInt8 es) :=
  match heap a with
  | .live n => some n.data
  | _ => none

section Heap

variable {heap : NodeHeap es} {a b : ℕ} {c : Cell es} {n : Node es}

theorem live_update_of_ne (h : b ≠ a) : Live (Function.update heap a c) b ↔ Live heap b := by
  unfold Live
  rw [Function.update_of_ne h]

theorem live_update_live : Live (Function.update heap a (.live n)) a :=
  ⟨n, Function.update_self ..⟩

/-- A write to a live node makes no node live or dead. -/
theorem live_write {n' : Node es} (h : heap a = .live n) (b : ℕ) :
    Live (Function.update heap a (.live n')) b ↔ Live heap b := by
  by_cases hb : b = a
  · subst hb
    exact ⟨fun _ => ⟨n, h⟩, fun _ => live_update_live⟩
  · exact live_update_of_ne hb

theorem not_live_update_freed : ¬ Live (Function.update heap a .freed) a := by
  rintro ⟨n, hn⟩
  rw [Function.update_self] at hn
  simp at hn

theorem nextOf_update_of_ne (h : b ≠ a) : nextOf (Function.update heap a c) b = nextOf heap b := by
  unfold nextOf
  rw [Function.update_of_ne h]

theorem dataOf_update_of_ne (h : b ≠ a) : dataOf (Function.update heap a c) b = dataOf heap b := by
  unfold dataOf
  rw [Function.update_of_ne h]

theorem nextOf_update_live : nextOf (Function.update heap a (.live n)) a = n.next := by
  unfold nextOf
  rw [Function.update_self]

theorem dataOf_update_live : dataOf (Function.update heap a (.live n)) a = some n.data := by
  unfold dataOf
  rw [Function.update_self]

/-- A write to the link of a node is an update of the links. -/
theorem nextOf_write_next (next : ℕ) :
    nextOf (Function.update heap a (.live { n with next := next })) =
      Function.update (nextOf heap) a next := by
  funext b
  by_cases hb : b = a
  · subst hb
    rw [nextOf_update_live, Function.update_self]
  · rw [nextOf_update_of_ne hb, Function.update_of_ne hb]

/-- A write to the link of a node changes no payload. -/
theorem dataOf_write_next (h : heap a = .live n) (next : ℕ) :
    dataOf (Function.update heap a (.live { n with next := next })) = dataOf heap := by
  funext b
  by_cases hb : b = a
  · subst hb
    rw [dataOf_update_live]
    unfold dataOf
    rw [h]
  · exact dataOf_update_of_ne hb

theorem nextOf_of_live (h : heap a = .live n) : nextOf heap a = n.next := by
  unfold nextOf
  rw [h]

theorem dataOf_of_live (h : heap a = .live n) : dataOf heap a = some n.data := by
  unfold dataOf
  rw [h]

theorem deref_of_live (h : heap a = .live n) : deref heap a = some n := by
  unfold deref
  rw [h]

end Heap

/-! ## The invariant -/

/-- What a dequeue handed out against the element it took: all of it, if it was asked for it. -/
def Delivers (got : Option (Vector UInt8 es)) (e : Vector UInt8 es) : Prop :=
  ∀ x, got = some x → x = e

/-- The node the producer has not published yet. -/
def Producer.node : Producer es → List ℕ
  | .allocated _ n => [n]
  | .written _ n => [n]
  | _ => []

/-- The old head the consumer has not freed yet. -/
def Consumer.node : Consumer es → List ℕ
  | .moved oldHead => [oldHead]
  | _ => []

namespace Run

/-- The nodes the two sides account for, when the chain from the head goes on with `rest`. -/
def owned (r : Run es) (rest : List ℕ) : List ℕ :=
  r.producer.node ++ (r.consumer.node ++ r.head :: rest)

/-- The last node of the chain: the tail, or the node just published behind it. -/
def last (r : Run es) : ℕ :=
  match r.producer with
  | .published n => n
  | _ => r.tail

/-- What the producer knows where it is. -/
def ProducerInv (r : Run es) : Prop :=
  match r.producer with
  | .allocated _ n => nextOf r.heap n = 0
  | .written elem n => nextOf r.heap n = 0 ∧ dataOf r.heap n = some elem
  | _ => True

/-- What the consumer knows where it is. -/
def ConsumerInv (r : Run es) (rest : List ℕ) (pending : List (Vector UInt8 es)) : Prop :=
  match r.consumer with
  | .loaded _ next => rest.head? = some next
  | .read next got => rest.head? = some next ∧ ∃ e, pending.head? = some e ∧ Delivers got e
  | _ => True

/-- The chain from the head goes on with `rest`, whose payloads are `pending`; the elements before
those, `taken`, were delivered. -/
structure Holds (r : Run es) (rest : List ℕ) (taken pending : List (Vector UInt8 es)) : Prop where
  fault_eq : r.fault = false
  live_iff : ∀ a, Live r.heap a ↔ a ∈ r.owned rest
  nodup : (r.owned rest).Nodup
  null : 0 ∉ r.owned rest
  chain : Chain (nextOf r.heap) r.head (r.head :: rest) 0
  payload : rest.map (dataOf r.heap) = pending.map some
  accepted_eq : r.accepted = taken ++ pending
  delivers : List.Forall₂ Delivers r.delivered taken
  last_eq : (r.head :: rest).getLast? = some r.last
  producer : r.ProducerInv
  consumer : r.ConsumerInv rest pending

variable {r r' : Run es} {rest : List ℕ} {taken pending : List (Vector UInt8 es)}

theorem Holds.live_of_mem (h : r.Holds rest taken pending) {a : ℕ} (ha : a ∈ r.owned rest) :
    ∃ n, r.heap a = .live n := (h.live_iff a).mpr ha

theorem head_mem_owned : ∀ a ∈ r.head :: rest, a ∈ r.owned rest :=
  fun _ ha => List.mem_append_right _ (List.mem_append_right _ ha)

/-- A change of a node outside the chain leaves the chain alone. -/
theorem Holds.chain_frame (h : r.Holds rest taken pending) {a : ℕ} (ha : a ∉ r.head :: rest)
    (c : Cell es) : Chain (nextOf (Function.update r.heap a c)) r.head (r.head :: rest) 0 := by
  refine h.chain.congr fun x hx => ?_
  rw [nextOf_update_of_ne]
  rintro rfl
  exact ha hx

theorem Holds.payload_frame (h : r.Holds rest taken pending) {a : ℕ} (ha : a ∉ rest)
    (c : Cell es) : rest.map (dataOf (Function.update r.heap a c)) = pending.map some := by
  rw [← h.payload]
  apply List.map_congr_left
  intro x hx
  rw [dataOf_update_of_ne]
  rintro rfl
  exact ha hx

/-- A node of one of the two sides is not in the chain. -/
theorem Holds.not_mem_chain (h : r.Holds rest taken pending) {a : ℕ}
    (ha : a ∈ r.producer.node ∨ a ∈ r.consumer.node) : a ∉ r.head :: rest := by
  intro hm
  have hnd := h.nodup
  unfold owned at hnd
  rw [List.nodup_append, List.nodup_append] at hnd
  rcases ha with ha | ha
  · exact hnd.2.2 a ha a (List.mem_append_right _ hm) rfl
  · exact hnd.2.1.2.2 a ha a hm rfl

theorem Holds.set_producer (h : r.Holds rest taken pending) {p : Producer es}
    (hn : p.node = r.producer.node) (hl : last { r with producer := p } = r.last)
    (hp : ProducerInv { r with producer := p }) :
    Holds { r with producer := p } rest taken pending := by
  have ho : owned { r with producer := p } rest = r.owned rest := by
    unfold owned
    rw [hn]
  refine ⟨h.fault_eq, ?_, ?_, ?_, h.chain, h.payload, h.accepted_eq, h.delivers, ?_, hp, h.consumer⟩
  · rw [ho]
    exact h.live_iff
  · rw [ho]
    exact h.nodup
  · rw [ho]
    exact h.null
  · rw [hl]
    exact h.last_eq

theorem Holds.set_consumer (h : r.Holds rest taken pending) {c : Consumer es}
    (hn : c.node = r.consumer.node) (hc : ConsumerInv { r with consumer := c } rest pending) :
    Holds { r with consumer := c } rest taken pending := by
  have ho : owned { r with consumer := c } rest = r.owned rest := by
    unfold owned
    rw [hn]
  refine ⟨h.fault_eq, ?_, ?_, ?_, h.chain, h.payload, h.accepted_eq, h.delivers, h.last_eq,
    h.producer, hc⟩
  · rw [ho]
    exact h.live_iff
  · rw [ho]
    exact h.nodup
  · rw [ho]
    exact h.null

/-- **Allocation**: the new node belongs to the producer. -/
theorem Holds.alloc (h : r.Holds rest taken pending) {elem junk : Vector UInt8 es} {a : ℕ}
    (hp : r.producer = .entered elem) (ha : a ≠ 0) (hu : r.heap a = .unused) :
    Holds { r with
      heap := Function.update r.heap a (.live ⟨0, junk⟩)
      producer := .allocated elem a } rest taken pending := by
  have hnot : a ∉ r.owned rest := by
    intro hm
    obtain ⟨n, hn⟩ := h.live_of_mem hm
    rw [hu] at hn
    simp at hn
  have hchain : a ∉ r.head :: rest := fun hm => hnot (head_mem_owned a hm)
  have ho : owned { r with
      heap := Function.update r.heap a (.live ⟨0, junk⟩)
      producer := .allocated elem a } rest = a :: r.owned rest := by
    unfold owned
    rw [hp]
    rfl
  have hl : last { r with
      heap := Function.update r.heap a (.live ⟨0, junk⟩)
      producer := .allocated elem a } = r.last := by
    simp only [last, hp]
  refine ⟨h.fault_eq, ?_, ?_, ?_, h.chain_frame hchain _,
    h.payload_frame (fun hm => hchain (List.mem_cons_of_mem _ hm)) _, h.accepted_eq, h.delivers, ?_,
    nextOf_update_live, h.consumer⟩
  · intro b
    rw [ho, List.mem_cons]
    by_cases hb : b = a
    · subst hb
      simp only [true_or, iff_true]
      exact live_update_live
    · rw [live_update_of_ne hb, h.live_iff b]
      simp [hb]
  · rw [ho]
    exact List.nodup_cons.mpr ⟨hnot, h.nodup⟩
  · rw [ho, List.mem_cons, not_or]
    exact ⟨Ne.symm ha, h.null⟩
  · rw [hl]
    exact h.last_eq

/-- **Payload write** into the producer's own node. -/
theorem Holds.writePayload (h : r.Holds rest taken pending) {elem : Vector UInt8 es} {a : ℕ}
    (hp : r.producer = .allocated elem a) :
    Holds { r.write a (fun node => { node with data := elem }) with producer := .written elem a }
      rest taken pending := by
  have hmem : a ∈ r.producer.node := by
    rw [hp]
    exact List.mem_singleton.mpr rfl
  have hchain := h.not_mem_chain (Or.inl hmem)
  obtain ⟨n, hn⟩ := h.live_of_mem (List.mem_append_left _ hmem)
  have hP := h.producer
  simp only [ProducerInv, hp, nextOf_of_live hn] at hP
  have hnode : (Producer.written elem a : Producer es).node = r.producer.node := by
    rw [hp]
    rfl
  simp only [write, hn]
  have ho : owned { r with
      heap := Function.update r.heap a (.live { n with data := elem })
      producer := .written elem a } rest = r.owned rest := by
    unfold owned
    rw [hnode]
  refine ⟨h.fault_eq, ?_, ?_, ?_, h.chain_frame hchain _,
    h.payload_frame (fun hm => hchain (List.mem_cons_of_mem _ hm)) _, h.accepted_eq, h.delivers, ?_,
    ⟨?_, ?_⟩, h.consumer⟩
  · intro b
    rw [ho, ← h.live_iff b]
    exact live_write hn b
  · rw [ho]
    exact h.nodup
  · rw [ho]
    exact h.null
  · have hl := h.last_eq
    simp only [last, hp] at hl ⊢
    exact hl
  · rw [nextOf_update_live]
    exact hP
  · exact dataOf_update_live

/-- **Publication** behind the last node of the chain, which is live. -/
theorem Holds.publish (h : r.Holds rest taken pending) {elem : Vector UInt8 es} {a : ℕ}
    (hp : r.producer = .written elem a) :
    Holds { r.write r.tail (fun node => { node with next := a }) with
      producer := .published a
      accepted := r.accepted ++ [elem] } (rest ++ [a]) taken (pending ++ [elem]) := by
  have hmem : a ∈ r.producer.node := by
    rw [hp]
    exact List.mem_singleton.mpr rfl
  have hchain := h.not_mem_chain (Or.inl hmem)
  obtain ⟨pre, hpre⟩ : ∃ pre, r.head :: rest = pre ++ [r.tail] := by
    have hl := h.last_eq
    simp only [last, hp] at hl
    exact List.getLast?_eq_some_iff.mp hl
  have htail : r.tail ∈ r.head :: rest := by
    rw [hpre]
    exact List.mem_append_right _ (List.mem_singleton.mpr rfl)
  obtain ⟨n, hn⟩ := h.live_of_mem (head_mem_owned _ htail)
  have hP := h.producer
  simp only [ProducerInv, hp] at hP
  simp only [write, hn]
  -- the node moves from the producer to the end of the chain
  have hperm : (r.owned rest).Perm (r.consumer.node ++ r.head :: (rest ++ [a])) := by
    unfold owned
    rw [hp, ← List.cons_append, ← List.append_assoc r.consumer.node]
    exact List.perm_append_comm
  have ho : owned { r with
      heap := Function.update r.heap r.tail (.live { n with next := a })
      producer := .published a
      accepted := r.accepted ++ [elem] } (rest ++ [a]) =
      r.consumer.node ++ r.head :: (rest ++ [a]) := rfl
  refine ⟨h.fault_eq, ?_, ?_, ?_, ?_, ?_, ?_, h.delivers, ?_, trivial, ?_⟩
  · intro b
    rw [ho, ← hperm.mem_iff, ← h.live_iff b]
    exact live_write hn b
  · rw [ho]
    exact hperm.nodup_iff.mp h.nodup
  · rw [ho, ← hperm.mem_iff]
    exact h.null
  · show Chain (nextOf (Function.update r.heap r.tail (.live { n with next := a }))) r.head
      (r.head :: (rest ++ [a])) 0
    have hc := h.chain
    have hnd : (r.head :: rest).Nodup :=
      (List.nodup_append.mp (List.nodup_append.mp h.nodup).2.1).2.1
    rw [hpre] at hc hnd hchain
    rw [← List.cons_append, hpre, nextOf_write_next, ← hP.1]
    exact hc.concat_update hnd hchain
  · rw [List.map_append, List.map_append, List.map_singleton, List.map_singleton]
    show rest.map (dataOf (Function.update r.heap r.tail (.live { n with next := a }))) ++
      [dataOf (Function.update r.heap r.tail (.live { n with next := a })) a] = _
    rw [dataOf_write_next hn a, h.payload, hP.2]
  · rw [h.accepted_eq, List.append_assoc]
  · rw [← List.cons_append]
    exact List.getLast?_concat
  · have hC := h.consumer
    rcases hc : r.consumer with _ | _ | ⟨out, next⟩ | ⟨next, got⟩ | _ <;>
      simp only [ConsumerInv, hc] at hC ⊢
    · rw [List.head?_append, hC]
      rfl
    · obtain ⟨h1, e, h2, h3⟩ := hC
      refine ⟨?_, e, ?_, h3⟩
      · rw [List.head?_append, h1]
        rfl
      · rw [List.head?_append, h2]
        rfl

/-- **Tail update**: the tail is the last node again. -/
theorem Holds.moveTail (h : r.Holds rest taken pending) {a : ℕ} (hp : r.producer = .published a) :
    Holds { r with tail := a, producer := .idle } rest taken pending := by
  have ho : owned { r with tail := a, producer := .idle } rest = r.owned rest := by
    unfold owned
    rw [hp]
    rfl
  refine ⟨h.fault_eq, ?_, ?_, ?_, h.chain, h.payload, h.accepted_eq, h.delivers, ?_, trivial,
    h.consumer⟩
  · rw [ho]
    exact h.live_iff
  · rw [ho]
    exact h.nodup
  · rw [ho]
    exact h.null
  · have hl := h.last_eq
    simp only [last, hp] at hl ⊢
    exact hl

/-- **Head update**: the old head leaves the chain and belongs to the consumer. -/
theorem Holds.moveHead (h : r.Holds rest taken pending) {next : ℕ} {got : Option (Vector UInt8 es)}
    (hc : r.consumer = .read next got) :
    ∃ rest' e pending', Holds { r with
      head := next
      consumer := .moved r.head
      delivered := r.delivered ++ [got] } rest' (taken ++ [e]) pending' := by
  have hC := h.consumer
  simp only [ConsumerInv, hc] at hC
  obtain ⟨hnext, e, he, hgot⟩ := hC
  obtain ⟨rest', rfl⟩ := List.head?_eq_some_iff.mp hnext
  obtain ⟨pending', rfl⟩ := List.head?_eq_some_iff.mp he
  have ho : owned { r with
      head := next
      consumer := .moved r.head
      delivered := r.delivered ++ [got] } rest' = r.owned (next :: rest') := by
    unfold owned
    rw [hc]
    rfl
  refine ⟨rest', e, pending', h.fault_eq, ?_, ?_, ?_, ⟨rfl, ?_⟩, ?_, ?_, ?_, ?_, h.producer, trivial⟩
  · rw [ho]
    exact h.live_iff
  · rw [ho]
    exact h.nodup
  · rw [ho]
    exact h.null
  · exact h.chain.2.2
  · exact (List.cons.inj h.payload).2
  · rw [h.accepted_eq, List.append_assoc]
    rfl
  · exact List.rel_append h.delivers (.cons hgot .nil)
  · have hl := h.last_eq
    rw [List.getLast?_cons_cons] at hl
    exact hl

/-- **Free** of the old head, which is live and in no one else's hands. -/
theorem Holds.freeOld (h : r.Holds rest taken pending) {old : ℕ} (hc : r.consumer = .moved old) :
    Holds { r.free old with consumer := .idle } rest taken pending := by
  have hmem : old ∈ r.consumer.node := by
    rw [hc]
    exact List.mem_singleton.mpr rfl
  have hchain := h.not_mem_chain (Or.inr hmem)
  have hnd := h.nodup
  unfold owned at hnd
  rw [hc] at hnd
  obtain ⟨hnd₁, hnd₂, hdisj⟩ := List.nodup_append.mp hnd
  have hprod : old ∉ r.producer.node := by
    intro hm
    exact hdisj old hm old List.mem_cons_self rfl
  obtain ⟨n, hn⟩ := h.live_of_mem (List.mem_append_right _ (List.mem_append_left _ hmem))
  simp only [free, hn]
  have hmem_iff : ∀ b, b ∈ r.owned rest ↔ b = old ∨ b ∈ r.producer.node ++ (r.head :: rest) := by
    intro b
    unfold owned
    rw [hc]
    simp only [Consumer.node, List.mem_append, List.mem_singleton]
    tauto
  have ho : owned { r with
      heap := Function.update r.heap old .freed
      consumer := .idle } rest = r.producer.node ++ (r.head :: rest) := rfl
  refine ⟨h.fault_eq, ?_, ?_, ?_, h.chain_frame hchain _,
    h.payload_frame (fun hm => hchain (List.mem_cons_of_mem _ hm)) _, h.accepted_eq, h.delivers,
    h.last_eq, ?_, trivial⟩
  · intro b
    rw [ho]
    by_cases hb : b = old
    · subst hb
      refine ⟨fun hl => absurd hl not_live_update_freed, fun hm => ?_⟩
      rcases List.mem_append.mp hm with hm | hm
      · exact absurd hm hprod
      · exact absurd hm hchain
    · rw [live_update_of_ne hb, h.live_iff b, hmem_iff b]
      simp [hb]
  · rw [ho]
    refine List.nodup_append.mpr ⟨hnd₁, (List.nodup_cons.mp hnd₂).2, fun x hx y hy => ?_⟩
    exact hdisj x hx y (List.mem_cons_of_mem _ hy)
  · rw [ho]
    intro hm
    exact h.null ((hmem_iff 0).mpr (Or.inr hm))
  · have hP := h.producer
    rcases hp : r.producer with _ | _ | ⟨elem, a⟩ | ⟨elem, a⟩ | _ <;>
      simp only [ProducerInv, hp] at hP ⊢
    · have hne : a ≠ old := by
        rintro rfl
        exact hprod (by rw [hp]; exact List.mem_singleton.mpr rfl)
      rw [nextOf_update_of_ne hne]
      exact hP
    · have hne : a ≠ old := by
        rintro rfl
        exact hprod (by rw [hp]; exact List.mem_singleton.mpr rfl)
      rw [nextOf_update_of_ne hne, dataOf_update_of_ne hne]
      exact hP

/-- The invariant of the runs. -/
def Inv (r : Run es) : Prop := ∃ rest taken pending, r.Holds rest taken pending

/-- The load of the link of the head gives the first node behind it, or `NULL`. -/
theorem Holds.next_of_head (h : r.Holds rest taken pending) {n : Node es}
    (hn : r.heap r.head = .live n) (h0 : n.next ≠ 0) : rest.head? = some n.next := by
  have hc := h.chain.2
  rw [nextOf_of_live hn] at hc
  cases rest with
  | nil => exact absurd hc h0
  | cons x rest => rw [hc.1, List.head?_cons]

/-- The first node behind the head holds the first pending element. -/
theorem Holds.first_pending (h : r.Holds rest taken pending) {next : ℕ}
    (hnext : rest.head? = some next) :
    ∃ e, pending.head? = some e ∧ dataOf r.heap next = some e := by
  obtain ⟨rest', rfl⟩ := List.head?_eq_some_iff.mp hnext
  have hp := h.payload
  cases pending with
  | nil => simp at hp
  | cons e pending => exact ⟨e, rfl, (List.cons.inj hp).1⟩

theorem allocStep_inv {answer : Answer es} (hI : r.Inv) (hs : r.allocStep answer = some r') :
    r'.Inv := by
  obtain ⟨rest, taken, pending, h⟩ := hI
  obtain ⟨elem, hp⟩ : ∃ elem, r.producer = .entered elem := by
    rcases hp : r.producer with _ | elem | _ | _ | _
    · simp [allocStep, hp] at hs
    · exact ⟨elem, rfl⟩
    · simp [allocStep, hp] at hs
    · simp [allocStep, hp] at hs
    · simp [allocStep, hp] at hs
  simp only [allocStep, hp] at hs
  by_cases hadm : answer.Admissible r.heap
  · rw [if_pos hadm] at hs
    rcases answer with _ | ⟨a, junk⟩
    · cases hs
      refine ⟨rest, taken, pending, h.set_producer ?_ ?_ trivial⟩
      · rw [hp]
        rfl
      · simp only [last, hp]
    · obtain ⟨ha, hu⟩ := hadm
      obtain ⟨b, rfl⟩ := Nat.exists_eq_succ_of_ne_zero ha
      cases hs
      exact ⟨rest, taken, pending, h.alloc hp ha hu⟩
  · rw [if_neg hadm] at hs
    cases hs

theorem producerStep_inv (hI : r.Inv) (hs : r.producerStep = some r') : r'.Inv := by
  obtain ⟨rest, taken, pending, h⟩ := hI
  rcases hp : r.producer with _ | _ | ⟨elem, a⟩ | ⟨elem, a⟩ | a <;>
    simp only [producerStep, hp] at hs <;> cases hs
  · exact ⟨rest, taken, pending, h.writePayload hp⟩
  · exact ⟨rest ++ [a], taken, pending ++ [elem], h.publish hp⟩
  · exact ⟨rest, taken, pending, h.moveTail hp⟩

theorem consumerStep_inv (hI : r.Inv) (hs : r.consumerStep = some r') : r'.Inv := by
  obtain ⟨rest, taken, pending, h⟩ := hI
  have hC := h.consumer
  rcases hc : r.consumer with _ | out | ⟨_ | _, next⟩ | ⟨next, got⟩ | old <;>
    simp only [consumerStep, ConsumerInv, hc] at hs hC
  · cases hs
  · obtain ⟨n, hn⟩ := h.live_of_mem (head_mem_owned r.head List.mem_cons_self)
    rw [deref_of_live hn] at hs
    simp only at hs
    by_cases h0 : n.next = 0
    · rw [if_pos h0] at hs
      cases hs
      refine ⟨rest, taken, pending, h.set_consumer ?_ trivial⟩
      rw [hc]
      rfl
    · rw [if_neg h0] at hs
      cases hs
      refine ⟨rest, taken, pending, h.set_consumer ?_ (h.next_of_head hn h0)⟩
      rw [hc]
      rfl
  · cases hs
    obtain ⟨e, he, _⟩ := h.first_pending hC
    refine ⟨rest, taken, pending, h.set_consumer ?_ ⟨hC, e, he, by simp [Delivers]⟩⟩
    rw [hc]
    rfl
  · obtain ⟨e, he, hdata⟩ := h.first_pending hC
    have hmem : next ∈ r.head :: rest := List.mem_cons_of_mem _ (List.mem_of_head? hC)
    obtain ⟨n, hn⟩ := h.live_of_mem (head_mem_owned next hmem)
    rw [deref_of_live hn] at hs
    rw [dataOf_of_live hn] at hdata
    cases hs
    refine ⟨rest, taken, pending, h.set_consumer ?_ ⟨hC, e, he, fun x hx => ?_⟩⟩
    · rw [hc]
      rfl
    · rw [← Option.some_inj, ← hx, hdata]
  · cases hs
    obtain ⟨rest', e, pending', h'⟩ := h.moveHead hc
    exact ⟨rest', taken ++ [e], pending', h'⟩
  · cases hs
    exact ⟨rest, taken, pending, h.freeOld hc⟩

theorem step_inv {ev : Event es} (hI : r.Inv) (hs : r.step ev = some r') : r'.Inv := by
  cases ev with
  | enqueue elem =>
    simp only [step] at hs
    split at hs
    · cases hs
      exact hI
    · rename_i hp
      cases hs
      obtain ⟨rest, taken, pending, h⟩ := hI
      refine ⟨rest, taken, pending, h.set_producer ?_ ?_ trivial⟩
      · rw [hp]
        rfl
      · simp only [last, hp]
    · cases hs
  | alloc answer => exact allocStep_inv hI hs
  | producer => exact producerStep_inv hI hs
  | dequeue out =>
    simp only [step] at hs
    split at hs
    · rename_i hc
      cases hs
      obtain ⟨rest, taken, pending, h⟩ := hI
      refine ⟨rest, taken, pending, h.set_consumer ?_ trivial⟩
      rw [hc]
      rfl
    · cases hs
  | consumer => exact consumerStep_inv hI hs

theorem init_inv (h : (system es).init r) : r.Inv := by
  obtain ⟨answer, hadm, hi, htail, hp, hc, hacc, hdel, hfault⟩ := h
  simp only [AtomicQueue.init] at hi
  split_ifs at hi
  · simp at hi
  · simp at hi
  rcases answer with _ | ⟨a, junk⟩
  · simp [nodeAlloc] at hi
  obtain ⟨ha, _⟩ := hadm
  obtain ⟨b, rfl⟩ := Nat.exists_eq_succ_of_ne_zero ha
  simp only [nodeAlloc, Prod.mk.injEq, Option.some_inj, true_and] at hi
  obtain ⟨hhead, hheap⟩ := hi
  have ho : r.owned [] = [r.head] := by
    unfold owned
    rw [hp, hc]
    rfl
  refine ⟨[], [], [], hfault, ?_, ?_, ?_, ⟨rfl, ?_⟩, rfl, hacc, ?_, ?_, ?_, ?_⟩
  · intro x
    rw [ho, ← hheap, ← hhead, List.mem_singleton]
    by_cases hx : x = b + 1
    · subst hx
      exact ⟨fun _ => rfl, fun _ => live_update_live⟩
    · rw [live_update_of_ne hx]
      exact ⟨fun ⟨n, hn⟩ => by simp at hn, fun he => absurd he hx⟩
  · rw [ho]
    exact List.nodup_singleton _
  · rw [ho, ← hhead]
    simp
  · rw [← hheap, ← hhead, nextOf_update_live]
    rfl
  · rw [hdel]
    exact .nil
  · simp only [last, hp, htail, List.getLast?_singleton]
  · simp only [ProducerInv, hp]
  · simp only [ConsumerInv, hc]

theorem reachable_inv (h : Reachable (system es) r) : r.Inv :=
  h.induct (fun _ => init_inv) (fun _ _ _ => step_inv)

end Run

/-! ## Destruction -/

/-- The loop of `d4np_atomic_queue_destroy` frees the nodes of the chain, in order, and nothing
else. -/
theorem destroyLoop_eq {heap : NodeHeap es} {cur fuel : ℕ} {nodes freed : List ℕ}
    (hc : Chain (nextOf heap) cur nodes 0) (hlive : ∀ a ∈ nodes, Live heap a) (hnd : nodes.Nodup)
    (h0 : 0 ∉ nodes) (hf : nodes.length ≤ fuel) :
    destroyLoop fuel heap cur freed =
      .done (fun a => if a ∈ nodes then .freed else heap a) (freed ++ nodes) := by
  induction nodes generalizing heap cur fuel freed with
  | nil =>
    have hcur : cur = 0 := hc
    subst hcur
    unfold destroyLoop
    simp
  | cons x nodes ih =>
    obtain ⟨rfl, hc⟩ := hc
    obtain ⟨n, hn⟩ := hlive cur List.mem_cons_self
    obtain ⟨hx, hnd'⟩ := List.nodup_cons.mp hnd
    rw [List.mem_cons, not_or] at h0
    obtain ⟨c, rfl⟩ := Nat.exists_eq_succ_of_ne_zero (Ne.symm h0.1)
    obtain ⟨f, rfl⟩ : ∃ f, fuel = f + 1 := ⟨fuel - 1, by rw [List.length_cons] at hf; omega⟩
    rw [nextOf_of_live hn] at hc
    have hne : ∀ a ∈ nodes, a ≠ c + 1 := by
      rintro a ha rfl
      exact hx ha
    have hstep : destroyLoop f (Function.update heap (c + 1) .freed) n.next (freed ++ [c + 1]) =
        .done (fun a => if a ∈ nodes then .freed else Function.update heap (c + 1) .freed a)
          (freed ++ [c + 1] ++ nodes) := ih
      (hc.congr fun a ha => (nextOf_update_of_ne (hne a ha)).symm)
      (fun a ha => (live_update_of_ne (hne a ha)).mpr (hlive a (List.mem_cons_of_mem _ ha)))
      hnd' h0.2 (by rw [List.length_cons] at hf; omega)
    have hloop : destroyLoop (f + 1) heap (c + 1) freed =
        destroyLoop f (Function.update heap (c + 1) .freed) n.next (freed ++ [c + 1]) := by
      simp only [destroyLoop]
      rw [show heap (c + 1) = .live n from hn]
    rw [show Nat.succ c = c + 1 from rfl, hloop, hstep, List.append_assoc, List.singleton_append]
    congr 1
    funext a
    by_cases ha : a = c + 1
    · subst ha
      simp [hx]
    · simp [ha]

/-- A destruction between calls frees the live nodes. -/
theorem Run.Holds.destroy_eq {r : Run es} {rest : List ℕ} {taken pending : List (Vector UInt8 es)}
    (h : r.Holds rest taken pending) (hp : r.producer = .idle) (hc : r.consumer = .idle)
    {fuel : ℕ} (hf : (r.owned rest).length ≤ fuel) :
    r.destroy fuel = .done { r with
      heap := fun a => if a ∈ r.owned rest then .freed else r.heap a
      head := 0
      tail := 0 } (r.owned rest) := by
  have ho : r.owned rest = r.head :: rest := by
    unfold Run.owned
    rw [hp, hc]
    rfl
  have hlive := h.live_iff
  have hnd := h.nodup
  have hnull := h.null
  rw [ho] at hlive hnd hnull hf ⊢
  unfold Run.destroy
  rw [destroyLoop_eq h.chain (fun a ha => (hlive a).mpr ha) hnd hnull hf]
  rfl

/-- **The queue over whole runs.** In every state the producer and the consumer can reach, in any
interleaving of their steps and whatever the allocator answers: what the dequeues handed out is, in
order and unaltered, the start of what the enqueues published; no access to a node that is not live
and no second free has happened; and a destruction while neither side is in a call ends, having
freed the live nodes, each once, and no other. -/
theorem atomicQueue_run_correct {r : Run es} (h : Reachable (system es) r) :
    (∃ l, l <+: r.accepted ∧ List.Forall₂ Delivers r.delivered l) ∧
    r.fault = false ∧
    (r.producer = .idle → r.consumer = .idle → ∃ freed, freed.Nodup ∧
      (∀ a, a ∈ freed ↔ Live r.heap a) ∧
      ∀ fuel, freed.length ≤ fuel → r.destroy fuel = .done { r with
        heap := fun a => if a ∈ freed then .freed else r.heap a
        head := 0
        tail := 0 } freed) := by
  obtain ⟨rest, taken, pending, hH⟩ := Run.reachable_inv h
  refine ⟨⟨taken, ?_, hH.delivers⟩, hH.fault_eq, fun hp hc => ?_⟩
  · rw [hH.accepted_eq]
    exact List.prefix_append _ _
  · exact ⟨r.owned rest, hH.nodup, fun a => (hH.live_iff a).symm,
      fun _ hf => hH.destroy_eq hp hc hf⟩

/-- Two elements go in while the first comes out: the consumer frees the node the producer's tail
still names, and the producer publishes behind the new one. -/
theorem atomicQueue_run_correct_two_elements :
    ∃ r, Reachable (system 1) r ∧ r.accepted = [#v[7], #v[8]] ∧ r.delivered = [some #v[7]] ∧
      r.fault = false := by
  let s : Run 1 := ⟨Function.update (fun _ => .unused) 1 (.live ⟨0, #v[0]⟩), 1, 1, .idle, .idle, [],
    [], false⟩
  have h0 : Reachable (system 1) s :=
    .init ⟨some (1, #v[0]), ⟨by norm_num, rfl⟩, rfl, rfl, rfl, rfl, rfl, rfl, rfl⟩
  have hrun : ((system 1).run s [.enqueue (some #v[7]), .alloc (some (2, #v[0])), .producer,
      .dequeue true, .producer, .consumer, .consumer, .consumer, .consumer, .producer,
      .enqueue (some #v[8]), .alloc (some (3, #v[0])), .producer, .producer]).map
      (fun r => (r.accepted, r.delivered)) = some ([#v[7], #v[8]], [some #v[7]]) := rfl
  obtain ⟨r, hr, heq⟩ := Option.map_eq_some_iff.mp hrun
  obtain ⟨hacc, hdel⟩ := Prod.mk.inj heq
  have hreach := h0.run hr
  exact ⟨r, hreach, hacc, hdel, (atomicQueue_run_correct hreach).2.1⟩

end AtomicQueue

end D4np
