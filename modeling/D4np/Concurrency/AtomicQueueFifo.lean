import D4np.Concurrency.AtomicQueue
import D4np.Lib.Fifo
import D4np.Lib.Potential

/-!
# The linked queue is a queue

The calls and returns of the two sides of the single-producer single-consumer queue are those of a
first-in first-out queue on which every call acts in one instant.  An enqueue takes effect where it
publishes its node, before it has moved the tail; a failing one where the allocator refuses.  A
dequeue takes effect where it moves the head, before it has freed the old one; a failing one where
it finds no link behind the head.  The queue of the atomic object is what was accepted and not
delivered, which is what the chain behind the head holds (`Run.Holds`).
-/

namespace D4np

open Word64 Links TransitionSystem TransitionSystem.Fifo

namespace AtomicQueue

variable {es : ℕ}

namespace Run

/-- Where the producer stands with its call. -/
def producerStage : Producer es → Stage (Op (Vector UInt8 es)) (Result (Vector UInt8 es))
  | .idle => .idle
  | .entered elem => .called (.push (some elem))
  | .allocated elem _ => .called (.push (some elem))
  | .written elem _ => .called (.push (some elem))
  | .published _ => .done (.pushed true)

/-- Where the consumer stands with its call, when `delivered` is what was handed out last. -/
def consumerStage (delivered : Option (Option (Vector UInt8 es))) :
    Consumer es → Stage (Op (Vector UInt8 es)) (Result (Vector UInt8 es))
  | .idle => .idle
  | .entered out => .called (.pop out)
  | .loaded out _ => .called (.pop out)
  | .read _ got => .called (.pop got.isSome)
  | .moved _ => .done (.popped delivered)

/-- The elements accepted and not yet delivered, oldest first. -/
def queued (r : Run es) : List (Vector UInt8 es) := r.accepted.drop r.delivered.length

/-- The queue and the stages of the two sides. -/
def toAtomic (r : Run es) :
    Atomic Side (List (Vector UInt8 es)) (Op (Vector UInt8 es)) (Result (Vector UInt8 es)) :=
  sides r.queued (producerStage r.producer) (consumerStage r.delivered.getLast? r.consumer)

/-- What a step shows: a call, or a return with its result. -/
def marks (r : Run es) : Event es → List (Mark Side (Op (Vector UInt8 es)) (Result (Vector UInt8 es)))
  | .enqueue none => [.call .producer (.push none), .ret .producer (.pushed false)]
  | .enqueue (some elem) => [.call .producer (.push (some elem))]
  | .alloc none => [.ret .producer (.pushed false)]
  | .alloc (some _) => []
  | .producer =>
    match r.producer with
    | .published _ => [.ret .producer (.pushed true)]
    | _ => []
  | .dequeue out => [.call .consumer (.pop out)]
  | .consumer =>
    match r.consumer with
    | .entered _ => if nextOf r.heap r.head = 0 then [.ret .consumer (.popped none)] else []
    | .moved _ => [.ret .consumer (.popped r.delivered.getLast?)]
    | _ => []

variable {r r' : Run es} {rest : List ℕ} {taken pending : List (Vector UInt8 es)}

/-- The queue is what the chain holds. -/
theorem Holds.queued_eq (h : r.Holds rest taken pending) : r.queued = pending := by
  unfold queued
  rw [h.accepted_eq, h.delivers.length_eq, List.drop_left]

/-- What a write to a node leaves alone. -/
theorem write_frame (r : Run es) (a : ℕ) (f : Node es → Node es) :
    (r.write a f).consumer = r.consumer ∧ (r.write a f).delivered = r.delivered ∧
      (r.write a f).accepted = r.accepted := by
  unfold write
  split <;> exact ⟨rfl, rfl, rfl⟩

/-- What a free leaves alone. -/
theorem free_frame (r : Run es) (a : ℕ) :
    (r.free a).producer = r.producer ∧ (r.free a).delivered = r.delivered ∧
      (r.free a).accepted = r.accepted := by
  unfold free
  split <;> exact ⟨rfl, rfl, rfl⟩

theorem alloc_moves {answer : Answer es} (hs : r.allocStep answer = some r') :
    (queue unbounded).Moves r.toAtomic (r.marks (.alloc answer)) r'.toAtomic := by
  rcases hp : r.producer with _ | elem | _ | _ | _ <;> simp only [allocStep, hp] at hs
  · cases hs
  · split_ifs at hs with hadm
    simp only [toAtomic, hp]
    rcases answer with _ | ⟨a, junk⟩
    · -- the allocator refuses
      cases hs
      exact producer_returns (effect_push rfl)
    · obtain ⟨b, rfl⟩ := Nat.exists_eq_succ_of_ne_zero hadm.1
      cases hs
      exact .refl
  · cases hs
  · cases hs
  · cases hs

/-- **A step of the producer.** -/
theorem producer_moves (h : r.Holds rest taken pending) (hs : r.producerStep = some r') :
    (queue unbounded).Moves r.toAtomic (r.marks .producer) r'.toAtomic := by
  have hle : r.delivered.length ≤ r.accepted.length := by
    rw [h.accepted_eq, h.delivers.length_eq, List.length_append]
    exact Nat.le_add_right _ _
  rcases hp : r.producer with _ | _ | ⟨elem, a⟩ | ⟨elem, a⟩ | a <;>
    simp only [producerStep, hp] at hs <;> cases hs <;> simp only [marks, hp]
  · obtain ⟨hc, hd, ha⟩ := r.write_frame a fun node => { node with data := elem }
    simp only [toAtomic, queued, hc, hd, ha, hp]
    exact .refl
  · -- published
    obtain ⟨hc, hd, _⟩ := r.write_frame r.tail fun node => { node with next := a }
    simp only [toAtomic, queued, hc, hd, hp]
    rw [List.drop_append_of_le_length hle]
    exact producer_take (effect_push rfl)
  · simp only [toAtomic, queued, hp]
    exact producer_ret

/-- **A step of the consumer.** -/
theorem consumer_moves (h : r.Holds rest taken pending) (hs : r.consumerStep = some r') :
    (queue unbounded).Moves r.toAtomic (r.marks .consumer) r'.toAtomic := by
  have hC := h.consumer
  rcases hc : r.consumer with _ | out | ⟨_ | _, next⟩ | ⟨next, got⟩ | old <;>
    simp only [consumerStep, ConsumerInv, hc] at hs hC <;> simp only [marks, hc]
  · cases hs
  · obtain ⟨n, hn⟩ := h.live_of_mem (head_mem_owned r.head List.mem_cons_self)
    rw [deref_of_live hn] at hs
    rw [nextOf_of_live hn]
    simp only [toAtomic, hc] at hs ⊢
    by_cases h0 : n.next = 0
    · -- no link behind the head: the chain ends there
      rw [if_pos h0] at hs ⊢
      cases hs
      have hnil : r.queued = [] := by
        rw [h.queued_eq]
        have hchain := h.chain.2
        rw [nextOf_of_live hn, h0] at hchain
        have hrest : rest = [] := by
          cases rest with
          | nil => rfl
          | cons x rest =>
            exfalso
            apply h.null
            apply head_mem_owned
            rw [hchain.1]
            exact List.mem_cons_of_mem _ List.mem_cons_self
        have hpay := h.payload
        rw [hrest] at hpay
        exact List.map_eq_nil_iff.mp hpay.symm
      refine consumer_returns ?_
      show (queue unbounded).effect r.queued _ _ = some r.queued
      rw [hnil]
      rfl
    · rw [if_neg h0] at hs ⊢
      cases hs
      exact .refl
  · cases hs
    simp only [toAtomic, hc]
    exact .refl
  · have hmem : next ∈ r.head :: rest := List.mem_cons_of_mem _ (List.mem_of_head? hC)
    obtain ⟨n, hn⟩ := h.live_of_mem (head_mem_owned next hmem)
    rw [deref_of_live hn] at hs
    cases hs
    simp only [toAtomic, hc]
    exact .refl
  · -- the head moves: the oldest element is taken
    cases hs
    obtain ⟨_, e, he, hgot⟩ := hC
    obtain ⟨pending', rfl⟩ := List.head?_eq_some_iff.mp he
    have hq : r.queued = e :: r.accepted.drop (r.delivered ++ [got]).length := by
      rw [h.queued_eq, h.accepted_eq, List.length_append, List.length_singleton, h.delivers.length_eq,
        List.drop_length_add_append]
      rfl
    have hres : got = if got.isSome then some e else none := by
      rcases got with _ | x
      · rfl
      · rw [hgot x rfl]
        rfl
    have heff : (queue unbounded).effect (e :: r.accepted.drop (r.delivered ++ [got]).length)
        (.pop got.isSome) (.popped (some (if got.isSome then some e else none))) =
        some (r.accepted.drop (r.delivered ++ [got]).length) := effect_pop_cons
    rw [← hres, ← hq] at heff
    simp only [toAtomic, hc, List.getLast?_concat]
    exact consumer_take heff
  · cases hs
    obtain ⟨hp, hd, ha⟩ := r.free_frame old
    simp only [toAtomic, queued, hp, hd, ha, hc]
    exact consumer_ret

theorem step_moves {e : Event es} (hI : r.Inv) (hs : r.step e = some r') :
    (queue unbounded).Moves r.toAtomic (r.marks e) r'.toAtomic := by
  obtain ⟨rest, taken, pending, h⟩ := hI
  cases e with
  | enqueue elem =>
    simp only [step] at hs
    split at hs
    · rename_i hp
      cases hs
      simp only [toAtomic, hp]
      exact push_null
    · rename_i hp
      cases hs
      simp only [toAtomic, hp]
      exact producer_call _
    · cases hs
  | alloc answer => exact alloc_moves hs
  | producer => exact producer_moves h hs
  | dequeue out =>
    simp only [step] at hs
    split at hs
    · rename_i hc
      cases hs
      simp only [toAtomic, hc]
      exact consumer_call _
    · cases hs
  | consumer => exact consumer_moves h hs

theorem toAtomic_init {r : Run es} (h : (system es).init r) :
    r.toAtomic = ⟨(queue unbounded).start, fun _ => .idle⟩ := by
  obtain ⟨_, _, _, _, hp, hc, hacc, _⟩ := h
  simp only [toAtomic, queued, hp, hc, hacc, List.drop_nil, sides, Atomic.mk.injEq]
  refine ⟨rfl, ?_⟩
  funext i
  cases i <;> rfl

/-! ## Wait-freedom -/

/-- The steps the producer has before it in its call, the request to the allocator among them. -/
def producerLeft : Producer es → ℕ
  | .idle => 0
  | .entered _ => 4
  | .allocated _ _ => 3
  | .written _ _ => 2
  | .published _ => 1

/-- The steps the consumer has before it in its call. -/
def consumerLeft : Consumer es → ℕ
  | .idle => 0
  | .entered _ => 4
  | .loaded _ _ => 3
  | .read _ _ => 2
  | .moved _ => 1

theorem allocStep_left {answer : Answer es} (hs : r.allocStep answer = some r') :
    producerLeft r'.producer + 1 ≤ producerLeft r.producer ∧ r'.consumer = r.consumer := by
  rcases hp : r.producer with _ | elem | _ | _ | _ <;> simp only [allocStep, hp] at hs
  · cases hs
  · split_ifs at hs with hadm
    rcases answer with _ | ⟨a, junk⟩
    · cases hs
      exact ⟨Nat.le_add_left _ _, rfl⟩
    · obtain ⟨b, rfl⟩ := Nat.exists_eq_succ_of_ne_zero hadm.1
      cases hs
      exact ⟨le_refl _, rfl⟩
  · cases hs
  · cases hs
  · cases hs

theorem producerStep_left (hs : r.producerStep = some r') :
    producerLeft r'.producer + 1 ≤ producerLeft r.producer ∧ r'.consumer = r.consumer := by
  rcases hp : r.producer with _ | _ | ⟨elem, a⟩ | ⟨elem, a⟩ | a <;>
    simp only [producerStep, hp] at hs <;> cases hs
  · exact ⟨le_refl _, (r.write_frame ..).1⟩
  · exact ⟨le_refl _, (r.write_frame ..).1⟩
  · exact ⟨le_refl _, rfl⟩

/-- No access of the consumer goes astray, so that each of its steps brings it on. -/
theorem consumerStep_left (h : r.Holds rest taken pending) (hs : r.consumerStep = some r') :
    consumerLeft r'.consumer + 1 ≤ consumerLeft r.consumer ∧ r'.producer = r.producer := by
  have hC := h.consumer
  rcases hc : r.consumer with _ | out | ⟨_ | _, next⟩ | ⟨next, got⟩ | old <;>
    simp only [consumerStep, ConsumerInv, hc] at hs hC
  · cases hs
  · obtain ⟨n, hn⟩ := h.live_of_mem (head_mem_owned r.head List.mem_cons_self)
    rw [deref_of_live hn] at hs
    simp only at hs
    split_ifs at hs <;> cases hs
    · exact ⟨Nat.le_add_left _ _, rfl⟩
    · exact ⟨le_refl _, rfl⟩
  · cases hs
    exact ⟨le_refl _, rfl⟩
  · have hmem : next ∈ r.head :: rest := List.mem_cons_of_mem _ (List.mem_of_head? hC)
    obtain ⟨n, hn⟩ := h.live_of_mem (head_mem_owned next hmem)
    rw [deref_of_live hn] at hs
    cases hs
    exact ⟨le_refl _, rfl⟩
  · cases hs
    exact ⟨le_refl _, rfl⟩
  · cases hs
    exact ⟨le_refl _, (r.free_frame old).1⟩

end Run

/-- A step of the producer: the request to the allocator is one. -/
def Event.isProducer : Event es → Bool
  | .alloc _ => true
  | .producer => true
  | _ => false

/-- A call of the producer. -/
def Event.isEnqueue : Event es → Bool
  | .enqueue _ => true
  | _ => false

/-- A step of the consumer. -/
def Event.isConsumer : Event es → Bool
  | .consumer => true
  | _ => false

/-- A call of the consumer. -/
def Event.isDequeue : Event es → Bool
  | .dequeue _ => true
  | _ => false

namespace Run

variable {r r' : Run es}

/-- What a step does to the steps the two sides have before them. -/
theorem step_left {e : Event es} (hI : r.Inv) (hs : r.step e = some r') :
    (producerLeft r'.producer + (if e.isProducer then 1 else 0) ≤
      producerLeft r.producer + if e.isEnqueue then 4 else 0) ∧
    (consumerLeft r'.consumer + (if e.isConsumer then 1 else 0) ≤
      consumerLeft r.consumer + if e.isDequeue then 4 else 0) := by
  cases e with
  | enqueue elem =>
    simp only [step] at hs
    split at hs <;> cases hs
    · exact ⟨Nat.le_add_right _ _, le_refl _⟩
    · exact ⟨Nat.le_add_left _ _, le_refl _⟩
  | alloc answer =>
    obtain ⟨hp, hc⟩ := allocStep_left hs
    rw [hc]
    exact ⟨hp, le_refl _⟩
  | producer =>
    obtain ⟨hp, hc⟩ := producerStep_left hs
    rw [hc]
    exact ⟨hp, le_refl _⟩
  | dequeue out =>
    simp only [step] at hs
    split at hs <;> cases hs
    exact ⟨le_refl _, Nat.le_add_left _ _⟩
  | consumer =>
    obtain ⟨rest, taken, pending, h⟩ := hI
    obtain ⟨hc, hp⟩ := consumerStep_left h hs
    rw [hp]
    exact ⟨le_refl _, hc⟩

/-- A producer in a call can always take its next step; the allocator may answer as it likes. -/
theorem producer_can_step (hp : r.producer ≠ .idle) :
    (∀ answer : Answer es, answer.Admissible r.heap → (r.step (.alloc answer)).isSome) ∨
      (r.step .producer).isSome := by
  rcases hr : r.producer with _ | elem | _ | _ | _
  · exact absurd hr hp
  · left
    intro answer hadm
    show (r.allocStep answer).isSome
    simp only [allocStep, hr, if_pos hadm]
    split <;> rfl
  all_goals
    right
    show r.producerStep.isSome
    simp only [producerStep, hr]
    rfl

theorem consumer_can_step (hc : r.consumer ≠ .idle) : (r.step .consumer).isSome := by
  show r.consumerStep.isSome
  unfold consumerStep
  split
  · exact absurd ‹_› hc
  · split
    · rfl
    · split_ifs <;> rfl
  · rfl
  · split <;> rfl
  · rfl
  · rfl

end Run

/-- **The linked queue is a wait-free queue.** In any interleaving of the steps of one producer and
one consumer, whatever the allocator answers: the calls and returns of a run, with all their
results, are those of a first-in first-out queue on which every call acts in one instant between its
call and its return, where an enqueue may be refused and a dequeue fails exactly on the empty queue;
and what is left in the queue are the elements accepted and not delivered.  Neither side ever waits
for the other: a side in a call can always take its next step, and it takes at most four for each
call. -/
theorem atomicQueue_linearizable {r₀ r : Run es} (hinit : (system es).init r₀) {evs : List (Event es)}
    (hr : (system es).run r₀ evs = some r) :
    (queue unbounded).Explains ((system es).trace Run.marks r₀ evs) r.queued ∧
    evs.countP Event.isProducer ≤ 4 * evs.countP Event.isEnqueue ∧
    evs.countP Event.isConsumer ≤ 4 * evs.countP Event.isDequeue ∧
    (r.producer ≠ .idle →
      (∀ answer : Answer es, answer.Admissible r.heap → (r.step (.alloc answer)).isSome) ∨
      (r.step .producer).isSome) ∧
    (r.consumer ≠ .idle → (r.step .consumer).isSome) := by
  have hI : r₀.Inv := Run.init_inv hinit
  have hstart := Run.toAtomic_init hinit
  obtain ⟨_, _, _, _, hp, hc, _⟩ := hinit
  refine ⟨?_, ?_, ?_, Run.producer_can_step, Run.consumer_can_step⟩
  · refine Object.explains_of_map (f := Run.toAtomic) (Q := Run.Inv) ?_ hI hstart hr
    intro s e s' hs he
    exact ⟨Run.step_inv hs he, Run.step_moves hs he⟩
  · have h := System.own_steps_le (S := system es) (Q := Run.Inv)
      (Φ := fun s => Run.producerLeft s.producer) (fun _ _ _ => Run.step_inv)
      (fun _ _ _ hs he => (Run.step_left hs he).1) hI hr
    rw [hp] at h
    simp only [Run.producerLeft] at h
    omega
  · have h := System.own_steps_le (S := system es) (Q := Run.Inv)
      (Φ := fun s => Run.consumerLeft s.consumer) (fun _ _ _ => Run.step_inv)
      (fun _ _ _ hs he => (Run.step_left hs he).2) hI hr
    rw [hc] at h
    simp only [Run.consumerLeft] at h
    omega

/-- An enqueue is refused, the next one is accepted and taken out before the tail has moved. -/
theorem atomicQueue_linearizable_refused :
    ∃ r₀ r : Run 1, (system 1).init r₀ ∧ (system 1).run r₀
      [.enqueue (some #v[6]), .alloc none, .enqueue (some #v[7]), .alloc (some (2, #v[0])), .producer,
        .dequeue true, .producer, .consumer, .consumer, .consumer, .consumer, .producer] = some r ∧
      (queue unbounded).Explains ((system 1).trace Run.marks r₀
        [.enqueue (some #v[6]), .alloc none, .enqueue (some #v[7]), .alloc (some (2, #v[0])),
          .producer, .dequeue true, .producer, .consumer, .consumer, .consumer, .consumer,
          .producer]) [] := by
  let s : Run 1 := ⟨Function.update (fun _ => .unused) 1 (.live ⟨0, #v[0]⟩), 1, 1, .idle, .idle, [],
    [], false⟩
  have h0 : (system 1).init s :=
    ⟨some (1, #v[0]), ⟨by norm_num, rfl⟩, rfl, rfl, rfl, rfl, rfl, rfl, rfl⟩
  have hrun : ((system 1).run s
      [.enqueue (some #v[6]), .alloc none, .enqueue (some #v[7]), .alloc (some (2, #v[0])), .producer,
        .dequeue true, .producer, .consumer, .consumer, .consumer, .consumer, .producer]).map
      Run.queued = some [] := rfl
  obtain ⟨r, hr, hq⟩ := Option.map_eq_some_iff.mp hrun
  have h := (atomicQueue_linearizable h0 hr).1
  rw [hq] at h
  exact ⟨s, r, h0, hr, h⟩

end AtomicQueue

end D4np
