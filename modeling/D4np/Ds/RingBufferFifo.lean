import D4np.Ds.RingBuffer
import D4np.Lib.Fifo
import D4np.Lib.Potential

/-!
# The ring buffer is a bounded queue

What the two sides see of the ring buffer, including the calls that fail, is what a queue of
`capacity` elements shows on which every call acts in one instant.  A push takes effect where it
stores the new tail, or, if it finds the buffer full, where it loads the head; a pop takes effect
where it stores the new head, or, if it finds the buffer empty, where it loads the tail.  Both loads
may be old by the time the call returns: a push may fail although a slot has become free meanwhile,
but never without an instant of its own call at which the buffer was full.
-/

namespace D4np

open Word64 TransitionSystem TransitionSystem.Fifo

namespace RingBuffer

variable {es : ℕ}

namespace Run

/-- Where the producer stands with its call. -/
def producerStage : Producer es → Stage (Op (List UInt8)) (Result (List UInt8))
  | .idle => .idle
  | .entered elem => .called (.push (some elem.toList))
  | .loadedTail elem _ => .called (.push (some elem.toList))
  | .copying elem _ _ => .called (.push (some elem.toList))

/-- Where the consumer stands with its call. -/
def consumerStage : Consumer → Stage (Op (List UInt8)) (Result (List UInt8))
  | .idle => .idle
  | .entered out => .called (.pop out)
  | .loadedHead out _ => .called (.pop out)
  | .copying _ got => .called (.pop got.isSome)

/-- The elements accepted and not yet delivered, oldest first. -/
def queued (r : Run es) : List (List UInt8) :=
  (r.accepted.drop r.delivered.length).map Vector.toList

/-- The queue and the stages of the two sides. -/
def toAtomic (r : Run es) : Atomic Side (List (List UInt8)) (Op (List UInt8)) (Result (List UInt8)) :=
  sides r.queued (producerStage r.producer) (consumerStage r.consumer)

/-- What a step shows: a call, or a return with its result; a push of a null element is back at
once. -/
def marks (r : Run es) : Event es → List (Mark Side (Op (List UInt8)) (Result (List UInt8)))
  | .push none => [.call .producer (.push none), .ret .producer (.pushed false)]
  | .push (some elem) => [.call .producer (.push (some elem.toList))]
  | .producer =>
    match r.producer with
    | .loadedTail _ tail =>
      if sub tail r.rb.head = r.rb.capacity then [.ret .producer (.pushed false)] else []
    | .copying _ _ k => if k < es then [] else [.ret .producer (.pushed true)]
    | _ => []
  | .pop out => [.call .consumer (.pop out)]
  | .consumer =>
    match r.consumer with
    | .loadedHead _ head => if head = r.rb.tail then [.ret .consumer (.popped none)] else []
    | .copying _ none => [.ret .consumer (.popped (some none))]
    | .copying _ (some got) =>
      if got.length < es then [] else [.ret .consumer (.popped (some (some got)))]
    | _ => []

variable {r r' : Run es} {capacity : ℕ}

theorem queued_length (r : Run es) :
    r.queued.length = r.accepted.length - r.delivered.length := by
  unfold queued
  rw [List.length_map, List.length_drop]

/-- **A step of the producer.** -/
theorem producer_moves (hI : r.Inv) (hcap : r.rb.capacity = capacity)
    (hs : r.producerStep = some r') :
    (queue (bounded capacity)).Moves r.toAtomic (r.marks .producer) r'.toAtomic := by
  have hP := hI.producer
  have hlen := r.queued_length
  have hle := hI.le
  rcases hp : r.producer with _ | elem | ⟨elem, tail⟩ | ⟨elem, tail, k⟩ <;>
    simp only [producerStep, ProducerInv, hp] at hs hP <;> simp only [marks, toAtomic, hp]
  · cases hs
  · cases hs
    exact .refl
  · split_ifs at hs with hfull <;> cases hs
    · -- full at the load of the head
      rw [if_pos hfull]
      refine producer_returns (effect_push ?_)
      rw [hP, hI.full_iff] at hfull
      show (decide (r.queued.length < capacity) == false) = true
      rw [decide_eq_false (by omega)]
      rfl
    · rw [if_neg hfull]
      exact .refl
  · split_ifs at hs with hk <;> cases hs
    · rw [if_pos hk]
      exact .refl
    · -- accepted with the store of the tail
      rw [if_neg hk]
      have hq : (r.accepted ++ [elem]).drop r.delivered.length =
          r.accepted.drop r.delivered.length ++ [elem] := List.drop_append_of_le_length hle
      refine producer_returns ?_
      simp only [queued, hq, List.map_append, List.map_singleton]
      refine effect_push ?_
      show (decide (r.queued.length < capacity) == true) = true
      rw [decide_eq_true (by omega)]
      rfl

/-- A pop stores the new head: it takes the oldest element, with all its bytes if it was asked. -/
theorem storeHead_moves (hI : r.Inv) {head : ℕ} {got : Option (List UInt8)}
    (hc : r.consumer = .copying head got) (hall : ∀ bytes, got = some bytes → es ≤ bytes.length) :
    (queue (bounded capacity)).Moves r.toAtomic [.ret .consumer (.popped (some got))]
      (r.storeHead head got).toAtomic := by
  have hC := hI.consumer
  simp only [ConsumerInv, hc] at hC
  obtain ⟨_, e, he, hb⟩ := hC
  obtain ⟨hlt, hget⟩ := List.getElem?_eq_some_iff.mp he
  have hq : r.queued = e.toList :: (r.storeHead head got).queued := by
    simp only [queued, storeHead, List.length_append, List.length_singleton]
    rw [List.drop_eq_getElem_cons hlt, hget, List.map_cons]
  have hgot : got = if got.isSome then some e.toList else none := by
    rcases got with _ | bytes
    · rfl
    · have heq := (hb bytes rfl).eq_of_length_le (by simpa using hall bytes rfl)
      rw [heq]
      rfl
  have heff : (queue (bounded capacity)).effect (e.toList :: (r.storeHead head got).queued)
      (.pop got.isSome) (.popped (some (if got.isSome then some e.toList else none))) =
      some (r.storeHead head got).queued := effect_pop_cons
  rw [← hgot, ← hq] at heff
  simp only [toAtomic, hc]
  exact consumer_returns heff

/-- **A step of the consumer.** -/
theorem consumer_moves (hI : r.Inv) (hs : r.consumerStep = some r') :
    (queue (bounded capacity)).Moves r.toAtomic (r.marks .consumer) r'.toAtomic := by
  have hC := hI.consumer
  rcases hc : r.consumer with _ | out | ⟨out, head⟩ | ⟨head, _ | got⟩ <;>
    simp only [consumerStep, ConsumerInv, hc] at hs hC <;> simp only [marks, hc]
  · cases hs
  · cases hs
    simp only [toAtomic, hc]
    exact .refl
  · simp only [toAtomic, hc]
    by_cases hempty : head = r.rb.tail
    · -- empty at the load of the tail
      rw [if_pos hempty] at hs ⊢
      cases hs
      rw [hC, hI.empty_iff] at hempty
      have hnil : r.queued = [] := by
        apply List.length_eq_zero_iff.mp
        rw [r.queued_length]
        omega
      refine consumer_returns ?_
      show (queue (bounded capacity)).effect r.queued _ _ = some r.queued
      rw [hnil]
      rfl
    · rw [if_neg hempty] at hs ⊢
      cases hs
      cases out <;> exact .refl
  · cases hs
    exact storeHead_moves hI hc (by simp)
  · split_ifs at hs with hlt <;> cases hs
    · rw [if_pos hlt]
      simp only [toAtomic, hc]
      exact .refl
    · rw [if_neg hlt]
      refine storeHead_moves hI hc fun bytes hbytes => ?_
      cases hbytes
      omega

theorem step_moves {e : Event es} (hI : r.Inv) (hcap : r.rb.capacity = capacity)
    (hs : r.step e = some r') :
    (queue (bounded capacity)).Moves r.toAtomic (r.marks e) r'.toAtomic := by
  cases e with
  | push elem =>
    simp only [step] at hs
    split at hs
    · rename_i hp
      cases hs
      simp only [toAtomic, hp]
      exact push_null
    · rename_i hp
      cases hs
      simp only [toAtomic, hp]
      exact producer_call _
    · cases hs
  | producer => exact producer_moves hI hcap hs
  | pop out =>
    simp only [step] at hs
    split at hs
    · rename_i hc
      cases hs
      simp only [toAtomic, hc]
      exact consumer_call _
    · cases hs
  | consumer => exact consumer_moves hI hs

/-! ## Wait-freedom -/

/-- The steps the producer has before it in its call. -/
def producerLeft : Producer es → ℕ
  | .idle => 0
  | .entered _ => es + 3
  | .loadedTail _ _ => es + 2
  | .copying _ _ k => es - k + 1

/-- The steps the consumer has before it in its call. -/
def consumerLeft (es : ℕ) : Consumer → ℕ
  | .idle => 0
  | .entered _ => es + 3
  | .loadedHead _ _ => es + 2
  | .copying _ none => 1
  | .copying _ (some got) => es - got.length + 1

theorem producerStep_left (hs : r.producerStep = some r') :
    producerLeft r'.producer + 1 ≤ producerLeft r.producer ∧ r'.consumer = r.consumer := by
  rcases hp : r.producer with _ | elem | ⟨elem, tail⟩ | ⟨elem, tail, k⟩ <;>
    simp only [producerStep, hp] at hs
  · cases hs
  · cases hs
    exact ⟨le_refl _, rfl⟩
  · split_ifs at hs <;> cases hs <;> refine ⟨?_, rfl⟩ <;> simp only [producerLeft] <;> omega
  · split_ifs at hs <;> cases hs <;> refine ⟨?_, rfl⟩ <;> simp only [producerLeft] <;> omega

theorem consumerStep_left (hs : r.consumerStep = some r') :
    consumerLeft es r'.consumer + 1 ≤ consumerLeft es r.consumer ∧ r'.producer = r.producer := by
  rcases hc : r.consumer with _ | out | ⟨out, head⟩ | ⟨head, _ | got⟩ <;>
    simp only [consumerStep, hc] at hs
  · cases hs
  · cases hs
    exact ⟨le_refl _, rfl⟩
  · split_ifs at hs <;> cases hs <;> refine ⟨?_, rfl⟩ <;>
      simp only [consumerLeft, List.length_nil] <;> omega
  · cases hs
    exact ⟨le_refl _, rfl⟩
  · split_ifs at hs <;> cases hs <;> refine ⟨?_, rfl⟩
    · simp only [consumerLeft, List.length_append, List.length_singleton]
      omega
    · simp only [consumerLeft, storeHead]
      omega

end Run

/-- A step of the producer. -/
def Event.isProducer : Event es → Bool
  | .producer => true
  | _ => false

/-- A call of the producer. -/
def Event.isPush : Event es → Bool
  | .push _ => true
  | _ => false

/-- A step of the consumer. -/
def Event.isConsumer : Event es → Bool
  | .consumer => true
  | _ => false

/-- A call of the consumer. -/
def Event.isPop : Event es → Bool
  | .pop _ => true
  | _ => false

namespace Run

variable {r r' : Run es}

/-- What a step does to the steps the two sides have before them. -/
theorem step_left {e : Event es} (hs : r.step e = some r') :
    (producerLeft r'.producer + (if e.isProducer then 1 else 0) ≤
      producerLeft r.producer + if e.isPush then es + 3 else 0) ∧
    (consumerLeft es r'.consumer + (if e.isConsumer then 1 else 0) ≤
      consumerLeft es r.consumer + if e.isPop then es + 3 else 0) := by
  cases e with
  | push elem =>
    simp only [step] at hs
    split at hs <;> cases hs
    · exact ⟨Nat.le_add_right _ _, le_refl _⟩
    · exact ⟨Nat.le_add_left _ _, le_refl _⟩
  | producer =>
    obtain ⟨hp, hc⟩ := producerStep_left hs
    rw [hc]
    exact ⟨hp, le_refl _⟩
  | pop out =>
    simp only [step] at hs
    split at hs <;> cases hs
    exact ⟨le_refl _, Nat.le_add_left _ _⟩
  | consumer =>
    obtain ⟨hc, hp⟩ := consumerStep_left hs
    rw [hp]
    exact ⟨le_refl _, hc⟩

/-- A side in a call can always take its next step. -/
theorem producer_can_step (hp : r.producer ≠ .idle) : (r.step .producer).isSome := by
  show r.producerStep.isSome
  unfold producerStep
  split
  · exact absurd ‹_› hp
  · rfl
  · split_ifs <;> rfl
  · split_ifs <;> rfl

theorem consumer_can_step (hc : r.consumer ≠ .idle) : (r.step .consumer).isSome := by
  show r.consumerStep.isSome
  unfold consumerStep
  split
  · exact absurd ‹_› hc
  · rfl
  · split_ifs <;> rfl
  · rfl
  · split_ifs <;> rfl

theorem step_capacity {e : Event es} (hs : r.step e = some r') : r'.rb.capacity = r.rb.capacity := by
  cases e with
  | push elem =>
    simp only [step] at hs
    split at hs <;> cases hs <;> rfl
  | producer =>
    replace hs : r.producerStep = some r' := hs
    unfold producerStep at hs
    split at hs <;> (try split_ifs at hs) <;> cases hs <;> rfl
  | pop out =>
    simp only [step] at hs
    split at hs <;> cases hs
    rfl
  | consumer =>
    replace hs : r.consumerStep = some r' := hs
    unfold consumerStep at hs
    split at hs <;> (try split_ifs at hs) <;> cases hs <;> rfl

end Run

/-- **The ring buffer is a wait-free bounded queue.** In any interleaving of the steps of one
producer and one consumer, however often the counters wrap: the calls and returns of a run, with all
their results, are those of a queue of `capacity` elements on which every call acts in one instant
between its call and its return, and the elements left in it are the ones accepted and not
delivered.  Neither side ever waits for the other: a side in a call can always take its next step,
and it takes at most `elem_size + 3` for each call. -/
theorem ringBuffer_linearizable {r₀ r : Run es} (hinit : (system es).init r₀) {evs : List (Event es)}
    (hr : (system es).run r₀ evs = some r) :
    (queue (bounded r₀.rb.capacity)).Explains ((system es).trace Run.marks r₀ evs) r.queued ∧
    evs.countP Event.isProducer ≤ (es + 3) * evs.countP Event.isPush ∧
    evs.countP Event.isConsumer ≤ (es + 3) * evs.countP Event.isPop ∧
    (r.producer ≠ .idle → (r.step .producer).isSome) ∧
    (r.consumer ≠ .idle → (r.step .consumer).isSome) := by
  have hI : r₀.Inv := Run.reachable_inv (.init hinit)
  obtain ⟨_, _, _, _, _, _, _, hp, hc, hacc, _⟩ := hinit
  have hstart : r₀.toAtomic = ⟨(queue (bounded r₀.rb.capacity)).start, fun _ => .idle⟩ := by
    simp only [Run.toAtomic, Run.queued, hp, hc, hacc, List.drop_nil, List.map_nil, sides,
      Atomic.mk.injEq]
    refine ⟨rfl, ?_⟩
    funext i
    cases i <;> rfl
  refine ⟨?_, ?_, ?_, Run.producer_can_step, Run.consumer_can_step⟩
  · refine Object.explains_of_map (f := Run.toAtomic)
      (Q := fun s => s.Inv ∧ s.rb.capacity = r₀.rb.capacity) ?_ ⟨hI, rfl⟩ hstart hr
    rintro s e s' ⟨hs, hcap⟩ he
    exact ⟨⟨Run.step_inv hs he, (Run.step_capacity he).trans hcap⟩, Run.step_moves hs hcap he⟩
  · have h := System.own_steps_le (S := system es) (Q := fun _ => True)
      (Φ := fun s => Run.producerLeft s.producer) (fun _ _ _ _ _ => trivial)
      (fun _ _ _ _ he => (Run.step_left he).1) trivial hr
    rw [hp] at h
    simp only [Run.producerLeft] at h
    omega
  · have h := System.own_steps_le (S := system es) (Q := fun _ => True)
      (Φ := fun s => Run.consumerLeft es s.consumer) (fun _ _ _ _ _ => trivial)
      (fun _ _ _ _ he => (Run.step_left he).2) trivial hr
    rw [hc] at h
    simp only [Run.consumerLeft] at h
    omega

/-- A buffer of one slot: a push, a push that finds it full, a pop. -/
theorem ringBuffer_linearizable_full :
    ∃ r₀ r : Run 1, (system 1).init r₀ ∧ (system 1).run r₀
      [.push (some #v[7]), .producer, .producer, .producer, .producer, .push (some #v[8]),
        .producer, .pop true, .producer, .consumer, .consumer, .consumer, .consumer] = some r ∧
      (queue (bounded r₀.rb.capacity)).Explains ((system 1).trace Run.marks r₀
        [.push (some #v[7]), .producer, .producer, .producer, .producer, .push (some #v[8]),
          .producer, .pop true, .producer, .consumer, .consumer, .consumer, .consumer]) [] := by
  obtain ⟨rb, heap, hinit⟩ : ∃ rb heap, init pageAllocator 1 1 ⟨0, []⟩ = (.ok, some rb, heap) :=
    ⟨_, _, rfl⟩
  have h0 : (system 1).init ⟨rb, fun _ => 0, .idle, .idle, [], []⟩ :=
    ⟨pageAllocator, 1, ⟨0, []⟩, heap, by norm_num, by norm_num, hinit, rfl, rfl, rfl, rfl⟩
  have hrun : ((system 1).run ⟨rb, fun _ => 0, .idle, .idle, [], []⟩
      [.push (some #v[7]), .producer, .producer, .producer, .producer, .push (some #v[8]),
        .producer, .pop true, .producer, .consumer, .consumer, .consumer, .consumer]).map
      Run.queued = some [] := by
    cases hinit
    rfl
  obtain ⟨r, hr, hq⟩ := Option.map_eq_some_iff.mp hrun
  have h := (ringBuffer_linearizable h0 hr).1
  rw [hq] at h
  exact ⟨_, r, h0, hr, h⟩

end RingBuffer

end D4np
