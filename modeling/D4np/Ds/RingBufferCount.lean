import D4np.Ds.RingBuffer

/-!
# Counting a ring buffer in use

A third thread calls `d4np_ring_buffer_count` while the producer and the consumer are at work.  It
loads the tail, and some time later the head.  What it returns is the number of the elements it saw
accepted less those delivered by then, modulo `2 ^ 64`.  As long as the consumer has not passed the
tail that was loaded this is at most the capacity; once it has, the difference is negative and the
count wraps to a number near `2 ^ 64`.
-/

namespace D4np

open Word64 TransitionSystem

namespace RingBuffer

variable {es : ℕ}

/-- Where a thread is in `d4np_ring_buffer_count`; `seen` is the number of elements that were
accepted when it loaded the tail. -/
inductive Observer
  | idle
  | entered
  | loadedTail (tail seen : ℕ)
  | returned (count : ℕ)

/-- A ring buffer in use, and a thread that counts it. -/
structure Observed (es : ℕ) where
  run : Run es
  observer : Observer

/-- A step of the producer or the consumer, a call of the observer, or its next step. -/
inductive ObservedEvent (es : ℕ)
  | ring (e : Event es)
  | call
  | observer

namespace Observed

/-- The next step of `d4np_ring_buffer_count`. -/
def observerStep (o : Observed es) : Option (Observed es) :=
  match o.observer with
  | .entered => some { o with observer := .loadedTail o.run.rb.tail o.run.accepted.length }
  | .loadedTail tail _ => some { o with observer := .returned (sub tail o.run.rb.head) }
  | _ => none

def step (o : Observed es) : ObservedEvent es → Option (Observed es)
  | .ring e => (o.run.step e).map fun r => { o with run := r }
  | .call =>
    match o.observer with
    | .idle | .returned _ => some { o with observer := .entered }
    | _ => none
  | .observer => o.observerStep

end Observed

/-- The runs of a ring buffer with an observer. -/
def observed (es : ℕ) : System (Observed es) (ObservedEvent es) where
  init o := (system es).init o.run ∧ o.observer = .idle
  step := Observed.step

/-- The pops that went past the tail that was loaded, when `seen` elements had been accepted, are
none modulo `2 ^ 64`, or at least `2 ^ 64` less the capacity. -/
def NotPassed (r : Run es) (seen : ℕ) : Prop :=
  (r.delivered.length - seen) % 2 ^ 64 = 0 ∨
    2 ^ 64 ≤ (r.delivered.length - seen) % 2 ^ 64 + r.rb.capacity

instance (r : Run es) (seen : ℕ) : Decidable (NotPassed r seen) :=
  inferInstanceAs (Decidable (_ ∨ _))

/-- A load of the head comes before the consumer has passed the tail that was loaded. -/
def InTime (o : Observed es) : ObservedEvent es → Prop
  | .observer => ∀ tail seen, o.observer = .loadedTail tail seen → NotPassed o.run seen
  | _ => True

instance (o : Observed es) : (e : ObservedEvent es) → Decidable (InTime o e)
  | .observer =>
    match h : o.observer with
    | .loadedTail _ seen => decidable_of_iff (NotPassed o.run seen)
        ⟨fun hn t s he => by rw [h] at he; cases he; exact hn, fun hn => hn _ _ h⟩
    | .idle | .entered | .returned _ =>
      isTrue fun _ _ he => by rw [h] at he; cases he
  | .ring _ | .call => inferInstanceAs (Decidable True)

namespace Observed

variable {o o' : Observed es} {r r' : Run es}

/-- A step keeps the capacity, and pushes only add elements. -/
theorem frame_of_step {e : Event es} (hs : r.step e = some r') :
    r'.rb.capacity = r.rb.capacity ∧ r.accepted.length ≤ r'.accepted.length := by
  cases e with
  | push elem =>
    simp only [Run.step] at hs
    split at hs <;> cases hs <;> exact ⟨rfl, le_refl _⟩
  | producer =>
    simp only [Run.step, Run.producerStep] at hs
    split at hs
    · cases hs
    · cases hs
      exact ⟨rfl, le_refl _⟩
    · split_ifs at hs <;> cases hs <;> exact ⟨rfl, le_refl _⟩
    · split_ifs at hs <;> cases hs
      · exact ⟨rfl, le_refl _⟩
      · exact ⟨rfl, by simp⟩
  | pop out =>
    simp only [Run.step] at hs
    split at hs <;> cases hs
    exact ⟨rfl, le_refl _⟩
  | consumer =>
    simp only [Run.step, Run.consumerStep] at hs
    split at hs
    · cases hs
    · cases hs
      exact ⟨rfl, le_refl _⟩
    · split_ifs at hs <;> cases hs <;> exact ⟨rfl, le_refl _⟩
    · cases hs
      exact ⟨rfl, le_refl _⟩
    · split_ifs at hs <;> cases hs <;> exact ⟨rfl, le_refl _⟩

/-- What the observer loaded is the counter of the elements it saw. -/
structure Inv (o : Observed es) : Prop where
  run : o.run.Inv
  seen : ∀ tail seen, o.observer = .loadedTail tail seen →
    tail = wrap seen ∧ seen ≤ o.run.accepted.length

theorem step_inv {e : ObservedEvent es} (hI : o.Inv) (hs : o.step e = some o') : o'.Inv := by
  cases e with
  | ring e =>
    obtain ⟨r, hr, heq⟩ := Option.map_eq_some_iff.mp hs
    cases heq
    refine ⟨Run.step_inv hI.run hr, fun tail seen ho => ?_⟩
    obtain ⟨htail, hseen⟩ := hI.seen tail seen ho
    exact ⟨htail, hseen.trans (frame_of_step hr).2⟩
  | call =>
    simp only [step] at hs
    split at hs <;> cases hs
    all_goals
      refine ⟨hI.run, fun tail seen ho => ?_⟩
      cases ho
  | observer =>
    simp only [step, observerStep] at hs
    split at hs <;> cases hs
    · refine ⟨hI.run, fun tail seen ho => ?_⟩
      cases ho
      exact ⟨hI.run.tail_eq, le_refl _⟩
    · refine ⟨hI.run, fun tail seen ho => ?_⟩
      cases ho

theorem reachable_inv (h : Reachable (observed es) o) : o.Inv := by
  refine Reachable.induct ?_ (fun _ _ _ => step_inv) h
  rintro o ⟨h0, hidle⟩
  refine ⟨Run.reachable_inv (.init h0), fun tail seen ho => ?_⟩
  rw [hidle] at ho
  cases ho

/-- The count of an observer that saw `seen` elements accepted. -/
theorem Inv.count_le_iff (hI : o.Inv) {tail seen : ℕ} (ho : o.observer = .loadedTail tail seen) :
    sub tail o.run.rb.head ≤ o.run.rb.capacity ↔ NotPassed o.run seen := by
  obtain ⟨htail, hseen⟩ := hI.seen tail seen ho
  have hbound := hI.run.bound
  have hcap := hI.run.layout.capacity_lt
  rw [htail, hI.run.head_eq]
  unfold NotPassed
  by_cases hle : o.run.delivered.length ≤ seen
  · rw [sub_wrap hle (by omega)]
    omega
  · unfold sub wrap
    omega

/-- In a run whose counts load the head in time, every count is at most the capacity. -/
theorem guarded_count_le (h : Reachable ((observed es).guarded InTime) o) :
    ∀ count, o.observer = .returned count → count ≤ o.run.rb.capacity := by
  induction h with
  | init h0 =>
    intro count ho
    rw [h0.2] at ho
    cases ho
  | @step o o' e hr hs ih =>
    obtain ⟨hg, hs⟩ := System.guarded_step.mp hs
    have hI := reachable_inv hr.of_guarded
    intro count ho
    cases e with
    | ring e =>
      obtain ⟨r, hr, heq⟩ := Option.map_eq_some_iff.mp hs
      cases heq
      rw [(frame_of_step hr).1]
      exact ih count ho
    | call =>
      simp only [observed, step] at hs
      split at hs <;> cases hs <;> cases ho
    | observer =>
      simp only [observed, step, observerStep] at hs
      split at hs
      · cases hs
        cases ho
      · rename_i tail seen hobs
        cases hs
        cases ho
        exact (hI.count_le_iff hobs).mpr (hg tail seen hobs)
      · cases hs

end Observed

/-- **A count in time is at most the capacity.** In any interleaving of a producer, a consumer and a
thread that counts: the value a call of `d4np_ring_buffer_count` returns is at most the capacity
exactly when the pops that had passed the loaded tail at its load of the head are none modulo `2 ^
64`, or at least `2 ^ 64` less the capacity; so it always is in a run whose counts load the head
before that. -/
theorem count_le_capacity_iff_notPassed (o : Observed es) :
    (Reachable (observed es) o → ∀ tail seen, o.observer = .loadedTail tail seen →
      ∃ count, o.step .observer = some { o with observer := .returned count } ∧
        (count ≤ o.run.rb.capacity ↔ NotPassed o.run seen)) ∧
    (Reachable ((observed es).guarded InTime) o → ∀ count, o.observer = .returned count →
      count ≤ o.run.rb.capacity) := by
  refine ⟨fun h tail seen ho => ?_, Observed.guarded_count_le⟩
  refine ⟨sub tail o.run.rb.head, ?_, (Observed.reachable_inv h).count_le_iff ho⟩
  simp only [Observed.step, Observed.observerStep, ho]

/-- A buffer of one slot as `d4np_ring_buffer_init` leaves it, and a thread that will count it. -/
def oneSlot : Observed 1 :=
  ⟨⟨⟨pageAllocator, 4096, 1, 0, 0, 0⟩, fun _ => 0, .idle, .idle, [], []⟩, .idle⟩

theorem oneSlot_init : (observed 1).init oneSlot :=
  ⟨⟨pageAllocator, 1, ⟨0, []⟩, _, by norm_num, by norm_num, rfl, rfl, rfl, rfl, rfl⟩, rfl⟩

/-- One element is pushed. -/
def pushOne : List (ObservedEvent 1) :=
  [.ring (.push (some #v[7])), .ring .producer, .ring .producer, .ring .producer, .ring .producer]

/-- One element is popped. -/
def popOne : List (ObservedEvent 1) :=
  [.ring (.pop false), .ring .consumer, .ring .consumer, .ring .consumer]

theorem count_le_capacity_one_slot :
    ∃ o : Observed 1, Reachable ((observed 1).guarded InTime) o ∧ o.observer = .returned 1 ∧
      1 ≤ o.run.rb.capacity := by
  have h0 : Reachable ((observed 1).guarded InTime) oneSlot := .init oneSlot_init
  obtain ⟨o, hrun, ho⟩ : ∃ o, ((observed 1).guarded InTime).run oneSlot
      (pushOne ++ [.call, .observer, .observer]) = some o ∧ o.observer = .returned 1 :=
    ⟨_, rfl, rfl⟩
  have hr := h0.run hrun
  exact ⟨o, hr, ho, (count_le_capacity_iff_notPassed o).2 hr 1 ho⟩

/-- An element goes through the buffer between the two loads of a count. -/
theorem count_wraps_past_capacity :
    ∃ o : Observed 1, Reachable (observed 1) o ∧ o.observer = .returned (2 ^ 64 - 1) ∧
      o.run.rb.capacity = 1 := by
  have h0 : Reachable (observed 1) oneSlot := .init oneSlot_init
  obtain ⟨o, hrun, ho, hcap⟩ : ∃ o, (observed 1).run oneSlot
      ([.call, .observer] ++ pushOne ++ popOne ++ [.observer]) = some o ∧
      o.observer = .returned (2 ^ 64 - 1) ∧ o.run.rb.capacity = 1 := ⟨_, rfl, rfl, rfl⟩
  exact ⟨o, h0.run hrun, ho, hcap⟩

end RingBuffer

end D4np
