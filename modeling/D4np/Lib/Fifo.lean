import D4np.Lib.Linearizability

/-!
# Queues between two sides

The sequential first-in first-out queue, as an object whose pushes may be refused: `admits q ok` says
whether a push on the queue `q` can be answered with `ok`.  A bounded queue refuses exactly where it
is full (`bounded`); a queue whose elements have to be allocated may refuse any push (`unbounded`).
A pop may be asked not to hand out the element it takes.  `sides` is the atomic object of such a
queue with one thread on each side.
-/

namespace TransitionSystem

namespace Fifo

/-- The operations of a queue; a push may come without an element. -/
inductive Op (α : Type*)
  | push (x : Option α)
  | pop (out : Bool)
  deriving DecidableEq

/-- Their results: whether the push was accepted; what was popped, if anything, and of that what was
asked for. -/
inductive Result (α : Type*)
  | pushed (ok : Bool)
  | popped (x : Option (Option α))
  deriving DecidableEq

/-- The two sides of a queue. -/
inductive Side
  | producer
  | consumer
  deriving DecidableEq

variable {α : Type*} [DecidableEq α]

/-- The queue. -/
def queue (admits : List α → Bool → Bool) : Object (List α) (Op α) (Result α) where
  start := []
  effect
    | q, .push none, .pushed false => some q
    | q, .push (some x), .pushed ok =>
      if admits q ok then some (if ok then q ++ [x] else q) else none
    | [], .pop _, .popped none => some []
    | x :: q, .pop out, .popped (some y) =>
      if y = (if out then some x else none) then some q else none
    | _, _, _ => none

/-- A queue of at most `capacity` elements refuses a push exactly when it is full. -/
def bounded (capacity : ℕ) (q : List α) (ok : Bool) : Bool := decide (q.length < capacity) == ok

/-- A queue that may refuse any push. -/
def unbounded (_ : List α) (_ : Bool) : Bool := true

variable {admits : List α → Bool → Bool} {q : List α} {x : α} {out : Bool}

theorem effect_push {ok : Bool} (h : admits q ok = true) :
    (queue admits).effect q (.push (some x)) (.pushed ok) = some (if ok then q ++ [x] else q) := by
  show (if admits q ok then some (if ok then q ++ [x] else q) else none) = _
  rw [if_pos h]

theorem effect_pop_cons :
    (queue admits).effect (x :: q) (.pop out) (.popped (some (if out then some x else none))) =
      some q := by
  show (if (if out then some x else none) = (if out then some x else none) then some q else none) = _
  rw [if_pos rfl]

/-- The atomic queue with its two sides. -/
def sides (q : List α) (p c : Stage (Op α) (Result α)) : Atomic Side (List α) (Op α) (Result α) where
  obj := q
  stage
    | .producer => p
    | .consumer => c

section Sides

variable {q' : List α} {op : Op α} {r : Result α} {p p' c c' : Stage (Op α) (Result α)}

omit [DecidableEq α] in
theorem goto_producer : { (sides q p c).goto .producer p' with obj := q' } = sides q' p' c := by
  simp only [sides, Atomic.goto, Atomic.mk.injEq, true_and]
  funext i
  cases i with
  | producer => rw [Function.update_self]
  | consumer => rw [Function.update_of_ne (by simp)]

omit [DecidableEq α] in
theorem goto_consumer : { (sides q p c).goto .consumer c' with obj := q' } = sides q' p c' := by
  simp only [sides, Atomic.goto, Atomic.mk.injEq, true_and]
  funext i
  cases i with
  | producer => rw [Function.update_of_ne (by simp)]
  | consumer => rw [Function.update_self]

theorem producer_call (op : Op α) :
    (queue admits).Moves (sides q .idle c) [.call .producer op] (sides q (.called op) c) := by
  have h : (queue admits).Moves (sides q .idle c) [.call .producer op]
      { (sides q .idle c).goto .producer (.called op) with obj := q } := Object.Moves.call rfl op
  rw [goto_producer] at h
  exact h

theorem consumer_call (op : Op α) :
    (queue admits).Moves (sides q p .idle) [.call .consumer op] (sides q p (.called op)) := by
  have h : (queue admits).Moves (sides q p .idle) [.call .consumer op]
      { (sides q p .idle).goto .consumer (.called op) with obj := q } := Object.Moves.call rfl op
  rw [goto_consumer] at h
  exact h

theorem producer_take (he : (queue admits).effect q op r = some q') :
    (queue admits).Moves (sides q (.called op) c) [] (sides q' (.done r) c) := by
  have h : (queue admits).Moves (sides q (.called op) c) []
      { (sides q (.called op) c).goto .producer (.done r) with obj := q' } :=
    Object.Moves.take rfl he
  rw [goto_producer] at h
  exact h

theorem consumer_take (he : (queue admits).effect q op r = some q') :
    (queue admits).Moves (sides q p (.called op)) [] (sides q' p (.done r)) := by
  have h : (queue admits).Moves (sides q p (.called op)) []
      { (sides q p (.called op)).goto .consumer (.done r) with obj := q' } :=
    Object.Moves.take rfl he
  rw [goto_consumer] at h
  exact h

theorem producer_ret :
    (queue admits).Moves (sides q (.done r) c) [.ret .producer r] (sides q .idle c) := by
  have h : (queue admits).Moves (sides q (.done r) c) [.ret .producer r]
      { (sides q (.done r) c).goto .producer .idle with obj := q } := Object.Moves.ret rfl
  rw [goto_producer] at h
  exact h

theorem consumer_ret :
    (queue admits).Moves (sides q p (.done r)) [.ret .consumer r] (sides q p .idle) := by
  have h : (queue admits).Moves (sides q p (.done r)) [.ret .consumer r]
      { (sides q p (.done r)).goto .consumer .idle with obj := q } := Object.Moves.ret rfl
  rw [goto_consumer] at h
  exact h

/-- The producer's call takes effect and returns at once. -/
theorem producer_returns (he : (queue admits).effect q op r = some q') :
    (queue admits).Moves (sides q (.called op) c) [.ret .producer r] (sides q' .idle c) :=
  (producer_take he).trans producer_ret

/-- The consumer's call takes effect and returns at once. -/
theorem consumer_returns (he : (queue admits).effect q op r = some q') :
    (queue admits).Moves (sides q p (.called op)) [.ret .consumer r] (sides q' p .idle) :=
  (consumer_take he).trans consumer_ret

/-- A push without an element is back at once. -/
theorem push_null :
    (queue admits).Moves (sides q .idle c) [.call .producer (.push none), .ret .producer (.pushed false)]
      (sides q .idle c) :=
  (producer_call (.push none)).trans (producer_returns rfl)

end Sides

end Fifo

end TransitionSystem
