import D4np.Core.Allocator
import D4np.Lib.TransitionSystem
import Mathlib.Algebra.BigOperators.Fin
import Mathlib.Tactic

/-!
# The counting semaphore

The POSIX semaphore: a mutex, a condition variable and a count.  Any number of threads call
`d4np_semaphore_wait`, `d4np_semaphore_trywait` and `d4np_semaphore_post`; a step is one call of the
mutex or the condition variable, or one access to the count.  A thread that waits on the condition
variable gives up the mutex and falls asleep in one step, a signal wakes any sleepers it likes, but
at least one if there are any, and a sleeper may wake up by itself.

A permit that is free while a thread sleeps must have a thread to take it.  So every thread on its
way from its sleep to its next look at the count is worth one permit, and so is a post on its way
from the count to the signal: while somebody sleeps, the count is at most the worth of all threads
(`Inv.awake`).  A newcomer that takes a permit only lowers the count.
-/

namespace D4np

open Word64 TransitionSystem

/-- Where a thread stands; in a wait, whether it has slept. -/
inductive SemPc
  | idle
  | waitLock
  | waitCheck (slept : Bool)
  | sleeping
  | relock
  | waitDec (slept : Bool)
  | waitUnlock
  | tryLock
  | tryCheck
  | tryDec
  | tryUnlock (ok : Bool)
  | postLock
  | postInc
  | postSignal
  | postUnlock
  deriving DecidableEq, Repr

/-- `d4np_sem_posix`, the threads that use it, and how many permits were taken and posted. -/
structure Semaphore (ι : Type*) where
  count : ℕ
  holder : Option ι
  pc : ι → SemPc
  taken : ℕ
  posted : ℕ

namespace SemPc

/-- The thread is between its lock and its unlock. -/
def inside : SemPc → Bool
  | waitCheck _ | waitDec _ | waitUnlock | tryCheck | tryDec | tryUnlock _ | postInc | postSignal
  | postUnlock => true
  | _ => false

/-- The thread decrements the count next. -/
def decrements : SemPc → Bool
  | waitDec _ | tryDec => true
  | _ => false

/-- A thread that has slept and not yet been served, and a post that has not yet signalled, are
worth one permit. -/
def worth : SemPc → ℕ
  | waitCheck slept | waitDec slept => if slept then 1 else 0
  | relock | postSignal => 1
  | _ => 0

theorem inside_of_decrements {c : SemPc} (h : c.decrements = true) : c.inside = true := by
  cases c <;> first | rfl | cases h

end SemPc

namespace Semaphore

variable {ι : Type*} [DecidableEq ι]

/-- The functions of the semaphore. -/
inductive Call
  | wait
  | trywait
  | post
  deriving DecidableEq

/-- A thread calls a function, or takes its next step; the signal of a post names the sleepers it
wakes; a sleeper wakes up by itself. -/
inductive Event (ι : Type*)
  | call (i : ι) (c : Call)
  | run (i : ι)
  | signal (i : ι) (woken : Finset ι)
  | spurious (i : ι)

/-- `d4np_semaphore_init`, with the answers of the mutex and of the condition variable. -/
def init (initialCount : ℕ) (mutexOk condOk : Bool) : Except Status (Semaphore ι) :=
  if mutexOk = false then .error .errInternal
  else if condOk = false then .error .errInternal
  else .ok ⟨initialCount, none, fun _ => .idle, 0, 0⟩

/-- Where a call starts. -/
def entry : Call → SemPc
  | .wait => .waitLock
  | .trywait => .tryLock
  | .post => .postLock

/-- Thread `i` goes to `c`. -/
def goto (s : Semaphore ι) (i : ι) (c : SemPc) : Semaphore ι :=
  { s with pc := Function.update s.pc i c }

/-- `pthread_mutex_lock`, which waits while the mutex is held. -/
def lock (s : Semaphore ι) (i : ι) (c : SemPc) : Option (Semaphore ι) :=
  if s.holder = none then some { s.goto i c with holder := some i } else none

/-- `pthread_mutex_unlock`. -/
def unlock (s : Semaphore ι) (i : ι) : Semaphore ι := { s.goto i .idle with holder := none }

/-- `p->count--`. -/
def dec (s : Semaphore ι) (i : ι) (c : SemPc) : Semaphore ι :=
  { s.goto i c with count := sub s.count 1, taken := s.taken + 1 }

/-- The next step of thread `i`; a call, a sleep and a signal are events of their own. -/
def advance (s : Semaphore ι) (i : ι) : Option (Semaphore ι) :=
  match s.pc i with
  | .idle | .sleeping | .postSignal => none
  -- `d4np_semaphore_wait`
  | .waitLock => s.lock i (.waitCheck false)
  | .waitCheck slept =>
    if s.count = 0 then some { s.goto i .sleeping with holder := none }
    else some (s.goto i (.waitDec slept))
  | .relock => s.lock i (.waitCheck true)
  | .waitDec _ => some (s.dec i .waitUnlock)
  | .waitUnlock => some (s.unlock i)
  -- `d4np_semaphore_trywait`
  | .tryLock => s.lock i .tryCheck
  | .tryCheck => some (s.goto i (if s.count > 0 then .tryDec else .tryUnlock false))
  | .tryDec => some (s.dec i (.tryUnlock true))
  | .tryUnlock _ => some (s.unlock i)
  -- `d4np_semaphore_post`
  | .postLock => s.lock i .postInc
  | .postInc => some { s.goto i .postSignal with count := wrap (s.count + 1), posted := s.posted + 1 }
  | .postUnlock => some (s.unlock i)

/-- The threads after the signal of thread `i`. -/
def wake (s : Semaphore ι) (i : ι) (woken : Finset ι) (j : ι) : SemPc :=
  if j = i then .postUnlock else if j ∈ woken then .relock else s.pc j

variable [Fintype ι]

/-- One step. -/
def step (s : Semaphore ι) : Event ι → Option (Semaphore ι)
  | .call i c => if s.pc i = .idle then some (s.goto i (entry c)) else none
  | .run i => s.advance i
  | .signal i woken =>
    if s.pc i = .postSignal ∧ (∀ j ∈ woken, s.pc j = .sleeping) ∧
        ((∃ j, s.pc j = .sleeping) → woken.Nonempty) then
      some { s with pc := s.wake i woken }
    else none
  | .spurious i => if s.pc i = .sleeping then some (s.goto i .relock) else none

/-- The threads of a semaphore with the given initial count. -/
def system (ι : Type*) [DecidableEq ι] [Fintype ι] (initialCount : ℕ) :
    System (Semaphore ι) (Event ι) where
  init s := ∃ mutexOk condOk, init initialCount mutexOk condOk = .ok s
  step := step

/-- A post does not find the count at the maximum of `unsigned long`. -/
def NotFull (s : Semaphore ι) : Event ι → Prop
  | .run i => s.pc i = .postInc → s.count < maxWord
  | _ => True

instance (s : Semaphore ι) : (e : Event ι) → Decidable (NotFull s e)
  | .run _ => inferInstanceAs (Decidable (_ → _))
  | .call _ _ | .signal _ _ | .spurious _ => inferInstanceAs (Decidable True)

/-! ## The invariant -/

/-- The invariant of a semaphore with the given initial count. -/
structure Inv (initialCount : ℕ) (s : Semaphore ι) : Prop where
  mutex : ∀ j, (s.pc j).inside = true ↔ s.holder = some j
  balance : s.taken + s.count = initialCount + s.posted
  word : s.count < 2 ^ 64
  decrement : ∀ j, (s.pc j).decrements = true → 0 < s.count
  awake : (∃ j, s.pc j = .sleeping) → s.count ≤ ∑ j, (s.pc j).worth

/-- The worth of the threads after one of them has moved. -/
theorem sum_worth_update (pc : ι → SemPc) (i : ι) (c : SemPc) :
    (∑ j, (Function.update pc i c j).worth) + (pc i).worth = (∑ j, (pc j).worth) + c.worth := by
  have hnew := Finset.add_sum_erase Finset.univ (fun j => (Function.update pc i c j).worth)
    (Finset.mem_univ i)
  have hold := Finset.add_sum_erase Finset.univ (fun j => (pc j).worth) (Finset.mem_univ i)
  have hrest : ∑ j ∈ Finset.univ.erase i, (Function.update pc i c j).worth =
      ∑ j ∈ Finset.univ.erase i, (pc j).worth := by
    apply Finset.sum_congr rfl
    intro j hj
    rw [Function.update_of_ne (Finset.ne_of_mem_erase hj)]
  simp only [Function.update_self] at hnew
  omega

variable {initialCount : ℕ} {s t : Semaphore ι} {i : ι}

/-- A thread moves: what the step must show. -/
theorem Inv.move (h : Inv initialCount s) {c : SemPc} {holder : Option ι} {count taken posted : ℕ}
    (hother : ∀ j, j ≠ i → (holder = some j ↔ s.holder = some j))
    (hself : c.inside = true ↔ holder = some i)
    (hbalance : taken + count = initialCount + posted) (hword : count < 2 ^ 64)
    (hcount : count = s.count ∨ s.holder = some i) (hdec : c.decrements = true → 0 < count)
    (hawake : count = 0 ∨ (c ≠ .sleeping ∧ count + (s.pc i).worth ≤ s.count + c.worth)) :
    Inv initialCount ⟨count, holder, Function.update s.pc i c, taken, posted⟩ where
  mutex := by
    intro j
    show (Function.update s.pc i c j).inside = true ↔ holder = some j
    by_cases hj : j = i
    · subst hj
      rw [Function.update_self]
      exact hself
    · rw [Function.update_of_ne hj, h.mutex j, hother j hj]
  balance := hbalance
  word := hword
  decrement := by
    intro j hd
    show 0 < count
    replace hd : (Function.update s.pc i c j).decrements = true := hd
    by_cases hj : j = i
    · subst hj
      rw [Function.update_self] at hd
      exact hdec hd
    · rw [Function.update_of_ne hj] at hd
      -- the thread about to decrement holds the mutex, so the count has not moved
      have hheld := (h.mutex j).mp (SemPc.inside_of_decrements hd)
      rcases hcount with he | he
      · rw [he]
        exact h.decrement j hd
      · rw [he, Option.some_inj] at hheld
        exact absurd hheld.symm hj
  awake := by
    rintro ⟨j, hj⟩
    replace hj : Function.update s.pc i c j = .sleeping := hj
    show count ≤ ∑ j, (Function.update s.pc i c j).worth
    rcases hawake with hz | ⟨hc, hle⟩
    · omega
    · have hne : j ≠ i := by
        rintro rfl
        rw [Function.update_self] at hj
        exact hc hj
      rw [Function.update_of_ne hne] at hj
      have hsum := sum_worth_update s.pc i c
      have := h.awake ⟨j, hj⟩
      omega

theorem Inv.lock (h : Inv initialCount s) {c : SemPc} (ht : s.lock i c = some t)
    (hi : (s.pc i).worth = c.worth) (hc : c.inside = true) (hd : c.decrements = false)
    (hs : c ≠ .sleeping) : Inv initialCount t := by
  unfold Semaphore.lock at ht
  split_ifs at ht with hfree
  cases ht
  refine h.move ?_ (iff_of_true hc rfl) h.balance h.word (Or.inl rfl) ?_
    (Or.inr ⟨hs, Nat.add_le_add_left hi.le _⟩)
  · intro j hj
    rw [hfree]
    simp [Ne.symm hj]
  · intro hd'
    rw [hd] at hd'
    cases hd'

theorem Inv.unlock (h : Inv initialCount s) (hin : (s.pc i).inside = true)
    (hw : (s.pc i).worth = 0) : Inv initialCount (s.unlock i) := by
  have hheld := (h.mutex i).mp hin
  refine h.move ?_ (by simp [SemPc.inside]) h.balance h.word (Or.inl rfl) nofun
    (Or.inr ⟨nofun, by rw [hw]; exact Nat.le_add_right _ _⟩)
  intro j hj
  rw [hheld]
  simp [Ne.symm hj]

/-- A decrement, which finds the count positive. -/
theorem Inv.dec (h : Inv initialCount s) (hd : (s.pc i).decrements = true) {c : SemPc}
    (hc : c.inside = true) (hd' : c.decrements = false) (hs : c ≠ .sleeping) :
    Inv initialCount (s.dec i c) := by
  have hpos := h.decrement i hd
  have hword := h.word
  have hbal := h.balance
  have hsub : sub s.count 1 = s.count - 1 := sub_one hpos hword
  have hheld := (h.mutex i).mp (SemPc.inside_of_decrements hd)
  have hworth : (s.pc i).worth ≤ 1 := by
    rcases s.pc i with _ | _ | b | _ | _ | b | _ | _ | _ | _ | _ | _ | _ | _ | _ <;>
      first | cases b <;> simp [SemPc.worth] | simp [SemPc.worth]
  refine h.move (fun _ _ => Iff.rfl) (iff_of_true hc hheld) ?_ ?_ (Or.inr hheld) ?_
    (Or.inr ⟨hs, ?_⟩)
  · show s.taken + 1 + sub s.count 1 = initialCount + s.posted
    omega
  · omega
  · intro hd''
    rw [hd'] at hd''
    cases hd''
  · omega

/-- A move of the mutex's holder that leaves the count alone. -/
theorem Inv.inside (h : Inv initialCount s) (hin : (s.pc i).inside = true) {c : SemPc}
    (hc : c.inside = true) (hd : c.decrements = true → 0 < s.count) (hs : c ≠ .sleeping)
    (hw : (s.pc i).worth ≤ c.worth) : Inv initialCount (s.goto i c) :=
  h.move (fun _ _ => Iff.rfl) (iff_of_true hc ((h.mutex i).mp hin)) h.balance h.word (Or.inl rfl) hd
    (Or.inr ⟨hs, by omega⟩)

/-- A move of a thread outside its critical section. -/
theorem Inv.outside (h : Inv initialCount s) (hout : (s.pc i).inside = false) {c : SemPc}
    (hc : c.inside = false) (hs : c ≠ .sleeping) (hw : (s.pc i).worth ≤ c.worth) :
    Inv initialCount (s.goto i c) := by
  refine h.move (fun _ _ => Iff.rfl) ?_ h.balance h.word (Or.inl rfl) ?_ (Or.inr ⟨hs, by omega⟩)
  · rw [← h.mutex i, hout, hc]
  · intro hd
    rw [SemPc.inside_of_decrements hd] at hc
    cases hc

/-- A thread that finds the count zero falls asleep. -/
theorem Inv.sleep (h : Inv initialCount s) (hin : (s.pc i).inside = true) (hz : s.count = 0) :
    Inv initialCount { s.goto i .sleeping with holder := none } := by
  have hheld := (h.mutex i).mp hin
  refine h.move ?_ (by simp [SemPc.inside]) h.balance h.word (Or.inl rfl) nofun (Or.inl hz)
  intro j hj
  rw [hheld]
  simp [Ne.symm hj]

/-- A post that has not signalled yet is worth the permit it has made. -/
theorem Inv.inc (h : Inv initialCount s) (hi : s.pc i = .postInc) (hfull : s.count < maxWord) :
    Inv initialCount
      { s.goto i .postSignal with count := wrap (s.count + 1), posted := s.posted + 1 } := by
  have hheld : s.holder = some i := (h.mutex i).mp (by rw [hi]; rfl)
  have hbal := h.balance
  have hwrap : wrap (s.count + 1) = s.count + 1 := by
    unfold maxWord at hfull
    exact wrap_of_lt (by omega)
  refine h.move (fun _ _ => Iff.rfl) (iff_of_true rfl hheld) ?_ ?_ (Or.inr hheld) nofun
    (Or.inr ⟨nofun, ?_⟩)
  · show s.taken + wrap (s.count + 1) = initialCount + (s.posted + 1)
    omega
  · unfold maxWord at hfull
    omega
  · rw [hwrap, hi]
    exact le_refl _

/-- **The step of a thread.** -/
theorem Inv.advance (h : Inv initialCount s) (hfull : s.pc i = .postInc → s.count < maxWord)
    (ht : s.advance i = some t) : Inv initialCount t := by
  unfold Semaphore.advance at ht
  rcases hpc : s.pc i with _ | _ | slept | _ | _ | slept | _ | _ | _ | _ | ok | _ | _ | _ | _
  all_goals rw [hpc] at ht
  · cases ht
  · exact h.lock ht (by rw [hpc]; rfl) rfl rfl nofun
  · simp only at ht
    split_ifs at ht with hz
    · cases ht
      exact h.sleep (by rw [hpc]; rfl) hz
    · cases ht
      exact h.inside (by rw [hpc]; rfl) rfl (fun _ => Nat.pos_of_ne_zero hz) nofun
        (by rw [hpc]; exact le_refl _)
  · cases ht
  · exact h.lock ht (by rw [hpc]; rfl) rfl rfl nofun
  · obtain rfl := Option.some.inj ht
    exact h.dec (by rw [hpc]; rfl) rfl rfl nofun
  · cases ht
    exact h.unlock (by rw [hpc]; rfl) (by rw [hpc]; rfl)
  · exact h.lock ht (by rw [hpc]; rfl) rfl rfl nofun
  · cases ht
    by_cases hpos : s.count > 0
    · rw [if_pos hpos]
      exact h.inside (by rw [hpc]; rfl) rfl (fun _ => hpos) nofun (by rw [hpc]; exact le_refl _)
    · rw [if_neg hpos]
      exact h.inside (by rw [hpc]; rfl) rfl nofun nofun (by rw [hpc]; exact le_refl _)
  · obtain rfl := Option.some.inj ht
    exact h.dec (by rw [hpc]; rfl) rfl rfl nofun
  · cases ht
    exact h.unlock (by rw [hpc]; rfl) (by rw [hpc]; rfl)
  · exact h.lock ht (by rw [hpc]; rfl) rfl rfl nofun
  · cases ht
    exact h.inc hpc (hfull hpc)
  · cases ht
  · cases ht
    exact h.unlock (by rw [hpc]; rfl) (by rw [hpc]; rfl)

omit [Fintype ι] in
/-- Where a thread stands after a signal. -/
theorem wake_cases (s : Semaphore ι) (i : ι) {woken : Finset ι}
    (hw : ∀ j ∈ woken, s.pc j = .sleeping) (j : ι) :
    (j = i ∧ s.wake i woken j = .postUnlock) ∨
    (j ≠ i ∧ j ∈ woken ∧ s.pc j = .sleeping ∧ s.wake i woken j = .relock) ∨
    (j ≠ i ∧ j ∉ woken ∧ s.wake i woken j = s.pc j) := by
  unfold wake
  by_cases hj : j = i
  · exact Or.inl ⟨hj, if_pos hj⟩
  · rw [if_neg hj]
    by_cases hm : j ∈ woken
    · exact Or.inr (Or.inl ⟨hj, hm, hw j hm, if_pos hm⟩)
    · exact Or.inr (Or.inr ⟨hj, hm, if_neg hm⟩)

/-- The signal passes its worth on to a sleeper. -/
theorem sum_worth_wake {woken : Finset ι} (hi : s.pc i = .postSignal)
    (hw : ∀ j ∈ woken, s.pc j = .sleeping) (hne : woken.Nonempty) :
    ∑ j, (s.pc j).worth ≤ ∑ j, (s.wake i woken j).worth := by
  obtain ⟨k, hk⟩ := hne
  have hki : k ≠ i := by
    rintro rfl
    have := hw k hk
    rw [hi] at this
    cases this
  have hsum := sum_worth_update s.pc i .postUnlock
  have hsum' := sum_worth_update (Function.update s.pc i .postUnlock) k .relock
  rw [Function.update_of_ne hki, hw k hk] at hsum'
  rw [hi] at hsum
  have hle : ∑ j, (Function.update (Function.update s.pc i .postUnlock) k .relock j).worth ≤
      ∑ j, (s.wake i woken j).worth := by
    apply Finset.sum_le_sum
    intro j _
    by_cases hjk : j = k
    · subst hjk
      rw [Function.update_self]
      unfold wake
      rw [if_neg hki, if_pos hk]
    · rw [Function.update_of_ne hjk]
      rcases wake_cases s i hw j with ⟨rfl, he⟩ | ⟨hji, _, hsl, he⟩ | ⟨hji, _, he⟩
      · rw [Function.update_self, he]
      · rw [Function.update_of_ne hji, hsl, he]
        exact Nat.zero_le _
      · rw [Function.update_of_ne hji, he]
  rw [show SemPc.worth .postSignal = 1 from rfl, show SemPc.worth .postUnlock = 0 from rfl] at hsum
  rw [show SemPc.worth .sleeping = 0 from rfl, show SemPc.worth .relock = 1 from rfl] at hsum'
  omega

theorem Inv.signal (h : Inv initialCount s) {woken : Finset ι} (hi : s.pc i = .postSignal)
    (hw : ∀ j ∈ woken, s.pc j = .sleeping) (hne : (∃ j, s.pc j = .sleeping) → woken.Nonempty) :
    Inv initialCount { s with pc := s.wake i woken } where
  mutex := by
    intro j
    show (s.wake i woken j).inside = true ↔ s.holder = some j
    rw [← h.mutex j]
    rcases wake_cases s i hw j with ⟨rfl, he⟩ | ⟨_, _, hsl, he⟩ | ⟨_, _, he⟩
    · rw [he, hi]
      exact Iff.rfl
    · rw [he, hsl]
      exact Iff.rfl
    · rw [he]
  balance := h.balance
  word := h.word
  decrement := by
    intro j hd
    replace hd : (s.wake i woken j).decrements = true := hd
    rcases wake_cases s i hw j with ⟨_, he⟩ | ⟨_, _, _, he⟩ | ⟨_, _, he⟩
    all_goals rw [he] at hd
    · cases hd
    · cases hd
    · exact h.decrement j hd
  awake := by
    rintro ⟨j, hj⟩
    replace hj : s.wake i woken j = .sleeping := hj
    rcases wake_cases s i hw j with ⟨_, he⟩ | ⟨_, _, _, he⟩ | ⟨_, _, he⟩
    all_goals rw [he] at hj
    · cases hj
    · cases hj
    · exact (h.awake ⟨j, hj⟩).trans (sum_worth_wake hi hw (hne ⟨j, hj⟩))

/-- **The step of the system.** -/
theorem Inv.step (h : Inv initialCount s) {e : Event ι} (hfull : NotFull s e)
    (ht : s.step e = some t) : Inv initialCount t := by
  cases e with
  | call i c =>
    simp only [Semaphore.step] at ht
    split_ifs at ht with hi
    cases ht
    exact h.outside (by rw [hi]; rfl) (by cases c <;> rfl) (by cases c <;> nofun)
      (by rw [hi]; exact Nat.zero_le _)
  | run i => exact h.advance hfull ht
  | signal i woken =>
    simp only [Semaphore.step] at ht
    split_ifs at ht with hi
    cases ht
    exact h.signal hi.1 hi.2.1 hi.2.2
  | spurious i =>
    simp only [Semaphore.step] at ht
    split_ifs at ht with hi
    cases ht
    exact h.outside (by rw [hi]; rfl) rfl nofun (by rw [hi]; exact Nat.zero_le _)

theorem inv_init (hn : initialCount < 2 ^ 32) (h : (system ι initialCount).init s) :
    Inv initialCount s := by
  obtain ⟨mutexOk, condOk, he⟩ := h
  unfold init at he
  split_ifs at he
  cases he
  refine ⟨fun j => ?_, Nat.add_comm _ _, ?_, nofun, ?_⟩
  · simp [SemPc.inside]
  · show initialCount < 2 ^ 64
    omega
  · rintro ⟨_, hj⟩
    cases hj

theorem reachable_inv (hn : initialCount < 2 ^ 32)
    (h : Reachable ((system ι initialCount).guarded NotFull) s) : Inv initialCount s := by
  refine h.induct_guarded (P := Inv initialCount) ?_ ?_
  · intro s h0
    exact inv_init hn h0
  · intro s e t hs hfull hst
    exact hs.step hfull hst

end Semaphore

end D4np
