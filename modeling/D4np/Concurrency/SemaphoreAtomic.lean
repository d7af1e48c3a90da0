import D4np.Concurrency.Semaphore
import D4np.Lib.Linearizability

/-!
# The semaphore is an atomic counter

A caller of the semaphore sees calls and returns.  Every run shows what a counter would show that
each operation changes in one step: a wait takes effect where it decrements the count, a successful
trywait too, a failing one where it looks at the count, and a post where it increments it.  Sleeping,
waking and being signalled are steps that show nothing and change nothing.
-/

namespace D4np

open Word64 TransitionSystem

namespace Semaphore

variable {ι : Type*} [DecidableEq ι]

/-- The counter: a wait has to find it positive, a trywait says whether it did, a post adds one. -/
def counter (initialCount : ℕ) : Object ℕ Call (Option Bool) where
  start := initialCount
  effect
    | count + 1, .wait, none => some count
    | count + 1, .trywait, some true => some count
    | 0, .trywait, some false => some 0
    | count, .post, none => some (count + 1)
    | _, _, _ => none

/-- Where a thread stands with its call: before or after the instant it takes effect. -/
def callStage : SemPc → Stage Call (Option Bool)
  | .idle => .idle
  | .waitLock | .waitCheck _ | .sleeping | .relock | .waitDec _ => .called .wait
  | .waitUnlock => .done none
  | .tryLock | .tryCheck | .tryDec => .called .trywait
  | .tryUnlock ok => .done (some ok)
  | .postLock | .postInc => .called .post
  | .postSignal | .postUnlock => .done none

/-- The counter and the stages of the threads. -/
def toAtomic (s : Semaphore ι) : Atomic ι ℕ Call (Option Bool) where
  obj := s.count
  stage i := callStage (s.pc i)

/-- What a step shows: a call, or a return with its result. -/
def marks (s : Semaphore ι) : Event ι → List (Mark ι Call (Option Bool))
  | .call i c => [.call i c]
  | .run i =>
    match s.pc i with
    | .waitUnlock => [.ret i none]
    | .tryUnlock ok => [.ret i (some ok)]
    | .postUnlock => [.ret i none]
    | _ => []
  | _ => []

/-- A thread that moves. -/
theorem toAtomic_update (s : Semaphore ι) (i : ι) (c : SemPc) (count : ℕ) (holder : Option ι)
    (taken posted : ℕ) :
    toAtomic ⟨count, holder, Function.update s.pc i c, taken, posted⟩ =
      { s.toAtomic.goto i (callStage c) with obj := count } := by
  simp only [toAtomic, Atomic.goto, Atomic.mk.injEq, true_and]
  funext j
  exact Function.apply_update (fun _ c => callStage c) s.pc i c j

/-- A thread that moves within its stage, while the count stays. -/
theorem toAtomic_stay (s : Semaphore ι) {i : ι} {c : SemPc} (hc : callStage c = callStage (s.pc i))
    (holder : Option ι) (taken posted : ℕ) :
    toAtomic ⟨s.count, holder, Function.update s.pc i c, taken, posted⟩ = s.toAtomic := by
  rw [toAtomic_update, hc, show s.toAtomic.goto i (callStage (s.pc i)) = s.toAtomic from
    Atomic.goto_stay rfl]
  rfl

section Steps

variable {n : ℕ} {s t : Semaphore ι} {i : ι}

/-- A lock moves a thread within its stage. -/
theorem lock_moves {c : SemPc} (ht : s.lock i c = some t) (hc : callStage c = callStage (s.pc i)) :
    (counter n).Moves s.toAtomic [] t.toAtomic := by
  unfold lock at ht
  split_ifs at ht
  cases ht
  rw [show toAtomic { s.goto i c with holder := some i } = s.toAtomic from toAtomic_stay s hc _ _ _]
  exact .refl

/-- A thread moves within its stage. -/
theorem goto_moves (c : SemPc) (hc : callStage c = callStage (s.pc i)) (holder : Option ι) :
    (counter n).Moves s.toAtomic [] (toAtomic { s.goto i c with holder := holder }) := by
  rw [show toAtomic { s.goto i c with holder := holder } = s.toAtomic from toAtomic_stay s hc _ _ _]
  exact .refl

/-- The unlock is the return. -/
theorem unlock_moves {r : Option Bool} (hi : callStage (s.pc i) = .done r) :
    (counter n).Moves s.toAtomic [.ret i r] (s.unlock i).toAtomic := by
  rw [show (s.unlock i).toAtomic = s.toAtomic.goto i .idle from toAtomic_update s i .idle ..]
  exact Object.Moves.ret hi

/-- The decrement of a positive count is the instant of a wait and of a successful trywait. -/
theorem dec_moves [Fintype ι] (h : Inv n s) (hd : (s.pc i).decrements = true) {op : Call}
    {r : Option Bool} {c : SemPc} (hi : callStage (s.pc i) = .called op) (hc : callStage c = .done r)
    (he : ∀ count, (counter n).effect (count + 1) op r = some count) :
    (counter n).Moves s.toAtomic [] (s.dec i c).toAtomic := by
  obtain ⟨k, hk⟩ := Nat.exists_eq_succ_of_ne_zero (h.decrement i hd).ne'
  have hsub : sub s.count 1 = k := by
    rw [sub_one (h.decrement i hd) h.word, hk]
    rfl
  rw [show (s.dec i c).toAtomic = { s.toAtomic.goto i (callStage c) with obj := sub s.count 1 } from
    toAtomic_update s i c .., hc, hsub]
  refine Object.Moves.take hi ?_
  show (counter n).effect s.count op r = some k
  rw [hk]
  exact he k

theorem advance_moves [Fintype ι] (h : Inv n s) (hfull : s.pc i = .postInc → s.count < maxWord)
    (ht : s.advance i = some t) : (counter n).Moves s.toAtomic (s.marks (.run i)) t.toAtomic := by
  unfold advance at ht
  simp only [marks]
  rcases hpc : s.pc i with _ | _ | slept | _ | _ | slept | _ | _ | _ | _ | ok | _ | _ | _ | _
  all_goals rw [hpc] at ht
  · cases ht
  · exact lock_moves ht (by rw [hpc]; rfl)
  · simp only at ht
    split_ifs at ht <;> cases ht
    · exact goto_moves .sleeping (by rw [hpc]; rfl) none
    · exact goto_moves (.waitDec slept) (by rw [hpc]; rfl) s.holder
  · cases ht
  · exact lock_moves ht (by rw [hpc]; rfl)
  · obtain rfl := Option.some.inj ht
    exact dec_moves h (by rw [hpc]; rfl) (by rw [hpc]; rfl) rfl fun _ => rfl
  · cases ht
    exact unlock_moves (by rw [hpc]; rfl)
  · exact lock_moves ht (by rw [hpc]; rfl)
  · cases ht
    by_cases hpos : s.count > 0
    · rw [if_pos hpos]
      exact goto_moves .tryDec (by rw [hpc]; rfl) s.holder
    · -- a trywait that finds the count zero takes effect here
      have hz : s.count = 0 := by omega
      have hstage : s.toAtomic.stage i = .called .trywait := by
        show callStage (s.pc i) = _
        rw [hpc]
        rfl
      rw [if_neg hpos, show (s.goto i (.tryUnlock false)).toAtomic =
        { s.toAtomic.goto i (.done (some false)) with obj := s.count } from toAtomic_update s i _ ..]
      refine Object.Moves.take hstage ?_
      show (counter n).effect s.count .trywait (some false) = some s.count
      rw [hz]
      rfl
  · obtain rfl := Option.some.inj ht
    exact dec_moves h (by rw [hpc]; rfl) (by rw [hpc]; rfl) rfl fun _ => rfl
  · cases ht
    exact unlock_moves (by rw [hpc]; rfl)
  · exact lock_moves ht (by rw [hpc]; rfl)
  · -- the increment is the instant of a post
    cases ht
    have hlt := hfull hpc
    have hwrap : wrap (s.count + 1) = s.count + 1 := by
      unfold maxWord at hlt
      exact wrap_of_lt (by omega)
    have hstage : s.toAtomic.stage i = .called .post := by
      show callStage (s.pc i) = _
      rw [hpc]
      rfl
    rw [hwrap, show toAtomic { s.goto i .postSignal with
        count := s.count + 1
        posted := s.posted + 1 } = { s.toAtomic.goto i (.done none) with obj := s.count + 1 } from
      toAtomic_update s i _ ..]
    refine Object.Moves.take hstage ?_
    show (counter n).effect s.count .post none = some (s.count + 1)
    cases s.count <;> rfl
  · cases ht
  · cases ht
    exact unlock_moves (by rw [hpc]; rfl)

/-- **Every step** shows what the counter shows. -/
theorem step_moves [Fintype ι] (h : Inv n s) {e : Event ι} (hfull : NotFull s e)
    (ht : s.step e = some t) : (counter n).Moves s.toAtomic (s.marks e) t.toAtomic := by
  cases e with
  | call i c =>
    simp only [step] at ht
    split_ifs at ht with hi
    cases ht
    rw [show (s.goto i (entry c)).toAtomic = s.toAtomic.goto i (callStage (entry c)) from
      toAtomic_update s i (entry c) .., show callStage (entry c) = .called c by cases c <;> rfl]
    refine Object.Moves.call ?_ c
    show callStage (s.pc i) = .idle
    rw [hi]
    rfl
  | run i => exact advance_moves h hfull ht
  | signal i woken =>
    simp only [step] at ht
    split_ifs at ht with hi
    cases ht
    have hsame : toAtomic { s with pc := s.wake i woken } = s.toAtomic := by
      simp only [toAtomic, Atomic.mk.injEq, true_and]
      funext j
      rcases wake_cases s i hi.2.1 j with ⟨rfl, he⟩ | ⟨_, _, hsl, he⟩ | ⟨_, _, he⟩
      · rw [he, hi.1]
        rfl
      · rw [he, hsl]
        rfl
      · rw [he]
    rw [hsame]
    exact .refl
  | spurious i =>
    simp only [step] at ht
    split_ifs at ht with hi
    cases ht
    exact goto_moves .relock (by rw [hi]; rfl) s.holder

end Steps

/-- **The semaphore is linearizable.** Whatever any threads call, however their steps interleave and
whomever a signal wakes: the calls and returns of a run, as long as no post finds the count at its
maximum, are those of a counter on which each operation acts in one instant between its call and its
return; and the count is that counter. -/
theorem semaphore_linearizable [Fintype ι] {n : ℕ} (hn : n < 2 ^ 32) {s₀ s : Semaphore ι}
    (hinit : (system ι n).init s₀) {es : List (Event ι)}
    (hr : ((system ι n).guarded NotFull).run s₀ es = some s) :
    (counter n).Explains (((system ι n).guarded NotFull).trace marks s₀ es) s.count := by
  have hI := inv_init hn hinit
  have hstart : s₀.toAtomic = ⟨(counter n).start, fun _ => .idle⟩ := by
    obtain ⟨mutexOk, condOk, he⟩ := hinit
    unfold init at he
    split_ifs at he
    cases he
    rfl
  refine Object.explains_of_map (Q := Inv n) (f := toAtomic) ?_ hI hstart hr
  intro s e s' hs he
  obtain ⟨hfull, he⟩ := System.guarded_step.mp he
  exact ⟨hs.step hfull he, step_moves hs hfull he⟩

/-- A trywait fails, then a wait sleeps until a post: what the counter shows. -/
theorem semaphore_linearizable_two_threads :
    ∃ s₀ s : Semaphore (Fin 2), (system (Fin 2) 0).init s₀ ∧
      ((system (Fin 2) 0).guarded NotFull).run s₀
        [.call 0 .trywait, .run 0, .run 0, .run 0, .call 0 .wait, .run 0, .run 0, .call 1 .post,
          .run 1, .run 1, .signal 1 {0}, .run 1, .run 0, .run 0, .run 0, .run 0] = some s ∧
      (counter 0).Explains (ι := Fin 2) [.call 0 .trywait, .ret 0 (some false), .call 0 .wait, .call 1 .post,
        .ret 1 none, .ret 0 none] s.count := by
  let s₀ : Semaphore (Fin 2) := ⟨0, none, fun _ => .idle, 0, 0⟩
  have h0 : (system (Fin 2) 0).init s₀ := ⟨true, true, rfl⟩
  obtain ⟨s, hs⟩ : ∃ s, ((system (Fin 2) 0).guarded NotFull).run s₀
      [.call 0 .trywait, .run 0, .run 0, .run 0, .call 0 .wait, .run 0, .run 0, .call 1 .post,
        .run 1, .run 1, .signal 1 {0}, .run 1, .run 0, .run 0, .run 0, .run 0] = some s := ⟨_, rfl⟩
  exact ⟨s₀, s, h0, hs, semaphore_linearizable (by norm_num) h0 hs⟩

end Semaphore

end D4np
