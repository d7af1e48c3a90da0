import D4np.Concurrency.ThreadPoolRun

/-!
# The end of a shutdown

A shutdown destroys the semaphore and the mutex of the pool when all workers are joined.  Here the
critical section of a submit is two steps, its lock and its unlock, so that a call can be caught
inside it.  The permits make sure that an accepted submit has made its post by then.  Nothing makes
the shutdown wait for a submit that has not locked yet, or that has locked and is about to find the
pool shutting down: it then locks or unlocks a mutex that has been destroyed.
-/

namespace D4np

open TransitionSystem

namespace ThreadPool

/-- A pool, and the submit call that is inside its critical section. -/
structure Locked where
  pool : ThreadPool
  holder : Option ℕ

/-- A step of a submit's critical section, or another step of the pool. -/
inductive LockedEvent
  | lock (i : ℕ)
  | unlock (i : ℕ)
  | pool (e : Event)

/-- The other critical sections: that of a worker, and that of a shutdown. -/
def needsMutex (p : ThreadPool) : Event → Bool
  | .dequeue _ => true
  | .close =>
    match p.control with
    | .closing _ .lock => true
    | _ => false
  | _ => false

/-- One step of a run.  A submit does at its unlock what its critical section does; until then no
other critical section can be entered. -/
def Locked.step (s : Locked) : LockedEvent → Option Locked
  | .lock i =>
    match s.holder, s.pool.submits[i]? with
    | none, some ⟨_, .entered⟩ => some { s with holder := some i }
    | _, _ => none
  | .unlock i =>
    if s.holder = some i then (s.pool.submitLock i).map fun p => ⟨p, none⟩ else none
  | .pool (.submitLock _) => none
  | .pool e =>
    if s.pool.needsMutex e && s.holder.isSome then none
    else (s.pool.step e).map fun p => ⟨p, s.holder⟩

/-- The runs of a pool whose submits lock and unlock in steps of their own. -/
def locked : System Locked LockedEvent where
  init s := system.init s.pool ∧ s.holder = none
  step := Locked.step

/-- `d4np_semaphore_destroy` has been called. -/
def semaphoreDestroyed (p : ThreadPool) : Bool :=
  match p.control with
  | .closing _ .destroyMutex | .closing _ .done => true
  | _ => false

/-- `d4np_mutex_destroy` has been called. -/
def mutexDestroyed (p : ThreadPool) : Bool :=
  match p.control with
  | .closing _ .done => true
  | _ => false

/-- Submit number `i` takes a step on the mutex or the semaphore after its destruction. -/
inductive UsesDestroyed (s : Locked) (i : ℕ) : LockedEvent → Prop
  | lock : s.pool.mutexDestroyed = true → UsesDestroyed s i (.lock i)
  | unlock : s.pool.mutexDestroyed = true → UsesDestroyed s i (.unlock i)
  | post : s.pool.semaphoreDestroyed = true → UsesDestroyed s i (.pool (.submitPost i))

/-- The first `n` submits are past their critical section. -/
def AllPast (n : ℕ) (p : ThreadPool) : Prop :=
  ∀ i < n, ∀ x ∈ p.submits[i]?, x.state ≠ .entered

instance (n : ℕ) (p : ThreadPool) : Decidable (AllPast n p) :=
  inferInstanceAs (Decidable (∀ i < n, ∀ x ∈ p.submits[i]?, x.state ≠ .entered))

/-- The shutdown is about to destroy the mutex. -/
def destroysMutex (p : ThreadPool) : Bool :=
  match p.control with
  | .closing _ .destroyMutex => true
  | _ => false

/-- The mutex is destroyed only when the first `n` submits are past their critical section. -/
def WaitsFor (n : ℕ) (s : Locked) : LockedEvent → Prop
  | .pool .close => s.pool.destroysMutex = true → AllPast n s.pool
  | _ => True

instance (n : ℕ) (s : Locked) : (e : LockedEvent) → Decidable (WaitsFor n s e)
  | .pool .close => inferInstanceAs (Decidable (_ → _))
  | .lock _ | .unlock _ | .pool (.spawn _) | .pool (.submit _ _) | .pool (.submitLock _)
  | .pool (.submitPost _) | .pool (.wait _) | .pool (.dequeue _) | .pool (.start _)
  | .pool (.finish _) | .pool .destroy => inferInstanceAs (Decidable True)

/-- No run from here has one of the first `n` submits use what was destroyed. -/
def Safe (n : ℕ) (s : Locked) : Prop :=
  ∀ es s', locked.run s es = some s' → ∀ i < n, ∀ e, UsesDestroyed s' i e → s'.step e = none

/-! ## Submits over a step -/

variable {p p' : ThreadPool} {s s' : Locked} {i n : ℕ}

/-- What a step does to a submit: nothing, or its critical section, or its post. -/
theorem step_submit {e : Event} (hs : p.step e = some p') {x : Submit}
    (hx : p.submits[i]? = some x) :
    p'.submits[i]? = some x ∨
    (e = .submitLock i ∧ ∃ y, p'.submits[i]? = some y ∧ y.state ≠ .entered) ∨
    (x.state = .enqueued ∧ p'.submits[i]? = some ⟨x.task, .returned .ok⟩) := by
  have hlt := (List.getElem?_eq_some_iff.mp hx).1
  rcases step_moves hs with ⟨_, he, _⟩ | ⟨_, _, _, ⟨y, he⟩ | ⟨j, task, y, hj, hxj, hy, he⟩ |
    ⟨j, task, hxj, he⟩⟩ | ⟨_, _, he, _⟩
  · rw [he]
    exact Or.inl hx
  · rw [he, List.getElem?_append_left hlt]
    exact Or.inl hx
  · rw [he]
    by_cases hji : j = i
    · subst hji
      rw [List.getElem?_set_self hlt]
      exact Or.inr (Or.inl ⟨hj, _, rfl, hy⟩)
    · rw [List.getElem?_set_ne hji]
      exact Or.inl hx
  · rw [he]
    by_cases hji : j = i
    · subst hji
      rw [List.getElem?_set_self hlt]
      cases hx.symm.trans hxj
      exact Or.inr (Or.inr ⟨rfl, rfl⟩)
    · rw [List.getElem?_set_ne hji]
      exact Or.inl hx
  · rw [he]
    exact Or.inl hx

/-- A submit that is past its critical section stays so. -/
theorem AllPast.step {e : Event} (h : AllPast n p) (hn : n ≤ p.submits.length)
    (hs : p.step e = some p') : AllPast n p' := by
  intro i hi y hy
  obtain ⟨x, hx⟩ : ∃ x, p.submits[i]? = some x :=
    ⟨_, List.getElem?_eq_getElem (show i < p.submits.length by omega)⟩
  rcases step_submit hs hx with hsame | ⟨_, z, hz, hne⟩ | ⟨_, hret⟩
  · rw [hsame] at hy
    cases hy
    exact h i hi _ hx
  · rw [hz] at hy
    cases hy
    exact hne
  · rw [hret] at hy
    cases hy
    simp

theorem submits_length_le {e : Event} (hs : p.step e = some p') :
    p.submits.length ≤ p'.submits.length := by
  by_contra hlt
  push Not at hlt
  have hx := List.getElem?_eq_getElem hlt
  rcases step_submit hs hx with hsame | ⟨_, z, hz, _⟩ | ⟨_, hret⟩
  · exact absurd (List.getElem?_eq_some_iff.mp hsame).1 (lt_irrefl _)
  · exact absurd (List.getElem?_eq_some_iff.mp hz).1 (lt_irrefl _)
  · exact absurd (List.getElem?_eq_some_iff.mp hret).1 (lt_irrefl _)

/-- The mutex stays destroyed, and it is destroyed by the step of the shutdown that does so. -/
theorem mutexDestroyed_iff {e : Event} (hs : p.step e = some p') :
    p'.mutexDestroyed = true ↔ p.mutexDestroyed = true ∨ e = .close ∧ p.destroysMutex = true := by
  have hkeep : p'.control = p.control → e ≠ .close → (p'.mutexDestroyed = true ↔
      p.mutexDestroyed = true ∨ e = .close ∧ p.destroysMutex = true) := by
    intro hc he
    unfold mutexDestroyed
    rw [hc]
    exact ⟨Or.inl, fun h => h.resolve_right fun h => he h.1⟩
  rcases step_moves hs with ⟨⟨ok, rfl⟩ | rfl | rfl, -⟩ | ⟨he, hc, -⟩ | ⟨he, hc, -⟩
  · simp only [step, spawn] at hs
    split at hs
    · rename_i hctl
      split_ifs at hs <;> cases hs <;> simp [mutexDestroyed, hctl]
    · cases hs
  · simp only [step, destroy] at hs
    split at hs <;> cases hs
    rename_i hctl
    simp [mutexDestroyed, hctl]
  · simp only [step, close] at hs
    rcases hctl : p.control with _ | _ | ⟨_ | _, _ | _ | _ | _ | _ | _ | _ | _⟩ <;>
      simp only [hctl] at hs <;> (try split_ifs at hs) <;> cases hs <;>
      simp [mutexDestroyed, destroysMutex, hctl]
  · exact hkeep hc he
  · exact hkeep hc he

/-! ## The finer runs -/

namespace Locked

/-- A step of the finer runs is a step of the pool, or the lock of a submit that has entered. -/
theorem step_cases {e : LockedEvent} (hs : s.step e = some s') :
    (∃ i task, e = .lock i ∧ s.holder = none ∧ s.pool.submits[i]? = some ⟨task, .entered⟩ ∧
      s' = { s with holder := some i }) ∨
    (∃ i p, e = .unlock i ∧ s.holder = some i ∧ s.pool.step (.submitLock i) = some p ∧
      s' = ⟨p, none⟩) ∨
    (∃ pe p, e = .pool pe ∧ (∀ i, pe ≠ .submitLock i) ∧ s.pool.step pe = some p ∧
      s' = ⟨p, s.holder⟩) := by
  cases e with
  | lock i =>
    simp only [step] at hs
    split at hs
    · rename_i task hh hx
      cases hs
      exact Or.inl ⟨i, task, rfl, hh, hx, rfl⟩
    · cases hs
  | unlock i =>
    simp only [step] at hs
    split_ifs at hs with hh
    obtain ⟨p, hp, rfl⟩ := Option.map_eq_some_iff.mp hs
    exact Or.inr (Or.inl ⟨i, p, rfl, hh, hp, rfl⟩)
  | pool pe =>
    right
    right
    by_cases hl : ∃ i, pe = .submitLock i
    · obtain ⟨i, rfl⟩ := hl
      cases hs
    · push Not at hl
      have hs' : (if s.pool.needsMutex pe && s.holder.isSome then none
          else (s.pool.step pe).map fun p => (⟨p, s.holder⟩ : Locked)) = some s' := by
        cases pe <;> first | exact hs | exact absurd rfl (hl _)
      split_ifs at hs'
      obtain ⟨p, hp, rfl⟩ := Option.map_eq_some_iff.mp hs'
      exact ⟨pe, p, rfl, hl, hp, rfl⟩

/-- The finer runs are runs of the pool, and the holder of the mutex has not done its critical
section. -/
theorem reachable_pool (h : Reachable locked s) : Reachable system s.pool ∧
    ∀ i, s.holder = some i → ∃ task, s.pool.submits[i]? = some ⟨task, .entered⟩ := by
  induction h with
  | init h0 =>
    refine ⟨.init h0.1, fun i hi => ?_⟩
    rw [h0.2] at hi
    cases hi
  | step _ hs ih =>
    obtain ⟨hr, hh⟩ := ih
    rcases step_cases hs with ⟨i, task, -, -, hx, rfl⟩ | ⟨i, p, -, -, hp, rfl⟩ |
      ⟨pe, p, -, hl, hp, rfl⟩
    · refine ⟨hr, fun j hj => ?_⟩
      cases hj
      exact ⟨task, hx⟩
    · exact ⟨hr.step (e := .submitLock i) hp, fun j hj => by cases hj⟩
    · refine ⟨hr.step (e := pe) hp, fun j hj => ?_⟩
      obtain ⟨task, hx⟩ := hh j hj
      rcases step_submit hp hx with hsame | ⟨he, _⟩ | ⟨hen, _⟩
      · exact ⟨task, hsame⟩
      · exact absurd he (hl j)
      · cases hen

/-- What a step of the finer runs does to the pool: a step of it, or nothing. -/
theorem pool_step {e : LockedEvent} (hs : s.step e = some s') :
    s'.pool = s.pool ∨ ∃ pe, s.pool.step pe = some s'.pool ∧ (pe = .close → e = .pool .close) := by
  rcases step_cases hs with ⟨i, task, -, -, -, rfl⟩ | ⟨i, p, -, -, hp, rfl⟩ | ⟨pe, p, rfl, -, hp, rfl⟩
  · exact Or.inl rfl
  · exact Or.inr ⟨_, hp, nofun⟩
  · exact Or.inr ⟨pe, hp, fun h => by rw [h]⟩

/-- The first `n` submits exist. -/
theorem submits_length_step {e : LockedEvent} (hs : s.step e = some s')
    (hn : n ≤ s.pool.submits.length) : n ≤ s'.pool.submits.length := by
  rcases pool_step hs with heq | ⟨pe, hpe, -⟩
  · rw [heq]
    exact hn
  · exact hn.trans (submits_length_le hpe)

theorem submits_length_run {es : List LockedEvent} (hr : locked.run s es = some s') :
    s.pool.submits.length ≤ s'.pool.submits.length :=
  System.run_induct (P := fun t => s.pool.submits.length ≤ t.pool.submits.length)
    (fun _ _ _ hn hs => submits_length_step hs hn) (le_refl _) hr

theorem mutexDestroyed_run {es : List LockedEvent} (hr : locked.run s es = some s')
    (hd : s.pool.mutexDestroyed = true) (hp : AllPast n s.pool) (hn : n ≤ s.pool.submits.length) :
    s'.pool.mutexDestroyed = true ∧ AllPast n s'.pool := by
  have hrun := System.run_induct (P := fun t => n ≤ t.pool.submits.length ∧
    t.pool.mutexDestroyed = true ∧ AllPast n t.pool) ?_ ⟨hn, hd, hp⟩ hr
  · exact hrun.2
  · rintro t e u ⟨hn, hd, hp⟩ hs
    refine ⟨submits_length_step hs hn, ?_⟩
    rcases pool_step hs with heq | ⟨pe, hpe, -⟩
    · rw [heq]
      exact ⟨hd, hp⟩
    · exact ⟨(mutexDestroyed_iff hpe).mpr (Or.inl hd), hp.step hn hpe⟩

/-- When the semaphore is destroyed no accepted submit has its post to make. -/
theorem not_enqueued_of_destroyed (h : Reachable locked s) (hd : s.pool.semaphoreDestroyed = true)
    {x : Submit} (hx : s.pool.submits[i]? = some x) : x.state ≠ .enqueued := by
  obtain ⟨queue, hI⟩ := reachable_inv (reachable_pool h).1
  have hj : s.pool.control.Joined s.pool.threadCount := by
    unfold semaphoreDestroyed at hd
    split at hd
    · rename_i hctl
      rw [hctl]
      trivial
    · rename_i hctl
      rw [hctl]
      trivial
    · cases hd
  have hpend := hI.pendingPosts_eq_zero hj
  unfold pendingPosts at hpend
  rw [List.countP_eq_zero] at hpend
  have := hpend x (List.mem_of_getElem? hx)
  simpa using this

theorem semaphoreDestroyed_of_mutexDestroyed (h : p.mutexDestroyed = true) :
    p.semaphoreDestroyed = true := by
  unfold mutexDestroyed at h
  unfold semaphoreDestroyed
  split at h
  · rename_i hctl
    rw [hctl]
  · cases h

/-- A submit that is past its critical section, in a pool whose accepted submits have made their
posts, has no step left on what was destroyed. -/
theorem step_eq_none_of_past (h : Reachable locked s)
    (hp : s.pool.mutexDestroyed = true → AllPast n s.pool) (hi : i < n) {e : LockedEvent}
    (hu : UsesDestroyed s i e) : s.step e = none := by
  by_contra hne
  obtain ⟨t, ht⟩ := Option.ne_none_iff_exists'.mp hne
  cases hu with
  | lock hd =>
    rcases step_cases ht with ⟨j, task, he, -, hx, -⟩ | ⟨j, p, he, -⟩ | ⟨pe, p, he, -⟩ <;> cases he
    exact hp hd i hi _ hx rfl
  | unlock hd =>
    rcases step_cases ht with ⟨j, task, he, -⟩ | ⟨j, p, he, hh, -⟩ | ⟨pe, p, he, -⟩ <;> cases he
    obtain ⟨task, hx⟩ := (reachable_pool h).2 i hh
    exact hp hd i hi _ hx rfl
  | post hd =>
    rcases step_cases ht with ⟨j, task, he, -⟩ | ⟨j, p, he, -⟩ | ⟨pe, p, he, -, hpe, -⟩ <;> cases he
    simp only [ThreadPool.step, submitPost] at hpe
    split at hpe
    · rename_i task hx
      exact not_enqueued_of_destroyed h hd hx rfl
    · cases hpe

/-- A submit that has entered and is not past its critical section can step, at once or after the
one that is inside. -/
theorem allPast_of_safe (h : Reachable locked s) (hd : s.pool.mutexDestroyed = true)
    (hsafe : Safe n s) : AllPast n s.pool := by
  intro i hi x hx hentered
  obtain ⟨task, state⟩ := x
  cases hentered
  rcases hh : s.holder with _ | j
  · have hnone := hsafe [] s rfl i hi (.lock i) (.lock hd)
    simp only [step, hh, Option.mem_def.mp hx] at hnone
    cases hnone
  · obtain ⟨task', hx'⟩ := (reachable_pool h).2 j hh
    obtain ⟨p, hp⟩ : ∃ p, s.pool.step (.submitLock j) = some p := by
      simp only [ThreadPool.step, submitLock, hx']
      split_ifs <;> exact ⟨_, rfl⟩
    have hunlock : s.step (.unlock j) = some ⟨p, none⟩ := by
      simp only [step, hh, if_true]
      rw [show s.pool.submitLock j = some p from hp, Option.map_some]
    by_cases hij : j = i
    · subst hij
      have hnone := hsafe [] s rfl j hi (.unlock j) (.unlock hd)
      rw [hunlock] at hnone
      cases hnone
    · have hrun : locked.run s [.unlock j] = some ⟨p, none⟩ := by
        show (s.step (.unlock j)).bind _ = _
        rw [hunlock]
        rfl
      have hnone := hsafe _ _ hrun i hi (.lock i) (.lock ((mutexDestroyed_iff hp).mpr (Or.inl hd)))
      rcases step_submit hp hx with hsame | ⟨he, _⟩ | ⟨hen, _⟩
      · simp only [step, hsame] at hnone
        cases hnone
      · cases he
        exact hij rfl
      · cases hen

theorem guarded_run {es : List LockedEvent} (h : Reachable locked s)
    (hr : (locked.guarded (WaitsFor n)).run s es = some s')
    (hp : s.pool.mutexDestroyed = true → AllPast n s.pool) (hn : n ≤ s.pool.submits.length) :
    Reachable locked s' ∧ (s'.pool.mutexDestroyed = true → AllPast n s'.pool) := by
  have hrun := System.run_induct (P := fun t => n ≤ t.pool.submits.length ∧ Reachable locked t ∧
    (t.pool.mutexDestroyed = true → AllPast n t.pool)) ?_ ⟨hn, h, hp⟩ hr
  · exact hrun.2
  · rintro t e u ⟨hn, h, hp⟩ hs
    obtain ⟨hg, hs⟩ := System.guarded_step.mp hs
    refine ⟨submits_length_step hs hn, h.step hs, ?_⟩
    rcases pool_step hs with heq | ⟨pe, hpe, hclose⟩
    · rw [heq]
      exact hp
    · intro hd
      rcases (mutexDestroyed_iff hpe).mp hd with hd | ⟨rfl, hd⟩
      · exact (hp hd).step hn hpe
      · have he := hclose rfl
        subst he
        exact (hg hd : AllPast n t.pool).step hn hpe

end Locked

/-- **Submits that a shutdown waits for.** Let `n` submits have been entered when destroy is called.
In every run in which the mutex is destroyed only when these are past their critical section, none
of them takes a lock, unlock or post step on a mutex or semaphore that has been destroyed, and all
of them have returned when the mutex is destroyed.  Where it is destroyed at another time they go on
to do so: once the mutex is destroyed, no run has one of them use what was destroyed exactly if all
are past their critical section. -/
theorem submits_safe_iff_past {s₀ : Locked} (h : Reachable locked s₀)
    (hready : s₀.pool.control = .ready) :
    (∀ es s, (locked.guarded (WaitsFor s₀.pool.submits.length)).run s₀ es = some s →
      (∀ i < s₀.pool.submits.length, ∀ e, UsesDestroyed s i e → s.step e = none) ∧
      (s.pool.mutexDestroyed = true → ∀ i < s₀.pool.submits.length, ∀ x ∈ s.pool.submits[i]?,
        ∃ rc, x.state = .returned rc)) ∧
    (∀ es s, locked.run s₀ es = some s → s.pool.mutexDestroyed = true →
      (Safe s₀.pool.submits.length s ↔ AllPast s₀.pool.submits.length s.pool)) := by
  have halive : s₀.pool.mutexDestroyed = true → AllPast s₀.pool.submits.length s₀.pool := by
    intro hd
    simp [mutexDestroyed, hready] at hd
  refine ⟨fun es s hr => ?_, fun es s hr hd => ⟨fun hsafe => ?_, fun hp es' s' hr' i hi e hu => ?_⟩⟩
  · obtain ⟨hs, hp⟩ := Locked.guarded_run h hr halive (le_refl _)
    refine ⟨fun i hi e hu => Locked.step_eq_none_of_past hs hp hi hu, fun hd i hi x hx => ?_⟩
    have hentered := hp hd i hi x hx
    have henqueued := Locked.not_enqueued_of_destroyed hs
      (Locked.semaphoreDestroyed_of_mutexDestroyed hd) hx
    rcases hst : x.state with _ | _ | rc
    · exact absurd hst hentered
    · exact absurd hst henqueued
    · exact ⟨rc, rfl⟩
  · exact Locked.allPast_of_safe (h.run hr) hd hsafe
  · have hn : s₀.pool.submits.length ≤ s.pool.submits.length := Locked.submits_length_run hr
    obtain ⟨-, hp'⟩ := Locked.mutexDestroyed_run hr' hd hp hn
    exact Locked.step_eq_none_of_past ((h.run hr).run hr') (fun _ => hp') hi hu

/-- A pool of one worker as `d4np_thread_pool_init` leaves it before its spawn loop. -/
def oneWorker : Locked :=
  ⟨⟨1, 0, 0, false, 0, fun _ => 0, fun _ => ⟨0, 0⟩, [], [], .spawning, [], [], [], [], []⟩, none⟩

/-- The worker is spawned and a submit enters. -/
def oneEntered : List LockedEvent := [.pool (.spawn true), .pool (.submit ⟨1, 7⟩ true)]

/-- A shutdown up to the destruction of the mutex. -/
def fullShutdown : List LockedEvent :=
  [.pool .destroy, .pool .close, .pool .close, .pool .close, .pool (.wait 0), .pool (.dequeue 0),
    .pool .close, .pool .close, .pool .close, .pool .close, .pool .close, .pool .close]

theorem oneWorker_reachable : Reachable locked oneWorker :=
  .init ⟨⟨1, true, true, true, rfl⟩, rfl⟩

theorem submits_safe_iff_past_one_worker :
    ∃ s₀ s, Reachable locked s₀ ∧ s₀.pool.control = .ready ∧ s₀.pool.submits.length = 1 ∧
      (locked.guarded (WaitsFor 1)).run s₀ ([.lock 0, .unlock 0, .pool (.submitPost 0),
        .pool (.wait 0), .pool (.dequeue 0), .pool (.start 0), .pool (.finish 0)] ++ fullShutdown) =
        some s ∧ s.pool.mutexDestroyed = true ∧ ∀ e, UsesDestroyed s 0 e → s.step e = none := by
  obtain ⟨s₀, hrun, hready, hlen⟩ : ∃ s₀, locked.run oneWorker oneEntered = some s₀ ∧
      s₀.pool.control = .ready ∧ s₀.pool.submits.length = 1 := ⟨_, rfl, rfl, rfl⟩
  obtain ⟨s, hs, hd⟩ : ∃ s, (locked.guarded (WaitsFor 1)).run s₀ ([.lock 0, .unlock 0,
      .pool (.submitPost 0), .pool (.wait 0), .pool (.dequeue 0), .pool (.start 0),
      .pool (.finish 0)] ++ fullShutdown) = some s ∧ s.pool.mutexDestroyed = true := by
    cases hrun
    exact ⟨_, rfl, rfl⟩
  have h := oneWorker_reachable.run hrun
  refine ⟨s₀, s, h, hready, hlen, hs, hd, ?_⟩
  have hsafe := (submits_safe_iff_past h hready).1
  rw [hlen] at hsafe
  exact (hsafe _ s hs).1 0 Nat.one_pos

/-- A submit that has entered is still to lock when the shutdown has destroyed the mutex. -/
theorem submit_locks_destroyed_mutex :
    ∃ s₀ s t, Reachable locked s₀ ∧ s₀.pool.control = .ready ∧ s₀.pool.submits.length = 1 ∧
      locked.run s₀ fullShutdown = some s ∧ UsesDestroyed s 0 (.lock 0) ∧
      s.step (.lock 0) = some t := by
  obtain ⟨s₀, hrun, hready, hlen⟩ : ∃ s₀, locked.run oneWorker oneEntered = some s₀ ∧
      s₀.pool.control = .ready ∧ s₀.pool.submits.length = 1 := ⟨_, rfl, rfl, rfl⟩
  have h := oneWorker_reachable.run hrun
  cases hrun
  exact ⟨_, _, _, h, hready, hlen, rfl, .lock rfl, rfl⟩

end ThreadPool

end D4np
