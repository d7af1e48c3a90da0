import D4np.Concurrency.ThreadPoolInv
import D4np.Lib.Potential

/-!
# The thread pool gets things done

Safety says what no run does; this is what every run must do.  The pool has a potential: a submit
call, a queued node, a permit, a worker and the owning thread each hold an amount that covers the
steps they can still cause.  Every step spends at least one unit of it, and only a new submit call
brings any in (`step_potential`).  So no run outlasts a bound that is linear in the workers and the
submit calls, whatever the schedule is.

Where no step is left but a new submit or a call of destroy, nothing is left to do: the permits that
were conserved (`Inv.permits`) leave no worker asleep beside a queued node and no join without an
exit to come (`Inv.settled`).
-/

namespace D4np

open Links TransitionSystem

namespace ThreadPool

/-! ## The potential -/

/-- What a submit call that has come this far can still cause: its critical section, its post, and
the steps of a worker that its node goes through. -/
def SubmitState.potential : SubmitState → ℕ
  | .entered => 6
  | .enqueued => 2
  | .returned _ => 0

/-- What a submit call can still cause. -/
def Submit.potential (s : Submit) : ℕ := s.state.potential

/-- What a worker can still cause without a further permit. -/
def Worker.potential : Worker → ℕ
  | .waiting => 1
  | .holding => 1
  | .dequeued _ => 3
  | .running _ => 2
  | .exited => 0

/-- What a shutdown of `n` workers has before it: two units for each post, one of which the permit
keeps, and one for each join. -/
def Phase.potential (n : ℕ) : Phase → ℕ
  | .lock => 3 * n + 7
  | .post made => 2 * (n - made) + n + 6
  | .join joined => n - joined + 5
  | .drain _ => 4
  | .freeThreads => 3
  | .destroySemaphore => 2
  | .destroyMutex => 1
  | .done => 0

/-- What the owning thread has before it, when `spawned` of `n` workers are running. -/
def Control.potential (n spawned : ℕ) : Control → ℕ
  | .spawning => 2 * (n - spawned) + 3 * n + 8
  | .ready => 3 * n + 8
  | .closing _ phase => phase.potential n

/-- The potential of a pool. -/
def potential (p : ThreadPool) : ℕ :=
  (p.submits.map Submit.potential).sum + 3 * (p.accepted.length - p.dequeued.length) +
    p.items + (p.workers.map Worker.potential).sum +
    p.control.potential p.threadCount p.workers.length

/-- What an event brings in: a new submit call pays for its own steps. -/
def Event.gain : Event → ℕ
  | .submit _ _ => 7
  | _ => 0

/-- A sum over a list after one entry of it was replaced. -/
theorem sum_map_set {α : Type*} {l : List α} {i : ℕ} {x : α} (h : l[i]? = some x) (y : α)
    (f : α → ℕ) : ((l.set i y).map f).sum + f x = (l.map f).sum + f y := by
  obtain ⟨rest, h1, h2⟩ := exists_perm_set h y
  rw [(h1.map f).sum_eq, (h2.map f).sum_eq, List.map_cons, List.map_cons, List.sum_cons,
    List.sum_cons]
  omega

/-- The potential of the submit calls after one of them has moved. -/
theorem sum_set_submit {submits : List Submit} {i : ℕ} {task : Task} {x : SubmitState}
    (h : submits[i]? = some ⟨task, x⟩) (y : SubmitState) :
    ((submits.set i ⟨task, y⟩).map Submit.potential).sum + x.potential =
      (submits.map Submit.potential).sum + y.potential := sum_map_set h _ _

/-- The nodes in the queue are those accepted and not taken out. -/
theorem Inv.queued_eq {p : ThreadPool} {queue : List ℕ} (h : p.Inv queue) :
    p.accepted.length - p.dequeued.length = queue.length := by
  rw [h.links.accepted_eq, List.length_append]
  omega

section Steps

variable {p p' : ThreadPool} {queue : List ℕ}

/-! ## Every step spends -/

theorem spawn_potential (h : p.Inv queue) {ok : Bool} (hs : p.spawn ok = some p') :
    p'.potential + 1 ≤ p.potential := by
  have hc := h.control
  unfold spawn at hs
  split at hs
  · rename_i hctl
    rw [hctl] at hc
    have hlt := hc.2.1
    cases ok with
    | true =>
      rw [if_pos rfl] at hs
      cases hs
      simp only [potential, hctl, List.map_append, List.sum_append, List.length_append,
        List.length_singleton, List.map_singleton, List.sum_singleton, Worker.potential,
        Control.potential]
      split_ifs with hlt'
      · simp only
        omega
      · simp only
        omega
    | false =>
      rw [if_neg (by simp)] at hs
      cases hs
      simp only [potential, hctl, Control.potential, Phase.potential]
      omega
  · cases hs

theorem submit_potential {task : Task} {granted : Bool} (hs : p.submit task granted = some p') :
    p'.potential + 1 ≤ p.potential + 7 := by
  unfold submit at hs
  split_ifs at hs <;> cases hs <;>
    simp only [potential, List.map_append, List.sum_append, List.map_singleton, List.sum_singleton,
      Submit.potential, SubmitState.potential] <;> omega

theorem submitLock_potential (h : p.Inv queue) {i : ℕ} (hs : p.submitLock i = some p') :
    p'.potential + 1 ≤ p.potential := by
  have hq := h.queued_eq
  have hle : p.dequeued.length ≤ p.accepted.length := by
    rw [h.links.accepted_eq, List.length_append]
    omega
  unfold submitLock at hs
  split at hs
  · rename_i task hi
    split_ifs at hs <;> cases hs
    · have hsum := sum_set_submit hi (.returned .errUnsupported)
      simp only [SubmitState.potential] at hsum
      simp only [potential]
      omega
    · have hsum := sum_set_submit hi .enqueued
      simp only [SubmitState.potential] at hsum
      rw [Inv.enqueue_eq]
      simp only [potential, List.length_append, List.length_singleton]
      omega
  · cases hs

theorem submitPost_potential {i : ℕ} (hs : p.submitPost i = some p') :
    p'.potential + 1 ≤ p.potential := by
  unfold submitPost at hs
  split at hs
  · rename_i task hi
    cases hs
    have hsum := sum_set_submit hi (.returned .ok)
    simp only [SubmitState.potential] at hsum
    simp only [potential]
    omega
  · cases hs

theorem wait_potential {w : ℕ} (hs : p.wait w = some p') : p'.potential + 1 ≤ p.potential := by
  unfold wait at hs
  split at hs
  · rename_i hw
    split_ifs at hs
    cases hs
    have hsum := sum_map_set hw .holding Worker.potential
    simp only [Worker.potential] at hsum
    simp only [potential, List.length_set]
    omega
  · cases hs

theorem dequeue_potential (h : p.Inv queue) {w : ℕ} (hs : p.dequeue w = some p') :
    p'.potential + 1 ≤ p.potential := by
  unfold dequeue at hs
  split at hs
  · rename_i hw
    by_cases h0 : p.qHead = 0
    · simp only [if_pos h0] at hs
      cases hs
      have hsum := sum_map_set hw .exited Worker.potential
      simp only [Worker.potential] at hsum
      simp only [potential, List.length_set]
      omega
    · -- the node's three units go to the worker that takes it
      simp only [if_neg h0] at hs
      cases hs
      have hsum := sum_map_set hw (.dequeued p.qHead) Worker.potential
      simp only [Worker.potential] at hsum
      obtain ⟨l, hl, _⟩ := h.links.dequeue h0
      have hq := h.queued_eq
      rw [hl, List.length_cons] at hq
      simp only [potential, List.length_set, List.length_append, List.length_singleton]
      omega
  · cases hs

theorem start_potential {w : ℕ} (hs : p.start w = some p') : p'.potential + 1 ≤ p.potential := by
  unfold start at hs
  split at hs
  · rename_i node hw
    cases hs
    have hsum := sum_map_set hw (.running node) Worker.potential
    simp only [Worker.potential] at hsum
    simp only [potential, List.length_set]
    omega
  · cases hs

theorem finish_potential {w : ℕ} (hs : p.finish w = some p') : p'.potential + 1 ≤ p.potential := by
  unfold finish at hs
  split at hs
  · rename_i node hw
    cases hs
    have hsum := sum_map_set hw .waiting Worker.potential
    simp only [Worker.potential] at hsum
    simp only [potential, List.length_set]
    omega
  · cases hs

theorem destroy_potential (hs : p.destroy = some p') : p'.potential + 1 ≤ p.potential := by
  unfold destroy at hs
  split at hs
  · rename_i hctl
    cases hs
    simp only [potential, hctl, Control.potential, Phase.potential]
    omega
  · cases hs

/-- A step of a shutdown that only moves the owning thread. -/
theorem set_phase_potential {rb : Bool} {phase phase' : Phase} (hctl : p.control = .closing rb phase)
    (hlt : phase'.potential p.threadCount < phase.potential p.threadCount) :
    potential { p with control := .closing rb phase' } + 1 ≤ p.potential := by
  simp only [potential, hctl, Control.potential]
  omega

theorem close_potential (h : p.Inv queue) (hs : p.close = some p') :
    p'.potential + 1 ≤ p.potential := by
  have hc := h.control
  rcases hctl : p.control with _ | _ | ⟨rb, _ | made | joined | node | _ | _ | _ | _⟩ <;>
    simp only [close, hctl] at hs
  · cases hs
  · cases hs
  · cases hs
    simp only [potential, hctl, Control.potential, Phase.potential]
    omega
  · -- a post costs two units, and the permit keeps one of them
    split_ifs at hs <;> cases hs <;>
      simp only [potential, hctl, Control.potential, Phase.potential] <;> omega
  · by_cases hlt : joined < p.threadCount
    · rw [if_pos hlt] at hs
      split_ifs at hs
      cases hs
      exact set_phase_potential hctl (by simp only [Phase.potential]; omega)
    · rw [if_neg hlt] at hs
      cases hs
      cases rb with
      | true => exact set_phase_potential hctl (by simp only [if_true, Phase.potential]; omega)
      | false =>
        exact set_phase_potential hctl
          (by simp only [Bool.false_eq_true, if_false, Phase.potential]; omega)
  · -- the drain loop has nothing to do, so it ends with this step
    rw [hctl] at hc
    have h0 : node = 0 := hc.2.2.2.1
    rw [if_neg (not_not.mpr h0)] at hs
    cases hs
    simp only [potential, hctl, Control.potential, Phase.potential]
    omega
  · cases hs
    exact set_phase_potential hctl (Nat.lt_succ_self _)
  · cases hs
    exact set_phase_potential hctl (Nat.lt_succ_self _)
  · cases hs
    exact set_phase_potential hctl (Nat.lt_succ_self _)
  · cases hs

/-- **Every step spends**, and only a new submit call brings anything in. -/
theorem step_potential (h : p.Inv queue) {e : Event} (hs : p.step e = some p') :
    p'.potential + 1 ≤ p.potential + e.gain := by
  cases e with
  | spawn ok => exact spawn_potential h hs
  | submit task granted => exact submit_potential hs
  | submitLock i => exact submitLock_potential h hs
  | submitPost i => exact submitPost_potential hs
  | wait w => exact wait_potential hs
  | dequeue w => exact dequeue_potential h hs
  | start w => exact start_potential hs
  | finish w => exact finish_potential hs
  | destroy => exact destroy_potential hs
  | close => exact close_potential h hs

end Steps

/-! ## A pool with nothing left to do -/

/-- An event the threads of the pool can make happen without a caller: any but a new submit and the
call of destroy. -/
def Event.Internal : Event → Prop
  | .submit _ _ => False
  | .destroy => False
  | _ => True

/-- Nothing is left to do: the owning thread is out of init and destroy, every submit has returned,
no permit and no node is left, and what was accepted has been completed. -/
structure Settled (p : ThreadPool) : Prop where
  control : p.control = .ready ∨ ∃ rollback, p.control = .closing rollback .done
  submits : ∀ s ∈ p.submits, ∃ rc, s.state = .returned rc
  qHead : p.qHead = 0
  items : p.items = 0
  completed : p.completed.Perm p.accepted

namespace Inv

variable {p : ThreadPool} {queue : List ℕ}

/-- When no submit can move, all have returned. -/
theorem submits_returned (hq : system.Quiet Event.Internal p) :
    ∀ s ∈ p.submits, ∃ rc, s.state = .returned rc := by
  rintro ⟨task, state⟩ hm
  obtain ⟨i, hi⟩ := List.mem_iff_getElem?.mp hm
  cases state with
  | entered =>
    have hs : p.submitLock i = none := hq (.submitLock i) trivial
    simp only [ThreadPool.submitLock, hi] at hs
    split_ifs at hs
  | enqueued =>
    have hs : p.submitPost i = none := hq (.submitPost i) trivial
    simp only [ThreadPool.submitPost, hi] at hs
    cases hs
  | returned rc => exact ⟨rc, rfl⟩

/-- When no worker can move, each has exited or is asleep at a semaphore without permits. -/
theorem worker_asleep (hq : system.Quiet Event.Internal p) :
    ∀ x ∈ p.workers, x = .exited ∨ (x = .waiting ∧ p.items = 0) := by
  intro x hm
  obtain ⟨w, hw⟩ := List.mem_iff_getElem?.mp hm
  cases x with
  | waiting =>
    have hs : p.wait w = none := hq (.wait w) trivial
    simp only [ThreadPool.wait, hw] at hs
    split_ifs at hs with h0
    exact Or.inr ⟨rfl, h0⟩
  | holding =>
    have hs : p.dequeue w = none := hq (.dequeue w) trivial
    simp only [ThreadPool.dequeue, hw] at hs
    split_ifs at hs
  | dequeued node =>
    have hs : p.start w = none := hq (.start w) trivial
    simp only [ThreadPool.start, hw] at hs
    cases hs
  | running node =>
    have hs : p.finish w = none := hq (.finish w) trivial
    simp only [ThreadPool.finish, hw] at hs
    cases hs
  | exited => exact Or.inl rfl

/-- The permits of a pool in which nobody can move: only exits balance the queued nodes and the
shutdown posts. -/
theorem permits_quiet (h : p.Inv queue) (hq : system.Quiet Event.Internal p) :
    p.items + p.exited = queue.length + p.shutdownPosts := by
  have hpend : p.pendingPosts = 0 := by
    apply List.countP_eq_zero.mpr
    intro s hs
    obtain ⟨rc, hrc⟩ := submits_returned hq s hs
    simp [hrc]
  have hheld : p.held = 0 := by
    apply List.count_eq_zero.mpr
    intro hm
    rcases worker_asleep hq _ hm with hx | ⟨hx, _⟩ <;> simp at hx
  have hp := h.permits
  omega

/-- **No lost wake-up**: a pool in which nobody can move is ready or destroyed, with no node and no
permit left. -/
theorem control_quiet (h : p.Inv queue) (hq : system.Quiet Event.Internal p) :
    (p.control = .ready ∨ ∃ rollback, p.control = .closing rollback .done) ∧ queue = [] ∧
      p.items = 0 := by
  have hp := h.permits_quiet hq
  have hc := h.control
  have hclose : p.close = none := hq .close trivial
  have hle : p.exited ≤ p.workers.length := List.count_le_length
  rcases hctl : p.control with _ | _ | ⟨rb, _ | made | joined | node | _ | _ | _ | _⟩ <;>
    simp only [ThreadPool.close, hctl] at hclose
  · have hs : p.spawn true = none := hq (.spawn true) trivial
    simp only [ThreadPool.spawn, hctl, if_true] at hs
    cases hs
  · -- no worker has exited, so there is one asleep, and its semaphore is empty
    rw [hctl] at hc
    obtain ⟨hd, hlen, hpos⟩ := hc
    have hzero := h.exited_eq_zero hd
    have hposts : p.shutdownPosts = 0 := h.control.posts_eq_zero hd
    obtain ⟨x, hx⟩ := List.exists_mem_of_length_pos (hlen ▸ hpos)
    have hitems : p.items = 0 := by
      rcases worker_asleep hq x hx with rfl | ⟨_, h0⟩
      · exact absurd (List.count_pos_iff.mpr hx) (by unfold exited at hzero; omega)
      · exact h0
    refine ⟨Or.inl rfl, List.length_eq_zero_iff.mp ?_, hitems⟩
    omega
  · cases hclose
  · split_ifs at hclose
  · -- the worker to join is asleep, but the shutdown posts leave it a permit
    exfalso
    rw [hctl] at hc
    have hlen := hc.1
    have hposts : p.shutdownPosts = p.threadCount := by
      unfold shutdownPosts
      rw [hctl]
      rfl
    by_cases hlt : joined < p.threadCount
    · rw [if_pos hlt] at hclose
      split_ifs at hclose with hw
      have hj : joined < p.workers.length := by omega
      have hm := List.getElem_mem hj
      rw [List.getElem?_eq_getElem hj] at hw
      rcases worker_asleep hq _ hm with hx | ⟨_, h0⟩
      · exact hw (by rw [hx])
      · have hall : p.exited = p.workers.length := by omega
        exact hw (by rw [← List.count_eq_length.mp hall _ hm])
    · rw [if_neg hlt] at hclose
      cases hclose
  · split_ifs at hclose
  · cases hclose
  · cases hclose
  · cases hclose
  · have hj : p.control.Joined p.threadCount := by
      rw [hctl]
      trivial
    have hnil := h.queue_nil_of_joined hj
    have hx := exited_eq_length (h.control.all_exited hj)
    have hposts : p.shutdownPosts = p.threadCount := by
      unfold shutdownPosts
      rw [hctl]
      rfl
    rw [hctl] at hc
    have hlen := hc.1
    rw [hnil, List.length_nil] at hp
    exact ⟨Or.inr ⟨rb, rfl⟩, hnil, by omega⟩

/-- When no worker has a node, what left the queue is completed. -/
theorem completed_perm_quiet (h : p.Inv queue) (hq : system.Quiet Event.Internal p) :
    p.completed.Perm p.dequeued := by
  have hd : p.workers.filterMap Worker.dequeuedNode = [] := by
    apply List.filterMap_eq_nil_iff.mpr
    intro x hx
    rcases worker_asleep hq x hx with rfl | ⟨rfl, _⟩ <;> rfl
  have hr : p.workers.filterMap Worker.runningNode = [] := by
    apply List.filterMap_eq_nil_iff.mpr
    intro x hx
    rcases worker_asleep hq x hx with rfl | ⟨rfl, _⟩ <;> rfl
  have h1 := h.work.taken
  have h2 := h.work.begun
  rw [hd, List.append_nil] at h1
  rw [hr, List.append_nil] at h2
  exact h2.trans h1

/-- A pool in which nobody can move has done everything. -/
theorem settled (h : p.Inv queue) (hq : system.Quiet Event.Internal p) : p.Settled := by
  obtain ⟨hctl, hnil, hitems⟩ := h.control_quiet hq
  refine ⟨hctl, submits_returned hq, h.links.head_eq_zero_iff.mpr hnil, hitems, ?_⟩
  have hacc := h.links.accepted_eq
  rw [hnil, List.append_nil] at hacc
  rw [hacc]
  exact h.completed_perm_quiet hq

end Inv

/-! ## Every run completes -/

theorem init_potential {n : ℕ} {mutexOk semaphoreOk granted : Bool} {p : ThreadPool}
    (h : init n mutexOk semaphoreOk granted = .ok p) : p.potential = 5 * n + 8 := by
  unfold init at h
  split_ifs at h
  cases h
  simp only [potential, Control.potential, List.map_nil, List.sum_nil, List.length_nil]
  omega

/-- A new submit call. -/
def Event.isSubmit : Event → Bool
  | .submit _ _ => true
  | _ => false

theorem sum_gain (es : List Event) : (es.map Event.gain).sum = 7 * es.countP Event.isSubmit := by
  induction es with
  | nil => rfl
  | cons e es ih =>
    rw [List.map_cons, List.sum_cons, List.countP_cons, ih]
    cases e <;> simp only [Event.gain, Event.isSubmit, if_true, Bool.false_eq_true, if_false] <;>
      omega

theorem Event.gain_eq_zero {e : Event} (h : e.Internal) : e.gain = 0 := by
  cases e with
  | submit task granted => exact absurd h id
  | _ => rfl

/-- **Every run completes.** A pool of `n` workers takes at most `5 n + 8` steps and seven for each
submit call, under any schedule of its workers, its callers and one shutdown or rollback, as long as
the tasks return.  A pool in which no thread can take a step is ready or destroyed; every submit has
returned, every accepted task has been completed, and nobody sleeps beside a queued node.  And from
every state of every run the threads of the pool get there by themselves. -/
theorem threadPool_completes {n : ℕ} {mutexOk semaphoreOk granted : Bool} {s p : ThreadPool}
    (hinit : init n mutexOk semaphoreOk granted = .ok s) {es : List Event}
    (hrun : system.run s es = some p) :
    es.length ≤ 5 * n + 8 + 7 * es.countP Event.isSubmit ∧
    (system.Quiet Event.Internal p → p.Settled) ∧
    ∃ es' q, (∀ e ∈ es', e.Internal) ∧ es'.length ≤ p.potential ∧ system.run p es' = some q ∧
      q.Settled := by
  have hkeep : ∀ (s : ThreadPool) (e : Event) (t : ThreadPool), (∃ queue, s.Inv queue) →
      system.step s e = some t → ∃ queue, t.Inv queue := fun _ _ _ ⟨_, hI⟩ hs => hI.step hs
  have hspend : ∀ (s : ThreadPool) (e : Event) (t : ThreadPool), (∃ queue, s.Inv queue) →
      system.step s e = some t → t.potential + 1 ≤ s.potential + e.gain :=
    fun _ _ _ ⟨_, hI⟩ hs => step_potential hI hs
  have h0 : Reachable system s := .init ⟨n, mutexOk, semaphoreOk, granted, hinit⟩
  have hp := reachable_inv (h0.run hrun)
  refine ⟨?_, fun hq => ?_, ?_⟩
  · have hlen := System.length_le hkeep hspend (reachable_inv h0) hrun
    rw [init_potential hinit, sum_gain] at hlen
    omega
  · obtain ⟨queue, hI⟩ := hp
    exact hI.settled hq
  · obtain ⟨es', q, hes, hr, hq⟩ := System.exists_quiet (I := Event.Internal) hkeep
      (fun s e t hI he hs => by
        have := hspend s e t hI hs
        rw [Event.gain_eq_zero he] at this
        exact this) hp
    have hlen := System.length_le hkeep hspend hp hr
    have hgain : (es'.map Event.gain).sum = 0 := by
      apply List.sum_eq_zero
      intro x hx
      obtain ⟨e, he, rfl⟩ := List.mem_map.mp hx
      exact Event.gain_eq_zero (hes e he)
    obtain ⟨queue, hI⟩ := reachable_inv ((h0.run hrun).run hr)
    exact ⟨es', q, hes, by omega, hr, hI.settled hq⟩

/-- Destroy is called while a submit stands between its critical section and its post: the pool still
gets everything done. -/
theorem threadPool_completes_late_post :
    ∃ s p, init 1 true true true = .ok s ∧
      system.run s [.spawn true, .submit ⟨1, 7⟩ true, .submitLock 0, .destroy] = some p ∧
      p.qHead = 1 ∧ ∃ es q, system.run p es = some q ∧ q.Settled := by
  obtain ⟨s, hinit⟩ : ∃ s, init 1 true true true = .ok s := ⟨_, rfl⟩
  obtain ⟨p, hrun, hhead⟩ : ∃ p, system.run s
      [.spawn true, .submit ⟨1, 7⟩ true, .submitLock 0, .destroy] = some p ∧ p.qHead = 1 := by
    cases hinit
    exact ⟨_, rfl, rfl⟩
  obtain ⟨_, _, es, q, _, _, hr, hq⟩ := threadPool_completes hinit hrun
  exact ⟨s, p, hinit, hrun, hhead, es, q, hr, hq⟩

end ThreadPool

end D4np
