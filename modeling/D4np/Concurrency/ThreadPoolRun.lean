import D4np.Concurrency.ThreadPoolInv

/-!
# Runs of the thread pool

What the invariant says of every run: tasks leave the queue in order, each accepted task runs once,
and at the end of a shutdown all of them have; the permits add up, so no shutdown hangs and no
worker leaves early.
-/

namespace D4np

open Links TransitionSystem

namespace ThreadPool

variable {p : ThreadPool}

/-! ## Tasks -/

theorem Inv.started_nodup {queue : List ℕ} (h : p.Inv queue) : (p.started.map Prod.fst).Nodup := by
  have hnd := h.links.nodup
  rw [h.links.accepted_eq] at hnd
  have hd := h.work.taken.nodup_iff.mpr (List.nodup_append.mp hnd).1
  exact (List.nodup_append.mp hd).1

/-- What is started was accepted. -/
theorem Inv.started_accepted {queue : List ℕ} (h : p.Inv queue) {n : ℕ}
    (hn : n ∈ p.started.map Prod.fst) : n ∈ p.accepted := by
  rw [h.links.accepted_eq]
  exact List.mem_append_left _ (h.work.taken.subset (List.mem_append_left _ hn))

/-- What is completed was started, with the task of its submit. -/
theorem Inv.completed_started {queue : List ℕ} (h : p.Inv queue) {n : ℕ} (hn : n ∈ p.completed) :
    ∃ i s, n = i + 1 ∧ p.submits[i]? = some s ∧ (n, s.task) ∈ p.started := by
  have hstarted := h.work.begun.subset (List.mem_append_left _ hn)
  obtain ⟨⟨m, task⟩, hx, rfl⟩ := List.mem_map.mp hstarted
  obtain ⟨i, s, hi, hs, ht⟩ := h.tasks.ran _ hx
  refine ⟨i, s, hi, hs, ?_⟩
  rw [ht]
  exact hx

/-- **Each accepted task runs once.** In every state of a pool with any number of workers, in any
interleaving of submits, workers and one shutdown: tasks leave the queue in the order they entered
it; no task is started twice; what is started is the task of an accepted submit, so none of a submit
that returned an error; what is completed was started with the task of its submit; and once all
workers are joined, the tasks of the accepted submits have been completed, each once, `q_head` is
`NULL`, and the drain loop discards nothing. -/
theorem threadPool_runs_accepted_once (h : Reachable system p) :
    p.dequeued <+: p.accepted ∧
    (p.started.map Prod.fst).Nodup ∧
    (∀ x ∈ p.started, ∃ i s, x.1 = i + 1 ∧ p.submits[i]? = some s ∧ s.task = x.2 ∧
      s.state.Accepted) ∧
    (∀ i s rc, p.submits[i]? = some s → s.state = .returned rc → rc ≠ .ok →
      i + 1 ∉ p.started.map Prod.fst) ∧
    (∀ n ∈ p.completed, ∃ i s, n = i + 1 ∧ p.submits[i]? = some s ∧ (n, s.task) ∈ p.started) ∧
    (p.control.Joined p.threadCount →
      p.completed.Nodup ∧
      (∀ n, n ∈ p.completed ↔ ∃ i s, n = i + 1 ∧ p.submits[i]? = some s ∧ s.state.Accepted) ∧
      p.qHead = 0 ∧ p.discarded = []) := by
  obtain ⟨queue, hI⟩ := reachable_inv h
  refine ⟨?_, hI.started_nodup, fun x hx => ?_, fun i s rc hi hs hrc hm => ?_,
    fun n hn => hI.completed_started hn, fun hj => ?_⟩
  · rw [hI.links.accepted_eq]
    exact List.prefix_append _ _
  · obtain ⟨i, s, hxi, hs, ht⟩ := hI.tasks.ran x hx
    refine ⟨i, s, hxi, hs, ht, ?_⟩
    obtain ⟨j, s', hj, hs', hacc⟩ := hI.links.submitted x.1
      (hI.started_accepted (List.mem_map_of_mem hx))
    have hij : i = j := by omega
    subst hij
    rw [hs] at hs'
    cases hs'
    exact hacc
  · refine hI.links.fresh hi ?_ (hI.started_accepted hm)
    rw [hs]
    simp [SubmitState.Accepted, hrc]
  · have hnil := hI.queue_nil_of_joined hj
    have hperm := hI.work.completed_perm (hI.control.all_exited hj)
    have hacc := hI.links.accepted_eq
    rw [hnil, List.append_nil] at hacc
    rw [← hacc] at hperm
    refine ⟨hperm.nodup_iff.mpr hI.links.nodup, fun n => ?_, hI.links.head_eq_zero_iff.mpr hnil,
      hI.discarded_eq⟩
    rw [hperm.mem_iff]
    constructor
    · exact hI.links.submitted n
    · rintro ⟨i, s, rfl, hs, ha⟩
      exact hI.links.complete i s hs ha

/-- A pool of one worker that gets a task and is destroyed before the post of the submit is made:
the worker spends the shutdown permit on the task, and the late post lets it exit. -/
def lateRun : List Event :=
  [.spawn true, .submit ⟨1, 7⟩ true, .submitLock 0, .destroy, .close, .close, .wait 0, .dequeue 0,
    .start 0, .finish 0, .submitPost 0, .wait 0, .dequeue 0, .close, .close]

/-- Where `lateRun` leads: the worker is joined and has exited, and the submit has returned. -/
theorem lateRun_reachable :
    ∃ p, Reachable system p ∧ p.control.Joined p.threadCount ∧ p.exited = 1 ∧
      p.submits[0]? = some ⟨⟨1, 7⟩, .returned .ok⟩ := by
  obtain ⟨s, hinit⟩ : ∃ s, init 1 true true true = .ok s := ⟨_, rfl⟩
  have h0 : Reachable system s := .init ⟨1, true, true, true, hinit⟩
  obtain ⟨p, hrun⟩ : ∃ p, system.run s lateRun = some p := by
    cases hinit
    exact ⟨_, rfl⟩
  refine ⟨p, h0.run hrun, ?_⟩
  cases hinit
  cases hrun
  exact ⟨rfl, rfl, rfl⟩

theorem threadPool_runs_accepted_once_one_worker :
    ∃ p, Reachable system p ∧ p.control.Joined p.threadCount ∧ 1 ∈ p.completed ∧
      (1, ⟨1, 7⟩) ∈ p.started ∧ p.qHead = 0 := by
  obtain ⟨p, hr, hj, _, hsub⟩ := lateRun_reachable
  obtain ⟨_, _, _, _, hstarted, hdone⟩ := threadPool_runs_accepted_once hr
  obtain ⟨_, hcompleted, hnull, _⟩ := hdone hj
  have hmem := (hcompleted 1).mpr ⟨0, _, rfl, hsub, Or.inr rfl⟩
  obtain ⟨i, s, hi, hs, hx⟩ := hstarted 1 hmem
  obtain rfl : i = 0 := by omega
  obtain rfl := Option.some.inj (hsub.symm.trans hs)
  exact ⟨p, hr, hj, hmem, hx, hnull⟩

/-! ## What a step moves -/

/-- **A step** moves the owning thread, one submit, or one worker that has not exited. -/
theorem step_moves {p' : ThreadPool} {e : Event} (hs : p.step e = some p') :
    (((∃ ok, e = .spawn ok) ∨ e = .destroy ∨ e = .close) ∧ p'.submits = p.submits ∧
      p.workers.Sublist p'.workers) ∨
    (e ≠ .close ∧ p'.control = p.control ∧ p'.workers = p.workers ∧
      ((∃ x, p'.submits = p.submits ++ [x]) ∨
      (∃ i task y, e = .submitLock i ∧ p.submits[i]? = some ⟨task, .entered⟩ ∧ y ≠ .entered ∧
        p'.submits = p.submits.set i ⟨task, y⟩) ∨
      ∃ i task, p.submits[i]? = some ⟨task, .enqueued⟩ ∧
        p'.submits = p.submits.set i ⟨task, .returned .ok⟩)) ∨
    (e ≠ .close ∧ p'.control = p.control ∧ p'.submits = p.submits ∧
      ∃ w x y, p.workers[w]? = some x ∧ x ≠ .exited ∧ p'.workers = p.workers.set w y) := by
  cases e with
  | spawn ok =>
    left
    simp only [step, spawn] at hs
    split at hs
    · cases ok with
      | true =>
        rw [if_pos rfl] at hs
        cases hs
        exact ⟨Or.inl ⟨_, rfl⟩, rfl, List.sublist_append_left _ _⟩
      | false =>
        rw [if_neg (by simp)] at hs
        cases hs
        exact ⟨Or.inl ⟨_, rfl⟩, rfl, List.Sublist.refl _⟩
    · cases hs
  | submit task granted =>
    simp only [step, submit] at hs
    split_ifs at hs <;> cases hs <;>
      exact Or.inr (Or.inl ⟨by simp, rfl, rfl, Or.inl ⟨_, rfl⟩⟩)
  | submitLock i =>
    simp only [step, submitLock] at hs
    split at hs
    · rename_i task hx
      split_ifs at hs <;> cases hs
      · exact Or.inr (Or.inl ⟨by simp, rfl, rfl, Or.inr (Or.inl
          ⟨i, task, .returned .errUnsupported, rfl, hx, by simp, rfl⟩)⟩)
      · rw [Inv.enqueue_eq]
        exact Or.inr (Or.inl ⟨by simp, rfl, rfl, Or.inr (Or.inl
          ⟨i, task, .enqueued, rfl, hx, by simp, rfl⟩)⟩)
    · cases hs
  | submitPost i =>
    simp only [step, submitPost] at hs
    split at hs
    · rename_i task hx
      cases hs
      exact Or.inr (Or.inl ⟨by simp, rfl, rfl, Or.inr (Or.inr ⟨i, task, hx, rfl⟩)⟩)
    · cases hs
  | wait w =>
    simp only [step, wait] at hs
    split at hs
    · rename_i hw
      split_ifs at hs
      cases hs
      exact Or.inr (Or.inr ⟨by simp, rfl, rfl, w, _, _, hw, by simp, rfl⟩)
    · cases hs
  | dequeue w =>
    simp only [step, dequeue] at hs
    split at hs
    · rename_i hw
      split_ifs at hs <;> cases hs <;>
        exact Or.inr (Or.inr ⟨by simp, rfl, rfl, w, _, _, hw, by simp, rfl⟩)
    · cases hs
  | start w =>
    simp only [step, start] at hs
    split at hs
    · rename_i hw
      cases hs
      exact Or.inr (Or.inr ⟨by simp, rfl, rfl, w, _, _, hw, by simp, rfl⟩)
    · cases hs
  | finish w =>
    simp only [step, finish] at hs
    split at hs
    · rename_i hw
      cases hs
      exact Or.inr (Or.inr ⟨by simp, rfl, rfl, w, _, _, hw, by simp, rfl⟩)
    · cases hs
  | destroy =>
    simp only [step, destroy] at hs
    split at hs <;> cases hs
    exact Or.inl ⟨Or.inr (Or.inl rfl), rfl, List.Sublist.refl _⟩
  | close =>
    simp only [step, close] at hs
    split at hs <;> (try split_ifs at hs) <;> cases hs <;>
      exact Or.inl ⟨Or.inr (Or.inr rfl), rfl, List.Sublist.refl _⟩

/-! ## Permits -/

/-- Exits are for good. -/
theorem step_exited_le {p' : ThreadPool} {e : Event} (hs : p.step e = some p') :
    p.exited ≤ p'.exited := by
  unfold exited
  rcases step_moves hs with ⟨_, _, hw⟩ | ⟨_, _, hw, _⟩ | ⟨_, _, _, w, x, y, hx, hne, hw⟩
  · exact hw.count_le _
  · rw [hw]
  · -- a worker that has exited takes no step
    have := count_set_worker hx y .exited
    rw [if_neg hne] at this
    rw [hw]
    omega

theorem run_exited_le {es : List Event} {p' : ThreadPool} (hr : system.run p es = some p') :
    p.exited ≤ p'.exited :=
  System.run_induct (P := fun q => p.exited ≤ q.exited) (fun _ _ _ h hs => h.trans (step_exited_le hs))
    (le_refl _) hr

/-- There are as many workers as the posts of a complete shutdown. -/
theorem ControlOk.length_eq_of_posts {n : ℕ} {shuttingDown : Bool} {workers : List Worker}
    {submits : List Submit} {control : Control}
    (h : ControlOk n shuttingDown workers submits control) (hp : control.posts n = n) :
    workers.length = n := by
  cases control with
  | spawning =>
    have h1 : 0 = n := hp
    have h2 := h.2.1
    omega
  | ready => exact h.2.1
  | closing rollback phase => exact h.1

/-- When all joins are made, every accepted submit has made its post. -/
theorem Inv.pendingPosts_eq_zero {queue : List ℕ} (hI : p.Inv queue)
    (hj : p.control.Joined p.threadCount) : p.pendingPosts = 0 := by
  have hp := hI.permits
  have hx := Inv.exited_eq_length (hI.control.all_exited hj)
  have hposts : p.shutdownPosts = p.workers.length := by
    unfold shutdownPosts
    have hc := hI.control
    rcases hctl : p.control with _ | _ | ⟨rb, _ | _ | _ | _ | _ | _ | _ | _⟩ <;>
      rw [hctl] at hj hc
    all_goals first | exact absurd hj id | exact hc.1.symm
  rw [hI.queue_nil_of_joined hj] at hp
  simp only [List.length_nil] at hp
  omega

/-- **Permits are conserved.** In every state of a pool, in any interleaving of submits, workers and
one shutdown or of the rollback of a failed init: the permits in the semaphore, those of workers
between wait and dequeue and those of accepted submits that have not posted, with one for each
worker that has exited, are as many as the queued nodes and the shutdown posts made.  So no worker
has exited unless the shutdown has begun; once one has exited the queue is empty for good; when all
joins are made no accepted submit has its post to make; and no complete shutdown is stuck with a
worker that has not exited, all such workers blocked at a semaphore without permits, and no post to
come. -/
theorem threadPool_permits_conserved (h : Reachable system p) :
    (∃ queue, Chain p.next p.qHead queue 0 ∧ 0 ∉ queue ∧
      p.items + p.held + p.pendingPosts + p.exited = queue.length + p.shutdownPosts) ∧
    (0 < p.exited → p.shuttingDown = true) ∧
    (0 < p.exited → ∀ es p', system.run p es = some p' → p'.qHead = 0) ∧
    (p.control.Joined p.threadCount → p.pendingPosts = 0) ∧
    ¬ (p.shutdownPosts = p.threadCount ∧ (∃ x ∈ p.workers, x ≠ .exited) ∧
      (∀ x ∈ p.workers, x ≠ .exited → x = .waiting) ∧ p.items = 0 ∧ p.pendingPosts = 0) := by
  obtain ⟨queue, hI⟩ := reachable_inv h
  have hp := hI.permits
  refine ⟨⟨queue, hI.links.chain, fun h0 => hI.links.ne_zero h0 rfl, hp⟩,
    fun hpos => (hI.exit hpos).1, fun hpos es p' hr => ?_, hI.pendingPosts_eq_zero, ?_⟩
  · obtain ⟨queue', hI'⟩ := reachable_inv (h.run hr)
    have hle := run_exited_le hr
    exact hI'.links.head_eq_zero_iff.mpr (hI'.exit (by omega)).2
  · rintro ⟨hposts, ⟨x, hx, hne⟩, hall, hitems, hpend⟩
    have hlen := hI.control.length_eq_of_posts hposts
    have hheld : p.held = 0 := by
      refine List.count_eq_zero.mpr fun hm => ?_
      have := hall _ hm (by simp)
      simp at this
    have hle : p.exited ≤ p.workers.length := List.count_le_length
    have hfull : p.exited = p.workers.length := by omega
    exact hne (List.count_eq_length.mp hfull x hx).symm

theorem threadPool_permits_conserved_one_worker :
    ∃ p, Reachable system p ∧ p.exited = 1 ∧ p.shuttingDown = true ∧ p.pendingPosts = 0 := by
  obtain ⟨p, hr, hj, hexited, _⟩ := lateRun_reachable
  obtain ⟨_, hdown, _, hpend, _⟩ := threadPool_permits_conserved hr
  exact ⟨p, hr, hexited, hdown (by omega), hpend hj⟩

end ThreadPool

end D4np
