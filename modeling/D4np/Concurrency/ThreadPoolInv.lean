import D4np.Concurrency.ThreadPoolParts

/-!
# The invariant of the thread pool

The permits are conserved: those in the semaphore, those in the hands of workers and those still to
be posted make up the queued nodes and the shutdown posts, less the ones that woke a worker to an
empty queue and made it exit.  So no worker exits before the shutdown has begun, and none exits with
a node in the queue.
-/

namespace D4np

open Links TransitionSystem

namespace ThreadPool

/-- The invariant of the pool, when the queue holds the nodes `queue`. -/
structure Inv (p : ThreadPool) (queue : List ℕ) : Prop where
  links : QueueOk p.next p.qHead p.qTail p.submits p.accepted p.dequeued queue
  work : WorkOk p.workers p.dequeued p.started p.completed
  tasks : TaskOk p.task p.submits p.started
  control : ControlOk p.threadCount p.shuttingDown p.workers p.submits p.control
  permits : p.items + p.held + p.pendingPosts + p.exited = queue.length + p.shutdownPosts
  exit : 0 < p.exited → p.shuttingDown = true ∧ queue = []
  discarded_eq : p.discarded = []

namespace Inv

variable {p p' : ThreadPool} {queue : List ℕ}

/-- A worker that holds a permit finds the queue empty only in a shutdown. -/
theorem shuttingDown_of_holding (h : p.Inv queue) {w : ℕ} (hw : p.workers[w]? = some .holding)
    (hq : queue = []) : p.shuttingDown = true := by
  by_contra hd
  rw [Bool.not_eq_true] at hd
  have hposts : p.shutdownPosts = 0 := h.control.posts_eq_zero hd
  have hheld : 0 < p.held := List.count_pos_iff.mpr (List.mem_of_getElem? hw)
  have hexit : p.exited = 0 := by
    by_contra hne
    rw [(h.exit (Nat.pos_of_ne_zero hne)).1] at hd
    simp at hd
  have hp := h.permits
  rw [hq, hposts, hexit] at hp
  simp only [List.length_nil] at hp
  omega

theorem exited_eq_length (hx : ∀ x ∈ p.workers, x = .exited) : p.exited = p.workers.length :=
  List.count_eq_length.mpr fun x hm => (hx x hm).symm

/-- When all workers of a shutdown have exited, the queue is empty. -/
theorem queue_nil_of_joined (h : p.Inv queue) (hj : p.control.Joined p.threadCount) :
    queue = [] := by
  have hx := exited_eq_length (h.control.all_exited hj)
  have hc := h.control
  by_cases hpos : 0 < p.exited
  · exact (h.exit hpos).2
  · -- without workers this is a rollback, and there was no submit
    have hsub : p.submits = [] := by
      rcases hctl : p.control with _ | _ | ⟨_ | _, phase⟩ <;> rw [hctl] at hc hj
      · exact hc.2.2
      · exact absurd hj id
      · have h1 := hc.1
        have h2 : 0 < p.threadCount := hc.2.1
        omega
      · exact hc.2.1
    cases queue with
    | nil => rfl
    | cons n l =>
      obtain ⟨i, s, _, hs, _⟩ := h.links.submitted n
        (by rw [h.links.accepted_eq]; exact List.mem_append_right _ List.mem_cons_self)
      rw [hsub] at hs
      simp at hs

/-- What the entry of a node into the queue leaves alone. -/
theorem enqueue_eq (p : ThreadPool) (node : ℕ) : p.enqueue node = { p with
    next := (p.enqueue node).next
    qHead := (p.enqueue node).qHead
    qTail := (p.enqueue node).qTail } := by
  unfold ThreadPool.enqueue
  split_ifs <;> rfl

/-! ### Steps of the workers -/

/-- A worker moves between two states of its loop, and the permits with it. -/
theorem move_worker (h : p.Inv queue) {w items : ℕ} {x y : Worker} {started : List (ℕ × Task)}
    {completed : List ℕ} (hw : p.workers[w]? = some x) (hx : x ≠ .exited) (hy : y ≠ .exited)
    (hitems : items + (if y = .holding then 1 else 0) = p.items + if x = .holding then 1 else 0)
    (hwork : WorkOk (p.workers.set w y) p.dequeued started completed)
    (hran : ∀ z ∈ started, ∃ i s, z.1 = i + 1 ∧ p.submits[i]? = some s ∧ s.task = z.2) :
    Inv { p with
      items := items
      workers := p.workers.set w y
      started := started
      completed := completed } queue := by
  have hheld := count_set_worker hw y .holding
  have hexit := count_set_worker hw y .exited
  rw [if_neg hx, if_neg hy] at hexit
  have hp := h.permits
  unfold held exited at hp
  refine ⟨h.links, hwork, ⟨h.tasks.node, hran⟩, h.control.set_worker hw hx y, ?_, ?_, h.discarded_eq⟩
  · show items + (p.workers.set w y).count .holding + p.pendingPosts +
      (p.workers.set w y).count .exited = queue.length + p.shutdownPosts
    omega
  · intro hpos
    have hpos' : 0 < (p.workers.set w y).count .exited := hpos
    exact h.exit (by unfold exited; omega)

theorem wait (h : p.Inv queue) {w : ℕ} (hs : p.wait w = some p') : p'.Inv queue := by
  unfold ThreadPool.wait at hs
  split at hs
  · rename_i hw
    split_ifs at hs with hitems
    cases hs
    refine h.move_worker hw (by simp) (by simp) ?_ (h.work.move hw rfl rfl) h.tasks.ran
    simp only [reduceCtorEq, if_true, if_false]
    omega
  · cases hs

theorem dequeue (h : p.Inv queue) {w : ℕ} (hs : p.dequeue w = some p') :
    ∃ queue', p'.Inv queue' := by
  unfold ThreadPool.dequeue at hs
  split at hs
  · rename_i hw
    have hp := h.permits
    unfold held exited at hp
    by_cases h0 : p.qHead = 0
    · -- an idle wake-up: the worker exits with its permit
      simp only [if_pos h0] at hs
      cases hs
      have hnil := h.links.head_eq_zero_iff.mp h0
      have hheld := count_set_worker hw .exited .holding
      have hexit := count_set_worker hw .exited .exited
      simp only [reduceCtorEq, if_false, if_true, Nat.add_zero] at hheld hexit
      refine ⟨queue, h.links, h.work.move hw rfl rfl, h.tasks,
        h.control.set_worker hw (by simp) _, ?_, fun _ => ⟨h.shuttingDown_of_holding hw hnil, hnil⟩,
        h.discarded_eq⟩
      show p.items + (p.workers.set w .exited).count .holding + p.pendingPosts +
        (p.workers.set w .exited).count .exited = queue.length + p.shutdownPosts
      omega
    · -- the permit is spent on the first node
      simp only [if_neg h0] at hs
      cases hs
      obtain ⟨l, hq, hlinks⟩ := h.links.dequeue h0
      have hheld := count_set_worker hw (.dequeued p.qHead) .holding
      have hexit := count_set_worker hw (.dequeued p.qHead) .exited
      simp only [reduceCtorEq, if_false, if_true, Nat.add_zero] at hheld hexit
      rw [hq, List.length_cons] at hp
      refine ⟨l, hlinks, h.work.dequeue hw _, h.tasks, h.control.set_worker hw (by simp) _, ?_, ?_,
        h.discarded_eq⟩
      · show p.items + (p.workers.set w (.dequeued p.qHead)).count .holding + p.pendingPosts +
          (p.workers.set w (.dequeued p.qHead)).count .exited = l.length + p.shutdownPosts
        omega
      · intro hpos
        have hpos' : 0 < (p.workers.set w (.dequeued p.qHead)).count .exited := hpos
        have := (h.exit (by unfold exited; omega)).2
        rw [hq] at this
        simp at this
  · cases hs

theorem start (h : p.Inv queue) {w : ℕ} (hs : p.start w = some p') : p'.Inv queue := by
  unfold ThreadPool.start at hs
  split at hs
  · rename_i node hw
    cases hs
    refine h.move_worker hw (by simp) (by simp) (by simp) (h.work.start hw _) fun x hx => ?_
    rcases List.mem_append.mp hx with hx | hx
    · exact h.tasks.ran x hx
    · -- the node left the queue, so it is the node of an accepted submit
      rw [List.mem_singleton] at hx
      subst hx
      have hmem : node ∈ p.dequeued := by
        apply h.work.taken.subset
        exact List.mem_append_right _ (List.mem_filterMap.mpr ⟨_, List.mem_of_getElem? hw, rfl⟩)
      obtain ⟨i, s, rfl, hs, hacc⟩ := h.links.submitted node
        (by rw [h.links.accepted_eq]; exact List.mem_append_left _ hmem)
      exact ⟨i, s, rfl, hs, (h.tasks.node i s hs (Or.inr hacc)).symm⟩
  · cases hs

theorem finish (h : p.Inv queue) {w : ℕ} (hs : p.finish w = some p') : p'.Inv queue := by
  unfold ThreadPool.finish at hs
  split at hs
  · rename_i node hw
    cases hs
    exact h.move_worker hw (by simp) (by simp) (by simp) (h.work.finish hw) h.tasks.ran
  · cases hs

/-! ### Steps of the submit calls -/

/-- A new call on a pool that has been handed out. -/
theorem add_submit (h : p.Inv queue) (hh : p.handedOut = true) (x : Submit)
    (hx : x.state ≠ .enqueued) {next : ℕ → ℕ} {task : ℕ → Task}
    (hlinks : QueueOk next p.qHead p.qTail (p.submits ++ [x]) p.accepted p.dequeued queue)
    (htasks : TaskOk task (p.submits ++ [x]) p.started) :
    Inv { p with next := next, task := task, submits := p.submits ++ [x] } queue := by
  refine ⟨hlinks, h.work, htasks, ?_, ?_, h.exit, h.discarded_eq⟩
  · have hc := h.control
    rcases hctl : p.control with _ | _ | ⟨_ | _, phase⟩ <;> rw [hctl] at hc <;>
      simp only [handedOut, hctl] at hh
    · exact absurd hh (by simp)
    · exact hc
    · exact hc
    · exact absurd hh (by simp)
  · show p.items + p.held + (p.submits ++ [x]).countP (fun s => s.state = .enqueued) + p.exited =
      queue.length + p.shutdownPosts
    rw [List.countP_append, List.countP_singleton, if_neg (by simpa using hx)]
    exact h.permits

theorem submit (h : p.Inv queue) {task : Task} {granted : Bool}
    (hs : p.submit task granted = some p') : p'.Inv queue := by
  simp only [ThreadPool.submit] at hs
  split_ifs at hs with hh hfn hg <;> cases hs <;> rw [Bool.not_eq_false] at hh
  · exact h.add_submit hh _ (by simp)
      (h.links.submit _ (fun _ _ => rfl) (by simp) (by simp [SubmitState.Accepted]))
      (h.tasks.submit _ (fun _ _ => rfl) (by simp [SubmitState.Accepted]))
  · exact h.add_submit hh _ (by simp)
      (h.links.submit _ (fun _ _ => rfl) (by simp) (by simp [SubmitState.Accepted]))
      (h.tasks.submit _ (fun _ _ => rfl) (by simp [SubmitState.Accepted]))
  · exact h.add_submit hh _ (by simp)
      (h.links.submit _ (fun _ hy => Function.update_of_ne hy _ _) (fun _ => Function.update_self ..)
        (by simp [SubmitState.Accepted]))
      (h.tasks.submit _ (fun _ hy => Function.update_of_ne hy _ _) fun _ => Function.update_self ..)

/-- Before the shutdown no worker has exited. -/
theorem exited_eq_zero (h : p.Inv queue) (hd : p.shuttingDown = false) : p.exited = 0 := by
  by_contra hne
  rw [(h.exit (Nat.pos_of_ne_zero hne)).1] at hd
  simp at hd

theorem submitLock (h : p.Inv queue) {i : ℕ} (hs : p.submitLock i = some p') :
    ∃ queue', p'.Inv queue' := by
  unfold ThreadPool.submitLock at hs
  split at hs
  · rename_i task hi
    have hne : p.submits ≠ [] := by
      rintro hnil
      rw [hnil] at hi
      simp at hi
    by_cases hd : p.shuttingDown = true
    · -- rejected
      simp only [if_pos hd] at hs
      cases hs
      have hcount := countP_set_submit hi ⟨task, .returned .errUnsupported⟩
      simp only [reduceCtorEq, if_false, Nat.add_zero] at hcount
      refine ⟨queue, h.links.set_submit hi (by simp [SubmitState.Accepted]) (by simp), h.work,
        h.tasks.set_submit hi (by simp [SubmitState.Accepted]), h.control.set_submits hne _, ?_, h.exit,
        h.discarded_eq⟩
      show p.items + p.held + (p.submits.set i ⟨task, .returned .errUnsupported⟩).countP
        (fun s => s.state = .enqueued) + p.exited = queue.length + p.shutdownPosts
      rw [hcount]
      exact h.permits
    · -- accepted: one more node, and one more post to make
      simp only [if_neg hd] at hs
      cases hs
      rw [Bool.not_eq_true] at hd
      have hcount := countP_set_submit hi ⟨task, .enqueued⟩
      simp only [reduceCtorEq, if_false, if_true, Nat.add_zero] at hcount
      have hp := h.permits
      unfold pendingPosts at hp
      have hzero := h.exited_eq_zero hd
      have hlinks : QueueOk (p.enqueue (i + 1)).next (p.enqueue (i + 1)).qHead
          (p.enqueue (i + 1)).qTail (p.submits.set i ⟨task, .enqueued⟩) (p.accepted ++ [i + 1])
          p.dequeued (queue ++ [i + 1]) := by
        unfold ThreadPool.enqueue
        by_cases h0 : p.qTail = 0
        · rw [if_neg (not_not.mpr h0)]
          exact h.links.enqueue hi (h.links.chain_first hi h0) fun _ _ => rfl
        · rw [if_pos h0]
          refine h.links.enqueue hi (h.links.chain_append hi h0) fun x hx => ?_
          refine Function.update_of_ne ?_ _ _
          rintro rfl
          exact hx (h.links.tail_mem h0)
      rw [enqueue_eq]
      refine ⟨queue ++ [i + 1], hlinks, h.work, h.tasks.set_submit hi (fun _ => Or.inl rfl),
        h.control.set_submits hne _, ?_, fun hpos => absurd hpos ?_, h.discarded_eq⟩
      · show p.items + p.held + (p.submits.set i ⟨task, .enqueued⟩).countP
          (fun s => s.state = .enqueued) + p.exited = (queue ++ [i + 1]).length + p.shutdownPosts
        rw [List.length_append, List.length_singleton]
        omega
      · show ¬ 0 < p.exited
        omega
  · cases hs

theorem submitPost (h : p.Inv queue) {i : ℕ} (hs : p.submitPost i = some p') : p'.Inv queue := by
  unfold ThreadPool.submitPost at hs
  split at hs
  · rename_i task hi
    cases hs
    have hne : p.submits ≠ [] := by
      rintro hnil
      rw [hnil] at hi
      simp at hi
    have hcount := countP_set_submit hi ⟨task, .returned .ok⟩
    simp only [reduceCtorEq, if_false, if_true, Nat.add_zero] at hcount
    have hp := h.permits
    unfold pendingPosts at hp
    refine ⟨h.links.set_submit hi (by simp [SubmitState.Accepted]) (by simp), h.work,
      h.tasks.set_submit hi (fun _ => Or.inr (Or.inl rfl)), h.control.set_submits hne _, ?_, h.exit,
      h.discarded_eq⟩
    show p.items + 1 + p.held + (p.submits.set i ⟨task, .returned .ok⟩).countP
      (fun s => s.state = .enqueued) + p.exited = queue.length + p.shutdownPosts
    omega
  · cases hs

/-! ### Steps of the owning thread -/

theorem spawn (h : p.Inv queue) {ok : Bool} (hs : p.spawn ok = some p') : p'.Inv queue := by
  have hc := h.control
  have hp := h.permits
  rcases hctl : p.control with _ | _ | ⟨rb, phase⟩ <;> simp only [ThreadPool.spawn, hctl] at hs
  · rw [hctl] at hc
    obtain ⟨hd, hlen, hsub⟩ := hc
    have hposts : p.shutdownPosts = 0 := h.control.posts_eq_zero hd
    have hzero := h.exited_eq_zero hd
    cases ok with
    | true =>
      simp only [if_true] at hs
      cases hs
      have hheld : (p.workers ++ [Worker.waiting]).count Worker.holding = p.held := by
        rw [List.count_append]
        rfl
      have hexit : (p.workers ++ [Worker.waiting]).count Worker.exited = p.exited := by
        rw [List.count_append]
        rfl
      refine ⟨h.links, h.work.spawn, h.tasks, ?_, ?_, fun hpos => absurd hpos ?_, h.discarded_eq⟩
      · show ControlOk p.threadCount p.shuttingDown (p.workers ++ [.waiting]) p.submits
          (if p.workers.length + 1 < p.threadCount then .spawning else .ready)
        split_ifs with hlt
        · exact ⟨hd, by rw [List.length_append]; exact hlt, hsub⟩
        · exact ⟨hd, by rw [List.length_append, List.length_singleton]; omega, by omega⟩
      · show p.items + (p.workers ++ [Worker.waiting]).count Worker.holding + p.pendingPosts +
          (p.workers ++ [Worker.waiting]).count Worker.exited = queue.length + Control.posts p.threadCount
            (if p.workers.length + 1 < p.threadCount then .spawning else .ready)
        rw [hheld, hexit, hp, hposts]
        split_ifs <;> rfl
      · show ¬ 0 < (p.workers ++ [Worker.waiting]).count Worker.exited
        omega
    | false =>
      simp only [Bool.false_eq_true, if_false] at hs
      cases hs
      refine ⟨h.links, h.work, h.tasks, ⟨rfl, hsub, hd⟩, ?_, h.exit, h.discarded_eq⟩
      rw [hposts] at hp
      exact hp
  · cases hs
  · cases hs

theorem destroy (h : p.Inv queue) (hs : p.destroy = some p') : p'.Inv queue := by
  have hc := h.control
  have hp := h.permits
  rcases hctl : p.control with _ | _ | ⟨rb, phase⟩ <;> simp only [ThreadPool.destroy, hctl] at hs
  · cases hs
  · cases hs
    rw [hctl] at hc
    obtain ⟨hd, hlen, hpos⟩ := hc
    have hposts : p.shutdownPosts = 0 := h.control.posts_eq_zero hd
    refine ⟨h.links, h.work, h.tasks, ⟨hlen, hpos, hd⟩, ?_, h.exit, h.discarded_eq⟩
    rw [hposts] at hp
    exact hp
  · cases hs


/-- A step of a shutdown that only moves the owning thread, to a phase with as many posts. -/
theorem set_phase (h : p.Inv queue) {rb : Bool} {phase phase' : Phase}
    (hctl : p.control = .closing rb phase)
    (hposts : Control.posts p.threadCount (.closing rb phase') =
      Control.posts p.threadCount (.closing rb phase))
    (hphase : PhaseOk p.threadCount p.shuttingDown p.workers phase') :
    Inv { p with control := .closing rb phase' } queue := by
  have hc := h.control
  have hp := h.permits
  unfold shutdownPosts at hp
  rw [hctl] at hc hp
  refine ⟨h.links, h.work, h.tasks, ⟨hc.1, hc.2.1, hphase⟩, ?_, h.exit, h.discarded_eq⟩
  rw [← hposts] at hp
  exact hp

/-- A post of a shutdown, or the end of its posts. -/
theorem close_post (h : p.Inv queue) {rb : Bool} {made : ℕ} (hctl : p.control = .closing rb (.post made))
    (hs : p.close = some p') : p'.Inv queue := by
  have hc := h.control
  have hp := h.permits
  unfold shutdownPosts at hp
  rw [hctl] at hc hp
  obtain ⟨hlen, hrb, hd, hle⟩ := hc
  simp only [ThreadPool.close, hctl] at hs
  split_ifs at hs with hlt <;> cases hs
  · refine ⟨h.links, h.work, h.tasks, ⟨hlen, hrb, hd, hlt⟩, ?_, h.exit, h.discarded_eq⟩
    simp only [Control.posts] at hp
    show p.items + 1 + p.held + p.pendingPosts + p.exited = queue.length + (made + 1)
    omega
  · refine h.set_phase hctl ?_ ⟨hd, Nat.zero_le _, fun w hw => absurd hw (Nat.not_lt_zero w)⟩
    simp only [Control.posts]
    omega

/-- A join of a shutdown, or the end of its joins. -/
theorem close_join (h : p.Inv queue) {rb : Bool} {joined : ℕ}
    (hctl : p.control = .closing rb (.join joined)) (hs : p.close = some p') : p'.Inv queue := by
  have hc := h.control
  rw [hctl] at hc
  obtain ⟨hlen, hrb, hd, hle, hall⟩ := hc
  simp only [ThreadPool.close, hctl] at hs
  by_cases hlt : joined < p.threadCount
  · rw [if_pos hlt] at hs
    split_ifs at hs with hw
    cases hs
    refine h.set_phase hctl rfl ⟨hd, hlt, fun j hj => ?_⟩
    rcases Nat.lt_succ_iff_lt_or_eq.mp hj with hj | rfl
    · exact hall j hj
    · exact hw
  · rw [if_neg hlt] at hs
    cases hs
    have hall' : ∀ w < p.threadCount, p.workers[w]? = some .exited :=
      fun w hw => hall w (by omega)
    have hnil : queue = [] := by
      apply h.queue_nil_of_joined
      rw [hctl]
      show joined = p.threadCount
      omega
    cases rb with
    | true => exact h.set_phase hctl rfl ⟨hd, hall'⟩
    | false => exact h.set_phase hctl rfl ⟨hd, h.links.head_eq_zero_iff.mpr hnil, hall'⟩

/-- The drain loop of a shutdown finds nothing. -/
theorem close_drain (h : p.Inv queue) {rb : Bool} {node : ℕ}
    (hctl : p.control = .closing rb (.drain node)) (hs : p.close = some p') : p'.Inv queue := by
  have hnil : queue = [] := by
    apply h.queue_nil_of_joined
    rw [hctl]
    trivial
  have hc := h.control
  have hp := h.permits
  unfold shutdownPosts at hp
  rw [hctl] at hc hp
  obtain ⟨hlen, hrb, hd, h0, hall⟩ := hc
  simp only [ThreadPool.close, hctl] at hs
  rw [if_neg (not_not.mpr h0)] at hs
  cases hs
  subst hnil
  exact ⟨⟨rfl, rfl, h.links.accepted_eq, h.links.nodup, h.links.submitted, h.links.complete,
    h.links.entered⟩,
    h.work, h.tasks, ⟨hlen, hrb, hd, hall⟩, hp, h.exit, h.discarded_eq⟩

theorem close (h : p.Inv queue) (hs : p.close = some p') : p'.Inv queue := by
  have hc := h.control
  rcases hctl : p.control with _ | _ | ⟨rb, _ | made | joined | node | _ | _ | _ | _⟩
  · simp [ThreadPool.close, hctl] at hs
  · simp [ThreadPool.close, hctl] at hs
  · have hp := h.permits
    unfold shutdownPosts at hp
    rw [hctl] at hc hp
    simp only [ThreadPool.close, hctl] at hs
    cases hs
    exact ⟨h.links, h.work, h.tasks, ⟨hc.1, hc.2.1, rfl, Nat.zero_le _⟩, hp,
      fun hpos => ⟨rfl, (h.exit hpos).2⟩, h.discarded_eq⟩
  · exact h.close_post hctl hs
  · exact h.close_join hctl hs
  · exact h.close_drain hctl hs
  · rw [hctl] at hc
    simp only [ThreadPool.close, hctl] at hs
    cases hs
    exact h.set_phase hctl rfl hc.2.2
  · rw [hctl] at hc
    simp only [ThreadPool.close, hctl] at hs
    cases hs
    exact h.set_phase hctl rfl hc.2.2
  · rw [hctl] at hc
    simp only [ThreadPool.close, hctl] at hs
    cases hs
    exact h.set_phase hctl rfl hc.2.2
  · simp [ThreadPool.close, hctl] at hs

theorem step (h : p.Inv queue) {e : Event} (hs : p.step e = some p') : ∃ queue', p'.Inv queue' := by
  cases e with
  | spawn ok => exact ⟨_, h.spawn hs⟩
  | submit task granted => exact ⟨_, h.submit hs⟩
  | submitLock i => exact h.submitLock hs
  | submitPost i => exact ⟨_, h.submitPost hs⟩
  | wait w => exact ⟨_, h.wait hs⟩
  | dequeue w => exact h.dequeue hs
  | start w => exact ⟨_, h.start hs⟩
  | finish w => exact ⟨_, h.finish hs⟩
  | destroy => exact ⟨_, h.destroy hs⟩
  | close => exact ⟨_, h.close hs⟩

end Inv

theorem init_inv {p : ThreadPool} (h : system.init p) : p.Inv [] := by
  obtain ⟨n, mutexOk, semaphoreOk, granted, hi⟩ := h
  unfold init at hi
  split_ifs at hi with h0 hover hm hsem hg
  cases hi
  refine ⟨⟨rfl, rfl, rfl, List.nodup_nil, ?_, ?_, ?_⟩, ⟨List.Perm.refl _, List.Perm.refl _⟩, ⟨?_, ?_⟩,
    ⟨rfl, Nat.pos_of_ne_zero h0, rfl⟩, rfl, ?_, rfl⟩
  · simp
  · simp
  · simp
  · simp
  · simp
  · simp [exited]

theorem reachable_inv {p : ThreadPool} (h : Reachable system p) : ∃ queue, p.Inv queue := by
  refine h.induct (P := fun p => ∃ queue, p.Inv queue) (fun _ hi => ⟨[], init_inv hi⟩) ?_
  rintro s e t ⟨queue, hI⟩ hs
  exact hI.step hs

end ThreadPool

end D4np
