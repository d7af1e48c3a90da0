import D4np.Concurrency.ThreadPoolInv
import D4np.Core.Ledger

/-!
# The memory of a thread pool

The nodes of a pool come from its allocator and go back to it from three places: the worker that has
run the task, the submit call that was rejected, and the drain loop.  Here the pool runs with the
allocator's side beside it, and a node is at the address it was granted, so that addresses may be
used again once they are free.  A rejected submit gives its node back after it has left the critical
section, which is a step of its own (`release`).

Which nodes are live can be read off the submit calls (`SubmitState.live`): the node of a call that
is on its way, the node of an accepted one until its task is completed, and the node of a rejected
one until it is released.  The ledger of the allocator agrees with that in every state (`MemOk`).
-/

namespace D4np

open Links TransitionSystem Word64

namespace ThreadPool

/-- `sizeof(d4np_task_node)`: three pointers. -/
def taskNodeSize : ℕ := 3 * ptrSize

/-- A pool and its memory: the `thread_count` init was called with, the allocator's side, the thread
array, the address of each node, and the nodes of rejected submits not yet given back. -/
structure Memory where
  pool : ThreadPool
  requested : ℕ
  heap : Heap
  threads : Option ℕ
  addr : ℕ → ℕ
  rejected : List ℕ

namespace Memory

/-- `d4np_thread_pool_init` up to its spawn loop. -/
def init (a : Allocator) (threadCount : ℕ) (mutexOk semaphoreOk : Bool) : Except Status Memory :=
  let r := d4npAlloc a (threadCount * ptrSize) ptrSize ⟨0, []⟩
  (ThreadPool.init threadCount mutexOk semaphoreOk r.1.isSome).map fun p =>
    { pool := p
      requested := threadCount
      heap := r.2
      threads := r.1.map Block.addr
      addr := fun _ => 0
      rejected := [] }

/-- A call of `d4np_thread_pool_submit` up to its critical section; `granted` records the answer of
the allocator, which is asked unless the function is null. -/
def submit (a : Allocator) (m : Memory) (task : Task) (granted : Bool) : Option Memory :=
  if task.fn = 0 then (m.pool.submit task granted).map fun p => { m with pool := p }
  else
    let r := d4npAlloc a taskNodeSize ptrSize m.heap
    if granted = r.1.isSome then
      (m.pool.submit task granted).map fun p =>
        { m with
          pool := p
          heap := r.2
          addr := Function.update m.addr (m.pool.submits.length + 1) ((r.1.map Block.addr).getD 0) }
    else none

/-- The critical section of `d4np_thread_pool_submit`. -/
def submitLock (m : Memory) (i : ℕ) : Option Memory :=
  (m.pool.submitLock i).map fun p =>
    { m with pool := p, rejected := if m.pool.shuttingDown then (i + 1) :: m.rejected else m.rejected }

/-- A rejected submit gives its node back. -/
def release (m : Memory) (node : ℕ) : Option Memory :=
  if node ∈ m.rejected then
    some { m with
      heap := d4npFree (some (m.addr node)) taskNodeSize m.heap
      rejected := m.rejected.erase node }
  else none

/-- The function of a task returns and the worker gives its node back. -/
def finish (m : Memory) (w : ℕ) : Option Memory :=
  (m.pool.finish w).map fun p =>
    { m with
      pool := p
      heap := d4npFree ((m.pool.workers[w]?.bind Worker.runningNode).map m.addr) taskNodeSize m.heap }

/-- The next step of a shutdown: the drain loop gives back a node, and then the thread array goes.
The rollback passes the size that init computed, and destroy the one of `thread_count`. -/
def close (m : Memory) : Option Memory :=
  m.pool.close.map fun p =>
    match m.pool.control with
    | .closing _ (.drain node) =>
      if node ≠ 0 then
        { m with pool := p, heap := d4npFree (some (m.addr node)) taskNodeSize m.heap }
      else { m with pool := p }
    | .closing rollback .freeThreads =>
      { m with
        pool := p
        heap := d4npFree m.threads
          (if rollback then m.requested * ptrSize else m.pool.threadCount * ptrSize) m.heap
        threads := none }
    | _ => { m with pool := p }

/-- What can happen: a step of the pool, or a rejected submit gives back its node. -/
inductive Event
  | pool (e : ThreadPool.Event)
  | release (node : ℕ)

/-- One step of a run. -/
def step (a : Allocator) (m : Memory) : Event → Option Memory
  | .pool (.submit task granted) => m.submit a task granted
  | .pool (.submitLock i) => m.submitLock i
  | .pool (.finish w) => m.finish w
  | .pool .close => m.close
  | .pool e => (m.pool.step e).map fun p => { m with pool := p }
  | .release node => m.release node

/-- The runs of a pool over the allocator `a`. -/
def system (a : Allocator) : System Memory Event where
  init m := ∃ threadCount mutexOk semaphoreOk, init a threadCount mutexOk semaphoreOk = .ok m
  step := step a

/-- The nodes a step reads or writes: the last of the queue, which gets a successor; the first, whose
successor becomes the first; the node whose task a worker runs; and what is given back. -/
def touched (m : Memory) : Event → List ℕ
  | .pool (.submitLock _) =>
    if m.pool.shuttingDown = false ∧ m.pool.qTail ≠ 0 then [m.pool.qTail] else []
  | .pool (.dequeue _) => if m.pool.qHead ≠ 0 then [m.pool.qHead] else []
  | .pool (.start w) => (m.pool.workers[w]?.bind Worker.dequeuedNode).toList
  | .pool (.finish w) => (m.pool.workers[w]?.bind Worker.runningNode).toList
  | .pool .close =>
    match m.pool.control with
    | .closing _ (.drain node) => if node ≠ 0 then [node] else []
    | _ => []
  | .release node => [node]
  | _ => []

end Memory

/-! ## Live nodes -/

/-- The node of a submit in this state is allocated and not given back. -/
def SubmitState.live (completed rejected : List ℕ) (node : ℕ) : SubmitState → Bool
  | .entered => true
  | .enqueued => decide (node ∉ completed)
  | .returned .ok => decide (node ∉ completed)
  | .returned _ => decide (node ∈ rejected)

/-- The node of submit number `i` is live. -/
def liveAt (submits : List Submit) (completed rejected : List ℕ) (i : ℕ) : Bool :=
  (submits[i]?).any fun s => s.state.live completed rejected (i + 1)

/-- The submits whose nodes are live. -/
def liveSubmits (submits : List Submit) (completed rejected : List ℕ) : List ℕ :=
  (List.range submits.length).filter (liveAt submits completed rejected)

theorem SubmitState.Accepted.live_eq {s : SubmitState} (h : s.Accepted)
    (completed rejected : List ℕ) (node : ℕ) :
    s.live completed rejected node = decide (node ∉ completed) := by
  rcases h with rfl | rfl <;> rfl

section LiveSubmits

variable {submits : List Submit} {completed rejected : List ℕ} {i j : ℕ}

theorem mem_liveSubmits :
    i ∈ liveSubmits submits completed rejected ↔
      ∃ s, submits[i]? = some s ∧ s.state.live completed rejected (i + 1) = true := by
  unfold liveSubmits liveAt
  rw [List.mem_filter, List.mem_range, Option.any_eq_true]
  exact ⟨fun h => h.2, fun ⟨s, hs, hl⟩ => ⟨(List.getElem?_eq_some_iff.mp hs).1, s, hs, hl⟩⟩

theorem liveSubmits_nodup : (liveSubmits submits completed rejected).Nodup :=
  List.nodup_range.filter _

/-- Two states of the submits and the lists with the same live nodes. -/
theorem liveSubmits_congr {submits' : List Submit} {completed' rejected' : List ℕ}
    (hlen : submits'.length = submits.length)
    (h : ∀ i, liveAt submits' completed' rejected' i = liveAt submits completed rejected i) :
    liveSubmits submits' completed' rejected' = liveSubmits submits completed rejected := by
  unfold liveSubmits
  rw [hlen]
  exact List.filter_congr fun i _ => h i

/-- Two states whose live nodes differ in one node that is gone. -/
theorem liveSubmits_erase {completed' rejected' : List ℕ}
    (hi : liveAt submits completed rejected i = true)
    (h : ∀ j, liveAt submits completed' rejected' j =
      (liveAt submits completed rejected j && decide (j ≠ i))) :
    (liveSubmits submits completed rejected).Perm (i :: liveSubmits submits completed' rejected') := by
  have hlt : i ∈ liveSubmits submits completed rejected := by
    apply mem_liveSubmits.mpr
    exact (Option.any_eq_true ..).mp hi
  apply (List.perm_ext_iff_of_nodup liveSubmits_nodup _).mpr
  · intro j
    unfold liveSubmits
    rw [List.mem_cons, List.mem_filter, List.mem_filter, h j, Bool.and_eq_true, decide_eq_true_eq]
    by_cases hj : j = i
    · subst hj
      unfold liveSubmits at hlt
      simpa using List.mem_filter.mp hlt
    · simp [hj]
  · refine List.nodup_cons.mpr ⟨fun hm => ?_, liveSubmits_nodup⟩
    have hl := (List.mem_filter.mp hm).2
    rw [h i] at hl
    simp at hl

/-- A submit moved to a state with the same answer. -/
theorem liveAt_set {x y : Submit} (hx : submits[i]? = some x) {rejected' : List ℕ}
    (hy : y.state.live completed rejected' (i + 1) = x.state.live completed rejected (i + 1))
    (hrest : ∀ j s, j ≠ i → submits[j]? = some s →
      s.state.live completed rejected' (j + 1) = s.state.live completed rejected (j + 1)) (j : ℕ) :
    liveAt (submits.set i y) completed rejected' j = liveAt submits completed rejected j := by
  unfold liveAt
  by_cases hj : j = i
  · subst hj
    rw [List.getElem?_set_self (List.getElem?_eq_some_iff.mp hx).1, hx]
    exact hy
  · rw [List.getElem?_set_ne (Ne.symm hj)]
    rcases hs : submits[j]? with _ | s
    · rfl
    · exact hrest j s hj hs

theorem liveSubmits_concat (x : Submit) :
    liveSubmits (submits ++ [x]) completed rejected = liveSubmits submits completed rejected ++
      if x.state.live completed rejected (submits.length + 1) then [submits.length] else [] := by
  unfold liveSubmits
  rw [List.length_append, List.length_singleton, List.range_succ, List.filter_append]
  congr 1
  · refine List.filter_congr fun i hi => ?_
    unfold liveAt
    rw [List.getElem?_append_left (List.mem_range.mp hi)]
  · rw [List.filter_singleton]
    unfold liveAt
    rw [List.getElem?_concat_length, Bool.cond_eq_ite]
    rfl

end LiveSubmits

/-! ## The ledger follows the pool -/

/-- A node in the queue is the node of an accepted submit whose task is not completed. -/
theorem Inv.live_of_queue {p : ThreadPool} {queue : List ℕ} (h : p.Inv queue) {n : ℕ}
    (hn : n ∈ queue) (rejected : List ℕ) :
    ∃ i, n = i + 1 ∧ liveAt p.submits p.completed rejected i = true := by
  have hacc : n ∈ p.accepted := by
    rw [h.links.accepted_eq]
    exact List.mem_append_right _ hn
  obtain ⟨i, s, rfl, hs, ha⟩ := h.links.submitted n hacc
  refine ⟨i, rfl, ?_⟩
  unfold liveAt
  rw [hs, Option.any_some, ha.live_eq, decide_eq_true_eq]
  intro hc
  have hd : i + 1 ∈ p.dequeued := by
    apply h.work.taken.subset
    exact List.mem_append_left _ (h.work.begun.subset (List.mem_append_left _ hc))
  have hnd := h.links.nodup
  rw [h.links.accepted_eq] at hnd
  exact (List.nodup_append.mp hnd).2.2 _ hd _ hn rfl

/-- What left the queue is not twice among the workers and the completed tasks. -/
theorem Inv.work_nodup {p : ThreadPool} {queue : List ℕ} (h : p.Inv queue) :
    (p.completed ++ p.workers.filterMap Worker.runningNode ++
      p.workers.filterMap Worker.dequeuedNode).Nodup := by
  have hnd := h.links.nodup
  rw [h.links.accepted_eq] at hnd
  have hd := h.work.taken.nodup_iff.mpr (List.nodup_append.mp hnd).1
  exact ((h.work.begun.append_right _).nodup_iff).mpr hd

/-- A node with a worker is the node of an accepted submit whose task is not completed. -/
theorem Inv.live_of_worker {p : ThreadPool} {queue : List ℕ} (h : p.Inv queue) {n : ℕ}
    (hn : n ∈ p.workers.filterMap Worker.runningNode ++ p.workers.filterMap Worker.dequeuedNode)
    (rejected : List ℕ) :
    ∃ i, n = i + 1 ∧ (∃ s, p.submits[i]? = some s ∧ s.state.Accepted) ∧
      liveAt p.submits p.completed rejected i = true := by
  have hd : n ∈ p.dequeued := by
    rcases List.mem_append.mp hn with hn | hn
    · apply h.work.taken.subset
      exact List.mem_append_left _ (h.work.begun.subset (List.mem_append_right _ hn))
    · exact h.work.taken.subset (List.mem_append_right _ hn)
  have hacc : n ∈ p.accepted := by
    rw [h.links.accepted_eq]
    exact List.mem_append_left _ hd
  obtain ⟨i, s, rfl, hs, ha⟩ := h.links.submitted n hacc
  refine ⟨i, rfl, ⟨s, hs, ha⟩, ?_⟩
  unfold liveAt
  rw [hs, Option.any_some, ha.live_eq, decide_eq_true_eq]
  intro hc
  have hnd := h.work_nodup
  rw [List.append_assoc] at hnd
  exact (List.nodup_append.mp hnd).2.2 _ hc _ hn rfl

namespace Memory

/-- The live nodes, by the number of their submit. -/
def nodes (m : Memory) : List ℕ := liveSubmits m.pool.submits m.pool.completed m.rejected

/-- The blocks of a pool: the thread array, until it is released, and the live nodes. -/
def blocks (m : Memory) : List (ℕ × ℕ) :=
  block m.threads (m.requested * ptrSize) ++ m.nodes.map fun i => (m.addr (i + 1), taskNodeSize)

end Memory

/-- The owning thread has not released the thread array yet. -/
def Control.HasThreads : Control → Prop
  | .closing _ .destroySemaphore => False
  | .closing _ .destroyMutex => False
  | .closing _ .done => False
  | _ => True

/-- The ledger of the allocator agrees with the pool. -/
structure MemOk (m : Memory) (queue : List ℕ) : Prop where
  pool : m.pool.Inv queue
  ledger : Accounts m.heap.log m.blocks
  rejected_nodup : m.rejected.Nodup
  rejected : ∀ n ∈ m.rejected, ∃ i s, n = i + 1 ∧ m.pool.submits[i]? = some s ∧
    s.state = .returned .errUnsupported
  count : m.pool.threadCount = m.requested ∨ ∃ phase, m.pool.control = .closing true phase
  threads : ¬ m.pool.control.HasThreads → m.threads = none

namespace MemOk

variable {m : Memory} {queue : List ℕ} {a : Allocator} {p : ThreadPool}

/-- A submit that was not rejected has no node to release. -/
theorem not_rejected (h : MemOk m queue) {i : ℕ} {s : Submit} (hi : m.pool.submits[i]? = some s)
    (hs : s.state ≠ .returned .errUnsupported) : i + 1 ∉ m.rejected := by
  intro hm
  obtain ⟨j, s', hj, hs', hst⟩ := h.rejected _ hm
  have hij : j = i := by omega
  subst hij
  rw [hi] at hs'
  cases hs'
  exact hs hst

/-- A step of the pool that leaves the memory alone. -/
theorem frame (h : MemOk m queue) (hI : ∃ queue', p.Inv queue')
    (hnodes : liveSubmits p.submits p.completed m.rejected = m.nodes)
    (hrej : ∀ (i : ℕ) (s : Submit), m.pool.submits[i]? = some s → s.state = .returned .errUnsupported →
      p.submits[i]? = some s)
    (hcount : p.threadCount = m.requested ∨ ∃ phase, p.control = .closing true phase)
    (hthreads : ¬ p.control.HasThreads → ¬ m.pool.control.HasThreads) :
    ∃ queue', MemOk { m with pool := p } queue' := by
  obtain ⟨queue', hI⟩ := hI
  refine ⟨queue', hI, ?_, h.rejected_nodup, fun n hn => ?_, hcount, fun hc => h.threads (hthreads hc)⟩
  · have hblocks : Memory.blocks { m with pool := p } = m.blocks := by
      simp only [Memory.blocks, Memory.nodes, hnodes]
    rw [hblocks]
    exact h.ledger
  · obtain ⟨i, s, rfl, hs, hst⟩ := h.rejected n hn
    exact ⟨i, s, rfl, hrej i s hs hst, hst⟩

/-- A step of the pool that leaves the memory, the submits and what is completed alone. -/
theorem frame_submits (h : MemOk m queue) (hI : ∃ queue', p.Inv queue')
    (hsub : p.submits = m.pool.submits) (hcomp : p.completed = m.pool.completed)
    (hcount : p.threadCount = m.requested ∨ ∃ phase, p.control = .closing true phase)
    (hthreads : ¬ p.control.HasThreads → ¬ m.pool.control.HasThreads) :
    ∃ queue', MemOk { m with pool := p } queue' :=
  h.frame hI (by rw [hsub, hcomp]; rfl) (fun i s hs _ => by rw [hsub]; exact hs) hcount hthreads

/-! ### Steps that leave the memory alone -/

theorem spawn (h : MemOk m queue) {ok : Bool} (hs : m.pool.spawn ok = some p) :
    ∃ queue', MemOk { m with pool := p } queue' := by
  have hI : ∃ queue', p.Inv queue' := ⟨queue, h.pool.spawn hs⟩
  unfold ThreadPool.spawn at hs
  split at hs
  · rename_i hctl
    have hcount : m.pool.threadCount = m.requested := by
      rcases h.count with hc | ⟨phase, hc⟩
      · exact hc
      · rw [hctl] at hc
        cases hc
    split_ifs at hs <;> cases hs
    · exact h.frame_submits hI rfl rfl (Or.inl hcount) fun hc => absurd trivial hc
    · exact h.frame_submits hI rfl rfl (Or.inl hcount) fun hc => absurd trivial hc
    · exact h.frame_submits hI rfl rfl (Or.inr ⟨_, rfl⟩) fun hc => absurd trivial hc
  · cases hs

theorem destroy (h : MemOk m queue) (hs : m.pool.destroy = some p) :
    ∃ queue', MemOk { m with pool := p } queue' := by
  have hI : ∃ queue', p.Inv queue' := ⟨queue, h.pool.destroy hs⟩
  unfold ThreadPool.destroy at hs
  split at hs
  · rename_i hctl
    cases hs
    refine h.frame_submits hI rfl rfl (Or.inl ?_) fun hc => absurd trivial hc
    rcases h.count with hc | ⟨phase, hc⟩
    · exact hc
    · rw [hctl] at hc
      cases hc
  · cases hs

theorem wait (h : MemOk m queue) {w : ℕ} (hs : m.pool.wait w = some p) :
    ∃ queue', MemOk { m with pool := p } queue' := by
  have hI : ∃ queue', p.Inv queue' := ⟨queue, h.pool.wait hs⟩
  unfold ThreadPool.wait at hs
  split at hs
  · split_ifs at hs
    cases hs
    exact h.frame_submits hI rfl rfl h.count id
  · cases hs

theorem dequeue (h : MemOk m queue) {w : ℕ} (hs : m.pool.dequeue w = some p) :
    ∃ queue', MemOk { m with pool := p } queue' := by
  have hI := h.pool.dequeue hs
  unfold ThreadPool.dequeue at hs
  split at hs
  · simp only at hs
    split_ifs at hs <;> cases hs <;> exact h.frame_submits hI rfl rfl h.count id
  · cases hs

theorem start (h : MemOk m queue) {w : ℕ} (hs : m.pool.start w = some p) :
    ∃ queue', MemOk { m with pool := p } queue' := by
  have hI : ∃ queue', p.Inv queue' := ⟨queue, h.pool.start hs⟩
  unfold ThreadPool.start at hs
  split at hs
  · cases hs
    exact h.frame_submits hI rfl rfl h.count id
  · cases hs

theorem submitPost (h : MemOk m queue) {i : ℕ} (hs : m.pool.submitPost i = some p) :
    ∃ queue', MemOk { m with pool := p } queue' := by
  have hI : ∃ queue', p.Inv queue' := ⟨queue, h.pool.submitPost hs⟩
  unfold ThreadPool.submitPost at hs
  split at hs
  · rename_i task hi
    cases hs
    refine h.frame hI ?_ (fun j s hj hst => ?_) h.count id
    · exact liveSubmits_congr List.length_set (liveAt_set hi rfl fun _ _ _ _ => rfl)
    · rw [List.getElem?_set_ne]
      · exact hj
      · rintro rfl
        rw [hi] at hj
        cases hj
        cases hst
  · cases hs

/-! ### A new submit -/

/-- A call that got no node joins the submits. -/
theorem live_refused (h : MemOk m queue) {task : Task} {rc : Status} (hrc : rc ≠ .ok) :
    liveSubmits (m.pool.submits ++ [⟨task, .returned rc⟩]) m.pool.completed m.rejected = m.nodes := by
  have hnew : m.pool.submits.length + 1 ∉ m.rejected := by
    intro hm
    obtain ⟨i, s, hi, hs, _⟩ := h.rejected _ hm
    have := (List.getElem?_eq_some_iff.mp hs).1
    omega
  rw [liveSubmits_concat, if_neg]
  · exact List.append_nil _
  · cases rc with
    | ok => exact absurd rfl hrc
    | _ => simpa [SubmitState.live] using hnew

theorem rejected_concat (h : MemOk m queue) (x : Submit) :
    ∀ n ∈ m.rejected, ∃ i s, n = i + 1 ∧ (m.pool.submits ++ [x])[i]? = some s ∧
      s.state = .returned .errUnsupported := by
  intro n hn
  obtain ⟨i, s, rfl, hs, hst⟩ := h.rejected n hn
  refine ⟨i, s, rfl, ?_, hst⟩
  rw [List.getElem?_append_left (List.getElem?_eq_some_iff.mp hs).1]
  exact hs

/-- The address of a new node is nobody else's. -/
theorem map_addr_update (m : Memory) (x : ℕ) :
    (m.nodes.map fun i =>
      (Function.update m.addr (m.pool.submits.length + 1) x (i + 1), taskNodeSize)) =
      m.nodes.map fun i => (m.addr (i + 1), taskNodeSize) := by
  refine List.map_congr_left fun i hi => ?_
  have hlt := List.mem_range.mp (List.mem_filter.mp hi).1
  rw [Function.update_of_ne (by omega)]

/-- The allocator grants the node of a new submit. -/
theorem submit_granted (h : MemOk m queue) {task : Task} {b : Block} (hI : p.Inv queue)
    (hb : (d4npAlloc a taskNodeSize ptrSize m.heap).1 = some b)
    (hsub : p.submits = m.pool.submits ++ [⟨task, .entered⟩])
    (hcomp : p.completed = m.pool.completed) (hcount : p.threadCount = m.pool.threadCount)
    (hctl : p.control = m.pool.control) :
    MemOk { m with
      pool := p
      heap := (d4npAlloc a taskNodeSize ptrSize m.heap).2
      addr := Function.update m.addr (m.pool.submits.length + 1) b.addr } queue := by
  refine ⟨hI, ?_, h.rejected_nodup, ?_, ?_, ?_⟩
  · have ha := h.ledger.alloc a taskNodeSize ptrSize
    rw [hb] at ha
    refine ha.perm ?_
    have hnodes : liveSubmits p.submits p.completed m.rejected = m.nodes ++ [m.pool.submits.length] := by
      rw [hsub, hcomp, liveSubmits_concat]
      rfl
    show ((b.addr, taskNodeSize) :: m.blocks).Perm (block m.threads (m.requested * ptrSize) ++
      (liveSubmits p.submits p.completed m.rejected).map fun i =>
        (Function.update m.addr (m.pool.submits.length + 1) b.addr (i + 1), taskNodeSize))
    rw [hnodes, List.map_append, map_addr_update, List.map_singleton, Function.update_self,
      ← List.append_assoc]
    exact (List.perm_append_singleton _ _).symm
  · show ∀ n ∈ m.rejected, ∃ i s, n = i + 1 ∧ p.submits[i]? = some s ∧
      s.state = .returned .errUnsupported
    rw [hsub]
    exact h.rejected_concat _
  · show p.threadCount = m.requested ∨ ∃ phase, p.control = .closing true phase
    rw [hcount, hctl]
    exact h.count
  · show ¬ p.control.HasThreads → m.threads = none
    rw [hctl]
    exact h.threads

theorem submit (h : MemOk m queue) {task : Task} {granted : Bool} {m' : Memory}
    (hs : m.submit a task granted = some m') : ∃ queue', MemOk m' queue' := by
  unfold Memory.submit at hs
  by_cases hfn : task.fn = 0
  · -- a null function: the allocator is not asked
    rw [if_pos hfn] at hs
    obtain ⟨p, hp, rfl⟩ := Option.map_eq_some_iff.mp hs
    have hI : ∃ queue', p.Inv queue' := ⟨queue, h.pool.submit hp⟩
    simp only [ThreadPool.submit] at hp
    split_ifs at hp
    cases hp
    refine h.frame hI (h.live_refused (by decide)) (fun i s hi _ => ?_) h.count id
    rw [List.getElem?_append_left (List.getElem?_eq_some_iff.mp hi).1]
    exact hi
  · rw [if_neg hfn] at hs
    simp only at hs
    split_ifs at hs with hg
    obtain ⟨p, hp, rfl⟩ := Option.map_eq_some_iff.mp hs
    have hI := h.pool.submit hp
    simp only [ThreadPool.submit] at hp
    split_ifs at hp with hh hgr <;> cases hp
    · -- refused: the log gets an entry, and the call returns
      rw [hg] at hgr
      have hb : (d4npAlloc a taskNodeSize ptrSize m.heap).1 = none := by
        rcases hr : (d4npAlloc a taskNodeSize ptrSize m.heap).1 with _ | b
        · rfl
        · rw [hr] at hgr
          cases hgr
      have ha := h.ledger.alloc a taskNodeSize ptrSize
      rw [hb] at ha
      refine ⟨queue, hI, ?_, h.rejected_nodup, h.rejected_concat _, h.count, h.threads⟩
      simp only [Memory.blocks, Memory.nodes]
      rw [h.live_refused (by decide), map_addr_update]
      exact ha
    · rw [hg] at hgr
      rcases hb : (d4npAlloc a taskNodeSize ptrSize m.heap).1 with _ | b
      · rw [hb] at hgr
        exact absurd rfl hgr
      · exact ⟨queue, h.submit_granted hI hb rfl rfl rfl rfl⟩

/-! ### The critical section of a submit -/

/-- What is completed was accepted. -/
theorem completed_accepted (h : MemOk m queue) {n : ℕ} (hn : n ∈ m.pool.completed) :
    n ∈ m.pool.accepted := by
  rw [h.pool.links.accepted_eq]
  apply List.mem_append_left
  apply h.pool.work.taken.subset
  exact List.mem_append_left _ (h.pool.work.begun.subset (List.mem_append_left _ hn))

theorem submitLock (h : MemOk m queue) {i : ℕ} {m' : Memory} (hs : m.submitLock i = some m') :
    ∃ queue', MemOk m' queue' := by
  unfold Memory.submitLock at hs
  obtain ⟨p, hp, rfl⟩ := Option.map_eq_some_iff.mp hs
  obtain ⟨queue', hI⟩ := h.pool.submitLock hp
  unfold ThreadPool.submitLock at hp
  split at hp
  · rename_i task hi
    by_cases hd : m.pool.shuttingDown = true
    · -- rejected: the node waits for its release
      rw [if_pos hd] at hp
      cases hp
      rw [if_pos hd]
      have hnew : i + 1 ∉ m.rejected := h.not_rejected hi (by simp)
      refine ⟨queue', hI, ?_, List.nodup_cons.mpr ⟨hnew, h.rejected_nodup⟩, ?_, h.count, h.threads⟩
      · have hsame : ∀ j, liveAt (m.pool.submits.set i ⟨task, .returned .errUnsupported⟩)
            m.pool.completed ((i + 1) :: m.rejected) j =
            liveAt m.pool.submits m.pool.completed m.rejected j := by
          refine liveAt_set hi (by simp [SubmitState.live]) fun j s hj _ => ?_
          rcases s with ⟨_, _ | _ | rc⟩
          · rfl
          · rfl
          · cases rc <;> simp [SubmitState.live, hj]
        simp only [Memory.blocks, Memory.nodes]
        rw [liveSubmits_congr List.length_set hsame]
        exact h.ledger
      · intro n hn
        rcases List.mem_cons.mp hn with rfl | hn
        · exact ⟨i, _, rfl, List.getElem?_set_self (List.getElem?_eq_some_iff.mp hi).1, rfl⟩
        · obtain ⟨j, s, rfl, hs, hst⟩ := h.rejected n hn
          refine ⟨j, s, rfl, ?_, hst⟩
          rw [List.getElem?_set_ne]
          · exact hs
          · rintro rfl
            exact hnew hn
    · -- accepted: the node moves into the queue
      rw [if_neg hd] at hp ⊢
      have hfresh : i + 1 ∉ m.pool.completed := fun hc =>
        h.pool.links.fresh hi (by simp [SubmitState.Accepted]) (h.completed_accepted hc)
      rw [Inv.enqueue_eq] at hp
      cases hp
      refine h.frame ⟨queue', hI⟩ ?_ (fun j s hj hst => ?_) h.count id
      · refine liveSubmits_congr List.length_set (liveAt_set hi ?_ fun _ _ _ _ => rfl)
        simpa [SubmitState.live] using hfresh
      · rw [List.getElem?_set_ne]
        · exact hj
        · rintro rfl
          rw [hi] at hj
          cases hj
          cases hst
  · cases hp

/-! ### Releases -/

/-- A node that goes back to the allocator, when the live nodes are then those without it. -/
theorem free_node (h : MemOk m queue) {i : ℕ} {nodes : List ℕ} (hp : m.nodes.Perm (i :: nodes)) :
    Accounts (d4npFree (some (m.addr (i + 1))) taskNodeSize m.heap).log
      (block m.threads (m.requested * ptrSize) ++
        nodes.map fun j => (m.addr (j + 1), taskNodeSize)) := by
  refine h.ledger.free ?_
  unfold Memory.blocks
  refine ((hp.map _).append_left _).trans ?_
  rw [List.map_cons]
  exact List.perm_middle

theorem release (h : MemOk m queue) {n : ℕ} {m' : Memory} (hs : m.release n = some m') :
    ∃ queue', MemOk m' queue' := by
  unfold Memory.release at hs
  split_ifs at hs with hn
  cases hs
  obtain ⟨i, s, rfl, hi, hst⟩ := h.rejected n hn
  have hlive : ∀ rejected : List ℕ, liveAt m.pool.submits m.pool.completed rejected i =
      decide (i + 1 ∈ rejected) := by
    intro rejected
    unfold liveAt
    rw [hi, Option.any_some, hst]
    rfl
  have hperm : m.nodes.Perm (i :: liveSubmits m.pool.submits m.pool.completed
      (m.rejected.erase (i + 1))) := by
    refine liveSubmits_erase (by rw [hlive]; simpa using hn) fun j => ?_
    by_cases hj : j = i
    · subst hj
      rw [hlive, hlive]
      simp [h.rejected_nodup.mem_erase_iff]
    · unfold liveAt
      rcases m.pool.submits[j]? with _ | ⟨_, _ | _ | rc⟩
      · rfl
      · simp [SubmitState.live, hj]
      · simp [SubmitState.live, hj]
      · cases rc <;> simp [SubmitState.live, hj, h.rejected_nodup.mem_erase_iff]
  exact ⟨queue, h.pool, h.free_node hperm, h.rejected_nodup.erase _,
    fun x hx => h.rejected x (List.mem_of_mem_erase hx), h.count, h.threads⟩

theorem finish (h : MemOk m queue) {w : ℕ} {m' : Memory} (hs : m.finish w = some m') :
    ∃ queue', MemOk m' queue' := by
  unfold Memory.finish at hs
  obtain ⟨p, hp, rfl⟩ := Option.map_eq_some_iff.mp hs
  have hI := h.pool.finish hp
  unfold ThreadPool.finish at hp
  split at hp
  · rename_i node hw
    cases hp
    have hmem : node ∈ m.pool.workers.filterMap Worker.runningNode :=
      List.mem_filterMap.mpr ⟨_, List.mem_of_getElem? hw, rfl⟩
    obtain ⟨i, rfl, ⟨s, hs, hacc⟩, hl⟩ := h.pool.live_of_worker (List.mem_append_left _ hmem) m.rejected
    have hperm : m.nodes.Perm (i :: liveSubmits m.pool.submits (m.pool.completed ++ [i + 1])
        m.rejected) := by
      refine liveSubmits_erase hl fun j => ?_
      by_cases hj : j = i
      · subst hj
        unfold liveAt
        rw [hs, Option.any_some, hacc.live_eq]
        simp
      · unfold liveAt
        rcases m.pool.submits[j]? with _ | ⟨_, _ | _ | rc⟩
        · rfl
        · simp [SubmitState.live, hj]
        · simp [SubmitState.live, hj]
        · cases rc <;> simp [SubmitState.live, hj]
    refine ⟨queue, hI, ?_, h.rejected_nodup, h.rejected, h.count, h.threads⟩
    rw [hw]
    exact h.free_node hperm
  · cases hp

/-- The thread array goes back with the size it was asked for with. -/
theorem free_threads (h : MemOk m queue) {rb : Bool} (hctl : m.pool.control = .closing rb .freeThreads) :
    Accounts (d4npFree m.threads
        (if rb then m.requested * ptrSize else m.pool.threadCount * ptrSize) m.heap).log
      (m.nodes.map fun j => (m.addr (j + 1), taskNodeSize)) := by
  have hsize : (if rb then m.requested * ptrSize else m.pool.threadCount * ptrSize) =
      m.requested * ptrSize := by
    split_ifs with hrb
    · rfl
    · rcases h.count with hc | ⟨phase, hc⟩
      · rw [hc]
      · rw [hctl] at hc
        cases hc
        exact absurd rfl hrb
  rw [hsize]
  exact h.ledger.free (List.Perm.refl _)

/-- A shutdown is a rollback in all its phases or in none. -/
theorem count_phase (h : MemOk m queue) {rb : Bool} {phase : Phase}
    (hctl : m.pool.control = .closing rb phase) (phase' : Phase) :
    m.pool.threadCount = m.requested ∨ ∃ x, Control.closing rb phase' = .closing true x := by
  rcases h.count with hc | ⟨x, hc⟩
  · exact Or.inl hc
  · rw [hctl] at hc
    cases hc
    exact Or.inr ⟨_, rfl⟩

theorem close (h : MemOk m queue) {m' : Memory} (hs : m.close = some m') :
    ∃ queue', MemOk m' queue' := by
  unfold Memory.close at hs
  obtain ⟨p, hp, rfl⟩ := Option.map_eq_some_iff.mp hs
  have hI : ∃ queue', p.Inv queue' := ⟨queue, h.pool.close hp⟩
  rcases hctl : m.pool.control with _ | _ | ⟨rb, _ | made | joined | node | _ | _ | _ | _⟩ <;>
    simp only [ThreadPool.close, hctl] at hp
  · cases hp
  · cases hp
  · cases hp
    exact h.frame_submits hI rfl rfl (h.count_phase hctl _) fun hc => absurd trivial hc
  · split_ifs at hp <;> cases hp <;>
      exact h.frame_submits hI rfl rfl (h.count_phase hctl _) fun hc => absurd trivial hc
  · split_ifs at hp <;> cases hp <;>
      exact h.frame_submits hI rfl rfl (h.count_phase hctl _) fun hc => absurd trivial hc
  · -- the drain loop finds no node
    have hc := h.pool.control
    rw [hctl] at hc
    have h0 : node = 0 := hc.2.2.2.1
    rw [if_neg (not_not.mpr h0)] at hp
    cases hp
    simp only [if_neg (not_not.mpr h0)]
    exact h.frame_submits hI rfl rfl (h.count_phase hctl _) fun hc => absurd trivial hc
  · cases hp
    obtain ⟨queue', hI⟩ := hI
    exact ⟨queue', hI, h.free_threads hctl, h.rejected_nodup, h.rejected, h.count_phase hctl _,
      fun _ => rfl⟩
  · cases hp
    exact h.frame_submits hI rfl rfl (h.count_phase hctl _) fun _ => by rw [hctl]; exact id
  · cases hp
    exact h.frame_submits hI rfl rfl (h.count_phase hctl _) fun _ => by rw [hctl]; exact id
  · cases hp

/-! ### Runs -/

theorem step (h : MemOk m queue) {e : Memory.Event} {m' : Memory} (hs : m.step a e = some m') :
    ∃ queue', MemOk m' queue' := by
  cases e with
  | release node => exact h.release hs
  | pool e =>
    cases e with
    | spawn ok =>
      obtain ⟨p, hp, rfl⟩ := Option.map_eq_some_iff.mp hs
      exact h.spawn hp
    | submit task granted => exact h.submit hs
    | submitLock i => exact h.submitLock hs
    | submitPost i =>
      obtain ⟨p, hp, rfl⟩ := Option.map_eq_some_iff.mp hs
      exact h.submitPost hp
    | wait w =>
      obtain ⟨p, hp, rfl⟩ := Option.map_eq_some_iff.mp hs
      exact h.wait hp
    | dequeue w =>
      obtain ⟨p, hp, rfl⟩ := Option.map_eq_some_iff.mp hs
      exact h.dequeue hp
    | start w =>
      obtain ⟨p, hp, rfl⟩ := Option.map_eq_some_iff.mp hs
      exact h.start hp
    | finish w => exact h.finish hs
    | destroy =>
      obtain ⟨p, hp, rfl⟩ := Option.map_eq_some_iff.mp hs
      exact h.destroy hp
    | close => exact h.close hs

end MemOk

theorem Memory.init_memOk {a : Allocator} {m : Memory} (h : (Memory.system a).init m) :
    MemOk m [] := by
  obtain ⟨n, mutexOk, semaphoreOk, hi⟩ := h
  unfold Memory.init at hi
  rcases hp : ThreadPool.init n mutexOk semaphoreOk
    (d4npAlloc a (n * ptrSize) ptrSize ⟨0, []⟩).1.isSome with rc | p <;> simp only [hp] at hi
  · cases hi
  · cases hi
    have hI : p.Inv [] := init_inv ⟨n, mutexOk, semaphoreOk, _, hp⟩
    have hl := (Accounts.nil).alloc (h := ⟨0, []⟩) a (n * ptrSize) ptrSize
    unfold ThreadPool.init at hp
    split_ifs at hp
    cases hp
    exact ⟨hI, hl, List.nodup_nil, fun x hx => absurd hx List.not_mem_nil, Or.inl rfl,
      fun hc => absurd trivial hc⟩

theorem Memory.reachable_memOk {a : Allocator} {m : Memory} (h : Reachable (Memory.system a) m) :
    ∃ queue, MemOk m queue := by
  refine h.induct (P := fun m => ∃ queue, MemOk m queue) (fun _ hi => ⟨[], init_memOk hi⟩) ?_
  rintro m e m' ⟨queue, hI⟩ hs
  exact hI.step hs

/-! ## What the memory is for -/

namespace MemOk

variable {m : Memory} {queue : List ℕ} {a : Allocator}

/-- A live node has its block. -/
theorem liveSize_node (h : MemOk m queue) (hh : Honest m.heap.log) {i : ℕ}
    (hi : liveAt m.pool.submits m.pool.completed m.rejected i = true) :
    liveSize m.heap.log (m.addr (i + 1)) = some taskNodeSize := by
  apply ((h.ledger hh).live _ _).mpr
  apply List.mem_append_right
  apply List.mem_map.mpr
  exact ⟨i, mem_liveSubmits.mpr ((Option.any_eq_true ..).mp hi), rfl⟩

/-- Every node a step touches is live. -/
theorem touched_live (h : MemOk m queue) {e : Memory.Event} {m' : Memory}
    (hs : m.step a e = some m') {n : ℕ} (hn : n ∈ m.touched e) :
    ∃ i, n = i + 1 ∧ liveAt m.pool.submits m.pool.completed m.rejected i = true := by
  cases e with
  | release node =>
    cases List.mem_singleton.mp hn
    replace hs : m.release n = some m' := hs
    unfold Memory.release at hs
    split_ifs at hs with hrej
    obtain ⟨i, s, rfl, hi, hst⟩ := h.rejected n hrej
    refine ⟨i, rfl, ?_⟩
    unfold liveAt
    rw [hi, Option.any_some, hst]
    simpa [SubmitState.live] using hrej
  | pool e =>
    cases e with
    | submitLock i =>
      simp only [Memory.touched] at hn
      split_ifs at hn with hc
      · cases List.mem_singleton.mp hn
        exact h.pool.live_of_queue (h.pool.links.tail_mem hc.2) _
      · exact absurd hn List.not_mem_nil
    | dequeue w =>
      simp only [Memory.touched] at hn
      split_ifs at hn with h0
      · cases List.mem_singleton.mp hn
        obtain ⟨l, hl, _⟩ := h.pool.links.dequeue h0
        refine h.pool.live_of_queue (n := m.pool.qHead) ?_ _
        rw [hl]
        exact List.mem_cons_self
      · exact absurd hn List.not_mem_nil
    | start w =>
      obtain ⟨x, hx, hd⟩ := Option.bind_eq_some_iff.mp (Option.mem_toList.mp hn)
      obtain ⟨i, rfl, _, hl⟩ := h.pool.live_of_worker (List.mem_append_right _
        (List.mem_filterMap.mpr ⟨x, List.mem_of_getElem? hx, hd⟩)) m.rejected
      exact ⟨i, rfl, hl⟩
    | finish w =>
      obtain ⟨x, hx, hd⟩ := Option.bind_eq_some_iff.mp (Option.mem_toList.mp hn)
      obtain ⟨i, rfl, _, hl⟩ := h.pool.live_of_worker (List.mem_append_left _
        (List.mem_filterMap.mpr ⟨x, List.mem_of_getElem? hx, hd⟩)) m.rejected
      exact ⟨i, rfl, hl⟩
    | close =>
      simp only [Memory.touched] at hn
      split at hn
      · rename_i rb node hctl
        have hc := h.pool.control
        rw [hctl] at hc
        have h0 : node = 0 := hc.2.2.2.1
        rw [if_neg (not_not.mpr h0)] at hn
        exact absurd hn List.not_mem_nil
      · exact absurd hn List.not_mem_nil
    | _ => exact absurd hn List.not_mem_nil

/-- After a shutdown, and once the rejected submits are back, no node is live. -/
theorem nodes_nil (h : MemOk m queue) {rb : Bool} (hctl : m.pool.control = .closing rb .done)
    (hsub : ∀ s ∈ m.pool.submits, s.state ≠ .entered) (hrej : m.rejected = []) : m.nodes = [] := by
  have hj : m.pool.control.Joined m.pool.threadCount := by
    rw [hctl]
    trivial
  have hperm := h.pool.work.completed_perm (h.pool.control.all_exited hj)
  have hacc := h.pool.links.accepted_eq
  rw [h.pool.queue_nil_of_joined hj, List.append_nil] at hacc
  rw [← hacc] at hperm
  apply List.eq_nil_iff_forall_not_mem.mpr
  intro i hi
  obtain ⟨s, hs, hl⟩ := mem_liveSubmits.mp hi
  by_cases ha : s.state.Accepted
  · rw [ha.live_eq, decide_eq_true_eq] at hl
    exact hl (hperm.mem_iff.mpr (h.pool.links.complete i s hs ha))
  · rw [hrej] at hl
    rcases s with ⟨task, _ | _ | rc⟩
    · exact hsub _ (List.mem_of_getElem? hs) rfl
    · exact ha (Or.inl rfl)
    · cases rc with
      | ok => exact ha (Or.inr rfl)
      | _ => simp [SubmitState.live] at hl

end MemOk

/-- **The memory of a pool is safe.** In every run over an allocator that grants no block twice at a
time, with addresses used again as they become free: every release names a live block with its
size; what is live is the thread array, with the size it was asked for with, and the nodes of the
calls on their way, of the accepted tasks not yet completed and of the rejected calls not yet back,
at pairwise different addresses; every node a step reads or writes is live at that step; and once a
destroy or a rollback is over and no submit is on its way, everything has been given back. -/
theorem threadPool_memory_safe {a : Allocator} {m : Memory} (h : Reachable (Memory.system a) m)
    (hh : Honest m.heap.log) :
    Valid m.heap.log ∧
    (∀ x size, liveSize m.heap.log x = some size ↔
      (m.threads = some x ∧ size = m.requested * ptrSize) ∨
      ∃ i ∈ m.nodes, x = m.addr (i + 1) ∧ size = taskNodeSize) ∧
    (∀ i ∈ m.nodes, ∀ j ∈ m.nodes, m.addr (i + 1) = m.addr (j + 1) → i = j) ∧
    (∀ e m', m.step a e = some m' → ∀ n ∈ m.touched e,
      liveSize m.heap.log (m.addr n) = some taskNodeSize) ∧
    (∀ rb, m.pool.control = .closing rb .done → (∀ s ∈ m.pool.submits, s.state ≠ .entered) →
      m.rejected = [] → ∀ x, liveSize m.heap.log x = none) := by
  obtain ⟨queue, hI⟩ := Memory.reachable_memOk h
  have ho := hI.ledger hh
  refine ⟨ho.valid, fun x size => ?_, ?_, fun e m' hs n hn => ?_, fun rb hctl hsub hrej x => ?_⟩
  · rw [ho.live, Memory.blocks, List.mem_append, List.mem_map, block, Option.mem_toList,
      Option.map_eq_some_iff]
    apply or_congr
    · constructor
      · rintro ⟨y, hy, he⟩
        cases he
        exact ⟨hy, rfl⟩
      · rintro ⟨hy, rfl⟩
        exact ⟨x, hy, rfl⟩
    · constructor
      · rintro ⟨i, hi, he⟩
        cases he
        exact ⟨i, hi, rfl, rfl⟩
      · rintro ⟨i, hi, rfl, rfl⟩
        exact ⟨i, hi, rfl⟩
  · have hnd := ho.nodup
    rw [Memory.blocks, List.map_append, List.map_map] at hnd
    intro i hi j hj hij
    exact List.inj_on_of_nodup_map (List.nodup_append.mp hnd).2.1 hi hj hij
  · obtain ⟨i, rfl, hl⟩ := hI.touched_live hs hn
    exact hI.liveSize_node hh hl
  · have hthreads : m.threads = none := hI.threads (by rw [hctl]; exact id)
    rcases hl : liveSize m.heap.log x with _ | size
    · rfl
    · have hm := (ho.live x size).mp hl
      rw [Memory.blocks, hI.nodes_nil hctl hsub hrej, hthreads] at hm
      exact absurd hm List.not_mem_nil

/-- A pool whose only submit comes too late, up to the end of its shutdown. -/
def Memory.rejectedRun : List Memory.Event :=
  [.pool (.spawn true), .pool (.submit ⟨1, 7⟩ true), .pool .destroy, .pool .close,
    .pool (.submitLock 0), .pool .close, .pool .close, .pool (.wait 0), .pool (.dequeue 0),
    .release 1, .pool .close, .pool .close, .pool .close, .pool .close, .pool .close, .pool .close]

/-- Where `rejectedRun` leads. -/
theorem Memory.rejectedRun_reachable :
    ∃ m, Reachable (Memory.system pageAllocator) m ∧
      m.heap.log = [.free (some 4096) 8, .free (some 8192) 24, .alloc 24 8 (some 8192),
        .alloc 8 8 (some 4096)] ∧
      m.pool.control = .closing false .done ∧ m.rejected = [] ∧
      m.pool.submits = [⟨⟨1, 7⟩, .returned .errUnsupported⟩] := by
  obtain ⟨s, hinit⟩ : ∃ s, Memory.init pageAllocator 1 true true = .ok s := ⟨_, rfl⟩
  have h0 : Reachable (Memory.system pageAllocator) s := .init ⟨1, true, true, hinit⟩
  have hrun : ((Memory.system pageAllocator).run s Memory.rejectedRun).map (fun m =>
      (m.heap.log, m.pool.control, m.rejected, m.pool.submits)) =
      some ([.free (some 4096) 8, .free (some 8192) 24, .alloc 24 8 (some 8192),
        .alloc 8 8 (some 4096)], .closing false .done, [],
        [⟨⟨1, 7⟩, .returned .errUnsupported⟩]) := by
    cases hinit
    decide +kernel
  obtain ⟨m, hm, he⟩ := Option.map_eq_some_iff.mp hrun
  rw [Prod.mk.injEq, Prod.mk.injEq, Prod.mk.injEq] at he
  exact ⟨m, h0.run hm, he⟩

theorem threadPool_memory_safe_rejected :
    ∃ m, Reachable (Memory.system pageAllocator) m ∧ m.heap.log.length = 4 ∧
      ∀ x, liveSize m.heap.log x = none := by
  obtain ⟨m, hr, hlog, hctl, hrej, hsub⟩ := Memory.rejectedRun_reachable
  obtain ⟨_, _, _, _, hdone⟩ := threadPool_memory_safe hr (by rw [hlog]; simp [Honest, liveSize])
  refine ⟨m, hr, by rw [hlog]; rfl, hdone false hctl ?_ hrej⟩
  intro s hs
  rw [hsub, List.mem_singleton] at hs
  rw [hs]
  simp

end ThreadPool

end D4np
