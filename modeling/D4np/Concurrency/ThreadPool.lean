import D4np.Core.Allocator
import D4np.Lib.TransitionSystem
import Mathlib.Logic.Function.Basic

/-!
# The thread pool

Workers, any number of submit calls and the thread that runs `d4np_thread_pool_init` and
`d4np_thread_pool_destroy` interleave freely.  The steps are the ones no other thread can cut into:
a critical section, a wait or a post on the semaphore, the start and the end of a task, a join.  The
queue is the linked list of task nodes behind `q_head`; the node of submit call number `i` is named
`i + 1`, and zero is `NULL`.  A run records the nodes in the order they enter the queue, leave it,
start and complete.

The semaphore counts `unsigned long` permits.  It never holds more than one for each queued node and
each worker, both of which are memory the process has, so it is a natural number here.
-/

namespace D4np

open Word64 TransitionSystem

namespace ThreadPool

/-- A task: its function and its argument. -/
structure Task where
  fn : ℕ
  arg : ℕ
  deriving DecidableEq

/-- Where a call of `d4np_thread_pool_submit` is: before its critical section, between its critical
section and its post, or back with a status. -/
inductive SubmitState
  | entered
  | enqueued
  | returned (rc : Status)
  deriving DecidableEq

/-- A call of `d4np_thread_pool_submit`. -/
structure Submit where
  task : Task
  state : SubmitState
  deriving DecidableEq

/-- Where a worker is in `pool_worker`. -/
inductive Worker
  | waiting
  | holding
  | dequeued (node : ℕ)
  | running (node : ℕ)
  | exited
  deriving DecidableEq

/-- Where a shutdown is: the critical section, the posts, the joins, the drain loop, and the
releases that end it. -/
inductive Phase
  | lock
  | post (made : ℕ)
  | join (joined : ℕ)
  | drain (node : ℕ)
  | freeThreads
  | destroySemaphore
  | destroyMutex
  | done
  deriving DecidableEq

/-- Where the thread is that owns the pool: in the spawn loop of `d4np_thread_pool_init`, between
init and destroy, or in a shutdown, which is the one of `d4np_thread_pool_destroy` or the rollback
of `d4np_thread_pool_init`. -/
inductive Control
  | spawning
  | ready
  | closing (rollback : Bool) (phase : Phase)
  deriving DecidableEq

end ThreadPool

open ThreadPool in
/-- `d4np_thread_pool_t`, its task nodes and its threads. -/
structure ThreadPool where
  threadCount : ℕ
  qHead : ℕ
  qTail : ℕ
  shuttingDown : Bool
  items : ℕ
  next : ℕ → ℕ
  task : ℕ → Task
  submits : List Submit
  workers : List Worker
  control : Control
  accepted : List ℕ
  dequeued : List ℕ
  started : List (ℕ × Task)
  completed : List ℕ
  discarded : List ℕ

namespace ThreadPool

/-- `d4np_thread_pool_init` up to its spawn loop, with the answers of the mutex, the semaphore and
the allocator. -/
def init (threadCount : ℕ) (mutexOk semaphoreOk granted : Bool) : Except Status ThreadPool :=
  if threadCount = 0 then .error .errInvalidArgument
  else if threadCount > sizeMax / ptrSize then .error .errOverflow
  else if mutexOk = false then .error .errInternal
  else if semaphoreOk = false then .error .errInternal
  else if granted = false then .error .errOutOfMemory
  else .ok {
    threadCount := threadCount
    qHead := 0
    qTail := 0
    shuttingDown := false
    items := 0
    next := fun _ => 0
    task := fun _ => ⟨0, 0⟩
    submits := []
    workers := []
    control := .spawning
    accepted := []
    dequeued := []
    started := []
    completed := []
    discarded := [] }

/-- A round of the spawn loop; a failed spawn begins the rollback. -/
def spawn (p : ThreadPool) (ok : Bool) : Option ThreadPool :=
  match p.control with
  | .spawning =>
    if ok then
      some { p with
        workers := p.workers ++ [.waiting]
        control := if p.workers.length + 1 < p.threadCount then .spawning else .ready }
    else some { p with threadCount := p.workers.length, control := .closing true .lock }
  | _ => none

/-- The pool has been handed out by a successful init. -/
def handedOut (p : ThreadPool) : Bool :=
  match p.control with
  | .ready => true
  | .closing false _ => true
  | _ => false

/-- A call of `d4np_thread_pool_submit` up to its critical section; a null function is zero, and
`granted` is the allocator's answer. -/
def submit (p : ThreadPool) (task : Task) (granted : Bool) : Option ThreadPool :=
  if p.handedOut = false then none
  else if task.fn = 0 then
    some { p with submits := p.submits ++ [⟨task, .returned .errInvalidArgument⟩] }
  else if granted = false then
    some { p with submits := p.submits ++ [⟨task, .returned .errOutOfMemory⟩] }
  else
    let node := p.submits.length + 1
    some { p with
      next := Function.update p.next node 0
      task := Function.update p.task node task
      submits := p.submits ++ [⟨task, .entered⟩] }

/-- The node goes to the end of the queue. -/
def enqueue (p : ThreadPool) (node : ℕ) : ThreadPool :=
  if p.qTail ≠ 0 then { p with next := Function.update p.next p.qTail node, qTail := node }
  else { p with qHead := node, qTail := node }

/-- The critical section of `d4np_thread_pool_submit`. -/
def submitLock (p : ThreadPool) (i : ℕ) : Option ThreadPool :=
  match p.submits[i]? with
  | some ⟨task, .entered⟩ =>
    if p.shuttingDown then
      some { p with submits := p.submits.set i ⟨task, .returned .errUnsupported⟩ }
    else
      some { p.enqueue (i + 1) with
        submits := p.submits.set i ⟨task, .enqueued⟩
        accepted := p.accepted ++ [i + 1] }
  | _ => none

/-- The post of `d4np_thread_pool_submit`. -/
def submitPost (p : ThreadPool) (i : ℕ) : Option ThreadPool :=
  match p.submits[i]? with
  | some ⟨task, .enqueued⟩ =>
    some { p with items := p.items + 1, submits := p.submits.set i ⟨task, .returned .ok⟩ }
  | _ => none

/-- `d4np_semaphore_wait` of a worker. -/
def wait (p : ThreadPool) (w : ℕ) : Option ThreadPool :=
  match p.workers[w]? with
  | some .waiting =>
    if p.items = 0 then none
    else some { p with items := p.items - 1, workers := p.workers.set w .holding }
  | _ => none

/-- The critical section of a worker: it takes the first node, or exits if there is none. -/
def dequeue (p : ThreadPool) (w : ℕ) : Option ThreadPool :=
  match p.workers[w]? with
  | some .holding =>
    let node := p.qHead
    if node = 0 then some { p with workers := p.workers.set w .exited }
    else
      let qHead := p.next node
      some { p with
        qHead := qHead
        qTail := if qHead = 0 then 0 else p.qTail
        workers := p.workers.set w (.dequeued node)
        dequeued := p.dequeued ++ [node] }
  | _ => none

/-- A worker calls the function of its node. -/
def start (p : ThreadPool) (w : ℕ) : Option ThreadPool :=
  match p.workers[w]? with
  | some (.dequeued node) =>
    some { p with
      workers := p.workers.set w (.running node)
      started := p.started ++ [(node, p.task node)] }
  | _ => none

/-- The function returns and the worker frees the node. -/
def finish (p : ThreadPool) (w : ℕ) : Option ThreadPool :=
  match p.workers[w]? with
  | some (.running node) =>
    some { p with
      workers := p.workers.set w .waiting
      completed := p.completed ++ [node] }
  | _ => none

/-- The call of `d4np_thread_pool_destroy`. -/
def destroy (p : ThreadPool) : Option ThreadPool :=
  match p.control with
  | .ready => some { p with control := .closing false .lock }
  | _ => none

/-- The next step of a shutdown.  A join waits for its worker; the rollback has no drain loop. -/
def close (p : ThreadPool) : Option ThreadPool :=
  match p.control with
  | .closing rb .lock => some { p with shuttingDown := true, control := .closing rb (.post 0) }
  | .closing rb (.post made) =>
    if made < p.threadCount then
      some { p with items := p.items + 1, control := .closing rb (.post (made + 1)) }
    else some { p with control := .closing rb (.join 0) }
  | .closing rb (.join joined) =>
    if joined < p.threadCount then
      if p.workers[joined]? = some .exited then
        some { p with control := .closing rb (.join (joined + 1)) }
      else none
    else some { p with control := .closing rb (if rb then .freeThreads else .drain p.qHead) }
  | .closing rb (.drain node) =>
    if node ≠ 0 then
      some { p with discarded := p.discarded ++ [node], control := .closing rb (.drain (p.next node)) }
    else some { p with qHead := 0, qTail := 0, control := .closing rb .freeThreads }
  | .closing rb .freeThreads => some { p with control := .closing rb .destroySemaphore }
  | .closing rb .destroySemaphore => some { p with control := .closing rb .destroyMutex }
  | .closing rb .destroyMutex => some { p with control := .closing rb .done }
  | _ => none

/-- What can happen. -/
inductive Event
  | spawn (ok : Bool)
  | submit (task : Task) (granted : Bool)
  | submitLock (i : ℕ)
  | submitPost (i : ℕ)
  | wait (w : ℕ)
  | dequeue (w : ℕ)
  | start (w : ℕ)
  | finish (w : ℕ)
  | destroy
  | close

/-- One step of a run. -/
def step (p : ThreadPool) : Event → Option ThreadPool
  | .spawn ok => p.spawn ok
  | .submit task granted => p.submit task granted
  | .submitLock i => p.submitLock i
  | .submitPost i => p.submitPost i
  | .wait w => p.wait w
  | .dequeue w => p.dequeue w
  | .start w => p.start w
  | .finish w => p.finish w
  | .destroy => p.destroy
  | .close => p.close

/-- The runs of a pool with any number of workers. -/
def system : System ThreadPool Event where
  init p := ∃ threadCount mutexOk semaphoreOk granted,
    init threadCount mutexOk semaphoreOk granted = .ok p
  step := step

/-! ## Permits -/

/-- The workers between their wait and their critical section. -/
def held (p : ThreadPool) : ℕ := p.workers.count .holding

/-- The workers that have exited. -/
def exited (p : ThreadPool) : ℕ := p.workers.count .exited

/-- The accepted submits that have not posted yet. -/
def pendingPosts (p : ThreadPool) : ℕ := p.submits.countP fun s => s.state = .enqueued

/-- The posts a shutdown of `n` workers has made. -/
def Control.posts (n : ℕ) : Control → ℕ
  | .spawning => 0
  | .ready => 0
  | .closing _ .lock => 0
  | .closing _ (.post made) => made
  | .closing _ _ => n

/-- The shutdown posts made so far. -/
def shutdownPosts (p : ThreadPool) : ℕ := Control.posts p.threadCount p.control

/-- The joins of a shutdown of `n` workers are all made. -/
def Control.Joined (n : ℕ) : Control → Prop
  | .spawning => False
  | .ready => False
  | .closing _ .lock => False
  | .closing _ (.post _) => False
  | .closing _ (.join joined) => joined = n
  | .closing _ _ => True

end ThreadPool

end D4np
