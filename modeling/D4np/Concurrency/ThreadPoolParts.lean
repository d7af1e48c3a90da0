import D4np.Concurrency.ThreadPool
import D4np.Lib.Chain
import Mathlib.Data.List.Perm.Basic
import Mathlib.Tactic

/-!
# The parts of a thread pool

Four invariants, each over the parts of the pool it is about, with the steps that keep it: the links
behind `q_head` hold what was accepted and not yet taken out (`QueueOk`); what was taken out is with
a worker, running or completed (`WorkOk`); the node of a submit call holds its task (`TaskOk`); and
the owning thread knows how far its shutdown is (`ControlOk`).
-/

namespace D4np

open Links

namespace ThreadPool

/-! ## Replacing one entry of a list -/

/-- Replacing an entry, up to the order of the entries. -/
theorem exists_perm_set {α : Type*} {l : List α} {i : ℕ} {x : α} (h : l[i]? = some x) (y : α) :
    ∃ rest, l.Perm (x :: rest) ∧ (l.set i y).Perm (y :: rest) := by
  obtain ⟨hlt, rfl⟩ := List.getElem?_eq_some_iff.mp h
  exact ⟨l.eraseIdx i, (List.getElem_cons_eraseIdx_perm hlt).symm, List.set_perm_cons_eraseIdx hlt y⟩

/-- A number of workers after one of them has moved. -/
theorem count_set_worker {workers : List Worker} {w : ℕ} {x : Worker}
    (h : workers[w]? = some x) (y z : Worker) :
    (workers.set w y).count z + (if x = z then 1 else 0) =
      workers.count z + if y = z then 1 else 0 := by
  obtain ⟨rest, h1, h2⟩ := exists_perm_set h y
  rw [h1.count_eq, h2.count_eq, List.count_cons, List.count_cons]
  simp only [beq_iff_eq]
  omega

/-- The number of submits still to post, after one of them has moved. -/
theorem countP_set_submit {submits : List Submit} {i : ℕ} {x : Submit}
    (h : submits[i]? = some x) (y : Submit) :
    (submits.set i y).countP (fun s => s.state = .enqueued) +
        (if x.state = .enqueued then 1 else 0) =
      submits.countP (fun s => s.state = .enqueued) + if y.state = .enqueued then 1 else 0 := by
  obtain ⟨rest, h1, h2⟩ := exists_perm_set h y
  rw [h1.countP_eq, h2.countP_eq, List.countP_cons, List.countP_cons]
  simp only [decide_eq_true_eq]
  omega

/-- What an entry of a list was before one entry was replaced. -/
theorem getElem?_of_set {α : Type*} {l : List α} {i j : ℕ} {x y z : α} (hx : l[i]? = some x)
    (h : (l.set i y)[j]? = some z) : (j = i ∧ z = y) ∨ (j ≠ i ∧ l[j]? = some z) := by
  by_cases hij : j = i
  · subst hij
    have hlt := (List.getElem?_eq_some_iff.mp hx).1
    rw [List.getElem?_set_self hlt] at h
    exact Or.inl ⟨rfl, (Option.some_inj.mp h).symm⟩
  · rw [List.getElem?_set_ne (Ne.symm hij)] at h
    exact Or.inr ⟨hij, h⟩

/-- An entry of a list that got one more. -/
theorem getElem?_of_concat {α : Type*} {l : List α} {i : ℕ} {x z : α}
    (h : (l ++ [x])[i]? = some z) : (i < l.length ∧ l[i]? = some z) ∨ (i = l.length ∧ z = x) := by
  by_cases hlt : i < l.length
  · rw [List.getElem?_append_left hlt] at h
    exact Or.inl ⟨hlt, h⟩
  · have hle := (List.getElem?_eq_some_iff.mp h).1
    rw [List.length_append, List.length_singleton] at hle
    have hi : i = l.length := by omega
    subst hi
    rw [List.getElem?_concat_length] at h
    exact Or.inr ⟨rfl, (Option.some_inj.mp h).symm⟩

/-! ## The queue -/

/-- The submit was accepted. -/
def SubmitState.Accepted (s : SubmitState) : Prop := s = .enqueued ∨ s = .returned .ok

/-- The links behind `q_head` are the nodes accepted and not dequeued. -/
structure QueueOk (next : ℕ → ℕ) (qHead qTail : ℕ) (submits : List Submit)
    (accepted dequeued queue : List ℕ) : Prop where
  chain : Chain next qHead queue 0
  tail_eq : qTail = queue.getLast?.getD 0
  accepted_eq : accepted = dequeued ++ queue
  nodup : accepted.Nodup
  submitted : ∀ n ∈ accepted, ∃ i s, n = i + 1 ∧ submits[i]? = some s ∧ s.state.Accepted
  complete : ∀ i s, submits[i]? = some s → s.state.Accepted → i + 1 ∈ accepted
  entered : ∀ i s, submits[i]? = some s → s.state = .entered → next (i + 1) = 0

namespace QueueOk

variable {next : ℕ → ℕ} {qHead qTail : ℕ} {submits : List Submit} {accepted dequeued queue : List ℕ}

theorem ne_zero (h : QueueOk next qHead qTail submits accepted dequeued queue) {n : ℕ}
    (hn : n ∈ queue) : n ≠ 0 := by
  obtain ⟨i, s, rfl, _⟩ := h.submitted n (by rw [h.accepted_eq]; exact List.mem_append_right _ hn)
  exact Nat.succ_ne_zero i

/-- `q_head` is `NULL` exactly when the queue is empty. -/
theorem head_eq_zero_iff (h : QueueOk next qHead qTail submits accepted dequeued queue) :
    qHead = 0 ↔ queue = [] := by
  have hc := h.chain
  cases queue with
  | nil => exact ⟨fun _ => rfl, fun _ => hc⟩
  | cons x l =>
    refine ⟨fun h0 => ?_, fun h0 => by simp at h0⟩
    exact absurd (hc.1 ▸ h0) (h.ne_zero List.mem_cons_self)

theorem tail_eq_zero_iff (h : QueueOk next qHead qTail submits accepted dequeued queue) :
    qTail = 0 ↔ queue = [] := by
  rw [h.tail_eq]
  rcases List.eq_nil_or_concat queue with rfl | ⟨l, x, rfl⟩
  · simp
  · have hx : x ≠ 0 := h.ne_zero (by simp)
    simp [hx]

theorem tail_mem (h : QueueOk next qHead qTail submits accepted dequeued queue) (h0 : qTail ≠ 0) :
    qTail ∈ queue := by
  have ht := h.tail_eq
  rcases List.eq_nil_or_concat queue with rfl | ⟨l, x, rfl⟩
  · exact absurd ht h0
  · rw [List.concat_eq_append, List.getLast?_concat] at ht
    rw [ht]
    simp

/-- A submit that has not reached its critical section has a node outside the queue. -/
theorem fresh (h : QueueOk next qHead qTail submits accepted dequeued queue) {i : ℕ} {s : Submit}
    (hi : submits[i]? = some s) (hs : ¬ s.state.Accepted) : i + 1 ∉ accepted := by
  intro hm
  obtain ⟨j, s', hj, hs', hacc⟩ := h.submitted _ hm
  have hij : j = i := by omega
  subst hij
  rw [hi] at hs'
  cases hs'
  exact hs hacc

/-- An accepted submit is still one after a submit has moved on. -/
theorem submitted_set (h : QueueOk next qHead qTail submits accepted dequeued queue) {i : ℕ}
    {x y : Submit} (hi : submits[i]? = some x) (hacc : x.state.Accepted → y.state.Accepted) :
    ∀ n ∈ accepted, ∃ j s, n = j + 1 ∧ (submits.set i y)[j]? = some s ∧ s.state.Accepted := by
  intro n hn
  obtain ⟨j, s, rfl, hs, ha⟩ := h.submitted n hn
  by_cases hij : j = i
  · subst hij
    rw [hi] at hs
    cases hs
    exact ⟨j, y, rfl, List.getElem?_set_self (List.getElem?_eq_some_iff.mp hi).1, hacc ha⟩
  · exact ⟨j, s, rfl, by rw [List.getElem?_set_ne (Ne.symm hij)]; exact hs, ha⟩

/-- A submit that moves without being accepted or ceasing to be. -/
theorem set_submit (h : QueueOk next qHead qTail submits accepted dequeued queue) {i : ℕ}
    {x y : Submit} (hi : submits[i]? = some x) (hacc : x.state.Accepted ↔ y.state.Accepted)
    (hy : y.state ≠ .entered) :
    QueueOk next qHead qTail (submits.set i y) accepted dequeued queue where
  chain := h.chain
  tail_eq := h.tail_eq
  accepted_eq := h.accepted_eq
  nodup := h.nodup
  submitted := h.submitted_set hi hacc.mp
  complete := by
    intro j s hj hs
    rcases getElem?_of_set hi hj with ⟨rfl, rfl⟩ | ⟨_, hj⟩
    · exact h.complete j x hi (hacc.mpr hs)
    · exact h.complete j s hj hs
  entered := by
    intro j s hj hs
    rcases getElem?_of_set hi hj with ⟨_, rfl⟩ | ⟨_, hj⟩
    · exact absurd hs hy
    · exact h.entered j s hj hs

/-- A new submit call; its node, if it has one, is new. -/
theorem submit (h : QueueOk next qHead qTail submits accepted dequeued queue) (x : Submit)
    {next' : ℕ → ℕ} (hn : ∀ y, y ≠ submits.length + 1 → next' y = next y)
    (hx : x.state = .entered → next' (submits.length + 1) = 0) (hacc : ¬ x.state.Accepted) :
    QueueOk next' qHead qTail (submits ++ [x]) accepted dequeued queue where
  chain := by
    refine h.chain.congr fun y hy => (hn y ?_).symm
    obtain ⟨i, s, hi, hs, _⟩ := h.submitted y
      (by rw [h.accepted_eq]; exact List.mem_append_right _ hy)
    have := (List.getElem?_eq_some_iff.mp hs).1
    omega
  tail_eq := h.tail_eq
  accepted_eq := h.accepted_eq
  nodup := h.nodup
  submitted := by
    intro n hn
    obtain ⟨i, s, hi, hs, ha⟩ := h.submitted n hn
    exact ⟨i, s, hi, by rw [List.getElem?_append_left (List.getElem?_eq_some_iff.mp hs).1, hs], ha⟩
  complete := by
    intro i s hi hs
    rcases getElem?_of_concat hi with ⟨_, hi⟩ | ⟨_, rfl⟩
    · exact h.complete i s hi hs
    · exact absurd hs hacc
  entered := by
    intro i s hi hs
    rcases getElem?_of_concat hi with ⟨hlt, hi⟩ | ⟨rfl, rfl⟩
    · rw [hn _ (by omega)]
      exact h.entered i s hi hs
    · exact hx hs

/-- A submit enters its node at the end of the queue, once the links have been redirected. -/
theorem enqueue (h : QueueOk next qHead qTail submits accepted dequeued queue) {i : ℕ} {task : Task}
    (hi : submits[i]? = some ⟨task, .entered⟩) {next' : ℕ → ℕ} {qHead' : ℕ}
    (hc : Chain next' qHead' (queue ++ [i + 1]) 0) (hn : ∀ x, x ∉ queue → next' x = next x) :
    QueueOk next' qHead' (i + 1) (submits.set i ⟨task, .enqueued⟩) (accepted ++ [i + 1]) dequeued
      (queue ++ [i + 1]) := by
  have hfresh := h.fresh hi (by simp [SubmitState.Accepted])
  refine ⟨hc, ?_, ?_, ?_, ?_, ?_, ?_⟩
  · rw [List.getLast?_concat]
    rfl
  · rw [h.accepted_eq, List.append_assoc]
  · refine List.nodup_append.mpr ⟨h.nodup, List.nodup_singleton _, ?_⟩
    intro a ha b hb hab
    rw [List.mem_singleton] at hb
    exact hfresh (hb ▸ hab ▸ ha)
  · intro n hn
    rcases List.mem_append.mp hn with hn | hn
    · exact h.submitted_set hi (fun _ => Or.inl rfl) n hn
    · rw [List.mem_singleton] at hn
      exact ⟨i, ⟨task, .enqueued⟩, hn, List.getElem?_set_self (List.getElem?_eq_some_iff.mp hi).1,
        Or.inl rfl⟩
  · intro j s hj hs
    rcases getElem?_of_set hi hj with ⟨rfl, _⟩ | ⟨_, hj⟩
    · exact List.mem_append_right _ (List.mem_singleton.mpr rfl)
    · exact List.mem_append_left _ (h.complete j s hj hs)
  · intro j s hj hs
    rcases getElem?_of_set hi hj with ⟨_, rfl⟩ | ⟨_, hj⟩
    · simp at hs
    · rw [hn]
      · exact h.entered j s hj hs
      · intro hm
        refine h.fresh hj (by rw [hs]; simp [SubmitState.Accepted]) ?_
        rw [h.accepted_eq]
        exact List.mem_append_right _ hm

/-- The chain of an empty queue that gets its first node. -/
theorem chain_first (h : QueueOk next qHead qTail submits accepted dequeued queue) {i : ℕ}
    {task : Task} (hi : submits[i]? = some ⟨task, .entered⟩) (h0 : qTail = 0) :
    Chain next (i + 1) (queue ++ [i + 1]) 0 := by
  rw [h.tail_eq_zero_iff.mp h0]
  exact ⟨rfl, h.entered i _ hi rfl⟩

/-- The chain of a queue that gets a node behind its last one. -/
theorem chain_append (h : QueueOk next qHead qTail submits accepted dequeued queue) {i : ℕ}
    {task : Task} (hi : submits[i]? = some ⟨task, .entered⟩) (h0 : qTail ≠ 0) :
    Chain (Function.update next qTail (i + 1)) qHead (queue ++ [i + 1]) 0 := by
  rcases List.eq_nil_or_concat queue with hnil | ⟨l, x, hl⟩
  · exact absurd (h.tail_eq_zero_iff.mpr hnil) h0
  · have hx : qTail = x := by
      rw [h.tail_eq, hl, List.concat_eq_append, List.getLast?_concat]
      rfl
    have hnd := h.nodup
    have hfresh := h.fresh hi (by simp [SubmitState.Accepted])
    have hc := h.chain
    rw [h.accepted_eq] at hnd hfresh
    have hnd' := (List.nodup_append.mp hnd).2.1
    have hfresh' : i + 1 ∉ queue := fun hm => hfresh (List.mem_append_right _ hm)
    rw [hl, List.concat_eq_append] at hc hnd' hfresh' ⊢
    rw [hx, ← h.entered i _ hi rfl]
    exact hc.concat_update hnd' hfresh'

/-- A worker takes out the first node. -/
theorem dequeue (h : QueueOk next qHead qTail submits accepted dequeued queue) (h0 : qHead ≠ 0) :
    ∃ l, queue = qHead :: l ∧ QueueOk next (next qHead) (if next qHead = 0 then 0 else qTail) submits
      accepted (dequeued ++ [qHead]) l := by
  cases queue with
  | nil => exact absurd (h.head_eq_zero_iff.mpr rfl) h0
  | cons x l =>
    obtain ⟨rfl, hc⟩ := h.chain
    refine ⟨l, rfl, hc, ?_, ?_, h.nodup, h.submitted, h.complete, h.entered⟩
    · cases l with
      | nil =>
        rw [if_pos (show next qHead = 0 from hc)]
        rfl
      | cons y l =>
        have hy : y ≠ 0 := h.ne_zero (by simp)
        rw [if_neg (by rw [hc.1]; exact hy), h.tail_eq, List.getLast?_cons_cons]
    · rw [h.accepted_eq, List.append_assoc]
      rfl

end QueueOk

/-! ## The work -/

/-- The node a worker has taken out and not started. -/
def Worker.dequeuedNode : Worker → Option ℕ
  | .dequeued n => some n
  | _ => none

/-- The node a worker is running. -/
def Worker.runningNode : Worker → Option ℕ
  | .running n => some n
  | _ => none

/-- What left the queue is started or with a worker, and what is started is completed or with a
worker. -/
structure WorkOk (workers : List Worker) (dequeued : List ℕ) (started : List (ℕ × Task))
    (completed : List ℕ) : Prop where
  taken : (started.map Prod.fst ++ workers.filterMap Worker.dequeuedNode).Perm dequeued
  begun : (completed ++ workers.filterMap Worker.runningNode).Perm (started.map Prod.fst)

namespace WorkOk

variable {workers : List Worker} {dequeued : List ℕ} {started : List (ℕ × Task)}
  {completed : List ℕ} {w : ℕ}

/-- The nodes the workers have, after one of them has moved. -/
theorem filterMap_set {x y : Worker} (hw : workers[w]? = some x) (f : Worker → Option ℕ) :
    ∃ rest, (workers.filterMap f).Perm ((f x).toList ++ rest) ∧
      ((workers.set w y).filterMap f).Perm ((f y).toList ++ rest) := by
  obtain ⟨l, h1, h2⟩ := exists_perm_set hw y
  refine ⟨l.filterMap f, (h1.filterMap f).trans ?_, (h2.filterMap f).trans ?_⟩
  · rw [List.filterMap_cons]
    cases f x <;> rfl
  · rw [List.filterMap_cons]
    cases f y <;> rfl

/-- A move between states without a node. -/
theorem move (h : WorkOk workers dequeued started completed) {x y : Worker}
    (hw : workers[w]? = some x) (hd : y.dequeuedNode = x.dequeuedNode)
    (hr : y.runningNode = x.runningNode) : WorkOk (workers.set w y) dequeued started completed := by
  obtain ⟨rd, hd1, hd2⟩ := filterMap_set (y := y) hw Worker.dequeuedNode
  obtain ⟨rr, hr1, hr2⟩ := filterMap_set (y := y) hw Worker.runningNode
  rw [hd] at hd2
  rw [hr] at hr2
  exact ⟨((hd2.trans hd1.symm).append_left _).trans h.taken,
    ((hr2.trans hr1.symm).append_left _).trans h.begun⟩

theorem dequeue (h : WorkOk workers dequeued started completed)
    (hw : workers[w]? = some .holding) (n : ℕ) :
    WorkOk (workers.set w (.dequeued n)) (dequeued ++ [n]) started completed := by
  obtain ⟨rd, hd1, hd2⟩ := filterMap_set (y := .dequeued n) hw Worker.dequeuedNode
  obtain ⟨rr, hr1, hr2⟩ := filterMap_set (y := .dequeued n) hw Worker.runningNode
  refine ⟨?_, ((hr2.trans hr1.symm).append_left _).trans h.begun⟩
  refine (hd2.append_left _).trans (List.perm_middle.trans ?_)
  exact (((hd1.symm.append_left _).trans h.taken).cons n).trans
    (List.perm_append_singleton n dequeued).symm

theorem start (h : WorkOk workers dequeued started completed) {n : ℕ}
    (hw : workers[w]? = some (.dequeued n)) (task : Task) :
    WorkOk (workers.set w (.running n)) dequeued (started ++ [(n, task)]) completed := by
  obtain ⟨rd, hd1, hd2⟩ := filterMap_set (y := .running n) hw Worker.dequeuedNode
  obtain ⟨rr, hr1, hr2⟩ := filterMap_set (y := .running n) hw Worker.runningNode
  constructor
  · rw [List.map_append, List.map_singleton, List.append_assoc]
    exact ((hd1.trans (hd2.symm.cons n)).symm.append_left _).trans h.taken
  · rw [List.map_append, List.map_singleton]
    refine (hr2.append_left _).trans (List.perm_middle.trans ?_)
    exact (((hr1.symm.append_left _).trans h.begun).cons n).trans
      (List.perm_append_singleton n _).symm

theorem finish (h : WorkOk workers dequeued started completed) {n : ℕ}
    (hw : workers[w]? = some (.running n)) :
    WorkOk (workers.set w .waiting) dequeued started (completed ++ [n]) := by
  obtain ⟨rd, hd1, hd2⟩ := filterMap_set (y := .waiting) hw Worker.dequeuedNode
  obtain ⟨rr, hr1, hr2⟩ := filterMap_set (y := .waiting) hw Worker.runningNode
  constructor
  · exact ((hd2.trans hd1.symm).append_left _).trans h.taken
  · rw [List.append_assoc]
    exact ((hr1.trans (hr2.symm.cons n)).symm.append_left _).trans h.begun

theorem spawn (h : WorkOk workers dequeued started completed) :
    WorkOk (workers ++ [.waiting]) dequeued started completed := by
  constructor
  · rw [List.filterMap_append, show [Worker.waiting].filterMap Worker.dequeuedNode = [] from rfl,
      List.append_nil]
    exact h.taken
  · rw [List.filterMap_append, show [Worker.waiting].filterMap Worker.runningNode = [] from rfl,
      List.append_nil]
    exact h.begun

/-- When no worker has a node, everything that left the queue is completed. -/
theorem completed_perm (h : WorkOk workers dequeued started completed)
    (hw : ∀ x ∈ workers, x = .exited) : completed.Perm dequeued := by
  have hd : workers.filterMap Worker.dequeuedNode = [] := by
    rw [List.filterMap_eq_nil_iff]
    intro x hx
    rw [hw x hx]
    rfl
  have hr : workers.filterMap Worker.runningNode = [] := by
    rw [List.filterMap_eq_nil_iff]
    intro x hx
    rw [hw x hx]
    rfl
  have h1 := h.taken
  have h2 := h.begun
  rw [hd, List.append_nil] at h1
  rw [hr, List.append_nil] at h2
  exact h2.trans h1

end WorkOk

/-! ## The tasks -/

/-- The node of a submit that has one holds its task, and what is started is the task of an accepted
submit. -/
structure TaskOk (task : ℕ → Task) (submits : List Submit) (started : List (ℕ × Task)) : Prop where
  node : ∀ i s, submits[i]? = some s → s.state = .entered ∨ s.state.Accepted →
    task (i + 1) = s.task
  ran : ∀ x ∈ started, ∃ i s, x.1 = i + 1 ∧ submits[i]? = some s ∧ s.task = x.2

namespace TaskOk

variable {task : ℕ → Task} {submits : List Submit} {started : List (ℕ × Task)}

theorem set_submit (h : TaskOk task submits started) {i : ℕ} {t : Task} {st st' : SubmitState}
    (hi : submits[i]? = some ⟨t, st⟩)
    (hst : st' = .entered ∨ st'.Accepted → st = .entered ∨ st.Accepted) :
    TaskOk task (submits.set i ⟨t, st'⟩) started where
  node := by
    intro j s hj hs
    rcases getElem?_of_set hi hj with ⟨rfl, rfl⟩ | ⟨_, hj⟩
    · exact h.node j ⟨t, st⟩ hi (hst hs)
    · exact h.node j s hj hs
  ran := by
    intro x hx
    obtain ⟨j, s, hj, hs, ht⟩ := h.ran x hx
    by_cases hij : j = i
    · subst hij
      rw [hi] at hs
      cases hs
      exact ⟨j, ⟨t, st'⟩, hj, List.getElem?_set_self (List.getElem?_eq_some_iff.mp hi).1, ht⟩
    · exact ⟨j, s, hj, by rw [List.getElem?_set_ne (Ne.symm hij)]; exact hs, ht⟩

theorem submit (h : TaskOk task submits started) (x : Submit) {task' : ℕ → Task}
    (ht : ∀ y, y ≠ submits.length + 1 → task' y = task y)
    (hx : x.state = .entered ∨ x.state.Accepted → task' (submits.length + 1) = x.task) :
    TaskOk task' (submits ++ [x]) started where
  node := by
    intro i s hi hs
    rcases getElem?_of_concat hi with ⟨hlt, hi⟩ | ⟨rfl, rfl⟩
    · rw [ht _ (by omega)]
      exact h.node i s hi hs
    · exact hx hs
  ran := by
    intro y hy
    obtain ⟨i, s, hi, hs, ht⟩ := h.ran y hy
    exact ⟨i, s, hi, by rw [List.getElem?_append_left (List.getElem?_eq_some_iff.mp hs).1, hs], ht⟩

end TaskOk

/-! ## The shutdown -/

/-- What holds in each phase of a shutdown of `n` workers. -/
def PhaseOk (n : ℕ) (shuttingDown : Bool) (workers : List Worker) : Phase → Prop
  | .lock => shuttingDown = false
  | .post made => shuttingDown = true ∧ made ≤ n
  | .join joined => shuttingDown = true ∧ joined ≤ n ∧ ∀ w < joined, workers[w]? = some .exited
  | .drain node => shuttingDown = true ∧ node = 0 ∧ ∀ w < n, workers[w]? = some .exited
  | _ => shuttingDown = true ∧ ∀ w < n, workers[w]? = some .exited

/-- What holds of the pool and its workers wherever the owning thread is. -/
def ControlOk (n : ℕ) (shuttingDown : Bool) (workers : List Worker) (submits : List Submit) :
    Control → Prop
  | .spawning => shuttingDown = false ∧ workers.length < n ∧ submits = []
  | .ready => shuttingDown = false ∧ workers.length = n ∧ 0 < n
  | .closing rollback phase => workers.length = n ∧ (if rollback then submits = [] else 0 < n) ∧
    PhaseOk n shuttingDown workers phase

section Control

variable {n : ℕ} {shuttingDown : Bool} {workers : List Worker} {submits : List Submit}
  {control : Control} {w : ℕ}

theorem PhaseOk.set_worker {phase : Phase} (h : PhaseOk n shuttingDown workers phase) {x : Worker}
    (hw : workers[w]? = some x) (hx : x ≠ .exited) (y : Worker) :
    PhaseOk n shuttingDown (workers.set w y) phase := by
  -- a worker that moves is not one of those that have exited
  have hkeep : ∀ j : ℕ, workers[j]? = some Worker.exited →
      (workers.set w y)[j]? = some Worker.exited := by
    intro j hj
    rw [List.getElem?_set_ne]
    · exact hj
    · rintro rfl
      rw [hw] at hj
      cases hj
      exact hx rfl
  cases phase with
  | lock => exact h
  | post made => exact h
  | join joined => exact ⟨h.1, h.2.1, fun j hj => hkeep j (h.2.2 j hj)⟩
  | drain node => exact ⟨h.1, h.2.1, fun j hj => hkeep j (h.2.2 j hj)⟩
  | freeThreads => exact ⟨h.1, fun j hj => hkeep j (h.2 j hj)⟩
  | destroySemaphore => exact ⟨h.1, fun j hj => hkeep j (h.2 j hj)⟩
  | destroyMutex => exact ⟨h.1, fun j hj => hkeep j (h.2 j hj)⟩
  | done => exact ⟨h.1, fun j hj => hkeep j (h.2 j hj)⟩

theorem ControlOk.set_worker (h : ControlOk n shuttingDown workers submits control) {x : Worker}
    (hw : workers[w]? = some x) (hx : x ≠ .exited) (y : Worker) :
    ControlOk n shuttingDown (workers.set w y) submits control := by
  have hlen : (workers.set w y).length = workers.length := List.length_set
  cases control with
  | spawning => exact ⟨h.1, by rw [hlen]; exact h.2.1, h.2.2⟩
  | ready => exact ⟨h.1, by rw [hlen]; exact h.2.1, h.2.2⟩
  | closing rollback phase =>
    exact ⟨by rw [hlen]; exact h.1, h.2.1, h.2.2.set_worker hw hx y⟩

/-- Once there has been a submit call, there may be more. -/
theorem ControlOk.set_submits (h : ControlOk n shuttingDown workers submits control)
    (hne : submits ≠ []) (submits' : List Submit) :
    ControlOk n shuttingDown workers submits' control := by
  cases control with
  | spawning => exact absurd h.2.2 hne
  | ready => exact h
  | closing rollback phase =>
    cases rollback with
    | false => exact h
    | true => exact absurd h.2.1 hne

/-- Before the shutdown has begun there are no shutdown posts. -/
theorem ControlOk.posts_eq_zero (h : ControlOk n shuttingDown workers submits control)
    (hd : shuttingDown = false) : control.posts n = 0 := by
  subst hd
  cases control with
  | spawning => rfl
  | ready => rfl
  | closing rollback phase =>
    cases phase with
    | lock => rfl
    | _ => simp [ControlOk, PhaseOk] at h

/-- When all joins are made, all workers have exited. -/
theorem ControlOk.all_exited (h : ControlOk n shuttingDown workers submits control)
    (hj : control.Joined n) : ∀ x ∈ workers, x = .exited := by
  obtain ⟨hlen, hall⟩ : workers.length = n ∧ ∀ w < n, workers[w]? = some .exited := by
    cases control with
    | spawning => exact absurd hj id
    | ready => exact absurd hj id
    | closing rollback phase =>
      refine ⟨h.1, ?_⟩
      cases phase with
      | lock => exact absurd hj id
      | post made => exact absurd hj id
      | join joined =>
        have hn : joined = n := hj
        exact hn ▸ h.2.2.2.2
      | drain node => exact h.2.2.2.2
      | freeThreads => exact h.2.2.2
      | destroySemaphore => exact h.2.2.2
      | destroyMutex => exact h.2.2.2
      | done => exact h.2.2.2
  intro x hx
  obtain ⟨w, hw, rfl⟩ := List.getElem_of_mem hx
  have := hall w (by omega)
  rw [List.getElem?_eq_getElem hw] at this
  exact Option.some_inj.mp this

end Control

end ThreadPool

end D4np
