import D4np.Core.Allocator
import D4np.Lib.PosixSem
import D4np.Lib.TransitionSystem
import Mathlib.Tactic

/-!
# The named semaphore

Handles in any number of processes, each of which holds the semaphore `sem_open` gave it, and the
semaphores of the system behind them.  The calls of all threads interleave; a wait is a loop around
`sem_wait`, which blocks, takes a permit, or is interrupted and goes round again.  A name is passed
on with a slash before it and is not checked for slashes of its own, with which it may stand for the
semaphore of another name; the runs are those whose names have none, as the header asks.
-/

namespace D4np

open PosixSem TransitionSystem

namespace NamedSemaphore

/-- The bytes of a C string before its terminator. -/
def key (name : List UInt8) : List UInt8 := name.takeWhile (· ≠ 0)

/-- `d4np_nsem_name`, for a buffer of `bufsz` bytes: `snprintf` gives the length of the whole name,
and what it wrote is the name if that was shorter than the buffer. -/
def nsemName (bufsz : ℕ) (name : List UInt8) : Option (List UInt8) :=
  let path := 47 :: key name
  if path.length > 0 ∧ path.length < bufsz then some path else none

/-- `d4np_named_semaphore_open`: the status, the semaphore the handle gets, and the system after
it.  The platform may refuse to open any name. -/
def openSem (k : Kernel) (s : Option ℕ) (name : Option (List UInt8)) (initialCount : ℕ)
    (granted : Bool) : Status × Option ℕ × Kernel :=
  match s, name with
  | some _, some name =>
    if key name = [] ∨ initialCount > semValueMax then (.errInvalidArgument, none, k)
    else
      match nsemName 32 name with
      | none => (.errInvalidArgument, none, k)
      | some path =>
        if granted then
          match k.semOpen path initialCount with
          | .error _ => (.errInternal, none, k)
          | .ok (sem, k) => (.ok, some sem, k)
        else (.errInternal, none, k)
  | _, _ => (.errInvalidArgument, none, k)

/-- `d4np_named_semaphore_unlink`. -/
def unlink (k : Kernel) (name : Option (List UInt8)) (granted : Bool) : Status × Kernel :=
  match name with
  | none => (.errInvalidArgument, k)
  | some name =>
    if key name = [] then (.errInvalidArgument, k)
    else
      match nsemName 32 name with
      | none => (.errInvalidArgument, k)
      | some path =>
        if granted then
          match k.semUnlink path with
          | .error .enoent => (.ok, k)
          | .error _ => (.errInternal, k)
          | .ok k => (.ok, k)
        else (.errInternal, k)

/-- One round of the loop of `d4np_named_semaphore_wait`: whether it goes round again, and the
system after it; `none` while `sem_wait` blocks. -/
def waitRound (k : Kernel) (i : ℕ) (interrupted : Bool) : Option (Bool × Kernel) :=
  match k.semWait i interrupted with
  | none => none
  | some (.ok k) => some (false, k)
  | some (.error e) => some (decide (e = .eintr), k)

/-- One round of the loop of `d4np_named_semaphore_trywait`: what it returns, unless it goes round
again. -/
def trywaitRound (k : Kernel) (i : ℕ) (interrupted : Bool) : Option Bool × Kernel :=
  match k.semTrywait i interrupted with
  | .ok k => (some true, k)
  | .error e => (if e = .eintr then none else some false, k)

/-- `d4np_named_semaphore_post`; that the counter is at its maximum is not reported. -/
def post (k : Kernel) (i : ℕ) : Kernel :=
  match k.semPost i with
  | .ok k => k
  | .error _ => k

/-- **A wait returns only with a permit.** A round blocks if there is none, goes round again if it
is interrupted, and otherwise takes one. -/
theorem waitRound_eq (k : Kernel) (i : ℕ) (interrupted : Bool) :
    waitRound k i interrupted =
      if interrupted then some (true, k)
      else if k.value i = 0 then none
      else some (false, k.setValue i (k.value i - 1)) := by
  unfold waitRound Kernel.semWait
  split_ifs <;> rfl

theorem trywaitRound_eq (k : Kernel) (i : ℕ) (interrupted : Bool) :
    trywaitRound k i interrupted =
      if interrupted then (none, k)
      else if k.value i = 0 then (some false, k)
      else (some true, k.setValue i (k.value i - 1)) := by
  unfold trywaitRound Kernel.semTrywait
  split_ifs <;> rfl

/-- A post that finds the counter at its maximum leaves it there. -/
theorem post_eq {k : Kernel} {i : ℕ} (hv : k.value i ≤ semValueMax) :
    post k i = k.setValue i (min (k.value i + 1) semValueMax) := by
  unfold post Kernel.semPost
  split_ifs with hmax
  · have hmin : min (k.value i + 1) semValueMax = k.value i := by omega
    rw [hmin, Kernel.setValue_self]
  · have hmin : min (k.value i + 1) semValueMax = k.value i + 1 := by omega
    rw [hmin]

/-- The name of a semaphore, where the key is not too long. -/
theorem nsemName_eq {bufsz : ℕ} {name path : List UInt8} (h : nsemName bufsz name = some path) :
    path = 47 :: key name := by
  unfold nsemName at h
  simp only at h
  split_ifs at h
  exact (Option.some.inj h).symm

/-- A bare key: one without a slash, as those of letters, digits and underscores are. -/
def Bare (name : List UInt8) : Prop := 47 ∉ key name

instance (name : List UInt8) : Decidable (Bare name) := inferInstanceAs (Decidable (47 ∉ _))

/-- What an opening does: it fails and changes nothing, or it opens the name of the key. -/
theorem openSem_cases (k : Kernel) (s : Option ℕ) (name : Option (List UInt8)) (c : ℕ)
    (granted : Bool) (hbare : ∀ name' ∈ name, Bare name') :
    (∃ rc, rc ≠ .ok ∧ openSem k s name c granted = (rc, none, k)) ∨
    ∃ s' name', s = some s' ∧ name = some name' ∧ c ≤ semValueMax ∧
      openSem k s name c granted =
        (.ok, some (k.attach (key name') c).1, (k.attach (key name') c).2) := by
  rcases s with _ | s
  · exact Or.inl ⟨_, by decide, rfl⟩
  rcases name with _ | name
  · exact Or.inl ⟨_, by decide, rfl⟩
  simp only [openSem]
  by_cases hbad : key name = [] ∨ c > semValueMax
  · rw [if_pos hbad]
    exact Or.inl ⟨_, by decide, rfl⟩
  rw [if_neg hbad]
  rcases hpath : nsemName 32 name with _ | path
  · exact Or.inl ⟨_, by decide, rfl⟩
  · obtain rfl := nsemName_eq hpath
    cases granted with
    | false => exact Or.inl ⟨_, by decide, rfl⟩
    | true =>
      refine Or.inr ⟨s, name, rfl, rfl, by omega, ?_⟩
      simp only [if_true, Kernel.semOpen,
        objectName_slash (fun h => hbad (Or.inl h)) (hbare name rfl)]

/-- What an unlinking does: it fails and changes nothing, or the name of the key leads nowhere. -/
theorem unlink_cases (k : Kernel) (name : Option (List UInt8)) (granted : Bool)
    (hbare : ∀ name' ∈ name, Bare name') :
    (∃ rc, rc ≠ .ok ∧ unlink k name granted = (rc, k)) ∨
    ∃ name', name = some name' ∧ unlink k name granted =
      (.ok, { k with names := Function.update k.names (key name') none }) := by
  rcases name with _ | name
  · exact Or.inl ⟨_, by decide, rfl⟩
  simp only [unlink]
  by_cases hbad : key name = []
  · rw [if_pos hbad]
    exact Or.inl ⟨_, by decide, rfl⟩
  rw [if_neg hbad]
  rcases hpath : nsemName 32 name with _ | path
  · exact Or.inl ⟨_, by decide, rfl⟩
  · obtain rfl := nsemName_eq hpath
    cases granted with
    | false => exact Or.inl ⟨_, by decide, rfl⟩
    | true =>
      refine Or.inr ⟨name, rfl, ?_⟩
      simp only [if_true, Kernel.semUnlink, objectName_slash hbad (hbare name rfl)]
      rcases hn : k.names (key name) with _ | i
      · -- no such name: nothing to take away
        simp only
        rw [← hn, Function.update_eq_self]
      · rfl

/-! ## Runs -/

/-- A call; a null handle or name is `none`.  `d4np_named_semaphore_wait` and
`d4np_named_semaphore_post` assert that there is a handle. -/
inductive Call
  | openSem (s : Option ℕ) (name : Option (List UInt8)) (initialCount : ℕ)
  | close (s : Option ℕ)
  | unlink (name : Option (List UInt8))
  | wait (s : ℕ)
  | trywait (s : Option ℕ)
  | post (s : ℕ)

/-- The name a call is made with. -/
def Call.name : Call → Option (List UInt8)
  | .openSem _ name _ | .unlink name => name
  | _ => none

/-- What a call returns. -/
inductive Outcome
  | status (rc : Status)
  | bool (b : Bool)
  | done

/-- Where a thread is. -/
inductive Pc
  | idle
  | wait (s : ℕ)
  | trywait (s : ℕ)
  deriving DecidableEq

/-- The thread is inside a call on the handle. -/
def Pc.uses : Pc → ℕ → Bool
  | .idle, _ => false
  | .wait s, s' => decide (s = s')
  | .trywait s, s' => decide (s = s')

/-- A step: a thread makes a call, with what the platform decides about it, or goes through one
round of the loop it is in. -/
inductive Event (n : ℕ)
  | call (t : Fin n) (c : Call) (granted : Bool)
  | round (t : Fin n) (interrupted : Bool)

/-- The system, the semaphore each open handle holds, where each of the `n` threads is, and the
calls that have returned, newest first. -/
structure Run (n : ℕ) where
  kernel : Kernel
  sem : ℕ → Option ℕ
  pc : Fin n → Pc
  history : List (Call × Outcome)

namespace Run

variable {n : ℕ}

/-- A call returns. -/
def returns (r : Run n) (c : Call) (o : Outcome) : Run n :=
  { r with history := (c, o) :: r.history }

/-- No thread is inside a call on the handle. -/
def Unused (r : Run n) (s : ℕ) : Prop := ∀ t, (r.pc t).uses s = false

instance (r : Run n) (s : ℕ) : Decidable (r.Unused s) :=
  inferInstanceAs (Decidable (∀ _, _))

/-- An idle thread makes a call.  A handle is closed, and opened again, only when no thread is
inside a call on it, and the other calls are made on an open handle. -/
def call (r : Run n) (t : Fin n) (granted : Bool) : Call → Option (Run n)
  | .openSem s name initialCount =>
    let (rc, sem, k) := openSem r.kernel s name initialCount granted
    let r := r.returns (.openSem s name initialCount) (.status rc)
    match s, sem with
    | some s, some i =>
      if r.Unused s then some { r with kernel := k, sem := Function.update r.sem s (some i) }
      else none
    | _, _ => some { r with kernel := k }
  | .close none => some (r.returns (.close none) .done)
  | .close (some s) =>
    if r.Unused s ∧ r.sem s ≠ none then
      some { r.returns (.close (some s)) .done with sem := Function.update r.sem s none }
    else none
  | .unlink name =>
    let (rc, k) := unlink r.kernel name granted
    some { r.returns (.unlink name) (.status rc) with kernel := k }
  | .wait s =>
    if r.sem s ≠ none then some { r with pc := Function.update r.pc t (.wait s) } else none
  | .trywait none => some (r.returns (.trywait none) (.bool false))
  | .trywait (some s) =>
    if r.sem s ≠ none then some { r with pc := Function.update r.pc t (.trywait s) } else none
  | .post s =>
    match r.sem s with
    | none => none
    | some i => some { r.returns (.post s) .done with kernel := post r.kernel i }

/-- A thread inside a loop goes through one round of it. -/
def round (r : Run n) (t : Fin n) (interrupted : Bool) : Option (Run n) :=
  match r.pc t with
  | .idle => none
  | .wait s =>
    match r.sem s with
    | none => none
    | some i =>
      match waitRound r.kernel i interrupted with
      | none => none
      | some (true, k) => some { r with kernel := k }
      | some (false, k) =>
        some { r.returns (.wait s) .done with kernel := k, pc := Function.update r.pc t .idle }
  | .trywait s =>
    match r.sem s with
    | none => none
    | some i =>
      match trywaitRound r.kernel i interrupted with
      | (none, k) => some { r with kernel := k }
      | (some b, k) =>
        some { r.returns (.trywait (some s)) (.bool b) with
          kernel := k, pc := Function.update r.pc t .idle }

end Run

/-- The runs of `n` threads that use bare keys, from a system in which no name leads anywhere and no
handle is open. -/
def system (n : ℕ) : System (Run n) (Event n) where
  init r := r = ⟨⟨fun _ => none, []⟩, fun _ => none, fun _ => .idle, []⟩
  step r
    | .call t c granted =>
      if r.pc t = .idle ∧ ∀ name ∈ c.name, Bare name then r.call t granted c else none
    | .round t interrupted => r.round t interrupted

end NamedSemaphore

end D4np
