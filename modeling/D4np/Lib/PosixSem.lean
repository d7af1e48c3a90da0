import Mathlib.Data.List.GetD
import Mathlib.Logic.Function.Basic

/-!
# Named POSIX semaphores

The semaphores of one system, which all its processes share: each is a counter of at most
`semValueMax`, and a name may lead to it.  A path stands for a name as on Linux: the slashes it
begins with do not count, and no name has another one (`objectName`).  `sem_open` with `O_CREAT`
gives the semaphore the name leads to, or a new one.  `sem_unlink` takes the name away; the semaphore
stays for those who have it open.  `sem_wait` and `sem_trywait` may be interrupted by a signal before
they do anything.
-/

namespace PosixSem

/-- The `errno` of a call that failed. -/
inductive Errno
  | eintr
  | eagain
  | einval
  | enoent
  | eoverflow
  deriving DecidableEq

/-- `SEM_VALUE_MAX`. -/
def semValueMax : ℕ := 2147483647

/-- The semaphores of a system, by number, and the names that lead to them. -/
structure Kernel where
  names : List UInt8 → Option ℕ
  values : List ℕ

/-- The name a path stands for. -/
def objectName (path : List UInt8) : Option (List UInt8) :=
  let name := path.dropWhile (· = 47)
  if name = [] ∨ 47 ∈ name then none else some name

theorem objectName_slash {name : List UInt8} (hne : name ≠ []) (h : 47 ∉ name) :
    objectName (47 :: name) = some name := by
  have hdrop : (47 :: name).dropWhile (· = 47) = name := by
    rcases name with _ | ⟨c, name⟩
    · exact absurd rfl hne
    · have hc : c ≠ 47 := fun he => h (he ▸ List.mem_cons_self)
      simp [hc]
  simp [objectName, hdrop, hne, h]

namespace Kernel

/-- The semaphore a name leads to, or a new one. -/
def attach (k : Kernel) (name : List UInt8) (value : ℕ) : ℕ × Kernel :=
  match k.names name with
  | some i => (i, k)
  | none =>
    (k.values.length,
      ⟨Function.update k.names name (some k.values.length), k.values ++ [value]⟩)

/-- `sem_open` with `O_CREAT`. -/
def semOpen (k : Kernel) (path : List UInt8) (value : ℕ) : Except Errno (ℕ × Kernel) :=
  match objectName path with
  | none => .error .einval
  | some name => .ok (k.attach name value)

/-- `sem_unlink`. -/
def semUnlink (k : Kernel) (path : List UInt8) : Except Errno Kernel :=
  match objectName path with
  | none => .error .enoent
  | some name =>
    match k.names name with
    | none => .error .enoent
    | some _ => .ok { k with names := Function.update k.names name none }

/-- The value of semaphore `i`. -/
def value (k : Kernel) (i : ℕ) : ℕ := k.values.getD i 0

/-- Semaphore `i` with another value. -/
def setValue (k : Kernel) (i v : ℕ) : Kernel := { k with values := k.values.set i v }

/-- `sem_wait`; `none` while it blocks. -/
def semWait (k : Kernel) (i : ℕ) (interrupted : Bool) : Option (Except Errno Kernel) :=
  if interrupted then some (.error .eintr)
  else if k.value i = 0 then none
  else some (.ok (k.setValue i (k.value i - 1)))

/-- `sem_trywait`. -/
def semTrywait (k : Kernel) (i : ℕ) (interrupted : Bool) : Except Errno Kernel :=
  if interrupted then .error .eintr
  else if k.value i = 0 then .error .eagain
  else .ok (k.setValue i (k.value i - 1))

/-- `sem_post`. -/
def semPost (k : Kernel) (i : ℕ) : Except Errno Kernel :=
  if k.value i = semValueMax then .error .eoverflow
  else .ok (k.setValue i (k.value i + 1))

theorem setValue_self (k : Kernel) (i : ℕ) : k.setValue i (k.value i) = k := by
  unfold setValue value
  rcases Nat.lt_or_ge i k.values.length with hi | hi
  · rw [List.getD_eq_getElem _ _ hi, List.set_getElem_self]
  · rw [List.set_eq_of_length_le hi]

end Kernel

end PosixSem
