import D4np.Core.Size
import Mathlib.Tactic.Positivity

/-!
# Status codes and the allocator contract

An allocator is what the code can observe of `d4np_allocator_t`: for each request, in the order
the requests are made, either `NULL` or a block at some address with arbitrary contents.  Any
request may be refused.  A granted block satisfies the documented contract: it is not at address
zero, it lies inside the address space, and it has the alignment asked for.  A reallocation is a
request like any other; where it is granted, the block keeps the common prefix of the old contents.
`Heap` counts the requests made so far and keeps the log of the requests and releases.
-/

namespace D4np

open Word64

/-- `d4np_status_t`. -/
inductive Status
  | ok
  | errInvalidArgument
  | errOutOfMemory
  | errOverflow
  | errNotFound
  | errIo
  | errAgain
  | errUnsupported
  | errInternal
  deriving DecidableEq, Repr

/-- A block the allocator grants: where it starts, and what it happens to hold. -/
structure Block where
  addr : ℕ
  bytes : ℕ → UInt8

/-- `d4np_allocator_t`: the answer to the request number `n` for `size` bytes at `align`. -/
structure Allocator where
  alloc : (n size align : ℕ) → Option Block
  addr_pos : ∀ {n size align : ℕ} {b : Block}, alloc n size align = some b → 0 < b.addr
  addr_le : ∀ {n size align : ℕ} {b : Block}, alloc n size align = some b → b.addr + size ≤ 2 ^ 64
  addr_dvd : ∀ {n size align : ℕ} {b : Block}, alloc n size align = some b → align ≠ 0 →
    align ∣ b.addr

/-- A call of the allocator, with the address it returned or was given (`none` for `NULL`). -/
inductive AllocEvent
  | alloc (size align : ℕ) (ptr : Option ℕ)
  | realloc (ptr : Option ℕ) (oldSize newSize align : ℕ) (result : Option ℕ)
  | free (ptr : Option ℕ) (size : ℕ)
  deriving DecidableEq

/-- The allocator's side of a run: the requests made so far, and the calls, newest first. -/
structure Heap where
  requests : ℕ
  log : List AllocEvent

/-- `d4np_alloc`. -/
def d4npAlloc (a : Allocator) (size align : ℕ) (h : Heap) : Option Block × Heap :=
  let r := a.alloc h.requests size align
  (r, ⟨h.requests + 1, .alloc size align (r.map Block.addr) :: h.log⟩)

/-- What a block grown or shrunk from `oldSize` bytes holds: the common prefix of the old contents,
and behind it whatever the new block happens to hold. -/
def resized (ptr : Option ℕ) (bytes : ℕ → UInt8) (oldSize newSize : ℕ) (b : Block) : Block :=
  ⟨b.addr, fun x => if ptr ≠ none ∧ x < oldSize ∧ x < newSize then bytes x else b.bytes x⟩

theorem resized_bytes {ptr : Option ℕ} {bytes : ℕ → UInt8} {oldSize newSize x : ℕ} {b : Block}
    (hptr : ptr ≠ none) (hold : x < oldSize) (hnew : x < newSize) :
    (resized ptr bytes oldSize newSize b).bytes x = bytes x := if_pos ⟨hptr, hold, hnew⟩

/-- `d4np_realloc` of a block with the given contents; a null pointer asks for a new block. -/
def d4npRealloc (a : Allocator) (ptr : Option ℕ) (bytes : ℕ → UInt8) (oldSize newSize align : ℕ)
    (h : Heap) : Option Block × Heap :=
  let r := a.alloc h.requests newSize align
  (r.map (resized ptr bytes oldSize newSize),
    ⟨h.requests + 1, .realloc ptr oldSize newSize align (r.map Block.addr) :: h.log⟩)

/-- `d4np_free`. -/
def d4npFree (ptr : Option ℕ) (size : ℕ) (h : Heap) : Heap :=
  { h with log := .free ptr size :: h.log }

/-- The two answers of a reallocation. -/
theorem d4npRealloc_cases (a : Allocator) (ptr : Option ℕ) (bytes : ℕ → UInt8)
    (oldSize newSize align : ℕ) (h : Heap) :
    d4npRealloc a ptr bytes oldSize newSize align h =
      (none, ⟨h.requests + 1, .realloc ptr oldSize newSize align none :: h.log⟩) ∨
    ∃ b, a.alloc h.requests newSize align = some b ∧
      d4npRealloc a ptr bytes oldSize newSize align h =
        (some (resized ptr bytes oldSize newSize b),
          ⟨h.requests + 1, .realloc ptr oldSize newSize align (some b.addr) :: h.log⟩) := by
  unfold d4npRealloc
  rcases a.alloc h.requests newSize align with _ | b
  · exact Or.inl rfl
  · exact Or.inr ⟨b, rfl, rfl⟩

/-- An allocator that grants no block of half the address space or more. -/
def Allocator.Bounded (a : Allocator) : Prop :=
  ∀ {n size align : ℕ} {b : Block}, a.alloc n size align = some b → size < 2 ^ 63

/-- An allocator that serves every request of at most a page from a page of its own, and refuses
the others. -/
def pageAllocator : Allocator where
  alloc n size align :=
    if size ≤ 4096 ∧ align ∣ 4096 ∧ n < 2 ^ 32 then some ⟨4096 * (n + 1), fun _ => 0⟩ else none
  addr_pos := by
    intro n size align b h
    split_ifs at h
    cases h
    positivity
  addr_le := by
    intro n size align b h
    split_ifs at h with hc
    cases h
    simp only
    omega
  addr_dvd := by
    intro n size align b h _
    split_ifs at h with hc
    cases h
    exact hc.2.1.mul_right _

theorem pageAllocator_bounded : pageAllocator.Bounded := by
  intro n size align b h
  have hc : size ≤ 4096 ∧ align ∣ 4096 ∧ n < 2 ^ 32 := by
    by_contra hne
    rw [show pageAllocator.alloc n size align = none from if_neg hne] at h
    cases h
  omega

end D4np
