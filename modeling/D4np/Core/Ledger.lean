import D4np.Core.Allocator
import Mathlib.Data.List.Perm.Basic
import Mathlib.Data.List.Nodup

/-!
# The ledger of live blocks

The log of a heap says which blocks are live and how large they are (`liveSize`): a block is live
from the request that returned it until it is released or moved by a reallocation, and a refused
reallocation leaves it as it was.  A log is valid if every release and every reallocation names a
live block with its size (`Valid`).  `Owns log blocks` says that a log is valid and that the live
blocks are exactly `blocks`.  `Accounts log blocks` says so as long as the allocator has been honest
and never granted the address of a live block; it follows a container through its requests and
releases (`Accounts.alloc`, `Accounts.free`).  A container of one block needs no such proviso
(`Sole`).
-/

namespace D4np

/-- The size of the live block at `p`, if there is one. -/
def liveSize : List AllocEvent → ℕ → Option ℕ
  | [], _ => none
  | .alloc size _ (some q) :: log, p => if p = q then some size else liveSize log p
  | .realloc ptr _ newSize _ (some q) :: log, p =>
    if p = q then some newSize else if ptr = some p then none else liveSize log p
  | .free (some q) _ :: log, p => if p = q then none else liveSize log p
  | .alloc _ _ none :: log, p => liveSize log p
  | .realloc _ _ _ _ none :: log, p => liveSize log p
  | .free none _ :: log, p => liveSize log p

/-- No request was granted the address of a live block, other than the one it moves. -/
def Honest : List AllocEvent → Prop
  | [] => True
  | .alloc _ _ (some q) :: log => liveSize log q = none ∧ Honest log
  | .realloc ptr _ _ _ (some q) :: log => (ptr = some q ∨ liveSize log q = none) ∧ Honest log
  | _ :: log => Honest log

/-- Every release and every reallocation named a live block with its size. -/
def Valid : List AllocEvent → Prop
  | [] => True
  | .free (some p) size :: log => liveSize log p = some size ∧ Valid log
  | .realloc (some p) oldSize _ _ _ :: log => liveSize log p = some oldSize ∧ Valid log
  | _ :: log => Valid log

/-- The block a pointer points to; none if it is null. -/
def block (ptr : Option ℕ) (size : ℕ) : List (ℕ × ℕ) := (ptr.map fun p => (p, size)).toList

/-- The log is valid, and exactly the given blocks are live. -/
structure Owns (log : List AllocEvent) (blocks : List (ℕ × ℕ)) : Prop where
  valid : Valid log
  nodup : (blocks.map Prod.fst).Nodup
  live : ∀ p n, liveSize log p = some n ↔ (p, n) ∈ blocks

theorem Honest.tail {e : AllocEvent} {log : List AllocEvent} (h : Honest (e :: log)) :
    Honest log := by
  rcases e with ⟨_, _, _ | q⟩ | ⟨ptr, _, _, _, _ | q⟩ | ⟨ptr, _⟩
  · exact h
  · exact h.2
  · exact h
  · exact h.2
  · exact h

namespace Owns

variable {log : List AllocEvent} {blocks : List (ℕ × ℕ)} {ptr : Option ℕ} {p size : ℕ}

theorem nil : Owns [] [] := ⟨trivial, List.nodup_nil, fun p n => by simp [liveSize]⟩

theorem perm {blocks' : List (ℕ × ℕ)} (h : Owns log blocks) (hp : blocks.Perm blocks') :
    Owns log blocks' :=
  ⟨h.valid, (hp.map Prod.fst).nodup h.nodup, fun p n => (h.live p n).trans hp.mem_iff⟩

/-- The address of an owned block is owned once. -/
theorem notMem_of_cons (h : Owns log ((p, size) :: blocks)) (n : ℕ) : (p, n) ∉ blocks := by
  intro hm
  have := (List.nodup_cons.mp h.nodup).1
  exact this (List.mem_map.mpr ⟨(p, n), hm, rfl⟩)

theorem alloc_refused (h : Owns log blocks) (align : ℕ) :
    Owns (.alloc size align none :: log) blocks := ⟨h.valid, h.nodup, h.live⟩

theorem realloc_refused {newSize : ℕ} (h : Owns log (block ptr size ++ blocks)) (align : ℕ) :
    Owns (.realloc ptr size newSize align none :: log) (block ptr size ++ blocks) := by
  refine ⟨?_, h.nodup, h.live⟩
  rcases ptr with _ | p
  · exact h.valid
  · exact ⟨(h.live p size).mpr List.mem_cons_self, h.valid⟩

/-- A block that was not live joins the ledger. -/
theorem alloc_granted (h : Owns log blocks) {align q : ℕ}
    (hh : Honest (.alloc size align (some q) :: log)) :
    Owns (.alloc size align (some q) :: log) ((q, size) :: blocks) := by
  have hfree : ∀ n, (q, n) ∉ blocks := by
    intro n hm
    have := (h.live q n).mpr hm
    rw [hh.1] at this
    cases this
  refine ⟨h.valid, ?_, fun p n => ?_⟩
  · rw [List.map_cons, List.nodup_cons]
    refine ⟨fun hm => ?_, h.nodup⟩
    obtain ⟨⟨x, n⟩, hx, rfl⟩ := List.mem_map.mp hm
    exact hfree n hx
  · simp only [liveSize, List.mem_cons, Prod.mk.injEq]
    by_cases hp : p = q
    · subst hp
      rw [if_pos rfl, Option.some_inj]
      exact ⟨fun he => Or.inl ⟨rfl, he.symm⟩,
        fun he => he.elim (fun he => he.2.symm) fun hm => absurd hm (hfree n)⟩
    · rw [if_neg hp, h.live p n]
      exact ⟨Or.inr, fun he => he.resolve_left fun hc => hp hc.1⟩

/-- A released block leaves the ledger. -/
theorem free (h : Owns log (block ptr size ++ blocks)) : Owns (.free ptr size :: log) blocks := by
  rcases ptr with _ | q
  · exact ⟨h.valid, h.nodup, h.live⟩
  · refine ⟨⟨(h.live q size).mpr List.mem_cons_self, h.valid⟩, (List.nodup_cons.mp h.nodup).2,
      fun p n => ?_⟩
    have hlive := h.live p n
    rw [show block (some q) size ++ blocks = (q, size) :: blocks from rfl, List.mem_cons,
      Prod.mk.injEq] at hlive
    simp only [liveSize]
    by_cases hp : p = q
    · subst hp
      rw [if_pos rfl]
      exact ⟨nofun, fun hm => absurd hm (notMem_of_cons h n)⟩
    · rw [if_neg hp, hlive]
      exact ⟨fun he => he.resolve_left fun hc => hp hc.1, Or.inr⟩

/-- A moved block leaves the ledger, and its new place joins it. -/
theorem realloc_granted {newSize align q : ℕ} (h : Owns log (block ptr size ++ blocks))
    (hh : Honest (.realloc ptr size newSize align (some q) :: log)) :
    Owns (.realloc ptr size newSize align (some q) :: log) ((q, newSize) :: blocks) := by
  rcases ptr with _ | old
  · -- a null pointer: a request like `alloc`
    replace h : Owns log blocks := h
    have hfree : liveSize log q = none := hh.1.resolve_left nofun
    have hh' : Honest (.alloc newSize align (some q) :: log) := ⟨hfree, hh.2⟩
    have ha := alloc_granted h hh'
    refine ⟨h.valid, ha.nodup, fun p n => ?_⟩
    rw [← ha.live p n]
    simp [liveSize]
  · -- a live pointer: released and requested in one event
    have hf := free h
    have hfree : liveSize (.free (some old) size :: log) q = none := by
      simp only [liveSize]
      split_ifs with hq
      · rfl
      · exact hh.1.resolve_left fun he => hq (Option.some_inj.mp he).symm
    have hh' : Honest (.alloc newSize align (some q) :: .free (some old) size :: log) :=
      ⟨hfree, hh.2⟩
    have ha := alloc_granted hf hh'
    refine ⟨hf.valid, ha.nodup, fun p n => ?_⟩
    rw [← ha.live p n]
    simp only [liveSize, Option.some_inj, eq_comm]

end Owns

/-! ## Following a container -/

/-- As long as the allocator has been honest, the log is valid and exactly the given blocks are
live. -/
def Accounts (log : List AllocEvent) (blocks : List (ℕ × ℕ)) : Prop := Honest log → Owns log blocks

namespace Accounts

variable {log : List AllocEvent} {blocks blocks' : List (ℕ × ℕ)} {ptr : Option ℕ} {h : Heap}

theorem nil : Accounts [] [] := fun _ => Owns.nil

theorem perm (ho : Accounts log blocks) (hp : blocks.Perm blocks') : Accounts log blocks' :=
  fun hh => (ho hh).perm hp

theorem alloc (ho : Accounts h.log blocks) (a : Allocator) (size align : ℕ) :
    Accounts (d4npAlloc a size align h).2.log
      (block ((d4npAlloc a size align h).1.map Block.addr) size ++ blocks) := by
  intro hh
  have hprev := ho hh.tail
  replace hh : Honest (.alloc size align ((a.alloc h.requests size align).map Block.addr) :: h.log) :=
    hh
  show Owns (.alloc size align ((a.alloc h.requests size align).map Block.addr) :: h.log)
    (block ((a.alloc h.requests size align).map Block.addr) size ++ blocks)
  rcases hb : a.alloc h.requests size align with _ | b
  · exact hprev.alloc_refused align
  · rw [hb] at hh
    exact hprev.alloc_granted hh

theorem free {size : ℕ} (ho : Accounts h.log blocks)
    (hp : blocks.Perm (block ptr size ++ blocks')) :
    Accounts (d4npFree ptr size h).log blocks' :=
  fun hh => ((ho hh.tail).perm hp).free

end Accounts

/-! ## Following a container of one block -/

/-- The block `ptr` points to is the only live one.  No allocator can be dishonest to its holder:
the one live block is the one a reallocation moves. -/
structure Sole (log : List AllocEvent) (ptr : Option ℕ) (size : ℕ) : Prop where
  honest : Honest log
  owns : Owns log (block ptr size)

namespace Sole

variable {log : List AllocEvent} {ptr : Option ℕ} {size newSize : ℕ}

theorem nil (size : ℕ) : Sole [] none size := ⟨trivial, Owns.nil⟩

theorem realloc_refused (h : Sole log ptr size) (align : ℕ) :
    Sole (.realloc ptr size newSize align none :: log) ptr size := by
  refine ⟨h.honest, ?_⟩
  have ho := h.owns
  rw [← List.append_nil (block ptr size)] at ho ⊢
  exact ho.realloc_refused align

theorem realloc_granted (h : Sole log ptr size) (align q : ℕ) :
    Sole (.realloc ptr size newSize align (some q) :: log) (some q) newSize := by
  have hh : Honest (.realloc ptr size newSize align (some q) :: log) := by
    refine ⟨?_, h.honest⟩
    rcases hl : liveSize log q with _ | n
    · exact Or.inr rfl
    · left
      have hm := (h.owns.live q n).mp hl
      rcases ptr with _ | p
      · exact absurd hm List.not_mem_nil
      · rw [(Prod.mk.inj (List.mem_singleton.mp hm)).1]
  refine ⟨hh, ?_⟩
  have ho := h.owns
  rw [← List.append_nil (block ptr size)] at ho
  exact ho.realloc_granted hh

theorem free {h : Heap} (hs : Sole h.log ptr size) : Owns (d4npFree ptr size h).log [] := by
  have ho := hs.owns
  rw [← List.append_nil (block ptr size)] at ho
  exact ho.free

end Sole

end D4np
