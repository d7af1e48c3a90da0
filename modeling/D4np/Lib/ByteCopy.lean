import D4np.Lib.ByteMem
import Mathlib.Data.List.Induction
import Mathlib.Logic.Function.Basic

/-!
# Copying bytes one at a time

Bytes are written one behind the other.  Each is a constant or is read from the memory when its turn
comes (`Source`), so what the copy has written may be what it reads later.  What is written is what
the sources held at the start exactly if no byte is read from where another one has been written
before (`bytesAt_copyOut_iff`), as when the sources and what is written do not overlap
(`readInTime_take`).
-/

namespace ByteMem

/-- Where a byte comes from. -/
inductive Source
  | const (b : UInt8)
  | addr (x : ℕ)

/-- The byte of a source. -/
def Source.read (m : Mem) : Source → UInt8
  | .const b => b
  | .addr x => m x

/-- The memory after the bytes of the sources have been written from `p` on. -/
def copyOut (m : Mem) (p : ℕ) : List Source → Mem
  | [] => m
  | s :: l => copyOut (Function.update m p (s.read m)) (p + 1) l

/-- No byte is read from where another one has been written before. -/
def ReadInTime (m : Mem) (p : ℕ) (l : List Source) : Prop :=
  ∀ i j (hij : i < j) (hj : j < l.length), l[j] = .addr (p + i) → l[i].read m = m (p + i)

/-- The `n` bytes at `x`, as sources. -/
def addrs (x n : ℕ) : List Source := (List.range n).map fun i => .addr (x + i)

variable {m : Mem} {p x n : ℕ} {l : List Source}

/-! ## Runs of addresses -/

@[simp] theorem addrs_length (x n : ℕ) : (addrs x n).length = n := by
  simp [addrs]

@[simp] theorem map_read_addrs (m : Mem) (x n : ℕ) :
    (addrs x n).map (Source.read m) = bytesAt m x n := by
  simp [addrs, bytesAt, Source.read]

theorem mem_addrs {s : Source} : s ∈ addrs x n ↔ ∃ i < n, s = .addr (x + i) := by
  simp [addrs, eq_comm]

theorem addrs_add (x n k : ℕ) : addrs x (n + k) = addrs x n ++ addrs (x + n) k := by
  simp [addrs, List.range_add, Nat.add_assoc]

theorem addrs_succ (x n : ℕ) : addrs x (n + 1) = addrs x n ++ [.addr (x + n)] := by
  rw [addrs_add]
  rfl

theorem addrs_succ' (x n : ℕ) : addrs x (n + 1) = .addr x :: addrs (x + 1) n := by
  rw [Nat.add_comm, addrs_add]
  rfl

/-! ## The copy -/

theorem copyOut_append (m : Mem) (p : ℕ) (l l' : List Source) :
    copyOut m p (l ++ l') = copyOut (copyOut m p l) (p + l.length) l' := by
  induction l generalizing m p with
  | nil => rfl
  | cons s l ih =>
    show copyOut _ (p + 1) (l ++ l') = _
    rw [ih, List.length_cons, Nat.add_assoc, Nat.add_comm 1]
    rfl

theorem copyOut_concat (m : Mem) (p : ℕ) (l : List Source) (s : Source) :
    copyOut m p (l ++ [s]) =
      Function.update (copyOut m p l) (p + l.length) (s.read (copyOut m p l)) :=
  copyOut_append m p l [s]

/-- A copy writes nothing else. -/
theorem copyOut_of_not_mem (m : Mem) (l : List Source) (h : x < p ∨ p + l.length ≤ x) :
    copyOut m p l x = m x := by
  induction l using List.reverseRecOn with
  | nil => rfl
  | append_singleton l s ih =>
    rw [List.length_append, List.length_singleton] at h
    rw [copyOut_concat, Function.update_of_ne (by omega)]
    exact ih (by omega)

theorem bytesAt_copyOut_concat (m : Mem) (p : ℕ) (l : List Source) (s : Source) :
    bytesAt (copyOut m p (l ++ [s])) p (l ++ [s]).length =
      bytesAt (copyOut m p l) p l.length ++ [s.read (copyOut m p l)] := by
  rw [List.length_append, List.length_singleton, bytesAt_succ_last, copyOut_concat,
    Function.update_self]
  congr 1
  exact bytesAt_congr fun i hi => Function.update_of_ne (by omega) _ _

theorem readInTime_concat {s : Source} :
    ReadInTime m p (l ++ [s]) ↔ ReadInTime m p l ∧
      ∀ i (hi : i < l.length), s = .addr (p + i) → l[i].read m = m (p + i) := by
  constructor
  · intro h
    refine ⟨fun i j hij hj haddr => ?_, fun i hi hs => ?_⟩
    · have hlen : j < (l ++ [s]).length := by
        rw [List.length_append]
        omega
      have := h i j hij hlen (by rw [List.getElem_append_left hj]; exact haddr)
      rwa [List.getElem_append_left (by omega)] at this
    · have hlen : l.length < (l ++ [s]).length := by
        rw [List.length_append]
        exact Nat.lt_succ_self _
      have := h i l.length hi hlen (by rw [List.getElem_concat_length rfl]; exact hs)
      rwa [List.getElem_append_left hi] at this
  · rintro ⟨hl, hs⟩ i j hij hj haddr
    rw [List.length_append, List.length_singleton] at hj
    rw [List.getElem_append_left (by omega)]
    rcases Nat.lt_succ_iff_lt_or_eq.mp hj with hlt | rfl
    · rw [List.getElem_append_left hlt] at haddr
      exact hl i j hij hlt haddr
    · rw [List.getElem_concat_length rfl] at haddr
      exact hs i hij haddr

/-- **What a copy writes** is what the sources held exactly if each was read in time. -/
theorem bytesAt_copyOut_iff (m : Mem) (p : ℕ) (l : List Source) :
    bytesAt (copyOut m p l) p l.length = l.map (Source.read m) ↔ ReadInTime m p l := by
  induction l using List.reverseRecOn with
  | nil => exact iff_of_true rfl fun i j hij hj => absurd hj (by simp)
  | append_singleton l s ih =>
    rw [bytesAt_copyOut_concat, List.map_append, List.map_singleton, readInTime_concat, ← ih,
      List.append_singleton_inj]
    refine and_congr_right fun hl => ?_
    -- the byte at `p + i` is by now that of the source `i`
    have hget : ∀ i (hi : i < l.length), copyOut m p l (p + i) = l[i].read m := by
      intro i hi
      have := congrArg (·[i]?) hl
      simpa [bytesAt, hi] using this
    cases s with
    | const b =>
      refine iff_of_true rfl fun i hi hs => ?_
      cases hs
    | addr x =>
      constructor
      · rintro hread i hi ⟨⟩
        rw [← hget i hi]
        exact hread
      · intro hs
        by_cases hx : p ≤ x ∧ x < p + l.length
        · obtain ⟨i, rfl⟩ := Nat.exists_eq_add_of_le hx.1
          have hi : i < l.length := by omega
          exact (hget i hi).trans (hs i hi rfl)
        · exact copyOut_of_not_mem m l (by omega)

/-- Sources at their own place, followed by sources outside of what is written. -/
theorem readInTime_take_append {k : ℕ} (h : ∀ i < k, .addr (p + i) ∉ l) :
    ReadInTime m p ((addrs p n ++ l).take k) := by
  intro i j hij hj haddr
  rw [List.length_take] at hj
  rw [List.getElem_take] at haddr
  by_cases hn : j < n
  · -- the byte read is the one that is written there
    rw [List.getElem_append_left (by rwa [addrs_length])] at haddr
    simp only [addrs, List.getElem_map, List.getElem_range, Source.addr.injEq] at haddr
    omega
  · rw [List.getElem_append_right (by rw [addrs_length]; omega)] at haddr
    exact absurd (haddr ▸ List.getElem_mem _) (h i (by omega))

/-- Sources outside of what is written. -/
theorem readInTime_take {k : ℕ} (h : ∀ i < k, .addr (p + i) ∉ l) : ReadInTime m p (l.take k) :=
  readInTime_take_append (n := 0) h

end ByteMem
