import D4np.Core.Allocator
import D4np.Lib.TransitionSystem
import Mathlib.Tactic
import Mathlib.Order.Bounds.Basic

/-!
# The arena allocator

A bump pointer over one backing block.  The rounding of the offset masks with an unchecked
alignment and is guarded only by a wrap test on the sum; `le_of_alignUp` and `alignUp_isLeast` say
what that is worth for an arbitrary alignment and for a power of two.  The runs of the arena keep,
since the last reset, the regions handed out (`Run.regions`).
-/

namespace D4np

open Word64 TransitionSystem

/-- `align_up`; `none` where the source sets `*overflow`. -/
def alignUp (value align : ℕ) : Option ℕ :=
  let a := if align = 0 then 1 else align
  let sum := wrap (value + sub a 1)
  if sum < value then none else some (sum &&& compl (sub a 1))

/-- `d4np_arena_t`. -/
structure Arena where
  allocator : Allocator
  base : ℕ
  capacity : ℕ
  offset : ℕ

namespace Arena

/-- `d4np_arena_init`. -/
def init (allocator : Allocator) (capacity : ℕ) (h : Heap) : Status × Option Arena × Heap :=
  if capacity = 0 then (.errInvalidArgument, none, h)
  else
    match d4npAlloc allocator capacity maxAlign h with
    | (none, h) => (.errOutOfMemory, none, h)
    | (some block, h) => (.ok, some ⟨allocator, block.addr, capacity, 0⟩, h)

/-- `d4np_arena_alloc`: the pointer returned (`none` for `NULL`) and the arena after the call. -/
def alloc (s : Arena) (size align : ℕ) : Option ℕ × Arena :=
  if size = 0 then (none, s)
  else
    match alignUp s.offset align with
    | none => (none, s)
    | some aligned =>
      if aligned > s.capacity then (none, s)
      else if size > sub s.capacity aligned then (none, s)
      else (some (s.base + aligned), { s with offset := wrap (aligned + size) })

/-- `d4np_arena_reset`. -/
def reset (s : Arena) : Arena := { s with offset := 0 }

/-- `d4np_arena_destroy`; a null base is zero. -/
def destroy (s : Arena) (h : Heap) : Arena × Heap :=
  if s.base = 0 then (s, h)
  else ({ s with base := 0, capacity := 0, offset := 0 }, d4npFree (some s.base) s.capacity h)

/-- `d4np_arena_used`. -/
def used (s : Arena) : ℕ := s.offset

/-- `d4np_arena_remaining`. -/
def remaining (s : Arena) : ℕ := sub s.capacity s.offset

end Arena

/-! ## Rounding -/

/-- The alignment the code works with: byte alignment for zero. -/
def effAlign (align : ℕ) : ℕ := if align = 0 then 1 else align

theorem effAlign_pos (align : ℕ) : 0 < effAlign align := by
  unfold effAlign; split_ifs <;> omega

theorem effAlign_lt {align : ℕ} (h : align < 2 ^ 64) : effAlign align < 2 ^ 64 := by
  unfold effAlign; split_ifs <;> omega

/-- `align_up` fails exactly when the sum leaves the word. -/
theorem alignUp_eq {value align : ℕ} (hv : value < 2 ^ 64) (ha : align < 2 ^ 64) :
    alignUp value align = if value + (effAlign align - 1) < 2 ^ 64 then
      some ((value + (effAlign align - 1)) &&& compl (effAlign align - 1)) else none := by
  have h0 := effAlign_pos align
  have h1 := effAlign_lt ha
  show (if wrap (value + sub (effAlign align) 1) < value then none
    else some (wrap (value + sub (effAlign align) 1) &&& compl (sub (effAlign align) 1))) = _
  rw [sub_one h0 h1]
  by_cases hw : value + (effAlign align - 1) < 2 ^ 64
  · rw [wrap_of_lt hw, if_pos hw, if_neg (by omega)]
  · have : wrap (value + (effAlign align - 1)) < value := by unfold wrap; omega
    rw [if_neg hw, if_pos this]

/-- Whatever the alignment, the rounded offset is at or after the offset. -/
theorem le_of_alignUp {value align r : ℕ} (hv : value < 2 ^ 64) (ha : align < 2 ^ 64)
    (h : alignUp value align = some r) : value ≤ r := by
  rw [alignUp_eq hv ha] at h
  split_ifs at h with hw
  cases h
  exact le_add_land_compl hw

theorem effAlign_pow {align : ℕ} (hp : align = 0 ∨ align.isPowerOfTwo) :
    ∃ k, effAlign align = 2 ^ k := by
  unfold effAlign
  split_ifs with h0
  · exact ⟨0, rfl⟩
  · exact hp.resolve_left h0

/-- For a power of two the rounding gives the least multiple at or after the offset, and fails
only where that multiple is not a word. -/
theorem alignUp_isLeast {value align : ℕ} (hv : value < 2 ^ 64) (ha : align < 2 ^ 64)
    (hp : align = 0 ∨ align.isPowerOfTwo) :
    ∃ n, IsLeast {n | value ≤ n ∧ effAlign align ∣ n} n ∧
      alignUp value align = if n < 2 ^ 64 then some n else none := by
  obtain ⟨k, hk⟩ := effAlign_pow hp
  have hlt := effAlign_lt ha
  have h0 := effAlign_pos align
  have hk64 : k < 64 := exponent_lt (hk ▸ hlt)
  set a := effAlign align with hadef
  refine ⟨value + (a - 1) - (value + (a - 1)) % a,
    ⟨⟨le_roundUp h0, Nat.dvd_sub_mod _⟩, fun n hn => roundUp_le_of_dvd hn.1 hn.2⟩, ?_⟩
  rw [alignUp_eq hv ha, ← hadef]
  by_cases hw : value + (a - 1) < 2 ^ 64
  · rw [if_pos hw, if_pos (by omega)]
    rw [hk] at hw ⊢
    rw [land_compl_pow hw hk64]
  · -- the sum passed `2 ^ 64`, itself a multiple of the alignment
    have hd : a ∣ 2 ^ 64 := by rw [hk]; exact pow_dvd_pow 2 hk64.le
    obtain ⟨q, hq⟩ := hd
    have hmul := Nat.div_add_mod (value + (a - 1)) a
    have hq' : q ≤ (value + (a - 1)) / a := by
      rw [Nat.le_div_iff_mul_le h0, mul_comm, ← hq]
      omega
    have := Nat.mul_le_mul_left a hq'
    rw [if_neg hw, if_neg (by omega)]

/-! ## One allocation -/

namespace Arena

/-- The arena's own invariant: the offset stays inside the block, and the block inside the address
space. -/
structure Valid (s : Arena) : Prop where
  base_pos : 0 < s.base
  base_le : s.base + s.capacity ≤ 2 ^ 64
  offset_le : s.offset ≤ s.capacity

/-- `o` is an offset for `size` bytes at `align`, at or after the current one. -/
def Fits (s : Arena) (size align o : ℕ) : Prop :=
  s.offset ≤ o ∧ effAlign align ∣ o ∧ o + size ≤ s.capacity

variable {s : Arena}

theorem Valid.capacity_lt (h : s.Valid) : s.capacity < 2 ^ 64 := by
  have := h.base_pos
  have := h.base_le
  omega

/-- What `d4np_arena_alloc` can do: refuse and change nothing, or hand out a region after the
offset and inside the block and move the offset to its end. -/
theorem alloc_cases (h : s.Valid) (size : ℕ) {align : ℕ} (ha : align < 2 ^ 64) :
    (s.alloc size align = (none, s)) ∨
    ∃ o, 0 < size ∧ alignUp s.offset align = some o ∧ s.offset ≤ o ∧ o + size ≤ s.capacity ∧
      s.alloc size align = (some (s.base + o), { s with offset := o + size }) := by
  have hcap := h.capacity_lt
  have hoff := h.offset_le
  unfold alloc
  by_cases h0 : size = 0
  · exact Or.inl (if_pos h0)
  rw [if_neg h0]
  rcases hal : alignUp s.offset align with _ | o
  · exact Or.inl rfl
  have hle := le_of_alignUp (by omega) ha hal
  by_cases h1 : o > s.capacity
  · exact Or.inl (if_pos h1)
  by_cases h2 : size > s.capacity - o
  · left
    simp only [if_neg h1, sub_of_le (not_lt.mp h1) hcap, if_pos h2]
  · right
    refine ⟨o, by omega, rfl, hle, by omega, ?_⟩
    simp only [if_neg h1, sub_of_le (not_lt.mp h1) hcap, if_neg h2]
    rw [wrap_of_lt (by omega)]

/-- **Exact success.** For a positive size and an alignment that is zero or a power of two, a call
succeeds exactly when some offset fits, and then at the least one. -/
theorem alloc_exact (h : s.Valid) {size align : ℕ} (ha : align < 2 ^ 64) (hsize : 0 < size)
    (hp : align = 0 ∨ align.isPowerOfTwo) :
    ((s.alloc size align).1.isSome ↔ ∃ o, s.Fits size align o) ∧
    ∀ p, (s.alloc size align).1 = some p → ∃ o, IsLeast {o | s.Fits size align o} o ∧
      p = s.base + o ∧ (s.alloc size align).2 = { s with offset := o + size } := by
  have hcap := h.capacity_lt
  have hoff := h.offset_le
  obtain ⟨n, ⟨⟨hn, hd⟩, hleast⟩, hal⟩ := alignUp_isLeast (show s.offset < 2 ^ 64 by omega) ha hp
  -- every offset that fits is at or after the rounded one
  have hle : ∀ o, s.Fits size align o → n ≤ o := fun o ho => hleast ⟨ho.1, ho.2.1⟩
  by_cases hfit : n + size ≤ s.capacity
  · have hres : s.alloc size align = (some (s.base + n), { s with offset := n + size }) := by
      unfold alloc
      rw [if_neg hsize.ne', hal, if_pos (by omega)]
      simp only [if_neg (show ¬ n > s.capacity by omega),
        sub_of_le (show n ≤ s.capacity by omega) hcap,
        if_neg (show ¬ size > s.capacity - n by omega)]
      rw [wrap_of_lt (by omega)]
    rw [hres]
    refine ⟨⟨fun _ => ⟨n, hn, hd, hfit⟩, fun _ => rfl⟩, fun p hpe => ?_⟩
    exact ⟨n, ⟨⟨hn, hd, hfit⟩, hle⟩, (Option.some.inj hpe).symm, rfl⟩
  · have hno : ¬ ∃ o, s.Fits size align o := by
      rintro ⟨o, ho⟩
      have := hle o ho
      have := ho.2.2
      omega
    have hnone : (s.alloc size align).1 = none := by
      rcases alloc_cases h size ha with he | ⟨o, _, ho, _, hoc, _⟩
      · rw [he]
      · rw [hal] at ho
        split_ifs at ho
        cases ho
        omega
    rw [hnone]
    exact ⟨⟨fun hs => by simp at hs, fun he => absurd he hno⟩, fun p hpe => by simp at hpe⟩

end Arena

/-! ## Runs -/

namespace Arena

/-- An arena in use, with the regions (address and size) handed out since the last reset. -/
structure Run where
  arena : Arena
  regions : List (ℕ × ℕ)

/-- A call, with `size_t` arguments. -/
inductive Call
  | alloc (size align : ℕ)
  | reset
  deriving DecidableEq

/-- One call on an arena in use. -/
def Run.step (r : Run) : Call → Option Run
  | .alloc size align =>
    if size < 2 ^ 64 ∧ align < 2 ^ 64 then
      match r.arena.alloc size align with
      | (none, a) => some ⟨a, r.regions⟩
      | (some p, a) => some ⟨a, (p, size) :: r.regions⟩
    else none
  | .reset => some ⟨r.arena.reset, []⟩

/-- The runs that start from a successful `d4np_arena_init`. -/
def system : System Run Call where
  init r := ∃ allocator capacity h h', capacity < 2 ^ 64 ∧ r.regions = [] ∧
    Arena.init allocator capacity h = (.ok, some r.arena, h')
  step := Run.step

/-- Two regions share no byte. -/
def DisjointRegions (x y : ℕ × ℕ) : Prop := x.1 + x.2 ≤ y.1 ∨ y.1 + y.2 ≤ x.1

/-- What every run keeps: the regions lie below the offset, and are pairwise disjoint. -/
structure Run.Inv (r : Run) : Prop where
  valid : r.arena.Valid
  inside : ∀ x ∈ r.regions, r.arena.base ≤ x.1 ∧ x.1 + x.2 ≤ r.arena.base + r.arena.offset
  disjoint : r.regions.Pairwise DisjointRegions

theorem init_ok {allocator : Allocator} {capacity : ℕ} {h h' : Heap} {s : Arena}
    (he : Arena.init allocator capacity h = (.ok, some s, h')) :
    ∃ b, allocator.alloc h.requests capacity maxAlign = some b ∧
      s = ⟨allocator, b.addr, capacity, 0⟩ := by
  unfold Arena.init at he
  split_ifs at he with h0
  · simp at he
  rcases hb : allocator.alloc h.requests capacity maxAlign with _ | b
  · simp [d4npAlloc, hb] at he
  · simp only [d4npAlloc, hb, Prod.mk.injEq, Option.some.injEq, true_and] at he
    exact ⟨b, rfl, he.1.symm⟩

theorem init_inv {r : Run} (h : system.init r) : r.Inv := by
  obtain ⟨allocator, capacity, h, h', hc, hr, he⟩ := h
  obtain ⟨b, hb, hs⟩ := init_ok he
  refine ⟨?_, ?_, ?_⟩
  · rw [hs]
    exact ⟨allocator.addr_pos hb, allocator.addr_le hb, Nat.zero_le _⟩
  · rw [hr]; simp
  · rw [hr]; exact List.Pairwise.nil

theorem step_inv {r r' : Run} {c : Call} (hI : r.Inv) (hs : r.step c = some r') : r'.Inv := by
  cases c with
  | reset =>
    cases hs
    exact ⟨⟨hI.valid.base_pos, hI.valid.base_le, Nat.zero_le _⟩, by simp, List.Pairwise.nil⟩
  | alloc size align =>
    simp only [Run.step] at hs
    split_ifs at hs with hw
    rcases alloc_cases hI.valid size hw.2 with he | ⟨o, _, _, hle, hcap, he⟩
    · simp only [he] at hs
      cases hs
      exact hI
    · simp only [he] at hs
      cases hs
      refine ⟨⟨hI.valid.base_pos, hI.valid.base_le, hcap⟩, ?_, ?_⟩
      · intro x hx
        rcases List.mem_cons.mp hx with rfl | hx
        · show r.arena.base ≤ r.arena.base + o ∧ _
          simp only
          omega
        · have := hI.inside x hx
          simp only
          omega
      · refine List.pairwise_cons.mpr ⟨fun y hy => Or.inr ?_, hI.disjoint⟩
        have := hI.inside y hy
        simp only
        omega

theorem reachable_inv {r : Run} (h : Reachable system r) : r.Inv :=
  h.induct (fun _ => init_inv) (fun _ _ _ => step_inv)

/-- **The arena over whole runs.** In every state reached from a successful init by any calls, the
regions handed out since the last reset are disjoint and inside the block, the used and the
remaining bytes make up the capacity, a refused call changes nothing, and a call with a positive
size and an alignment that is zero or a power of two succeeds exactly when some offset fits, at the
least one. -/
theorem arena_run_correct {r : Run} (h : Reachable system r) :
    r.regions.Pairwise DisjointRegions ∧
    (∀ x ∈ r.regions, r.arena.base ≤ x.1 ∧ x.1 + x.2 ≤ r.arena.base + r.arena.capacity) ∧
    r.arena.offset ≤ r.arena.capacity ∧
    r.arena.used + r.arena.remaining = r.arena.capacity ∧
    ∀ size align, size < 2 ^ 64 → align < 2 ^ 64 →
      ((r.arena.alloc size align).1 = none → (r.arena.alloc size align).2 = r.arena) ∧
      (0 < size → align = 0 ∨ align.isPowerOfTwo →
        ((r.arena.alloc size align).1.isSome ↔ ∃ o, r.arena.Fits size align o) ∧
        ∀ p, (r.arena.alloc size align).1 = some p →
          ∃ o, IsLeast {o | r.arena.Fits size align o} o ∧ p = r.arena.base + o ∧
            (r.arena.alloc size align).2 = { r.arena with offset := o + size }) := by
  have hI := reachable_inv h
  have hoff := hI.valid.offset_le
  refine ⟨hI.disjoint, ?_, hoff, ?_, ?_⟩
  · intro x hx
    have := hI.inside x hx
    omega
  · unfold used remaining
    rw [sub_of_le hoff hI.valid.capacity_lt]
    omega
  · intro size align _ ha
    refine ⟨fun hn => ?_, fun hs hp => alloc_exact hI.valid ha hs hp⟩
    rcases alloc_cases hI.valid size ha with he | ⟨o, _, _, _, _, he⟩
    · rw [he]
    · rw [he] at hn
      simp at hn

/-- Two calls on an arena of 64 bytes, the second with an alignment that is no power of two. -/
theorem arena_run_correct_two_calls :
    Reachable system ⟨⟨pageAllocator, 4096, 64, 13⟩, [(4104, 5), (4096, 8)]⟩ ∧
      [(4104, 5), (4096, 8)].Pairwise DisjointRegions := by
  have h0 : system.init ⟨⟨pageAllocator, 4096, 64, 0⟩, []⟩ :=
    ⟨pageAllocator, 64, ⟨0, []⟩, _, by norm_num, rfl, rfl⟩
  have hrun : system.run ⟨⟨pageAllocator, 4096, 64, 0⟩, []⟩ [.alloc 8 8, .alloc 5 3] =
      some ⟨⟨pageAllocator, 4096, 64, 13⟩, [(4104, 5), (4096, 8)]⟩ := rfl
  have hr := (Reachable.init h0).run hrun
  exact ⟨hr, (arena_run_correct hr).1⟩

/-! ## Alignment of the addresses -/

theorem alloc_base (s : Arena) (size align : ℕ) : (s.alloc size align).2.base = s.base := by
  unfold alloc
  split_ifs
  · rfl
  split
  · rfl
  split_ifs <;> rfl

/-- The block has the alignment it was asked for with. -/
theorem reachable_base {r : Run} (h : Reachable system r) : maxAlign ∣ r.arena.base := by
  refine h.induct (P := fun r => maxAlign ∣ r.arena.base) ?_ ?_
  · rintro r ⟨allocator, capacity, h, h', _, _, he⟩
    obtain ⟨b, hb, hs⟩ := init_ok he
    rw [hs]
    exact allocator.addr_dvd hb (by decide)
  · intro r c r' hr hs
    cases c with
    | reset =>
      cases hs
      exact hr
    | alloc size align =>
      have hbase := alloc_base r.arena size align
      replace hs : r.step (.alloc size align) = some r' := hs
      simp only [Run.step] at hs
      split_ifs at hs
      split at hs
      · rename_i a he
        cases hs
        rw [he] at hbase
        show maxAlign ∣ a.base
        rw [hbase]
        exact hr
      · rename_i p a he
        cases hs
        rw [he] at hbase
        show maxAlign ∣ a.base
        rw [hbase]
        exact hr

/-- **Addresses and alignment.** In every state reached from a successful init by any calls, and for
an alignment that is a power of two: the pointer a call returns is aligned exactly if the block is,
or if the call returns none because its size is zero or nothing fits.  The offset is rounded, not
the address. -/
theorem alloc_aligned_iff {r : Run} (h : Reachable system r) {size align : ℕ} (ha : align < 2 ^ 64)
    (hp : align.isPowerOfTwo) :
    maxAlign ∣ r.arena.base ∧
    ((∀ p, (r.arena.alloc size align).1 = some p → align ∣ p) ↔
      align ∣ r.arena.base ∨ size = 0 ∨ ∀ o, ¬r.arena.Fits size align o) := by
  have hV := (reachable_inv h).valid
  have hpos : 0 < align := Nat.pos_of_isPowerOfTwo hp
  have heff : effAlign align = align := if_neg (by omega)
  refine ⟨reachable_base h, ?_⟩
  by_cases hsize : size = 0
  · refine iff_of_true (fun p hp => ?_) (Or.inr (Or.inl hsize))
    rw [alloc, if_pos hsize] at hp
    cases hp
  obtain ⟨hsome, hleast⟩ := alloc_exact hV ha (Nat.pos_of_ne_zero hsize) (Or.inr hp)
  constructor
  · intro hall
    by_cases hfits : ∃ o, r.arena.Fits size align o
    · obtain ⟨p, hres⟩ := Option.isSome_iff_exists.mp (hsome.mpr hfits)
      obtain ⟨o, ho, rfl, _⟩ := hleast p hres
      have hd := ho.1.2.1
      rw [heff] at hd
      exact Or.inl ((Nat.dvd_add_left hd).mp (hall _ hres))
    · exact Or.inr (Or.inr (not_exists.mp hfits))
  · rintro (hbase | hz | hno) p hres
    · obtain ⟨o, ho, rfl, _⟩ := hleast p hres
      have hd := ho.1.2.1
      rw [heff] at hd
      exact hbase.add hd
    · exact absurd hz hsize
    · obtain ⟨o, ho, _⟩ := hleast p hres
      exact absurd ho.1 (hno o)

/-- A call with an alignment of 16 on an arena of 64 bytes at `4096`. -/
theorem alloc_aligned_iff_sixteen :
    ∃ r, Reachable system r ∧ ∀ p, (r.arena.alloc 8 16).1 = some p → 16 ∣ p := by
  have h0 : system.init ⟨⟨pageAllocator, 4096, 64, 0⟩, []⟩ :=
    ⟨pageAllocator, 64, ⟨0, []⟩, _, by norm_num, rfl, rfl⟩
  have hr := Reachable.init h0
  exact ⟨_, hr, (alloc_aligned_iff hr (by norm_num) ⟨4, rfl⟩).2.mpr (Or.inl (by decide))⟩

/-- A call with an alignment of 8192 on the same arena returns `4096`. -/
theorem alloc_not_aligned :
    ∃ r, Reachable system r ∧ Nat.isPowerOfTwo 8192 ∧ (r.arena.alloc 8 8192).1 = some 4096 ∧
      ¬8192 ∣ 4096 := by
  have h0 : system.init ⟨⟨pageAllocator, 4096, 64, 0⟩, []⟩ :=
    ⟨pageAllocator, 64, ⟨0, []⟩, _, by norm_num, rfl, rfl⟩
  exact ⟨_, Reachable.init h0, ⟨13, rfl⟩, rfl, by decide⟩

end Arena

end D4np
