import D4np.Core.Allocator
import D4np.Lib.ByteMem
import D4np.Lib.Chain
import D4np.Lib.TransitionSystem
import Mathlib.Tactic

/-!
# The fixed-block pool

One backing block cut into slots; the free slots are threaded into a list whose links are stored
in the slots themselves.  The memory is bytes, so a client that writes into a slot it holds writes
over whatever link was there.  A run (`Run`) keeps the slots handed out and not yet returned; the
invariant (`Run.Inv`) is that the chain of links from `free_list` and the outstanding slots together
are a permutation of all slots.
-/

namespace D4np

open Word64 ByteMem Links TransitionSystem

/-- `d4np_pool_t`; a null pointer is zero. -/
structure Pool where
  allocator : Allocator
  base : ℕ
  freeList : ℕ
  stride : ℕ
  blockCount : ℕ
  totalSize : ℕ
  freeCount : ℕ

namespace Pool

/-- The loop of `d4np_pool_init` that threads the free list, from slot `i - 1` down to slot 0. -/
def threadFreeList (base stride : ℕ) : ℕ → ℕ → Mem → ℕ × Mem
  | 0, head, m => (head, m)
  | i + 1, head, m =>
    let node := base + wrap (i * stride)
    threadFreeList base stride i node (storeWord m node head)

/-- The bytes a slot needs: the block, or the link if that is longer. -/
def slotSize (blockSize : ℕ) : ℕ := if blockSize < ptrSize then ptrSize else blockSize

/-- `d4np_pool_init`: the status, the pool when it is built, and the memory and heap after it. -/
def init (allocator : Allocator) (blockSize blockCount : ℕ) (m : Mem) (h : Heap) :
    Status × Option Pool × Mem × Heap :=
  if blockSize = 0 ∨ blockCount = 0 then (.errInvalidArgument, none, m, h)
  else
    let slot := slotSize blockSize
    let stride := roundUp slot maxAlign
    if stride < slot then (.errOverflow, none, m, h)
    else if stride ≠ 0 ∧ blockCount > sizeMax / stride then (.errOverflow, none, m, h)
    else
      let total := wrap (stride * blockCount)
      match d4npAlloc allocator total maxAlign h with
      | (none, h) => (.errOutOfMemory, none, m, h)
      | (some block, h) =>
        let (head, m) := threadFreeList block.addr stride blockCount 0 m
        (.ok, some ⟨allocator, block.addr, head, stride, blockCount, total, blockCount⟩, m, h)

/-- `d4np_pool_alloc`: the slot returned (`none` for `NULL`) and the pool after the call. -/
def alloc (p : Pool) (m : Mem) : Option ℕ × Pool :=
  if p.freeList = 0 then (none, p)
  else
    (some p.freeList,
      { p with freeList := loadWord m p.freeList, freeCount := sub p.freeCount 1 })

/-- The three assertions of `d4np_pool_free`. -/
def FreeAsserts (p : Pool) (ptr : ℕ) : Prop :=
  p.base ≤ ptr ∧ ptr < p.base + p.totalSize ∧ (ptr - p.base) % p.stride = 0

instance (p : Pool) (ptr : ℕ) : Decidable (p.FreeAsserts ptr) :=
  inferInstanceAs (Decidable (_ ∧ _ ∧ _))

/-- `d4np_pool_free`; `none` where an assertion stops the program. -/
def free (p : Pool) (ptr : ℕ) (m : Mem) : Option (Pool × Mem) :=
  if ptr = 0 then some (p, m)
  else if p.FreeAsserts ptr then
    some ({ p with freeList := ptr, freeCount := wrap (p.freeCount + 1) },
      storeWord m ptr p.freeList)
  else none

/-- `d4np_pool_destroy`. -/
def destroy (p : Pool) (h : Heap) : Pool × Heap :=
  if p.base = 0 then (p, h)
  else
    (⟨p.allocator, 0, 0, 0, 0, 0, 0⟩, d4npFree (some p.base) p.totalSize h)

/-- `d4np_pool_available`. -/
def available (p : Pool) : ℕ := p.freeCount

/-! ## Geometry -/

/-- The address of slot `i`. -/
def slotAddr (p : Pool) (i : ℕ) : ℕ := p.base + i * p.stride

/-- All slots, in the order of their addresses. -/
def slots (p : Pool) : List ℕ := (List.range p.blockCount).map p.slotAddr

/-- The layout `d4np_pool_init` establishes for `blockSize` and no operation changes. -/
structure Layout (p : Pool) (blockSize : ℕ) : Prop where
  base_pos : 0 < p.base
  base_le : p.base + p.totalSize ≤ 2 ^ 64
  total_eq : p.totalSize = p.stride * p.blockCount
  stride_ge : ptrSize ≤ p.stride
  block_le : blockSize ≤ p.stride

variable {p : Pool} {blockSize : ℕ}

/-- Slots of different index lie at least a stride apart. -/
theorem slotAddr_disjoint {i j : ℕ} (h : i ≠ j) :
    p.slotAddr i + p.stride ≤ p.slotAddr j ∨ p.slotAddr j + p.stride ≤ p.slotAddr i := by
  have := span_disjoint h (le_refl p.stride)
  unfold slotAddr
  omega

theorem mem_slots {x : ℕ} : x ∈ p.slots ↔ ∃ i < p.blockCount, x = p.slotAddr i := by
  simp [slots, eq_comm]

/-- Different slots do not overlap. -/
theorem slots_disjoint {x y : ℕ} (hx : x ∈ p.slots) (hy : y ∈ p.slots) (h : x ≠ y) :
    x + p.stride ≤ y ∨ y + p.stride ≤ x := by
  obtain ⟨i, _, rfl⟩ := mem_slots.mp hx
  obtain ⟨j, _, rfl⟩ := mem_slots.mp hy
  exact slotAddr_disjoint fun e => h (by rw [e])

namespace Layout

theorem stride_pos (h : p.Layout blockSize) : 0 < p.stride := by
  have := h.stride_ge
  unfold ptrSize at this
  omega

/-- A slot lies inside the block. -/
theorem slot_inside (h : p.Layout blockSize) {x : ℕ} (hx : x ∈ p.slots) :
    p.base ≤ x ∧ x + p.stride ≤ p.base + p.totalSize := by
  obtain ⟨i, hi, rfl⟩ := mem_slots.mp hx
  have := span_end_le hi p.stride
  rw [Nat.mul_comm p.blockCount] at this
  unfold slotAddr
  rw [h.total_eq]
  omega

theorem slot_pos (h : p.Layout blockSize) {x : ℕ} (hx : x ∈ p.slots) : 0 < x := by
  have := (h.slot_inside hx).1
  have := h.base_pos
  omega

theorem slot_lt (h : p.Layout blockSize) {x : ℕ} (hx : x ∈ p.slots) : x < 2 ^ 64 := by
  have := (h.slot_inside hx).2
  have := h.base_le
  have := h.stride_pos
  omega

theorem slots_nodup (h : p.Layout blockSize) : p.slots.Nodup := by
  refine List.Nodup.map ?_ List.nodup_range
  intro i j hij
  by_contra hne
  have := h.stride_pos
  rcases slotAddr_disjoint (p := p) hne with hd | hd <;> omega

/-- The number of slots is a word. -/
theorem blockCount_lt (h : p.Layout blockSize) : p.blockCount < 2 ^ 64 := by
  have h1 := h.base_le
  have h2 := h.base_pos
  have h3 := Nat.mul_le_mul_right p.blockCount h.stride_pos
  rw [h.total_eq] at h1
  omega

/-- The three assertions hold of every slot. -/
theorem freeAsserts (h : p.Layout blockSize) {x : ℕ} (hx : x ∈ p.slots) : p.FreeAsserts x := by
  have hin := h.slot_inside hx
  have := h.stride_pos
  obtain ⟨i, _, rfl⟩ := mem_slots.mp hx
  refine ⟨hin.1, by omega, ?_⟩
  unfold slotAddr
  rw [Nat.add_sub_cancel_left, Nat.mul_mod_left]

end Layout

/-! ## Initialization -/

/-- The threading loop puts the slots below `i` in front of a chain of higher slots. -/
theorem threadFreeList_chain (base : ℕ) {stride : ℕ} (hstride : ptrSize ≤ stride) :
    ∀ (i head : ℕ) (m : Mem) (l : List ℕ), base + i * stride ≤ 2 ^ 64 → head < 2 ^ 64 →
      (∀ x ∈ l, base + i * stride ≤ x) → Chain (loadWord m) head l 0 →
      Chain (loadWord (threadFreeList base stride i head m).2)
        (threadFreeList base stride i head m).1
        ((List.range i).map (fun j => base + j * stride) ++ l) 0 := by
  intro i
  induction i with
  | zero => intro head m l _ _ _ hc; exact hc
  | succ i ih =>
    intro head m l hi hhead hl hc
    unfold ptrSize at hstride
    rw [Nat.add_mul, Nat.one_mul] at hi hl
    have hw : wrap (i * stride) = i * stride := wrap_of_lt (by omega)
    unfold threadFreeList
    simp only [hw]
    have hcons : Chain (loadWord (storeWord m (base + i * stride) head)) (base + i * stride)
        ((base + i * stride) :: l) 0 := by
      refine ⟨rfl, ?_⟩
      rw [loadWord_storeWord m _ hhead]
      refine hc.congr fun x hx => (loadWord_storeWord_of_disjoint m ?_).symm
      have := hl x hx
      omega
    have hge : ∀ x ∈ (base + i * stride) :: l, base + i * stride ≤ x := by
      intro x hx
      rcases List.mem_cons.mp hx with rfl | hx
      · exact le_refl _
      · have := hl x hx
        omega
    have := ih _ _ _ (by omega) (by omega) hge hcons
    rwa [List.range_succ, List.map_append, List.append_assoc]

/-- A successful init has checked the rounding and the product, and got its block. -/
theorem init_ok {allocator : Allocator} {blockSize blockCount : ℕ} {m m' : Mem} {h h' : Heap}
    {p : Pool}
    (he : Pool.init allocator blockSize blockCount m h = (.ok, some p, m', h')) :
    p.Layout blockSize ∧ p.freeCount = p.blockCount ∧ p.blockCount = blockCount ∧
      Chain (loadWord m') p.freeList p.slots 0 := by
  have hslot8 : ptrSize ≤ slotSize blockSize := by unfold slotSize; split_ifs <;> omega
  have hslotb : blockSize ≤ slotSize blockSize := by unfold slotSize; split_ifs <;> omega
  simp only [Pool.init, d4npAlloc] at he
  generalize roundUp (slotSize blockSize) maxAlign = stride at he
  split_ifs at he with h0 h1 h2
  · simp at he
  · simp at he
  · simp at he
  rcases hal : allocator.alloc h.requests (wrap (stride * blockCount)) maxAlign with _ | b
  · simp [hal] at he
  simp only [hal, Prod.mk.injEq, Option.some.injEq, true_and] at he
  obtain ⟨rfl, rfl, -⟩ := he
  have hpos := allocator.addr_pos hal
  have hle := allocator.addr_le hal
  have hs8 : ptrSize ≤ stride := by omega
  have hspos : 0 < stride := by unfold ptrSize at hs8; omega
  have hprod : stride * blockCount < 2 ^ 64 := by
    have hcount : blockCount ≤ sizeMax / stride := by
      by_contra hgt
      exact h2 ⟨hspos.ne', by omega⟩
    have := (Nat.le_div_iff_mul_le hspos).mp hcount
    rw [Nat.mul_comm] at this
    unfold sizeMax Word64.maxWord at this
    omega
  rw [wrap_of_lt hprod] at hle ⊢
  refine ⟨⟨hpos, hle, rfl, hs8, hslotb.trans (not_lt.mp h1)⟩, rfl, rfl, ?_⟩
  have hc := threadFreeList_chain b.addr hs8 blockCount 0 m [] (by rwa [Nat.mul_comm])
    (by norm_num) (by simp) rfl
  rwa [List.append_nil] at hc

/-! ## Runs -/

/-- A pool in use: the memory, the slots handed out and not yet returned, and the block size the
pool was built for. -/
structure Run where
  pool : Pool
  mem : Mem
  outstanding : List ℕ
  blockSize : ℕ

/-- What can happen: an allocation, the release of a slot, a byte written by a client. -/
inductive Event
  | alloc
  | free (ptr : ℕ)
  | write (addr : ℕ) (byte : UInt8)

/-- The address lies in a slot the client holds. -/
def Run.Held (r : Run) (addr : ℕ) : Prop :=
  ∃ x ∈ r.outstanding, x ≤ addr ∧ addr < x + r.pool.stride

instance (r : Run) (addr : ℕ) : Decidable (r.Held addr) :=
  inferInstanceAs (Decidable (∃ x ∈ r.outstanding, x ≤ addr ∧ addr < x + r.pool.stride))

/-- One event. Only outstanding slots are freed, and clients write only into slots they hold. -/
def Run.step (r : Run) : Event → Option Run
  | .alloc =>
    match r.pool.alloc r.mem with
    | (none, p) => some { r with pool := p }
    | (some x, p) => some { r with pool := p, outstanding := x :: r.outstanding }
  | .free ptr =>
    if ptr ∈ r.outstanding then
      (r.pool.free ptr r.mem).map fun (p, m) =>
        { r with pool := p, mem := m, outstanding := r.outstanding.erase ptr }
    else none
  | .write addr byte =>
    if r.Held addr then some { r with mem := Function.update r.mem addr byte } else none

/-- The runs that start from a successful `d4np_pool_init`. -/
def system : System Run Event where
  init r := ∃ allocator blockCount m h h', r.blockSize < 2 ^ 64 ∧ blockCount < 2 ^ 64 ∧
    r.outstanding = [] ∧
    Pool.init allocator r.blockSize blockCount m h = (.ok, some r.pool, r.mem, h')
  step := Run.step

/-- `l` is the free list of the run: the chain from `free_list` to `NULL`, which together with the
outstanding slots makes up all slots. -/
structure Run.FreeList (r : Run) (l : List ℕ) : Prop where
  chain : Chain (loadWord r.mem) r.pool.freeList l 0
  perm : (l ++ r.outstanding).Perm r.pool.slots
  count : r.pool.freeCount = l.length

/-- The invariant of the runs. -/
structure Run.Inv (r : Run) : Prop where
  layout : r.pool.Layout r.blockSize
  freeList : ∃ l, r.FreeList l

namespace Run

variable {r r' : Run} {l : List ℕ}

theorem FreeList.mem_slots_of_mem (hl : r.FreeList l) {x : ℕ} (hx : x ∈ l) : x ∈ r.pool.slots :=
  hl.perm.mem_iff.mp (List.mem_append_left _ hx)

theorem FreeList.outstanding_mem_slots (hl : r.FreeList l) {x : ℕ} (hx : x ∈ r.outstanding) :
    x ∈ r.pool.slots :=
  hl.perm.mem_iff.mp (List.mem_append_right _ hx)

theorem FreeList.nodup (hl : r.FreeList l) (hL : r.pool.Layout r.blockSize) :
    (l ++ r.outstanding).Nodup :=
  hl.perm.nodup_iff.mpr hL.slots_nodup

theorem FreeList.length (hl : r.FreeList l) :
    l.length + r.outstanding.length = r.pool.blockCount := by
  have := hl.perm.length_eq
  simpa [slots] using this

/-- The head is null exactly when nothing is free. -/
theorem FreeList.head_eq_zero_iff (hl : r.FreeList l) (hL : r.pool.Layout r.blockSize) :
    r.pool.freeList = 0 ↔ l = [] := by
  have hc := hl.chain
  cases l with
  | nil => exact ⟨fun _ => rfl, fun _ => hc⟩
  | cons x l =>
    have hpos := hL.slot_pos (hl.mem_slots_of_mem (List.mem_cons_self (a := x)))
    refine ⟨fun h => ?_, fun h => by simp at h⟩
    have hx : r.pool.freeList = x := hc.1
    omega

/-- A free slot and an outstanding one do not overlap. -/
theorem FreeList.apart (hl : r.FreeList l) (hL : r.pool.Layout r.blockSize) {x y : ℕ} (hx : x ∈ l)
    (hy : y ∈ r.outstanding) : x + r.pool.stride ≤ y ∨ y + r.pool.stride ≤ x := by
  refine slots_disjoint (hl.mem_slots_of_mem hx) (hl.outstanding_mem_slots hy) ?_
  rintro rfl
  exact (List.nodup_append.mp (hl.nodup hL)).2.2 x hx x hy rfl

/-- What an allocation does: nothing when no slot is free, else it takes the first free one. -/
theorem alloc_cases (hl : r.FreeList l) (hL : r.pool.Layout r.blockSize) :
    (l = [] ∧ r.pool.alloc r.mem = (none, r.pool)) ∨
    ∃ x l', l = x :: l' ∧ r.pool.alloc r.mem = (some x,
      { r.pool with freeList := loadWord r.mem x, freeCount := l'.length }) := by
  have hz := hl.head_eq_zero_iff hL
  have hcount := hl.length
  have hlt := hL.blockCount_lt
  unfold Pool.alloc
  cases l with
  | nil => exact Or.inl ⟨rfl, if_pos (hz.mpr rfl)⟩
  | cons x l' =>
    right
    have hx : r.pool.freeList = x := hl.chain.1
    rw [List.length_cons] at hcount
    refine ⟨x, l', rfl, ?_⟩
    rw [if_neg (by rw [hz]; simp), hx, hl.count, List.length_cons, sub_one (by omega) (by omega),
      Nat.add_sub_cancel]

theorem alloc_inv (hI : r.Inv) (hs : r.step .alloc = some r') : r'.Inv := by
  obtain ⟨l, hl⟩ := hI.freeList
  rcases alloc_cases hl hI.layout with ⟨rfl, he⟩ | ⟨x, l', rfl, he⟩
  · simp only [Run.step, he, Option.some.injEq] at hs
    rw [← hs]
    exact hI
  · simp only [Run.step, he, Option.some.injEq] at hs
    rw [← hs]
    refine ⟨⟨hI.layout.base_pos, hI.layout.base_le, hI.layout.total_eq, hI.layout.stride_ge,
      hI.layout.block_le⟩, l', hl.chain.2, ?_, rfl⟩
    exact List.perm_middle.trans hl.perm

theorem free_inv {ptr : ℕ} (hI : r.Inv) (hs : r.step (.free ptr) = some r') : r'.Inv := by
  obtain ⟨l, hl⟩ := hI.freeList
  simp only [Run.step] at hs
  split_ifs at hs with hmem
  have hslot := hl.outstanding_mem_slots hmem
  have hpos := hI.layout.slot_pos hslot
  have hcount := hl.length
  have hlt := hI.layout.blockCount_lt
  have hout := List.length_pos_of_mem hmem
  have h8 := hI.layout.stride_ge
  rw [Pool.free, if_neg (by omega), if_pos (hI.layout.freeAsserts hslot)] at hs
  simp only [Option.map_some, Option.some.injEq] at hs
  rw [← hs]
  refine ⟨⟨hI.layout.base_pos, hI.layout.base_le, hI.layout.total_eq, hI.layout.stride_ge,
    hI.layout.block_le⟩, ptr :: l, ⟨rfl, ?_⟩, ?_, ?_⟩
  · -- the link of the returned slot is the old head, and no other free slot is touched
    have hhead : r.pool.freeList < 2 ^ 64 := by
      have hc := hl.chain
      cases l with
      | nil =>
        have h0 : r.pool.freeList = 0 := hc
        omega
      | cons y l =>
        rw [show r.pool.freeList = y from hc.1]
        exact hI.layout.slot_lt (hl.mem_slots_of_mem List.mem_cons_self)
    show Chain (loadWord (storeWord r.mem ptr r.pool.freeList)) _ l 0
    rw [loadWord_storeWord _ _ hhead]
    refine hl.chain.congr fun x hx => (loadWord_storeWord_of_disjoint _ ?_).symm
    have := hl.apart hI.layout hx hmem
    unfold ptrSize at h8
    omega
  · have hp : (ptr :: r.outstanding.erase ptr).Perm r.outstanding :=
      (List.perm_cons_erase hmem).symm
    show (ptr :: (l ++ r.outstanding.erase ptr)).Perm r.pool.slots
    exact (List.perm_middle.symm.trans (hp.append_left l)).trans hl.perm
  · show wrap (r.pool.freeCount + 1) = l.length + 1
    rw [hl.count, wrap_of_lt (by omega)]

theorem write_inv {addr : ℕ} {byte : UInt8} (hI : r.Inv)
    (hs : r.step (.write addr byte) = some r') : r'.Inv := by
  obtain ⟨l, hl⟩ := hI.freeList
  simp only [Run.step] at hs
  split_ifs at hs with hheld
  cases hs
  obtain ⟨y, hy, hle, hlt⟩ := hheld
  refine ⟨hI.layout, l, ?_, hl.perm, hl.count⟩
  -- a byte of an outstanding slot is no byte of a link
  refine hl.chain.congr fun x hx => loadWord_congr fun j hj => ?_
  have hap := hl.apart hI.layout hx hy
  have h8 := hI.layout.stride_ge
  unfold ptrSize at h8
  show r.mem (x + j) = Function.update r.mem addr byte (x + j)
  rw [Function.update_of_ne (by omega)]

theorem step_inv {e : Event} (hI : r.Inv) (hs : r.step e = some r') : r'.Inv := by
  cases e with
  | alloc => exact alloc_inv hI hs
  | free ptr => exact free_inv hI hs
  | write addr byte => exact write_inv hI hs

theorem init_inv (h : system.init r) : r.Inv := by
  obtain ⟨allocator, blockCount, m, h, h', _, _, hout, he⟩ := h
  obtain ⟨hL, hcount, _, hc⟩ := init_ok he
  refine ⟨hL, r.pool.slots, hc, ?_, ?_⟩
  · rw [hout, List.append_nil]
  · rw [hcount]
    simp [slots]

theorem reachable_inv (h : Reachable system r) : r.Inv :=
  h.induct (fun _ => init_inv) (fun _ _ _ => step_inv)

end Run

/-- Two slots share no byte. -/
def DisjointSlots (p : Pool) (x y : ℕ) : Prop := x + p.stride ≤ y ∨ y + p.stride ≤ x

/-- **The pool over whole runs.** In every state reached from a successful init, whatever clients
wrote into the slots they hold: the free list is a chain to `NULL` that visits each slot not
outstanding once and no other address; `free_count` is its length, and what is left of `block_count`
after the outstanding slots; an allocation returns `NULL` exactly when every slot is outstanding,
and else a slot that is not; the outstanding slots, with the one an allocation would return, are
slots of the block that hold the block size and do not overlap; and the assertions of
`d4np_pool_free` hold of each outstanding slot. -/
theorem pool_run_correct {r : Run} (h : Reachable system r) :
    (∃ l, Chain (loadWord r.mem) r.pool.freeList l 0 ∧ l.Nodup ∧
      (∀ x, x ∈ l ↔ x ∈ r.pool.slots ∧ x ∉ r.outstanding) ∧ r.pool.freeCount = l.length) ∧
    r.pool.freeCount + r.outstanding.length = r.pool.blockCount ∧
    ((r.pool.alloc r.mem).1 = none ↔ r.outstanding.length = r.pool.blockCount) ∧
    (∀ x, (r.pool.alloc r.mem).1 = some x → x ∉ r.outstanding) ∧
    (∀ x, x ∈ r.outstanding ∨ (r.pool.alloc r.mem).1 = some x →
      r.pool.stride ∣ x - r.pool.base ∧ r.pool.base ≤ x ∧
      x + r.pool.stride ≤ r.pool.base + r.pool.totalSize ∧ r.blockSize ≤ r.pool.stride ∧
      ∀ y ∈ r.outstanding, x ≠ y → DisjointSlots r.pool x y) ∧
    ∀ x ∈ r.outstanding, r.pool.FreeAsserts x := by
  have hI := Run.reachable_inv h
  obtain ⟨l, hl⟩ := hI.freeList
  have hnd := List.nodup_append.mp (hl.nodup hI.layout)
  have hlen := hl.length
  have hcount := hl.count
  have halloc := Run.alloc_cases hl hI.layout
  -- a slot the next allocation would return is the first of the free list
  have hfree : ∀ x, (r.pool.alloc r.mem).1 = some x → x ∈ l := by
    intro x hx
    rcases halloc with ⟨_, he⟩ | ⟨y, l', rfl, he⟩
    · rw [he] at hx; simp at hx
    · rw [he] at hx
      cases hx
      exact List.mem_cons_self
  have hslot : ∀ x, x ∈ r.outstanding ∨ (r.pool.alloc r.mem).1 = some x → x ∈ r.pool.slots := by
    rintro x (hx | hx)
    · exact hl.outstanding_mem_slots hx
    · exact hl.mem_slots_of_mem (hfree x hx)
  refine ⟨⟨l, hl.chain, hnd.1, fun x => ⟨fun hx => ?_, fun hx => ?_⟩, hcount⟩, by omega, ?_, ?_, ?_,
    fun x hx => hI.layout.freeAsserts (hl.outstanding_mem_slots hx)⟩
  · exact ⟨hl.mem_slots_of_mem hx, fun hy => hnd.2.2 x hx x hy rfl⟩
  · exact (List.mem_append.mp (hl.perm.mem_iff.mpr hx.1)).resolve_right hx.2
  · rcases halloc with ⟨rfl, he⟩ | ⟨y, l', rfl, he⟩
    · rw [he]
      simp only [List.length_nil] at hlen
      simpa using hlen
    · rw [he]
      simp only [List.length_cons] at hlen
      simp
      omega
  · intro x hx hout
    exact hnd.2.2 x (hfree x hx) x hout rfl
  · intro x hx
    have hs := hslot x hx
    have hin := hI.layout.slot_inside hs
    refine ⟨?_, hin.1, hin.2, hI.layout.block_le,
      fun y hy hne => slots_disjoint hs (hl.outstanding_mem_slots hy) hne⟩
    obtain ⟨i, _, rfl⟩ := mem_slots.mp hs
    unfold slotAddr
    rw [Nat.add_sub_cancel_left]
    exact Nat.dvd_mul_left _ _

/-- Three slots of 32 bytes: two are taken, the client overwrites the link of the first and returns
it, and the assertions hold of the slot still out. -/
theorem pool_run_correct_three_slots :
    ∃ r, Reachable system r ∧ r.outstanding = [4128] ∧ r.pool.freeCount = 2 ∧
      r.pool.FreeAsserts 4128 := by
  obtain ⟨p, m, h', hinit⟩ : ∃ p m h', Pool.init pageAllocator 24 3 (fun _ => 0) ⟨0, []⟩ =
      (.ok, some p, m, h') := ⟨_, _, _, rfl⟩
  have h0 : Reachable system ⟨p, m, [], 24⟩ :=
    .init ⟨pageAllocator, 3, fun _ => 0, ⟨0, []⟩, h', by norm_num, by norm_num, rfl, hinit⟩
  have hrun : (system.run ⟨p, m, [], 24⟩ [.alloc, .write 4100 7, .alloc, .free 4096]).map
      (fun r => (r.outstanding, r.pool.freeCount)) = some ([4128], 2) := by
    cases hinit
    rfl
  obtain ⟨r, hr, heq⟩ := Option.map_eq_some_iff.mp hrun
  obtain ⟨hout, hfree⟩ := Prod.mk.inj heq
  have hreach := h0.run hr
  refine ⟨r, hreach, hout, hfree, (pool_run_correct hreach).2.2.2.2.2 4128 ?_⟩
  rw [hout]
  exact List.mem_singleton.mpr rfl

end Pool

end D4np
