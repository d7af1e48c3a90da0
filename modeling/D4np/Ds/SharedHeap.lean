import D4np.Core.DefaultAllocator
import D4np.Ds.Amortized
import D4np.Ds.HashmapStride
import D4np.Ds.Release
import D4np.Ds.RingBuffer
import D4np.Mem.Arena
import D4np.Mem.Pool

/-!
# Containers that share the default allocator

Vectors, string builders, hash maps, arenas, pools and ring buffers ask for their memory through an
allocator, and all those of a process that were given none share the default one.  Each of them is
careful: it never asks for nothing, and it names live blocks.  So the requests of any number of
containers, of all threads of a process in whatever order, keep the C library's behaviour defined,
and its heap holds the blocks of the containers and nothing else.
-/

namespace D4np

open Word64 TransitionSystem

variable {a : Allocator}

/-! ## The vector -/

namespace Vec

variable {es : ℕ} {v : Vec es} {heap : Heap}

/-- The ledger of a vector. -/
def Ledger (heap : Heap) (v : Vec es) : Prop := Booked heap.log (block v.data (v.capacity * es))

theorem Ledger.reserve (hl : Ledger heap v) (h : Wf v) (n : ℕ) :
    Ledger (v.reserve n heap).2.2 (v.reserve n heap).2.1 := by
  have hfit := h.fits
  have hw : wrap (v.capacity * es) = v.capacity * es := wrap_of_lt (by omega)
  by_cases hask : v.capacity < n ∧ n ≤ sizeMax / es
  · have hmul := (Nat.le_div_iff_mul_le h.pos).mp hask.2
    have hn : wrap (n * es) = n * es := by
      unfold sizeMax Word64.maxWord at hmul
      exact wrap_of_lt (by omega)
    have hpos : 0 < n * es := Nat.mul_pos (by omega) h.pos
    have hr := Booked.realloc hl hpos (le_refl maxAlign)
    rcases reserve_cases v n heap with ⟨_, he⟩ | he | he | ⟨b, _, _, _, he⟩
    · rw [he]
      exact hl
    · rw [he]
      exact hl
    · rw [he, hw, hn]
      exact hr.1
    · rw [he, hw, hn]
      exact hr.2 b.addr
  · -- nothing is asked for
    have he : (v.reserve n heap).2 = (v, heap) := by
      unfold Vec.reserve
      split_ifs
      · rfl
      · rfl
      · exact absurd ⟨by omega, by omega⟩ hask
    rw [he]
    exact hl

theorem Ledger.step {r : Run es} (hl : Ledger r.heap r.vec) (h : Wf r.vec) (c : Call es) :
    Ledger (r.step c).heap (r.step c).vec := by
  cases c with
  | reserve n => exact hl.reserve h n
  | push e =>
    exact push_induct (P := fun v heap => Ledger heap v) hl (hl.reserve h r.vec.grown)
      (fun hl _ => hl) e
  | pop out =>
    show Booked r.heap.log (block (r.vec.pop out).2.2.data ((r.vec.pop out).2.2.capacity * es))
    by_cases hlen : r.vec.len = 0
    · rw [pop_empty hlen]
      exact hl
    · obtain ⟨v', he, _, _, hd, hc, _⟩ := h.pop hlen out
      rw [he, hd, hc]
      exact hl
  | atIndex i => exact hl
  | len => exact hl
  | capacity => exact hl
  | isEmpty => exact hl
  | clear => exact hl

theorem reachable_ledger (ha : a.Bounded) {requests : ℕ} {r : Run es}
    (h : Reachable (system a es ⟨requests, []⟩) r) : Ledger r.heap r.vec := by
  refine h.induct_of (P := fun r => Ledger r.heap r.vec) (fun _ hr => reachable_inv ha hr) ?_ ?_
  · rintro r ⟨n, rc, _, hi, _⟩
    obtain ⟨hes, he | he⟩ := init_cases hi
    · cases r
      cases he
      exact Booked.nil
    · have h0 : Ledger ⟨requests, []⟩ (⟨a, none, fun _ => 0, 0, 0⟩ : Vec es) := Booked.nil
      have hr := h0.reserve (empty_wf a hes) n
      rw [he] at hr
      exact hr
  · intro r c t hI hr hs
    cases hs
    exact hr.step hI.wf c

theorem Ledger.destroy (hl : Ledger heap v) (h : Wf v) : Booked (v.destroy heap).2.log [] := by
  have hfit := h.fits
  unfold Vec.destroy
  by_cases hd : v.data = none
  · rw [if_pos hd]
    rw [Ledger, hd] at hl
    exact hl
  · rw [if_neg hd, wrap_of_lt (show v.capacity * es < 2 ^ 64 by omega)]
    exact hl.free (by rw [List.append_nil])

end Vec

/-! ## The string builder -/

namespace StringBuilder

variable {sb : StringBuilder} {heap : Heap}

/-- The ledger of a builder. -/
def Ledger (heap : Heap) (sb : StringBuilder) : Prop := Booked heap.log (block sb.data sb.capacity)

theorem newcap_pos (sb : StringBuilder) (needed : ℕ) : 0 < sb.newcap needed := by
  unfold newcap
  refine Nat.lt_of_lt_of_le ?_ (growLoop_bounds needed 64 _).1
  split_ifs with hz
  · decide
  · omega

theorem Ledger.ensure (hl : Ledger heap sb) (needed : ℕ) :
    Ledger (sb.ensure needed heap).2.2 (sb.ensure needed heap).2.1 := by
  have hr := Booked.realloc hl (newcap_pos sb needed) (show 1 ≤ maxAlign by decide)
  rcases ensure_cases sb needed heap with ⟨_, he⟩ | he | ⟨b, _, _, he⟩
  · rw [he]
    exact hl
  · rw [he]
    exact hr.1
  · rw [he]
    exact hr.2 b.addr

/-- A call that writes into the buffer where it was granted the room. -/
theorem Ledger.ensure_then (hl : Ledger heap sb) (needed : ℕ) (f : StringBuilder → StringBuilder)
    (hf : ∀ heap sb, Ledger heap sb → Ledger heap (f sb)) :
    Ledger (match sb.ensure needed heap with
      | (.ok, sb, h) => ((.ok, f sb, h) : Status × StringBuilder × Heap)
      | (rc, sb, h) => (rc, sb, h)).2.2
    (match sb.ensure needed heap with
      | (.ok, sb, h) => ((.ok, f sb, h) : Status × StringBuilder × Heap)
      | (rc, sb, h) => (rc, sb, h)).2.1 := by
  have hr := hl.ensure needed
  rcases he : sb.ensure needed heap with ⟨rc, sb', heap'⟩
  rw [he] at hr
  cases rc with
  | ok => exact hf _ _ hr
  | _ => exact hr

theorem Ledger.appendView (hl : Ledger heap sb) (view : List UInt8) :
    Ledger (sb.appendView view heap).2.2 (sb.appendView view heap).2.1 := by
  unfold StringBuilder.appendView
  split_ifs
  · exact hl.ensure_then _ (fun sb => sb.terminate sb.len) fun _ _ h => h
  · exact hl
  · exact hl.ensure_then _ (fun sb => sb.write view) fun _ _ h => h

theorem Ledger.step {r : Run} (hl : Ledger r.heap r.sb) (c : Call) :
    Ledger (r.step c).heap (r.step c).sb := by
  cases c with
  | reserve n =>
    show Ledger (r.sb.reserve n r.heap).2.2 (r.sb.reserve n r.heap).2.1
    have hr := hl.ensure n
    unfold StringBuilder.reserve
    rcases he : r.sb.ensure n r.heap with ⟨rc, sb', heap'⟩
    rw [he] at hr
    simp only
    split_ifs
    · exact hr
    · exact hr
  | append cstr => exact hl.appendView (viewFromStr cstr)
  | appendView view => exact hl.appendView view
  | appendChar c => exact hl.ensure_then _ (fun sb => sb.write [c]) fun _ _ h => h
  | len => exact hl
  | clear =>
    show Ledger r.heap r.sb.clear
    unfold StringBuilder.clear
    by_cases hd : r.sb.data = none
    · rw [if_neg (not_not.mpr hd)]
      exact hl
    · rw [if_pos hd]
      exact hl

theorem reachable_ledger {requests : ℕ} {r : Run} (h : Reachable (system a ⟨requests, []⟩) r) :
    Ledger r.heap r.sb := by
  refine h.induct (P := fun r => Ledger r.heap r.sb) ?_ ?_
  · rintro r ⟨n, rc, _, hi, _⟩
    have h0 : Ledger ⟨requests, []⟩ (lazy a) := Booked.nil
    have hr : Ledger (init a n ⟨requests, []⟩).2.2 (init a n ⟨requests, []⟩).2.1 := by
      unfold StringBuilder.init
      split_ifs
      · exact h0.ensure_then n (fun sb => sb.terminate 0) fun _ _ h => h
      · exact h0
    rw [hi] at hr
    exact hr
  · intro r c t hr hs
    cases hs
    exact hr.step c

theorem Ledger.destroy (hl : Ledger heap sb) : Booked (sb.destroy heap).2.log [] := by
  unfold StringBuilder.destroy
  by_cases hd : sb.data = none
  · rw [if_pos hd]
    rw [Ledger, hd] at hl
    exact hl
  · rw [if_neg hd]
    exact hl.free (by rw [List.append_nil])

end StringBuilder

/-! ## The hash map -/

namespace Hashmap

variable {ks vs : ℕ} {m : Hashmap ks vs} {hash : Option (HashFn ks)} {keyEq : Option (KeyEqFn ks)}
  {heap : Heap}

/-- The spans of a table that the guard of `resize` lets pass are neither empty nor wrapped. -/
theorem Strides.span_pos (h : Strides m) {n : ℕ} (hn : 0 < n) (hk : n ≤ sizeMax / m.keyStride)
    (hv : n ≤ sizeMax / m.valueStride) :
    0 < wrap (n * m.keyStride) ∧ 0 < wrap (n * m.valueStride) := by
  have hkey : 0 < m.keyStride := Nat.lt_of_lt_of_le (by decide) h.key_ge
  have hvalue : 0 < m.valueStride := Nat.lt_of_lt_of_le (by decide) h.value_ge
  have hkmul := (Nat.le_div_iff_mul_le hkey).mp hk
  have hvmul := (Nat.le_div_iff_mul_le hvalue).mp hv
  unfold sizeMax Word64.maxWord at hkmul hvmul
  rw [wrap_of_lt (by omega), wrap_of_lt (by omega)]
  exact ⟨Nat.mul_pos hn hkey, Nat.mul_pos hn hvalue⟩

theorem resize_booked {n : ℕ} (hb : Booked heap.log m.blocks) (hs : Strides m) (hn : 0 < n) :
    Booked (m.resize n heap).2.2.log (m.resize n heap).2.1.blocks := by
  simp only [resize]
  split_ifs with hguard
  · exact hb
  obtain ⟨hkpos, hvpos⟩ := hs.span_pos hn (by omega) (by omega)
  have h1 := hb.alloc m.allocator hn (le_refl maxAlign)
  rcases hc : d4npAlloc m.allocator n maxAlign heap with ⟨nc, heap1⟩
  rw [hc] at h1
  have h2 := h1.alloc m.allocator hkpos (le_refl maxAlign)
  rcases hk : d4npAlloc m.allocator (wrap (n * m.keyStride)) maxAlign heap1 with ⟨nk, heap2⟩
  rw [hk] at h2
  have h3 := h2.alloc m.allocator hvpos (le_refl maxAlign)
  rcases hv : d4npAlloc m.allocator (wrap (n * m.valueStride)) maxAlign heap2 with ⟨nv, heap3⟩
  rw [hv] at h3
  -- what was granted is handed back, or takes the place of the old blocks
  have hback : Booked (d4npFree (nv.map Block.addr) (wrap (n * m.valueStride))
      (d4npFree (nk.map Block.addr) (wrap (n * m.keyStride))
        (d4npFree (nc.map Block.addr) n heap3))).log m.blocks := by
    refine ((h3.free ?_).free (List.perm_append_comm_assoc ..)).free (List.Perm.refl _)
    exact ((List.perm_append_comm_assoc ..).append_left _).trans (List.perm_append_comm_assoc ..)
  have hswap : Booked (d4npFree m.values (wrap (m.capacity * m.valueStride))
      (d4npFree m.keys (wrap (m.capacity * m.keyStride))
        (d4npFree m.control m.capacity heap3))).log
      (block (nc.map Block.addr) n ++ block (nk.map Block.addr) (wrap (n * m.keyStride)) ++
        block (nv.map Block.addr) (wrap (n * m.valueStride))) :=
    (((h3.perm (perm_swap ..)).free (List.Perm.refl _)).free (List.Perm.refl _)).free
      (List.Perm.refl _)
  rcases nc with _ | bc
  · exact hback
  rcases nk with _ | bk
  · exact hback
  rcases nv with _ | bv
  · exact hback
  obtain ⟨c, k, v, hframe⟩ := rehash_frame m (m.withTable n bc bk bv) m.capacity
  show Booked _ (m.rehash (m.withTable n bc bk bv) m.capacity).blocks
  rw [hframe]
  exact hswap

theorem Wf.grown_pos (h : Wf m) : 0 < m.grown := by
  by_cases hz : m.capacity = 0
  · rw [(h.lazy_used hz).2]
    decide
  · rw [h.grown_of_pos hz]
    omega

theorem reachable_booked (hks : ks ≤ sizeMax - maxAlign) (hvs : vs ≤ sizeMax - maxAlign)
    {requests : ℕ} {r : Run ks vs}
    (h : Reachable (systemFrom ks vs a hash keyEq ⟨requests, []⟩) r) :
    Booked r.heap.log r.map.blocks := by
  refine h.induct_of (P := fun r => Booked r.heap.log r.map.blocks)
    (fun _ hr => reachable_inv hks hvs (systemFrom_reachable hr)) ?_ ?_
  · rintro r ⟨n, rc, _, hi, _⟩
    have h0 : Booked (⟨requests, []⟩ : Heap).log
        (lazyMap a hash keyEq : Hashmap ks vs).blocks := Booked.nil
    unfold init at hi
    by_cases hz : ks = 0 ∨ vs = 0
    · rw [if_pos hz] at hi
      cases hi
    rw [if_neg hz] at hi
    by_cases hn : n > 0
    · have hs := (lazyMap_lazy a hash keyEq (by omega) (by omega) hks hvs :
        Lazy (lazyMap a hash keyEq : Hashmap ks vs)).toStrides
      have hr := resize_booked h0 hs (Nat.lt_of_lt_of_le (by decide) (eight_le_nextPow2 n))
      simp only [if_pos hn, Prod.mk.injEq, Option.some.injEq] at hi
      rw [hi.2.1, hi.2.2] at hr
      exact hr
    · simp only [if_neg hn, Prod.mk.injEq, Option.some.injEq] at hi
      rw [← hi.2.1, ← hi.2.2]
      exact h0
  · intro r c t hI hr hs
    cases hs
    apply Run.step_induct (P := fun m heap => Booked heap.log m.blocks) hr
      (resize_booked hr hI.wf.strides hI.wf.grown_pos)
    intro m m' heap hs hb
    rw [hs.blocks_eq]
    exact hb

theorem booked_destroy (hbare : Bare m) (hb : Booked heap.log m.blocks) :
    Booked (m.destroy heap).2.log [] := by
  unfold destroy
  by_cases hc : m.control = none
  · obtain ⟨hk, hv⟩ := hbare hc
    rw [if_pos hc]
    rw [blocks, hc, hk, hv] at hb
    exact hb
  · rw [if_neg hc]
    rw [blocks, List.append_assoc] at hb
    exact ((hb.free (List.Perm.refl _)).free (List.Perm.refl _)).free (by simp)

end Hashmap

/-! ## Containers of one block that stays where it is -/

/-- The ledger of a container that asks for one block at its start and keeps it. -/
structure OneBlock (heap : Heap) (ptr size : ℕ) : Prop where
  pos : 0 < ptr
  booked : Booked heap.log (block (some ptr) size)

theorem OneBlock.of_alloc {requests size align : ℕ} {b : Block} {heap : Heap} (hsize : 0 < size)
    (halign : align ≤ maxAlign) (he : d4npAlloc a size align ⟨requests, []⟩ = (some b, heap)) :
    OneBlock heap b.addr size := by
  have hb : a.alloc requests size align = some b := congrArg Prod.fst he
  refine ⟨a.addr_pos hb, ?_⟩
  have h := Booked.nil.alloc (h := ⟨requests, []⟩) a hsize halign
  rwa [he, List.append_nil] at h

theorem OneBlock.free {heap : Heap} {ptr size : ℕ} (h : OneBlock heap ptr size) :
    Booked (d4npFree (some ptr) size heap).log [] :=
  h.booked.free (by rw [List.append_nil])

namespace Arena

variable {s : Arena} {heap : Heap}

/-- The block of an arena. -/
def span (s : Arena) : ℕ × ℕ := (s.base, s.capacity)

theorem step_span (r : Run) (c : Call) (t : Run) (hs : r.step c = some t) :
    t.arena.span = r.arena.span := by
  cases c with
  | reset =>
    cases hs
    rfl
  | alloc size align =>
    have hspan : (r.arena.alloc size align).2.span = r.arena.span := by
      unfold Arena.alloc
      split_ifs
      · rfl
      split
      · rfl
      split_ifs <;> rfl
    simp only [Run.step] at hs
    split_ifs at hs
    rcases he : r.arena.alloc size align with ⟨_ | p, s⟩
    all_goals
      simp only [he] at hs hspan
      obtain rfl := Option.some.inj hs
      exact hspan

/-- The arena after `d4np_arena_init` and any calls. -/
def Reached (s : Arena) (heap : Heap) : Prop :=
  ∃ a capacity requests s₀ calls t, init a capacity ⟨requests, []⟩ = (.ok, some s₀, heap) ∧
    system.run ⟨s₀, []⟩ calls = some t ∧ t.arena = s

theorem Reached.oneBlock (h : Reached s heap) : OneBlock heap s.base s.capacity := by
  obtain ⟨a, capacity, requests, s₀, calls, t, hi, hrun, rfl⟩ := h
  obtain ⟨hbase, hcap⟩ := Prod.mk.inj (System.run_const (fun r => r.arena.span) step_span hrun)
  rw [hbase, hcap]
  unfold init at hi
  split_ifs at hi with hz
  · cases hi
  rcases he : d4npAlloc a capacity maxAlign ⟨requests, []⟩ with ⟨_ | b, heap'⟩
  · rw [he] at hi
    cases hi
  · rw [he] at hi
    cases hi
    exact .of_alloc (Nat.pos_of_ne_zero hz) (le_refl maxAlign) he

theorem Reached.destroy (h : Reached s heap) : Booked (s.destroy heap).2.log [] := by
  have hb := h.oneBlock
  unfold Arena.destroy
  rw [if_neg hb.pos.ne']
  exact hb.free

end Arena

namespace Pool

variable {p : Pool} {heap : Heap}

/-- The block of a pool. -/
def span (p : Pool) : ℕ × ℕ := (p.base, p.totalSize)

theorem step_span (r : Run) (e : Event) (t : Run) (hs : r.step e = some t) :
    t.pool.span = r.pool.span := by
  cases e with
  | alloc =>
    have hspan : (r.pool.alloc r.mem).2.span = r.pool.span := by
      unfold Pool.alloc
      split_ifs <;> rfl
    simp only [Run.step] at hs
    rcases he : r.pool.alloc r.mem with ⟨_ | x, p⟩
    all_goals
      simp only [he] at hs hspan
      obtain rfl := Option.some.inj hs
      exact hspan
  | free ptr =>
    simp only [Run.step] at hs
    split_ifs at hs
    obtain ⟨⟨p, m⟩, hf, rfl⟩ := Option.map_eq_some_iff.mp hs
    unfold Pool.free at hf
    split_ifs at hf
    all_goals
      cases hf
      rfl
  | write addr byte =>
    simp only [Run.step] at hs
    split_ifs at hs
    cases hs
    rfl

/-- The pool after `d4np_pool_init` and any allocations, releases and writes of its clients. -/
def Reached (p : Pool) (heap : Heap) : Prop :=
  ∃ a blockSize blockCount m m' requests p₀ events t,
    init a blockSize blockCount m ⟨requests, []⟩ = (.ok, some p₀, m', heap) ∧
    system.run ⟨p₀, m', [], blockSize⟩ events = some t ∧ t.pool = p

theorem Reached.oneBlock (h : Reached p heap) : OneBlock heap p.base p.totalSize := by
  obtain ⟨a, blockSize, blockCount, m, m', requests, p₀, events, t, hi, hrun, rfl⟩ := h
  obtain ⟨hbase, htotal⟩ := Prod.mk.inj (System.run_const (fun r => r.pool.span) step_span hrun)
  rw [hbase, htotal]
  obtain ⟨hL, _, hcount, _⟩ := init_ok hi
  simp only [init] at hi
  split_ifs at hi with hz
  · cases hi
  · cases hi
  · cases hi
  rcases he : d4npAlloc a (wrap (roundUp (slotSize blockSize) maxAlign * blockCount)) maxAlign
    ⟨requests, []⟩ with ⟨_ | b, heap'⟩
  · rw [he] at hi
    cases hi
  · rw [he] at hi
    cases hi
    -- the layout says that the size is that of all slots
    refine .of_alloc ?_ (le_refl maxAlign) he
    rw [show wrap (roundUp (slotSize blockSize) maxAlign * blockCount) = _ from hL.total_eq]
    exact Nat.mul_pos hL.stride_pos (Nat.pos_of_ne_zero fun hc => hz (Or.inr hc))

theorem Reached.destroy (h : Reached p heap) : Booked (p.destroy heap).2.log [] := by
  have hb := h.oneBlock
  unfold Pool.destroy
  rw [if_neg hb.pos.ne']
  exact hb.free

end Pool

namespace RingBuffer

variable {es : ℕ} {rb : RingBuffer es} {heap : Heap}

/-- The block of a ring buffer. -/
def span (rb : RingBuffer es) : ℕ × ℕ := (rb.buffer, rb.capacity)

theorem step_span (r : Run es) (e : Event es) (t : Run es) (hs : r.step e = some t) :
    t.rb.span = r.rb.span := by
  cases e with
  | push elem =>
    simp only [Run.step] at hs
    split at hs
    · cases hs
      rfl
    · cases hs
      rfl
    · cases hs
  | producer =>
    simp only [Run.step, Run.producerStep] at hs
    split at hs
    · cases hs
    · cases hs
      rfl
    all_goals
      split_ifs at hs <;> cases hs <;> rfl
  | pop out =>
    simp only [Run.step] at hs
    split at hs
    · cases hs
      rfl
    · cases hs
  | consumer =>
    simp only [Run.step, Run.consumerStep] at hs
    split at hs
    · cases hs
    · cases hs
      rfl
    · split_ifs at hs <;> cases hs <;> rfl
    · cases hs
      rfl
    · split_ifs at hs <;> cases hs <;> rfl

/-- The ring buffer after `d4np_ring_buffer_init` and any steps of its producer and consumer. -/
def Reached (rb : RingBuffer es) (heap : Heap) : Prop :=
  ∃ a capacity requests rb₀ mem events t, capacity < 2 ^ 64 ∧
    init a es capacity ⟨requests, []⟩ = (.ok, some rb₀, heap) ∧
    (system es).run ⟨rb₀, mem, .idle, .idle, [], []⟩ events = some t ∧ t.rb = rb

theorem Reached.oneBlock (h : Reached rb heap) :
    OneBlock heap rb.buffer (wrap (rb.capacity * es)) := by
  obtain ⟨a, capacity, requests, rb₀, mem, events, t, _, hi, hrun, rfl⟩ := h
  obtain ⟨hbuffer, hcap⟩ := Prod.mk.inj (System.run_const (fun r => r.rb.span) step_span hrun)
  rw [hbuffer, hcap]
  have hL := (init_layout hi).1
  simp only [init] at hi
  split_ifs at hi with hz
  · cases hi
  · cases hi
  rcases he : d4npAlloc a (wrap (nextPow2AtLeast capacity * es)) maxAlign ⟨requests, []⟩ with
    ⟨_ | b, heap'⟩
  · rw [he] at hi
    cases hi
  · rw [he] at hi
    cases hi
    refine .of_alloc ?_ (le_refl maxAlign) he
    rw [show wrap (nextPow2AtLeast capacity * es) = _ from wrap_of_lt hL.fits]
    exact Nat.mul_pos hL.capacity_pos (by omega)

theorem Reached.destroy (h : Reached rb heap) : Booked (rb.destroy heap).2.log [] := by
  have hb := h.oneBlock
  unfold RingBuffer.destroy
  rw [if_neg hb.pos.ne']
  exact hb.free

end RingBuffer

/-! ## Containers -/

/-- A container, with the log of its calls of the allocator. -/
inductive Container
  | vector (es : ℕ) (r : Vec.Run es)
  | stringBuilder (r : StringBuilder.Run)
  | hashmap (ks vs : ℕ) (r : Hashmap.Run ks vs)
  | arena (s : Arena) (heap : Heap)
  | pool (p : Pool) (heap : Heap)
  | ringBuffer (es : ℕ) (rb : RingBuffer es) (heap : Heap)

namespace Container

/-- The container is one that its initialisation and any calls lead to. -/
def Reached : Container → Prop
  | .vector es r => ∃ a requests, a.Bounded ∧ Reachable (Vec.system a es ⟨requests, []⟩) r
  | .stringBuilder r => ∃ a requests, Reachable (StringBuilder.system a ⟨requests, []⟩) r
  | .hashmap ks vs r => ∃ a hash keyEq requests, ks ≤ sizeMax - maxAlign ∧
    vs ≤ sizeMax - maxAlign ∧ Reachable (Hashmap.systemFrom ks vs a hash keyEq ⟨requests, []⟩) r
  | .arena s heap => s.Reached heap
  | .pool p heap => p.Reached heap
  | .ringBuffer _ rb heap => rb.Reached heap

/-- The calls of the allocator so far. -/
def log : Container → List AllocEvent
  | .vector _ r => r.heap.log
  | .stringBuilder r => r.heap.log
  | .hashmap _ _ r => r.heap.log
  | .arena _ heap => heap.log
  | .pool _ heap => heap.log
  | .ringBuffer _ _ heap => heap.log

/-- The blocks the fields point to, with the sizes the destroy gives for them. -/
def blocks : Container → List (ℕ × ℕ)
  | .vector es r => block r.vec.data (r.vec.capacity * es)
  | .stringBuilder r => block r.sb.data r.sb.capacity
  | .hashmap _ _ r => r.map.blocks
  | .arena s _ => block (some s.base) s.capacity
  | .pool p _ => block (some p.base) p.totalSize
  | .ringBuffer es rb _ => block (some rb.buffer) (wrap (rb.capacity * es))

/-- The calls of the allocator after the matching destroy. -/
def destroyedLog : Container → List AllocEvent
  | .vector _ r => (r.vec.destroy r.heap).2.log
  | .stringBuilder r => (r.sb.destroy r.heap).2.log
  | .hashmap _ _ r => (r.map.destroy r.heap).2.log
  | .arena s heap => (s.destroy heap).2.log
  | .pool p heap => (p.destroy heap).2.log
  | .ringBuffer _ rb heap => (rb.destroy heap).2.log

theorem Reached.booked {c : Container} (h : c.Reached) :
    Booked c.log c.blocks ∧ Booked c.destroyedLog [] := by
  cases c with
  | vector es r =>
    obtain ⟨a, requests, ha, hr⟩ := h
    have hl := Vec.reachable_ledger ha hr
    exact ⟨hl, hl.destroy (Vec.reachable_inv ha hr).wf⟩
  | stringBuilder r =>
    obtain ⟨a, requests, hr⟩ := h
    have hl := StringBuilder.reachable_ledger hr
    exact ⟨hl, hl.destroy⟩
  | hashmap ks vs r =>
    obtain ⟨a, hash, keyEq, requests, hks, hvs, hr⟩ := h
    have hb := Hashmap.reachable_booked hks hvs hr
    have hbare := Hashmap.reachable_bare (Hashmap.systemFrom_reachable hr)
    exact ⟨hb, Hashmap.booked_destroy hbare hb⟩
  | arena s heap => exact ⟨(Arena.Reached.oneBlock h).booked, Arena.Reached.destroy h⟩
  | pool p heap => exact ⟨(Pool.Reached.oneBlock h).booked, Pool.Reached.destroy h⟩
  | ringBuffer es rb heap =>
    exact ⟨(RingBuffer.Reached.oneBlock h).booked, RingBuffer.Reached.destroy h⟩

end Container

/-- **The containers of a process share the default allocator.** Any number of vectors, string
builders, hash maps, arenas, pools and ring buffers, each reached by any calls and some of them
destroyed, make their calls of the default allocator in any order, one call at a time.  As long as
the C library never answers with the address of a live block, every request reaches it as it was
made, no call of it is undefined, its heap holds exactly the blocks of the containers that were not
destroyed, and no two of these share an address. -/
theorem containers_share_default_allocator {ι : Type} [DecidableEq ι] {c : ι → Container}
    (hc : ∀ i, (c i).Reached) {gone : ι → Bool} {history : List (ι × AllocEvent)}
    (hlog : ∀ i, ownEvents i history = if gone i then (c i).destroyedLog else (c i).log)
    (hs : Malloc.Served (libcCalls (history.map Prod.snd))) :
    (∀ x ∈ history, x.2.libc = (some x.2.call, x.2.result)) ∧
    ∃ heap, Malloc.after (libcCalls (history.map Prod.snd)) = some heap ∧
      (∀ p n, heap p = some n ↔ ∃ i, gone i = false ∧ (p, n) ∈ (c i).blocks) ∧
      ∀ i j p n m, gone i = false → gone j = false → (p, n) ∈ (c i).blocks →
        (p, m) ∈ (c j).blocks → i = j := by
  have hb : ∀ i, Booked (ownEvents i history) (if gone i then [] else (c i).blocks) := by
    intro i
    rw [hlog]
    split_ifs
    · exact (hc i).booked.2
    · exact (hc i).booked.1
  obtain ⟨hreach, heap, hafter, hlive, hapart⟩ := Booked.share hb hs
  have hmem : ∀ i x, x ∈ (if gone i then [] else (c i).blocks) ↔
      gone i = false ∧ x ∈ (c i).blocks := by
    intro i x
    by_cases hg : gone i = true
    · rw [if_pos hg, hg]
      exact ⟨fun h => absurd h List.not_mem_nil, fun h => by cases h.1⟩
    · rw [if_neg hg]
      exact ⟨fun h => ⟨by simpa using hg, h⟩, And.right⟩
  refine ⟨hreach, heap, hafter, fun p n => ?_, fun i j p n m hi hj hn hm => ?_⟩
  · rw [hlive]
    exact exists_congr fun i => hmem i (p, n)
  · exact hapart i j p n m ((hmem i _).mpr ⟨hi, hn⟩) ((hmem j _).mpr ⟨hj, hm⟩)

/-- A vector of one element. -/
def pushedVector : Vec.Run 2 :=
  Vec.Run.step ⟨⟨pageAllocator, none, fun _ => 0, 0, 0⟩, ⟨0, []⟩, []⟩ (.push (some #v[1, 2]))

/-- A hash map of one entry. -/
def putMap : Hashmap.Run 2 1 :=
  Hashmap.Run.step ⟨Hashmap.lazyMap pageAllocator none none, ⟨10, []⟩, []⟩
    (.put (some #v[1, 2]) (some #v[5]))

/-- The vector, and the map. -/
def vectorAndMap : Bool → Container
  | false => .vector 2 pushedVector
  | true => .hashmap 2 1 putMap

/-- The map is made and destroyed around the vector's request. -/
def aroundTheVector : List (Bool × AllocEvent) :=
  [(true, .free (some 53248) 128), (true, .free (some 49152) 128), (true, .free (some 45056) 8),
    (true, .free none 0), (true, .free none 0), (false, .realloc none 0 16 16 (some 4096)),
    (true, .free none 0), (true, .alloc 128 16 (some 53248)), (true, .alloc 128 16 (some 49152)),
    (true, .alloc 8 16 (some 45056))]

theorem containers_share_default_allocator_vector_and_map :
    ∃ heap, Malloc.after (libcCalls (aroundTheVector.map Prod.snd)) = some heap ∧
      ∀ p n, heap p = some n ↔ p = 4096 ∧ n = 16 := by
  have hreached : ∀ i, (vectorAndMap i).Reached := by
    rintro (_ | _)
    · have h0 : Reachable (Vec.system pageAllocator 2 ⟨0, []⟩)
          ⟨⟨pageAllocator, none, fun _ => 0, 0, 0⟩, ⟨0, []⟩, []⟩ :=
        .init ⟨0, .ok, by norm_num, rfl, rfl⟩
      exact ⟨pageAllocator, 0, pageAllocator_bounded, h0.step rfl⟩
    · have h0 : Reachable (Hashmap.systemFrom 2 1 pageAllocator none none ⟨10, []⟩)
          ⟨Hashmap.lazyMap pageAllocator none none, ⟨10, []⟩, []⟩ :=
        .init ⟨0, .ok, by norm_num, rfl, rfl⟩
      exact ⟨pageAllocator, none, none, 10, by decide, by decide, h0.step rfl⟩
  have hlog : ∀ i, ownEvents i aroundTheVector =
      if id i then (vectorAndMap i).destroyedLog else (vectorAndMap i).log := by
    rintro (_ | _)
    · rfl
    · rfl
  have hserved : Malloc.Served (libcCalls (aroundTheVector.map Prod.snd)) := by
    simp only [aroundTheVector]
    refine ⟨⟨⟨⟨⟨⟨⟨⟨⟨⟨trivial, ?_⟩, ?_⟩, ?_⟩, ?_⟩, ?_⟩, ?_⟩, ?_⟩, ?_⟩, ?_⟩, ?_⟩
    all_goals
      intro h hh
      obtain rfl := Option.some.inj hh
      first
      | trivial
      | exact rfl
      | exact Or.inr rfl
  obtain ⟨_, heap, hafter, hlive, _⟩ :=
    containers_share_default_allocator hreached hlog hserved
  have hblocks : (vectorAndMap false).blocks = [(4096, 16)] := rfl
  refine ⟨heap, hafter, fun p n => (hlive p n).trans ⟨?_, ?_⟩⟩
  · rintro ⟨_ | _, hgone, hm⟩
    · rw [hblocks] at hm
      exact Prod.mk.inj (List.mem_singleton.mp hm)
    · cases hgone
  · rintro ⟨rfl, rfl⟩
    exact ⟨false, rfl, by rw [hblocks]; exact List.mem_singleton_self _⟩

end D4np
