import D4np.Core.Allocator
import D4np.Lib.ByteMem
import D4np.Lib.Probing
import D4np.Lib.TransitionSystem
import Mathlib.Tactic

/-!
# The single-producer single-consumer ring buffer

The producer and the consumer each run their call step by step: every load and store of an index
and every byte of a copy is a step of its own, and the steps interleave freely.  The elements are
vectors of `elem_size` bytes.  A run keeps the elements whose push has stored the new tail
(`accepted`) and what the pops that have stored the new head handed out (`delivered`).

The indices count accepted and delivered elements modulo `2 ^ 64`.  Since at most `capacity`
elements are queued, the wrapped counters still tell full from empty, and the slot of the element
being written differs from the slots of the queued ones.
-/

namespace D4np

open Word64 ByteMem Probing TransitionSystem

/-- `d4np_ring_buffer_t` for elements of `es` bytes. -/
structure RingBuffer (es : ℕ) where
  allocator : Allocator
  buffer : ℕ
  capacity : ℕ
  mask : ℕ
  head : ℕ
  tail : ℕ

namespace RingBuffer

variable {es : ℕ}

/-- `next_pow2_at_least` of `ring_buffer.c`. -/
def nextPow2AtLeast (n : ℕ) : ℕ := nextPow2Loop n 64 1

/-- `d4np_ring_buffer_init`. -/
def init (allocator : Allocator) (es capacity : ℕ) (h : Heap) :
    Status × Option (RingBuffer es) × Heap :=
  if es = 0 ∨ capacity = 0 then (.errInvalidArgument, none, h)
  else
    let cap := nextPow2AtLeast capacity
    if cap > sizeMax / es then (.errOverflow, none, h)
    else
      match d4npAlloc allocator (wrap (cap * es)) maxAlign h with
      | (none, h) => (.errOutOfMemory, none, h)
      | (some block, h) => (.ok, some ⟨allocator, block.addr, cap, sub cap 1, 0, 0⟩, h)

/-- `d4np_ring_buffer_destroy`; a null buffer is zero. -/
def destroy (rb : RingBuffer es) (h : Heap) : RingBuffer es × Heap :=
  if rb.buffer = 0 then (rb, h)
  else
    ({ rb with buffer := 0, capacity := 0, mask := 0, head := 0, tail := 0 },
      d4npFree (some rb.buffer) (wrap (rb.capacity * es)) h)

/-- The address of the slot an index falls on. -/
def slotAddr (rb : RingBuffer es) (i : ℕ) : ℕ := rb.buffer + wrap ((i &&& rb.mask) * es)

/-- Where the producer is in `d4np_ring_buffer_push`. -/
inductive Producer (es : ℕ)
  | idle
  | entered (elem : Vector UInt8 es)
  | loadedTail (elem : Vector UInt8 es) (tail : ℕ)
  | copying (elem : Vector UInt8 es) (tail k : ℕ)

/-- Where the consumer is in `d4np_ring_buffer_pop`; what it has copied out is `none` when it was
called with a null `out`. -/
inductive Consumer
  | idle
  | entered (out : Bool)
  | loadedHead (out : Bool) (head : ℕ)
  | copying (head : ℕ) (got : Option (List UInt8))

/-- A ring buffer in use. -/
structure Run (es : ℕ) where
  rb : RingBuffer es
  mem : Mem
  producer : Producer es
  consumer : Consumer
  accepted : List (Vector UInt8 es)
  delivered : List (Option (List UInt8))

/-- What can happen: a call is made, or a side takes its next step. -/
inductive Event (es : ℕ)
  | push (elem : Option (Vector UInt8 es))
  | producer
  | pop (out : Bool)
  | consumer

namespace Run

/-- The next step of `d4np_ring_buffer_push`. -/
def producerStep (r : Run es) : Option (Run es) :=
  match r.producer with
  | .idle => none
  | .entered elem => some { r with producer := .loadedTail elem r.rb.tail }
  | .loadedTail elem tail =>
    if sub tail r.rb.head = r.rb.capacity then some { r with producer := .idle }
    else some { r with producer := .copying elem tail 0 }
  | .copying elem tail k =>
    if h : k < es then
      some { r with
        mem := Function.update r.mem (r.rb.slotAddr tail + k) elem[k]
        producer := .copying elem tail (k + 1) }
    else
      some { r with
        rb := { r.rb with tail := wrap (tail + 1) }
        producer := .idle
        accepted := r.accepted ++ [elem] }

/-- The pop stores the new head and returns. -/
def storeHead (r : Run es) (head : ℕ) (got : Option (List UInt8)) : Run es :=
  { r with
    rb := { r.rb with head := wrap (head + 1) }
    consumer := .idle
    delivered := r.delivered ++ [got] }

/-- The next step of `d4np_ring_buffer_pop`. -/
def consumerStep (r : Run es) : Option (Run es) :=
  match r.consumer with
  | .idle => none
  | .entered out => some { r with consumer := .loadedHead out r.rb.head }
  | .loadedHead out head =>
    if head = r.rb.tail then some { r with consumer := .idle }
    else some { r with consumer := .copying head (if out then some [] else none) }
  | .copying head none => some (r.storeHead head none)
  | .copying head (some got) =>
    if got.length < es then
      let b := r.mem (r.rb.slotAddr head + got.length)
      some { r with consumer := .copying head (some (got ++ [b])) }
    else some (r.storeHead head (some got))

/-- One step of the run; a call can be made only when the previous one has returned. -/
def step (r : Run es) : Event es → Option (Run es)
  | .push elem =>
    match r.producer, elem with
    | .idle, none => some r
    | .idle, some elem => some { r with producer := .entered elem }
    | _, _ => none
  | .producer => r.producerStep
  | .pop out =>
    match r.consumer with
    | .idle => some { r with consumer := .entered out }
    | _ => none
  | .consumer => r.consumerStep

end Run

/-- The runs of a ring buffer from a successful initialisation; the block may hold any bytes. -/
def system (es : ℕ) : System (Run es) (Event es) where
  init r := ∃ a capacity heap heap', es < 2 ^ 64 ∧ capacity < 2 ^ 64 ∧
    init a es capacity heap = (.ok, some r.rb, heap') ∧ r.producer = .idle ∧ r.consumer = .idle ∧
    r.accepted = [] ∧ r.delivered = []
  step := Run.step

/-! ## Geometry -/

/-- The layout `d4np_ring_buffer_init` establishes and no operation changes. -/
structure Layout (rb : RingBuffer es) : Prop where
  pow : ∃ k < 64, rb.capacity = 2 ^ k
  mask_eq : rb.mask = rb.capacity - 1
  fits : rb.capacity * es < 2 ^ 64

variable {rb : RingBuffer es}

theorem init_layout {a : Allocator} {capacity : ℕ} {h h' : Heap} {rc : Status}
    (hi : init a es capacity h = (rc, some rb, h')) : Layout rb ∧ rb.head = 0 ∧ rb.tail = 0 := by
  simp only [init] at hi
  split_ifs at hi with hz hguard
  · simp at hi
  · simp at hi
  · obtain ⟨k, _, hk, he, _⟩ := nextPow2Loop_pow capacity 64 0 (by norm_num) (by norm_num)
    have hcap : nextPow2AtLeast capacity = 2 ^ k := he
    have hpow : 2 ^ k < 2 ^ 64 := Nat.pow_lt_pow_right (by norm_num) hk
    have hle : 2 ^ k * es ≤ sizeMax := by
      rw [hcap, not_lt] at hguard
      exact (Nat.le_div_iff_mul_le (by omega)).mp hguard
    rcases hblock : d4npAlloc a (wrap (nextPow2AtLeast capacity * es)) maxAlign h with
      ⟨_ | block, h''⟩
    · simp [hblock] at hi
    · simp only [hblock] at hi
      cases hi
      rw [hcap]
      refine ⟨⟨⟨k, hk, rfl⟩, sub_one (Nat.two_pow_pos k) hpow, ?_⟩, rfl, rfl⟩
      show 2 ^ k * es < 2 ^ 64
      unfold sizeMax Word64.maxWord at hle
      omega

namespace Layout

theorem capacity_pos (h : Layout rb) : 0 < rb.capacity := by
  obtain ⟨k, _, hk⟩ := h.pow
  rw [hk]
  positivity

theorem capacity_lt (h : Layout rb) : rb.capacity < 2 ^ 64 := by
  obtain ⟨k, hk, he⟩ := h.pow
  rw [he]
  exact Nat.pow_lt_pow_right (by norm_num) hk

/-- The slot of a wrapped counter is its value modulo the capacity. -/
theorem slotAddr_wrap (h : Layout rb) (n : ℕ) :
    rb.slotAddr (wrap n) = rb.buffer + n % rb.capacity * es := by
  obtain ⟨k, hk, he⟩ := h.pow
  have hlt := Nat.mul_le_mul_right es (Nat.mod_lt n h.capacity_pos).le
  have hfits := h.fits
  unfold slotAddr
  rw [h.mask_eq, he, wrap_land_mask hk.le, ← he, wrap_of_lt (by omega)]

/-- Slots of counters less than a capacity apart do not overlap. -/
theorem slot_disjoint (h : Layout rb) {d i j : ℕ} (hi : d ≤ i) (hi' : i < d + rb.capacity)
    (hj : d ≤ j) (hj' : j < d + rb.capacity) (hij : i ≠ j) :
    rb.slotAddr (wrap i) + es ≤ rb.slotAddr (wrap j) ∨
      rb.slotAddr (wrap j) + es ≤ rb.slotAddr (wrap i) := by
  have hne : i % rb.capacity ≠ j % rb.capacity := by
    intro heq
    obtain ⟨x, rfl⟩ := Nat.exists_eq_add_of_le hi
    obtain ⟨y, rfl⟩ := Nat.exists_eq_add_of_le hj
    have := probe_injective (show x < rb.capacity by omega) (show y < rb.capacity by omega) heq
    omega
  have := span_disjoint hne (le_refl es)
  rw [h.slotAddr_wrap, h.slotAddr_wrap]
  omega

end Layout

/-! ## The invariant -/

/-- What a pop handed out against the element it took: all its bytes, if it was asked for them. -/
def Delivers (got : Option (List UInt8)) (e : Vector UInt8 es) : Prop :=
  ∀ x, got = some x → x = e.toList

/-- One more byte of an element extends what was copied of it. -/
theorem concat_prefix {e : Vector UInt8 es} {got : List UInt8} (h : got <+: e.toList)
    (hlt : got.length < es) : got ++ [e[got.length]] <+: e.toList := by
  have htake := List.prefix_iff_eq_take.mp h
  have hlt' : got.length < e.toList.length := by simpa using hlt
  have hstep := List.take_concat_get' e.toList got.length hlt'
  rw [← htake, Vector.getElem_toList] at hstep
  rw [hstep]
  exact List.take_prefix _ _

/-- The bytes of an element in the slot of counter `i`. -/
def Stored (rb : RingBuffer es) (m : Mem) (i : ℕ) (e : Vector UInt8 es) : Prop :=
  ∀ j (h : j < es), m (rb.slotAddr (wrap i) + j) = e[j]

namespace Run

/-- What the producer knows where it is. -/
def ProducerInv (r : Run es) : Prop :=
  match r.producer with
  | .idle => True
  | .entered _ => True
  | .loadedTail _ tail => tail = r.rb.tail
  | .copying elem tail k => tail = r.rb.tail ∧ k ≤ es ∧
    r.accepted.length < r.delivered.length + r.rb.capacity ∧
    ∀ j (h : j < es), j < k → r.mem (r.rb.slotAddr tail + j) = elem[j]

/-- What the consumer knows where it is. -/
def ConsumerInv (r : Run es) : Prop :=
  match r.consumer with
  | .idle => True
  | .entered _ => True
  | .loadedHead _ head => head = r.rb.head
  | .copying head got => head = r.rb.head ∧ ∃ e, r.accepted[r.delivered.length]? = some e ∧
    ∀ bytes, got = some bytes → bytes <+: e.toList

/-- The invariant of the runs. -/
structure Inv (r : Run es) : Prop where
  layout : Layout r.rb
  head_eq : r.rb.head = wrap r.delivered.length
  tail_eq : r.rb.tail = wrap r.accepted.length
  le : r.delivered.length ≤ r.accepted.length
  bound : r.accepted.length ≤ r.delivered.length + r.rb.capacity
  stored : ∀ i e, r.delivered.length ≤ i → r.accepted[i]? = some e → r.rb.Stored r.mem i e
  delivers : List.Forall₂ Delivers r.delivered (r.accepted.take r.delivered.length)
  producer : r.ProducerInv
  consumer : r.ConsumerInv

variable {r r' : Run es}

/-- The wrapped counters tell a full buffer. -/
theorem Inv.full_iff (hI : r.Inv) : sub r.rb.tail r.rb.head = r.rb.capacity ↔
    r.accepted.length = r.delivered.length + r.rb.capacity := by
  have hcap := hI.layout.capacity_lt
  have hle := hI.le
  have hbound := hI.bound
  rw [hI.head_eq, hI.tail_eq, sub_wrap hle (by omega)]
  omega

/-- The wrapped counters tell an empty buffer. -/
theorem Inv.empty_iff (hI : r.Inv) : r.rb.head = r.rb.tail ↔
    r.delivered.length = r.accepted.length := by
  have hcap := hI.layout.capacity_lt
  have hle := hI.le
  have hbound := hI.bound
  rw [hI.head_eq, hI.tail_eq]
  constructor
  · intro h
    exact (wrap_inj hle (by omega) h).symm
  · intro h
    rw [h]

/-- A step of the producer that only moves it keeps the invariant. -/
theorem Inv.set_producer (hI : r.Inv) {p : Producer es}
    (hp : ProducerInv { r with producer := p }) : Inv { r with producer := p } :=
  ⟨hI.layout, hI.head_eq, hI.tail_eq, hI.le, hI.bound, hI.stored, hI.delivers, hp, hI.consumer⟩

/-- A step of the consumer that only moves it keeps the invariant. -/
theorem Inv.set_consumer (hI : r.Inv) {c : Consumer}
    (hc : ConsumerInv { r with consumer := c }) : Inv { r with consumer := c } :=
  ⟨hI.layout, hI.head_eq, hI.tail_eq, hI.le, hI.bound, hI.stored, hI.delivers, hI.producer, hc⟩

/-- A byte written into the slot of the next element reaches no queued element. -/
theorem Inv.write_byte (hI : r.Inv) {elem : Vector UInt8 es} {tail k : ℕ}
    (hp : r.producer = .copying elem tail k) (hk : k < es) :
    Inv { r with
      mem := Function.update r.mem (r.rb.slotAddr tail + k) elem[k]
      producer := .copying elem tail (k + 1) } := by
  have hP := hI.producer
  unfold ProducerInv at hP
  rw [hp] at hP
  obtain ⟨htail, hke, hroom, hcopied⟩ := hP
  refine ⟨hI.layout, hI.head_eq, hI.tail_eq, hI.le, hI.bound, ?_, hI.delivers, ?_, hI.consumer⟩
  · intro i e hi he j hj
    have hlt : i < r.accepted.length := (List.getElem?_eq_some_iff.mp he).1
    have hle := hI.le
    have hdisj := hI.layout.slot_disjoint (d := r.delivered.length) hi (by omega) hle hroom hlt.ne
    show Function.update r.mem (r.rb.slotAddr tail + k) elem[k] (r.rb.slotAddr (wrap i) + j) = e[j]
    rw [htail, hI.tail_eq, Function.update_of_ne (by omega)]
    exact hI.stored i e hi he j hj
  · refine ⟨htail, hk, hroom, fun j hj hlt => ?_⟩
    show Function.update r.mem (r.rb.slotAddr tail + k) elem[k] (r.rb.slotAddr tail + j) = elem[j]
    rcases Nat.lt_succ_iff_lt_or_eq.mp hlt with hlt | rfl
    · rw [Function.update_of_ne (by omega)]
      exact hcopied j hj hlt
    · exact Function.update_self ..

/-- The store of the new tail accepts the element. -/
theorem Inv.accept (hI : r.Inv) {elem : Vector UInt8 es} {tail k : ℕ}
    (hp : r.producer = .copying elem tail k) (hk : ¬ k < es) :
    Inv { r with
      rb := { r.rb with tail := wrap (tail + 1) }
      producer := .idle
      accepted := r.accepted ++ [elem] } := by
  have hP := hI.producer
  unfold ProducerInv at hP
  rw [hp] at hP
  obtain ⟨htail, hke, hroom, hcopied⟩ := hP
  have hle := hI.le
  refine ⟨⟨hI.layout.pow, hI.layout.mask_eq, hI.layout.fits⟩, hI.head_eq, ?_, ?_, ?_, ?_, ?_,
    trivial, ?_⟩
  · show wrap (tail + 1) = wrap (r.accepted ++ [elem]).length
    rw [htail, hI.tail_eq, wrap_wrap_add_one, List.length_append, List.length_singleton]
  · simp only [List.length_append, List.length_singleton]
    omega
  · simp only [List.length_append, List.length_singleton]
    omega
  · intro i e hi he
    rcases Nat.lt_or_ge i r.accepted.length with hlt | hge
    · rw [List.getElem?_append_left hlt] at he
      exact hI.stored i e hi he
    · have hi : i = r.accepted.length := by
        have := (List.getElem?_eq_some_iff.mp he).1
        simp only [List.length_append, List.length_singleton] at this
        omega
      subst hi
      simp only [List.getElem?_concat_length, Option.some_inj] at he
      subst he
      intro j hj
      have := hcopied j hj (by omega)
      rw [htail, hI.tail_eq] at this
      exact this
  · show List.Forall₂ Delivers r.delivered ((r.accepted ++ [elem]).take r.delivered.length)
    rw [List.take_append_of_le_length hle]
    exact hI.delivers
  · have hC := hI.consumer
    rcases hc : r.consumer with _ | _ | _ | ⟨head, got⟩ <;> simp only [ConsumerInv, hc] at hC ⊢
    · exact hC
    · obtain ⟨hh, e, he, hb⟩ := hC
      refine ⟨hh, e, ?_, hb⟩
      rw [List.getElem?_append_left (List.getElem?_eq_some_iff.mp he).1]
      exact he

/-- The store of the new head delivers the element. -/
theorem Inv.deliver (hI : r.Inv) {head : ℕ} {got : Option (List UInt8)}
    (hc : r.consumer = .copying head got) (hall : ∀ bytes, got = some bytes → es ≤ bytes.length) :
    (r.storeHead head got).Inv := by
  have hC := hI.consumer
  unfold ConsumerInv at hC
  rw [hc] at hC
  obtain ⟨hhead, e, he, hb⟩ := hC
  have hlt : r.delivered.length < r.accepted.length := (List.getElem?_eq_some_iff.mp he).1
  have hbound := hI.bound
  have hlen : (r.delivered ++ [got]).length = r.delivered.length + 1 := by simp
  refine ⟨⟨hI.layout.pow, hI.layout.mask_eq, hI.layout.fits⟩, ?_, hI.tail_eq, ?_, ?_, ?_, ?_, ?_,
    trivial⟩
  · show wrap (head + 1) = wrap (r.delivered ++ [got]).length
    rw [hhead, hI.head_eq, wrap_wrap_add_one, hlen]
  · show (r.delivered ++ [got]).length ≤ r.accepted.length
    omega
  · show r.accepted.length ≤ (r.delivered ++ [got]).length + r.rb.capacity
    omega
  · intro i x hi hx
    have hi' : r.delivered.length + 1 ≤ i := hlen ▸ hi
    exact hI.stored i x (by omega) hx
  · show List.Forall₂ Delivers (r.delivered ++ [got])
      (r.accepted.take (r.delivered ++ [got]).length)
    rw [hlen, List.take_add_one, he]
    refine List.rel_append hI.delivers (.cons (fun x hx => ?_) .nil)
    -- the bytes copied out are a prefix of the element that is as long as the element
    exact (hb x hx).eq_of_length_le (by simpa using hall x hx)
  · have hP := hI.producer
    rcases hp : r.producer with _ | _ | _ | ⟨elem, tail, k⟩ <;>
      simp only [ProducerInv, storeHead, hp] at hP ⊢
    · exact hP
    · obtain ⟨h1, h2, h3, h4⟩ := hP
      exact ⟨h1, h2, by rw [hlen]; omega, h4⟩

theorem producerStep_inv (hI : r.Inv) (hs : r.producerStep = some r') : r'.Inv := by
  have hP := hI.producer
  rcases hp : r.producer with _ | elem | ⟨elem, tail⟩ | ⟨elem, tail, k⟩ <;>
    simp only [producerStep, ProducerInv, hp] at hs hP
  · exact absurd hs (by simp)
  · cases hs
    exact hI.set_producer rfl
  · split_ifs at hs with hfull
    · cases hs
      exact hI.set_producer trivial
    · cases hs
      rw [hP, hI.full_iff] at hfull
      have hbound := hI.bound
      refine hI.set_producer ⟨hP, Nat.zero_le _, ?_, fun j _ hj => absurd hj (Nat.not_lt_zero j)⟩
      show r.accepted.length < r.delivered.length + r.rb.capacity
      omega
  · split_ifs at hs with hk
    · cases hs
      exact hI.write_byte hp hk
    · cases hs
      exact hI.accept hp hk

theorem consumerStep_inv (hI : r.Inv) (hs : r.consumerStep = some r') : r'.Inv := by
  have hC := hI.consumer
  rcases hc : r.consumer with _ | out | ⟨out, head⟩ | ⟨head, got⟩
  · simp [consumerStep, hc] at hs
  · simp only [consumerStep, hc] at hs
    cases hs
    exact hI.set_consumer rfl
  · simp only [consumerStep, ConsumerInv, hc] at hs hC
    by_cases hempty : head = r.rb.tail
    · rw [if_pos hempty] at hs
      cases hs
      exact hI.set_consumer trivial
    · rw [if_neg hempty] at hs
      cases hs
      rw [hC, hI.empty_iff] at hempty
      have hle := hI.le
      have hlt : r.delivered.length < r.accepted.length := by omega
      refine hI.set_consumer ⟨hC, r.accepted[r.delivered.length], List.getElem?_eq_getElem hlt, ?_⟩
      intro bytes hb
      split_ifs at hb
      cases hb
      exact List.nil_prefix
  · rcases got with _ | got <;> simp only [consumerStep, ConsumerInv, hc] at hs hC
    · cases hs
      exact hI.deliver hc (by simp)
    · split_ifs at hs with hlt
      · cases hs
        obtain ⟨hh, e, he, hb⟩ := hC
        refine hI.set_consumer ⟨hh, e, he, fun bytes hbytes => ?_⟩
        cases hbytes
        -- the byte comes from the slot of the element, which holds it
        have hbyte := hI.stored _ e (le_refl _) he got.length hlt
        rw [← hI.head_eq, ← hh] at hbyte
        rw [hbyte]
        exact concat_prefix (hb got rfl) hlt
      · cases hs
        refine hI.deliver hc fun bytes hbytes => ?_
        cases hbytes
        omega

theorem step_inv {ev : Event es} (hI : r.Inv) (hs : r.step ev = some r') : r'.Inv := by
  cases ev with
  | push elem =>
    simp only [step] at hs
    split at hs
    · cases hs
      exact hI
    · cases hs
      exact hI.set_producer trivial
    · cases hs
  | producer => exact producerStep_inv hI hs
  | pop out =>
    simp only [step] at hs
    split at hs
    · cases hs
      exact hI.set_consumer trivial
    · cases hs
  | consumer => exact consumerStep_inv hI hs

theorem reachable_inv (h : Reachable (system es) r) : r.Inv := by
  refine h.induct ?_ (fun _ _ _ => step_inv)
  rintro r ⟨a, capacity, heap, heap', _, _, hi, hp, hc, hacc, hdel⟩
  obtain ⟨hL, hhead, htail⟩ := init_layout hi
  refine ⟨hL, ?_, ?_, ?_, ?_, ?_, ?_, ?_, ?_⟩
  · rw [hhead, hdel]
    rfl
  · rw [htail, hacc]
    rfl
  · rw [hdel]
    exact Nat.zero_le _
  · rw [hacc]
    exact Nat.zero_le _
  · intro i e _ he
    rw [hacc] at he
    simp at he
  · rw [hdel, hacc]
    exact .nil
  · simp only [ProducerInv, hp]
  · simp only [ConsumerInv, hc]

end Run

/-- **The ring buffer over whole runs.** In every state the producer and the consumer can reach,
in any interleaving of their steps and however often the counters have wrapped: what the pops
handed out is, element by element and byte by byte, the start of what the pushes accepted; at most
`capacity` elements are queued, and the difference of the wrapped indices is their number; and the
byte the producer writes next is in no slot the consumer is copying out. -/
theorem ringBuffer_run_correct {r : Run es} (h : Reachable (system es) r) :
    (∃ l, l <+: r.accepted ∧ List.Forall₂ Delivers r.delivered l) ∧
    r.accepted.length ≤ r.delivered.length + r.rb.capacity ∧
    sub r.rb.tail r.rb.head = r.accepted.length - r.delivered.length ∧
    ∀ elem tail k head got, r.producer = .copying elem tail k → k < es →
      r.consumer = .copying head got →
      r.rb.slotAddr tail + k < r.rb.slotAddr head ∨
        r.rb.slotAddr head + es ≤ r.rb.slotAddr tail + k := by
  have hI := Run.reachable_inv h
  have hcap := hI.layout.capacity_lt
  have hle := hI.le
  have hbound := hI.bound
  refine ⟨⟨_, List.take_prefix _ _, hI.delivers⟩, hbound, ?_, ?_⟩
  · rw [hI.head_eq, hI.tail_eq, sub_wrap hle (by omega)]
  · intro elem tail k head got hp hk hc
    have hP := hI.producer
    have hC := hI.consumer
    simp only [Run.ProducerInv, Run.ConsumerInv, hp, hc] at hP hC
    obtain ⟨htail, _, hroom, _⟩ := hP
    obtain ⟨hhead, e, he, _⟩ := hC
    have hlt : r.delivered.length < r.accepted.length := (List.getElem?_eq_some_iff.mp he).1
    have hdisj := hI.layout.slot_disjoint (le_refl r.delivered.length)
      (Nat.lt_add_of_pos_right hI.layout.capacity_pos) hle hroom hlt.ne
    rw [htail, hhead, hI.tail_eq, hI.head_eq]
    omega

/-- One element of two bytes through a buffer of one slot: it is delivered as it was pushed. -/
theorem ringBuffer_run_correct_one_slot :
    ∃ r, Reachable (system 2) r ∧ r.accepted = [#v[7, 9]] ∧ r.delivered = [some [7, 9]] ∧
      r.accepted.length ≤ r.delivered.length + r.rb.capacity := by
  obtain ⟨rb, heap, hinit⟩ : ∃ rb heap, init pageAllocator 2 1 ⟨0, []⟩ = (.ok, some rb, heap) :=
    ⟨_, _, rfl⟩
  have h0 : Reachable (system 2) ⟨rb, fun _ => 0, .idle, .idle, [], []⟩ :=
    .init ⟨pageAllocator, 1, ⟨0, []⟩, heap, by norm_num, by norm_num, hinit, rfl, rfl, rfl, rfl⟩
  have hrun : ((system 2).run ⟨rb, fun _ => 0, .idle, .idle, [], []⟩
      [.push (some #v[7, 9]), .producer, .pop true, .producer, .producer, .consumer, .producer,
        .producer, .consumer, .consumer, .consumer, .consumer]).map
      (fun r => (r.accepted, r.delivered)) = some ([#v[7, 9]], [some [7, 9]]) := by
    cases hinit
    rfl
  obtain ⟨r, hr, heq⟩ := Option.map_eq_some_iff.mp hrun
  obtain ⟨hacc, hdel⟩ := Prod.mk.inj heq
  have hreach := h0.run hr
  exact ⟨r, hreach, hacc, hdel, (ringBuffer_run_correct hreach).2.1⟩

end RingBuffer

end D4np
