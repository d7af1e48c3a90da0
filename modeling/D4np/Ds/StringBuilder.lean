import D4np.Core.Ledger
import D4np.Lib.ByteMem
import D4np.Lib.TransitionSystem
import Mathlib.Tactic

/-!
# The string builder

A block of `capacity` bytes, of which the first `len` are the contents and the next one is the
terminator.  The block is given by its pointer and its contents; it appears with the first call that
needs it.  A growth carries over the contents and the terminator behind them (`Wf.ensure`), and
every call that writes puts a new terminator behind what it wrote.
-/

namespace D4np

open Word64 ByteMem TransitionSystem

/-- `d4np_string_builder_t`. -/
structure StringBuilder where
  allocator : Allocator
  data : Option ℕ
  bytes : Mem
  len : ℕ
  capacity : ℕ

namespace StringBuilder

/-- `D4NP_SB_MIN_CAPACITY`. -/
def minCapacity : ℕ := 16

/-- The loop `while (newcap < needed)` of `sb_ensure`, cut off after `fuel` rounds.  A word can be
doubled at most 64 times before the loop breaks. -/
def growLoop (needed : ℕ) : ℕ → ℕ → ℕ
  | 0, newcap => newcap
  | fuel + 1, newcap =>
    if newcap < needed then
      if newcap > sizeMax / 2 then needed
      else growLoop needed fuel (wrap (newcap * 2))
    else newcap

/-- The capacity `sb_ensure` asks for. -/
def newcap (sb : StringBuilder) (needed : ℕ) : ℕ :=
  growLoop needed 64 (if sb.capacity = 0 then minCapacity else sb.capacity)

/-- The builder with its buffer moved to the block `b` of `n` bytes. -/
def moved (sb : StringBuilder) (n : ℕ) (b : Block) : StringBuilder :=
  { sb with
    data := some b.addr
    bytes := (resized sb.data sb.bytes sb.capacity n b).bytes
    capacity := n }

/-- `sb_ensure`; `needed` counts the terminating NUL. -/
def ensure (sb : StringBuilder) (needed : ℕ) (h : Heap) : Status × StringBuilder × Heap :=
  if needed ≤ sb.capacity then (.ok, sb, h)
  else
    let newcap := sb.newcap needed
    match d4npRealloc sb.allocator sb.data sb.bytes sb.capacity newcap 1 h with
    | (none, h) => (.errOutOfMemory, sb, h)
    | (some p, h) => (.ok, { sb with data := some p.addr, bytes := p.bytes, capacity := newcap }, h)

/-- `sb->data[i] = '\0'`. -/
def terminate (sb : StringBuilder) (i : ℕ) : StringBuilder :=
  { sb with bytes := writeList sb.bytes i [0] }

/-- The builder before its first allocation. -/
def lazy (allocator : Allocator) : StringBuilder := ⟨allocator, none, fun _ => 0, 0, 0⟩

/-- `d4np_sb_init`. -/
def init (allocator : Allocator) (initialCapacity : ℕ) (h : Heap) : Status × StringBuilder × Heap :=
  if initialCapacity > 0 then
    match (lazy allocator).ensure initialCapacity h with
    | (.ok, sb, h) => (.ok, sb.terminate 0, h)
    | (rc, sb, h) => (rc, sb, h)
  else (.ok, lazy allocator, h)

/-- `d4np_sb_destroy`. -/
def destroy (sb : StringBuilder) (h : Heap) : StringBuilder × Heap :=
  if sb.data = none then (sb, h)
  else ({ sb with data := none, len := 0, capacity := 0 }, d4npFree sb.data sb.capacity h)

/-- `d4np_sb_reserve`. -/
def reserve (sb : StringBuilder) (minCapacity : ℕ) (h : Heap) : Status × StringBuilder × Heap :=
  let (rc, sb, h) := sb.ensure minCapacity h
  if rc = .ok ∧ sb.data ≠ none ∧ sb.len = 0 then (rc, sb.terminate 0, h) else (rc, sb, h)

/-- The bytes written at the end, and the terminator behind them. -/
def write (sb : StringBuilder) (l : List UInt8) : StringBuilder :=
  let sb := { sb with bytes := writeList sb.bytes sb.len l, len := wrap (sb.len + l.length) }
  sb.terminate sb.len

/-- `d4np_sb_append_view`. -/
def appendView (sb : StringBuilder) (view : List UInt8) (h : Heap) :
    Status × StringBuilder × Heap :=
  if view.length = 0 then
    match sb.ensure (wrap (sb.len + 1)) h with
    | (.ok, sb, h) => (.ok, sb.terminate sb.len, h)
    | (rc, sb, h) => (rc, sb, h)
  else if view.length > sub (sub sizeMax sb.len) 1 then (.errOverflow, sb, h)
  else
    match sb.ensure (wrap (wrap (sb.len + view.length) + 1)) h with
    | (.ok, sb, h) => (.ok, sb.write view, h)
    | (rc, sb, h) => (rc, sb, h)

/-- `d4np_str_view_from_str`: the bytes before the terminator; a null string is `none`. -/
def viewFromStr (cstr : Option (List UInt8)) : List UInt8 :=
  match cstr with
  | none => []
  | some s => s.takeWhile (· ≠ 0)

/-- `d4np_sb_append`. -/
def append (sb : StringBuilder) (cstr : Option (List UInt8)) (h : Heap) :
    Status × StringBuilder × Heap :=
  sb.appendView (viewFromStr cstr) h

/-- `d4np_sb_append_char`. -/
def appendChar (sb : StringBuilder) (c : UInt8) (h : Heap) : Status × StringBuilder × Heap :=
  match sb.ensure (wrap (sb.len + 2)) h with
  | (.ok, sb, h) => (.ok, sb.write [c], h)
  | (rc, sb, h) => (rc, sb, h)

/-- `d4np_sb_clear`. -/
def clear (sb : StringBuilder) : StringBuilder :=
  let sb := { sb with len := 0 }
  if sb.data ≠ none then sb.terminate 0 else sb

/-- `d4np_sb_cstr`: the bytes behind the pointer returned, those of `""` if there is no buffer. -/
def cstr (sb : StringBuilder) : Mem := if sb.data = none then fun _ => 0 else sb.bytes

/-- `d4np_sb_view`. -/
def view (sb : StringBuilder) : List UInt8 := if sb.data = none then [] else front sb.bytes sb.len

/-- The contents. -/
def contents (sb : StringBuilder) : List UInt8 := front sb.bytes sb.len

/-! ## Runs -/

/-- A call on a builder. -/
inductive Call
  | reserve (minCapacity : Fin (2 ^ 64))
  | append (cstr : Option (List UInt8))
  | appendView (view : List UInt8)
  | appendChar (c : UInt8)
  | len
  | clear

/-- What a call returns. -/
inductive Outcome
  | status (rc : Status)
  | size (n : ℕ)
  | done

/-- The call returned an error. -/
def Outcome.failed : Outcome → Bool
  | .status rc => rc != .ok
  | _ => false

/-- A builder in use, with the calls made so far and what they returned, newest first. -/
structure Run where
  sb : StringBuilder
  heap : Heap
  history : List (Call × Outcome)

namespace Run

/-- What a call returns and leaves behind. -/
def exec (r : Run) : Call → Outcome × StringBuilder × Heap
  | .reserve minCapacity =>
    let (rc, sb, h) := r.sb.reserve minCapacity r.heap
    (.status rc, sb, h)
  | .append cstr =>
    let (rc, sb, h) := r.sb.append cstr r.heap
    (.status rc, sb, h)
  | .appendView view =>
    let (rc, sb, h) := r.sb.appendView view r.heap
    (.status rc, sb, h)
  | .appendChar c =>
    let (rc, sb, h) := r.sb.appendChar c r.heap
    (.status rc, sb, h)
  | .len => (.size r.sb.len, r.sb, r.heap)
  | .clear => (.done, r.sb.clear, r.heap)

/-- One call. -/
def step (r : Run) (c : Call) : Run :=
  ⟨(r.exec c).2.1, (r.exec c).2.2, (c, (r.exec c).1) :: r.history⟩

end Run

/-- The runs of a builder from any initialisation that finds the given heap. -/
def system (a : Allocator) (h₀ : Heap) : System Run Call where
  init r := ∃ initialCapacity rc, initialCapacity < 2 ^ 64 ∧
    init a initialCapacity h₀ = (rc, r.sb, r.heap) ∧ r.history = []
  step r c := some (r.step c)

/-- The bytes of the successful appends since the last clear. -/
def expected : List (Call × Outcome) → List UInt8
  | [] => []
  | (.append cstr, .status .ok) :: history => expected history ++ viewFromStr cstr
  | (.appendView view, .status .ok) :: history => expected history ++ view
  | (.appendChar c, .status .ok) :: history => expected history ++ [c]
  | (.clear, _) :: _ => []
  | _ :: history => expected history

/-! ## The buffer -/

/-- The buffer is terminated behind the contents; before it exists there are none. -/
structure Wf (sb : StringBuilder) : Prop where
  fits : sb.capacity < 2 ^ 63
  null : sb.data = none → sb.len = 0 ∧ sb.capacity = 0
  terminated : sb.data ≠ none → sb.len < sb.capacity ∧ sb.bytes sb.len = 0

variable {sb : StringBuilder}

theorem Wf.len_lt (h : Wf sb) : sb.len < 2 ^ 63 := by
  have := h.fits
  by_cases hd : sb.data = none
  · have := h.null hd
    omega
  · have := h.terminated hd
    omega

theorem lazy_wf (a : Allocator) : Wf (lazy a) :=
  ⟨by simp [lazy], fun _ => ⟨rfl, rfl⟩, fun hd => absurd rfl hd⟩

/-- The loop ends with enough room, and in a word. -/
theorem growLoop_ge {needed : ℕ} (hn : needed < 2 ^ 64) :
    ∀ fuel cap, cap < 2 ^ 64 → needed ≤ cap * 2 ^ fuel →
      needed ≤ growLoop needed fuel cap ∧ growLoop needed fuel cap < 2 ^ 64 := by
  intro fuel
  induction fuel with
  | zero =>
    intro cap hcap hle
    rw [pow_zero, Nat.mul_one] at hle
    exact ⟨hle, hcap⟩
  | succ fuel ih =>
    intro cap hcap hle
    unfold growLoop
    by_cases hlt : cap < needed
    · rw [if_pos hlt]
      by_cases hbig : cap > sizeMax / 2
      · rw [if_pos hbig]
        exact ⟨le_refl _, hn⟩
      · rw [if_neg hbig]
        unfold sizeMax Word64.maxWord at hbig
        rw [wrap_of_lt (by omega)]
        refine ih (cap * 2) (by omega) ?_
        rw [Nat.mul_assoc, ← pow_succ']
        exact hle
    · rw [if_neg hlt]
      exact ⟨by omega, hcap⟩

/-- The capacity `sb_ensure` asks for is enough. -/
theorem newcap_ge (hcap : sb.capacity < 2 ^ 64) {needed : ℕ} (hn : needed < 2 ^ 64) :
    needed ≤ sb.newcap needed := by
  unfold newcap minCapacity
  split_ifs with hz
  · exact (growLoop_ge hn 64 16 (by norm_num) (by omega)).1
  · refine (growLoop_ge hn 64 sb.capacity hcap ?_).1
    have : 1 * 2 ^ 64 ≤ sb.capacity * 2 ^ 64 := Nat.mul_le_mul_right _ (by omega)
    omega

/-- What `sb_ensure` does, and what it asks of the allocator. -/
theorem ensure_cases (sb : StringBuilder) (needed : ℕ) (h : Heap) :
    (needed ≤ sb.capacity ∧ sb.ensure needed h = (.ok, sb, h)) ∨
    sb.ensure needed h = (.errOutOfMemory, sb, ⟨h.requests + 1,
      .realloc sb.data sb.capacity (sb.newcap needed) 1 none :: h.log⟩) ∨
    ∃ b, sb.capacity < needed ∧
      sb.allocator.alloc h.requests (sb.newcap needed) 1 = some b ∧
      sb.ensure needed h = (.ok, sb.moved (sb.newcap needed) b, ⟨h.requests + 1,
        .realloc sb.data sb.capacity (sb.newcap needed) 1 (some b.addr) :: h.log⟩) := by
  unfold ensure
  by_cases hle : needed ≤ sb.capacity
  · rw [if_pos hle]
    exact Or.inl ⟨hle, rfl⟩
  rw [if_neg hle]
  rcases d4npRealloc_cases sb.allocator sb.data sb.bytes sb.capacity (sb.newcap needed) 1 h
    with he | ⟨b, hb, he⟩
  · refine Or.inr (Or.inl ?_)
    simp only [he]
  · refine Or.inr (Or.inr ⟨b, by omega, hb, ?_⟩)
    simp only [he]
    rfl

/-- A buffer with room for the contents, that holds them; the terminator is there if there was a
buffer before. -/
structure Roomy (sb sb' : StringBuilder) (needed : ℕ) : Prop where
  fits : sb'.capacity < 2 ^ 63
  capacity_ge : sb.capacity ≤ sb'.capacity
  room : needed ≤ sb'.capacity
  data_ne : 0 < needed → sb'.data ≠ none
  null : sb'.data = none ↔ sb'.capacity = 0
  len_eq : sb'.len = sb.len
  contents_eq : sb'.contents = sb.contents
  terminator : sb.data ≠ none → sb'.bytes sb.len = 0
  allocator_eq : sb'.allocator = sb.allocator

/-- **Growth.** It fails and changes nothing, or it gives a buffer with the room asked for. -/
theorem Wf.ensure (h : Wf sb) (ha : sb.allocator.Bounded) {needed : ℕ} (hn : needed < 2 ^ 64)
    (heap : Heap) :
    (∃ rc heap', rc ≠ .ok ∧ sb.ensure needed heap = (rc, sb, heap')) ∨
    ∃ sb' heap', sb.ensure needed heap = (.ok, sb', heap') ∧ Roomy sb sb' needed := by
  rcases ensure_cases sb needed heap with ⟨hle, he⟩ | he | ⟨b, hlt, hb, he⟩
  · refine Or.inr ⟨sb, heap, he, h.fits, le_refl _, hle, fun hpos hd => ?_,
      ⟨fun hd => (h.null hd).2, fun hz => ?_⟩, rfl, rfl, fun hd => (h.terminated hd).2, rfl⟩
    · have := (h.null hd).2
      omega
    · by_contra hd
      have := (h.terminated hd).1
      omega
  · exact Or.inl ⟨.errOutOfMemory, _, by simp, he⟩
  · have hge := newcap_ge (h.fits.trans (by norm_num)) hn
    -- whatever lies below the old capacity is carried over
    have hkeep : sb.data ≠ none → ∀ x < sb.capacity,
        (sb.moved (sb.newcap needed) b).bytes x = sb.bytes x :=
      fun hd x hx => resized_bytes hd hx (by omega)
    refine Or.inr ⟨_, _, he, ha hb, hlt.le.trans hge, hge, nofun, iff_of_false nofun ?_, rfl,
      ?_, fun hd => ?_, rfl⟩
    · show sb.newcap needed ≠ 0
      omega
    · by_cases hd : sb.data = none
      · show front _ sb.len = front _ sb.len
        rw [(h.null hd).1]
        rfl
      · refine front_congr fun x hx => hkeep hd x ?_
        have hx' : x < sb.len := hx
        have := (h.terminated hd).1
        omega
    · rw [hkeep hd _ (h.terminated hd).1]
      exact (h.terminated hd).2

/-- Bytes written behind the contents, with room for the terminator. -/
theorem Roomy.write {sb' : StringBuilder} {l : List UInt8} {needed : ℕ}
    (hr : Roomy sb sb' needed) (hn : needed = sb.len + l.length + 1) :
    Wf (sb'.write l) ∧ (sb'.write l).contents = sb.contents ++ l ∧
      (sb'.write l).allocator = sb.allocator := by
  have hfit := hr.fits
  have hroom := hr.room
  have hlen := hr.len_eq
  have hlen' : wrap (sb'.len + l.length) = sb'.len + l.length := wrap_of_lt (by omega)
  refine ⟨⟨hr.fits, fun hd => absurd hd (hr.data_ne (by omega)), fun _ => ⟨?_, ?_⟩⟩, ?_,
    hr.allocator_eq⟩
  · show wrap (sb'.len + l.length) < sb'.capacity
    omega
  · show writeList _ (wrap (sb'.len + l.length)) [0] (wrap (sb'.len + l.length)) = 0
    simp [writeList]
  · show front (writeList _ (wrap (sb'.len + l.length)) [0]) (wrap (sb'.len + l.length)) = _
    rw [front_writeList_of_le _ _ (le_refl _), hlen', front_writeList]
    show sb'.contents ++ l = _
    rw [hr.contents_eq]

/-- A builder without contents, terminated at the start of its buffer. -/
theorem Roomy.terminate_start {sb' : StringBuilder} {needed : ℕ} (hr : Roomy sb sb' needed)
    (hz : sb.len = 0) (hd : sb'.data ≠ none) :
    Wf (sb'.terminate 0) ∧ (sb'.terminate 0).contents = [] ∧
      (sb'.terminate 0).allocator = sb.allocator := by
  have hlen : sb'.len = 0 := hr.len_eq.trans hz
  refine ⟨⟨hr.fits, fun hn => absurd hn hd, fun _ => ⟨?_, ?_⟩⟩, ?_, hr.allocator_eq⟩
  · show sb'.len < sb'.capacity
    rw [hlen]
    exact Nat.pos_of_ne_zero fun hcap => hd (hr.null.mpr hcap)
  · show writeList sb'.bytes 0 [0] sb'.len = 0
    rw [hlen]
    rfl
  · show front _ sb'.len = []
    rw [hlen]
    rfl

/-- A terminator is nothing written, and a terminator. -/
theorem terminate_eq_write (hlen : sb.len < 2 ^ 64) : sb.terminate sb.len = sb.write [] := by
  have hwrap : wrap (sb.len + 0) = sb.len := wrap_of_lt hlen
  unfold write
  simp only [writeList_nil, List.length_nil, hwrap]

/-- A call that fails and changes nothing, or appends the bytes. -/
def Appends (sb : StringBuilder) (l : List UInt8) (res : Status × StringBuilder × Heap) : Prop :=
  (res.1 ≠ .ok ∧ res.2.1 = sb) ∨
  (res.1 = .ok ∧ Wf res.2.1 ∧ res.2.1.contents = sb.contents ++ l ∧
    res.2.1.allocator = sb.allocator)

/-- **Appending.** A call that makes room and then writes. -/
theorem Wf.ensure_write (h : Wf sb) (ha : sb.allocator.Bounded) {l : List UInt8} {needed : ℕ}
    (hn : needed = sb.len + l.length + 1) (hlt : needed < 2 ^ 64) (heap : Heap)
    (f : StringBuilder → StringBuilder)
    (hf : ∀ sb' : StringBuilder, sb'.len = sb.len → f sb' = sb'.write l) :
    Appends sb l (match sb.ensure needed heap with
      | (.ok, sb, h) => (.ok, f sb, h)
      | (rc, sb, h) => (rc, sb, h)) := by
  rcases h.ensure ha hlt heap with ⟨rc, heap', hrc, he⟩ | ⟨sb', heap', he, hr⟩
  · rw [he]
    left
    cases rc <;> first | exact absurd rfl hrc | exact ⟨hrc, rfl⟩
  · rw [he]
    right
    show Status.ok = .ok ∧ Wf (f sb') ∧ (f sb').contents = _ ∧ (f sb').allocator = _
    rw [hf sb' hr.len_eq]
    exact ⟨rfl, hr.write hn⟩

theorem Wf.appendView (h : Wf sb) (ha : sb.allocator.Bounded) (view : List UInt8) (heap : Heap) :
    Appends sb view (sb.appendView view heap) := by
  have hlen := h.len_lt
  unfold StringBuilder.appendView
  by_cases hz : view.length = 0
  · rw [if_pos hz]
    have hnil : view = [] := List.length_eq_zero_iff.mp hz
    subst hnil
    have hw : wrap (sb.len + 1) = sb.len + 1 := wrap_of_lt (by omega)
    rw [hw]
    refine h.ensure_write ha rfl (by omega) heap (fun sb => sb.terminate sb.len) fun sb' hl => ?_
    exact terminate_eq_write (by omega)
  · rw [if_neg hz]
    by_cases hover : view.length > sub (sub sizeMax sb.len) 1
    · rw [if_pos hover]
      exact Or.inl ⟨by simp, rfl⟩
    · rw [if_neg hover]
      unfold sizeMax Word64.maxWord sub at hover
      have hw : wrap (wrap (sb.len + view.length) + 1) = sb.len + view.length + 1 := by
        rw [wrap_of_lt (show sb.len + view.length < 2 ^ 64 by omega), wrap_of_lt (by omega)]
      rw [hw]
      exact h.ensure_write ha rfl (by omega) heap (fun sb => sb.write view) fun _ _ => rfl

theorem Wf.appendChar (h : Wf sb) (ha : sb.allocator.Bounded) (c : UInt8) (heap : Heap) :
    Appends sb [c] (sb.appendChar c heap) := by
  have hlen := h.len_lt
  unfold StringBuilder.appendChar
  rw [wrap_of_lt (show sb.len + 2 < 2 ^ 64 by omega)]
  have hlt : sb.len + [c].length + 1 < 2 ^ 64 := by
    rw [List.length_singleton]
    omega
  exact h.ensure_write ha rfl hlt heap (fun sb => sb.write [c]) fun _ _ => rfl

/-- **Reservation.** It fails and changes nothing, or keeps the contents. -/
theorem Wf.reserve (h : Wf sb) (ha : sb.allocator.Bounded) {n : ℕ} (hn : n < 2 ^ 64)
    (heap : Heap) : Appends sb [] (sb.reserve n heap) := by
  unfold StringBuilder.reserve
  rcases h.ensure ha hn heap with ⟨rc, heap', hrc, he⟩ | ⟨sb', heap', he, hr⟩
  · rw [he]
    exact Or.inl ⟨by simp [hrc], by simp [hrc]⟩
  · rw [he]
    have hcap := hr.capacity_ge
    simp only
    split_ifs with hc
    · -- an empty builder with a buffer: the terminator is at its start
      obtain ⟨_, hd, hz⟩ := hc
      have hlen : sb.len = 0 := hr.len_eq.symm.trans hz
      obtain ⟨hW, hcont, hal⟩ := hr.terminate_start hlen hd
      refine Or.inr ⟨rfl, hW, hcont.trans ?_, hal⟩
      rw [contents, hlen]
      rfl
    · refine Or.inr ⟨rfl, ⟨hr.fits, fun hd => ?_, fun hd => ?_⟩, ?_, hr.allocator_eq⟩
      · have hz := hr.null.mp hd
        have hd' : sb.data = none := by
          by_contra hne
          have := (h.terminated hne).1
          omega
        exact ⟨hr.len_eq.trans (h.null hd').1, hz⟩
      · have hne : sb.data ≠ none := fun hd' =>
          hc ⟨trivial, hd, hr.len_eq.trans (h.null hd').1⟩
        rw [hr.len_eq]
        exact ⟨(h.terminated hne).1.trans_le hcap, hr.terminator hne⟩
      · show sb'.contents = sb.contents ++ []
        rw [hr.contents_eq, List.append_nil]

theorem Wf.cstr (h : Wf sb) :
    front sb.cstr sb.len = sb.contents ∧ sb.cstr sb.len = 0 ∧ sb.view = sb.contents := by
  unfold StringBuilder.cstr StringBuilder.view contents
  by_cases hd : sb.data = none
  · rw [if_pos hd, if_pos hd, (h.null hd).1]
    exact ⟨rfl, rfl, rfl⟩
  · rw [if_neg hd, if_neg hd]
    exact ⟨rfl, (h.terminated hd).2, rfl⟩

theorem Wf.clear (h : Wf sb) :
    Wf sb.clear ∧ sb.clear.contents = [] ∧ sb.clear.allocator = sb.allocator := by
  unfold StringBuilder.clear
  by_cases hd : sb.data = none
  · rw [if_neg (not_not.mpr hd)]
    exact ⟨⟨h.fits, fun _ => ⟨rfl, (h.null hd).2⟩, fun hne => absurd hd hne⟩, rfl, rfl⟩
  · rw [if_pos hd]
    have hlt := (h.terminated hd).1
    refine ⟨⟨h.fits, fun hn => absurd hn hd, fun _ => ⟨?_, rfl⟩⟩, rfl, rfl⟩
    show 0 < sb.capacity
    omega

/-- An initialisation whose allocation is refused leaves the builder without a buffer. -/
theorem init_cases {a : Allocator} (ha : a.Bounded) {n : ℕ} (hn : n < 2 ^ 64) {heap heap' : Heap}
    {rc : Status} (hi : init a n heap = (rc, sb, heap')) :
    Wf sb ∧ sb.contents = [] ∧ sb.allocator = a ∧ (rc ≠ .ok → sb = lazy a) := by
  unfold init at hi
  split_ifs at hi with hpos
  · rcases (lazy_wf a).ensure ha hn heap with ⟨rc', heap'', hrc, he⟩ | ⟨sb', heap'', he, hr⟩
    · rw [he] at hi
      have hsb : sb = lazy a := by
        cases rc' <;> first | exact absurd rfl hrc | (cases hi; rfl)
      rw [hsb]
      exact ⟨lazy_wf a, rfl, rfl, fun _ => rfl⟩
    · rw [he] at hi
      cases hi
      obtain ⟨hW, hcont, hal⟩ := hr.terminate_start rfl (hr.data_ne hpos)
      exact ⟨hW, hcont, hal, fun hne => absurd rfl hne⟩
  · cases hi
    exact ⟨lazy_wf a, rfl, rfl, fun _ => rfl⟩

/-! ## Contents -/

variable {a : Allocator}

/-- The builder is well formed and holds what the history says. -/
structure Run.Inv (a : Allocator) (r : Run) : Prop where
  wf : Wf r.sb
  allocator_eq : r.sb.allocator = a
  refines : r.sb.contents = expected r.history

/-- A call that appends, and what the history makes of it. -/
theorem Run.Inv.of_appends {r : Run} (h : r.Inv a) {l : List UInt8} {c : Call}
    {res : Status × StringBuilder × Heap} (happ : Appends r.sb l res)
    (hok : expected ((c, .status .ok) :: r.history) = expected r.history ++ l)
    (hfail : ∀ rc, rc ≠ .ok → expected ((c, .status rc) :: r.history) = expected r.history) :
    Run.Inv a ⟨res.2.1, res.2.2, (c, .status res.1) :: r.history⟩ := by
  rcases happ with ⟨hrc, hsb⟩ | ⟨hrc, hW, hcont, hal⟩
  · refine ⟨?_, ?_, ?_⟩
    · rw [hsb]
      exact h.wf
    · rw [hsb]
      exact h.allocator_eq
    · show res.2.1.contents = expected ((c, .status res.1) :: r.history)
      rw [hsb, hfail _ hrc]
      exact h.refines
  · refine ⟨hW, hal.trans h.allocator_eq, ?_⟩
    show res.2.1.contents = expected ((c, .status res.1) :: r.history)
    rw [hrc, hok, hcont, h.refines]

/-- The bytes a call appends. -/
def Call.appended : Call → List UInt8
  | .append cstr => viewFromStr cstr
  | .appendView view => view
  | .appendChar c => [c]
  | _ => []

/-- The calls that may be refused memory. -/
theorem Run.Inv.appends {r : Run} (ha : a.Bounded) (h : r.Inv a) (c : Call)
    (hc : c ≠ .len ∧ c ≠ .clear) :
    ∃ rc sb heap, r.exec c = (.status rc, sb, heap) ∧ Appends r.sb c.appended (rc, sb, heap) := by
  have ha' : r.sb.allocator.Bounded := by rw [h.allocator_eq]; exact ha
  cases c with
  | reserve n => exact ⟨_, _, _, rfl, h.wf.reserve ha' n.isLt r.heap⟩
  | append cstr => exact ⟨_, _, _, rfl, h.wf.appendView ha' (viewFromStr cstr) r.heap⟩
  | appendView view => exact ⟨_, _, _, rfl, h.wf.appendView ha' view r.heap⟩
  | appendChar c => exact ⟨_, _, _, rfl, h.wf.appendChar ha' c r.heap⟩
  | len => exact absurd rfl hc.1
  | clear => exact absurd rfl hc.2

theorem expected_status {c : Call} (hc : c ≠ .len ∧ c ≠ .clear) (rc : Status)
    (history : List (Call × Outcome)) :
    expected ((c, .status rc) :: history) =
      if rc = .ok then expected history ++ c.appended else expected history := by
  cases c with
  | reserve n =>
    show expected history = _
    rw [show Call.appended (.reserve n) = [] from rfl, List.append_nil, ite_self]
  | append cstr => cases rc <;> rfl
  | appendView view => cases rc <;> rfl
  | appendChar c => cases rc <;> rfl
  | len => exact absurd rfl hc.1
  | clear => exact absurd rfl hc.2

theorem Run.Inv.step {r : Run} (ha : a.Bounded) (h : r.Inv a) (c : Call) : (r.step c).Inv a := by
  by_cases hl : c = .len
  · subst hl
    exact ⟨h.wf, h.allocator_eq, h.refines⟩
  by_cases hc : c = .clear
  · subst hc
    obtain ⟨hW, hcont, hal⟩ := h.wf.clear
    exact ⟨hW, hal.trans h.allocator_eq, hcont⟩
  · obtain ⟨rc, sb, heap, he, happ⟩ := h.appends ha c ⟨hl, hc⟩
    unfold Run.step
    rw [he]
    refine h.of_appends happ ?_ fun rc hrc => ?_
    · rw [expected_status ⟨hl, hc⟩, if_pos rfl]
    · rw [expected_status ⟨hl, hc⟩, if_neg hrc]

theorem reachable_inv (ha : a.Bounded) {h₀ : Heap} {r : Run} (h : Reachable (system a h₀) r) :
    r.Inv a := by
  refine h.induct (P := fun r => r.Inv a) ?_ ?_
  · rintro r ⟨n, rc, hn, hi, hnil⟩
    obtain ⟨hW, hcont, hal, _⟩ := init_cases ha hn hi
    exact ⟨hW, hal, by rw [hcont, hnil]; rfl⟩
  · intro r c t hr hs
    cases hs
    exact hr.step ha c

/-- **The string builder.** In every state reached from an initialisation by any calls, with an
allocator that may refuse any request: the contents are the bytes of the successful appends since
the last clear; where there is a buffer, the contents end inside it and a terminator follows them;
where there is none, the length and the capacity are zero; so `d4np_sb_cstr` and `d4np_sb_view` give
the contents, the first terminated; a call that fails changes nothing, and an initialisation that is
refused memory leaves the empty builder. -/
theorem stringBuilder_holds_appends (ha : a.Bounded) {h₀ : Heap} {r : Run}
    (h : Reachable (system a h₀) r) :
    r.sb.contents = expected r.history ∧ r.sb.len = (expected r.history).length ∧
    (r.sb.data ≠ none → r.sb.len < r.sb.capacity ∧ r.sb.bytes r.sb.len = 0) ∧
    (r.sb.data = none → r.sb.len = 0 ∧ r.sb.capacity = 0) ∧
    front r.sb.cstr r.sb.len = expected r.history ∧ r.sb.cstr r.sb.len = 0 ∧
    r.sb.view = expected r.history ∧
    (∀ c, (r.exec c).1.failed = true → (r.step c).sb = r.sb) ∧
    ∀ initialCapacity heap rc sb heap', initialCapacity < 2 ^ 64 →
      init a initialCapacity heap = (rc, sb, heap') → rc ≠ .ok → sb = lazy a := by
  have hI := reachable_inv ha h
  obtain ⟨hcstr, hterm, hview⟩ := hI.wf.cstr
  rw [hI.refines] at hcstr hview
  refine ⟨hI.refines, ?_, hI.wf.terminated, hI.wf.null, hcstr, hterm, hview, fun c hf => ?_,
    fun n heap rc sb heap' hn hi => (init_cases ha hn hi).2.2.2⟩
  · rw [← hI.refines, contents, front_length]
  · by_cases hl : c = .len
    · subst hl
      cases hf
    by_cases hc : c = .clear
    · subst hc
      cases hf
    obtain ⟨rc, sb, heap, he, happ⟩ := hI.appends ha c ⟨hl, hc⟩
    show (r.exec c).2.1 = r.sb
    rw [he] at hf ⊢
    rcases happ with ⟨_, hsb⟩ | ⟨hrc, _⟩
    · exact hsb
    · replace hrc : rc = .ok := hrc
      rw [hrc] at hf
      cases hf

/-- A string, a byte and an empty view. -/
theorem stringBuilder_holds_appends_three_calls :
    ∃ r, Reachable (system pageAllocator ⟨0, []⟩) r ∧ r.sb.contents = [97, 98, 99] ∧
      r.sb.len < r.sb.capacity ∧ r.sb.bytes r.sb.len = 0 := by
  have h0 : Reachable (system pageAllocator ⟨0, []⟩) ⟨lazy pageAllocator, ⟨0, []⟩, []⟩ :=
    .init ⟨0, .ok, by norm_num, rfl, rfl⟩
  have hr := ((h0.step (e := .append (some [97, 98, 0, 100])) rfl).step (e := .appendChar 99)
    rfl).step (e := .appendView []) rfl
  obtain ⟨hcont, _, hterm, _⟩ := stringBuilder_holds_appends pageAllocator_bounded hr
  exact ⟨_, hr, hcont.trans rfl, hterm (by decide)⟩

/-! ## The block through a run -/

/-- What refused and granted reallocations keep of the heap, the pointer and the capacity. -/
structure Tracks (a : Allocator) (P : Heap → Option ℕ → ℕ → Prop) : Prop where
  refused : ∀ {h ptr size} n, P h ptr size →
    P ⟨h.requests + 1, .realloc ptr size n 1 none :: h.log⟩ ptr size
  granted : ∀ {h ptr size n b}, P h ptr size → a.alloc h.requests n 1 = some b →
    P ⟨h.requests + 1, .realloc ptr size n 1 (some b.addr) :: h.log⟩ (some b.addr) n

/-- A builder of the allocator whose block is as tracked. -/
def Tracked (a : Allocator) (P : Heap → Option ℕ → ℕ → Prop) (heap : Heap) (sb : StringBuilder) :
    Prop :=
  sb.allocator = a ∧ P heap sb.data sb.capacity

section Tracks

variable {P : Heap → Option ℕ → ℕ → Prop} {heap : Heap}

theorem Tracks.ensure (hP : Tracks a P) (h : Tracked a P heap sb) (needed : ℕ) :
    Tracked a P (sb.ensure needed heap).2.2 (sb.ensure needed heap).2.1 := by
  rcases ensure_cases sb needed heap with ⟨_, he⟩ | he | ⟨b, _, hb, he⟩
  · rw [he]
    exact h
  · rw [he]
    exact ⟨h.1, hP.refused _ h.2⟩
  · rw [he]
    rw [h.1] at hb
    exact ⟨h.1, hP.granted h.2 hb⟩

/-- A call that writes into the buffer where it was granted the room. -/
theorem Tracks.ensure_then (hP : Tracks a P) (h : Tracked a P heap sb) (needed : ℕ)
    (f : StringBuilder → StringBuilder) (hf : ∀ heap sb, Tracked a P heap sb → Tracked a P heap (f sb)) :
    Tracked a P (match sb.ensure needed heap with
      | (.ok, sb, h) => ((.ok, f sb, h) : Status × StringBuilder × Heap)
      | (rc, sb, h) => (rc, sb, h)).2.2
    (match sb.ensure needed heap with
      | (.ok, sb, h) => ((.ok, f sb, h) : Status × StringBuilder × Heap)
      | (rc, sb, h) => (rc, sb, h)).2.1 := by
  have hr := hP.ensure h needed
  rcases he : sb.ensure needed heap with ⟨rc, sb', heap'⟩
  rw [he] at hr
  cases rc with
  | ok => exact hf _ _ hr
  | _ => exact hr

theorem Tracked.clear (h : Tracked a P heap sb) : Tracked a P heap sb.clear := by
  unfold StringBuilder.clear
  by_cases hd : sb.data = none
  · rw [if_neg (not_not.mpr hd)]
    exact h
  · rw [if_pos hd]
    exact h

theorem Tracks.init (hP : Tracks a P) (h : P heap none 0) (n : ℕ) :
    Tracked a P (init a n heap).2.2 (init a n heap).2.1 := by
  have h0 : Tracked a P heap (lazy a) := ⟨rfl, h⟩
  unfold StringBuilder.init
  split_ifs
  · exact hP.ensure_then h0 n (fun sb => sb.terminate 0) fun _ _ h => h
  · exact h0

theorem Tracks.appendView (hP : Tracks a P) (h : Tracked a P heap sb) (view : List UInt8) :
    Tracked a P (sb.appendView view heap).2.2 (sb.appendView view heap).2.1 := by
  unfold StringBuilder.appendView
  split_ifs
  · exact hP.ensure_then h _ (fun sb => sb.terminate sb.len) fun _ _ h => h
  · exact h
  · exact hP.ensure_then h _ (fun sb => sb.write view) fun _ _ h => h

theorem Tracks.reserve (hP : Tracks a P) (h : Tracked a P heap sb) (n : ℕ) :
    Tracked a P (sb.reserve n heap).2.2 (sb.reserve n heap).2.1 := by
  have hr := hP.ensure h n
  unfold StringBuilder.reserve
  rcases he : sb.ensure n heap with ⟨rc, sb', heap'⟩
  rw [he] at hr
  simp only
  split_ifs
  · exact hr
  · exact hr

theorem Tracks.step (hP : Tracks a P) {r : Run} (h : Tracked a P r.heap r.sb) (c : Call) :
    Tracked a P (r.step c).heap (r.step c).sb := by
  cases c with
  | reserve n => exact hP.reserve h n
  | append cstr => exact hP.appendView h (viewFromStr cstr)
  | appendView view => exact hP.appendView h view
  | appendChar c => exact hP.ensure_then h _ (fun sb => sb.write [c]) fun _ _ h => h
  | len => exact h
  | clear => exact h.clear

/-- What reallocations keep holds throughout a run. -/
theorem Tracks.reachable (hP : Tracks a P) {h₀ : Heap} (h0 : P h₀ none 0) {r : Run}
    (h : Reachable (system a h₀) r) : P r.heap r.sb.data r.sb.capacity := by
  refine (h.induct (P := fun r => Tracked a P r.heap r.sb) ?_ ?_).2
  · rintro r ⟨n, rc, _, hi, _⟩
    have hr := hP.init h0 n
    rw [hi] at hr
    exact hr
  · intro r c t hr hs
    cases hs
    exact hP.step hr c

end Tracks

end StringBuilder

end D4np
