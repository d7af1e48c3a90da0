import D4np.Ds.HashmapStride
import D4np.Ds.RingBuffer
import D4np.Ds.StringBuilder
import D4np.Ds.Vector
import Mathlib.Tactic

/-!
# The containers at the top of `size_t`

Three computations of a size are not guarded, and a guard further down does not always catch the
result.  The vector doubles its capacity before it asks for it: a doubled capacity that wrapped is
below the old one, for which the reservation has nothing to do.  The string builder adds two to the
length for a single byte, which wraps to zero for the longest string there is.  The ring buffer
takes the largest power of two for a number of slots above it.  The siblings of these computations
are guarded: `sb_ensure` does not double past the end, `d4np_sb_append_view` compares before it
adds, and the strides of the hash map are too large for a table of `2 ^ 63` slots.

For each of the three the condition under which the promise holds is given exactly; it fails for a
single element size, or a single length, near the end of the address space.
-/

namespace D4np

open Word64 ByteMem

/-- An allocator that grants whatever fits between the first aligned address and the end. -/
def wideAllocator : Allocator where
  alloc _ size align := if size ≤ 2 ^ 64 - 16 ∧ align ∣ 16 then some ⟨16, fun _ => 0⟩ else none
  addr_pos := by
    intro n size align b h
    split_ifs at h
    cases h
    exact Nat.succ_pos 15
  addr_le := by
    intro n size align b h
    split_ifs at h with hc
    cases h
    simp only
    omega
  addr_dvd := by
    intro n size align b h _
    split_ifs at h with hc
    cases h
    exact hc.2

/-! ## The vector doubles its capacity -/

namespace Vec

variable {es : ℕ} {v : Vec es}

/-- The element at index `i` lies inside the block of `v'`, which is that of `v` or one that the
allocator granted for the capacity. -/
structure Inside (v v' : Vec es) (i : ℕ) (h : Heap) : Prop where
  lt : i < v'.capacity
  span : wrap (i * es) + es ≤ v'.capacity * es
  block : v'.data = v.data ∧ v'.capacity = v.capacity ∨
    ∃ b, v.allocator.alloc h.requests (v'.capacity * es) maxAlign = some b ∧ v'.data = some b.addr

/-- What is asked of a push: it stores its element inside the block, or it fails and changes
nothing. -/
def PushSafe (v : Vec es) (elem : Option (Vector UInt8 es)) (h : Heap) : Prop :=
  ((v.push elem h).1 = .ok ∧ v.Inside (v.push elem h).2.1 v.len h) ∨
    (v.push elem h).1 ≠ .ok ∧ (v.push elem h).2.1 = v

theorem span_le {i n : ℕ} (hi : i < n) : wrap (i * es) + es ≤ n * es := by
  have := span_end_le hi es
  have := Nat.mod_le (i * es) (2 ^ 64)
  unfold wrap
  omega

theorem pushSafe_of_error {elem : Option (Vector UInt8 es)} {rc : Status} {h h' : Heap}
    (hp : v.push elem h = (rc, v, h')) (hrc : rc ≠ .ok) : v.PushSafe elem h := by
  unfold PushSafe
  rw [hp]
  exact Or.inr ⟨hrc, rfl⟩

theorem pushSafe_of_room (hlt : v.len < v.capacity) (e : Vector UInt8 es) (h : Heap) :
    v.PushSafe (some e) h := by
  have hp : v.push (some e) h = (.ok, v.store e, h) := if_neg hlt.ne
  unfold PushSafe
  rw [hp]
  exact Or.inl ⟨rfl, hlt, span_le hlt, Or.inl ⟨rfl, rfl⟩⟩

/-- A push onto a full vector goes as its reservation goes. -/
theorem push_of_full {rc : Status} {v' : Vec es} {h h' : Heap} (hfull : v.len = v.capacity)
    (hr : v.reserve v.grown h = (rc, v', h')) (e : Vector UInt8 es) :
    v.push (some e) h = if rc = .ok then (.ok, v'.store e, h') else (rc, v', h') := by
  simp only [push]
  rw [if_pos hfull, hr]
  cases rc <;> rfl

theorem pushSafe_of_grown (hes : 1 ≤ es) (hfull : v.len = v.capacity)
    (hgrown : v.capacity < v.grown) (e : Vector UInt8 es) (h : Heap) : v.PushSafe (some e) h := by
  rcases reserve_cases v v.grown h with ⟨hle, -⟩ | he | he | ⟨b, -, hn, hb, he⟩
  · omega
  · exact pushSafe_of_error ((push_of_full hfull he e).trans (if_neg (by decide))) (by decide)
  · exact pushSafe_of_error ((push_of_full hfull he e).trans (if_neg (by decide))) (by decide)
  · unfold PushSafe
    rw [push_of_full hfull he, if_pos rfl]
    have hmul := (Nat.le_div_iff_mul_le hes).mp hn
    have hw : wrap (v.grown * es) = v.grown * es := by
      unfold sizeMax Word64.maxWord at hmul
      exact wrap_of_lt (by omega)
    rw [hw] at hb
    have hlt : v.len < v.grown := by omega
    exact Or.inl ⟨rfl, hlt, span_le hlt, Or.inr ⟨b, hb, rfl⟩⟩

/-- The doubled capacity wraps, and the reservation finds that there is enough. -/
theorem push_of_wraps (hfull : v.len = v.capacity) (hcap : v.capacity < 2 ^ 64)
    (hbig : 2 ^ 63 ≤ v.capacity) (e : Vector UInt8 es) (h : Heap) :
    v.push (some e) h = (.ok, v.store e, h) := by
  have hgrown : v.grown ≤ v.capacity := by
    unfold grown wrap
    rw [if_neg (by omega)]
    omega
  have hr : v.reserve v.grown h = (.ok, v, h) := if_pos hgrown
  rw [push_of_full hfull hr, if_pos rfl]

/-- **When a push is safe.** It writes outside the block exactly if the vector is full and its
capacity cannot be doubled in a word. -/
theorem push_safe_iff (hes : 1 ≤ es) (hlen : v.len ≤ v.capacity)
    (hfits : v.capacity * es ≤ sizeMax) (elem : Option (Vector UInt8 es)) (h : Heap) :
    v.PushSafe elem h ↔ elem = none ∨ v.len < v.capacity ∨ v.capacity < 2 ^ 63 := by
  rcases elem with _ | e
  · exact iff_of_true (pushSafe_of_error rfl (by decide)) (Or.inl rfl)
  by_cases hlt : v.len < v.capacity
  · exact iff_of_true (pushSafe_of_room hlt e h) (Or.inr (Or.inl hlt))
  have hfull : v.len = v.capacity := by omega
  by_cases hcap : v.capacity < 2 ^ 63
  · exact iff_of_true (pushSafe_of_grown hes hfull (capacity_lt_grown hcap) e h)
      (Or.inr (Or.inr hcap))
  · refine iff_of_false ?_ (not_or.mpr ⟨Option.some_ne_none e, not_or.mpr ⟨hlt, hcap⟩⟩)
    have hword : v.capacity < 2 ^ 64 := by
      have := Nat.le_mul_of_pos_right v.capacity hes
      unfold sizeMax Word64.maxWord at hfits
      omega
    unfold PushSafe
    rw [push_of_wraps hfull hword (by omega) e h]
    rintro (⟨-, hin⟩ | ⟨hne, -⟩)
    · exact hlt hin.lt
    · exact hne rfl

/-- A full vector of `n` bytes. -/
def fullVec (n : ℕ) : Vec 1 := ⟨wideAllocator, some 16, fun _ => 0, n, n⟩

theorem push_safe_iff_half : (fullVec (2 ^ 63 - 1)).PushSafe (some #v[7]) ⟨0, []⟩ :=
  (push_safe_iff (by decide) (by decide) (by decide) _ _).mpr (Or.inr (Or.inr (by decide)))

/-- A full vector of `2 ^ 63` bytes takes one more, behind its block. -/
theorem push_not_safe :
    (fullVec (2 ^ 63)).capacity * 1 ≤ sizeMax ∧ (fullVec (2 ^ 63)).len = 2 ^ 63 ∧
    ((fullVec (2 ^ 63)).push (some #v[7]) ⟨0, []⟩).1 = .ok ∧
    ((fullVec (2 ^ 63)).push (some #v[7]) ⟨0, []⟩).2.1.capacity = 2 ^ 63 ∧
    ¬ (fullVec (2 ^ 63)).PushSafe (some #v[7]) ⟨0, []⟩ := by
  refine ⟨by decide, rfl, rfl, rfl, ?_⟩
  rintro (⟨-, hin⟩ | ⟨hne, -⟩)
  · exact absurd hin.lt (by decide)
  · exact hne rfl

end Vec

/-! ## The string builder adds two to the length -/

namespace StringBuilder

variable {sb : StringBuilder}

/-- There is no buffer, or one with room for the terminator. -/
def Usable (sb : StringBuilder) : Prop :=
  (sb.data = none ∧ sb.len = 0 ∧ sb.capacity = 0) ∨
    (sb.data ≠ none ∧ sb.len < sb.capacity ∧ sb.capacity ≤ sizeMax)

/-- What an append of one byte to `sb` wrote, it wrote into the buffer: the byte behind the old
length, and the terminator behind the new one. -/
def InBuffer (sb : StringBuilder) (r : Status × StringBuilder × Heap) : Prop :=
  r.1 = .ok → r.2.1.data ≠ none ∧ sb.len < r.2.1.capacity ∧ r.2.1.len < r.2.1.capacity

/-- The two ways to append a byte come to the same, and stay in the buffer. -/
structure CharAsView (sb : StringBuilder) (c : UInt8) (h : Heap) : Prop where
  status : (sb.appendChar c h).1 = (sb.appendView [c] h).1
  len : (sb.appendChar c h).2.1.len = (sb.appendView [c] h).2.1.len
  capacity : (sb.appendChar c h).2.1.capacity = (sb.appendView [c] h).2.1.capacity
  contents : (sb.appendChar c h).2.1.contents = (sb.appendView [c] h).2.1.contents
  char_inside : sb.InBuffer (sb.appendChar c h)
  view_inside : sb.InBuffer (sb.appendView [c] h)

theorem Usable.capacity_lt (h : sb.Usable) : sb.capacity < 2 ^ 64 := by
  unfold Usable sizeMax Word64.maxWord at h
  omega

theorem Usable.len_le (h : sb.Usable) : sb.len ≤ 2 ^ 64 - 2 := by
  unfold Usable sizeMax Word64.maxWord at h
  omega

/-- The room the guard of `d4np_sb_append_view` finds. -/
theorem room_eq (hlen : sb.len ≤ 2 ^ 64 - 2) :
    sub (sub sizeMax sb.len) 1 = 2 ^ 64 - 2 - sb.len := by
  unfold sub sizeMax Word64.maxWord
  omega

/-- Below the longest string the view passes the guard, and the rest is the same code. -/
theorem appendView_singleton (hlen : sb.len < 2 ^ 64 - 2) (c : UInt8) (h : Heap) :
    sb.appendView [c] h = sb.appendChar c h := by
  have hguard : ¬ [c].length > sub (sub sizeMax sb.len) 1 := by
    rw [room_eq hlen.le, List.length_singleton]
    omega
  unfold appendView
  rw [if_neg (List.length_singleton.trans_ne one_ne_zero), if_neg hguard, List.length_singleton,
    wrap_wrap_add_one]
  rfl

/-- A buffer that `sb_ensure` has made large enough for a byte and the terminator. -/
theorem Usable.ensure_ok (h : sb.Usable) (hlen : sb.len < 2 ^ 64 - 2) {sb' : StringBuilder}
    {heap heap' : Heap} (he : sb.ensure (wrap (sb.len + 2)) heap = (.ok, sb', heap')) :
    sb'.data ≠ none ∧ sb'.len = sb.len ∧ sb.len + 2 ≤ sb'.capacity := by
  rw [wrap_of_lt (by omega)] at he
  rcases ensure_cases sb (sb.len + 2) heap with ⟨hle, he'⟩ | he' | ⟨b, -, -, he'⟩
  · cases he.symm.trans he'
    refine ⟨?_, rfl, hle⟩
    rcases h with ⟨-, -, hz⟩ | ⟨hd, -⟩
    · omega
    · exact hd
  · cases he.symm.trans he'
  · cases he.symm.trans he'
    exact ⟨Option.some_ne_none _, rfl, newcap_ge h.capacity_lt (by omega)⟩

theorem Usable.inBuffer (h : sb.Usable) (hlen : sb.len < 2 ^ 64 - 2) (c : UInt8) (heap : Heap) :
    sb.InBuffer (sb.appendChar c heap) := by
  unfold appendChar
  rcases he : sb.ensure (wrap (sb.len + 2)) heap with ⟨rc, sb', heap'⟩
  cases rc with
  | ok =>
    obtain ⟨hd, hl, hroom⟩ := h.ensure_ok hlen he
    intro _
    refine ⟨hd, show sb.len < sb'.capacity by omega, ?_⟩
    show wrap (sb'.len + 1) < sb'.capacity
    rw [hl, wrap_of_lt (by omega)]
    omega
  | _ => exact fun hok => by cases hok

/-- At the longest string the view does not pass the guard. -/
theorem appendView_longest (hlen : sb.len = 2 ^ 64 - 2) (c : UInt8) (h : Heap) :
    sb.appendView [c] h = (.errOverflow, sb, h) := by
  have hguard : [c].length > sub (sub sizeMax sb.len) 1 := by
    rw [room_eq hlen.le, List.length_singleton]
    omega
  unfold appendView
  rw [if_neg (List.length_singleton.trans_ne one_ne_zero), if_pos hguard]

/-- There the byte asks for no room at all, and gets it. -/
theorem appendChar_longest (hlen : sb.len = 2 ^ 64 - 2) (c : UInt8) (h : Heap) :
    sb.appendChar c h = (.ok, sb.write [c], h) := by
  have hensure : sb.ensure (wrap (sb.len + 2)) h = (.ok, sb, h) := by
    apply if_pos
    rw [hlen]
    exact Nat.zero_le _
  unfold appendChar
  rw [hensure]

/-- **When the two appends agree.** They do at every length but the longest, where the addition in
`d4np_sb_append_char` wraps to zero. -/
theorem appendChar_eq_appendView_iff (hsb : sb.Usable) (c : UInt8) (h : Heap) :
    sb.CharAsView c h ↔ sb.len ≠ 2 ^ 64 - 2 := by
  have hle := hsb.len_le
  by_cases hlen : sb.len = 2 ^ 64 - 2
  · refine iff_of_false (fun hagree => ?_) (not_not.mpr hlen)
    have hstatus := hagree.status
    rw [appendChar_longest hlen, appendView_longest hlen] at hstatus
    cases hstatus
  · refine iff_of_true ?_ hlen
    have hlt : sb.len < 2 ^ 64 - 2 := by omega
    have he := appendView_singleton hlt c h
    have hin := hsb.inBuffer hlt c h
    refine ⟨by rw [he], by rw [he], by rw [he], by rw [he], hin, ?_⟩
    rw [he]
    exact hin

/-- A builder with a buffer of `n + 1` bytes that is full. -/
def fullBuilder (n : ℕ) : StringBuilder := ⟨wideAllocator, some 1, fun _ => 0, n, n + 1⟩

theorem fullBuilder_usable {n : ℕ} (h : n ≤ 2 ^ 64 - 2) : (fullBuilder n).Usable := by
  refine Or.inr ⟨Option.some_ne_none 1, Nat.lt_succ_self n, ?_⟩
  show n + 1 ≤ 2 ^ 64 - 1
  omega

theorem appendChar_eq_appendView_iff_grows : (fullBuilder 3).CharAsView 7 ⟨0, []⟩ :=
  (appendChar_eq_appendView_iff (fullBuilder_usable (by decide)) 7 ⟨0, []⟩).mpr (by decide)

/-- A builder of `2 ^ 64 - 2` bytes takes one more as a byte, but not as a view. -/
theorem appendChar_ne_appendView :
    (fullBuilder (2 ^ 64 - 2)).Usable ∧
    ((fullBuilder (2 ^ 64 - 2)).appendChar 7 ⟨0, []⟩).1 = .ok ∧
    ((fullBuilder (2 ^ 64 - 2)).appendView [7] ⟨0, []⟩).1 = .errOverflow ∧
    ((fullBuilder (2 ^ 64 - 2)).appendChar 7 ⟨0, []⟩).2.1.len =
      ((fullBuilder (2 ^ 64 - 2)).appendChar 7 ⟨0, []⟩).2.1.capacity ∧
    ¬ (fullBuilder (2 ^ 64 - 2)).CharAsView 7 ⟨0, []⟩ := by
  refine ⟨fullBuilder_usable (by decide), rfl, rfl, rfl, fun hagree => ?_⟩
  exact absurd hagree.status (by decide)

end StringBuilder

/-! ## The ring buffer saturates its capacity -/

section Slots

variable {n cap r es ks vs : ℕ}

/-- The loop `while (cap < n)` of `next_pow2_at_least` ends with `r`, and no doubling wraps. -/
inductive Doubles (n : ℕ) : ℕ → ℕ → Prop
  | enough {cap : ℕ} : ¬ cap < n → Doubles n cap cap
  | saturated {cap : ℕ} : cap < n → cap > sizeMax / 2 → Doubles n cap cap
  | double {cap r : ℕ} : cap < n → ¬ cap > sizeMax / 2 → wrap (cap * 2) = cap * 2 →
    Doubles n (cap * 2) r → Doubles n cap r

/-- The least power of two that is at least `n`. -/
def IsLeastPow2 (n p : ℕ) : Prop := IsLeast {q | (∃ k, q = 2 ^ k) ∧ n ≤ q} p

/-- What is asked of the two loops and of the initialisations that use them: the loops end without
a wrap, and a table has the least number of slots that is enough. -/
structure EnoughSlots (n es ks vs : ℕ) : Prop where
  ring_loop : Doubles n 1 (RingBuffer.nextPow2AtLeast n)
  map_loop : Doubles n Hashmap.minCapacity (Hashmap.nextPow2AtLeast n)
  ring : ∀ a h rb h', RingBuffer.init a es n h = (.ok, some rb, h') → IsLeastPow2 n rb.capacity
  map : ∀ a hash keyEq h m h', Hashmap.init a ks vs n hash keyEq h = (.ok, some m, h') →
    IsLeastPow2 (max n 8) m.capacity

theorem pow_gt_half_iff {j : ℕ} (hj : j < 64) : 2 ^ j > sizeMax / 2 ↔ j = 63 := by
  constructor
  · intro h
    by_contra hne
    have : 2 ^ j ≤ 2 ^ 62 := Nat.pow_le_pow_right (by norm_num) (by omega)
    unfold sizeMax Word64.maxWord at h
    omega
  · rintro rfl
    decide

/-- The loop of the source is the one with rounds that is modelled. -/
theorem doubles_nextPow2Loop (n : ℕ) : ∀ fuel j, j < 64 → 64 ≤ j + fuel →
    Doubles n (2 ^ j) (nextPow2Loop n fuel (2 ^ j)) := by
  intro fuel
  induction fuel with
  | zero => intro j hj hf; omega
  | succ fuel ih =>
    intro j hj hf
    unfold nextPow2Loop
    by_cases hlt : 2 ^ j < n
    · rw [if_pos hlt]
      by_cases hsat : 2 ^ j > sizeMax / 2
      · rw [if_pos hsat]
        exact .saturated hlt hsat
      · have hne : j ≠ 63 := fun h => hsat ((pow_gt_half_iff hj).mpr h)
        have hexact : wrap (2 ^ j * 2) = 2 ^ j * 2 := by
          rw [← pow_succ]
          exact wrap_of_lt (Nat.pow_lt_pow_right (by norm_num) (by omega))
        rw [if_neg hsat, hexact]
        refine .double hlt hsat hexact ?_
        rw [← pow_succ]
        exact ih (j + 1) (by omega) (by omega)
    · rw [if_neg hlt]
      exact .enough hlt

/-- **Where the loop ends.** From a power of two, at the least one that is enough, but not above
`2 ^ 63`. -/
theorem Doubles.eq (h : Doubles n cap r) :
    ∀ j < 64, cap = 2 ^ j → r = 2 ^ min 63 (max j (Nat.clog 2 n)) := by
  induction h with
  | enough hle =>
    rintro j hj rfl
    have : Nat.clog 2 n ≤ j := Nat.clog_le_of_le_pow (not_lt.mp hle)
    congr 1
    omega
  | saturated _ hsat =>
    rintro j hj rfl
    rw [pow_gt_half_iff hj] at hsat
    congr 1
    omega
  | double hlt hsat _ _ ih =>
    rintro j hj rfl
    have hclog : j < Nat.clog 2 n := (Nat.lt_clog_iff_pow_lt (by norm_num)).mpr hlt
    rw [pow_gt_half_iff hj] at hsat
    rw [ih (j + 1) (by omega) (pow_succ 2 j).symm]
    congr 1
    omega

theorem isLeastPow2_clog (n : ℕ) : IsLeastPow2 n (2 ^ Nat.clog 2 n) := by
  refine ⟨⟨⟨_, rfl⟩, Nat.le_pow_clog (by norm_num) n⟩, ?_⟩
  rintro _ ⟨⟨k, rfl⟩, hk⟩
  exact Nat.pow_le_pow_right (by norm_num) (Nat.clog_le_of_le_pow hk)

theorem clog_le_iff : Nat.clog 2 n ≤ 63 ↔ n ≤ 2 ^ 63 := Nat.clog_le_iff_le_pow (by norm_num)

theorem clog_max_eight (n : ℕ) : Nat.clog 2 (max n 8) = max 3 (Nat.clog 2 n) := by
  rw [(Nat.clog_monotone 2).map_max, show Nat.clog 2 8 = 3 from Nat.clog_pow 2 3 (by norm_num),
    max_comm]

theorem ring_doubles (n : ℕ) : Doubles n 1 (RingBuffer.nextPow2AtLeast n) :=
  doubles_nextPow2Loop n 64 0 (by norm_num) (by norm_num)

theorem map_doubles (n : ℕ) : Doubles n Hashmap.minCapacity (Hashmap.nextPow2AtLeast n) :=
  doubles_nextPow2Loop n 64 3 (by norm_num) (by norm_num)

theorem ring_nextPow2 (n : ℕ) : RingBuffer.nextPow2AtLeast n = 2 ^ min 63 (Nat.clog 2 n) := by
  rw [(ring_doubles n).eq 0 (by norm_num) rfl, Nat.zero_max]

theorem map_nextPow2 (n : ℕ) :
    Hashmap.nextPow2AtLeast n = 2 ^ min 63 (Nat.clog 2 (max n 8)) := by
  rw [(map_doubles n).eq 3 (by norm_num) rfl, clog_max_eight]

/-- A saturated capacity passes the guard for elements of one byte only. -/
theorem half_le_div_iff (hs : es ≠ 0) : 2 ^ 63 ≤ sizeMax / es ↔ es = 1 := by
  rw [Nat.le_div_iff_mul_le (by omega)]
  unfold sizeMax Word64.maxWord
  omega

/-- A ring buffer that was made has the capacity the loop came to, which passed the guard. -/
theorem ring_init_ok {a : Allocator} {h h' : Heap} {rb : RingBuffer es}
    (hi : RingBuffer.init a es n h = (.ok, some rb, h')) :
    es ≠ 0 ∧ RingBuffer.nextPow2AtLeast n ≤ sizeMax / es ∧
      rb.capacity = RingBuffer.nextPow2AtLeast n := by
  simp only [RingBuffer.init] at hi
  split_ifs at hi with hz hguard
  · cases hi
  · cases hi
  · rcases hb : d4npAlloc a (wrap (RingBuffer.nextPow2AtLeast n * es)) maxAlign h with ⟨_ | b, h''⟩
    · rw [hb] at hi
      cases hi
    · rw [hb] at hi
      cases hi
      exact ⟨fun h => hz (Or.inl h), not_lt.mp hguard, rfl⟩

/-- So does a map that was made with a table. -/
theorem map_init_ok (hn : 0 < n) {a : Allocator} {hash : Option (HashFn ks)}
    {keyEq : Option (KeyEqFn ks)} {h h' : Heap} {m : Hashmap ks vs}
    (hi : Hashmap.init a ks vs n hash keyEq h = (.ok, some m, h')) :
    ks ≠ 0 ∧ Hashmap.nextPow2AtLeast n ≤ sizeMax / roundUp ks maxAlign ∧
      m.capacity = Hashmap.nextPow2AtLeast n := by
  unfold Hashmap.init at hi
  by_cases hz : ks = 0 ∨ vs = 0
  · rw [if_pos hz] at hi
    cases hi
  rw [if_neg hz, if_pos hn] at hi
  rcases Hashmap.resize_cases (Hashmap.lazyMap a hash keyEq : Hashmap ks vs)
    (Hashmap.nextPow2AtLeast n) h with ⟨rc, h'', hne, he⟩ | ⟨hk, -, nc, nk, nv, h'', he⟩
  · simp only [he] at hi
    cases hi
    exact absurd rfl hne
  · simp only [he] at hi
    cases hi
    exact ⟨fun h => hz (Or.inl h), hk, rfl⟩

/-- A capacity that passes the guard is enough, unless it is saturated and slots are of one
byte. -/
theorem isLeastPow2_of_guard {p : ℕ} (hp : p = 2 ^ min 63 (Nat.clog 2 n)) (hs : es ≠ 0)
    (hguard : p ≤ sizeMax / es) (h : es ≠ 1 ∨ n ≤ 2 ^ 63) : IsLeastPow2 n p := by
  have hle : n ≤ 2 ^ 63 := by
    refine h.elim (fun hne => ?_) id
    by_contra hgt
    rw [← clog_le_iff, not_le] at hgt
    rw [hp, min_eq_left hgt.le, half_le_div_iff hs] at hguard
    exact hne hguard
  rw [hp, min_eq_right (clog_le_iff.mpr hle)]
  exact isLeastPow2_clog n

/-- A number of slots above `2 ^ 63`, of one byte each, comes down to `2 ^ 63`. -/
theorem ring_init_saturated (h : 2 ^ 63 < n) :
    ∃ rb h', RingBuffer.init wideAllocator 1 n ⟨0, []⟩ = (.ok, some rb, h') ∧
      rb.capacity = 2 ^ 63 := by
  have hclog : 63 ≤ Nat.clog 2 n := (not_le.mp fun hle => h.not_ge (clog_le_iff.mp hle)).le
  have hcap : RingBuffer.nextPow2AtLeast n = 2 ^ 63 := by
    rw [ring_nextPow2, min_eq_left hclog]
  simp only [RingBuffer.init, hcap]
  rw [if_neg (by omega), if_neg (by decide)]
  exact ⟨_, _, rfl, rfl⟩

/-- **When there are enough slots.** The loops end without a wrap, and a hash map has the least
power of two that is at least what was asked for, and eight; so has a ring buffer, unless it is
asked for more than `2 ^ 63` slots of one byte. -/
theorem enoughSlots_iff (hn : 0 < n) (hks : ks ≤ 2 ^ 64 - 16) :
    EnoughSlots n es ks vs ↔ es ≠ 1 ∨ n ≤ 2 ^ 63 := by
  constructor
  · intro h
    by_contra hne
    obtain ⟨rfl, hgt⟩ : es = 1 ∧ 2 ^ 63 < n := by omega
    obtain ⟨rb, h', hi, hcap⟩ := ring_init_saturated hgt
    have hleast := (h.ring _ _ rb h' hi).1.2
    rw [hcap] at hleast
    exact hgt.not_ge hleast
  · intro h
    refine ⟨ring_doubles n, map_doubles n, ?_, ?_⟩
    · intro a heap rb heap' hi
      obtain ⟨hz, hguard, hcap⟩ := ring_init_ok hi
      rw [hcap]
      exact isLeastPow2_of_guard (ring_nextPow2 n) hz hguard h
    · intro a hash keyEq heap m heap' hi
      obtain ⟨hz, hguard, hcap⟩ := map_init_ok hn hi
      obtain ⟨-, hpos, -, hdvd⟩ := Hashmap.isStride_roundUp (Nat.pos_of_ne_zero hz) hks
      have hone : roundUp ks maxAlign ≠ 1 := by
        intro he
        rw [he] at hdvd
        exact absurd hdvd (by decide)
      rw [hcap]
      exact isLeastPow2_of_guard (map_nextPow2 n) hpos.ne' hguard (Or.inl hone)

/-- Five slots of one byte are eight. -/
theorem enoughSlots_iff_five :
    ∃ rb h', RingBuffer.init wideAllocator 1 5 ⟨0, []⟩ = (.ok, some rb, h') ∧
      IsLeastPow2 5 rb.capacity ∧ rb.capacity = 8 := by
  have h : EnoughSlots 5 1 4 4 := (enoughSlots_iff (by decide) (by decide)).mpr (Or.inr (by decide))
  obtain ⟨rb, h', hi, hcap⟩ : ∃ rb h', RingBuffer.init wideAllocator 1 5 ⟨0, []⟩ =
      (.ok, some rb, h') ∧ rb.capacity = 8 := ⟨_, _, rfl, rfl⟩
  exact ⟨rb, h', hi, h.ring _ _ rb h' hi, hcap⟩

/-- A ring buffer for `2 ^ 63 + 1` bytes has one less. -/
theorem ring_buffer_one_slot_short :
    ∃ rb h', RingBuffer.init wideAllocator 1 (2 ^ 63 + 1) ⟨0, []⟩ = (.ok, some rb, h') ∧
      rb.capacity < 2 ^ 63 + 1 ∧ ¬ EnoughSlots (2 ^ 63 + 1) 1 4 4 := by
  obtain ⟨rb, h', hi, hcap⟩ := ring_init_saturated (Nat.lt_succ_self (2 ^ 63))
  have hlt : rb.capacity < 2 ^ 63 + 1 := by
    rw [hcap]
    exact Nat.lt_succ_self _
  exact ⟨rb, h', hi, hlt, fun h => hlt.not_ge (h.ring _ _ rb h' hi).1.2⟩

end Slots

end D4np
