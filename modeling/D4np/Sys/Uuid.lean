import D4np.Lib.ByteMem
import D4np.Lib.WordMix
import Mathlib.Tactic

/-!
# Version-4 UUIDs

A thread draws its words from splitmix64: a counter that goes up by an odd word, mixed by steps that
can all be undone.  So no word is drawn twice before all have been (`draw_injective`).  A UUID is
two draws with six bits overwritten, two of them in the second draw, which leaves four second draws
for any UUID.

The text of a UUID is written at a running index.  After each byte the text so far is the digits of
the bytes so far with the hyphens between them (`formatLoop_eq`), so the text is one list, and the
bytes are read back from it at fixed places.
-/

namespace D4np

open ByteMem WordMix

/-- `d4np_uuid_t`. -/
@[ext] structure Uuid where
  bytes : Vector UInt8 16
  deriving DecidableEq

namespace Uuid

/-! ## The generator -/

/-- The thread-local variables `g_rng_state` and `g_rng_seeded`. -/
structure Rng where
  state : UInt64
  seeded : Bool

/-- What the seed of a thread is made of: the clock at its first draw, and the addresses of the two
variables. -/
structure Entropy where
  timestampNs : UInt64
  stateAddr : UInt64
  seededAddr : UInt64

/-- `splitmix64`: the word returned and the new state. -/
def splitmix64 (state : UInt64) : UInt64 × UInt64 :=
  let state := state + 0x9E3779B97F4A7C15
  let z := state
  let z := (z ^^^ z >>> 30) * 0xBF58476D1CE4E5B9
  let z := (z ^^^ z >>> 27) * 0x94D049BB133111EB
  (z ^^^ z >>> 31, state)

/-- The seed of a thread. -/
def seed (e : Entropy) : UInt64 :=
  let seed := e.timestampNs
  let seed := seed ^^^ e.stateAddr
  let seed := seed ^^^ e.seededAddr <<< 17
  if seed = 0 then 0x123456789ABCDEF0 else seed

/-- `next_random`. -/
def nextRandom (e : Entropy) (g : Rng) : UInt64 × Rng :=
  let g := if !g.seeded then ⟨seed e, true⟩ else g
  let (z, state) := splitmix64 g.state
  (z, { g with state := state })

/-- The version and the variant stamped on the bytes. -/
def stamp (bytes : Vector UInt8 16) : Vector UInt8 16 :=
  let bytes := bytes.set 6 (bytes[6] &&& 0x0F ||| 0x40)
  bytes.set 8 (bytes[8] &&& 0x3F ||| 0x80)

/-- `d4np_uuid_generate`, on a machine that stores words in the given order. -/
def generate (order : ByteOrder) (e : Entropy) (g : Rng) : Uuid × Rng :=
  let (a, g) := nextRandom e g
  let (b, g) := nextRandom e g
  (⟨stamp (wordBytes order a ++ wordBytes order b)⟩, g)

/-- The variables of a thread after `n` calls of `next_random`. -/
def rngAfter (e : Entropy) (g : Rng) : ℕ → Rng
  | 0 => g
  | n + 1 => (nextRandom e (rngAfter e g n)).2

/-- The word call number `n` of `next_random` returns. -/
def draw (e : Entropy) (g : Rng) (n : ℕ) : UInt64 := (nextRandom e (rngAfter e g n)).1

/-- The variables of a thread after `n` calls of `d4np_uuid_generate`. -/
def callsAfter (order : ByteOrder) (e : Entropy) (g : Rng) : ℕ → Rng
  | 0 => g
  | n + 1 => (generate order e (callsAfter order e g n)).2

/-- The UUID call number `n` of `d4np_uuid_generate` gives. -/
def nth (order : ByteOrder) (e : Entropy) (g : Rng) (n : ℕ) : Uuid :=
  (generate order e (callsAfter order e g n)).1

/-! ## Draws -/

variable {e : Entropy} {g : Rng} {order : ByteOrder}

/-- The state the next draw starts from. -/
def base (e : Entropy) (g : Rng) : UInt64 := if g.seeded then g.state else seed e

/-- What the state goes up by. -/
def increment : UInt64 := 0x9E3779B97F4A7C15

/-- What `splitmix64` makes of the new state. -/
def output (z : UInt64) : UInt64 :=
  let z := (z ^^^ z >>> 30) * 0xBF58476D1CE4E5B9
  let z := (z ^^^ z >>> 27) * 0x94D049BB133111EB
  z ^^^ z >>> 31

theorem output_injective : Function.Injective output := by
  intro x y hxy
  have h₁ := uint64_xor_shift_injective (k := 31) (by decide) hxy
  have h₂ := uint64_mul_injective (a := 0x94D049BB133111EB) (by decide) h₁
  have h₃ := uint64_xor_shift_injective (k := 27) (by decide) h₂
  have h₄ := uint64_mul_injective (a := 0xBF58476D1CE4E5B9) (by decide) h₃
  exact uint64_xor_shift_injective (k := 30) (by decide) h₄

theorem nextRandom_eq (e : Entropy) (g : Rng) :
    nextRandom e g = (output (base e g + increment), ⟨base e g + increment, true⟩) := by
  unfold nextRandom base
  cases hs : g.seeded
  · rfl
  · simp only [Bool.not_true, Bool.false_eq_true, if_false, if_true]
    rw [← hs]
    rfl

theorem base_rngAfter (e : Entropy) (g : Rng) (n : ℕ) :
    base e (rngAfter e g n) = base e g + UInt64.ofNat n * increment := by
  induction n with
  | zero =>
    show base e g = base e g + 0 * increment
    rw [UInt64.zero_mul, UInt64.add_zero]
  | succ n ih =>
    show base e (nextRandom e (rngAfter e g n)).2 = _
    rw [nextRandom_eq, ih, UInt64.ofNat_add, UInt64.add_mul, ← UInt64.add_assoc]
    show _ + UInt64.ofNat n * _ + _ = _ + UInt64.ofNat n * _ + 1 * _
    rw [UInt64.one_mul]

theorem rngAfter_add (e : Entropy) (g : Rng) (m n : ℕ) :
    rngAfter e g (m + n) = rngAfter e (rngAfter e g m) n := by
  induction n with
  | zero => rfl
  | succ n ih =>
    show (nextRandom e (rngAfter e g (m + n))).2 = _
    rw [ih]
    rfl

theorem draw_eq (e : Entropy) (g : Rng) (n : ℕ) :
    draw e g n = output (base e g + UInt64.ofNat n * increment + increment) := by
  unfold draw
  rw [nextRandom_eq, base_rngAfter]

/-- No word is drawn twice in `2 ^ 64` calls. -/
theorem draw_injective {first i j : ℕ} (hi : i < 2 ^ 64) (hj : j < 2 ^ 64)
    (h : draw e g (first + i) = draw e g (first + j)) : i = j := by
  unfold draw at h
  rw [rngAfter_add, rngAfter_add] at h
  replace h : draw e (rngAfter e g first) i = draw e (rngAfter e g first) j := h
  rw [draw_eq, draw_eq] at h
  have hstate := (UInt64.add_left_inj _).mp (output_injective h)
  exact uint64_counter_injective (a := increment) (by decide) hi hj hstate

/-! ## Equal UUIDs -/

/-- The generators of the calls are every other one of the draws. -/
theorem callsAfter_eq (order : ByteOrder) (e : Entropy) (g : Rng) (n : ℕ) :
    callsAfter order e g n = rngAfter e g (2 * n) := by
  induction n with
  | zero => rfl
  | succ n ih =>
    show (generate order e (callsAfter order e g n)).2 = rngAfter e g (2 * n + 1 + 1)
    rw [ih]
    rfl

/-- A UUID is two draws, with the version and the variant stamped on them. -/
theorem nth_eq (order : ByteOrder) (e : Entropy) (g : Rng) (n : ℕ) :
    nth order e g n = ⟨stamp (wordBytes order (draw e g (2 * n)) ++
      wordBytes order (draw e g (2 * n + 1)))⟩ := by
  unfold nth
  rw [callsAfter_eq]
  rfl

/-- The words are stored as the same bytes, but for the two upper bits of the first byte. -/
def SameButVariant (order : ByteOrder) (x y : UInt64) : Prop :=
  (wordBytes order x).head &&& 0x3F = (wordBytes order y).head &&& 0x3F ∧
    ∀ k (_ : k < 8), k ≠ 0 → (wordBytes order x)[k] = (wordBytes order y)[k]

/-- The variant leaves the lower six bits of a byte. -/
theorem variant_and (x : UInt8) : (x &&& 0x3F ||| 0x80) &&& 0x3F = x &&& 0x3F :=
  forall_byte (P := fun x => (x &&& 0x3F ||| 0x80) &&& 0x3F = x &&& 0x3F) (by decide +kernel) x

/-- A byte is its upper two bits and its lower six. -/
theorem byte_eq_of_and {x y : UInt8} (hlow : x &&& 0x3F = y &&& 0x3F)
    (hhigh : x &&& 0xC0 = y &&& 0xC0) : x = y := by
  have hsplit : ∀ z : UInt8, z &&& 0x3F ||| z &&& 0xC0 = z :=
    forall_byte (P := fun z => z &&& 0x3F ||| z &&& 0xC0 = z) (by decide +kernel)
  rw [← hsplit x, ← hsplit y, hlow, hhigh]

theorem stamp_eight (l r : Vector UInt8 8) : (stamp (l ++ r))[8] = r.head &&& 0x3F ||| 0x80 := by
  have hr : (l ++ r)[8] = r[0] := Vector.getElem_append_right (by decide) (by decide)
  unfold stamp
  rw [Vector.getElem_set_self, Vector.getElem_set_ne _ _ (by decide), hr]
  rfl

theorem stamp_right (l r : Vector UInt8 8) {k : ℕ} (hk : k < 8) (h0 : k ≠ 0) :
    (stamp (l ++ r))[8 + k] = r[k] := by
  have hr : (l ++ r)[8 + k] = r[8 + k - 8] := Vector.getElem_append_right (by omega) (by omega)
  unfold stamp
  rw [Vector.getElem_set_ne _ _ (by omega), Vector.getElem_set_ne _ _ (by omega), hr]
  congr 1
  omega

/-- Equal UUIDs have second draws that differ in the variant bits alone. -/
theorem sameButVariant_of_nth_eq {i j : ℕ} (h : nth order e g i = nth order e g j) :
    SameButVariant order (draw e g (2 * i + 1)) (draw e g (2 * j + 1)) := by
  rw [nth_eq, nth_eq, Uuid.mk.injEq] at h
  refine ⟨?_, fun k hk h0 => ?_⟩
  · have height := congrArg (fun v : Vector UInt8 16 => v[8] &&& 0x3F) h
    simp only [stamp_eight, variant_and] at height
    exact height
  · have hbyte := congrArg (fun v : Vector UInt8 16 => v[8 + k]) h
    simp only [stamp_right _ _ hk h0] at hbyte
    exact hbyte

/-- Words that agree but for the variant, and in the variant too, are equal. -/
theorem SameButVariant.eq {x y : UInt64} (h : SameButVariant order x y)
    (hvariant : (wordBytes order x).head &&& 0xC0 = (wordBytes order y).head &&& 0xC0) : x = y := by
  apply wordBytes_injective order
  apply Vector.ext
  intro k hk
  by_cases h0 : k = 0
  · subst h0
    exact byte_eq_of_and h.1 hvariant
  · exact h.2 k hk h0

/-- The values the two variant bits of a byte can have. -/
def variants : Finset UInt8 := {0, 0x40, 0x80, 0xC0}

theorem and_mem_variants (x : UInt8) : x &&& 0xC0 ∈ variants :=
  forall_byte (P := fun x => x &&& 0xC0 ∈ variants) (by decide +kernel) x

/-- **Draws and UUIDs.** Whatever state a thread starts in, `2 ^ 64` draws in a row are pairwise
different.  So of `2 ^ 63` UUIDs in a row no more than four are equal, and the second draws of equal
ones differ in the two variant bits alone. -/
theorem uuids_repeat_at_most_four_times (order : ByteOrder) (e : Entropy) (g : Rng) :
    (∀ first i j, i < 2 ^ 64 → j < 2 ^ 64 → draw e g (first + i) = draw e g (first + j) → i = j) ∧
    (∀ first u, ((Finset.range (2 ^ 63)).filter fun i => nth order e g (first + i) = u).card ≤ 4) ∧
    ∀ i j, nth order e g i = nth order e g j →
      SameButVariant order (draw e g (2 * i + 1)) (draw e g (2 * j + 1)) := by
  refine ⟨fun first i j hi hj h => draw_injective hi hj h, fun first u => ?_,
    fun i j h => sameButVariant_of_nth_eq h⟩
  change _ ≤ variants.card
  -- the variant bits of the second draw tell the calls with one UUID apart
  refine Finset.card_le_card_of_injOn
    (fun i => (wordBytes order (draw e g (2 * (first + i) + 1))).head &&& 0xC0)
    (fun _ _ => and_mem_variants _) ?_
  intro i hi j hj hvariant
  rw [Finset.mem_coe, Finset.mem_filter, Finset.mem_range] at hi hj
  have hsame := sameButVariant_of_nth_eq (hi.2.trans hj.2.symm)
  have hdraw := hsame.eq hvariant
  rw [show 2 * (first + i) + 1 = 2 * first + (2 * i + 1) by omega,
    show 2 * (first + j) + 1 = 2 * first + (2 * j + 1) by omega] at hdraw
  have := draw_injective (by omega) (by omega) hdraw
  omega

/-- A thread that has not drawn yet: its first two words differ, its first UUID comes up at most
four times, and its second UUID is another one, for the second draws differ in more than the
variant. -/
theorem uuids_repeat_at_most_four_times_two_uuids :
    draw ⟨1, 2, 3⟩ ⟨0, false⟩ 0 ≠ draw ⟨1, 2, 3⟩ ⟨0, false⟩ 1 ∧
    ((Finset.range (2 ^ 63)).filter fun i =>
      nth .little ⟨1, 2, 3⟩ ⟨0, false⟩ (0 + i) = nth .little ⟨1, 2, 3⟩ ⟨0, false⟩ 0).card ≤ 4 ∧
    nth .little ⟨1, 2, 3⟩ ⟨0, false⟩ 0 ≠ nth .little ⟨1, 2, 3⟩ ⟨0, false⟩ 1 := by
  obtain ⟨hdraw, hcard, hvariant⟩ := uuids_repeat_at_most_four_times .little ⟨1, 2, 3⟩ ⟨0, false⟩
  refine ⟨fun h => ?_, hcard 0 _, fun h => ?_⟩
  · have := hdraw 0 0 1 (by norm_num) (by norm_num) h
    omega
  · have hbyte : ¬ (wordBytes .little (draw ⟨1, 2, 3⟩ ⟨0, false⟩ 1))[1] =
        (wordBytes .little (draw ⟨1, 2, 3⟩ ⟨0, false⟩ 3))[1] := by
      decide +kernel
    exact hbyte ((hvariant 0 1 h).2 1 (by norm_num) (by norm_num))

/-! ## The text -/

/-- The digits of `d4np_uuid_format`, `"0123456789abcdef"`. -/
def hex : List UInt8 := [48, 49, 50, 51, 52, 53, 54, 55, 56, 57, 97, 98, 99, 100, 101, 102]

/-- `hex[n]`. -/
def hexAt (n : UInt8) : UInt8 := hex.getD n.toNat 0

/-- `out[pos++] = ch`. -/
def put (s : Mem × ℕ) (ch : UInt8) : Mem × ℕ := (writeList s.1 s.2 [ch], s.2 + 1)

/-- One round of the loop of `d4np_uuid_format`. -/
def formatStep (u : Uuid) (s : Mem × ℕ) (i : Fin 16) : Mem × ℕ :=
  let s := if i = 4 ∨ i = 6 ∨ i = 8 ∨ i = 10 then put s 45 else s
  let s := put s (hexAt (u.bytes[i] >>> 4 &&& 0x0F))
  put s (hexAt (u.bytes[i] &&& 0x0F))

/-- `d4np_uuid_format`: the memory at `out` after the call. -/
def format (u : Uuid) (out : Mem) : Mem :=
  let s := (List.finRange 16).foldl (formatStep u) (out, 0)
  writeList s.1 s.2 [0]

/-- The two digits of a byte. -/
def digits (b : UInt8) : List UInt8 := [hexAt (b >>> 4 &&& 0x0F), hexAt (b &&& 0x0F)]

/-- What the round for byte `i` writes. -/
def group (u : Uuid) (i : Fin 16) : List UInt8 :=
  if i = 4 ∨ i = 6 ∨ i = 8 ∨ i = 10 then 45 :: digits u.bytes[i] else digits u.bytes[i]

/-- The text of a UUID, with its terminator. -/
def text (u : Uuid) : List UInt8 := (List.finRange 16).flatMap (group u) ++ [0]

theorem put_eq (m : Mem) (l : List UInt8) (ch : UInt8) :
    put (writeList m 0 l, l.length) ch = (writeList m 0 (l ++ [ch]), (l ++ [ch]).length) := by
  have happend := writeList_append m 0 l [ch]
  rw [Nat.zero_add] at happend
  unfold put
  rw [happend, List.length_append, List.length_singleton]

/-- A round appends its group. -/
theorem formatStep_eq (u : Uuid) (m : Mem) (l : List UInt8) (i : Fin 16) :
    formatStep u (writeList m 0 l, l.length) i =
      (writeList m 0 (l ++ group u i), (l ++ group u i).length) := by
  unfold formatStep group digits
  split_ifs
  · simp only [put_eq, List.append_assoc, List.cons_append, List.nil_append]
  · simp only [put_eq, List.append_assoc, List.cons_append, List.nil_append]

/-- The rounds append their groups. -/
theorem formatLoop_eq (u : Uuid) (m : Mem) (is : List (Fin 16)) (l : List UInt8) :
    is.foldl (formatStep u) (writeList m 0 l, l.length) =
      (writeList m 0 (l ++ is.flatMap (group u)), (l ++ is.flatMap (group u)).length) := by
  induction is generalizing l with
  | nil =>
    rw [List.flatMap_nil, List.append_nil]
    rfl
  | cons i is ih =>
    rw [List.foldl_cons, formatStep_eq, ih, List.flatMap_cons, List.append_assoc]

/-- The call writes the text, and nothing else. -/
theorem format_eq (u : Uuid) (m : Mem) : format u m = writeList m 0 (text u) := by
  have hloop := formatLoop_eq u m (List.finRange 16) []
  rw [writeList_nil, List.nil_append] at hloop
  have happend := writeList_append m 0 ((List.finRange 16).flatMap (group u)) [0]
  rw [Nat.zero_add] at happend
  unfold format text
  rw [← happend]
  exact congrArg (fun s : Mem × ℕ => writeList s.1 s.2 [0]) hloop

/-- Where the digits of byte `i` are: two digits a byte, and the hyphens before it. -/
def place (i : Fin 16) : ℕ :=
  2 * i + (if 4 ≤ i then 1 else 0) + (if 6 ≤ i then 1 else 0) + (if 8 ≤ i then 1 else 0) +
    (if 10 ≤ i then 1 else 0)

/-- The value of a digit. -/
def unhex (c : UInt8) : UInt8 := UInt8.ofNat (hex.idxOf c)

/-- The UUID read back from a text. -/
def readBack (t : List UInt8) : Uuid :=
  ⟨Vector.ofFn fun i => unhex (t.getD (place i) 0) <<< 4 ||| unhex (t.getD (place i + 1) 0)⟩

theorem text_length (u : Uuid) : (text u).length = 37 := rfl

theorem text_place (u : Uuid) (i : Fin 16) :
    (text u)[place i]? = some (hexAt (u.bytes[i] >>> 4 &&& 0x0F)) ∧
      (text u)[place i + 1]? = some (hexAt (u.bytes[i] &&& 0x0F)) := by
  fin_cases i <;> exact ⟨rfl, rfl⟩

/-- A place in the text is that of a hyphen or of a digit. -/
theorem place_cases : ∀ p < 36, (p = 8 ∨ p = 13 ∨ p = 18 ∨ p = 23) ∨
    ∃ i : Fin 16, p = place i ∨ p = place i + 1 := by
  decide

theorem hexAt_mem (b : UInt8) : hexAt (b >>> 4 &&& 0x0F) ∈ hex ∧ hexAt (b &&& 0x0F) ∈ hex :=
  forall_byte (P := fun b => hexAt (b >>> 4 &&& 0x0F) ∈ hex ∧ hexAt (b &&& 0x0F) ∈ hex)
    (by decide +kernel) b

theorem unhex_hexAt (b : UInt8) :
    unhex (hexAt (b >>> 4 &&& 0x0F)) <<< 4 ||| unhex (hexAt (b &&& 0x0F)) = b :=
  forall_byte (P := fun b =>
    unhex (hexAt (b >>> 4 &&& 0x0F)) <<< 4 ||| unhex (hexAt (b &&& 0x0F)) = b) (by decide +kernel) b

/-- Outside the hyphens the text is made of digits. -/
theorem text_digit (u : Uuid) {p : ℕ} (hp : p < 36) (hne : ¬(p = 8 ∨ p = 13 ∨ p = 18 ∨ p = 23)) :
    ∃ c ∈ hex, (text u)[p]? = some c := by
  obtain ⟨i, rfl | rfl⟩ := (place_cases p hp).resolve_left hne
  · exact ⟨_, (hexAt_mem u.bytes[i]).1, (text_place u i).1⟩
  · exact ⟨_, (hexAt_mem u.bytes[i]).2, (text_place u i).2⟩

theorem readBack_text (u : Uuid) : readBack (text u) = u := by
  apply Uuid.ext
  apply Vector.ext
  intro i hi
  obtain ⟨hhigh, hlow⟩ := text_place u ⟨i, hi⟩
  unfold readBack
  rw [Vector.getElem_ofFn, List.getD_eq_getElem?_getD, List.getD_eq_getElem?_getD, hhigh, hlow]
  exact unhex_hexAt u.bytes[i]

/-- The text is what the call leaves in the first 37 bytes. -/
theorem front_format (u : Uuid) (m : Mem) : front (format u m) 37 = text u := by
  have hfront := front_writeList m 0 (text u)
  rw [Nat.zero_add] at hfront
  rw [format_eq]
  exact hfront

theorem format_place (u : Uuid) (m : Mem) (i : Fin 16) :
    format u m (place i) = hexAt (u.bytes[i] >>> 4 &&& 0x0F) := by
  rw [format_eq, writeList, if_pos (Nat.zero_le _), Nat.sub_zero, (text_place u i).1]
  rfl

theorem stamp_six (l r : Vector UInt8 8) : (stamp (l ++ r))[6] = l[6] &&& 0x0F ||| 0x40 := by
  have hl : (l ++ r)[6] = l[6] := Vector.getElem_append_left (by decide)
  unfold stamp
  rw [Vector.getElem_set_ne _ _ (by decide), Vector.getElem_set_self, hl]

theorem version_digit (x : UInt8) : hexAt ((x &&& 0x0F ||| 0x40) >>> 4 &&& 0x0F) = 52 :=
  forall_byte (P := fun x => hexAt ((x &&& 0x0F ||| 0x40) >>> 4 &&& 0x0F) = 52)
    (by decide +kernel) x

/-- The digits the variant leaves for a byte. -/
def variantDigits : List UInt8 := [56, 57, 97, 98]

theorem variant_digit (x : UInt8) :
    hexAt ((x &&& 0x3F ||| 0x80) >>> 4 &&& 0x0F) ∈ variantDigits :=
  forall_byte (P := fun x => hexAt ((x &&& 0x3F ||| 0x80) >>> 4 &&& 0x0F) ∈ variantDigits)
    (by decide +kernel) x

/-- The byte with the version, and the one with the variant. -/
theorem generate_bytes (order : ByteOrder) (e : Entropy) (g : Rng) :
    ∃ x y : UInt8, (generate order e g).1.bytes[(6 : Fin 16)] = x &&& 0x0F ||| 0x40 ∧
      (generate order e g).1.bytes[(8 : Fin 16)] = y &&& 0x3F ||| 0x80 :=
  ⟨_, _, stamp_six _ _, stamp_eight _ _⟩

/-- **The text of a UUID.** The call writes exactly 37 bytes, which depend on the UUID alone:
lowercase digits with hyphens at four places and a terminator at the end.  The UUID is read back
from them, so texts of different UUIDs are different.  In the text of a UUID that was generated,
from whatever state, the version is `4` and the variant one of `8`, `9`, `a` and `b`. -/
theorem format_laws :
    (∀ u, ∃ t : List UInt8, t.length = 37 ∧ (∀ m, format u m = writeList m 0 t) ∧ t[36]? = some 0 ∧
      (∀ p < 36, if p = 8 ∨ p = 13 ∨ p = 18 ∨ p = 23 then t[p]? = some 45
        else ∃ c ∈ hex, t[p]? = some c) ∧
      readBack t = u) ∧
    (∀ u v m m', front (format u m) 37 = front (format v m') 37 → u = v) ∧
    ∀ order e g m, format (generate order e g).1 m 14 = 52 ∧
      format (generate order e g).1 m 19 ∈ variantDigits := by
  refine ⟨fun u => ⟨text u, text_length u, format_eq u, rfl, fun p hp => ?_, readBack_text u⟩,
    fun u v m m' h => ?_, fun order e g m => ?_⟩
  · split_ifs with hne
    · rcases hne with rfl | rfl | rfl | rfl <;> rfl
    · exact text_digit u hp hne
  · rw [front_format, front_format] at h
    rw [← readBack_text u, h, readBack_text]
  · obtain ⟨x, y, hsix, height⟩ := generate_bytes order e g
    rw [show 14 = place 6 from rfl, show 19 = place 8 from rfl, format_place, format_place, hsix,
      height]
    exact ⟨version_digit x, variant_digit y⟩

/-- The text of the UUID whose bytes are all zero has its first hyphen, and is read back. -/
theorem format_laws_nil : ∃ t : List UInt8, (∀ m, format ⟨Vector.replicate 16 0⟩ m =
    writeList m 0 t) ∧ t[8]? = some 45 ∧ readBack t = ⟨Vector.replicate 16 0⟩ := by
  obtain ⟨t, -, hwrites, -, hplaces, hback⟩ := format_laws.1 ⟨Vector.replicate 16 0⟩
  have hhyphen := hplaces 8 (by decide)
  rw [if_pos (Or.inl rfl)] at hhyphen
  exact ⟨t, hwrites, hhyphen, hback⟩

end Uuid

end D4np
