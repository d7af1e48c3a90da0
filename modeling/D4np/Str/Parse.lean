import D4np.Core.Allocator
import D4np.Str.StrView
import Mathlib.Data.List.TakeWhile
import Mathlib.Tactic

/-!
# Parsing integers

`d4np_str_parse_int` walks one index over a view: spaces, a sign, a prefix, digits, spaces.  The
function is given the 64-bit arithmetic it runs on, so that one text stands for the machine's, which
wraps, and for one that stops where the machine's would wrap; over both it returns the same, so
nothing wraps (`parseInt_eq`).  What it returns is read off the bytes by `grammar`.  Each loop is
tied to the list that is left at its index (`At`).  The guard of the digit loop is exact, because
the quotient is below the accumulator just if the next value is above the limit (`guard_iff`), and a
value above the limit stays there (`le_horner`).
-/

namespace D4np

open Word64 ByteMem

/-- 64-bit arithmetic: the word and the signed integer that stand for an exact result, if there are
any.  A result in range stands for itself. -/
structure Arith where
  word : ℤ → Option ℕ
  int64 : ℤ → Option ℤ
  word_eq : ∀ n : ℕ, n < 2 ^ 64 → word n = some n
  int64_eq : ∀ z : ℤ, -2 ^ 63 ≤ z → z < 2 ^ 63 → int64 z = some z

namespace Arith

/-- The machine's arithmetic: results out of range wrap. -/
def machine : Arith where
  word z := some (z % 2 ^ 64).toNat
  int64 z := some (z.bmod (2 ^ 64))
  word_eq n hn := by
    rw [Int.emod_eq_of_lt (by omega) (by omega), Int.toNat_natCast]
  int64_eq z hlo hhi := by
    rw [Int.bmod_eq_of_le (by omega) (by omega)]

/-- The arithmetic that has no results out of range. -/
def checked : Arith where
  word z := if 0 ≤ z ∧ z < 2 ^ 64 then some z.toNat else none
  int64 z := if -2 ^ 63 ≤ z ∧ z < 2 ^ 63 then some z else none
  word_eq n hn := by
    rw [if_pos (by omega), Int.toNat_natCast]
  int64_eq z hlo hhi := if_pos ⟨hlo, hhi⟩

end Arith

namespace Parse

/-- `isspace` in the C locale. -/
def isSpace (c : UInt8) : Bool := (9 ≤ c && c ≤ 13) || c == 32

/-- `digit_value`. -/
def digitValue (c : UInt8) : ℤ :=
  if 48 ≤ c ∧ c ≤ 57 then c.toNat - 48
  else if 97 ≤ c ∧ c ≤ 122 then c.toNat - 97 + 10
  else if 65 ≤ c ∧ c ≤ 90 then c.toNat - 65 + 10
  else -1

/-- `INT64_MAX`. -/
def int64Max : ℕ := 2 ^ 63 - 1

/-- `INT64_MIN`. -/
def int64Min : ℤ := -2 ^ 63

/-- The loop `while (i < n && isspace(p[i])) ++i`, cut off after `fuel` rounds. -/
def skipSpaces (ar : Arith) (p : Mem) (n : ℕ) : ℕ → ℕ → Option ℕ
  | 0, _ => none
  | fuel + 1, i =>
    if i < n ∧ isSpace (p i) then (ar.word (i + 1)).bind (skipSpaces ar p n fuel) else some i

/-- The sign: `negative` and the index behind it. -/
def takeSign (ar : Arith) (p : Mem) (i : ℕ) : Option (Bool × ℕ) :=
  if p i = 43 ∨ p i = 45 then (ar.word (i + 1)).map fun j => (p i == 45, j) else some (false, i)

/-- `i + 1 < n && (p[i + 1] == 'x' || p[i + 1] == 'X')`. -/
def hasHexMark (ar : Arith) (p : Mem) (n i : ℕ) : Option Bool :=
  (ar.word (i + 1)).map fun j => j < n && (p j == 120 || p j == 88)

/-- The prefix: the radix and the index behind the prefix. -/
def takePrefix (ar : Arith) (p : Mem) (n : ℕ) (base : ℤ) (i : ℕ) : Option (ℤ × ℕ) :=
  if base = 0 then
    if i < n ∧ p i = 48 then
      (hasHexMark ar p n i).bind fun hex =>
        if hex then (ar.word (i + 2)).map fun j => (16, j) else some (8, i)
    else some (10, i)
  else if base = 16 then
    (hasHexMark ar p n i).bind fun hex =>
      if hex ∧ p i = 48 then (ar.word (i + 2)).map fun j => (base, j) else some (base, i)
  else some (base, i)

/-- The digit loop, cut off after `fuel` rounds: `none` inside for an early `D4NP_ERR_OVERFLOW`,
else `i`, `acc` and `any_digit` behind the loop. -/
def digitLoop (ar : Arith) (p : Mem) (n : ℕ) (base : ℤ) (limit ubase : ℕ) :
    ℕ → ℕ → ℕ → Bool → Option (Option (ℕ × ℕ × Bool))
  | 0, _, _, _ => none
  | fuel + 1, i, acc, anyDigit =>
    if i < n then
      let d := digitValue (p i)
      if d < 0 ∨ d ≥ base then some (some (i, acc, anyDigit))
      else
        (ar.word d).bind fun d =>
        (ar.word (limit - d)).bind fun room =>
          if acc > room / ubase then some none
          else
            (ar.word (acc * ubase)).bind fun product =>
            (ar.word (product + d)).bind fun acc =>
            (ar.word (i + 1)).bind fun i => digitLoop ar p n base limit ubase fuel i acc true
    else some (some (i, acc, anyDigit))

/-- The value stored. -/
def signed (ar : Arith) (negative : Bool) (acc : ℕ) : Option ℤ :=
  if negative then
    (ar.word (int64Max + 1)).bind fun bound =>
      if acc = bound then some int64Min else (ar.int64 acc).bind fun v => ar.int64 (-v)
  else ar.int64 acc

/-- `d4np_str_parse_int`: the status and `*out` after the call; a null `out` is `none`. -/
def parseInt (ar : Arith) (mem : Mem) (sv : StrView) (base : ℤ) (out : Option ℤ) :
    Option (Status × Option ℤ) :=
  match sv.ptr, out with
  | some ptr, some _ =>
    if base ≠ 0 ∧ (base < 2 ∨ base > 36) then some (.errInvalidArgument, out)
    else
      let p : Mem := fun i => mem (ptr + i)
      let n := sv.len
      (skipSpaces ar p n (n + 1) 0).bind fun i =>
      if i ≥ n then some (.errInvalidArgument, out)
      else
        (takeSign ar p i).bind fun (negative, i) =>
        (takePrefix ar p n base i).bind fun (base, i) =>
        (if negative then ar.word (int64Max + 1) else some int64Max).bind fun limit =>
        (ar.word base).bind fun ubase =>
        (digitLoop ar p n base limit ubase (n + 1) i 0 false).bind fun
          | none => some (.errOverflow, out)
          | some (i, acc, anyDigit) =>
            if !anyDigit then some (.errInvalidArgument, out)
            else
              (skipSpaces ar p n (n + 1) i).bind fun i =>
              if i ≠ n then some (.errInvalidArgument, out)
              else (signed ar negative acc).map fun value => (.ok, some value)
  | _, _ => some (.errInvalidArgument, out)

/-! ## The grammar -/

/-- The value of a run of digits. -/
def numeral (radix : ℕ) (run : List UInt8) : ℕ :=
  Nat.ofDigits radix (run.reverse.map fun c => (digitValue c).toNat)

/-- A letter or digit with a value below the radix. -/
def isDigit (radix : ℕ) (c : UInt8) : Bool := 0 ≤ digitValue c && digitValue c < radix

/-- At most one sign. -/
def splitSign : List UInt8 → Bool × List UInt8
  | 43 :: l => (false, l)
  | 45 :: l => (true, l)
  | l => (false, l)

/-- What follows `0x` or `0X`. -/
def afterHex : List UInt8 → Option (List UInt8)
  | 48 :: 120 :: l => some l
  | 48 :: 88 :: l => some l
  | _ => none

/-- The radix and the text behind the prefix. -/
def splitPrefix (base : ℕ) (l : List UInt8) : ℕ × List UInt8 :=
  if base = 0 then
    match afterHex l with
    | some rest => (16, rest)
    | none => if l.head? = some 48 then (8, l) else (10, l)
  else if base = 16 then (16, (afterHex l).getD l)
  else (base, l)

/-- The value with its sign. -/
def withSign (negative : Bool) (m : ℕ) : ℤ := if negative then -m else m

/-- What the text means in a base: a status, and the value if it is one. -/
def grammar (base : ℕ) (text : List UInt8) : Status × Option ℤ :=
  let (negative, l) := splitSign (text.dropWhile isSpace)
  let (radix, l) := splitPrefix base l
  let run := l.takeWhile (isDigit radix)
  let value := withSign negative (numeral radix run)
  if run = [] then (.errInvalidArgument, none)
  else if value < -2 ^ 63 ∨ 2 ^ 63 - 1 < value then (.errOverflow, none)
  else if (l.dropWhile (isDigit radix)).all isSpace then (.ok, some value)
  else (.errInvalidArgument, none)

/-! ## The index and what is left of the text -/

variable (ar : Arith) {p : Mem} {n i : ℕ} {l : List UInt8}

/-- At the index `i` of `n` bytes, `l` is what is left. -/
structure At (p : Mem) (n i : ℕ) (l : List UInt8) : Prop where
  le : i ≤ n
  rest : bytesAt p i (n - i) = l

theorem At.length (h : At p n i l) : l.length = n - i := by
  rw [← h.rest, bytesAt_length]

theorem At.lt_iff (h : At p n i l) : i < n ↔ l ≠ [] := by
  rw [← List.length_pos_iff, h.length]
  omega

theorem At.eq_nil (h : At p n i l) (hi : ¬i < n) : l = [] := by
  by_contra hne
  exact hi (h.lt_iff.mpr hne)

theorem At.cons (h : At p n i l) (hi : i < n) : ∃ l', l = p i :: l' ∧ At p n (i + 1) l' := by
  refine ⟨bytesAt p (i + 1) (n - (i + 1)), ?_, hi, rfl⟩
  have hsub : n - i = n - (i + 1) + 1 := by omega
  rw [← h.rest, hsub, bytesAt_succ]

theorem At.head_iff (h : At p n i l) (c : UInt8) : l.head? = some c ↔ i < n ∧ p i = c := by
  by_cases hi : i < n
  · obtain ⟨l', rfl, _⟩ := h.cons hi
    simp [hi]
  · simp [hi, h.eq_nil hi]

/-- What the loop over spaces leaves. -/
theorem At.skipSpaces (hn : n < 2 ^ 64) :
    ∀ fuel {i l}, At p n i l → n - i < fuel →
      ∃ j, Parse.skipSpaces ar p n fuel i = some j ∧ At p n j (l.dropWhile isSpace) := by
  intro fuel
  induction fuel with
  | zero => intro i l _ hfuel; omega
  | succ fuel ih =>
    intro i l h hfuel
    unfold Parse.skipSpaces
    by_cases hi : i < n
    · obtain ⟨l', rfl, h'⟩ := h.cons hi
      rw [List.dropWhile_cons]
      by_cases hs : isSpace (p i) = true
      · have hword : ar.word (i + 1) = some (i + 1) := ar.word_eq (i + 1) (by omega)
        rw [if_pos ⟨hi, hs⟩, if_pos hs, hword]
        exact ih h' (by omega)
      · rw [if_neg fun hc => hs hc.2, if_neg hs]
        exact ⟨i, rfl, h⟩
    · obtain rfl := h.eq_nil hi
      rw [if_neg fun hc => hi hc.1]
      exact ⟨i, rfl, h⟩

theorem At.takeSign (h : At p n i l) (hi : i < n) (hn : n < 2 ^ 64) :
    ∃ j, Parse.takeSign ar p i = some ((splitSign l).1, j) ∧ At p n j (splitSign l).2 := by
  obtain ⟨l', rfl, h'⟩ := h.cons hi
  have hword : ar.word (i + 1) = some (i + 1) := ar.word_eq (i + 1) (by omega)
  unfold Parse.takeSign
  by_cases hplus : p i = 43
  · rw [if_pos (Or.inl hplus), hword, hplus]
    exact ⟨i + 1, rfl, h'⟩
  by_cases hminus : p i = 45
  · rw [if_pos (Or.inr hminus), hword, hminus]
    exact ⟨i + 1, rfl, h'⟩
  · have hsplit : splitSign (p i :: l') = (false, p i :: l') := by
      unfold splitSign
      split
      · rename_i hc
        exact absurd (List.cons.inj hc).1 hplus
      · rename_i hc
        exact absurd (List.cons.inj hc).1 hminus
      · rfl
    rw [if_neg (not_or.mpr ⟨hplus, hminus⟩), hsplit]
    exact ⟨i, rfl, h⟩

theorem afterHex_of_head (h : l.head? ≠ some 48) : afterHex l = none := by
  unfold afterHex
  split
  · exact absurd rfl h
  · exact absurd rfl h
  · rfl

/-- The prefix `0x` is there if the test for its letter succeeds behind a zero. -/
theorem At.hasHexMark (h : At p n i l) (hn : n + 1 < 2 ^ 64) :
    ∃ hex, Parse.hasHexMark ar p n i = some hex ∧
      (hex = true ∧ p i = 48 → ∃ rest, afterHex l = some rest ∧ At p n (i + 2) rest) ∧
      (¬(hex = true ∧ p i = 48) → afterHex l = none) := by
  have hle := h.le
  have hword : ar.word (i + 1) = some (i + 1) := ar.word_eq (i + 1) (by omega)
  refine ⟨_, by rw [Parse.hasHexMark, hword]; rfl, fun hthere => ?_, fun hnot => ?_⟩
  · obtain ⟨htrue, hzero⟩ := hthere
    obtain ⟨hlt, hx⟩ := Bool.and_eq_true_iff.mp htrue
    have hlt : i + 1 < n := of_decide_eq_true hlt
    obtain ⟨l', rfl, h'⟩ := h.cons (by omega)
    obtain ⟨l'', rfl, h''⟩ := h'.cons hlt
    refine ⟨l'', ?_, h''⟩
    rcases Bool.or_eq_true_iff.mp hx with hx | hx
    · rw [hzero, beq_iff_eq.mp hx]
      rfl
    · rw [hzero, beq_iff_eq.mp hx]
      rfl
  · have hother : ∀ c rest, l = 48 :: c :: rest → c ≠ 120 ∧ c ≠ 88 := by
      rintro c rest rfl
      obtain ⟨l', hl, h'⟩ := h.cons (h.lt_iff.mpr (List.cons_ne_nil _ _))
      obtain ⟨hfirst, rfl⟩ := List.cons.inj hl
      have hlt := h'.lt_iff.mpr (List.cons_ne_nil c rest)
      obtain ⟨l'', hl, _⟩ := h'.cons hlt
      rw [(List.cons.inj hl).1]
      simpa [hlt, ← hfirst] using hnot
    unfold afterHex
    split
    · exact absurd rfl (hother 120 _ rfl).1
    · exact absurd rfl (hother 88 _ rfl).2
    · rfl

/-- The radix is the one the prefix stands for, and the index is behind the prefix. -/
theorem At.takePrefix (h : At p n i l) (hn : n + 1 < 2 ^ 64) {base : ℤ}
    (hbase : base = 0 ∨ 2 ≤ base ∧ base ≤ 36) :
    ∃ radix j : ℕ, Parse.takePrefix ar p n base i = some ((radix : ℤ), j) ∧ 2 ≤ radix ∧ radix ≤ 36 ∧
      radix = (splitPrefix base.toNat l).1 ∧ At p n j (splitPrefix base.toNat l).2 := by
  obtain ⟨hex, hmark, hthere, hnone⟩ := h.hasHexMark ar hn
  have hword : ∀ {rest}, At p n (i + 2) rest → ar.word (i + 2) = some (i + 2) := fun h' =>
    ar.word_eq (i + 2) (by have := h'.le; omega)
  unfold Parse.takePrefix splitPrefix
  rw [hmark]
  by_cases hzero : base = 0
  · subst hzero
    rw [if_pos rfl, if_pos (show (0 : ℤ).toNat = 0 from rfl)]
    by_cases hfirst : i < n ∧ p i = 48
    · rw [if_pos hfirst, (h.head_iff 48).mpr hfirst]
      cases hex with
      | true =>
        obtain ⟨rest, hrest, h'⟩ := hthere ⟨rfl, hfirst.2⟩
        rw [hrest]
        exact ⟨16, i + 2, by simp [hword h'], by norm_num, by norm_num, rfl, h'⟩
      | false =>
        rw [hnone nofun]
        exact ⟨8, i, rfl, by norm_num, by norm_num, rfl, h⟩
    · have hhead : l.head? ≠ some 48 := fun hc => hfirst ((h.head_iff 48).mp hc)
      rw [if_neg hfirst, afterHex_of_head hhead, if_neg hhead]
      exact ⟨10, i, rfl, by norm_num, by norm_num, rfl, h⟩
  have hrange : 2 ≤ base ∧ base ≤ 36 := hbase.resolve_left hzero
  rw [if_neg hzero, if_neg (show base.toNat ≠ 0 by omega)]
  by_cases hsixteen : base = 16
  · subst hsixteen
    rw [if_pos rfl, if_pos (show (16 : ℤ).toNat = 16 from rfl), Option.bind_some]
    by_cases hhex : hex = true ∧ p i = 48
    · obtain ⟨rest, hrest, h'⟩ := hthere hhex
      rw [if_pos hhex, hword h', hrest]
      exact ⟨16, i + 2, rfl, by norm_num, by norm_num, rfl, h'⟩
    · rw [if_neg hhex, hnone hhex]
      exact ⟨16, i, rfl, by norm_num, by norm_num, rfl, h⟩
  · rw [if_neg hsixteen, if_neg (show base.toNat ≠ 16 by omega)]
    exact ⟨base.toNat, i, by rw [Int.toNat_of_nonneg (by omega)], by omega, by omega, rfl, h⟩

/-! ## Digits -/

variable {radix limit acc : ℕ}

/-- The accumulator after a run of digits. -/
def horner (radix acc : ℕ) (run : List UInt8) : ℕ :=
  run.foldl (fun acc c => acc * radix + (digitValue c).toNat) acc

theorem horner_eq (radix acc : ℕ) (run : List UInt8) :
    horner radix acc run = acc * radix ^ run.length + numeral radix run := by
  unfold horner numeral
  induction run generalizing acc with
  | nil => simp
  | cons c run ih =>
    rw [List.foldl_cons, ih, List.reverse_cons, List.map_append, Nat.ofDigits_append,
      List.length_map, List.length_reverse, List.map_singleton, Nat.ofDigits_singleton,
      List.length_cons, pow_succ]
    ring

/-- The accumulator does not go down. -/
theorem le_horner (hr : 0 < radix) (acc : ℕ) (run : List UInt8) : acc ≤ horner radix acc run := by
  rw [horner_eq]
  exact (Nat.le_mul_of_pos_right acc (Nat.pow_pos hr)).trans (Nat.le_add_right _ _)

/-- **The guard is exact.** -/
theorem guard_iff {d : ℕ} (hr : 0 < radix) (hd : d ≤ limit) :
    acc > (limit - d) / radix ↔ limit < acc * radix + d := by
  rw [gt_iff_lt, Nat.div_lt_iff_lt_mul hr]
  omega

theorem isDigit_iff (c : UInt8) :
    isDigit radix c = true ↔ 0 ≤ digitValue c ∧ digitValue c < radix := by
  unfold isDigit
  rw [Bool.and_eq_true, decide_eq_true_iff, decide_eq_true_iff]

/-- **The digit loop.** It stops early if the value of the run is above the limit, and otherwise
behind the run, with its value. -/
theorem At.digitLoop (hn : n < 2 ^ 64) (hr : 2 ≤ radix ∧ radix ≤ 36) (hlo : 36 ≤ limit)
    (hhi : limit ≤ 2 ^ 63) :
    ∀ fuel {i l acc} anyDigit, At p n i l → n - i < fuel → acc ≤ limit →
      (limit < horner radix acc (l.takeWhile (isDigit radix)) →
        Parse.digitLoop ar p n radix limit radix fuel i acc anyDigit = some none) ∧
      (horner radix acc (l.takeWhile (isDigit radix)) ≤ limit →
        ∃ j, Parse.digitLoop ar p n radix limit radix fuel i acc anyDigit = some (some (j,
          horner radix acc (l.takeWhile (isDigit radix)),
          anyDigit || !(l.takeWhile (isDigit radix)).isEmpty)) ∧
          At p n j (l.dropWhile (isDigit radix))) := by
  intro fuel
  induction fuel with
  | zero => intro i l acc anyDigit _ hfuel; omega
  | succ fuel ih =>
    intro i l acc anyDigit h hfuel hacc
    unfold Parse.digitLoop
    by_cases hi : i < n
    · obtain ⟨l', rfl, h'⟩ := h.cons hi
      rw [if_pos hi, List.takeWhile_cons, List.dropWhile_cons]
      by_cases hd : isDigit radix (p i) = true
      · obtain ⟨hnonneg, hlt⟩ := (isDigit_iff (p i)).mp hd
        obtain ⟨d, hdv⟩ := Int.eq_ofNat_of_zero_le hnonneg
        have hdlt : d < radix := by omega
        have hword : ar.word (digitValue (p i)) = some d := by
          rw [hdv]
          exact ar.word_eq d (by omega)
        have hroom : ar.word ((limit : ℤ) - d) = some (limit - d) := by
          rw [← Int.ofNat_sub (show d ≤ limit by omega)]
          exact ar.word_eq (limit - d) (by omega)
        have hhorner : ∀ run, horner radix acc (p i :: run) = horner radix (acc * radix + d) run := by
          intro run
          rw [horner, List.foldl_cons, hdv]
          rfl
        simp only [if_neg (show ¬(digitValue (p i) < 0 ∨ digitValue (p i) ≥ radix) by omega), hword,
          hroom, Option.bind_some, if_pos hd, hhorner]
        by_cases hover : limit < acc * radix + d
        · have hge := le_horner (show 0 < radix by omega) (acc * radix + d)
            (l'.takeWhile (isDigit radix))
          rw [if_pos ((guard_iff (by omega) (by omega)).mpr hover)]
          exact ⟨fun _ => rfl, fun hle => absurd (hge.trans hle) (by omega)⟩
        · have hproduct : ar.word ((acc : ℤ) * radix) = some (acc * radix) := by
            rw [← Int.natCast_mul]
            exact ar.word_eq (acc * radix) (by omega)
          have hsum : ar.word (((acc * radix : ℕ) : ℤ) + d) = some (acc * radix + d) :=
            ar.word_eq (acc * radix + d) (by omega)
          have hnext : ar.word (i + 1) = some (i + 1) := ar.word_eq (i + 1) (by omega)
          rw [if_neg fun hc => hover ((guard_iff (by omega) (by omega)).mp hc), hproduct,
            Option.bind_some, hsum, Option.bind_some, hnext, Option.bind_some]
          have := ih true h' (by omega) (show acc * radix + d ≤ limit by omega)
          simpa using this
      · have hstop : digitValue (p i) < 0 ∨ digitValue (p i) ≥ radix := by
          by_contra hc
          exact hd ((isDigit_iff (p i)).mpr (by omega))
        simp only [if_pos hstop, if_neg hd]
        exact ⟨fun hover => absurd hacc (Nat.not_le.mpr hover), fun _ => ⟨i, by simp [horner], h⟩⟩
    · obtain rfl := h.eq_nil hi
      rw [if_neg hi]
      exact ⟨fun hover => absurd hacc (Nat.not_le.mpr hover), fun _ => ⟨i, by simp [horner], h⟩⟩

/-! ## The whole text -/

/-- The largest magnitude for a sign. -/
def magnitude : Bool → ℕ
  | true => 2 ^ 63
  | false => 2 ^ 63 - 1

theorem limit_eq (negative : Bool) :
    (if negative then ar.word (int64Max + 1) else some int64Max) = some (magnitude negative) := by
  cases negative with
  | false => rfl
  | true => exact ar.word_eq (int64Max + 1) (by norm_num [int64Max])

theorem signed_eq {negative : Bool} (h : acc ≤ magnitude negative) :
    signed ar negative acc = some (withSign negative acc) := by
  unfold signed
  cases negative with
  | false =>
    replace h : acc ≤ 2 ^ 63 - 1 := h
    exact ar.int64_eq acc (by omega) (by omega)
  | true =>
    replace h : acc ≤ 2 ^ 63 := h
    have hword : ar.word (int64Max + 1) = some (2 ^ 63) :=
      ar.word_eq (int64Max + 1) (by norm_num [int64Max])
    rw [if_pos rfl, hword, Option.bind_some]
    by_cases hmin : acc = 2 ^ 63
    · rw [if_pos hmin, hmin]
      rfl
    · rw [if_neg hmin, ar.int64_eq acc (by omega) (by omega), Option.bind_some]
      exact ar.int64_eq (-acc) (by omega) (by omega)

/-- The value of a run is out of range if it is above the largest magnitude for its sign. -/
theorem out_of_range_iff (negative : Bool) (m : ℕ) :
    (withSign negative m < -2 ^ 63 ∨ 2 ^ 63 - 1 < withSign negative m) ↔ magnitude negative < m := by
  cases negative with
  | false =>
    show ((m : ℤ) < -2 ^ 63 ∨ 2 ^ 63 - 1 < (m : ℤ)) ↔ 2 ^ 63 - 1 < m
    omega
  | true =>
    show (-(m : ℤ) < -2 ^ 63 ∨ 2 ^ 63 - 1 < -(m : ℤ)) ↔ 2 ^ 63 < m
    omega

theorem grammar_nil (base : ℕ) : ∀ {text : List UInt8}, text.dropWhile isSpace = [] →
    grammar base text = (.errInvalidArgument, none) := by
  intro text h
  have hsplit : (splitPrefix base []).2 = [] := by
    unfold splitPrefix afterHex
    split_ifs <;> rfl
  unfold grammar
  rw [h]
  simp only [splitSign, hsplit, List.takeWhile_nil, if_pos]

/-- **What the function returns.** Over any arithmetic that is exact in range, and so without a
result out of range, it is what the grammar says. -/
theorem parseInt_eq (ar : Arith) (mem : Mem) (v : StrView) {base : ℤ}
    (hbase : base = 0 ∨ 2 ≤ base ∧ base ≤ 36) (o : ℤ) :
    parseInt ar mem v base (some o) = some ((grammar base.toNat (v.bytes mem)).1,
      some ((grammar base.toNat (v.bytes mem)).2.getD o)) := by
  unfold parseInt
  rcases hptr : v.ptr with _ | ptr
  · rw [StrView.bytes_of_null mem hptr, grammar_nil base.toNat rfl]
    rfl
  have hfits := v.fits ptr hptr
  have hn : v.len < 2 ^ 64 := by omega
  have hstart : At (fun i => mem (ptr + i)) v.len 0 (v.bytes mem) := by
    refine ⟨Nat.zero_le _, ?_⟩
    rw [StrView.bytes_of_ptr mem hptr]
    simp [bytesAt]
  obtain ⟨i₀, hskip, h₀⟩ := hstart.skipSpaces ar hn (v.len + 1) (by omega)
  simp only [if_neg (show ¬(base ≠ 0 ∧ (base < 2 ∨ base > 36)) by omega), hskip, Option.bind_some]
  by_cases hend : i₀ ≥ v.len
  · rw [if_pos hend, grammar_nil base.toNat (h₀.eq_nil (by omega))]
    rfl
  rw [if_neg hend]
  obtain ⟨i₁, hsign, h₁⟩ := h₀.takeSign ar (by omega) hn
  obtain ⟨radix, i₂, hprefix, hlo, hhi, hradix, h₂⟩ := h₁.takePrefix ar (by omega) hbase
  have hubase : ar.word radix = some radix := ar.word_eq radix (by omega)
  simp only [hsign, hprefix, limit_eq, hubase, Option.bind_some]
  unfold grammar
  simp only
  generalize splitSign ((v.bytes mem).dropWhile isSpace) = sg at *
  generalize splitPrefix base.toNat sg.2 = pre at *
  subst hradix
  have hmag : 36 ≤ magnitude sg.1 ∧ magnitude sg.1 ≤ 2 ^ 63 := by
    cases sg.1 <;> norm_num [magnitude]
  obtain ⟨hover, hfine⟩ := h₂.digitLoop ar hn ⟨hlo, hhi⟩ hmag.1 hmag.2 (v.len + 1) false
    (by omega) (Nat.zero_le _)
  rw [horner_eq, Nat.zero_mul, Nat.zero_add] at hover hfine
  simp only [out_of_range_iff]
  generalize hrun : pre.2.takeWhile (isDigit pre.1) = run at *
  generalize hrest : pre.2.dropWhile (isDigit pre.1) = rest at *
  by_cases hbig : magnitude sg.1 < numeral pre.1 run
  · have hne : run ≠ [] := by
      rintro rfl
      exact absurd hbig (by simp [numeral])
    rw [hover hbig, if_neg hne, if_pos hbig]
    rfl
  obtain ⟨i₃, hloop, h₃⟩ := hfine (Nat.not_lt.mp hbig)
  rw [hloop]
  by_cases hne : run = []
  · rw [hne]
    rfl
  obtain ⟨i₄, hskip', h₄⟩ := h₃.skipSpaces ar hn (v.len + 1) (by omega)
  have hany : (false || !run.isEmpty) = true := by simp [hne]
  simp only [Option.bind_some, hany, hskip', signed_eq ar (Nat.not_lt.mp hbig), if_neg hne, if_neg hbig]
  have hall : i₄ ≠ v.len ↔ ¬rest.all isSpace = true := by
    rw [List.all_eq_true, ← List.dropWhile_eq_nil_iff, ← ne_eq, ← h₄.lt_iff]
    have := h₄.le
    omega
  by_cases htrail : rest.all isSpace = true
  · rw [if_pos htrail, if_neg (fun hc => hall.mp hc htrail)]
    rfl
  · rw [if_neg htrail, if_pos (hall.mpr htrail)]
    rfl

/-- A null `out` and a base out of range are refused, whatever the view is. -/
theorem parseInt_invalid (ar : Arith) (mem : Mem) (v : StrView) {base : ℤ} {out : Option ℤ}
    (h : out = none ∨ ¬(base = 0 ∨ 2 ≤ base ∧ base ≤ 36)) :
    parseInt ar mem v base out = some (.errInvalidArgument, out) := by
  unfold parseInt
  split
  · rw [if_pos]
    have := h.resolve_left nofun
    omega
  · rfl

/-! ## Writing and reading back -/

/-- The text writes the value in the radix: digits of either case behind a sign that fits, between
spaces. -/
def Spells (radix : ℕ) (value : ℤ) (text : List UInt8) : Prop :=
  ∃ lead sign run trail, text = lead ++ (sign ++ (run ++ trail)) ∧
    (∀ c ∈ lead, isSpace c = true) ∧ (∀ c ∈ trail, isSpace c = true) ∧
    run ≠ [] ∧ (∀ c ∈ run, isDigit radix c = true) ∧
    (sign = [45] ∧ value = -numeral radix run ∨ (sign = [] ∨ sign = [43]) ∧ value = numeral radix run)

/-- The byte of a digit. -/
def digitByte (upper : Bool) (d : ℕ) : UInt8 :=
  if d < 10 then .ofNat (48 + d) else if upper then .ofNat (55 + d) else .ofNat (87 + d)

/-- The shortest spelling of a value. -/
def write (radix : ℕ) (upper : Bool) (value : ℤ) : List UInt8 :=
  (if value < 0 then [45] else []) ++
    if value = 0 then [48] else (Nat.digits radix value.natAbs).reverse.map (digitByte upper)

theorem digitValue_digitByte (upper : Bool) {d : ℕ} (h : d < 36) :
    digitValue (digitByte upper d) = d := by
  revert d upper
  decide

/-- Every value has a spelling in every radix and either case. -/
theorem write_spells (hr : 2 ≤ radix ∧ radix ≤ 36) (upper : Bool) (value : ℤ) :
    Spells radix value (write radix upper value) := by
  have hsign : ∀ run, numeral radix run = value.natAbs → run ≠ [] →
      (∀ c ∈ run, isDigit radix c = true) →
      Spells radix value ((if value < 0 then [45] else []) ++ run) := by
    intro run hval hne hdigits
    refine ⟨[], _, run, [], by rw [List.nil_append, List.append_nil], by simp, by simp, hne, hdigits,
      ?_⟩
    split_ifs with hneg
    · exact Or.inl ⟨rfl, by omega⟩
    · exact Or.inr ⟨Or.inl rfl, by omega⟩
  unfold write
  by_cases hzero : value = 0
  · rw [if_pos hzero]
    refine hsign [48] (by rw [hzero]; rfl) (by simp) fun c hc => ?_
    rw [List.mem_singleton.mp hc, isDigit_iff]
    exact ⟨by decide, show (0 : ℤ) < radix by omega⟩
  rw [if_neg hzero]
  have hlt : ∀ d ∈ Nat.digits radix value.natAbs, d < radix := fun d hd =>
    Nat.digits_lt_base hr.1 hd
  refine hsign _ ?_ ?_ ?_
  · rw [numeral, ← List.map_reverse, List.reverse_reverse, List.map_map]
    have hid : (Nat.digits radix value.natAbs).map
        ((fun c => (digitValue c).toNat) ∘ digitByte upper) = Nat.digits radix value.natAbs := by
      conv_rhs => rw [← List.map_id (Nat.digits radix value.natAbs)]
      refine List.map_congr_left fun d hd => ?_
      have := hlt d hd
      rw [Function.comp_apply, digitValue_digitByte upper (by omega)]
      rfl
    rw [hid, Nat.ofDigits_digits]
  · rw [ne_eq, List.map_eq_nil_iff, List.reverse_eq_nil_iff, Nat.digits_eq_nil_iff_eq_zero]
    omega
  · intro c hc
    obtain ⟨d, hd, rfl⟩ := List.mem_map.mp hc
    have := hlt d (List.mem_reverse.mp hd)
    rw [isDigit_iff, digitValue_digitByte upper (by omega)]
    omega

/-- A spelling is made of digits and a minus sign. -/
theorem mem_write (hr : 2 ≤ radix ∧ radix ≤ 36) (upper : Bool) (value : ℤ) {c : UInt8}
    (hc : c ∈ write radix upper value) : c = 45 ∨ isDigit radix c = true := by
  unfold write at hc
  rcases List.mem_append.mp hc with hc | hc
  · left
    split_ifs at hc
    · exact List.mem_singleton.mp hc
    · exact absurd hc List.not_mem_nil
  · right
    rw [isDigit_iff]
    split_ifs at hc
    · rw [List.mem_singleton.mp hc]
      exact ⟨by decide, show (0 : ℤ) < radix by omega⟩
    · obtain ⟨d, hd, rfl⟩ := List.mem_map.mp hc
      have hlt := Nat.digits_lt_base hr.1 (List.mem_reverse.mp hd)
      rw [digitValue_digitByte upper (by omega)]
      omega

theorem write_ne_nil (hr : 2 ≤ radix ∧ radix ≤ 36) (upper : Bool) (value : ℤ) :
    write radix upper value ≠ [] := by
  intro h
  obtain ⟨lead, sign, run, trail, he, _, _, hrun, _⟩ := write_spells hr upper value
  have hlen := congrArg List.length (h.symm.trans he)
  simp only [List.length_nil, List.length_append] at hlen
  exact hrun (List.eq_nil_of_length_eq_zero (by omega))

theorem digitValue_of_isSpace {c : UInt8} (h : isSpace c = true) : digitValue c = -1 := by
  unfold isSpace at h
  unfold digitValue
  simp only [Bool.or_eq_true, Bool.and_eq_true, decide_eq_true_eq, beq_iff_eq,
    UInt8.le_iff_toNat_le] at h ⊢
  rcases h with h | rfl
  · simp at h ⊢
    split_ifs <;> omega
  · rfl

theorem not_isDigit_of_isSpace {c : UInt8} (h : isSpace c = true) : isDigit radix c = false := by
  rw [Bool.eq_false_iff, ne_eq, isDigit_iff, digitValue_of_isSpace h]
  omega

/-- Digits of radix 16 are not taken for a prefix. -/
theorem splitPrefix_digits (hr : 2 ≤ radix) {run trail : List UInt8}
    (hrun : ∀ c ∈ run, isDigit radix c = true) (htrail : ∀ c ∈ trail, isSpace c = true) :
    splitPrefix radix (run ++ trail) = (radix, run ++ trail) := by
  unfold splitPrefix
  rw [if_neg (by omega)]
  split_ifs with h16
  · have hx : ∀ c ∈ run ++ trail, c ≠ 120 ∧ c ≠ 88 := by
      intro c hc
      rcases List.mem_append.mp hc with hc | hc
      · have hd := (isDigit_iff c).mp (hrun c hc)
        constructor
        · rintro rfl
          rw [h16] at hd
          exact absurd hd (by decide)
        · rintro rfl
          rw [h16] at hd
          exact absurd hd (by decide)
      · have hs := htrail c hc
        constructor
        · rintro rfl
          cases hs
        · rintro rfl
          cases hs
    have hnone : afterHex (run ++ trail) = none := by
      unfold afterHex
      split
      · rename_i heq
        exact absurd rfl (hx 120 (by rw [heq]; simp)).1
      · rename_i heq
        exact absurd rfl (hx 88 (by rw [heq]; simp)).2
      · rfl
    rw [hnone, h16]
    rfl
  · rfl

/-- The spaces and the sign of a spelling. -/
theorem splitSign_spelling {lead sign run trail : List UInt8}
    (hlead : ∀ c ∈ lead, isSpace c = true) (hne : run ≠ [])
    (hrun : ∀ c ∈ run, isDigit radix c = true) (hsign : sign = [45] ∨ sign = [] ∨ sign = [43]) :
    splitSign ((lead ++ (sign ++ (run ++ trail))).dropWhile isSpace) =
      (decide (sign = [45]), run ++ trail) := by
  obtain ⟨c, run, rfl⟩ := List.exists_cons_of_ne_nil hne
  have hd := (isDigit_iff c).mp (hrun c List.mem_cons_self)
  have hspace : isSpace c = false := by
    rw [Bool.eq_false_iff]
    intro hs
    rw [digitValue_of_isSpace hs] at hd
    omega
  rw [List.dropWhile_append_of_pos hlead]
  rcases hsign with rfl | rfl | rfl
  · rfl
  · rw [List.nil_append, List.cons_append, List.dropWhile_cons_of_neg (by simp [hspace])]
    unfold splitSign
    split
    · rename_i heq
      rw [(List.cons.inj heq).1] at hd
      exact absurd hd.1 (by decide)
    · rename_i heq
      rw [(List.cons.inj heq).1] at hd
      exact absurd hd.1 (by decide)
    · rfl
  · rfl

/-- A spelling means its value. -/
theorem grammar_spells (hr : 2 ≤ radix) {value : ℤ} {text : List UInt8}
    (h : Spells radix value text) (hlo : -2 ^ 63 ≤ value) (hhi : value ≤ 2 ^ 63 - 1) :
    grammar radix text = (.ok, some value) := by
  obtain ⟨lead, sign, run, trail, rfl, hlead, htrail, hne, hrun, hval⟩ := h
  have hsign : sign = [45] ∨ sign = [] ∨ sign = [43] := hval.imp And.left And.left
  have hvalue : withSign (decide (sign = [45])) (numeral radix run) = value := by
    rcases hval with ⟨rfl, rfl⟩ | ⟨rfl | rfl, rfl⟩ <;> rfl
  have hstop : trail.takeWhile (isDigit radix) = [] ∧ trail.dropWhile (isDigit radix) = trail := by
    cases trail with
    | nil => exact ⟨rfl, rfl⟩
    | cons c trail => simp [not_isDigit_of_isSpace (htrail c List.mem_cons_self)]
  have htake : (run ++ trail).takeWhile (isDigit radix) = run := by
    rw [List.takeWhile_append_of_pos hrun, hstop.1, List.append_nil]
  have hdrop : (run ++ trail).dropWhile (isDigit radix) = trail := by
    rw [List.dropWhile_append_of_pos hrun, hstop.2]
  unfold grammar
  rw [splitSign_spelling hlead hne hrun hsign]
  simp only
  rw [splitPrefix_digits hr hrun htrail]
  simp only [htake, hdrop, hvalue]
  rw [if_neg hne, if_neg (by omega), if_pos (List.all_eq_true.mpr htrail)]

/-- **Parsing an integer.** For a base that is 0 or from 2 to 36 and an `out` that is not null, the
function returns and stores what the grammar says of the bytes of the view, over the machine's
arithmetic and over the one without results out of range, so no computation wraps.  Every value of
`int64_t` has spellings in every base, in either case, and every view that holds one of them, with a
sign and spaces, parses back to the value. -/
theorem parseInt_decides_grammar (mem : Mem) (v : StrView) (base : ℤ)
    (hbase : base = 0 ∨ 2 ≤ base ∧ base ≤ 36) (o : ℤ) :
    (∀ ar, ar = Arith.machine ∨ ar = Arith.checked →
      parseInt ar mem v base (some o) = some ((grammar base.toNat (v.bytes mem)).1,
        some ((grammar base.toNat (v.bytes mem)).2.getD o))) ∧
    ∀ value : ℤ, -2 ^ 63 ≤ value → value ≤ 2 ^ 63 - 1 → base ≠ 0 →
      (∀ upper, Spells base.toNat value (write base.toNat upper value)) ∧
      (Spells base.toNat value (v.bytes mem) →
        parseInt .machine mem v base (some o) = some (.ok, some value)) := by
  refine ⟨fun ar _ => parseInt_eq ar mem v hbase o, fun value hlo hhi hne => ?_⟩
  have hrange := hbase.resolve_left hne
  refine ⟨fun upper => write_spells (by omega) upper value, fun h => ?_⟩
  rw [parseInt_eq .machine mem v hbase o, grammar_spells (by omega) h hlo hhi]
  rfl

/-- A memory that holds `" -Zz"` at `1`. -/
def spelled : Mem := fun x => [0, 32, 45, 90, 122].getD x 0

/-- `" -Zz"` in base 36 is `-1295`. -/
theorem parseInt_decides_grammar_base_36 :
    (StrView.range 1 4 (by decide)).bytes spelled = [32, 45, 90, 122] ∧
    parseInt .machine spelled (StrView.range 1 4 (by decide)) 36 (some 7) =
      some (.ok, some (-1295)) := by
  refine ⟨by decide, ?_⟩
  have hspells : Spells 36 (-1295) [32, 45, 90, 122] :=
    ⟨[32], [45], [90, 122], [], rfl, List.all_eq_true.mp rfl, List.forall_mem_nil _, by decide,
      List.all_eq_true.mp rfl, Or.inl ⟨rfl, by decide⟩⟩
  exact ((parseInt_decides_grammar spelled _ 36 (by norm_num) 7).2 (-1295) (by norm_num) (by norm_num)
    (by norm_num)).2 hspells

end Parse

end D4np
