import D4np.Lib.ByteCopy
import D4np.Lib.SepJoin
import D4np.Lib.Word
import Mathlib.Tactic

/-!
# Joining paths

`d4np_path_combine` counts the length of the join of two segments and writes as much of it as the
buffer takes, one byte at a time through one macro.  The segments and the buffer are places in one
memory, and each byte is read when it is put.  After any bytes have been put, the count is their
number and the buffer holds what a copy of those that fit leaves there (`Emitted`); the four places
that put bytes put the parts of the join in order (`combine_eq`).  So the buffer holds the join
exactly if no byte of a segment is read from where the call has written another one
(`combine_writes_join`).  What the join of two strings is and that it is associative is `SepJoin`.
-/

namespace D4np

open Word64 ByteMem SepJoin

/-- The platform the library is built for. -/
inductive Platform
  | posix
  | windows
  deriving DecidableEq

/-- A C string: the bytes before its terminator, in an object of at most `PTRDIFF_MAX` bytes. -/
@[ext] structure CString where
  bytes : List UInt8
  noNul : 0 ∉ bytes
  fits : bytes.length + 1 < 2 ^ 63

/-- A pointer to a C string in the memory `m`; `len` is what `strlen` returns for it. -/
structure CStringAt (m : Mem) where
  addr : ℕ
  len : ℕ
  noNul : 0 ∉ bytesAt m addr len
  terminated : m (addr + len) = 0
  fits : len + 1 < 2 ^ 63

/-- The string a pointer leads to. -/
def CStringAt.str {m : Mem} (s : CStringAt m) : CString :=
  ⟨bytesAt m s.addr s.len, s.noNul, by rw [bytesAt_length]; exact s.fits⟩

namespace Path

/-- `path_is_sep`. -/
def isSep : Platform → UInt8 → Bool
  | .posix, c => c == 0x2f
  | .windows, c => c == 0x2f || c == 0x5c

/-- `sep` of `d4np_path_combine`. -/
def sep : Platform → UInt8
  | .posix => 0x2f
  | .windows => 0x5c

section Source

variable {m : Mem}

/-- Where a segment is.  A null one is `""`, of which no byte is put. -/
def base : Option (CStringAt m) → ℕ
  | none => 0
  | some s => s.addr

/-- `strlen` of a segment; a null one is `""`. -/
def strlen : Option (CStringAt m) → ℕ
  | none => 0
  | some s => s.len

end Source

/-- The loop that drops trailing separators on the left. -/
def trimEnd (pl : Platform) (m : Mem) (a : ℕ) : ℕ → ℕ
  | 0 => 0
  | alen + 1 => if isSep pl (m (a + alen)) then trimEnd pl m a alen else alen + 1

/-- The loop that drops leading separators on the right, with `rem` bytes left. -/
def skipStart (pl : Platform) (m : Mem) (b : ℕ) : ℕ → ℕ → ℕ
  | 0, bstart => bstart
  | rem + 1, bstart =>
    if isSep pl (m (b + bstart)) then skipStart pl m b rem (bstart + 1) else bstart

/-- The memory and the two counters. -/
structure Output where
  mem : Mem
  w : ℕ
  total : ℕ

/-- `D4NP_PUT`. -/
def put (out : Option ℕ) (outSize : ℕ) (o : Output) (ch : UInt8) : Output :=
  let total := wrap (o.total + 1)
  match out with
  | none => { o with total := total }
  | some p =>
    if wrap (o.w + 1) < outSize then
      ⟨Function.update o.mem (p + o.w) ch, wrap (o.w + 1), total⟩
    else { o with total := total }

/-- The loop that puts `count` bytes of the string at `s` from `start` on, each read in its turn. -/
def emit (out : Option ℕ) (outSize : ℕ) (s start : ℕ) : ℕ → Output → Output
  | 0, o => o
  | count + 1, o =>
    let o := emit out outSize s start count o
    put out outSize o (o.mem (s + (start + count)))

/-- The terminator at the end of the call. -/
def terminate (out : Option ℕ) (outSize : ℕ) (o : Output) : Mem :=
  match out with
  | none => o.mem
  | some p => if outSize > 0 then Function.update o.mem (p + o.w) 0 else o.mem

/-- `d4np_path_combine`: the value returned and the memory after the call.  The buffer may lie
anywhere, over the segments as well; a null one is `none`. -/
def combine (pl : Platform) (m : Mem) (out : Option ℕ) (outSize : ℕ) (a b : Option (CStringAt m)) :
    ℕ × Mem :=
  let aFull := strlen a
  let alen := trimEnd pl m (base a) aFull
  let blen := strlen b
  let bstart := skipStart pl m (base b) blen 0
  let bcount := sub blen bstart
  let aIsRoot := aFull > 0 ∧ alen = 0
  let o : Output := ⟨m, 0, 0⟩
  let o :=
    if aIsRoot then emit out outSize (base b) bstart bcount (put out outSize o (sep pl))
    else
      let o := emit out outSize (base a) 0 alen o
      let o := if alen > 0 ∧ bcount > 0 then put out outSize o (sep pl) else o
      emit out outSize (base b) bstart bcount o
  (o.total, terminate out outSize o)

/-! ## Trimming -/

variable {pl : Platform} {m : Mem} {out : Option ℕ} {outSize : ℕ}

theorem isSep_sep (pl : Platform) : isSep pl (sep pl) = true := by
  cases pl <;> rfl

/-- Whether the byte of a source is a separator. -/
def isSepAt (pl : Platform) (m : Mem) : Source → Bool := isSep pl ∘ Source.read m

theorem isSepAt_addr (pl : Platform) (m : Mem) (x : ℕ) : isSepAt pl m (.addr x) = isSep pl (m x) :=
  rfl

theorem trimEnd_le (pl : Platform) (m : Mem) (a n : ℕ) : trimEnd pl m a n ≤ n := by
  induction n with
  | zero => exact le_refl _
  | succ n ih =>
    unfold trimEnd
    split_ifs
    · omega
    · exact le_refl _

/-- What the loop on the left leaves is the segment without its trailing separators. -/
theorem addrs_trimEnd (pl : Platform) (m : Mem) (a n : ℕ) :
    addrs a (trimEnd pl m a n) = (addrs a n).rdropWhile (isSepAt pl m) := by
  induction n with
  | zero => rfl
  | succ n ih =>
    unfold trimEnd
    rw [addrs_succ, ← isSepAt_addr]
    split_ifs with hsep
    · rw [List.rdropWhile_concat_pos _ _ _ hsep]
      exact ih
    · rw [List.rdropWhile_concat_neg _ _ _ hsep, addrs_succ]

theorem skipStart_le (pl : Platform) (m : Mem) (b rem start : ℕ) :
    skipStart pl m b rem start ≤ start + rem := by
  induction rem generalizing start with
  | zero => exact le_refl _
  | succ rem ih =>
    unfold skipStart
    split_ifs
    · exact (ih (start + 1)).trans (by omega)
    · omega

/-- What the loop on the right leaves is the segment without its leading separators. -/
theorem addrs_skipStart (pl : Platform) (m : Mem) (b rem start : ℕ) :
    addrs (b + skipStart pl m b rem start) (start + rem - skipStart pl m b rem start) =
      (addrs (b + start) rem).dropWhile (isSepAt pl m) := by
  induction rem generalizing start with
  | zero =>
    unfold skipStart
    rw [Nat.add_zero, Nat.sub_self]
    rfl
  | succ rem ih =>
    unfold skipStart
    rw [addrs_succ', List.dropWhile_cons, ← isSepAt_addr]
    by_cases hsep : isSepAt pl m (.addr (b + start)) = true
    · rw [if_pos hsep, if_pos hsep, Nat.add_assoc b, ← ih, Nat.add_right_comm, Nat.add_assoc]
    · rw [if_neg hsep, if_neg hsep, Nat.add_sub_cancel_left, addrs_succ']

/-! ## Bounded output -/

/-- The memory in which those of the sources `l` have been copied that fit below `n`. -/
def copied (m : Mem) (out : Option ℕ) (n : ℕ) (l : List Source) : Mem :=
  match out with
  | none => m
  | some p => copyOut m p (l.take n)

/-- The bytes of the sources `l` have been put: they are counted, and those that fit have been
copied. -/
structure Emitted (m : Mem) (out : Option ℕ) (outSize : ℕ) (l : List Source) (o : Output) :
    Prop where
  total : o.total = l.length
  mem : o.mem = copied m out (outSize - 1) l
  position : out ≠ none → o.w = min l.length (outSize - 1)

variable {l : List Source} {o : Output}

theorem emitted_start (m : Mem) (out : Option ℕ) (outSize : ℕ) :
    Emitted m out outSize [] ⟨m, 0, 0⟩ where
  total := rfl
  mem := by cases out <;> simp [copied, copyOut]
  position := fun _ => (Nat.zero_min _).symm

/-- One byte more, read from the memory as it is by now. -/
theorem Emitted.put (h : Emitted m out outSize l o) (hl : l.length + 1 < 2 ^ 64) (s : Source) :
    Emitted m out outSize (l ++ [s]) (Path.put out outSize o (s.read o.mem)) := by
  have htotal : wrap (o.total + 1) = (l ++ [s]).length := by
    rw [h.total, List.length_append, List.length_singleton, wrap_of_lt hl]
  have hmem := h.mem
  unfold Path.put
  rcases hout : out with _ | p
  · rw [hout] at hmem
    exact ⟨htotal, hmem, fun hne => absurd rfl hne⟩
  · have hw := h.position (by rw [hout]; nofun)
    rw [hout] at hmem
    have hwrap : wrap (o.w + 1) = o.w + 1 := wrap_of_lt (by omega)
    simp only [hwrap]
    by_cases hroom : o.w + 1 < outSize
    · -- nothing has been cut off yet
      have hlen : o.w = l.length := by omega
      have htake : l.take (outSize - 1) = l := List.take_of_length_le (by omega)
      have htake' : (l ++ [s]).take (outSize - 1) = l ++ [s] :=
        List.take_of_length_le (by rw [List.length_append, List.length_singleton]; omega)
      rw [if_pos hroom]
      refine ⟨htotal, ?_, fun _ => ?_⟩
      · have hmem : o.mem = copyOut m p l := by
          rw [hmem, copied, htake]
        show Function.update o.mem (p + o.w) (s.read o.mem) = copyOut m p _
        rw [htake', copyOut_concat, hmem, hlen]
      · show o.w + 1 = _
        rw [List.length_append, List.length_singleton]
        omega
    · have htake : (l ++ [s]).take (outSize - 1) = l.take (outSize - 1) :=
        List.take_append_of_le_length (by omega)
      rw [if_neg hroom]
      refine ⟨htotal, ?_, fun _ => ?_⟩
      · rw [copied, htake]
        exact hmem
      · show o.w = _
        rw [List.length_append, List.length_singleton]
        omega

/-- The bytes of a loop. -/
theorem Emitted.emit (h : Emitted m out outSize l o) (s start : ℕ) :
    ∀ n, l.length + n < 2 ^ 64 →
      Emitted m out outSize (l ++ addrs (s + start) n) (Path.emit out outSize s start n o) := by
  intro n
  induction n with
  | zero =>
    intro _
    rw [addrs, List.range_zero, List.map_nil, List.append_nil]
    exact h
  | succ n ih =>
    intro hl
    have hput := (ih (by omega)).put (by
      rw [List.length_append, addrs_length]
      omega) (.addr (s + start + n))
    rw [List.append_assoc, ← addrs_succ] at hput
    unfold Path.emit
    rw [← Nat.add_assoc]
    exact hput

/-- The memory after a call that puts the sources `l`: what fits, and a terminator behind it. -/
def written (m : Mem) (out : Option ℕ) (outSize : ℕ) (l : List Source) : Mem :=
  match out with
  | none => m
  | some p =>
    if outSize > 0 then
      Function.update (copyOut m p (l.take (outSize - 1))) (p + min l.length (outSize - 1)) 0
    else m

theorem Emitted.terminated (h : Emitted m out outSize l o) :
    (o.total, terminate out outSize o) = (l.length, written m out outSize l) := by
  have hmem := h.mem
  unfold terminate written
  rcases hout : out with _ | p
  · rw [hout] at hmem
    simp only [h.total, hmem, copied]
  · have hw := h.position (by rw [hout]; nofun)
    rw [hout] at hmem
    by_cases hpos : outSize > 0
    · simp only [if_pos hpos, h.total, hmem, hw, copied]
    · simp only [if_neg hpos, h.total, hmem, copied, show outSize - 1 = 0 by omega, List.take_zero,
        copyOut]

/-! ## The join -/

/-- The addresses of a segment. -/
def sources (s : Option (CStringAt m)) : List Source := addrs (base s) (strlen s)

/-- Where the bytes of the join come from. -/
def origins (pl : Platform) (a b : Option (CStringAt m)) : List Source :=
  join (isSepAt pl m) (.const (sep pl)) (sources a) (sources b)

theorem strlen_lt (s : Option (CStringAt m)) : strlen s + 1 < 2 ^ 63 := by
  rcases s with _ | s
  · norm_num [strlen]
  · exact s.fits

/-- The segment the loop on the left leaves. -/
theorem trimEnd_eq_length (pl : Platform) (a : Option (CStringAt m)) :
    trimEnd pl m (base a) (strlen a) = ((sources a).rdropWhile (isSepAt pl m)).length := by
  rw [sources, ← addrs_trimEnd, addrs_length]

theorem addrs_right (pl : Platform) (b : Option (CStringAt m)) :
    addrs (base b + skipStart pl m (base b) (strlen b) 0)
      (sub (strlen b) (skipStart pl m (base b) (strlen b) 0)) =
      (sources b).dropWhile (isSepAt pl m) := by
  have hle := skipStart_le pl m (base b) (strlen b) 0
  have hlen := strlen_lt b
  have hskip := addrs_skipStart pl m (base b) (strlen b) 0
  rw [Nat.zero_add] at hle hskip
  rw [sub_of_le hle (by omega), hskip]
  rfl

/-- The segment the loop on the right leaves. -/
theorem count_eq_length (pl : Platform) (b : Option (CStringAt m)) :
    sub (strlen b) (skipStart pl m (base b) (strlen b) 0) =
      ((sources b).dropWhile (isSepAt pl m)).length := by
  rw [← addrs_right, addrs_length]

theorem isRoot_iff_trimEnd (pl : Platform) (a : Option (CStringAt m)) :
    IsRoot (isSepAt pl m) (sources a) ↔
      strlen a > 0 ∧ trimEnd pl m (base a) (strlen a) = 0 := by
  rw [trimEnd_eq_length, List.length_eq_zero_iff, List.rdropWhile_eq_nil_iff, gt_iff_lt,
    ← addrs_length (base a) (strlen a), List.length_pos_iff]
  rfl

/-- Both loops leave something. -/
theorem both_left_iff (pl : Platform) (a b : Option (CStringAt m)) :
    (trimEnd pl m (base a) (strlen a) > 0 ∧
      sub (strlen b) (skipStart pl m (base b) (strlen b) 0) > 0) ↔
      (sources a).rdropWhile (isSepAt pl m) ≠ [] ∧ (sources b).dropWhile (isSepAt pl m) ≠ [] := by
  rw [trimEnd_eq_length, count_eq_length, gt_iff_lt, gt_iff_lt, List.length_pos_iff,
    List.length_pos_iff]

theorem emitted_left (pl : Platform) (out : Option ℕ) (outSize : ℕ) (a : Option (CStringAt m)) :
    Emitted m out outSize ((sources a).rdropWhile (isSepAt pl m))
      (Path.emit out outSize (base a) 0 (trimEnd pl m (base a) (strlen a)) ⟨m, 0, 0⟩) := by
  have hle := trimEnd_le pl m (base a) (strlen a)
  have hlen := strlen_lt a
  have hemit := (emitted_start m out outSize).emit (base a) 0
    (trimEnd pl m (base a) (strlen a)) (by rw [List.length_nil]; omega)
  rw [Nat.add_zero, addrs_trimEnd, List.nil_append] at hemit
  exact hemit

theorem Emitted.right (h : Emitted m out outSize l o) (pl : Platform) (b : Option (CStringAt m))
    (hl : l.length + strlen b < 2 ^ 64) :
    Emitted m out outSize (l ++ (sources b).dropWhile (isSepAt pl m))
      (Path.emit out outSize (base b) (skipStart pl m (base b) (strlen b) 0)
        (sub (strlen b) (skipStart pl m (base b) (strlen b) 0)) o) := by
  have hcount := (List.dropWhile_sublist (isSepAt pl m) (l := sources b)).length_le
  rw [sources, addrs_length] at hcount
  rw [← addrs_right]
  refine h.emit _ _ _ ?_
  rw [count_eq_length, sources]
  omega

/-- **The call.** It counts the bytes of the join and copies what fits of them. -/
theorem combine_eq (pl : Platform) (out : Option ℕ) (outSize : ℕ) (a b : Option (CStringAt m)) :
    combine pl m out outSize a b =
      ((origins pl a b).length, written m out outSize (origins pl a b)) := by
  have ha := strlen_lt a
  have hb := strlen_lt b
  have hpre := (List.rdropWhile_prefix (isSepAt pl m) (sources a)).length_le
  rw [sources, addrs_length, ← sources] at hpre
  unfold combine origins
  by_cases hroot : IsRoot (isSepAt pl m) (sources a)
  · simp only [if_pos ((isRoot_iff_trimEnd pl a).mp hroot)]
    have hput := ((emitted_start m out outSize).put (by simp) (.const (sep pl))).right pl b
      (by rw [List.nil_append, List.length_singleton]; omega)
    rw [join_of_root hroot]
    exact hput.terminated
  · simp only [if_neg (fun h => hroot ((isRoot_iff_trimEnd pl a).mpr h))]
    have hleft := emitted_left pl out outSize a
    by_cases hboth : trimEnd pl m (base a) (strlen a) > 0 ∧
        sub (strlen b) (skipStart pl m (base b) (strlen b) 0) > 0
    · have hput := (hleft.put (by omega) (.const (sep pl))).right pl b
        (by rw [List.length_append, List.length_singleton]; omega)
      simp only [if_pos hboth]
      rw [join_of_not_root hroot, glue, if_pos ((both_left_iff pl a b).mp hboth)]
      exact hput.terminated
    · have hright := hleft.right pl b (by omega)
      simp only [if_neg hboth]
      rw [join_of_not_root hroot, glue, if_neg fun hne => hboth ((both_left_iff pl a b).mpr hne),
        List.append_nil]
      exact hright.terminated

/-! ## What is written -/

/-- The bytes of a segment. -/
def text (s : Option (CStringAt m)) : List UInt8 := bytesAt m (base s) (strlen s)

/-- What a call joins its segments to. -/
def joined (pl : Platform) (a b : List UInt8) : List UInt8 := join (isSep pl) (sep pl) a b

/-- The `size` bytes at `p` hold no byte of a segment. -/
def Apart (p size : ℕ) (s : Option (CStringAt m)) : Prop :=
  ∀ i < size, ∀ j < strlen s, p + i ≠ base s + j

variable {p : ℕ} {a b : Option (CStringAt m)}

theorem map_origins (pl : Platform) (a b : Option (CStringAt m)) :
    (origins pl a b).map (Source.read m) = joined pl (text a) (text b) := by
  unfold origins isSepAt joined text
  rw [map_join, sources, sources, map_read_addrs, map_read_addrs]
  rfl

theorem length_origins (pl : Platform) (a b : Option (CStringAt m)) :
    (origins pl a b).length = (joined pl (text a) (text b)).length := by
  rw [← map_origins, List.length_map]

theorem zero_not_mem_text (s : Option (CStringAt m)) : 0 ∉ text s := by
  rcases s with _ | s
  · nofun
  · exact s.noNul

theorem zero_not_mem_joined (pl : Platform) (a b : Option (CStringAt m)) :
    0 ∉ joined pl (text a) (text b) := by
  intro h
  rcases mem_join h with hsep | ha | hb
  · cases pl <;> exact absurd hsep (by decide)
  · exact zero_not_mem_text a ha
  · exact zero_not_mem_text b hb

/-- The copy and its terminator. -/
theorem bytesAt_written (m : Mem) (p : ℕ) (hpos : 0 < outSize) (l : List Source) :
    bytesAt (written m (some p) outSize l) p (min l.length (outSize - 1) + 1) =
      bytesAt (copyOut m p (l.take (outSize - 1))) p (l.take (outSize - 1)).length ++ [0] := by
  rw [written, if_pos hpos, bytesAt_succ_last, Function.update_self, List.length_take,
    Nat.min_comm l.length]
  congr 1
  exact bytesAt_congr fun i hi => Function.update_of_ne (by omega) _ _

/-- The buffer holds what fits exactly if it was read in time. -/
theorem bytesAt_written_iff (m : Mem) (p : ℕ) (hpos : 0 < outSize) (l : List Source) :
    bytesAt (written m (some p) outSize l) p (min l.length (outSize - 1) + 1) =
        (l.map (Source.read m)).take (outSize - 1) ++ [0] ↔
      ReadInTime m p (l.take (outSize - 1)) := by
  rw [bytesAt_written m p hpos, List.append_left_inj, ← List.map_take, bytesAt_copyOut_iff]

/-- The buffer holds all of it exactly if it was read in time and fits. -/
theorem bytesAt_written_all_iff (m : Mem) (p : ℕ) (hpos : 0 < outSize)
    (h0 : 0 ∉ l.map (Source.read m)) :
    bytesAt (written m (some p) outSize l) p (l.length + 1) = l.map (Source.read m) ++ [0] ↔
      l.length < outSize ∧ ReadInTime m p (l.take (outSize - 1)) := by
  by_cases hroom : l.length < outSize
  · have hiff := bytesAt_written_iff m p hpos l
    rw [Nat.min_eq_left (by omega), List.take_of_length_le (by rw [List.length_map]; omega)] at hiff
    rw [hiff, and_iff_right hroom]
  · refine iff_of_false (fun hall => h0 ?_) (fun h => hroom h.1)
    -- the terminator stands where the join has another byte
    have hlast := congrArg (·[outSize - 1]?) hall
    have hin : outSize - 1 < l.length := by omega
    have hterm : written m (some p) outSize l (p + (outSize - 1)) = 0 := by
      rw [written, if_pos hpos, Nat.min_eq_right (by omega), Function.update_self]
    simp only [bytesAt, List.getElem?_map, List.getElem?_range (show outSize - 1 < l.length + 1 by
      omega), Option.map_some, hterm, List.getElem?_append_left (show outSize - 1 <
      (l.map (Source.read m)).length by rwa [List.length_map])] at hlast
    exact List.mem_of_getElem? (by rw [List.getElem?_map]; exact hlast.symm)

/-- Outside of the buffer nothing is written. -/
theorem written_of_not_mem (m : Mem) {p x : ℕ} (l : List Source)
    (hx : x < p ∨ p + outSize ≤ x) : written m (some p) outSize l x = m x := by
  by_cases hpos : outSize > 0
  · have hlen := List.length_take_le (outSize - 1) l
    rw [written, if_pos hpos, Function.update_of_ne (by omega)]
    exact copyOut_of_not_mem m _ (by omega)
  · rw [written, if_neg hpos]

theorem addr_mem_sources {x : ℕ} {s : Option (CStringAt m)} (h : .addr x ∈ sources s) :
    ∃ j < strlen s, x = base s + j := by
  obtain ⟨j, hj, hx⟩ := mem_addrs.mp h
  exact ⟨j, hj, Source.addr.inj hx⟩

theorem Apart.not_mem {s : Option (CStringAt m)} (h : Apart p outSize s) {i : ℕ}
    (hi : i < outSize - 1) : .addr (p + i) ∉ sources s := by
  intro hmem
  obtain ⟨j, hj, hx⟩ := addr_mem_sources hmem
  exact h i (by omega) j hj hx

/-- The join begins with bytes of the left segment at their own places. -/
theorem origins_eq (pl : Platform) (a b : Option (CStringAt m)) :
    ∃ n l, origins pl a b = addrs (base a) n ++ l ∧ ∀ x, .addr x ∈ l → .addr x ∈ sources b := by
  by_cases hroot : IsRoot (isSepAt pl m) (sources a)
  · refine ⟨0, _, (join_of_root hroot).trans (List.nil_append _).symm, fun x hx => ?_⟩
    exact (List.dropWhile_sublist _).subset ((List.mem_cons.mp hx).resolve_left nofun)
  · have heq := join_of_not_root (s := .const (sep pl)) (b := sources b) hroot
    rw [glue, sources, ← addrs_trimEnd, List.append_assoc] at heq
    refine ⟨_, _, heq, fun x hx => ?_⟩
    rcases List.mem_append.mp hx with hsep | hb
    · split_ifs at hsep <;> simp at hsep
    · exact (List.dropWhile_sublist _).subset hb

/-- A buffer apart from the segments, or one that is the left one. -/
theorem readInTime_origins (pl : Platform) (ha : Apart p outSize a ∨ base a = p)
    (hb : Apart p outSize b) : ReadInTime m p ((origins pl a b).take (outSize - 1)) := by
  rcases ha with ha | rfl
  · refine readInTime_take fun i hi hmem => ?_
    rcases mem_join hmem with hsep | hina | hinb
    · nomatch hsep
    · exact ha.not_mem hi hina
    · exact hb.not_mem hi hinb
  · obtain ⟨n, l, horigins, hl⟩ := origins_eq pl a b
    rw [horigins]
    exact readInTime_take_append fun i hi hmem => hb.not_mem hi (hl _ hmem)

/-- **What `d4np_path_combine` returns and writes.** It returns the length of the join whatever the
buffer is and wherever it lies.  Without a buffer with room nothing is written, and nothing outside
of it ever.  A buffer with room holds the bytes of the join that fit and a terminator behind them
exactly if no byte of a segment is read from where another byte has been written before, as when it
overlaps neither segment or is the left one itself; and then it holds all of the join exactly if the
value returned is below the size. -/
theorem combine_writes_join (pl : Platform) (m : Mem) (out : Option ℕ) (outSize : ℕ)
    (a b : Option (CStringAt m)) :
    (combine pl m out outSize a b).1 = (joined pl (text a) (text b)).length ∧
    (out = none ∨ outSize = 0 → (combine pl m out outSize a b).2 = m) ∧
    ∀ p, out = some p → 0 < outSize →
      (∀ x, x < p ∨ p + outSize ≤ x → (combine pl m out outSize a b).2 x = m x) ∧
      (bytesAt (combine pl m out outSize a b).2 p
            (min (joined pl (text a) (text b)).length (outSize - 1) + 1) =
          (joined pl (text a) (text b)).take (outSize - 1) ++ [0] ↔
        ReadInTime m p ((origins pl a b).take (outSize - 1))) ∧
      (bytesAt (combine pl m out outSize a b).2 p ((joined pl (text a) (text b)).length + 1) =
          joined pl (text a) (text b) ++ [0] ↔
        (combine pl m out outSize a b).1 < outSize ∧
          ReadInTime m p ((origins pl a b).take (outSize - 1))) ∧
      (Apart p outSize a ∨ base a = p → Apart p outSize b →
        ReadInTime m p ((origins pl a b).take (outSize - 1))) := by
  rw [combine_eq, ← length_origins]
  refine ⟨rfl, ?_, ?_⟩
  · rintro (rfl | rfl)
    · rfl
    · cases out <;> rfl
  · rintro p rfl hpos
    have h0 := zero_not_mem_joined pl a b
    rw [← map_origins] at h0 ⊢
    exact ⟨fun x hx => written_of_not_mem m _ hx, bytesAt_written_iff m p hpos _,
      bytesAt_written_all_iff m p hpos h0, readInTime_origins pl⟩

/-- A memory with `"x"` at 0 and `"dir"` at 16. -/
def twoSegments : Mem := writeList (writeList (fun _ => 0) 0 [0x78]) 16 [0x64, 0x69, 0x72]

/-- `"dir"` and `"x"`. -/
def dirAt : CStringAt twoSegments := ⟨16, 3, by decide, by decide, by decide⟩

@[inherit_doc dirAt] def xAt : CStringAt twoSegments := ⟨0, 1, by decide, by decide, by decide⟩

/-- Joined into the buffer of `"dir"`, they give `"dir/x"`. -/
theorem combine_writes_join_in_place :
    bytesAt (combine .posix twoSegments (some 16) 12 (some dirAt) (some xAt)).2 16 6 =
      [0x64, 0x69, 0x72, 0x2f, 0x78, 0] := by
  have h := (combine_writes_join .posix twoSegments (some 16) 12 (some dirAt) (some xAt)).2.2 16 rfl
    (by decide)
  exact h.2.1.mpr (h.2.2.2 (Or.inr rfl) (fun i _ j hj => by
    have : j < 1 := hj
    show 16 + i ≠ 0 + j
    omega))

/-- Joined into the buffer of `"x"`, they give `"dir/d"`, which is not their join. -/
theorem combine_over_right_segment :
    bytesAt (combine .posix twoSegments (some 0) 12 (some dirAt) (some xAt)).2 0 6 =
      [0x64, 0x69, 0x72, 0x2f, 0x64, 0] ∧
    joined .posix (text (some dirAt)) (text (some xAt)) = [0x64, 0x69, 0x72, 0x2f, 0x78] ∧
    bytesAt (combine .posix twoSegments (some 0) 12 (some dirAt) (some xAt)).2 0
        (min (joined .posix (text (some dirAt)) (text (some xAt))).length (12 - 1) + 1) ≠
      (joined .posix (text (some dirAt)) (text (some xAt))).take (12 - 1) ++ [0] := by
  decide

/-! ## Laws of the join -/

/-- The bytes of a string; a null one is empty. -/
def segment (s : Option CString) : List UInt8 :=
  match s with
  | none => []
  | some s => s.bytes

/-- A call leaves the string `r` in a buffer that is large enough and apart from the segments. -/
def Combines (pl : Platform) (a b : Option CString) (r : CString) : Prop :=
  ∃ (m : Mem) (s t : Option (CStringAt m)) (p outSize n : ℕ) (m' : Mem),
    s.map CStringAt.str = a ∧ t.map CStringAt.str = b ∧ Apart p outSize s ∧ Apart p outSize t ∧
    combine pl m (some p) outSize s t = (n, m') ∧ n < outSize ∧
    bytesAt m' p (n + 1) = r.bytes ++ [0]

theorem segment_map_str (s : Option (CStringAt m)) : segment (s.map CStringAt.str) = text s := by
  cases s <;> rfl

/-- A string that is in the memory has a pointer to it. -/
theorem exists_pointer {x : ℕ} (a : Option CString)
    (hbytes : bytesAt m x (segment a).length = segment a) (hterm : m (x + (segment a).length) = 0) :
    ∃ s : Option (CStringAt m), s.map CStringAt.str = a ∧
      ∀ j < strlen s, x ≤ base s + j ∧ base s + j < x + (segment a).length := by
  rcases a with _ | a
  · exact ⟨none, rfl, fun j hj => absurd hj (Nat.not_lt_zero j)⟩
  · have hnul : 0 ∉ bytesAt m x a.bytes.length := by
      rw [show bytesAt m x a.bytes.length = a.bytes from hbytes]
      exact a.noNul
    refine ⟨some ⟨x, a.bytes.length, hnul, hterm, a.fits⟩, ?_, fun j hj => ?_⟩
    · exact congrArg some (CString.ext hbytes)
    · have hj : j < a.bytes.length := hj
      show x ≤ x + j ∧ x + j < x + a.bytes.length
      omega

/-- Any two strings and a buffer of any size apart from them. -/
theorem exists_apart (a b : Option CString) (size : ℕ) :
    ∃ (m : Mem) (s t : Option (CStringAt m)) (p : ℕ),
      s.map CStringAt.str = a ∧ t.map CStringAt.str = b ∧ Apart p size s ∧ Apart p size t := by
  let x := (segment a).length + 1
  let m : Mem := writeList (writeList (fun _ => 0) 0 (segment a)) x (segment b)
  have hleft : bytesAt m 0 (segment a).length = segment a := by
    rw [bytesAt_writeList_of_lt _ _ (by omega)]
    exact bytesAt_writeList _ _ _
  have hend : m (0 + (segment a).length) = 0 := by
    show writeList _ x _ _ = 0
    rw [writeList_of_lt _ _ (by omega), writeList_of_ge _ _ (le_refl _)]
  have hend' : m (x + (segment b).length) = 0 := by
    show writeList _ x _ _ = 0
    rw [writeList_of_ge _ _ (le_refl _), writeList_of_ge _ _ (by omega)]
  obtain ⟨s, hs, hsin⟩ := exists_pointer a hleft hend
  obtain ⟨t, ht, htin⟩ := exists_pointer b (bytesAt_writeList _ x (segment b)) hend'
  refine ⟨m, s, t, x + (segment b).length, hs, ht, fun i _ j hj => ?_, fun i _ j hj => ?_⟩
  · have := hsin j hj
    omega
  · have := htin j hj
    omega

/-- A buffer apart from the segments holds all of the join exactly if it fits. -/
theorem combine_apart (pl : Platform) {s t : Option (CStringAt m)} (hs : Apart p outSize s)
    (ht : Apart p outSize t) (hpos : 0 < outSize) :
    bytesAt (combine pl m (some p) outSize s t).2 p ((joined pl (text s) (text t)).length + 1) =
      joined pl (text s) (text t) ++ [0] ↔ (joined pl (text s) (text t)).length < outSize := by
  have h0 := zero_not_mem_joined pl s t
  have hiff := and_iff_left (a := (origins pl s t).length < outSize)
    (readInTime_origins pl (Or.inl hs) ht)
  rw [combine_eq, ← length_origins]
  rw [← map_origins] at h0 ⊢
  exact (bytesAt_written_all_iff m p hpos h0).trans hiff

theorem combines_iff {a b : Option CString} {r : CString} :
    Combines pl a b r ↔ r.bytes = joined pl (segment a) (segment b) := by
  have hlen : ∀ {m : Mem} (p outSize) (s t : Option (CStringAt m)),
      (combine pl m (some p) outSize s t).1 = (joined pl (text s) (text t)).length := by
    intro m p outSize s t
    rw [combine_eq, length_origins]
  constructor
  · rintro ⟨m, s, t, p, outSize, n, m', rfl, rfl, hs, ht, hcall, hlt, hbytes⟩
    have hn := hlen p outSize s t
    rw [hcall] at hn
    have hall := (combine_apart pl hs ht (by omega)).mpr (hn ▸ hlt)
    rw [hcall, ← hn, hbytes] at hall
    rw [segment_map_str, segment_map_str]
    exact List.append_cancel_right hall
  · intro hr
    obtain ⟨m, s, t, p, rfl, rfl, hs, ht⟩ := exists_apart a b (r.bytes.length + 1)
    rw [segment_map_str, segment_map_str] at hr
    have hn := hlen p (r.bytes.length + 1) s t
    rw [← hr] at hn
    have hall := (combine_apart pl hs ht (Nat.succ_pos _)).mpr (hr ▸ Nat.lt_succ_self _)
    rw [← hr] at hall
    exact ⟨m, s, t, p, r.bytes.length + 1, r.bytes.length, _, rfl, rfl, hs, ht, Prod.ext hn rfl,
      Nat.lt_succ_self _, hall⟩

/-- **Grouping does not matter.** With buffers large enough for the results, joining the join of the
first two segments with the third gives the same strings as joining the first with the join of the
others. -/
theorem combine_assoc {a b c : Option CString} {ab bc : CString} (hab : Combines pl a b ab)
    (hbc : Combines pl b c bc) (r : CString) :
    Combines pl (some ab) c r ↔ Combines pl a (some bc) r := by
  rw [combines_iff] at hab hbc
  have hjoined : joined pl ab.bytes (segment c) = joined pl (segment a) bc.bytes := by
    rw [hab, hbc]
    exact join_assoc (isSep_sep pl) _ _ _
  rw [combines_iff, combines_iff]
  exact hjoined ▸ Iff.rfl

/-- A short string. -/
def short (bytes : List UInt8) (h : 0 ∉ bytes ∧ bytes.length < 100) : CString :=
  ⟨bytes, h.1, by omega⟩

/-- `"x/"`, `"//y"` and `"/z"`. -/
theorem combine_assoc_three_segments :
    Combines .posix (some (short [0x78, 0x2f, 0x79] (by decide)))
      (some (short [0x2f, 0x7a] (by decide)))
      (short [0x78, 0x2f, 0x79, 0x2f, 0x7a] (by decide)) ∧
    Combines .posix (some (short [0x78, 0x2f] (by decide)))
      (some (short [0x2f, 0x2f, 0x79, 0x2f, 0x7a] (by decide)))
      (short [0x78, 0x2f, 0x79, 0x2f, 0x7a] (by decide)) := by
  have hab : Combines .posix (some (short [0x78, 0x2f] (by decide)))
      (some (short [0x2f, 0x2f, 0x79] (by decide))) (short [0x78, 0x2f, 0x79] (by decide)) :=
    combines_iff.mpr (by decide)
  have hbc : Combines .posix (some (short [0x2f, 0x2f, 0x79] (by decide)))
      (some (short [0x2f, 0x7a] (by decide))) (short [0x2f, 0x2f, 0x79, 0x2f, 0x7a] (by decide)) :=
    combines_iff.mpr (by decide)
  have hl : Combines .posix (some (short [0x78, 0x2f, 0x79] (by decide)))
      (some (short [0x2f, 0x7a] (by decide))) (short [0x78, 0x2f, 0x79, 0x2f, 0x7a] (by decide)) :=
    combines_iff.mpr (by decide)
  exact ⟨hl, (combine_assoc hab hbc _).mp hl⟩

/-- **Empty segments.** With a buffer large enough, an empty segment on the left gives the right one
without its leading separators, and an empty segment on the right the left one without its trailing
separators, or one separator if it has no other bytes; the result begins with a separator exactly if
the left segment does. -/
theorem combine_empty (pl : Platform) :
    (∀ e b r, segment e = [] → Combines pl e b r → r.bytes = (segment b).dropWhile (isSep pl)) ∧
    (∀ a e r, segment e = [] → Combines pl a e r → r.bytes =
      if IsRoot (isSep pl) (segment a) then [sep pl] else (segment a).rdropWhile (isSep pl)) ∧
    ∀ a b r, Combines pl a b r →
      ((∃ x ∈ r.bytes.head?, isSep pl x = true) ↔ ∃ x ∈ (segment a).head?, isSep pl x = true) := by
  refine ⟨fun e b r he h => ?_, fun a e r he h => ?_, fun a b r h => ?_⟩
  · rw [combines_iff.mp h, joined, he]
    exact join_nil_left _
  · rw [combines_iff.mp h, joined, he]
    exact join_nil_right _
  · rw [combines_iff.mp h]
    exact head?_join (isSep_sep pl) _ _

/-- A null segment and `"x"`. -/
theorem combine_empty_null : ∃ r, Combines .posix none (some (short [0x78] (by decide))) r ∧
    r.bytes = [0x78] := by
  have h : Combines .posix none (some (short [0x78] (by decide))) (short [0x78] (by decide)) :=
    combines_iff.mpr (by decide)
  exact ⟨_, h, (combine_empty .posix).1 _ _ _ rfl h⟩

/-- The join of an empty segment and `"/x"` is `"x"`, which is another path. -/
theorem combine_empty_loses_root :
    Combines .posix (some (short [] (by decide))) (some (short [0x2f, 0x78] (by decide)))
      (short [0x78] (by decide)) ∧
    (short [0x78] (by decide)).bytes ≠ (short [0x2f, 0x78] (by decide)).bytes ∧
    isSep .posix 0x2f = true ∧ isSep .posix 0x78 = false :=
  ⟨combines_iff.mpr (by decide), by decide, rfl, rfl⟩

end Path

end D4np
