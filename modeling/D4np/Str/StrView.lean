import D4np.Lib.ByteMem
import D4np.Lib.Word
import Mathlib.Tactic

/-!
# String views

A view is a pointer and a length over memory it does not own.  Splitting one takes the first field
off the front with each call and lets a null pointer stand for the exhausted view, so the loop over
`d4np_str_view_split_next` is an induction on the bytes that are left: a field that ends at a
separator leaves a shorter view behind it, one that ends at the end of the view leaves nothing
(`exists_fields`).  The array form runs the same loop and counts (`Fields.splitLoop`).
-/

namespace D4np

open Word64 ByteMem

/-- `d4np_str_view_t`: a null pointer stands over no bytes, any other over a range of the address
space whose end is an address too. -/
@[ext] structure StrView where
  ptr : Option ℕ
  len : ℕ
  null : ptr = none → len = 0
  fits : ∀ p, ptr = some p → 0 < p ∧ p + len < 2 ^ 64

namespace StrView

/-- The view with a null pointer. -/
def nullView : StrView := ⟨none, 0, fun _ => rfl, nofun⟩

/-- The view of `n` bytes at `p`. -/
def range (p n : ℕ) (h : 0 < p ∧ p + n < 2 ^ 64) : StrView :=
  ⟨some p, n, nofun, fun _ hq => Option.some.inj hq ▸ h⟩

/-- The bytes a view shows. -/
def bytes (mem : Mem) (v : StrView) : List UInt8 :=
  match v.ptr with
  | none => []
  | some p => bytesAt mem p v.len

/-- `d4np_str_view_from_str` of a string that ends in the address space; `strlen` finds the first
terminator. -/
def fromStr (mem : Mem) (cstr : Option ℕ)
    (h : ∀ p ∈ cstr, 0 < p ∧ ∃ n, mem (p + n) = 0 ∧ p + n < 2 ^ 64) : StrView :=
  match cstr, h with
  | none, _ => nullView
  | some p, h => range p (Nat.find (h p rfl).2) ⟨(h p rfl).1, (Nat.find_spec (h p rfl).2).2⟩

/-- `d4np_str_view_from_buf` of a buffer in the address space. -/
def fromBuf (buf : Option ℕ) (len : ℕ) (h : ∀ p ∈ buf, 0 < p ∧ p + len < 2 ^ 64) : StrView :=
  match buf, h with
  | none, _ => nullView
  | some p, h => range p len (h p rfl)

/-- `memcmp(p, q, n) == 0`. -/
def memEq (mem : Mem) (p q n : ℕ) : Bool := (List.range n).all fun i => mem (p + i) == mem (q + i)

/-- `d4np_str_view_equals`. -/
def equals (mem : Mem) (a b : StrView) : Bool :=
  if a.len ≠ b.len then false
  else if a.len = 0 then true
  else memEq mem (a.ptr.getD 0) (b.ptr.getD 0) a.len

/-- The loop of `d4np_str_view_split_next`, with `rem` bytes left from index `i` on. -/
def findSep (mem : Mem) (start : ℕ) (sep : UInt8) : ℕ → ℕ → Option ℕ
  | 0, _ => none
  | rem + 1, i => if mem (start + i) = sep then some i else findSep mem start sep rem (i + 1)

theorem findSep_lt {mem : Mem} {start : ℕ} {sep : UInt8} {rem i j : ℕ}
    (h : findSep mem start sep rem i = some j) : i ≤ j ∧ j < i + rem := by
  induction rem generalizing i with
  | zero => cases h
  | succ rem ih =>
    unfold findSep at h
    split_ifs at h with hsep
    · cases h
      omega
    · have := ih h
      omega

theorem field_fits {sv : StrView} {start i : ℕ} (h : 0 < start ∧ start + sv.len < 2 ^ 64)
    (hi : 0 ≤ i ∧ i < 0 + sv.len) : 0 < start ∧ start + i < 2 ^ 64 := by
  omega

theorem rest_fits {sv : StrView} {start i : ℕ} (h : 0 < start ∧ start + sv.len < 2 ^ 64)
    (hi : 0 ≤ i ∧ i < 0 + sv.len) :
    0 < start + i + 1 ∧ start + i + 1 + (sv.len - i - 1) < 2 ^ 64 := by
  omega

/-- What a call of `d4np_str_view_split_next` on a view puts into `*out` and leaves in `*sv`; `none`
if the view is exhausted. -/
def nextField (mem : Mem) (sv : StrView) (sep : UInt8) : Option (StrView × StrView) :=
  match hp : sv.ptr with
  | none => none
  | some start =>
    have hfits := sv.fits start hp
    match hi : findSep mem start sep sv.len 0 with
    | some i =>
      have hlt := findSep_lt hi
      some (range start i (field_fits hfits hlt),
        range (start + i + 1) (sv.len - i - 1) (rest_fits hfits hlt))
    | none => some (range start sv.len hfits, nullView)

/-- `d4np_str_view_split_next`: what it returns, and `*sv` and `*out` after the call. -/
def splitNext (mem : Mem) (sv : Option StrView) (sep : UInt8) (out : Option StrView) :
    Bool × Option StrView × Option StrView :=
  match sv, out with
  | some v, some _ =>
    match nextField mem v sep with
    | none => (false, sv, out)
    | some (field, rest) => (true, some rest, some field)
  | _, _ => (false, sv, out)

/-- The loop of `d4np_str_split`, cut off after `fuel` rounds: what it returns and the entries of
`out` after it. -/
def splitLoop (mem : Mem) (sep : UInt8) (maxOut : ℕ) :
    ℕ → StrView → StrView → ℕ → Option (ℕ → StrView) → Option (ℕ × Option (ℕ → StrView))
  | 0, _, _, _, _ => none
  | fuel + 1, sv, token, count, out =>
    match splitNext mem (some sv) sep (some token) with
    | (true, some sv, some token) =>
      let out := if count < maxOut then out.map fun o => Function.update o count token else out
      splitLoop mem sep maxOut fuel sv token (wrap (count + 1)) out
    | _ => some (count, out)

/-- `d4np_str_split`.  Each round but the last takes a byte off the view. -/
def split (mem : Mem) (sv : StrView) (sep : UInt8) (out : Option (ℕ → StrView)) (maxOut : ℕ) :
    Option (ℕ × Option (ℕ → StrView)) :=
  splitLoop mem sep maxOut (sv.len + 2) sv nullView 0 out

/-! ## One field -/

variable {mem : Mem} {sep : UInt8} {v : StrView} {p : ℕ}

theorem bytes_of_ptr (mem : Mem) (hp : v.ptr = some p) : v.bytes mem = bytesAt mem p v.len := by
  unfold bytes
  rw [hp]

theorem bytes_of_null (mem : Mem) (hp : v.ptr = none) : v.bytes mem = [] := by
  unfold bytes
  rw [hp]

theorem fromBuf_ptr {buf : Option ℕ} {len : ℕ} (h : ∀ p ∈ buf, 0 < p ∧ p + len < 2 ^ 64) :
    (fromBuf buf len h).ptr = buf := by
  cases buf <;> rfl

theorem fromBuf_len {buf : Option ℕ} {len : ℕ} (h : ∀ p ∈ buf, 0 < p ∧ p + len < 2 ^ 64)
    (hnull : buf = none → len = 0) : (fromBuf buf len h).len = len := by
  cases buf with
  | none => exact (hnull rfl).symm
  | some p => rfl

@[simp] theorem bytes_length (mem : Mem) (v : StrView) : (v.bytes mem).length = v.len := by
  unfold bytes
  split
  · rename_i hnull
    exact (v.null hnull).symm
  · exact bytesAt_length _ _ _

theorem memEq_iff (mem : Mem) (p q n : ℕ) :
    memEq mem p q n = true ↔ bytesAt mem p n = bytesAt mem q n := by
  unfold memEq bytesAt
  rw [List.all_eq_true, List.map_inj_left]
  simp only [beq_iff_eq]

/-- **Equality of views.** It is equality of the bytes, whatever the pointers are. -/
theorem equals_iff (mem : Mem) (a b : StrView) :
    equals mem a b = true ↔ a.bytes mem = b.bytes mem := by
  unfold equals
  by_cases hlen : a.len = b.len
  · rw [if_neg (not_not.mpr hlen)]
    by_cases hz : a.len = 0
    · rw [if_pos hz, List.eq_nil_of_length_eq_zero ((bytes_length mem a).trans hz),
        List.eq_nil_of_length_eq_zero ((bytes_length mem b).trans (hlen ▸ hz))]
      simp
    · obtain ⟨p, hp⟩ := Option.ne_none_iff_exists'.mp (fun hnull => hz (a.null hnull))
      obtain ⟨q, hq⟩ := Option.ne_none_iff_exists'.mp (fun hnull => hz (hlen.trans (b.null hnull)))
      rw [if_neg hz, bytes_of_ptr mem hp, bytes_of_ptr mem hq, hp, hq, ← hlen]
      exact memEq_iff mem p q a.len
  · rw [if_pos hlen]
    refine ⟨nofun, fun h => absurd ?_ hlen⟩
    rw [← bytes_length mem a, h, bytes_length]

/-- The view of a string holds no terminator, and one follows it. -/
theorem fromStr_terminated (mem : Mem) (p : ℕ)
    (h : ∀ q ∈ some p, 0 < q ∧ ∃ n, mem (q + n) = 0 ∧ q + n < 2 ^ 64) :
    0 ∉ (fromStr mem (some p) h).bytes mem ∧ mem (p + (fromStr mem (some p) h).len) = 0 := by
  have hspec := Nat.find_spec (h p rfl).2
  refine ⟨fun hmem => ?_, hspec.1⟩
  obtain ⟨i, hi, hzero⟩ := List.mem_map.mp hmem
  have hlt : i < Nat.find (h p rfl).2 := List.mem_range.mp hi
  exact Nat.find_min (h p rfl).2 hlt ⟨hzero, by omega⟩

/-- The index the loop stops at holds the first separator. -/
theorem findSep_eq_some {start rem i j : ℕ} (h : findSep mem start sep rem i = some j) :
    mem (start + j) = sep ∧ sep ∉ bytesAt mem (start + i) (j - i) := by
  induction rem generalizing i with
  | zero => cases h
  | succ rem ih =>
    unfold findSep at h
    split_ifs at h with hsep
    · cases h
      rw [Nat.sub_self]
      exact ⟨hsep, List.not_mem_nil⟩
    · obtain ⟨hj, hnot⟩ := ih h
      have hle := (findSep_lt h).1
      have hsub : j - i = j - (i + 1) + 1 := by omega
      rw [hsub, bytesAt_succ, List.mem_cons, not_or]
      exact ⟨hj, fun hc => hsep hc.symm, hnot⟩

theorem findSep_eq_none {start rem i : ℕ} (h : findSep mem start sep rem i = none) :
    sep ∉ bytesAt mem (start + i) rem := by
  induction rem generalizing i with
  | zero => exact List.not_mem_nil
  | succ rem ih =>
    unfold findSep at h
    split_ifs at h with hsep
    rw [bytesAt_succ, List.mem_cons, not_or]
    exact ⟨fun hc => hsep hc.symm, ih h⟩

/-- **One field.** It ends at the first separator, and the rest begins behind that; without a
separator it is the whole view, and the rest is null. -/
theorem nextField_cases (mem : Mem) (sep : UInt8) (hp : v.ptr = some p) :
    (∃ field rest i, nextField mem v sep = some (field, rest) ∧ field.ptr = some p ∧ field.len = i ∧
      rest.ptr = some (p + i + 1) ∧ i + 1 + rest.len = v.len ∧ mem (p + i) = sep ∧
      sep ∉ field.bytes mem) ∨
    (∃ field, nextField mem v sep = some (field, nullView) ∧ field.ptr = some p ∧
      field.len = v.len ∧ sep ∉ field.bytes mem) := by
  unfold nextField
  split
  · rename_i hnull
    rw [hp] at hnull
    cases hnull
  · rename_i start hstart
    rw [hp] at hstart
    cases hstart
    simp only
    split
    · rename_i i hi
      obtain ⟨hsep, hnot⟩ := findSep_eq_some hi
      have hlt := findSep_lt hi
      left
      refine ⟨_, _, i, rfl, rfl, rfl, rfl, ?_, hsep, hnot⟩
      show i + 1 + (v.len - i - 1) = v.len
      omega
    · rename_i hi
      right
      exact ⟨_, rfl, rfl, rfl, findSep_eq_none hi⟩

theorem splitNext_of_nextField {field rest : StrView} (token : StrView)
    (h : nextField mem v sep = some (field, rest)) :
    splitNext mem (some v) sep (some token) = (true, some rest, some field) := by
  simp only [splitNext, h]

/-- The call on the exhausted view. -/
theorem splitNext_null (hp : v.ptr = none) (token : StrView) :
    splitNext mem (some v) sep (some token) = (false, some v, some token) := by
  have h : nextField mem v sep = none := by
    unfold nextField
    split
    · rfl
    · rename_i hsome
      rw [hp] at hsome
      cases hsome
  simp only [splitNext, h]

/-! ## All fields -/

/-- Calling `d4np_str_view_split_next` until it returns `false` gives the fields `fs`. -/
inductive Fields (mem : Mem) (sep : UInt8) : StrView → StrView → List StrView → Prop
  | done {sv out sv' out'} (h : splitNext mem (some sv) sep (some out) = (false, sv', out')) :
    Fields mem sep sv out []
  | next {sv out rest field fs}
    (h : splitNext mem (some sv) sep (some out) = (true, some rest, some field))
    (hrest : Fields mem sep rest field fs) : Fields mem sep sv out (field :: fs)

/-- The fields are consecutive ranges from `p` to `q`, with one byte between two of them. -/
def Tiles : ℕ → List StrView → ℕ → Prop
  | _, [], _ => False
  | p, [f], q => f.ptr = some p ∧ p + f.len = q
  | p, f :: g :: fs, q => f.ptr = some p ∧ Tiles (p + f.len + 1) (g :: fs) q

theorem Tiles.ne_nil {fs : List StrView} {q : ℕ} (h : Tiles p fs q) : fs ≠ [] := by
  rintro rfl
  exact h

theorem Tiles.cons {f : StrView} {fs : List StrView} {q : ℕ} (hf : f.ptr = some p)
    (h : Tiles (p + f.len + 1) fs q) : Tiles p (f :: fs) q := by
  obtain ⟨g, gs, rfl⟩ := List.exists_cons_of_ne_nil h.ne_nil
  exact ⟨hf, h⟩

/-- **The fields of a view.** Every view with a pointer has them: they tile it, none holds the
separator, joined by it they are its bytes, and there is one more of them than there are separators.
-/
structure SplitsTo (mem : Mem) (sep : UInt8) (v : StrView) (p : ℕ) (fs : List StrView) : Prop where
  tiles : Tiles p fs (p + v.len)
  noSep : ∀ f ∈ fs, sep ∉ f.bytes mem
  joined : [sep].intercalate (fs.map (bytes mem)) = v.bytes mem
  length : fs.length = (v.bytes mem).count sep + 1

theorem SplitsTo.single {field : StrView} (hp : v.ptr = some p) (hfp : field.ptr = some p)
    (hfl : field.len = v.len) (hnot : sep ∉ field.bytes mem) : SplitsTo mem sep v p [field] := by
  have hbytes : field.bytes mem = v.bytes mem := by
    rw [bytes_of_ptr mem hfp, bytes_of_ptr mem hp, hfl]
  refine ⟨⟨hfp, by rw [hfl]⟩, ?_, ?_, ?_⟩
  · intro f hf
    rw [List.mem_singleton.mp hf]
    exact hnot
  · rw [List.map_singleton, List.intercalate_singleton, hbytes]
  · rw [← hbytes, List.count_eq_zero_of_not_mem hnot, List.length_singleton]

theorem SplitsTo.cons {field rest : StrView} {fs : List StrView} (hp : v.ptr = some p)
    (hfp : field.ptr = some p) (hrp : rest.ptr = some (p + field.len + 1))
    (hlen : field.len + 1 + rest.len = v.len) (hsep : mem (p + field.len) = sep)
    (hnot : sep ∉ field.bytes mem) (h : SplitsTo mem sep rest (p + field.len + 1) fs) :
    SplitsTo mem sep v p (field :: fs) := by
  have hbytes : v.bytes mem = field.bytes mem ++ sep :: rest.bytes mem := by
    rw [bytes_of_ptr mem hfp, bytes_of_ptr mem hp, bytes_of_ptr mem hrp, ← hlen, Nat.add_assoc,
      bytesAt_add, Nat.add_comm 1, bytesAt_succ, hsep]
  have hend : p + field.len + 1 + rest.len = p + v.len := by omega
  refine ⟨Tiles.cons hfp (hend ▸ h.tiles), ?_, ?_, ?_⟩
  · intro f hf
    rcases List.mem_cons.mp hf with rfl | hf
    · exact hnot
    · exact h.noSep f hf
  · rw [List.map_cons, List.intercalate_cons_of_ne_nil, h.joined, hbytes]
    · simp
    · exact fun hnil => h.tiles.ne_nil (List.map_eq_nil_iff.mp hnil)
  · rw [hbytes, List.length_cons, h.length, List.count_append, List.count_cons_self,
      List.count_eq_zero_of_not_mem hnot]
    omega

/-- The loop over the fields ends, by induction on the bytes that are left. -/
theorem exists_fields (mem : Mem) (sep : UInt8) (v : StrView) (p : ℕ) (hp : v.ptr = some p) :
    ∃ fs, (∀ token, Fields mem sep v token fs) ∧ SplitsTo mem sep v p fs := by
  induction hn : v.len using Nat.strong_induction_on generalizing v p with
  | _ n ih =>
    rcases nextField_cases mem sep hp with
      ⟨field, rest, i, hnext, hfp, rfl, hrp, hlen, hsep, hnot⟩ | ⟨field, hnext, hfp, hfl, hnot⟩
    · obtain ⟨fs, hfs, hsplits⟩ := ih rest.len (by omega) rest _ hrp rfl
      refine ⟨field :: fs, fun token => ?_, .cons hp hfp hrp hlen hsep hnot hsplits⟩
      exact .next (splitNext_of_nextField token hnext) (hfs field)
    · refine ⟨[field], fun token => ?_, .single hp hfp hfl hnot⟩
      exact .next (splitNext_of_nextField token hnext) (.done (splitNext_null rfl field))

/-! ## The array form -/

/-- The entries of an array that is given the fields from index `count` on, as far as it reaches. -/
def stored (maxOut count : ℕ) (fs : List StrView) (o : ℕ → StrView) : ℕ → StrView :=
  fun i => if count ≤ i ∧ i < maxOut then (fs[i - count]?).getD (o i) else o i

theorem stored_nil (maxOut count : ℕ) (o : ℕ → StrView) : stored maxOut count [] o = o := by
  funext i
  unfold stored
  split_ifs <;> rfl

theorem stored_cons (maxOut count : ℕ) (f : StrView) (fs : List StrView) (o : ℕ → StrView) :
    stored maxOut (count + 1) fs (if count < maxOut then Function.update o count f else o) =
      stored maxOut count (f :: fs) o := by
  funext i
  have hother : i ≠ count → (if count < maxOut then Function.update o count f else o) i = o i := by
    intro hne
    split_ifs
    · exact Function.update_of_ne hne _ _
    · rfl
  unfold stored
  rcases Nat.lt_trichotomy i count with hlt | rfl | hgt
  · rw [hother (by omega), if_neg (by omega), if_neg (by omega)]
  · rw [if_neg (by omega), Nat.sub_self]
    by_cases hmax : i < maxOut
    · rw [if_pos hmax, if_pos ⟨le_refl _, hmax⟩, Function.update_self]
      rfl
    · rw [if_neg hmax, if_neg (fun h => hmax h.2)]
  · have hsub : i - count = i - (count + 1) + 1 := by omega
    rw [hother (by omega), hsub, List.getElem?_cons_succ]
    by_cases hmax : i < maxOut
    · rw [if_pos ⟨by omega, hmax⟩, if_pos ⟨by omega, hmax⟩]
    · rw [if_neg (fun h => hmax h.2), if_neg (fun h => hmax h.2)]

theorem stored_getElem {fs : List StrView} {maxOut i : ℕ} (hi : i < fs.length) (hmax : i < maxOut)
    (out : ℕ → StrView) : stored maxOut 0 fs out i = fs[i] := by
  unfold stored
  rw [if_pos ⟨Nat.zero_le i, hmax⟩, Nat.sub_zero, List.getElem?_eq_getElem hi]
  rfl

/-- **The loop of the array form.** It counts the fields and stores those that fit. -/
theorem Fields.splitLoop {sv token : StrView} {fs : List StrView} (h : Fields mem sep sv token fs)
    (maxOut : ℕ) : ∀ fuel count out, fs.length < fuel → count + fs.length < 2 ^ 64 →
      StrView.splitLoop mem sep maxOut fuel sv token count out =
        some (count + fs.length, out.map (stored maxOut count fs)) := by
  induction h with
  | done h =>
    intro fuel count out hfuel _
    obtain ⟨fuel, rfl⟩ := Nat.exists_eq_add_one.mpr hfuel
    unfold StrView.splitLoop
    rw [h]
    simp [funext (stored_nil maxOut count)]
  | @next sv token rest field fs h _ ih =>
    intro fuel count out hfuel hcount
    rw [List.length_cons] at hfuel hcount
    obtain ⟨fuel, rfl⟩ := Nat.exists_eq_add_one.mpr (show 0 < fuel by omega)
    unfold StrView.splitLoop
    rw [h]
    simp only
    rw [wrap_of_lt (by omega), ih fuel (count + 1) _ (by omega) (by omega), List.length_cons]
    have hcons : (fun o => stored maxOut (count + 1) fs
        (if count < maxOut then Function.update o count field else o)) =
          stored maxOut count (field :: fs) :=
      funext (stored_cons maxOut count field fs)
    have hout : (if count < maxOut then out.map fun o => Function.update o count field else out) =
        out.map fun o => if count < maxOut then Function.update o count field else o := by
      split_ifs <;> simp
    rw [hout, Option.map_map, Function.comp_def, hcons, Nat.add_assoc, Nat.add_comm 1]

/-- The array form on a view with a pointer. -/
theorem split_eq {fs : List StrView} (hp : v.ptr = some p) (h : Fields mem sep v nullView fs)
    (hs : SplitsTo mem sep v p fs) (out : Option (ℕ → StrView)) (maxOut : ℕ) :
    split mem v sep out maxOut = some (fs.length, out.map (stored maxOut 0 fs)) := by
  have hfits := v.fits p hp
  have hcount := List.count_le_length (a := sep) (l := v.bytes mem)
  rw [bytes_length] at hcount
  have hlength := hs.length
  unfold split
  rw [h.splitLoop maxOut (v.len + 2) 0 out (by omega) (by omega), Nat.zero_add]

end StrView

end D4np
