import D4np.Ds.StringBuilder
import D4np.Str.Parse
import Mathlib.Tactic

/-!
# What equal views have in common

Views that `d4np_str_view_equals` takes for equal show the same bytes.  Parsing and appending look
at the bytes alone, but splitting takes a null pointer for an exhausted view: an empty view has one
field if it has a pointer and none if it has not.  So views that are equal can be told apart if
exactly one of them is null (`interchangeable_iff`).  A builder before its first allocation has the
null view, one that was cleared has an empty view with a pointer.
-/

namespace D4np

open Word64 ByteMem TransitionSystem

namespace StringBuilder

/-- `d4np_sb_view`: the pointer and the length. -/
def strView (sb : StringBuilder) (h : ∀ p ∈ sb.data, 0 < p ∧ p + sb.len < 2 ^ 64) : StrView :=
  StrView.fromBuf sb.data sb.len h

/-- `d4np_sb_append_view` of a view of the memory.  The view is not one of the builder's own buffer,
which is valid only until the builder changes. -/
def appendStrView (mem : Mem) (sb : StringBuilder) (view : StrView) (h : Heap) :
    Status × StringBuilder × Heap :=
  sb.appendView (view.bytes mem) h

/-- The memory holds the contents of the builder where its buffer is. -/
def HeldIn (sb : StringBuilder) (mem : Mem) : Prop :=
  ∀ p ∈ sb.data, ∀ i < sb.len, mem (p + i) = sb.bytes i

/-- A builder in use has a view. -/
theorem reachable_viewed {a : Allocator} (ha : a.Bounded) {h₀ : Heap} {r : Run}
    (h : Reachable (system a h₀) r) : ∀ p ∈ r.sb.data, 0 < p ∧ p + r.sb.len < 2 ^ 64 := by
  have hP : Tracks a fun _ ptr size => ∀ p ∈ ptr, 0 < p ∧ p + size ≤ 2 ^ 64 := by
    refine ⟨fun _ hp => hp, fun {_ _ _ _ b} _ hb p hp => ?_⟩
    cases hp
    exact ⟨a.addr_pos hb, a.addr_le hb⟩
  intro p hp
  have hplaced := hP.reachable (fun p hp => by cases hp) h p hp
  have hterm := (reachable_inv ha h).wf.terminated (by
    rw [Option.mem_def.mp hp]
    exact Option.some_ne_none p)
  omega

/-- The view of a builder shows its contents. -/
theorem strView_bytes {sb : StringBuilder} (hW : Wf sb)
    (h : ∀ p ∈ sb.data, 0 < p ∧ p + sb.len < 2 ^ 64) {mem : Mem} (hmem : sb.HeldIn mem) :
    (sb.strView h).bytes mem = sb.contents := by
  unfold strView
  rcases Option.eq_none_or_eq_some sb.data with hd | ⟨p, hd⟩
  · rw [StrView.bytes_of_null mem ((StrView.fromBuf_ptr h).trans hd), contents, (hW.null hd).1]
    rfl
  · rw [StrView.bytes_of_ptr mem ((StrView.fromBuf_ptr h).trans hd),
      StrView.fromBuf_len h fun hd => (hW.null hd).1]
    exact List.map_congr_left fun i hi => hmem p hd i (List.mem_range.mp hi)

end StringBuilder

namespace StrView

variable {mem : Mem}

/-- What the consumers of views make of two of them: splits with the same number of fields, which
are equal one by one, and the same outcome of parsing and of appending. -/
structure Interchangeable (mem : Mem) (a b : StrView) : Prop where
  split : ∀ sep out maxOut, ∃ n outA outB, split mem a sep (some out) maxOut = some (n, some outA) ∧
    split mem b sep (some out) maxOut = some (n, some outB) ∧
    ∀ i < min n maxOut, equals mem (outA i) (outB i) = true
  parse : ∀ base out, Parse.parseInt .machine mem a base out = Parse.parseInt .machine mem b base out
  append : ∀ (sb : StringBuilder) heap,
    (sb.appendStrView mem a heap).1 = (sb.appendStrView mem b heap).1 ∧
    (sb.appendStrView mem a heap).2.1.contents = (sb.appendStrView mem b heap).2.1.contents

/-- The fields of a view are the pieces of its bytes. -/
theorem SplitsTo.splitOn {sep : UInt8} {v : StrView} {p : ℕ} {fs : List StrView}
    (h : SplitsTo mem sep v p fs) : fs.map (bytes mem) = (v.bytes mem).splitOn sep := by
  have hsep : ∀ l ∈ fs.map (bytes mem), sep ∉ l := by
    intro l hl
    obtain ⟨f, hf, rfl⟩ := List.mem_map.mp hl
    exact h.noSep f hf
  rw [← h.joined, List.splitOn_intercalate sep hsep]
  exact fun hnil => h.tiles.ne_nil (List.map_eq_nil_iff.mp hnil)

/-- A null view has no fields. -/
theorem split_null {v : StrView} (hv : v.ptr = none) (sep : UInt8) (out : Option (ℕ → StrView))
    (maxOut : ℕ) : StrView.split mem v sep out maxOut = some (0, out) := by
  unfold StrView.split splitLoop
  rw [splitNext_null hv]

/-- A null view is the only one that has no fields. -/
theorem split_zero_iff {v : StrView} {sep : UInt8} {out out' : Option (ℕ → StrView)} {maxOut n : ℕ}
    (h : StrView.split mem v sep out maxOut = some (n, out')) : n = 0 ↔ v.ptr = none := by
  rcases Option.eq_none_or_eq_some v.ptr with hv | ⟨p, hv⟩
  · rw [split_null hv] at h
    cases h
    exact iff_of_true rfl hv
  · obtain ⟨fs, hfs, hs⟩ := exists_fields mem sep v p hv
    rw [split_eq hv (hfs nullView) hs, hs.length] at h
    cases h
    exact iff_of_false (Nat.succ_ne_zero _) (by rw [hv]; exact Option.some_ne_none p)

/-- Splitting views with the same bytes that both have a pointer. -/
theorem split_congr {a b : StrView} {p q : ℕ} (ha : a.ptr = some p) (hb : b.ptr = some q)
    (hbytes : a.bytes mem = b.bytes mem) (sep : UInt8) (out : ℕ → StrView) (maxOut : ℕ) :
    ∃ n outA outB, StrView.split mem a sep (some out) maxOut = some (n, some outA) ∧
      StrView.split mem b sep (some out) maxOut = some (n, some outB) ∧
      ∀ i < min n maxOut, equals mem (outA i) (outB i) = true := by
  obtain ⟨fs, hfs, hsa⟩ := exists_fields mem sep a p ha
  obtain ⟨gs, hgs, hsb⟩ := exists_fields mem sep b q hb
  have hmap : fs.map (bytes mem) = gs.map (bytes mem) := by
    rw [hsa.splitOn, hsb.splitOn, hbytes]
  have hlen : fs.length = gs.length := by
    rw [← List.length_map (bytes mem), hmap, List.length_map]
  refine ⟨fs.length, stored maxOut 0 fs out, stored maxOut 0 gs out,
    split_eq ha (hfs nullView) hsa _ _, ?_, fun i hi => ?_⟩
  · rw [split_eq hb (hgs nullView) hsb, hlen]
    rfl
  · rw [equals_iff]
    rw [stored_getElem (by omega) (by omega), stored_getElem (by omega) (by omega)]
    have := List.getElem_of_eq hmap (i := i) (by rw [List.length_map]; omega)
    simpa using this

/-- Parsing looks at the bytes alone. -/
theorem parse_congr {a b : StrView} (hbytes : a.bytes mem = b.bytes mem) (base : ℤ)
    (out : Option ℤ) :
    Parse.parseInt .machine mem a base out = Parse.parseInt .machine mem b base out := by
  by_cases h : out = none ∨ ¬(base = 0 ∨ 2 ≤ base ∧ base ≤ 36)
  · rw [Parse.parseInt_invalid .machine mem a h, Parse.parseInt_invalid .machine mem b h]
  · obtain ⟨hout, hbase⟩ := not_or.mp h
    obtain ⟨o, rfl⟩ := Option.ne_none_iff_exists'.mp hout
    rw [Parse.parseInt_eq .machine mem a (not_not.mp hbase),
      Parse.parseInt_eq .machine mem b (not_not.mp hbase), hbytes]

/-- A null pointer is all that tells equal views apart. -/
theorem interchangeable_of_equals {a b : StrView} (h : equals mem a b = true) :
    Interchangeable mem a b ↔ (a.ptr = none ↔ b.ptr = none) := by
  have hbytes := (equals_iff mem a b).mp h
  constructor
  · intro hab
    obtain ⟨n, outA, outB, hsplitA, hsplitB, _⟩ := hab.split 0 (fun _ => nullView) 0
    rw [← split_zero_iff hsplitA, ← split_zero_iff hsplitB]
  · intro hnull
    refine ⟨fun sep out maxOut => ?_, fun base out => parse_congr hbytes base out,
      fun sb heap => ?_⟩
    · rcases ha : a.ptr with _ | p
      · have hb := hnull.mp ha
        exact ⟨0, out, out, split_null ha _ _ _, split_null hb _ _ _, fun i hi => by omega⟩
      · obtain ⟨q, hb⟩ := Option.ne_none_iff_exists'.mp fun hb => by
          rw [hnull.mpr hb] at ha
          cases ha
        exact split_congr ha hb hbytes sep out maxOut
    · unfold StringBuilder.appendStrView
      rw [hbytes]
      exact ⟨rfl, rfl⟩

/-- **Interchangeable views.** Views that are equal are interchangeable exactly if both are null or
neither is.  For the views of two builders with the same contents, whatever their histories are,
this is that both have a buffer or neither has. -/
theorem interchangeable_iff (mem : Mem) :
    (∀ a b : StrView, equals mem a b = true →
      (Interchangeable mem a b ↔ (a.ptr = none ↔ b.ptr = none))) ∧
    ∀ (a b : Allocator) (h₁ h₂ : Heap) (r s : StringBuilder.Run) (ha : a.Bounded)
      (hb : b.Bounded) (hr : Reachable (StringBuilder.system a h₁) r)
      (hs : Reachable (StringBuilder.system b h₂) s), r.sb.HeldIn mem → s.sb.HeldIn mem →
      r.sb.contents = s.sb.contents →
      (Interchangeable mem (r.sb.strView (StringBuilder.reachable_viewed ha hr))
        (s.sb.strView (StringBuilder.reachable_viewed hb hs)) ↔
          (r.sb.data = none ↔ s.sb.data = none)) := by
  refine ⟨fun a b h => interchangeable_of_equals h,
    fun a b h₁ h₂ r s ha hb hr hs hmemr hmems hcont => ?_⟩
  have hbytes : equals mem (r.sb.strView (StringBuilder.reachable_viewed ha hr))
      (s.sb.strView (StringBuilder.reachable_viewed hb hs)) = true := by
    rw [equals_iff, StringBuilder.strView_bytes (StringBuilder.reachable_inv ha hr).wf _ hmemr,
      StringBuilder.strView_bytes (StringBuilder.reachable_inv hb hs).wf _ hmems, hcont]
  rw [interchangeable_of_equals hbytes, StringBuilder.strView, StringBuilder.strView, fromBuf_ptr,
    fromBuf_ptr]

/-- Two views of a byte each and two builders of a byte each, in a memory of semicolons. -/
theorem interchangeable_iff_two_builders :
    Interchangeable (fun _ => 59) (range 1 1 (by decide)) (range 2 1 (by decide)) ∧
    ∃ (r s : StringBuilder.Run) (hr : Reachable (StringBuilder.system pageAllocator ⟨0, []⟩) r)
      (hs : Reachable (StringBuilder.system pageAllocator ⟨1, []⟩) s),
      r.sb.data = some 4096 ∧ s.sb.data = some 8192 ∧
      Interchangeable (fun _ => 59)
        (r.sb.strView (StringBuilder.reachable_viewed pageAllocator_bounded hr))
        (s.sb.strView (StringBuilder.reachable_viewed pageAllocator_bounded hs)) := by
  obtain ⟨hviews, hbuilders⟩ := interchangeable_iff fun _ => 59
  refine ⟨(hviews _ _ (by decide)).mpr
    (iff_of_false (Option.some_ne_none 1) (Option.some_ne_none 2)), ?_⟩
  have h0 : ∀ n, Reachable (StringBuilder.system pageAllocator ⟨n, []⟩)
      ⟨StringBuilder.lazy pageAllocator, ⟨n, []⟩, []⟩ :=
    fun n => .init ⟨0, .ok, by norm_num, rfl, rfl⟩
  have hr := (h0 0).step (e := .appendChar 59) rfl
  have hs := (h0 1).step (e := .appendChar 59) rfl
  have hheld : ∀ (sb : StringBuilder), sb.len = 1 → sb.bytes 0 = 59 → sb.HeldIn fun _ => 59 := by
    intro sb hlen hbyte p _ i hi
    obtain rfl : i = 0 := by omega
    exact hbyte.symm
  refine ⟨_, _, hr, hs, rfl, rfl, (hbuilders pageAllocator pageAllocator _ _ _ _
    pageAllocator_bounded pageAllocator_bounded hr hs (hheld _ rfl rfl) (hheld _ rfl rfl)
    rfl).mpr ?_⟩
  exact iff_of_false (Option.some_ne_none _) (Option.some_ne_none _)

/-- The views of a builder before its first allocation and of one that was cleared are equal, and
have no field and one. -/
theorem equal_views_split_apart :
    ∃ (r s : StringBuilder.Run) (hr : Reachable (StringBuilder.system pageAllocator ⟨0, []⟩) r)
      (hs : Reachable (StringBuilder.system pageAllocator ⟨0, []⟩) s),
      r.sb.contents = [] ∧ s.sb.contents = [] ∧
      ∀ mem, equals mem (r.sb.strView (StringBuilder.reachable_viewed pageAllocator_bounded hr))
        (s.sb.strView (StringBuilder.reachable_viewed pageAllocator_bounded hs)) = true ∧
      StrView.split mem (r.sb.strView (StringBuilder.reachable_viewed pageAllocator_bounded hr)) 59
        none 0 = some (0, none) ∧
      StrView.split mem (s.sb.strView (StringBuilder.reachable_viewed pageAllocator_bounded hs)) 59
        none 0 = some (1, none) := by
  have h0 : Reachable (StringBuilder.system pageAllocator ⟨0, []⟩)
      ⟨StringBuilder.lazy pageAllocator, ⟨0, []⟩, []⟩ := .init ⟨0, .ok, by norm_num, rfl, rfl⟩
  have hs := (h0.step (e := .appendChar 97) rfl).step (e := .clear) rfl
  exact ⟨_, _, h0, hs, rfl, rfl, fun mem => ⟨rfl, rfl, rfl⟩⟩

end StrView

end D4np
