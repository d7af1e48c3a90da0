import D4np.Io.FileRead
import D4np.Lib.SepJoin
import D4np.Str.Interchange

/-!
# Lists of fields in a file

A program keeps a list of fields as a text: it appends them to a string builder with a separator
between two of them, writes the text to a file, reads the file back and splits what it has read.  A
list of one empty field is lost on the way: its text is empty, an empty file is read without a
buffer, and a view without a buffer has no field.  Any other list comes back exactly if no field
holds the separator.  The spellings of integers hold no separator that is neither a digit nor a
minus sign, so lists of integers come back through the parser.
-/

namespace D4np

open ByteMem Posix TransitionSystem

namespace StrView

variable {mem : Mem} {sep : UInt8} {v : StrView} {fields : List (List UInt8)}

/-- **Splitting a text of fields.** The view has one field for each of them and one more for each
separator in them. -/
theorem split_joined {p : ℕ} (hp : v.ptr = some p) (hne : fields ≠ [])
    (hbytes : v.bytes mem = [sep].intercalate fields) (out : ℕ → StrView) (maxOut : ℕ) :
    ∃ out', split mem v sep (some out) maxOut =
        some (fields.length + (fields.map (List.count sep)).sum, some out') ∧
      ((∀ f ∈ fields, sep ∉ f) → ∀ i (hi : i < fields.length), i < maxOut →
        (out' i).bytes mem = fields[i]) := by
  obtain ⟨fs, hfs, hs⟩ := exists_fields mem sep v p hp
  have hlen : fs.length = fields.length + (fields.map (List.count sep)).sum := by
    rw [hs.length, hbytes, SepJoin.count_intercalate hne]
  refine ⟨stored maxOut 0 fs out, ?_, fun hsep i hi hmax => ?_⟩
  · rw [split_eq hp (hfs nullView) hs, hlen]
    rfl
  · have hmap : fs.map (bytes mem) = fields := by
      rw [hs.splitOn, hbytes, List.splitOn_intercalate sep hsep hne]
    have hi' : i < fs.length := by
      rw [← hmap, List.length_map] at hi
      exact hi
    rw [stored_getElem hi' hmax]
    have := List.getElem_of_eq hmap (i := i) (by rwa [List.length_map])
    simpa using this

end StrView

namespace File

/-- The text was written to a file with success, the file has the content it had then, and
`d4np_file_read_all` has read it into the memory that the view shows. -/
def ReadBack (text : List UInt8) (mem : Mem) (v : StrView) : Prop :=
  ∃ path fs₀ s fs a reads requests o calls heap h,
    Reachable (solo path text fs₀) s ∧ s.2 = .returned .ok ∧ fs.content path = s.1.content path ∧
    readAll a fs path true reads ⟨requests, []⟩ = some (.ok, some o, calls, heap) ∧
    (∀ p ∈ o.data, ∀ i < o.size, mem (p + i) = o.bytes i) ∧ v = StrView.fromBuf o.data o.size h

variable {text : List UInt8} {mem : Mem} {v : StrView}

/-- The view shows the text; it is null if the text is empty. -/
theorem ReadBack.view (h : ReadBack text mem v) (hlen : text.length < 2 ^ 63) :
    v.bytes mem = text ∧ (v.ptr = none ↔ text = []) := by
  obtain ⟨path, fs₀, s, fs, a, reads, requests, o, calls, heap, hfits, hw, hok, hsame, hread, hmem,
    rfl⟩ := h
  have hreplaced := reachable_soloOk hw
  rw [hok] at hreplaced
  have hcontent : fs.content path = some text := hsame.trans (Replaced.content hreplaced)
  obtain ⟨rc, out, calls', heap', he, hcases⟩ := readAll_spec hcontent hlen a true reads requests
  rw [hread] at he
  cases he
  rcases hcases with ⟨_, ⟨o', hdel⟩, _⟩ | ⟨hrc, _⟩
  swap
  · exact absurd rfl hrc
  obtain rfl := Option.some.inj hdel.written
  refine ⟨?_, by rw [StrView.fromBuf_ptr]; exact hdel.null_iff⟩
  have hnull : o.data = none → o.size = 0 := by
    intro hd
    rw [hdel.size_eq, hdel.null_iff.mp hd]
    rfl
  rcases Option.eq_none_or_eq_some o.data with hd | ⟨p, hd⟩
  · rw [StrView.bytes_of_null mem ((StrView.fromBuf_ptr hfits).trans hd), hdel.null_iff.mp hd]
  · rw [StrView.bytes_of_ptr mem ((StrView.fromBuf_ptr hfits).trans hd),
      StrView.fromBuf_len hfits hnull, ← hdel.bytes_eq]
    exact List.map_congr_left fun i hi => hmem p hd i (List.mem_range.mp hi)

/-- The text `"1,2"` appended to a builder, written to a file and read back. -/
theorem readBack_two_numbers :
    ∃ r mem v, Reachable (StringBuilder.system pageAllocator ⟨0, []⟩) r ∧
      StringBuilder.expected r.history = [49, 44, 50] ∧ ReadBack r.sb.contents mem v := by
  have hb : Reachable (StringBuilder.system pageAllocator ⟨0, []⟩)
      ⟨StringBuilder.lazy pageAllocator, ⟨0, []⟩, []⟩ := .init ⟨0, .ok, by norm_num, rfl, rfl⟩
  have hbuilt := ((hb.step (e := .appendView [49]) rfl).step (e := .appendChar 44) rfl).step
    (e := .append (some [50, 0])) rfl
  have hexpected := (StringBuilder.reachable_inv pageAllocator_bounded hbuilt).refines
  have h0 : Reachable (solo [0x66] [49, 44, 50] oneFile) (oneFile, writeAll [0x66]) := .init rfl
  obtain ⟨s, hrun⟩ : ∃ s, (solo [0x66] [49, 44, 50] oneFile).run (oneFile, writeAll [0x66])
      [.ret true, .write 1, .ret true, .write 2, .ret true, .ret true, .ret true, .ret true] =
      some s := ⟨_, rfl⟩
  have hs : s.2 = .returned .ok := by
    cases hrun
    rfl
  have hbuf : (readAll chunkAllocator s.1 [0x66] true (fun _ => ⟨0, false⟩) ⟨0, []⟩).map
      (fun r => (r.1, r.2.1.map fun o => (o.data, o.size))) =
      some (.ok, some (some 131072, 3)) := by
    cases hrun
    decide
  obtain ⟨⟨rc, out, calls, heap⟩, hread, he⟩ := Option.map_eq_some_iff.mp hbuf
  obtain ⟨rfl, hout⟩ := Prod.mk.inj he
  obtain ⟨o, rfl, ho⟩ := Option.map_eq_some_iff.mp hout
  obtain ⟨hdata, hsize⟩ := Prod.mk.inj ho
  have hfits : ∀ p ∈ o.data, 0 < p ∧ p + o.size < 2 ^ 64 := by
    intro p hp
    rw [hdata] at hp
    cases hp
    rw [hsize]
    norm_num
  refine ⟨_, fun x => o.bytes (x - 131072), StrView.fromBuf o.data o.size hfits, hbuilt, rfl, ?_⟩
  rw [hexpected]
  refine ⟨[0x66], oneFile, s, s.1, chunkAllocator, _, 0, o, calls, heap, hfits, h0.run hrun, hs, rfl,
    hread, fun p hp i _ => ?_, rfl⟩
  rw [hdata] at hp
  cases hp
  show o.bytes (131072 + i - 131072) = o.bytes i
  rw [Nat.add_sub_cancel_left]

section Fields

variable {a : Allocator} {h₀ : Heap} {r : StringBuilder.Run} {sep : UInt8}
  {fields : List (List UInt8)}

/-- What is read back of a builder that holds a text of fields. -/
theorem readBack_joined (ha : a.Bounded) (hr : Reachable (StringBuilder.system a h₀) r)
    (hjoin : StringBuilder.expected r.history = [sep].intercalate fields) (hne : fields ≠ [])
    (hb : ReadBack r.sb.contents mem v) :
    v.bytes mem = [sep].intercalate fields ∧ (v.ptr = none ↔ fields = [[]]) := by
  have hI := StringBuilder.reachable_inv ha hr
  have hlen : r.sb.contents.length < 2 ^ 63 := by
    rw [StringBuilder.contents, front_length]
    exact hI.wf.len_lt
  obtain ⟨hbytes, hnull⟩ := hb.view hlen
  rw [hI.refines, hjoin] at hbytes hnull
  exact ⟨hbytes, hnull.trans (SepJoin.intercalate_eq_nil_iff hne)⟩

/-- **Lists of fields come back.** A builder, after any calls, holds fields with a separator between
two of them; its contents are written to a file with success, read back and split.  Exactly then as
many fields as there were are found, each with its bytes where the array has room, if no field holds
the separator and the list is not that of one empty field. -/
theorem fields_come_back_iff (ha : a.Bounded) (hr : Reachable (StringBuilder.system a h₀) r)
    (hjoin : StringBuilder.expected r.history = [sep].intercalate fields) (hne : fields ≠ [])
    (hb : ReadBack r.sb.contents mem v) (out : ℕ → StrView) (maxOut : ℕ) :
    ∃ n out', StrView.split mem v sep (some out) maxOut = some (n, some out') ∧
      ((n = fields.length ∧ ∀ i (hi : i < fields.length), i < maxOut →
          (out' i).bytes mem = fields[i]) ↔
        fields ≠ [[]] ∧ ∀ f ∈ fields, sep ∉ f) := by
  obtain ⟨hbytes, hnull⟩ := readBack_joined ha hr hjoin hne hb
  rcases hp : v.ptr with _ | p
  · refine ⟨0, out, StrView.split_null hp sep (some out) maxOut, ?_⟩
    refine iff_of_false (fun h => ?_) fun h => h.1 (hnull.mp hp)
    exact hne (List.eq_nil_of_length_eq_zero h.1.symm)
  · obtain ⟨out', hsplit, hout⟩ := StrView.split_joined hp hne hbytes out maxOut
    refine ⟨_, out', hsplit, fun h => ⟨fun hc => ?_, fun f hf hmem => ?_⟩, fun h => ⟨?_, hout h.2⟩⟩
    · rw [hnull.mpr hc] at hp
      cases hp
    · -- a separator inside of a field makes one field more
      have hle := List.single_le_sum (fun _ _ => Nat.zero_le _) _
        (List.mem_map_of_mem (f := List.count sep) hf)
      have hpos := List.count_pos_iff.mpr hmem
      have := h.1
      omega
    · rw [SepJoin.sum_count_eq_zero h.2, Nat.add_zero]

/-- Two fields come back. -/
theorem fields_come_back_iff_two_fields :
    ∃ r mem v out', ReadBack (StringBuilder.contents r) mem v ∧
      StrView.split mem v 44 (some fun _ => StrView.nullView) 2 = some (2, some out') ∧
      (out' 0).bytes mem = [49] ∧ (out' 1).bytes mem = [50] := by
  obtain ⟨r, mem, v, hr, hexpected, hb⟩ := readBack_two_numbers
  have hjoin : StringBuilder.expected r.history = [44].intercalate [[49], [50]] := hexpected
  obtain ⟨n, out', hsplit, hiff⟩ := fields_come_back_iff pageAllocator_bounded hr hjoin (by decide)
    hb (fun _ => StrView.nullView) 2
  obtain ⟨rfl, hout⟩ := hiff.mpr (by decide)
  exact ⟨r.sb, mem, v, out', hb, hsplit, hout 0 (by decide) (by decide),
    hout 1 (by decide) (by decide)⟩

/-- **Lists of integers come back.** A builder, after any calls, holds the spellings of values of
`int64_t` in a radix from 2 to 36, with a separator between two of them that is neither a digit of
the radix nor a minus sign; its contents are written to a file with success, read back and split.
There are as many fields as there were values, and each of those the array has room for parses to
its value. -/
theorem integers_come_back (ha : a.Bounded) (hr : Reachable (StringBuilder.system a h₀) r)
    {values : List ℤ} (hne : values ≠ []) (hvalues : ∀ x ∈ values, -2 ^ 63 ≤ x ∧ x ≤ 2 ^ 63 - 1)
    {radix : ℕ} (hradix : 2 ≤ radix ∧ radix ≤ 36) (upper : Bool)
    (hsep : sep ≠ 45 ∧ Parse.isDigit radix sep = false)
    (hjoin : StringBuilder.expected r.history =
      [sep].intercalate (values.map (Parse.write radix upper)))
    (hb : ReadBack r.sb.contents mem v) (out : ℕ → StrView) (maxOut : ℕ) (o : ℤ) :
    ∃ out', StrView.split mem v sep (some out) maxOut = some (values.length, some out') ∧
      ∀ i (hi : i < values.length), i < maxOut →
        Parse.parseInt .machine mem (out' i) radix (some o) = some (.ok, some values[i]) := by
  have hne' : values.map (Parse.write radix upper) ≠ [] := fun h => hne (List.map_eq_nil_iff.mp h)
  obtain ⟨hbytes, hnull⟩ := readBack_joined ha hr hjoin hne' hb
  have hfree : ∀ f ∈ values.map (Parse.write radix upper), sep ∉ f := by
    intro f hf hmem
    obtain ⟨x, _, rfl⟩ := List.mem_map.mp hf
    rcases Parse.mem_write hradix upper x hmem with h | h
    · exact hsep.1 h
    · rw [hsep.2] at h
      cases h
  obtain ⟨p, hp⟩ : ∃ p, v.ptr = some p := by
    refine Option.ne_none_iff_exists'.mp fun hv => ?_
    have hmem : [] ∈ values.map (Parse.write radix upper) := by
      rw [hnull.mp hv]
      exact List.mem_singleton_self _
    obtain ⟨x, _, hx⟩ := List.mem_map.mp hmem
    exact Parse.write_ne_nil hradix upper x hx
  obtain ⟨out', hsplit, hout⟩ := StrView.split_joined hp hne' hbytes out maxOut
  rw [SepJoin.sum_count_eq_zero hfree, Nat.add_zero, List.length_map] at hsplit
  refine ⟨out', hsplit, fun i hi hmax => ?_⟩
  have hfield := hout hfree i (by rwa [List.length_map]) hmax
  rw [List.getElem_map] at hfield
  have hx := hvalues _ (List.getElem_mem hi)
  rw [Parse.parseInt_eq .machine mem _ (by omega) o, hfield, Int.toNat_natCast,
    Parse.grammar_spells hradix.1 (Parse.write_spells hradix upper _) hx.1 hx.2]
  rfl

/-- Two integers in base ten come back. -/
theorem integers_come_back_two_values :
    ∃ r mem v out', ReadBack (StringBuilder.contents r) mem v ∧
      StrView.split mem v 44 (some fun _ => StrView.nullView) 2 = some (2, some out') ∧
      Parse.parseInt .machine mem (out' 0) 10 (some 0) = some (.ok, some 1) ∧
      Parse.parseInt .machine mem (out' 1) 10 (some 0) = some (.ok, some 2) := by
  obtain ⟨r, mem, v, hr, hexpected, hb⟩ := readBack_two_numbers
  have hjoin : StringBuilder.expected r.history =
      [44].intercalate ([1, 2].map (Parse.write 10 false)) := hexpected.trans (by decide)
  obtain ⟨out', hsplit, hout⟩ := integers_come_back pageAllocator_bounded hr (by decide)
    (by norm_num) (by norm_num) false (by decide) hjoin hb (fun _ => StrView.nullView) 2 0
  exact ⟨r.sb, mem, v, out', hb, hsplit, hout 0 (by decide) (by decide),
    hout 1 (by decide) (by decide)⟩

end Fields

end File

end D4np
