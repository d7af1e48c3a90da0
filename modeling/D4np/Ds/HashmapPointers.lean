import D4np.Ds.HashmapArguments

/-!
# Pointers into a hash map

`d4np_hashmap_get` hands out the address of the value in its slot, to be read and written in place.
A client keeps such pointers over later calls, writes through them, and passes them to calls, but
not to a put that moves the table.  A pointer dies where its slot goes away: with a put that moves
the table, with a removal of its key, and with a clear.  Until then it is a reference to its key: a
lookup gives the same address again, and what is written through it is what lookups of the key find,
while no other key changes.
-/

namespace D4np

open Word64 ByteMem Probing TransitionSystem

namespace Hashmap

variable {ks vs : ℕ}

/-- The pointer `d4np_hashmap_get` returns. -/
def getPtr (m : Hashmap ks vs) (key : Vector UInt8 ks) : Option ℕ :=
  (m.get (some key)).bind fun i => m.values.map fun base => base + wrap (i * m.valueStride)

/-- The value behind a pointer into the block of values. -/
def peek (m : Hashmap ks vs) (ptr : ℕ) : Vector UInt8 vs :=
  readAt m.valueBytes (ptr - m.values.getD 0) vs

/-- A value written through a pointer into the block of values. -/
def poke (m : Hashmap ks vs) (ptr : ℕ) (value : Vector UInt8 vs) : Hashmap ks vs :=
  { m with valueBytes := writeAt m.valueBytes (ptr - m.values.getD 0) value }

/-- A run of a map, and the pointers its client keeps, each with the key it was taken for.  A write
through one of them is in the history as a put of its key. -/
structure Client (ks vs : ℕ) where
  run : Run ks vs
  pointers : List (Vector UInt8 ks × ℕ)

/-- What a client does: a call, a lookup whose pointer it keeps, a write through a kept pointer. -/
inductive Use (ks vs : ℕ)
  | call (q : Request ks vs)
  | take (key : Vector UInt8 ks)
  | poke (key : Vector UInt8 ks) (ptr : ℕ) (value : Vector UInt8 vs)

namespace Client

/-- The pointers that outlive a call. -/
def survivors (s : Client ks vs) : Call ks vs → List (Vector UInt8 ks × ℕ)
  | .put key value =>
    if s.run.map.needsGrowth ∧ (s.run.map.putBytes key value s.run.heap).1 = .ok then []
    else s.pointers
  | .remove (some key) => s.pointers.filter fun x => !s.run.map.keyEq key x.1
  | .clear => []
  | _ => s.pointers

def step (s : Client ks vs) : Use ks vs → Option (Client ks vs)
  | .call q =>
    if q.Valid s.run.map ∧ q.Fresh s.run then
      some ⟨s.run.stepAt q, s.survivors (q.call s.run.map)⟩
    else none
  | .take key =>
    some ⟨s.run.step (.get (some key)),
      ((s.run.map.getPtr key).map fun ptr => (key, ptr)).toList ++ s.pointers⟩
  | .poke key ptr value =>
    if (key, ptr) ∈ s.pointers then
      some ⟨⟨s.run.map.poke ptr value, s.run.heap,
        (.put (some key) (some value), .status .ok) :: s.run.history⟩, s.pointers⟩
    else none

end Client

/-- The clients of a map with the given allocator and callbacks. -/
def clients (ks vs : ℕ) (a : Allocator) (hash : Option (HashFn ks)) (keyEq : Option (KeyEqFn ks)) :
    System (Client ks vs) (Use ks vs) where
  init s := (system ks vs a hash keyEq).init s.run ∧ s.pointers = []
  step := Client.step

/-! ## Pointers and slots -/

section Slots

variable {m : Hashmap ks vs} {key : Vector UInt8 ks} {ptr i : ℕ}

/-- The pointer leads to the value of the slot. -/
def SlotAt (m : Hashmap ks vs) (ptr i : ℕ) : Prop :=
  ∃ base, m.values = some base ∧ ptr = base + wrap (i * m.valueStride)

/-- The pointer leads to the slot that stores the key. -/
def PointsTo (m : Hashmap ks vs) (key : Vector UInt8 ks) (ptr : ℕ) : Prop :=
  ∃ i < m.capacity, m.ctl i = .occupied ∧ m.keyEq (m.keyAt i) key = true ∧ m.SlotAt ptr i

theorem SlotAt.offset (h : m.SlotAt ptr i) : ptr - m.values.getD 0 = wrap (i * m.valueStride) := by
  obtain ⟨base, hb, rfl⟩ := h
  rw [hb, Option.getD_some, Nat.add_sub_cancel_left]

theorem SlotAt.peek_eq (h : m.SlotAt ptr i) : m.peek ptr = m.valueAt i := by
  unfold peek valueAt
  rw [h.offset]

/-- A map with a table has a block for its values. -/
def Full (m : Hashmap ks vs) : Prop := m.capacity ≠ 0 → m.values ≠ none

theorem Full.frame {m' : Hashmap ks vs} (h : Full m) (hs : SameTable m m') : Full m' := by
  obtain ⟨_, _, _, _, _, rfl⟩ := hs
  exact h

theorem Full.resize (h : Full m) (n : ℕ) (heap : Heap) : Full (m.resize n heap).2.1 := by
  rcases resize_cases m n heap with ⟨rc, _, _, he⟩ | ⟨_, _, nc, nk, nv, _, he⟩
  · rw [he]
    exact h
  · obtain ⟨c, k, v, hframe⟩ := rehash_frame m (m.withTable n nc nk nv) m.capacity
    rw [he, hframe]
    exact fun _ => nofun

/-- What is behind the pointer of a lookup is what the lookup finds. -/
theorem Full.peek_getPtr (h : Full m) (key : Vector UInt8 ks) :
    (m.getPtr key).map m.peek = m.lookup key := by
  unfold lookup getPtr
  rcases hi : m.get (some key) with _ | i
  · rfl
  · have hcap : m.capacity ≠ 0 := by
      intro hz
      simp [get, hz] at hi
    obtain ⟨base, hb⟩ := Option.ne_none_iff_exists'.mp (h hcap)
    have hs : m.SlotAt (base + wrap (i * m.valueStride)) i := ⟨base, hb, rfl⟩
    rw [Option.bind_some, hb, Option.map_some, Option.map_some, hs.peek_eq, Option.map_some]

/-- Where a search of a lawful map ends, there and nowhere else the key is stored. -/
theorem Live.get_eq_some_iff (hL : Live m) (hD : Distinct m) (hl : Lawful m.hash m.keyEq) :
    m.get (some key) = some i ↔
      i < m.capacity ∧ m.ctl i = .occupied ∧ m.keyEq (m.keyAt i) key = true := by
  have hcap := hL.capacity_pos
  unfold get
  simp only
  rw [if_neg (by omega)]
  rcases locate_spec hL.toShape hL.exists_empty key with ⟨d, j, hf, _, he⟩ | ⟨d, j, hm, _, he⟩
  · rw [he]
    have hj := hf.slot_lt hL.toShape
    constructor
    · intro hi
      obtain rfl := Option.some.inj hi
      exact ⟨hj, hf.occupied, hf.eq⟩
    · rintro ⟨hi, ho, hk⟩
      rw [hD.slot_unique hl hi hj ho hf.occupied hk hf.eq]
  · rw [he]
    constructor
    · nofun
    · rintro ⟨hi, ho, hk⟩
      rw [hm.not_stored hL.toTable hl.toCoherent hi ho] at hk
      cases hk

/-- A lookup gives the pointer that leads to the key. -/
theorem Live.getPtr_eq_some_iff (hL : Live m) (hD : Distinct m) (hl : Lawful m.hash m.keyEq) :
    m.getPtr key = some ptr ↔ m.PointsTo key ptr := by
  unfold getPtr
  rw [Option.bind_eq_some_iff]
  constructor
  · rintro ⟨i, hi, hp⟩
    obtain ⟨hlt, ho, hk⟩ := (hL.get_eq_some_iff hD hl).mp hi
    obtain ⟨base, hb, rfl⟩ := Option.map_eq_some_iff.mp hp
    exact ⟨i, hlt, ho, hk, base, hb, rfl⟩
  · rintro ⟨i, hlt, ho, hk, base, hb, rfl⟩
    refine ⟨i, (hL.get_eq_some_iff hD hl).mpr ⟨hlt, ho, hk⟩, ?_⟩
    rw [hb]
    rfl

/-- A pointer may be given to a call. -/
theorem PointsTo.valid (h : m.PointsTo key ptr) : (Pointer.table ptr : Pointer vs).Valid m := by
  obtain ⟨i, hi, _, _, base, hb, rfl⟩ := h
  exact ⟨base, hb, i, hi, le_refl _, le_refl _⟩

/-- A pointer leads to a table. -/
theorem PointsTo.live (h : m.PointsTo key ptr) (hW : Wf m) : Live m := by
  obtain ⟨i, hi, _⟩ := h
  exact hW.live (by omega)

/-- An insertion uses a slot that no pointer leads to, or writes a value only. -/
theorem PointsTo.insert (h : m.PointsTo key ptr) (hL : Live m) (key' : Vector UInt8 ks)
    (value : Vector UInt8 vs) : (m.insert key' value).PointsTo key ptr := by
  obtain ⟨i, hi, ho, hk, hp⟩ := h
  rcases hL.insert_cases key' value with ⟨d, j, hf, he⟩ | ⟨d, j, hm, he⟩
  · rw [he]
    exact ⟨i, hi, ho, hk, hp⟩
  · have hj := hm.slot_lt hL.toShape
    have hij : i ≠ j := by
      rintro rfl
      exact hm.not_occupied ho
    have hctl : (m.store j key' value).ctl i = .occupied := by
      rw [store_ctl hL.toShape hj, if_neg hij, ho]
    have hkey : m.keyEq ((m.store j key' value).keyAt i) key = true := by
      rw [store_keyAt_of_ne hL.toShape hi hj hij, hk]
    rw [he]
    exact ⟨i, hi, hctl, hkey, hp⟩

/-- A put that does not move the table. -/
theorem PointsTo.put (h : m.PointsTo key ptr) (hW : Wf m) {key' : Option (Vector UInt8 ks)}
    {value : Option (Vector UInt8 vs)} {heap : Heap}
    (hstay : ¬(m.needsGrowth ∧ (m.putBytes key' value heap).1 = .ok)) :
    (m.putBytes key' value heap).2.1.PointsTo key ptr := by
  rcases key' with _ | key'
  · exact h
  rcases value with _ | value
  · exact h
  by_cases hg : m.needsGrowth
  · rcases hW.put_cases key' value heap with ⟨rc, heap', _, he⟩ | ⟨r, heap', _, he⟩
    · rw [he]
      exact h
    · rw [he] at hstay
      exact absurd ⟨hg, rfl⟩ hstay
  · simp only [Hashmap.putBytes, if_neg hg]
    exact h.insert (h.live hW) key' value

/-- A removal takes the slot of an equal key. -/
theorem PointsTo.remove (h : m.PointsTo key ptr) (hL : Live m) (hl : Lawful m.hash m.keyEq)
    {key' : Vector UInt8 ks} (hne : m.keyEq key' key = false) :
    (m.remove (some key')).2.PointsTo key ptr := by
  obtain ⟨i, hi, ho, hk, hp⟩ := h
  rcases hL.remove_cases key' with ⟨d, j, hf, he⟩ | ⟨d, j, hm, he⟩
  · have hlt : j < m.controlBytes.length := by
      rw [hL.ctl_length]
      exact hf.slot_lt hL.toShape
    have hij : i ≠ j := by
      rintro rfl
      rw [hl.trans (hl.symm hf.eq) hk] at hne
      cases hne
    have hctl : (m.controlBytes.set j .deleted).getD i .empty = .occupied := by
      rw [ctl_set hlt, if_neg hij]
      exact ho
    rw [he]
    exact ⟨i, hi, hctl, hk, hp⟩
  · rw [he]
    exact ⟨i, hi, ho, hk, hp⟩

/-- **A write through a pointer** gives its key, and every key equal to it, the value, and changes
no other. -/
theorem PointsTo.holds_poke (h : m.PointsTo key ptr) (hL : Live m) (hD : Distinct m)
    (hl : Lawful m.hash m.keyEq) (value : Vector UInt8 vs) (k : Vector UInt8 ks)
    (v : Vector UInt8 vs) :
    (m.poke ptr value).Holds k v ↔ if m.keyEq key k then v = value else m.Holds k v := by
  obtain ⟨i, hi, ho, hk, hp⟩ := h
  rcases locate_spec hL.toShape hL.exists_empty key with ⟨d, j, hf, _, _⟩ | ⟨d, j, hm, _, _⟩
  · have hij : j = i := hD.slot_unique hl (hf.slot_lt hL.toShape) hi hf.occupied ho hf.eq hk
    subst hij
    unfold poke
    rw [hp.offset]
    exact hf.holds_writeValue hl hL.toShape hD value v
  · rw [hm.not_stored hL.toTable hl.toCoherent hi ho] at hk
    cases hk

theorem Live.poke (hL : Live m) (ptr : ℕ) (value : Vector UInt8 vs) : Live (m.poke ptr value) :=
  ⟨hL.toTable.frame _ _ _, hL.control_ne, hL.len_eq, hL.tombstones_eq, hL.load⟩

/-- Pointers to different keys lead to values that share no byte. -/
theorem PointsTo.disjoint {key' : Vector UInt8 ks} {ptr' : ℕ} (h : m.PointsTo key ptr)
    (h' : m.PointsTo key' ptr') (hL : Live m) (hl : Lawful m.hash m.keyEq)
    (hne : m.keyEq key key' = false) : ptr + vs ≤ ptr' ∨ ptr' + vs ≤ ptr := by
  obtain ⟨i, hi, ho, hk, base, hb, rfl⟩ := h
  obtain ⟨j, hj, ho', hk', base', hb', rfl⟩ := h'
  have hij : i ≠ j := by
    rintro rfl
    rw [hl.trans (hl.symm hk) hk'] at hne
    cases hne
  obtain rfl := Option.some.inj (hb.symm.trans hb')
  rw [hL.toShape.value_span hi, hL.toShape.value_span hj]
  have hspan : i * m.valueStride + vs ≤ j * m.valueStride ∨
      j * m.valueStride + vs ≤ i * m.valueStride := span_disjoint hij hL.value_le
  omega

end Slots

/-! ## Runs -/

section Runs

variable {a : Allocator} {hash : Option (HashFn ks)} {keyEq : Option (KeyEqFn ks)}

/-- The invariant of a map and its client. -/
structure Client.Inv (hash : Option (HashFn ks)) (keyEq : Option (KeyEqFn ks)) (s : Client ks vs) :
    Prop where
  run : s.run.Inv hash keyEq
  distinct : Distinct s.run.map
  refines : s.run.Refines keyEq
  full : Full s.run.map
  pointers : ∀ x ∈ s.pointers, s.run.map.PointsTo x.1 x.2

namespace Client

variable {s t : Client ks vs}

theorem Inv.lawful (h : s.Inv hash keyEq)
    (hl : Lawful (hash.getD defaultHash) (keyEq.getD defaultKeyEq)) :
    Lawful s.run.map.hash s.run.map.keyEq := by
  rw [h.run.hash_eq, h.run.keyEq_eq]
  exact hl

/-- A pointer that outlives a call leads where it did. -/
theorem Inv.survivors (h : s.Inv hash keyEq) (hl : Lawful s.run.map.hash s.run.map.keyEq)
    (c : Call ks vs) : ∀ x ∈ s.survivors c, (s.run.step c).map.PointsTo x.1 x.2 := by
  cases c with
  | put key value =>
    intro x hx
    simp only [Client.survivors] at hx
    split_ifs at hx with hgone
    · exact absurd hx List.not_mem_nil
    · exact (h.pointers x hx).put h.run.wf hgone
  | get key => exact h.pointers
  | contains key => exact h.pointers
  | remove key =>
    rcases key with _ | key
    · exact h.pointers
    · intro x hx
      obtain ⟨hx, hne⟩ := List.mem_filter.mp hx
      have hp := h.pointers x hx
      exact hp.remove (hp.live h.run.wf) hl (by simpa using hne)
  | len => exact h.pointers
  | clear => exact fun x hx => absurd hx List.not_mem_nil

theorem Inv.call (h : s.Inv hash keyEq)
    (hl : Lawful (hash.getD defaultHash) (keyEq.getD defaultKeyEq)) (c : Call ks vs) :
    Inv hash keyEq ⟨s.run.step c, s.survivors c⟩ := by
  have hl' := h.lawful hl
  have hfull : Full (s.run.step c).map := Run.step_induct (P := fun m _ => Full m) h.full
    (h.full.resize _ _) (fun hs hf => hf.frame hs) c
  exact ⟨h.run.step c, h.distinct.step h.run.wf hl'.toCoherent c,
    h.refines.step h.run h.distinct hl' c, hfull, h.survivors hl' c⟩

theorem Inv.take (h : s.Inv hash keyEq)
    (hl : Lawful (hash.getD defaultHash) (keyEq.getD defaultKeyEq)) (key : Vector UInt8 ks) :
    Inv hash keyEq ⟨s.run.step (.get (some key)),
      ((s.run.map.getPtr key).map fun ptr => (key, ptr)).toList ++ s.pointers⟩ := by
  have hc := h.call hl (.get (some key))
  refine ⟨hc.run, hc.distinct, hc.refines, hc.full, fun x hx => ?_⟩
  rcases List.mem_append.mp hx with hx | hx
  · obtain ⟨ptr, hp, rfl⟩ := Option.map_eq_some_iff.mp (Option.mem_toList.mp hx)
    have hcap : s.run.map.capacity ≠ 0 := by
      intro hz
      simp [getPtr, Hashmap.get, hz] at hp
    exact ((h.run.wf.live hcap).getPtr_eq_some_iff h.distinct (h.lawful hl)).mp hp
  · exact h.pointers x hx

theorem Inv.poke (h : s.Inv hash keyEq)
    (hl : Lawful (hash.getD defaultHash) (keyEq.getD defaultKeyEq)) {key : Vector UInt8 ks}
    {ptr : ℕ} (hx : (key, ptr) ∈ s.pointers) (value : Vector UInt8 vs) :
    Inv hash keyEq ⟨⟨s.run.map.poke ptr value, s.run.heap,
      (.put (some key) (some value), .status .ok) :: s.run.history⟩, s.pointers⟩ := by
  have hp := h.pointers _ hx
  have hL := hp.live h.run.wf
  refine ⟨⟨Or.inr (hL.poke ptr value), h.run.hash_eq, h.run.keyEq_eq⟩, ?_, fun k v => ?_, h.full,
    h.pointers⟩
  · exact h.distinct.of_subset rfl rfl rfl fun _ _ ho => ho
  · show expected _ ((.put (some key) (some value), .status .ok) :: s.run.history) k = some v ↔
      (s.run.map.poke ptr value).Holds k v
    rw [expected_put, hp.holds_poke hL h.distinct (h.lawful hl), h.run.keyEq_eq]
    by_cases hk : keyEq.getD defaultKeyEq key k = true
    · rw [if_pos ⟨rfl, hk⟩, if_pos hk, Option.some_inj]
      exact eq_comm
    · rw [if_neg fun hc => hk hc.2, if_neg hk]
      exact h.refines k v

theorem Inv.step {e : Use ks vs} (h : s.Inv hash keyEq)
    (hl : Lawful (hash.getD defaultHash) (keyEq.getD defaultKeyEq)) (hs : s.step e = some t) :
    t.Inv hash keyEq := by
  cases e with
  | call q =>
    simp only [Client.step] at hs
    split_ifs at hs with hq
    obtain rfl := Option.some.inj hs
    rw [Run.stepAt_eq hq.2]
    exact h.call hl (q.call s.run.map)
  | take key =>
    obtain rfl := Option.some.inj hs
    exact h.take hl key
  | poke key ptr value =>
    simp only [Client.step] at hs
    split_ifs at hs with hx
    obtain rfl := Option.some.inj hs
    exact h.poke hl hx value

end Client

theorem clients_init (hks : ks ≤ sizeMax - maxAlign) (hvs : vs ≤ sizeMax - maxAlign)
    (hl : Lawful (hash.getD defaultHash) (keyEq.getD defaultKeyEq)) {s : Client ks vs}
    (h : (clients ks vs a hash keyEq).init s) : s.Inv hash keyEq := by
  obtain ⟨hi, hnil⟩ := h
  have hr : Reachable (system ks vs a hash keyEq) s.run := .init hi
  refine ⟨reachable_inv hks hvs hr, reachable_distinct hks hvs hl.toCoherent hr,
    reachable_refines hks hvs hl hr, ?_, ?_⟩
  · obtain ⟨_, _, _, _, hi, _⟩ := hi
    obtain ⟨_, _, hm | ⟨_, _, _, _, _, _, _, hm⟩⟩ := init_cases hi
    · rw [hm]
      exact fun hz => absurd rfl hz
    · rw [hm]
      exact fun _ => nofun
  · rw [hnil]
    exact fun x hx => absurd hx List.not_mem_nil

/-- **Pointers are references.** A client makes any calls on a map with lawful callbacks, keeps
pointers that lookups returned, writes through them, and gives pointers into the table to any calls
but a put that moves it.  A pointer counts as kept until a put moves the table, its key is removed
or the map is cleared.  In every state reached, a lookup of a key leads to the value last put for it
or written through a kept pointer of an equal key, and to nothing if there is none; a kept pointer
is the address a lookup of its key gives now, and may be given to calls; and kept pointers to
different keys lead to values that share no byte. -/
theorem hashmap_pointers_are_references (hks : ks ≤ sizeMax - maxAlign)
    (hvs : vs ≤ sizeMax - maxAlign)
    (hl : Lawful (hash.getD defaultHash) (keyEq.getD defaultKeyEq)) {s : Client ks vs}
    (h : Reachable (clients ks vs a hash keyEq) s) :
    (∀ key, (s.run.map.getPtr key).map s.run.map.peek =
      expected (keyEq.getD defaultKeyEq) s.run.history key) ∧
    (∀ x ∈ s.pointers, s.run.map.getPtr x.1 = some x.2 ∧
      (Pointer.table x.2 : Pointer vs).Valid s.run.map) ∧
    ∀ x ∈ s.pointers, ∀ y ∈ s.pointers, keyEq.getD defaultKeyEq x.1 y.1 = false →
      x.2 + vs ≤ y.2 ∨ y.2 + vs ≤ x.2 := by
  have hI : s.Inv hash keyEq := h.induct (P := Client.Inv hash keyEq)
    (fun _ h0 => clients_init hks hvs hl h0) fun _ _ _ hs he => hs.step hl he
  have hl' := hI.lawful hl
  refine ⟨fun key => ?_, fun x hx => ?_, fun x hx y hy hne => ?_⟩
  · rw [hI.full.peek_getPtr]
    ext v
    rw [hI.run.wf.lookup_eq_some_iff hl' hI.distinct key v, hI.refines key v]
  · have hp := hI.pointers x hx
    exact ⟨((hp.live hI.run.wf).getPtr_eq_some_iff hI.distinct hl').mpr hp, hp.valid⟩
  · have hp := hI.pointers x hx
    refine hp.disjoint (hI.pointers y hy) (hp.live hI.run.wf) hl' ?_
    rw [hI.run.keyEq_eq]
    exact hne

/-- A pointer to the first of two keys, given to the put of the second one, and then written
through. -/
theorem hashmap_pointers_are_references_written :
    ∃ s : Client 1 1, Reachable (clients 1 1 pageAllocator none none) s ∧
      s.pointers = [(#v[1], 12352)] ∧ s.run.map.getPtr #v[1] = some 12352 ∧
      (s.run.map.getPtr #v[1]).map s.run.map.peek = some #v[9] ∧
      (s.run.map.getPtr #v[2]).map s.run.map.peek = some #v[5] := by
  have h0 : Reachable (clients 1 1 pageAllocator none none)
      ⟨⟨lazyMap pageAllocator none none, ⟨0, []⟩, []⟩, []⟩ :=
    .init ⟨⟨0, ⟨0, []⟩, .ok, by norm_num, rfl, rfl⟩, rfl⟩
  have hrun : ((clients 1 1 pageAllocator none none).run
      ⟨⟨lazyMap pageAllocator none none, ⟨0, []⟩, []⟩, []⟩
      [.call (.put (some (.own #v[1])) (some (.own #v[5])) fun _ => 0), .take #v[1],
        .call (.put (some (.own #v[2])) (some (.table 12352)) fun _ => 0),
        .poke #v[1] 12352 #v[9]]).map (fun s => (s.pointers,
          expected defaultKeyEq s.run.history #v[1], expected defaultKeyEq s.run.history #v[2])) =
      some ([(#v[1], 12352)], some #v[9], some #v[5]) := by
    decide +kernel
  obtain ⟨s, hs, he⟩ := Option.map_eq_some_iff.mp hrun
  obtain ⟨hpointers, hfirst, hsecond⟩ := Prod.mk.inj he |>.imp_right Prod.mk.inj
  have hr := h0.run hs
  have hl : Lawful ((none : Option (HashFn 1)).getD defaultHash)
      ((none : Option (KeyEqFn 1)).getD defaultKeyEq) := default_lawful
  obtain ⟨hget, hkept, -⟩ := hashmap_pointers_are_references (by decide) (by decide) hl hr
  refine ⟨s, hr, hpointers, (hkept (#v[1], 12352) ?_).1, (hget #v[1]).trans hfirst,
    (hget #v[2]).trans hsecond⟩
  rw [hpointers]
  exact List.mem_singleton_self _

end Runs

end Hashmap

end D4np
