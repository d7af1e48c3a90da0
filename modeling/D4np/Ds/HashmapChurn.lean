import D4np.Ds.HashmapRun

/-!
# Churn

A put grows the table when the live entries and the tombstones fill three quarters of it, and the
new capacity is twice the old one, whatever the load was made of.  The resize reclaims the
tombstones, but it does not take back the doubling.  So the capacity is bounded by the live entries
and the tombstones a growth finds (`capacity_le_of_fewTombstones`), and not by the live entries
alone: keys with home slots next to each other, inserted and removed one at a time, leave a
tombstone each, and every three quarters of a table of them double it.
-/

namespace D4np

open Word64 ByteMem Probing TransitionSystem

namespace Hashmap

variable {ks vs : ℕ} {a : Allocator} {hash : Option (HashFn ks)} {keyEq : Option (KeyEqFn ks)}

/-- The runs of a map initialised with a capacity of zero. -/
def lazySystem (ks vs : ℕ) (a : Allocator) (hash : Option (HashFn ks)) (keyEq : Option (KeyEqFn ks)) :
    System (Run ks vs) (Call ks vs) where
  init r := ∃ heap, init a ks vs 0 hash keyEq heap = (.ok, some r.map, r.heap) ∧ r.history = []
  step r c := some (r.step c)

/-- A put that is not refused memory. -/
def Granted (r : Run ks vs) : Call ks vs → Prop
  | .put key value => (r.map.putBytes key value r.heap).1 ≠ .errOutOfMemory
  | _ => True

/-- A call that leaves at most `n` entries live, and is not refused memory. -/
def Churns (n : ℕ) (r : Run ks vs) (c : Call ks vs) : Prop :=
  (r.step c).map.len ≤ n ∧ Granted r c

/-- If the call grows the table, it finds at most `t` tombstones there. -/
def FewTombstones (t : ℕ) (r : Run ks vs) : Call ks vs → Prop
  | .put (some _) (some _) => r.map.needsGrowth → r.map.tombstones ≤ t
  | _ => True

instance (r : Run ks vs) : (c : Call ks vs) → Decidable (Granted r c)
  | .put _ _ => inferInstanceAs (Decidable (_ ≠ _))
  | .get _ | .contains _ | .remove _ | .len | .clear => inferInstanceAs (Decidable True)

instance (n : ℕ) (r : Run ks vs) (c : Call ks vs) : Decidable (Churns n r c) :=
  inferInstanceAs (Decidable (_ ∧ _))

instance (t : ℕ) (r : Run ks vs) : (c : Call ks vs) → Decidable (FewTombstones t r c)
  | .put (some _) (some _) => inferInstanceAs (Decidable (_ → _))
  | .put none _ | .put (some _) none | .get _ | .contains _ | .remove _ | .len | .clear =>
    inferInstanceAs (Decidable True)

/-! ## The capacity over a call -/

variable {m : Hashmap ks vs}

/-- A put keeps the capacity, or it needs growth and doubles it. -/
theorem put_capacity (m : Hashmap ks vs) (key : Option (Vector UInt8 ks))
    (value : Option (Vector UInt8 vs)) (h : Heap) :
    (m.putBytes key value h).2.1.capacity = m.capacity ∨
    (key.isSome ∧ value.isSome ∧ m.needsGrowth ∧
      (m.putBytes key value h).2.1.capacity = m.grown) := by
  rcases key with _ | key
  · exact Or.inl rfl
  rcases value with _ | value
  · exact Or.inl rfl
  simp only [putBytes]
  by_cases hg : m.needsGrowth
  · rw [if_pos hg]
    rcases resize_cases m m.grown h with ⟨rc, h', hrc, he⟩ | ⟨_, _, nc, nk, nv, h', he⟩
    · left
      rw [he]
      cases rc <;> first | rfl | exact absurd rfl hrc
    · right
      rw [he]
      refine ⟨rfl, rfl, hg, ?_⟩
      obtain ⟨c, k, v, hframe⟩ := rehash_frame m (m.withTable m.grown nc nk nv) m.capacity
      show ((m.rehash (m.withTable m.grown nc nk nv) m.capacity).insert key value).capacity = m.grown
      rw [(insert_sameTable _ key value).capacity_eq, hframe]
      rfl
  · rw [if_neg hg]
    exact Or.inl (insert_sameTable m key value).capacity_eq

/-- What a growth makes of the capacity is bounded by the load it finds. -/
theorem Wf.grown_le (h : Wf m) (hg : m.needsGrowth) {n t : ℕ} (hn : m.len ≤ n)
    (ht : m.tombstones ≤ t) : m.grown ≤ 8 ∨ 3 * m.grown ≤ 8 * (n + t + 1) := by
  rw [h.needsGrowth_iff] at hg
  have hload := h.load_exact.1
  unfold grown
  split_ifs with hz
  · exact Or.inl (le_refl _)
  · right
    rw [wrap_of_lt (by omega)]
    omega

theorem Run.step_capacity (r : Run ks vs) (c : Call ks vs) :
    (r.step c).map.capacity = r.map.capacity ∨
    ((∃ key value, c = .put (some key) (some value)) ∧ r.map.needsGrowth ∧
      (r.step c).map.capacity = r.map.grown) := by
  cases c with
  | put key value =>
    rcases put_capacity r.map key value r.heap with h | ⟨hk, hv, hg, h⟩
    · exact Or.inl h
    · obtain ⟨key, rfl⟩ := Option.isSome_iff_exists.mp hk
      obtain ⟨value, rfl⟩ := Option.isSome_iff_exists.mp hv
      exact Or.inr ⟨⟨key, value, rfl⟩, hg, h⟩
  | get key => exact Or.inl rfl
  | contains key => exact Or.inl rfl
  | remove key => exact Or.inl (remove_sameTable _ _).capacity_eq
  | len => exact Or.inl rfl
  | clear => exact Or.inl (clear_sameTable _).capacity_eq

/-- A growth leaves no tombstone. -/
theorem resize_tombstones {newCapacity : ℕ} {m' : Hashmap ks vs} {h h' : Heap}
    (he : m.resize newCapacity h = (.ok, m', h')) : m'.tombstones = 0 := by
  rcases resize_cases m newCapacity h with ⟨rc, _, hrc, hr⟩ | ⟨_, _, nc, nk, nv, _, hr⟩
  · rw [hr] at he
    exact absurd (congrArg Prod.fst he) hrc
  · rw [hr] at he
    cases he
    obtain ⟨c, k, v, hframe⟩ := rehash_frame m (m.withTable newCapacity nc nk nv) m.capacity
    rw [hframe]
    rfl

/-! ## The bound -/

theorem lazySystem_reachable {r : Run ks vs} (h : Reachable (lazySystem ks vs a hash keyEq) r) :
    Reachable (system ks vs a hash keyEq) r := by
  refine h.mono ?_ fun _ _ _ hs => hs
  rintro r ⟨heap, hi, hnil⟩
  exact ⟨0, heap, .ok, by norm_num, hi, hnil⟩

theorem lazySystem_init {r : Run ks vs} (h : (lazySystem ks vs a hash keyEq).init r) :
    r.map = lazyMap a hash keyEq := by
  obtain ⟨heap, hi, _⟩ := h
  unfold init at hi
  by_cases hz : ks = 0 ∨ vs = 0
  · rw [if_pos hz] at hi
    cases hi
  · rw [if_neg hz] at hi
    simp only [gt_iff_lt, lt_self_iff_false, if_false, Prod.mk.injEq, Option.some.injEq] at hi
    exact hi.2.1.symm

/-- The live entries and the tombstones growths find bound the capacity. -/
def Bounded (n t : ℕ) (m : Hashmap ks vs) : Prop :=
  m.len ≤ n ∧ (m.capacity ≤ 8 ∨ 3 * m.capacity ≤ 8 * (n + t + 1))

theorem Bounded.step {n t : ℕ} {r : Run ks vs} (hb : Bounded n t r.map) (hW : Wf r.map)
    {c : Call ks vs} (hn : Churns n r c) (ht : FewTombstones t r c) :
    Bounded n t (r.step c).map := by
  refine ⟨hn.1, ?_⟩
  rcases r.step_capacity c with he | ⟨⟨key, value, rfl⟩, hg, he⟩
  · rw [he]
    exact hb.2
  · rw [he]
    exact hW.grown_le hg hb.1 (ht hg)

/-- A stride past half of the address space: no table fits, the map stays as it was initialised. -/
theorem Run.step_lazy {r : Run ks vs}
    (hbig : sizeMax / roundUp ks maxAlign < 8 ∨ sizeMax / roundUp vs maxAlign < 8)
    (hr : r.map = lazyMap a hash keyEq) (c : Call ks vs) :
    (r.step c).map = lazyMap a hash keyEq := by
  rw [← hr]
  cases c with
  | put key value =>
    rcases key with _ | key
    · rfl
    rcases value with _ | value
    · rfl
    show (r.map.putBytes (some key) (some value) r.heap).2.1 = r.map
    have hg : r.map.needsGrowth := by
      rw [hr]
      exact Nat.zero_le _
    have hover : r.map.resize r.map.grown r.heap = (.errOverflow, r.map, r.heap) := by
      simp only [resize]
      rw [if_pos]
      rw [hr]
      exact hbig
    simp only [putBytes]
    rw [if_pos hg, hover]
  | get key => rfl
  | contains key => rfl
  | remove key =>
    rcases key with _ | key
    · rfl
    show (r.map.remove (some key)).2 = r.map
    simp only [remove]
    rw [if_pos (by rw [hr]; rfl)]
  | len => rfl
  | clear =>
    show r.map.clear = r.map
    unfold clear
    rw [if_pos (by rw [hr]; rfl)]

/-- A size past the last multiple of the maximum alignment leaves room for no table. -/
theorem stride_div_lt {v : ℕ} (hv : v < 2 ^ 64) (h : ¬ v ≤ sizeMax - maxAlign) :
    sizeMax / roundUp v maxAlign < 8 := by
  unfold sizeMax Word64.maxWord maxAlign at *
  by_cases hw : v + 15 < 2 ^ 64
  · have := roundUp_eq hw
    unfold maxAlign at this
    rw [this, show v = 2 ^ 64 - 16 by omega]
    decide
  · have := roundUp_eq_zero (by omega) hv
    unfold maxAlign at this
    rw [this]
    decide

/-- **What bounds the capacity.** In every run from an initialisation with capacity zero whose calls
leave at most `n` entries live and whose growths find at most `t` tombstones, the capacity is at
most eight thirds of `n + t + 1`, or the least one; and a growth leaves no tombstone. -/
theorem capacity_le_of_fewTombstones (hks : ks < 2 ^ 64) (hvs : vs < 2 ^ 64) {n t : ℕ}
    {r : Run ks vs}
    (h : Reachable ((lazySystem ks vs a hash keyEq).guarded
      fun r c => Churns n r c ∧ FewTombstones t r c) r) :
    r.map.capacity ≤ max minCapacity (8 * (n + t + 1) / 3) ∧
    ∀ newCapacity heap m heap', r.map.resize newCapacity heap = (.ok, m, heap') →
      m.tombstones = 0 := by
  refine ⟨?_, fun _ _ _ _ he => resize_tombstones he⟩
  by_cases hsmall : ks ≤ sizeMax - maxAlign ∧ vs ≤ sizeMax - maxAlign
  · have hb : Bounded n t r.map := by
      induction h with
      | init h0 =>
        rw [lazySystem_init h0]
        exact ⟨Nat.zero_le _, Or.inl (Nat.zero_le _)⟩
      | @step r t c hr hs ih =>
        obtain ⟨⟨hn, ht⟩, hs⟩ := System.guarded_step.mp hs
        cases hs
        exact ih.step (reachable_inv hsmall.1 hsmall.2 (lazySystem_reachable hr.of_guarded)).wf hn ht
    have := hb.2
    unfold minCapacity
    omega
  · have hbig : sizeMax / roundUp ks maxAlign < 8 ∨ sizeMax / roundUp vs maxAlign < 8 := by
      by_cases hk : ks ≤ sizeMax - maxAlign
      · exact Or.inr (stride_div_lt hvs fun hv => hsmall ⟨hk, hv⟩)
      · exact Or.inl (stride_div_lt hks hk)
    have hm : r.map = lazyMap a hash keyEq := by
      induction h with
      | init h0 => exact lazySystem_init h0
      | @step r t c _ hs ih =>
        cases (System.guarded_step.mp hs).2
        exact Run.step_lazy hbig ih c
    rw [hm]
    exact Nat.zero_le _

/-- A growth that finds two tombstones, with five live entries at most. -/
theorem capacity_le_of_fewTombstones_churn :
    ∃ r, Reachable ((lazySystem 1 1 pageAllocator none none).guarded
      fun r c => Churns 5 r c ∧ FewTombstones 2 r c) r ∧ r.map.capacity = 16 ∧
        r.map.capacity ≤ 21 := by
  have h0 : Reachable ((lazySystem 1 1 pageAllocator none none).guarded
      fun r c => Churns 5 r c ∧ FewTombstones 2 r c)
      ⟨lazyMap pageAllocator none none, ⟨0, []⟩, []⟩ := .init ⟨⟨0, []⟩, rfl, rfl⟩
  have hrun : (((lazySystem 1 1 pageAllocator none none).guarded
      fun r c => Churns 5 r c ∧ FewTombstones 2 r c).run
      ⟨lazyMap pageAllocator none none, ⟨0, []⟩, []⟩ churn).map (fun r => r.map.capacity) =
        some 16 := by
    decide +kernel
  obtain ⟨r, hr, hcap⟩ := Option.map_eq_some_iff.mp hrun
  have h := h0.run hr
  exact ⟨r, h, hcap, (capacity_le_of_fewTombstones (by norm_num) (by norm_num) h).1⟩

/-! ## Tables of tombstones -/

/-- The first probe meets an empty slot: the search ends there. -/
theorem locate_of_empty (h : Live m) {key : Vector UInt8 ks} (he : m.ctl (m.home key) = .empty) :
    m.locate key = (m.home key, false) := by
  have hmod : (m.home key + 0) % m.capacity = m.home key := Nat.mod_eq_of_lt (h.home_lt key)
  rcases locate_spec h.toShape h.exists_empty key with ⟨d, i, hf, _, _⟩ | ⟨d, i, hm, _, hl⟩
  · rcases Nat.eq_zero_or_pos d with rfl | hd
    · have := hf.occupied
      rw [← hf.slot, hmod, he] at this
      cases this
    · exact absurd (by rw [hmod]; exact he) (hf.passed 0 hd).1
  · rcases Nat.eq_zero_or_pos d with rfl | hd
    · rcases hm.slot with rfl | ⟨e, he', _⟩
      · rw [hl, hmod]
      · exact absurd he' (Nat.not_lt_zero e)
    · exact absurd (by rw [hmod]; exact he) (hm.passed 0 hd).1

/-- The first probe meets the key. -/
theorem locate_of_occupied (h : Live m) {key : Vector UInt8 ks}
    (ho : m.ctl (m.home key) = .occupied) (heq : m.keyEq (m.keyAt (m.home key)) key = true) :
    m.locate key = (m.home key, true) := by
  have hmod : (m.home key + 0) % m.capacity = m.home key := Nat.mod_eq_of_lt (h.home_lt key)
  have hpass : ∀ d, 0 < d → ¬ m.Passed key d := by
    intro d hd hp
    have := (hp 0 hd).2 (by rw [hmod]; exact ho)
    rw [hmod, heq] at this
    cases this
  rcases locate_spec h.toShape h.exists_empty key with ⟨d, i, hf, _, hl⟩ | ⟨d, i, hm, _, _⟩
  · rcases Nat.eq_zero_or_pos d with rfl | hd
    · rw [hl, ← hf.slot, hmod]
    · exact absurd hf.passed (hpass d hd)
  · rcases Nat.eq_zero_or_pos d with rfl | hd
    · have := hm.empty
      rw [hmod, ho] at this
      cases this
    · exact absurd hm.passed (hpass d hd)

/-- No entry is live, `t` slots are tombstones, and the slots from `t` on are empty. -/
structure Churned (k t : ℕ) (m : Hashmap ks vs) : Prop extends Live m where
  capacity_eq : m.capacity = 2 ^ k
  noneLive : m.len = 0
  tombs : m.tombstones = t
  empty : ∀ i, t ≤ i → m.ctl i = .empty

/-- A key whose home slot is the first empty one, inserted and removed, leaves a tombstone there. -/
theorem Churned.insert_remove {k t : ℕ} (h : Churned k t m) (hroom : 4 * (t + 1) < 3 * 2 ^ k)
    {key : Vector UInt8 ks} (hhome : m.home key = t) (hrefl : m.keyEq key key = true)
    (value : Vector UInt8 vs) :
    (m.insert key value).len = 1 ∧
    ∃ m', (m.insert key value).remove (some key) = (true, m') ∧ Churned k (t + 1) m' := by
  have hcap := h.capacity_eq
  have hlt : t < m.capacity := by omega
  have hle := h.capacity_le
  have hctl : m.ctl (m.home key) = .empty := h.empty _ (by omega)
  -- the insertion takes slot `t`
  have hins : m.insert key value = { m.store t key value with
      tombstones := m.tombstones, len := wrap (m.len + 1) } := by
    unfold insert
    rw [locate_of_empty h.toLive hctl, hhome]
    rw [hhome] at hctl
    simp [hctl]
  have hlen : (m.insert key value).len = 1 := by
    rw [hins]
    show wrap (m.len + 1) = 1
    rw [h.noneLive]
    rfl
  have hL : Live (m.insert key value) :=
    h.toLive.insert (by rw [h.noneLive, h.tombs]; omega) key value
  have hhome' : (m.insert key value).home key = t := by rw [hins]; exact hhome
  have hctl' : ∀ i, (m.insert key value).ctl i = if i = t then .occupied else m.ctl i := by
    intro i
    rw [hins]
    show (m.store t key value).ctl i = _
    exact store_ctl h.toShape hlt
  have hkey : (m.insert key value).keyAt t = key := by
    rw [hins]
    show (m.store t key value).keyAt t = key
    exact store_keyAt_self
  have hkeyEq : (m.insert key value).keyEq = m.keyEq := by rw [hins]; rfl
  have htombs : (m.insert key value).tombstones = t := by rw [hins]; exact h.tombs
  -- the removal finds it there
  have hloc : (m.insert key value).locate key = (t, true) := by
    have hocc : (m.insert key value).ctl ((m.insert key value).home key) = .occupied := by
      rw [hhome', hctl', if_pos rfl]
    rw [locate_of_occupied hL hocc (by rw [hhome', hkey, hkeyEq]; exact hrefl), hhome']
  have hW := Wf.remove (Or.inr hL) (some key)
  have hcap' := (insert_sameTable m key value).capacity_eq
  have hrem : (m.insert key value).remove (some key) = (true, { m.insert key value with
      controlBytes := (m.insert key value).controlBytes.set t .deleted
      len := sub (m.insert key value).len 1
      tombstones := wrap ((m.insert key value).tombstones + 1) }) := by
    simp only [remove]
    rw [if_neg (by omega), hloc]
  refine ⟨hlen, _, hrem, ?_⟩
  rw [hrem] at hW
  refine ⟨hW.live ?_, ?_, ?_, ?_, fun i hi => ?_⟩
  · show (m.insert key value).capacity ≠ 0
    omega
  · show (m.insert key value).capacity = 2 ^ k
    rw [hcap', hcap]
  · show sub (m.insert key value).len 1 = 0
    rw [hlen]
    rfl
  · show wrap ((m.insert key value).tombstones + 1) = t + 1
    rw [htombs, wrap_of_lt (by omega)]
  · show ((m.insert key value).controlBytes.set t .deleted).getD i .empty = .empty
    rw [ctl_set (by rw [hL.ctl_length, hcap']; exact hlt), if_neg (by omega)]
    show (m.insert key value).ctl i = .empty
    rw [hctl', if_neg (by omega)]
    exact h.empty i (by omega)

/-- Nothing is carried over from a table without live entries. -/
theorem rehash_of_noneLive {old : Hashmap ks vs} (new : Hashmap ks vs)
    (h : ∀ i, old.ctl i ≠ .occupied) (n : ℕ) : old.rehash new n = new := by
  induction n with
  | zero => rfl
  | succ n ih =>
    simp only [rehash, rehashStep, ih]
    rw [if_pos (h n)]

theorem ctl_ne_occupied (hlen : m.controlBytes.count .occupied = 0) (i : ℕ) :
    m.ctl i ≠ .occupied := by
  intro ho
  have hmem : Slot.occupied ∈ m.controlBytes := by
    unfold ctl at ho
    rw [List.getD_eq_getElem?_getD] at ho
    rcases hx : m.controlBytes[i]? with _ | x
    · rw [hx] at ho
      cases ho
    · rw [hx] at ho
      exact List.mem_of_getElem? (hx.trans (congrArg some ho))
  exact absurd hlen (List.count_pos_iff.mpr hmem).ne'

/-- A growth of a table without live entries gives one without tombstones. -/
theorem Wf.resize_noneLive (h : Wf m) (hlen : m.len = 0) {k : ℕ} (hk : m.grown = 2 ^ k)
    {m' : Hashmap ks vs} {heap heap' : Heap} (hr : m.resize m.grown heap = (.ok, m', heap')) :
    Churned k 0 m' := by
  have hL := (h.prepared_resize hr).toLive
  rcases resize_cases m m.grown heap with ⟨rc, _, hrc, he⟩ | ⟨_, _, nc, nk, nv, _, he⟩
  · rw [he] at hr
    exact absurd (congrArg Prod.fst hr) hrc
  · rw [he, rehash_of_noneLive _ (ctl_ne_occupied (h.len_eq.symm.trans hlen))] at hr
    cases hr
    exact ⟨hL, hk, hlen, rfl, fun i _ => ctl_replicate _ i⟩

/-! ## A run that grows with one entry live -/

/-- An allocator that serves the three blocks of each table of 16-byte keys and values, from `8`
slots to `2 ^ 57`, from addresses of their own. -/
def tableAllocator : Allocator where
  alloc n size align :=
    if size ≤ 2 ^ (n / 3 + 7) ∧ align ∣ 16 ∧ n / 3 ≤ 54 then
      some ⟨2 ^ (n / 3 + 9) + n % 3 * 2 ^ (n / 3 + 7), fun _ => 0⟩
    else none
  addr_pos := by
    intro n size align b h
    split_ifs at h
    cases h
    positivity
  addr_le := by
    intro n size align b h
    split_ifs at h with hc
    cases h
    obtain ⟨hsize, _, hn⟩ := hc
    have hle : 2 ^ (n / 3 + 10) ≤ 2 ^ 64 := Nat.pow_le_pow_right (by norm_num) (by omega)
    have hmod : n % 3 * 2 ^ (n / 3 + 7) ≤ 2 * 2 ^ (n / 3 + 7) := Nat.mul_le_mul_right _ (by omega)
    have h9 : 2 ^ (n / 3 + 9) = 4 * 2 ^ (n / 3 + 7) := by ring
    have h10 : 2 ^ (n / 3 + 10) = 8 * 2 ^ (n / 3 + 7) := by ring
    simp only
    omega
  addr_dvd := by
    intro n size align b h _
    split_ifs at h with hc
    cases h
    have hd : ∀ j, 4 ≤ j → align ∣ 2 ^ j := fun j hj => hc.2.1.trans (pow_dvd_pow 2 hj)
    exact Dvd.dvd.add (hd _ (by omega)) (Dvd.dvd.mul_left (hd _ (by omega)) _)

/-- A hash of 8-byte keys: the word they spell. -/
def wordHash : HashFn 8 := fun key => UInt64.ofNat (loadWord (writeAt (fun _ => 0) 0 key) 0)

/-- The key that spells `i`. -/
def wordKey (i : ℕ) : Vector UInt8 8 := readAt (storeWord (fun _ => 0) 0 i) 0 8

theorem wordHash_wordKey {i : ℕ} (hi : i < 2 ^ 64) : (wordHash (wordKey i)).toNat = i := by
  have hload : loadWord (writeAt (fun _ => 0) 0 (wordKey i)) 0 = i := by
    refine (loadWord_congr ?_).trans (loadWord_storeWord (fun _ => 0) 0 hi)
    intro j hj
    simp [writeAt, wordKey, readAt, hj]
  unfold wordHash
  rw [hload, UInt64.toNat_ofNat_of_lt' hi]

/-- The runs of the map of words in which at most one entry is live. -/
def wordSystem : System (Run 8 1) (Call 8 1) :=
  (lazySystem 8 1 tableAllocator (some wordHash) none).guarded (Churns 1)

/-- A run of the map of words that leads to a table of tombstones. -/
def ChurnedRun (k t : ℕ) (r : Run 8 1) : Prop :=
  Reachable wordSystem r ∧ Churned k t r.map ∧ r.heap.requests = 3 * (k - 2)

/-- A put that works on an empty table and the removal of its key are steps of the system. -/
theorem Churned.churn {k t : ℕ} {r : Run 8 1} {m : Hashmap 8 1} {heap : Heap}
    (hr : Reachable wordSystem r) (hm : Churned k t m) (hroom : 4 * (t + 1) < 3 * 2 ^ k)
    (hhash : m.hash = wordHash) (hkeyEq : m.keyEq = defaultKeyEq)
    (hput : r.map.putBytes (some (wordKey t)) (some #v[0]) r.heap =
      (.ok, m.insert (wordKey t) #v[0], heap)) (hreq : heap.requests = 3 * (k - 2)) :
    ∃ r', ChurnedRun k (t + 1) r' := by
  have hle := hm.capacity_le
  have hcap := hm.capacity_eq
  have hhome : m.home (wordKey t) = t := by
    rw [hm.toShape.home_eq, hhash, wordHash_wordKey (by omega), Nat.mod_eq_of_lt (by omega)]
  obtain ⟨hlen, m', hrem, hm'⟩ := hm.insert_remove hroom hhome
    (by rw [hkeyEq]; exact decide_eq_true rfl) #v[0]
  let r₁ : Run 8 1 := r.step (.put (some (wordKey t)) (some #v[0]))
  have hr₁ : r₁.map = m.insert (wordKey t) #v[0] := congrArg (fun x => x.2.1) hput
  have hheap : r₁.heap = heap := congrArg (fun x => x.2.2) hput
  have h₁ : Reachable wordSystem r₁ := by
    refine hr.step (e := .put (some (wordKey t)) (some #v[0]))
      (System.guarded_step.mpr ⟨⟨?_, ?_⟩, rfl⟩)
    · exact (congrArg Hashmap.len hr₁).trans_le hlen.le
    · show (r.map.putBytes (some (wordKey t)) (some #v[0]) r.heap).1 ≠ .errOutOfMemory
      rw [hput]
      simp
  let r₂ : Run 8 1 := r₁.step (.remove (some (wordKey t)))
  have hr₂ : r₂.map = m' := by
    show (r₁.map.remove (some (wordKey t))).2 = m'
    rw [hr₁, hrem]
  refine ⟨r₂, h₁.step (e := .remove (some (wordKey t)))
    (System.guarded_step.mpr ⟨⟨?_, trivial⟩, rfl⟩), ?_, ?_⟩
  · exact (congrArg Hashmap.len hr₂).trans_le (by rw [hm'.noneLive]; norm_num)
  · rw [hr₂]
    exact hm'
  · exact (congrArg Heap.requests hheap).trans hreq

theorem tableAllocator_alloc {g i s : ℕ} (hi : i < 3) (hg : g ≤ 54) (hs : s ≤ 2 ^ (g + 7)) :
    ∃ b, tableAllocator.alloc (3 * g + i) s maxAlign = some b := by
  have hdiv : (3 * g + i) / 3 = g := by omega
  refine ⟨_, if_pos ⟨?_, by decide, by omega⟩⟩
  rw [hdiv]
  exact hs

/-- Table number `g` is granted. -/
theorem resize_granted {m : Hashmap 8 1} (h : Configured tableAllocator m) {g : ℕ} (hg : g ≤ 54)
    {heap : Heap} (hreq : heap.requests = 3 * g) :
    ∃ m' heap', m.resize (2 ^ (g + 3)) heap = (.ok, m', heap') ∧
      heap'.requests = 3 * (g + 1) := by
  have hk : m.keyStride = 16 := h.keyStride_eq
  have hv : m.valueStride = 16 := h.valueStride_eq
  have hle : 2 ^ g ≤ 2 ^ 54 := Nat.pow_le_pow_right (by norm_num) hg
  have h3 : 2 ^ (g + 3) = 8 * 2 ^ g := by ring
  have h7 : 2 ^ (g + 7) = 128 * 2 ^ g := by ring
  have hspan : wrap (2 ^ (g + 3) * 16) = 2 ^ (g + 7) := by
    rw [wrap_of_lt (by omega)]
    omega
  have hguard : ¬ (2 ^ (g + 3) > sizeMax / 16 ∨ 2 ^ (g + 3) > sizeMax / 16) := by
    unfold sizeMax Word64.maxWord
    omega
  have hctl : 2 ^ (g + 3) ≤ 2 ^ (g + 7) := by omega
  obtain ⟨b₀, h₀⟩ := tableAllocator_alloc (i := 0) (by norm_num) hg hctl
  obtain ⟨b₁, h₁⟩ := tableAllocator_alloc (i := 1) (by norm_num) hg (le_refl (2 ^ (g + 7)))
  obtain ⟨b₂, h₂⟩ := tableAllocator_alloc (i := 2) (by norm_num) hg (le_refl (2 ^ (g + 7)))
  rw [Nat.add_zero] at h₀
  simp only [resize, d4npAlloc, h.allocator_eq, hk, hv, hspan, hreq, h₀, h₁, h₂]
  rw [if_neg hguard]
  exact ⟨_, _, rfl, rfl⟩

theorem wordSystem_inv {r : Run 8 1} (h : Reachable wordSystem r) :
    r.Inv (some wordHash) none ∧ Configured tableAllocator r.map := by
  have hr := lazySystem_reachable h.of_guarded
  exact ⟨reachable_inv (by decide) (by decide) hr, reachable_configured hr⟩

/-- A growth of a table without live entries, and the churn of one key in the new table. -/
theorem churn_grown {g : ℕ} {r : Run 8 1} (hr : Reachable wordSystem r) (hlen : r.map.len = 0)
    (hneed : r.map.needsGrowth) (hgrown : r.map.grown = 2 ^ (g + 3)) (hg : g ≤ 54)
    (hreq : r.heap.requests = 3 * g) : ∃ r', ChurnedRun (g + 3) 1 r' := by
  obtain ⟨hI, hC⟩ := wordSystem_inv hr
  obtain ⟨m', heap', hres, hreq'⟩ := resize_granted hC hg hreq
  rw [← hgrown] at hres
  have hm' := hI.wf.resize_noneLive hlen hgrown hres
  have hP := hI.wf.prepared_resize hres
  have hpow : 8 ≤ 2 ^ (g + 3) := Nat.pow_le_pow_right (show 0 < 2 by norm_num) (show 3 ≤ g + 3 by omega)
  refine hm'.churn hr (by omega) (hP.hash_eq.trans hI.hash_eq) (hP.keyEq_eq.trans hI.keyEq_eq)
    ?_ hreq'
  simp only [putBytes]
  rw [if_pos hneed, hres]

theorem ChurnedRun.first : ∃ r, ChurnedRun 3 1 r := by
  let r : Run 8 1 := ⟨lazyMap tableAllocator (some wordHash) none, ⟨0, []⟩, []⟩
  have hr : Reachable wordSystem r := .init ⟨⟨0, []⟩, rfl, rfl⟩
  exact churn_grown hr rfl (Nat.zero_le _) rfl (Nat.zero_le _) rfl

theorem ChurnedRun.next {k t : ℕ} {r : Run 8 1} (h : ChurnedRun k t r)
    (hroom : 4 * (t + 1) < 3 * 2 ^ k) : ∃ r', ChurnedRun k (t + 1) r' := by
  obtain ⟨hr, hm, hreq⟩ := h
  obtain ⟨hI, hC⟩ := wordSystem_inv hr
  refine hm.churn hr hroom hI.hash_eq hI.keyEq_eq ?_ hreq
  simp only [putBytes]
  rw [if_neg]
  rw [hI.wf.needsGrowth_iff, hm.capacity_eq, hm.noneLive, hm.tombs]
  omega

/-- One key at a time fills three quarters of a table with tombstones. -/
theorem ChurnedRun.fill {k : ℕ} {r : Run 8 1} (h : ChurnedRun k 1 r) :
    ∀ t, 1 ≤ t → 4 * t < 3 * 2 ^ k → ∃ r', ChurnedRun k t r' := by
  intro t ht
  induction t, ht using Nat.le_induction with
  | base => exact fun _ => ⟨r, h⟩
  | succ t _ ih =>
    intro hlt
    obtain ⟨r', hr'⟩ := ih (by omega)
    exact hr'.next hlt

/-- Then the next key doubles it. -/
theorem ChurnedRun.double {k : ℕ} (hk : 3 ≤ k) (hk' : k < 57) {r : Run 8 1}
    (h : ChurnedRun k 1 r) : ∃ r', ChurnedRun (k + 1) 1 r' := by
  obtain ⟨g, rfl⟩ := Nat.exists_eq_add_of_le' hk
  have hpow : 2 ^ (g + 3) = 8 * 2 ^ g := by ring
  have hpos : 0 < 2 ^ g := by positivity
  have hle : 2 ^ g ≤ 2 ^ 54 := Nat.pow_le_pow_right (by norm_num) (by omega)
  obtain ⟨r', hr', hm, hreq⟩ := h.fill (6 * 2 ^ g - 1) (by omega) (by omega)
  obtain ⟨hI, _⟩ := wordSystem_inv hr'
  refine churn_grown hr' hm.noneLive ?_ ?_ (by omega) (by omega)
  · rw [hI.wf.needsGrowth_iff, hm.capacity_eq, hm.noneLive, hm.tombs]
    omega
  · unfold grown
    rw [if_neg (by rw [hm.capacity_eq]; positivity), hm.capacity_eq, wrap_of_lt (by omega)]
    ring

/-- One key at a time, each inserted and removed, makes the table as large as the address space
lets it be: no bound below that holds for one live entry. -/
theorem capacity_grows_with_one_live :
    ¬ ∃ B < 2 ^ 57, ∀ r, Reachable ((lazySystem 8 1 tableAllocator (some wordHash) none).guarded
      (Churns 1)) r → r.map.capacity ≤ B := by
  rintro ⟨B, hB, hall⟩
  have hgrow : ∀ k, 3 ≤ k → k ≤ 57 → ∃ r, ChurnedRun k 1 r := by
    intro k hk
    induction k, hk using Nat.le_induction with
    | base => exact fun _ => ChurnedRun.first
    | succ k hk ih =>
      intro hk'
      obtain ⟨r, hr⟩ := ih (by omega)
      exact hr.double hk (by omega)
  obtain ⟨r, hr, hm, _⟩ := hgrow 57 (by norm_num) (by norm_num)
  have hle := hall r hr
  rw [hm.capacity_eq] at hle
  omega

end Hashmap

end D4np
