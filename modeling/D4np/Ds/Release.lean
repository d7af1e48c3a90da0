import D4np.Ds.HashmapRun
import D4np.Ds.StringBuilder
import D4np.Ds.Vector

/-!
# What the containers ask of their allocator

A vector and a string builder hold one block, a hash map three.  None of them keeps the size of a
block: each recomputes it from its capacity when it releases or resizes the block.  The ledger of
each call is followed block by block; after it the live blocks are those the fields point to, with
the sizes the fields give, also where a request was refused and what was granted is handed back.
-/

namespace D4np

open Word64 TransitionSystem

variable {a : Allocator}

/-! ## The vector -/

namespace Vec

variable {es : ℕ} {v : Vec es}

/-- The buffer of the vector is the only live block. -/
def Held (heap : Heap) (v : Vec es) : Prop := Sole heap.log v.data (v.capacity * es)

theorem Held.reserve {heap : Heap} (hs : Held heap v) (h : Wf v) (ha : v.allocator.Bounded)
    (n : ℕ) : Held (v.reserve n heap).2.2 (v.reserve n heap).2.1 := by
  have hfit := h.fits
  have hw : wrap (v.capacity * es) = v.capacity * es := wrap_of_lt (by omega)
  rcases reserve_cases v n heap with ⟨_, he⟩ | he | he | ⟨b, hlt, hn, hb, he⟩
  · rw [he]
    exact hs
  · rw [he]
    exact hs
  · rw [he, hw]
    exact hs.realloc_refused maxAlign
  · rw [he, hw, (h.moved ha hlt hn hb).2.2]
    exact hs.realloc_granted maxAlign b.addr

theorem Held.push {heap : Heap} (hs : Held heap v) (h : Wf v) (ha : v.allocator.Bounded)
    (e : Option (Vector UInt8 es)) : Held (v.push e heap).2.2 (v.push e heap).2.1 :=
  push_induct (P := fun v heap => Held heap v) hs (hs.reserve h ha v.grown) (fun hs _ => hs) e

theorem Held.step {r : Run es} (hs : Held r.heap r.vec) (ha : a.Bounded) (h : r.Inv a)
    (c : Call es) : Held (r.step c).heap (r.step c).vec := by
  have ha' : r.vec.allocator.Bounded := by rw [h.allocator_eq]; exact ha
  cases c with
  | reserve n => exact hs.reserve h.wf ha' n
  | push e => exact hs.push h.wf ha' e
  | pop out =>
    show Sole r.heap.log (r.vec.pop out).2.2.data ((r.vec.pop out).2.2.capacity * es)
    by_cases hlen : r.vec.len = 0
    · rw [pop_empty hlen]
      exact hs
    · obtain ⟨v', he, _, _, hd, hc, _⟩ := h.wf.pop hlen out
      rw [he, hd, hc]
      exact hs
  | atIndex i => exact hs
  | len => exact hs
  | capacity => exact hs
  | isEmpty => exact hs
  | clear => exact hs

theorem reachable_held (ha : a.Bounded) {requests : ℕ} {r : Run es}
    (h : Reachable (system a es ⟨requests, []⟩) r) : Held r.heap r.vec := by
  refine h.induct_of (P := fun r => Held r.heap r.vec) (fun _ hr => reachable_inv ha hr) ?_ ?_
  · rintro r ⟨n, rc, _, hi, _⟩
    obtain ⟨hes, he | he⟩ := init_cases hi
    · cases r
      cases he
      exact Sole.nil _
    · have h0 : Held ⟨requests, []⟩ (⟨a, none, fun _ => 0, 0, 0⟩ : Vec es) := Sole.nil _
      have hr := h0.reserve (empty_wf a hes) ha n
      rw [he] at hr
      exact hr
  · intro r c t hI hr hs
    cases hs
    exact hr.step ha hI c

theorem Held.destroy {heap : Heap} (hs : Held heap v) (h : Wf v) :
    Owns (v.destroy heap).2.log [] ∧
      (v.destroy heap).1.destroy (v.destroy heap).2 = v.destroy heap := by
  have hfit := h.fits
  unfold Vec.destroy
  by_cases hd : v.data = none
  · rw [if_pos hd, if_pos hd]
    rw [Held, hd] at hs
    exact ⟨hs.owns, rfl⟩
  · rw [if_neg hd, wrap_of_lt (show v.capacity * es < 2 ^ 64 by omega)]
    exact ⟨hs.free, if_pos rfl⟩

end Vec

/-! ## The string builder -/

namespace StringBuilder

variable {sb : StringBuilder}

/-- The buffer of the builder is the only live block. -/
def Held (heap : Heap) (sb : StringBuilder) : Prop := Sole heap.log sb.data sb.capacity

theorem reachable_held {requests : ℕ} {r : Run}
    (h : Reachable (system a ⟨requests, []⟩) r) : Held r.heap r.sb := by
  have hP : Tracks a fun heap ptr size => Sole heap.log ptr size :=
    ⟨fun _ hs => hs.realloc_refused 1, fun hs _ => hs.realloc_granted 1 _⟩
  exact hP.reachable (Sole.nil 0) h

theorem Held.destroy {heap : Heap} (hs : Held heap sb) :
    Owns (sb.destroy heap).2.log [] ∧
      (sb.destroy heap).1.destroy (sb.destroy heap).2 = sb.destroy heap := by
  unfold StringBuilder.destroy
  by_cases hd : sb.data = none
  · rw [if_pos hd, if_pos hd]
    rw [Held, hd] at hs
    exact ⟨hs.owns, rfl⟩
  · rw [if_neg hd]
    exact ⟨hs.free, if_pos rfl⟩

end StringBuilder

/-! ## The hash map -/

namespace Hashmap

variable {ks vs : ℕ} {m : Hashmap ks vs} {hash : Option (HashFn ks)} {keyEq : Option (KeyEqFn ks)}

/-- The three blocks a hash map holds, with the sizes it releases them with. -/
def blocks (m : Hashmap ks vs) : List (ℕ × ℕ) :=
  block m.control m.capacity ++ block m.keys (wrap (m.capacity * m.keyStride)) ++
    block m.values (wrap (m.capacity * m.valueStride))

/-- Three blocks change places with three others. -/
theorem perm_swap (c k v c' k' v' : List (ℕ × ℕ)) :
    (v' ++ (k' ++ (c' ++ (c ++ k ++ v)))).Perm (c ++ (k ++ (v ++ (c' ++ k' ++ v')))) := by
  apply List.perm_iff_count.mpr
  intro x
  simp only [List.count_append]
  omega

theorem resize_accounts {heap : Heap} (n : ℕ) (ho : Accounts heap.log m.blocks) :
    Accounts (m.resize n heap).2.2.log (m.resize n heap).2.1.blocks := by
  simp only [resize]
  split_ifs
  · exact ho
  have h1 := ho.alloc m.allocator n maxAlign
  rcases hc : d4npAlloc m.allocator n maxAlign heap with ⟨nc, heap1⟩
  rw [hc] at h1
  have h2 := h1.alloc m.allocator (wrap (n * m.keyStride)) maxAlign
  rcases hk : d4npAlloc m.allocator (wrap (n * m.keyStride)) maxAlign heap1 with ⟨nk, heap2⟩
  rw [hk] at h2
  have h3 := h2.alloc m.allocator (wrap (n * m.valueStride)) maxAlign
  rcases hv : d4npAlloc m.allocator (wrap (n * m.valueStride)) maxAlign heap2 with ⟨nv, heap3⟩
  rw [hv] at h3
  -- what was granted is handed back, or takes the place of the old blocks
  have hback : Accounts (d4npFree (nv.map Block.addr) (wrap (n * m.valueStride))
      (d4npFree (nk.map Block.addr) (wrap (n * m.keyStride))
        (d4npFree (nc.map Block.addr) n heap3))).log m.blocks := by
    refine ((h3.free ?_).free (List.perm_append_comm_assoc ..)).free (List.Perm.refl _)
    exact ((List.perm_append_comm_assoc ..).append_left _).trans (List.perm_append_comm_assoc ..)
  have hswap : Accounts (d4npFree m.values (wrap (m.capacity * m.valueStride))
      (d4npFree m.keys (wrap (m.capacity * m.keyStride))
        (d4npFree m.control m.capacity heap3))).log
      (block (nc.map Block.addr) n ++ block (nk.map Block.addr) (wrap (n * m.keyStride)) ++
        block (nv.map Block.addr) (wrap (n * m.valueStride))) :=
    (((h3.perm (perm_swap ..)).free (List.Perm.refl _)).free (List.Perm.refl _)).free
      (List.Perm.refl _)
  rcases nc with _ | bc
  · exact hback
  rcases nk with _ | bk
  · exact hback
  rcases nv with _ | bv
  · exact hback
  obtain ⟨c, k, v, hframe⟩ := rehash_frame m (m.withTable n bc bk bv) m.capacity
  show Accounts _ (m.rehash (m.withTable n bc bk bv) m.capacity).blocks
  rw [hframe]
  exact hswap

theorem SameTable.blocks_eq {m' : Hashmap ks vs} (h : SameTable m m') : m'.blocks = m.blocks := by
  obtain ⟨_, _, _, _, _, rfl⟩ := h
  rfl

theorem step_accounts {r : Run ks vs} (ho : Accounts r.heap.log r.map.blocks) (c : Call ks vs) :
    Accounts (r.step c).heap.log (r.step c).map.blocks := by
  apply Run.step_induct (P := fun m heap => Accounts heap.log m.blocks) ho (resize_accounts _ ho)
  intro m m' heap hs ho
  rw [hs.blocks_eq]
  exact ho

/-- The runs of a map whose initialisation finds the given heap. -/
def systemFrom (ks vs : ℕ) (a : Allocator) (hash : Option (HashFn ks)) (keyEq : Option (KeyEqFn ks))
    (h₀ : Heap) : System (Run ks vs) (Call ks vs) where
  init r := ∃ initialCapacity rc, initialCapacity < 2 ^ 64 ∧
    init a ks vs initialCapacity hash keyEq h₀ = (rc, some r.map, r.heap) ∧ r.history = []
  step r c := some (r.step c)

theorem systemFrom_reachable {h₀ : Heap} {r : Run ks vs}
    (h : Reachable (systemFrom ks vs a hash keyEq h₀) r) :
    Reachable (system ks vs a hash keyEq) r := by
  refine h.mono ?_ fun _ _ _ hs => hs
  rintro r ⟨n, rc, hn, hi, hnil⟩
  exact ⟨n, h₀, rc, hn, hi, hnil⟩

theorem reachable_accounts {requests : ℕ} {r : Run ks vs}
    (h : Reachable (systemFrom ks vs a hash keyEq ⟨requests, []⟩) r) :
    Accounts r.heap.log r.map.blocks := by
  refine h.induct (P := fun r => Accounts r.heap.log r.map.blocks) ?_ ?_
  · rintro r ⟨n, rc, _, hi, _⟩
    have h0 : Accounts (⟨requests, []⟩ : Heap).log
        (lazyMap a hash keyEq : Hashmap ks vs).blocks := Accounts.nil
    have hr := resize_accounts (nextPow2AtLeast n) h0
    unfold init at hi
    by_cases hz : ks = 0 ∨ vs = 0
    · rw [if_pos hz] at hi
      cases hi
    rw [if_neg hz] at hi
    by_cases hn : n > 0
    · simp only [if_pos hn, Prod.mk.injEq, Option.some.injEq] at hi
      rw [hi.2.1, hi.2.2] at hr
      exact hr
    · simp only [if_neg hn, Prod.mk.injEq, Option.some.injEq] at hi
      rw [← hi.2.1, ← hi.2.2]
      exact h0
  · intro r c t hr hs
    cases hs
    exact step_accounts hr c

/-- Without a control block there are no blocks at all. -/
def Bare (m : Hashmap ks vs) : Prop := m.control = none → m.keys = none ∧ m.values = none

theorem Bare.resize (h : Bare m) (n : ℕ) (heap : Heap) : Bare (m.resize n heap).2.1 := by
  rcases resize_cases m n heap with ⟨rc, _, _, he⟩ | ⟨_, _, nc, nk, nv, _, he⟩
  · rw [he]
    exact h
  · obtain ⟨c, k, v, hframe⟩ := rehash_frame m (m.withTable n nc nk nv) m.capacity
    rw [he, hframe]
    nofun

theorem Bare.step {r : Run ks vs} (h : Bare r.map) (c : Call ks vs) : Bare (r.step c).map := by
  apply Run.step_induct (P := fun m _ => Bare m) h (h.resize _ _)
  rintro m m' - ⟨_, _, _, _, _, rfl⟩ h
  exact h

theorem reachable_bare {r : Run ks vs} (h : Reachable (system ks vs a hash keyEq) r) :
    Bare r.map := by
  refine h.induct (P := fun r => Bare r.map) ?_ ?_
  · rintro r ⟨_, _, _, _, hi, _⟩
    obtain ⟨_, _, hm | ⟨_, _, _, _, _, _, _, hm⟩⟩ := init_cases hi
    · rw [hm]
      exact fun _ => ⟨rfl, rfl⟩
    · rw [hm]
      nofun
  · intro r c t hr hs
    cases hs
    exact hr.step c

theorem destroy_owns {heap : Heap} (hbare : Bare m) (ho : Accounts heap.log m.blocks)
    (hh : Honest heap.log) : Owns (m.destroy heap).2.log [] ∧
      (m.destroy heap).1.destroy (m.destroy heap).2 = m.destroy heap := by
  unfold destroy
  by_cases hc : m.control = none
  · obtain ⟨hk, hv⟩ := hbare hc
    rw [if_pos hc, if_pos hc]
    rw [blocks, hc, hk, hv] at ho
    exact ⟨ho hh, rfl⟩
  · rw [if_neg hc]
    refine ⟨?_, if_pos rfl⟩
    rw [blocks, List.append_assoc] at ho
    exact ((ho.free (List.Perm.refl _)).free (List.Perm.refl _)).free (by simp) hh

/-- The sizes a map releases its blocks with do not wrap. -/
theorem Wf.blocks_eq (h : Wf m) :
    m.blocks = block m.control m.capacity ++ block m.keys (m.capacity * m.keyStride) ++
      block m.values (m.capacity * m.valueStride) := by
  unfold blocks
  rcases h with h | h
  · rw [h.capacity_eq, Nat.zero_mul, Nat.zero_mul]
    rfl
  · rw [wrap_of_lt h.key_fits, wrap_of_lt h.value_fits]

end Hashmap

/-! ## The containers -/

/-- **Blocks.** For every run of a vector, a string builder or a hash map from its initialisation,
with an allocator that may refuse any request: every release and reallocation named a live block
with its size, and the live blocks are those the fields point to; after the matching destroy none is
left, and a second destroy does nothing.  The hash map holds three blocks, so there the allocator
must not have granted the address of a live one. -/
theorem containers_own_their_blocks (ha : a.Bounded) (requests : ℕ) :
    (∀ es (r : Vec.Run es), Reachable (Vec.system a es ⟨requests, []⟩) r →
      Owns r.heap.log (block r.vec.data (r.vec.capacity * es)) ∧
      Owns (r.vec.destroy r.heap).2.log [] ∧
      (r.vec.destroy r.heap).1.destroy (r.vec.destroy r.heap).2 = r.vec.destroy r.heap) ∧
    (∀ r, Reachable (StringBuilder.system a ⟨requests, []⟩) r →
      Owns r.heap.log (block r.sb.data r.sb.capacity) ∧
      Owns (r.sb.destroy r.heap).2.log [] ∧
      (r.sb.destroy r.heap).1.destroy (r.sb.destroy r.heap).2 = r.sb.destroy r.heap) ∧
    ∀ ks vs hash keyEq (r : Hashmap.Run ks vs), ks ≤ sizeMax - maxAlign → vs ≤ sizeMax - maxAlign →
      Reachable (Hashmap.systemFrom ks vs a hash keyEq ⟨requests, []⟩) r → Honest r.heap.log →
      Owns r.heap.log (block r.map.control r.map.capacity ++
        block r.map.keys (r.map.capacity * r.map.keyStride) ++
        block r.map.values (r.map.capacity * r.map.valueStride)) ∧
      Owns (r.map.destroy r.heap).2.log [] ∧
      (r.map.destroy r.heap).1.destroy (r.map.destroy r.heap).2 = r.map.destroy r.heap := by
  refine ⟨fun es r h => ?_, fun r h => ?_, fun ks vs hash keyEq r hks hvs h hh => ?_⟩
  · have hs := Vec.reachable_held ha h
    exact ⟨hs.owns, hs.destroy (Vec.reachable_inv ha h).wf⟩
  · have hs := StringBuilder.reachable_held h
    exact ⟨hs.owns, hs.destroy⟩
  · have ho := Hashmap.reachable_accounts h
    have hr := Hashmap.systemFrom_reachable h
    refine ⟨?_, Hashmap.destroy_owns (Hashmap.reachable_bare hr) ho hh⟩
    rw [← (Hashmap.reachable_inv hks hvs hr).wf.blocks_eq]
    exact ho hh

/-- A vector and a builder whose buffers are moved once, and not moved when the request is refused;
and a map whose first table is refused after one of its blocks was granted, and that is rehashed
later. -/
theorem containers_own_their_blocks_moved :
    (∃ r : Vec.Run 2, Reachable (Vec.system pageAllocator 2 ⟨0, []⟩) r ∧
      r.heap.log = [.realloc (some 8192) 18 10000 16 none, .realloc (some 4096) 16 18 16 (some 8192),
        .realloc none 0 16 16 (some 4096)] ∧
      Owns r.heap.log [(8192, 18)] ∧ Owns (r.vec.destroy r.heap).2.log []) ∧
    (∃ r, Reachable (StringBuilder.system pageAllocator ⟨0, []⟩) r ∧
      r.heap.log = [.realloc (some 8192) 32 8192 1 none, .realloc (some 4096) 16 32 1 (some 8192),
        .realloc none 0 16 1 (some 4096)] ∧
      Owns r.heap.log [(8192, 32)] ∧ Owns (r.sb.destroy r.heap).2.log []) ∧
    ∃ r : Hashmap.Run 1 1, Reachable (Hashmap.systemFrom 1 1 pageAllocator none none ⟨0, []⟩) r ∧
      r.map.capacity = 16 ∧ r.heap.log.length = 18 ∧
      Owns r.heap.log [(28672, 16), (32768, 256), (36864, 256)] ∧
      Owns (r.map.destroy r.heap).2.log [] := by
  obtain ⟨hvec, hsb, hmap⟩ := containers_own_their_blocks pageAllocator_bounded 0
  refine ⟨?_, ?_, ?_⟩
  · have h0 : Reachable (Vec.system pageAllocator 2 ⟨0, []⟩)
        ⟨⟨pageAllocator, none, fun _ => 0, 0, 0⟩, ⟨0, []⟩, []⟩ :=
      .init ⟨0, .ok, by norm_num, rfl, rfl⟩
    have hr := ((h0.step (e := .push (some #v[1, 2])) rfl).step (e := .reserve 9) rfl).step
      (e := .reserve 5000) rfl
    exact ⟨_, hr, rfl, (hvec 2 _ hr).1, (hvec 2 _ hr).2.1⟩
  · have h0 : Reachable (StringBuilder.system pageAllocator ⟨0, []⟩)
        ⟨StringBuilder.lazy pageAllocator, ⟨0, []⟩, []⟩ := .init ⟨0, .ok, by norm_num, rfl, rfl⟩
    have hr := ((h0.step (e := .appendChar 97) rfl).step (e := .reserve 20) rfl).step
      (e := .reserve 5000) rfl
    exact ⟨_, hr, rfl, (hsb _ hr).1, (hsb _ hr).2.1⟩
  · have hrun : ((Hashmap.init pageAllocator 1 1 512 none none ⟨0, []⟩).2.1.bind fun m =>
        (Hashmap.systemFrom 1 1 pageAllocator none none ⟨0, []⟩).run
          ⟨m, (Hashmap.init pageAllocator 1 1 512 none none ⟨0, []⟩ :
            Status × Option (Hashmap 1 1) × Heap).2.2, []⟩ Hashmap.churn).map
          (fun r => (r.heap.log, [r.map.control, r.map.keys, r.map.values],
            [r.map.capacity, r.map.keyStride, r.map.valueStride])) =
        some ([.free (some 24576) 128, .free (some 20480) 128, .free (some 16384) 8,
          .alloc 256 16 (some 36864), .alloc 256 16 (some 32768), .alloc 16 16 (some 28672),
          .free none 0, .free none 0, .free none 0, .alloc 128 16 (some 24576),
          .alloc 128 16 (some 20480), .alloc 8 16 (some 16384), .free none 8192, .free none 8192,
          .free (some 4096) 512, .alloc 8192 16 none, .alloc 8192 16 none,
          .alloc 512 16 (some 4096)], [some 28672, some 32768, some 36864], [16, 16, 16]) := by
      decide +kernel
    obtain ⟨r, hr, he⟩ := Option.map_eq_some_iff.mp hrun
    obtain ⟨m, hm, hr⟩ := Option.bind_eq_some_iff.mp hr
    have h0 : Reachable (Hashmap.systemFrom 1 1 pageAllocator none none ⟨0, []⟩) ⟨m, _, []⟩ :=
      .init ⟨512, .errOutOfMemory, by norm_num, Prod.ext rfl (Prod.ext hm rfl), rfl⟩
    simp only [Prod.mk.injEq, List.cons.injEq, and_true] at he
    obtain ⟨hlog, ⟨hcontrol, hkeys, hvalues⟩, hcap, hkey, hvalue⟩ := he
    have hhonest : Honest r.heap.log := by
      rw [hlog]
      simp [Honest, liveSize]
    obtain ⟨howns, hend, -⟩ := hmap 1 1 none none r (by decide) (by decide) (h0.run hr) hhonest
    rw [hcontrol, hkeys, hvalues, hcap, hkey, hvalue] at howns
    exact ⟨r, h0.run hr, hcap, congrArg List.length hlog, howns, hend⟩

end D4np
