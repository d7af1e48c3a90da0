import D4np.Ds.HashmapChurn
import D4np.Ds.StringBuilder
import D4np.Ds.Vector
import D4np.Lib.Potential

/-!
# The cost of growth

The headers promise that appending is amortised constant time.  What an append costs beyond its own
bytes is the growth: a reallocation has to carry the old block over (`copied`), and a resize of the
hash map scans the old table and clears the new one.  A container that is about to grow has taken in
as much as it has to move since it grew last, whatever was popped, cleared, removed or refused in
between; with the potential `load` each call pays for itself.
-/

namespace D4np

open Word64 TransitionSystem

variable {a : Allocator}

/-- The bytes the granted reallocations of a log had to carry over. -/
def copied : List AllocEvent → ℕ
  | [] => 0
  | .realloc (some _) oldSize newSize _ (some _) :: log => min oldSize newSize + copied log
  | _ :: log => copied log

/-- The reallocations that were granted. -/
def moves : List AllocEvent → ℕ
  | [] => 0
  | .realloc _ _ _ _ (some _) :: log => moves log + 1
  | _ :: log => moves log

/-- A granted reallocation carries at most the old block over. -/
theorem copied_realloc_le (ptr : Option ℕ) (oldSize newSize align p : ℕ) (log : List AllocEvent) :
    copied (.realloc ptr oldSize newSize align (some p) :: log) ≤ oldSize + copied log := by
  rcases ptr with _ | q
  · exact Nat.le_add_left _ _
  · exact Nat.add_le_add_right (min_le_left _ _) _

theorem copied_realloc_refused (ptr : Option ℕ) (oldSize newSize align : ℕ)
    (log : List AllocEvent) :
    copied (.realloc ptr oldSize newSize align none :: log) = copied log := by
  rcases ptr with _ | q <;> rfl

/-- A doubled capacity has one more binary digit. -/
theorem log_double {cap cap' : ℕ} (hpos : 1 < cap') (hcap : 2 * cap ≤ cap') :
    Nat.log 2 cap + 1 ≤ Nat.log 2 cap' := by
  rcases Nat.eq_zero_or_pos cap with rfl | hc
  · rw [Nat.log_zero_right]
    exact Nat.log_pos (by norm_num) hpos
  · rw [← Nat.log_mul_base (by norm_num) hc.ne', Nat.mul_comm]
    exact Nat.log_mono_right hcap

theorem log_lt_of_lt {cap : ℕ} (hcap : cap < 2 ^ 63) : Nat.log 2 cap < 63 := by
  rcases Nat.eq_zero_or_pos cap with rfl | hc
  · rw [Nat.log_zero_right]
    norm_num
  · exact Nat.log_lt_of_lt_pow hc.ne' hcap

/-! ## The vector -/

namespace Vec

variable {es : ℕ} {v : Vec es}

/-- What a call pays for: two places for an element pushed, and the places it asks for. -/
def Call.charge : Call es → ℕ
  | .push _ => 2
  | .reserve minCapacity => minCapacity
  | _ => 0

/-- The calls that name a capacity. -/
def Call.reserves : Call es → Bool
  | .reserve _ => true
  | _ => false

/-- What `d4np_vector_reserve` costs: nothing, or one move of the block. -/
theorem Wf.reserve_cost (h : Wf v) {n : ℕ} {heap heap' : Heap} {rc : Status} {v' : Vec es}
    (hr : v.reserve n heap = (rc, v', heap')) :
    ((n ≤ v.capacity ∨ rc ≠ .ok) ∧ v' = v ∧ copied heap'.log = copied heap.log ∧
      moves heap'.log = moves heap.log) ∨
    (v.capacity < n ∧ rc = .ok ∧ v'.capacity = n ∧ v'.len = v.len ∧
      copied heap'.log ≤ es * v.capacity + copied heap.log ∧
      moves heap'.log = moves heap.log + 1) := by
  rcases reserve_cases v n heap with ⟨hle, he⟩ | he | he | ⟨b, hlt, _, _, he⟩
  · cases hr.symm.trans he
    exact Or.inl ⟨Or.inl hle, rfl, rfl, rfl⟩
  · cases hr.symm.trans he
    exact Or.inl ⟨Or.inr (by decide), rfl, rfl, rfl⟩
  · cases hr.symm.trans he
    exact Or.inl ⟨Or.inr (by decide), rfl, copied_realloc_refused .., rfl⟩
  · cases hr.symm.trans he
    have hfit := h.fits
    have hw : wrap (v.capacity * es) = es * v.capacity := by
      rw [wrap_of_lt (by omega), Nat.mul_comm]
    refine Or.inr ⟨hlt, rfl, rfl, rfl, ?_, rfl⟩
    rw [hw]
    exact copied_realloc_le ..

/-- The capacity a full vector grows to. -/
theorem Wf.grown_bounds (h : Wf v) :
    2 * v.capacity ≤ v.grown ∧ 1 < v.grown ∧ v.grown ≤ max minCapacity (2 * v.capacity) := by
  have hcap := h.capacity_lt
  unfold grown minCapacity
  split_ifs with hz
  · omega
  · rw [wrap_of_lt (by omega)]
    omega

/-- What `d4np_vector_push` costs: nothing, or the move of a full block, which it doubles. -/
theorem Wf.push_cost (h : Wf v) (e : Option (Vector UInt8 es)) {heap heap' : Heap} {rc : Status}
    {v' : Vec es} (hp : v.push e heap = (rc, v', heap')) :
    (v'.capacity = v.capacity ∧ copied heap'.log = copied heap.log ∧
      moves heap'.log = moves heap.log ∧ v'.len ≤ v.len + 1) ∨
    (v.len = v.capacity ∧ v'.len = v.len + 1 ∧ v'.capacity = v.grown ∧
      copied heap'.log ≤ es * v.capacity + copied heap.log ∧
      moves heap'.log = moves heap.log + 1) := by
  have hcap := h.capacity_lt
  have hle := h.le
  have hlen : wrap (v.len + 1) = v.len + 1 := wrap_of_lt (by omega)
  rcases e with _ | e
  · cases hp
    exact Or.inl ⟨rfl, rfl, rfl, Nat.le_add_right _ _⟩
  unfold push at hp
  by_cases hfull : v.len = v.capacity
  · simp only [if_pos hfull] at hp
    rcases hr : v.reserve v.grown heap with ⟨rc', w, heap''⟩
    rw [hr] at hp
    rcases h.reserve_cost hr with ⟨hrc, rfl, hcp, hmv⟩ | ⟨_, rfl, hcap', hlen', hcp, hmv⟩
    · -- refused: the vector is full and stays as it is
      have hgt := capacity_lt_grown hcap
      have hfail := hrc.resolve_left (by omega)
      left
      cases rc' <;>
        first
        | exact absurd rfl hfail
        | (cases hp; exact ⟨rfl, hcp, hmv, Nat.le_add_right _ _⟩)
    · cases hp
      refine Or.inr ⟨hfull, ?_, hcap', hcp, hmv⟩
      show wrap (w.len + 1) = v.len + 1
      rw [hlen', hlen]
  · simp only [if_neg hfull] at hp
    cases hp
    exact Or.inl ⟨rfl, rfl, rfl, hlen.le⟩

/-- What a call costs: it moves nothing and takes in at most one element, or it moves the block
because it was asked to, or it moves the block because it was full, and then doubles it. -/
inductive Run.Cost (r t : Run es) : Call es → Prop
  | none {c : Call es} : t.vec.capacity = r.vec.capacity →
    copied t.heap.log = copied r.heap.log → moves t.heap.log = moves r.heap.log →
    2 * t.vec.len ≤ 2 * r.vec.len + c.charge → Cost r t c
  | reserve : r.vec.capacity < t.vec.capacity → t.vec.len = r.vec.len →
    copied t.heap.log ≤ es * r.vec.capacity + copied r.heap.log →
    moves t.heap.log = moves r.heap.log + 1 → Cost r t (.reserve t.vec.capacity)
  | push {e : Option (Vector UInt8 es)} : r.vec.len = r.vec.capacity →
    t.vec.len = r.vec.len + 1 → 2 * r.vec.capacity ≤ t.vec.capacity → 1 < t.vec.capacity →
    t.vec.capacity ≤ max minCapacity (2 * r.vec.capacity) →
    copied t.heap.log ≤ es * r.vec.capacity + copied r.heap.log →
    moves t.heap.log = moves r.heap.log + 1 → Cost r t (.push e)

theorem Wf.step_cost {r : Run es} (h : Wf r.vec) (c : Call es) : r.Cost (r.step c) c := by
  cases c with
  | reserve n =>
    rcases hr : r.vec.reserve n r.heap with ⟨rc, v', heap'⟩
    have hstep : r.step (.reserve n) = ⟨v', heap', (.reserve n, .status rc) :: r.history⟩ := by
      unfold Run.step Run.exec
      simp only [hr]
    rw [hstep]
    rcases h.reserve_cost hr with ⟨_, rfl, hcp, hmv⟩ | ⟨hlt, _, rfl, hlen, hcp, hmv⟩
    · exact .none rfl hcp hmv (Nat.le_add_right _ _)
    · exact .reserve hlt hlen hcp hmv
  | push e =>
    rcases hp : r.vec.push e r.heap with ⟨rc, v', heap'⟩
    have hstep : r.step (.push e) = ⟨v', heap', (.push e, .status rc) :: r.history⟩ := by
      unfold Run.step Run.exec
      simp only [hp]
    rw [hstep]
    rcases h.push_cost e hp with ⟨hcap, hcp, hmv, hlen⟩ | ⟨hfull, hlen, hcap, hcp, hmv⟩
    · exact .none hcap hcp hmv (by simp only [Call.charge]; omega)
    · obtain ⟨hdouble, hpos, hmax⟩ := h.grown_bounds
      rw [← hcap] at hdouble hpos hmax
      exact .push hfull hlen hdouble hpos hmax hcp hmv
  | pop out =>
    by_cases hz : r.vec.len = 0
    · have hstep : (r.step (.pop out)).vec = r.vec := by
        unfold Run.step Run.exec
        simp only [pop_empty hz]
      exact .none (by rw [hstep]) rfl rfl (by rw [hstep]; exact Nat.le_add_right _ _)
    · obtain ⟨v', he, _, hel, _, hcap, _⟩ := h.pop hz out
      have hstep : (r.step (.pop out)).vec = v' := by
        unfold Run.step Run.exec
        simp only [he]
      have hlen : v'.len ≤ r.vec.len := by
        rw [← elems_length v', ← elems_length r.vec, hel, List.length_dropLast]
        exact Nat.sub_le _ _
      exact .none (by rw [hstep, hcap]) rfl rfl (by rw [hstep]; omega)
  | atIndex i => exact .none rfl rfl rfl (Nat.le_add_right _ _)
  | len => exact .none rfl rfl rfl (Nat.le_add_right _ _)
  | capacity => exact .none rfl rfl rfl (Nat.le_add_right _ _)
  | isEmpty => exact .none rfl rfl rfl (Nat.le_add_right _ _)
  | clear => exact .none rfl rfl rfl (Nat.zero_le _)

/-- What the run has copied, and what the vector has saved up for its next move. -/
def Run.spent (r : Run es) : ℕ := copied r.heap.log + es * load 2 1 r.vec.len r.vec.capacity

theorem Run.Cost.spent_le {r t : Run es} {c : Call es} (h : r.Cost t c) :
    t.spent ≤ r.spent + es * c.charge := by
  -- a call that moves `n` places and whose charge covers them and what it saves up
  have pay : ∀ n, copied t.heap.log ≤ es * n + copied r.heap.log →
      load 2 1 t.vec.len t.vec.capacity + n ≤ load 2 1 r.vec.len r.vec.capacity + c.charge →
      t.spent ≤ r.spent + es * c.charge := by
    intro n hcp hload
    have hmul := Nat.mul_le_mul_left es hload
    rw [Nat.mul_add, Nat.mul_add] at hmul
    unfold Run.spent
    omega
  cases h with
  | none hcap hcp _ hlen =>
    refine pay 0 (by omega) ?_
    unfold load
    rw [hcap]
    omega
  | reserve hlt hlen hcp _ =>
    refine pay r.vec.capacity hcp ?_
    have hmono : load 2 1 t.vec.len t.vec.capacity ≤ load 2 1 r.vec.len r.vec.capacity :=
      load_mono hlen.le hlt.le
    simp only [Call.charge]
    omega
  | push hfull hlen hdouble _ _ hcp _ =>
    refine pay r.vec.capacity hcp ?_
    have hgrow : load 2 1 (r.vec.len + 1) t.vec.capacity + 1 * r.vec.capacity ≤
        load 2 1 r.vec.len r.vec.capacity + 2 * 1 := load_grow (by omega) hdouble
    rw [hlen]
    simp only [Call.charge]
    omega

/-- A bound on the capacity that each call raises by at most its charge. -/
def Run.peak (r : Run es) : ℕ := max (max r.vec.capacity minCapacity) (2 * r.vec.len)

theorem Run.Cost.peak_le {r t : Run es} {c : Call es} (h : r.Cost t c) :
    t.peak ≤ r.peak + c.charge := by
  unfold Run.peak
  cases h with
  | none hcap _ _ hlen =>
    rw [hcap]
    omega
  | reserve hlt hlen _ _ =>
    rw [hlen]
    simp only [Call.charge]
    omega
  | push hfull hlen _ _ hmax _ _ =>
    simp only [Call.charge]
    omega

/-- The moves made, and those a capacity of at most 63 binary digits has room for. -/
def Run.budget (r : Run es) : ℕ := moves r.heap.log + (63 - Nat.log 2 r.vec.capacity)

theorem Run.Cost.budget_le {r t : Run es} {c : Call es} (h : r.Cost t c)
    (ht : t.vec.capacity < 2 ^ 63) : t.budget ≤ r.budget + if c.reserves then 1 else 0 := by
  have hlog : Nat.log 2 t.vec.capacity < 63 := log_lt_of_lt ht
  unfold Run.budget
  cases h with
  | none hcap _ hmv _ =>
    rw [hcap, hmv]
    omega
  | reserve hlt _ _ hmv =>
    have hmono : Nat.log 2 r.vec.capacity ≤ Nat.log 2 t.vec.capacity := Nat.log_mono_right hlt.le
    simp only [Call.reserves, if_true]
    omega
  | push _ _ hdouble hpos _ _ hmv =>
    have hdigit := log_double hpos hdouble
    simp only [Call.reserves]
    omega

/-- **Pushing is amortised constant time.** Along any run, from any state reached, with an allocator
that may refuse any request, whatever is pushed, popped, cleared or reserved in between: the bytes
carried over by all reallocations are at most those of two elements for each push and those each
`d4np_vector_reserve` names, and what had been saved up at the start; the capacity grows by no more
than that; and the reallocations that no `d4np_vector_reserve` asked for are at most as many as the
capacity gains binary digits. -/
theorem vector_growth_amortized (ha : a.Bounded) {h₀ : Heap} {r t : Run es}
    (h : Reachable (system a es h₀) r) {calls : List (Call es)}
    (hr : (system a es h₀).run r calls = some t) :
    copied t.heap.log ≤ copied r.heap.log +
      es * ((2 * r.vec.len - r.vec.capacity) + (calls.map Call.charge).sum) ∧
    t.vec.capacity ≤
      max (max r.vec.capacity minCapacity) (2 * r.vec.len) + (calls.map Call.charge).sum ∧
    moves t.heap.log + Nat.log 2 r.vec.capacity ≤
      moves r.heap.log + Nat.log 2 t.vec.capacity + calls.countP Call.reserves := by
  have hI := reachable_inv ha h
  have hQ : ∀ (s : Run es) c t, s.Inv a → (system a es h₀).step s c = some t → t.Inv a := by
    intro s c t hs hst
    cases hst
    exact hs.step ha c
  have hcost : ∀ (s : Run es) c t, s.Inv a → (system a es h₀).step s c = some t → s.Cost t c := by
    intro s c t hs hst
    cases hst
    exact hs.wf.step_cost c
  refine ⟨?_, ?_, ?_⟩
  · have hle := System.gain_le (Φ := Run.spent) (g := fun c => es * c.charge) hQ
      (fun s c t hs hst => (hcost s c t hs hst).spent_le) hI hr
    rw [List.sum_map_mul_left] at hle
    unfold Run.spent load at hle
    rw [Nat.one_mul, Nat.one_mul] at hle
    rw [Nat.mul_add]
    omega
  · have hle := System.gain_le (Φ := Run.peak) hQ
      (fun s c t hs hst => (hcost s c t hs hst).peak_le) hI hr
    unfold Run.peak at hle
    omega
  · have hle := System.gain_le (Φ := Run.budget) (g := fun c => if c.reserves then 1 else 0) hQ
      (fun s c t hs hst => (hcost s c t hs hst).budget_le (hQ s c t hs hst).wf.capacity_lt) hI hr
    have ht := log_lt_of_lt (System.run_induct hQ hI hr).wf.capacity_lt
    have hr := log_lt_of_lt hI.wf.capacity_lt
    rw [sum_ite_eq] at hle
    unfold Run.budget at hle
    omega

/-- Nine pushes: the block of eight places is moved once. -/
theorem vector_growth_amortized_nine_pushes :
    ∃ r t : Run 2, Reachable (system pageAllocator 2 ⟨0, []⟩) r ∧
      (system pageAllocator 2 ⟨0, []⟩).run r (List.replicate 9 (.push (some #v[1, 2]))) = some t ∧
      copied t.heap.log = 16 ∧ copied t.heap.log ≤ 36 := by
  have hr : Reachable (system pageAllocator 2 ⟨0, []⟩)
      ⟨⟨pageAllocator, none, fun _ => 0, 0, 0⟩, ⟨0, []⟩, []⟩ :=
    .init ⟨0, .ok, by norm_num, rfl, rfl⟩
  obtain ⟨t, ht⟩ : ∃ t, (system pageAllocator 2 ⟨0, []⟩).run
      ⟨⟨pageAllocator, none, fun _ => 0, 0, 0⟩, ⟨0, []⟩, []⟩
      (List.replicate 9 (.push (some #v[1, 2]))) = some t := ⟨_, rfl⟩
  have hcopied : copied t.heap.log = 16 := by
    obtain rfl := Option.some.inj ht
    rfl
  exact ⟨_, t, hr, ht, hcopied, (vector_growth_amortized pageAllocator_bounded hr ht).1⟩

end Vec

/-! ## The string builder -/

namespace StringBuilder

variable {sb sb' : StringBuilder} {heap heap' : Heap}

/-- What a call pays for: two bytes for each byte appended, and twice the capacity it asks for. -/
def Call.charge : Call → ℕ
  | .reserve minCapacity => 2 * minCapacity
  | c => 2 * c.appended.length

/-- The loop doubles a capacity that is too small, and ends below twice what is needed. -/
theorem growLoop_bounds (needed : ℕ) :
    ∀ fuel cap, cap ≤ growLoop needed fuel cap ∧
      growLoop needed fuel cap ≤ max cap (2 * needed) := by
  intro fuel
  induction fuel with
  | zero =>
    intro cap
    exact ⟨le_refl _, le_max_left _ _⟩
  | succ fuel ih =>
    intro cap
    unfold growLoop
    split_ifs with hlt hbig
    · omega
    · unfold sizeMax Word64.maxWord at hbig
      rw [wrap_of_lt (by omega)]
      obtain ⟨hge, hle⟩ := ih (cap * 2)
      omega
    · omega

theorem Wf.newcap_bounds (h : Wf sb) {needed : ℕ} (hlt : sb.capacity < needed) :
    2 * sb.capacity ≤ sb.newcap needed ∧ 1 < sb.newcap needed ∧
      sb.newcap needed ≤ max minCapacity (2 * needed) := by
  have hfit := h.fits
  unfold newcap minCapacity
  split_ifs with hz
  · obtain ⟨hge, hle⟩ := growLoop_bounds needed 64 16
    omega
  · -- the first round doubles the capacity there is
    have hround : growLoop needed 64 sb.capacity = growLoop needed 63 (sb.capacity * 2) := by
      rw [growLoop, if_pos hlt, if_neg (by unfold sizeMax Word64.maxWord; omega),
        wrap_of_lt (by omega)]
    obtain ⟨hge, hle⟩ := growLoop_bounds needed 63 (sb.capacity * 2)
    omega

/-- What a call that takes in `k` bytes and needs room for `needed` costs: it moves nothing, or it
moves the buffer because that is too small, and then doubles it. -/
inductive Cost (sb : StringBuilder) (heap : Heap) (sb' : StringBuilder) (heap' : Heap)
    (k needed : ℕ) : Prop
  | none : sb'.capacity = sb.capacity → copied heap'.log = copied heap.log →
    moves heap'.log = moves heap.log → sb'.len ≤ sb.len + k → Cost sb heap sb' heap' k needed
  | grow : sb.capacity < needed → sb'.len ≤ sb.len + k → 2 * sb.capacity ≤ sb'.capacity →
    1 < sb'.capacity → sb'.capacity ≤ max minCapacity (2 * needed) →
    copied heap'.log ≤ sb.capacity + copied heap.log → moves heap'.log = moves heap.log + 1 →
    Cost sb heap sb' heap' k needed

theorem Wf.ensure_cost (h : Wf sb) {needed : ℕ} {rc : Status}
    (he : sb.ensure needed heap = (rc, sb', heap')) : Cost sb heap sb' heap' 0 needed := by
  rcases ensure_cases sb needed heap with ⟨_, hr⟩ | hr | ⟨b, hlt, _, hr⟩
  · cases he.symm.trans hr
    exact .none rfl rfl rfl (le_refl _)
  · cases he.symm.trans hr
    exact .none rfl (copied_realloc_refused ..) rfl (le_refl _)
  · cases he.symm.trans hr
    obtain ⟨hdouble, hpos, hmax⟩ := h.newcap_bounds hlt
    exact .grow hlt (le_refl _) hdouble hpos hmax (copied_realloc_le ..) rfl

theorem Cost.andThen {sb'' : StringBuilder} {k needed : ℕ} (h : Cost sb heap sb' heap' 0 needed)
    (hcap : sb''.capacity = sb'.capacity) (hlen : sb''.len ≤ sb'.len + k) :
    Cost sb heap sb'' heap' k needed := by
  cases h with
  | none hc hcp hmv hl => exact .none (hcap.trans hc) hcp hmv (by omega)
  | grow hlt hl hdouble hpos hmax hcp hmv =>
    rw [← hcap] at hdouble hpos hmax
    exact .grow hlt (by omega) hdouble hpos hmax hcp hmv

/-- A call that writes into the buffer where it was granted the room. -/
theorem Wf.ensure_then_cost (h : Wf sb) {k : ℕ} (needed : ℕ) (f : StringBuilder → StringBuilder)
    (hcap : ∀ sb, (f sb).capacity = sb.capacity) (hlen : ∀ sb, (f sb).len ≤ sb.len + k) :
    Cost sb heap (match sb.ensure needed heap with
      | (.ok, sb, h) => ((.ok, f sb, h) : Status × StringBuilder × Heap)
      | (rc, sb, h) => (rc, sb, h)).2.1
    (match sb.ensure needed heap with
      | (.ok, sb, h) => ((.ok, f sb, h) : Status × StringBuilder × Heap)
      | (rc, sb, h) => (rc, sb, h)).2.2 k needed := by
  rcases he : sb.ensure needed heap with ⟨rc, sb', heap'⟩
  have hcost := h.ensure_cost he
  cases rc with
  | ok => exact hcost.andThen (hcap sb') (hlen sb')
  | _ => exact hcost.andThen rfl (Nat.le_add_right _ _)

theorem write_len_le (sb : StringBuilder) (l : List UInt8) : (sb.write l).len ≤ sb.len + l.length :=
  Nat.mod_le _ _

theorem Wf.appendView_cost (h : Wf sb) (view : List UInt8) (heap : Heap) :
    ∃ needed ≤ sb.len + view.length + 1, Cost sb heap (sb.appendView view heap).2.1
      (sb.appendView view heap).2.2 view.length needed := by
  unfold StringBuilder.appendView
  split_ifs
  · refine ⟨_, ?_, h.ensure_then_cost _ (fun sb => sb.terminate sb.len) (fun _ => rfl)
      fun _ => Nat.le_add_right _ _⟩
    exact (Nat.mod_le _ _).trans (by omega)
  · exact ⟨0, Nat.zero_le _, .none rfl rfl rfl (Nat.le_add_right _ _)⟩
  · refine ⟨_, ?_, h.ensure_then_cost _ (fun sb => sb.write view) (fun _ => rfl)
      fun sb => write_len_le sb view⟩
    exact (Nat.mod_le _ _).trans (Nat.add_le_add_right (Nat.mod_le _ _) 1)

theorem clear_size (sb : StringBuilder) : sb.clear.capacity = sb.capacity ∧ sb.clear.len = 0 := by
  unfold StringBuilder.clear
  by_cases hd : sb.data = none
  · rw [if_neg (not_not.mpr hd)]
    exact ⟨rfl, rfl⟩
  · rw [if_pos hd]
    exact ⟨rfl, rfl⟩

/-- **What a call costs**: its charge covers what it takes in and the room it needs. -/
theorem Wf.step_cost {r : Run} (h : Wf r.sb) (c : Call) :
    ∃ k needed, 2 * k ≤ c.charge ∧ 2 * needed ≤ 2 * (r.sb.len + 1) + c.charge ∧
      Cost r.sb r.heap (r.step c).sb (r.step c).heap k needed := by
  cases c with
  | reserve n =>
    refine ⟨0, n, Nat.zero_le _, by simp only [Call.charge]; omega, ?_⟩
    rcases he : r.sb.ensure n r.heap with ⟨rc, sb', heap'⟩
    have hcost := h.ensure_cost he
    show Cost r.sb r.heap (r.sb.reserve n r.heap).2.1 (r.sb.reserve n r.heap).2.2 0 n
    unfold StringBuilder.reserve
    simp only [he]
    split_ifs
    · exact hcost.andThen rfl (le_refl _)
    · exact hcost
  | append cstr =>
    obtain ⟨needed, hle, hcost⟩ := h.appendView_cost (viewFromStr cstr) r.heap
    exact ⟨_, needed, le_refl _, by simp only [Call.charge, Call.appended]; omega, hcost⟩
  | appendView view =>
    obtain ⟨needed, hle, hcost⟩ := h.appendView_cost view r.heap
    exact ⟨_, needed, le_refl _, by simp only [Call.charge, Call.appended]; omega, hcost⟩
  | appendChar b =>
    refine ⟨1, _, le_refl _, ?_, h.ensure_then_cost _ (fun sb => sb.write [b]) (fun _ => rfl)
      fun sb => write_len_le sb [b]⟩
    have hle : wrap (r.sb.len + 2) ≤ r.sb.len + 2 := Nat.mod_le _ _
    simp only [Call.charge, Call.appended, List.length_singleton]
    omega
  | len => exact ⟨0, 0, Nat.zero_le _, Nat.zero_le _, .none rfl rfl rfl (le_refl _)⟩
  | clear =>
    obtain ⟨hcap, hlen⟩ := clear_size r.sb
    exact ⟨0, 0, Nat.zero_le _, Nat.zero_le _, .none hcap rfl rfl (hlen.trans_le (Nat.zero_le _))⟩

/-- What the run has copied, and what the builder has saved up for its next move. -/
def Run.spent (r : Run) : ℕ := copied r.heap.log + load 2 1 (r.sb.len + 1) r.sb.capacity

/-- A bound on the capacity that each call raises by at most its charge. -/
def Run.peak (r : Run) : ℕ := max (max r.sb.capacity minCapacity) (2 * (r.sb.len + 1))

/-- The moves made, and those a capacity of at most 63 binary digits has room for. -/
def Run.budget (r : Run) : ℕ := moves r.heap.log + (63 - Nat.log 2 r.sb.capacity)

theorem Cost.potentials {r t : Run} {g k needed : ℕ} (h : Cost r.sb r.heap t.sb t.heap k needed)
    (hk : 2 * k ≤ g) (hneeded : 2 * needed ≤ 2 * (r.sb.len + 1) + g)
    (ht : t.sb.capacity < 2 ^ 63) :
    t.spent ≤ r.spent + g ∧ t.peak ≤ r.peak + g ∧ t.budget ≤ r.budget := by
  have hlog := log_lt_of_lt ht
  unfold Run.spent Run.peak Run.budget load
  cases h with
  | none hcap hcp hmv hlen =>
    rw [hcap, hcp, hmv]
    omega
  | grow hlt hlen hdouble hpos hmax hcp hmv =>
    have hdigit := log_double hpos hdouble
    omega

/-- **Appending is amortised constant time for each byte.** Along any run, from any state reached,
with an allocator that may refuse any request: the bytes carried over by all reallocations are at
most twice the bytes appended and twice the capacities `d4np_sb_reserve` names, and what had been
saved up at the start; the capacity grows by no more than that; and the reallocations are at most as
many as the capacity gains binary digits. -/
theorem stringBuilder_growth_amortized (ha : a.Bounded) {h₀ : Heap} {r t : Run}
    (h : Reachable (system a h₀) r) {calls : List Call}
    (hr : (system a h₀).run r calls = some t) :
    copied t.heap.log ≤ copied r.heap.log + (2 * (r.sb.len + 1) - r.sb.capacity) +
      (calls.map Call.charge).sum ∧
    t.sb.capacity ≤ max (max r.sb.capacity minCapacity) (2 * (r.sb.len + 1)) +
      (calls.map Call.charge).sum ∧
    moves t.heap.log + Nat.log 2 r.sb.capacity ≤ moves r.heap.log + Nat.log 2 t.sb.capacity := by
  have hI := reachable_inv ha h
  have hQ : ∀ s c t, s.Inv a → (system a h₀).step s c = some t → t.Inv a := by
    intro s c t hs hst
    cases hst
    exact hs.step ha c
  have hcost : ∀ s c t, s.Inv a → (system a h₀).step s c = some t →
      t.spent ≤ s.spent + c.charge ∧ t.peak ≤ s.peak + c.charge ∧ t.budget ≤ s.budget := by
    intro s c t hs hst
    have ht := (hQ s c t hs hst).wf.fits
    cases hst
    obtain ⟨k, needed, hk, hneeded, hc⟩ := hs.wf.step_cost c
    exact hc.potentials hk hneeded ht
  refine ⟨?_, ?_, ?_⟩
  · have hle := System.gain_le (Φ := Run.spent) hQ
      (fun s c t hs hst => (hcost s c t hs hst).1) hI hr
    unfold Run.spent load at hle
    omega
  · have hle := System.gain_le (Φ := Run.peak) hQ
      (fun s c t hs hst => (hcost s c t hs hst).2.1) hI hr
    unfold Run.peak at hle
    omega
  · have hle := System.gain_le (Φ := Run.budget) (g := fun _ => 0) hQ
      (fun s c t hs hst => (hcost s c t hs hst).2.2) hI hr
    have ht := log_lt_of_lt (System.run_induct hQ hI hr).wf.fits
    have hr := log_lt_of_lt hI.wf.fits
    unfold Run.budget at hle
    simp only [List.map_const', List.sum_replicate, smul_zero] at hle
    omega

/-- Sixteen bytes and one more: the buffer of sixteen bytes is moved with the first append, which
needs room for the terminator. -/
theorem stringBuilder_growth_amortized_two_appends :
    ∃ r t, Reachable (system pageAllocator ⟨0, []⟩) r ∧
      (system pageAllocator ⟨0, []⟩).run r
        [.reserve 16, .appendView (List.replicate 16 97), .appendChar 98] = some t ∧
      copied t.heap.log = 16 ∧ copied t.heap.log ≤ 68 := by
  have hr : Reachable (system pageAllocator ⟨0, []⟩) ⟨lazy pageAllocator, ⟨0, []⟩, []⟩ :=
    .init ⟨0, .ok, by norm_num, rfl, rfl⟩
  obtain ⟨t, ht⟩ : ∃ t, (system pageAllocator ⟨0, []⟩).run ⟨lazy pageAllocator, ⟨0, []⟩, []⟩
      [.reserve 16, .appendView (List.replicate 16 97), .appendChar 98] = some t := ⟨_, rfl⟩
  have hcopied : copied t.heap.log = 16 := by
    obtain rfl := Option.some.inj ht
    rfl
  exact ⟨_, t, hr, ht, hcopied, (stringBuilder_growth_amortized pageAllocator_bounded hr ht).1⟩

end StringBuilder

/-! ## The hash map -/

namespace Hashmap

variable {ks vs : ℕ} {m : Hashmap ks vs} {hash : Option (HashFn ks)} {keyEq : Option (KeyEqFn ks)}

/-- The slots in use: those a search has to pass. -/
def used (m : Hashmap ks vs) : ℕ := m.len + m.tombstones

/-- The slots a call visits to resize the table: those of the old one, which it scans, and those of
the new one, which it clears.  A call resizes the table if and only if it changes the capacity. -/
def Run.rehashed (r : Run ks vs) (c : Call ks vs) : ℕ :=
  if (r.step c).map.capacity = r.map.capacity then 0
  else r.map.capacity + (r.step c).map.capacity

/-- The calls that may take a slot. -/
def Call.puts : Call ks vs → Bool
  | .put _ _ => true
  | _ => false

theorem Live.insert_used (h : Live m) (hroom : 4 * (m.len + m.tombstones + 1) < 3 * m.capacity)
    (key : Vector UInt8 ks) (value : Vector UInt8 vs) :
    (m.insert key value).used ≤ m.used + 1 := by
  have hcap := h.capacity_le
  have hload := (h.insert hroom key value).load
  rw [(insert_sameTable m key value).capacity_eq] at hload
  unfold used
  rcases h.insert_cases key value with ⟨d, i, _, he⟩ | ⟨d, i, _, he⟩
  · rw [he]
    exact Nat.le_add_right _ _
  · rw [he] at hload ⊢
    have hwrap : wrap (m.len + 1) = m.len + 1 := wrap_of_lt (by omega)
    -- the counter of tombstones has not gone below zero, or the new table would be overloaded
    simp only [hwrap] at hload ⊢
    split_ifs at hload ⊢
    · unfold sub at hload ⊢
      omega
    · omega

theorem Wf.remove_used (h : Wf m) (key : Option (Vector UInt8 ks)) :
    (m.remove key).2.used ≤ m.used := by
  have hload := (h.remove key).load_exact.2
  unfold used
  rcases key with _ | key
  · exact le_refl _
  by_cases hc : m.capacity = 0
  · simp only [Hashmap.remove, if_pos hc]
    exact le_refl _
  rcases (h.live hc).remove_cases key with ⟨d, i, _, he⟩ | ⟨d, i, _, he⟩
  · rw [he] at hload ⊢
    have hlen := h.load_exact.2
    simp only at hload ⊢
    unfold sub wrap at hload ⊢
    omega
  · rw [he]

theorem clear_used (m : Hashmap ks vs) : m.clear.used ≤ m.used := by
  unfold Hashmap.clear
  split_ifs
  · exact le_refl _
  · exact Nat.zero_le _

/-- What a put does to the load: it takes at most one slot, and resizes a table that is too full. -/
theorem Wf.put_used (h : Wf m) (key : Option (Vector UInt8 ks)) (value : Option (Vector UInt8 vs))
    (heap : Heap) :
    (m.putBytes key value heap).2.1.used ≤ m.used + 1 ∧
    ((m.putBytes key value heap).2.1.capacity = m.capacity ∨
      (m.needsGrowth ∧ (m.putBytes key value heap).2.1.capacity = m.grown)) := by
  refine ⟨?_, (put_capacity m key value heap).imp_right fun hg => ⟨hg.2.2.1, hg.2.2.2⟩⟩
  rcases key with _ | key
  · exact Nat.le_add_right _ _
  rcases value with _ | value
  · exact Nat.le_add_right _ _
  by_cases hg : m.needsGrowth
  · simp only [Hashmap.putBytes, if_pos hg]
    rcases resize_cases m m.grown heap with ⟨rc, h', hrc, he⟩ | ⟨_, _, nc, nk, nv, h', he⟩
    · rw [he]
      cases rc <;> first | exact absurd rfl hrc | exact Nat.le_add_right _ _
    · rw [he]
      have hP := h.prepared_resize he
      obtain ⟨c, k, v, hframe⟩ := rehash_frame m (m.withTable m.grown nc nk nv) m.capacity
      refine (hP.toLive.insert_used hP.room key value).trans (Nat.add_le_add_right ?_ 1)
      rw [hframe]
      exact Nat.le_add_right _ _
  · simp only [Hashmap.putBytes, if_neg hg]
    have hP := h.prepared_self hg
    exact hP.toLive.insert_used hP.room key value

/-- What a call does to the load. -/
theorem Wf.step_used {r : Run ks vs} (h : Wf r.map) (c : Call ks vs) :
    (r.step c).map.used ≤ r.map.used + (if c.puts then 1 else 0) ∧
    ((r.step c).map.capacity = r.map.capacity ∨
      (c.puts ∧ r.map.needsGrowth ∧ (r.step c).map.capacity = r.map.grown)) := by
  cases c with
  | put key value =>
    obtain ⟨hused, hcap⟩ := h.put_used key value r.heap
    exact ⟨hused, hcap.imp_right fun hg => ⟨rfl, hg⟩⟩
  | get key => exact ⟨le_refl _, Or.inl rfl⟩
  | contains key => exact ⟨le_refl _, Or.inl rfl⟩
  | remove key => exact ⟨h.remove_used key, Or.inl (remove_sameTable _ _).capacity_eq⟩
  | len => exact ⟨le_refl _, Or.inl rfl⟩
  | clear => exact ⟨clear_used r.map, Or.inl (clear_sameTable _).capacity_eq⟩

/-- What the table has saved up for its next resize. -/
def Run.saved (r : Run ks vs) : ℕ := load 8 3 r.map.used r.map.capacity

/-- A bound on three times the capacity that each put raises by at most eight. -/
def Run.peak (r : Run ks vs) : ℕ :=
  max (max (3 * r.map.capacity) (3 * minCapacity)) (8 * r.map.used)

theorem Wf.grown_of_pos (h : Wf m) (hpos : m.capacity ≠ 0) : m.grown = 2 * m.capacity := by
  have := h.load_exact.1
  unfold grown
  rw [if_neg hpos, wrap_of_lt (by omega), Nat.mul_comm]

theorem Wf.lazy_used (h : Wf m) (hz : m.capacity = 0) : m.used = 0 ∧ m.grown = minCapacity := by
  rcases h with h | h
  · unfold used grown
    rw [if_pos hz, h.len_eq, h.tombstones_eq]
    exact ⟨rfl, rfl⟩
  · have := h.eight_le
    omega

theorem Wf.step_potentials {r : Run ks vs} (h : Wf r.map) (c : Call ks vs) :
    (r.step c).saved + r.rehashed c ≤ r.saved + (if c.puts then 8 else 0) ∧
    (r.step c).peak ≤ r.peak + (if c.puts then 8 else 0) := by
  obtain ⟨hused, hcap | ⟨hputs, hg, hcap⟩⟩ := h.step_used c
  · unfold Run.saved Run.rehashed Run.peak load
    rw [if_pos hcap, hcap]
    split_ifs at hused ⊢ <;> omega
  · have hfull := h.needsGrowth_iff.mp hg
    rw [if_pos hputs] at hused ⊢
    unfold Run.saved Run.rehashed Run.peak
    rw [hcap]
    by_cases hz : r.map.capacity = 0
    · -- the first table
      obtain ⟨hu, hgrown⟩ := h.lazy_used hz
      rw [hgrown, hz]
      unfold load minCapacity
      rw [if_neg (by norm_num)]
      omega
    · rw [h.grown_of_pos hz, if_neg (by omega)]
      have hgrow : load 8 3 (r.map.used + 1) (2 * r.map.capacity) + 3 * r.map.capacity ≤
          load 8 3 r.map.used r.map.capacity + 8 * 1 :=
        load_grow (by unfold used; omega) (le_refl _)
      have hmono : load 8 3 (r.step c).map.used (2 * r.map.capacity) ≤
          load 8 3 (r.map.used + 1) (2 * r.map.capacity) := load_mono hused (le_refl _)
      unfold used at hused hgrow hmono ⊢
      omega

/-- **A put is amortised constant time, apart from its search.** Along any run, from any state
reached, with an allocator that may refuse any request, whatever is removed or cleared in between:
all resizes together scan and clear at most eight slots for each put, and what the table had saved
up at the start; and three times the capacity grows by no more than that. -/
theorem hashmap_growth_amortized (hks : ks ≤ sizeMax - maxAlign) (hvs : vs ≤ sizeMax - maxAlign)
    {r t : Run ks vs} (h : Reachable (system ks vs a hash keyEq) r) {calls : List (Call ks vs)}
    (hr : (system ks vs a hash keyEq).run r calls = some t) :
    (system ks vs a hash keyEq).work Run.rehashed r calls ≤
      (8 * (r.map.len + r.map.tombstones) - 3 * r.map.capacity) + 8 * calls.countP Call.puts ∧
    3 * t.map.capacity ≤ max (max (3 * r.map.capacity) (3 * minCapacity))
      (8 * (r.map.len + r.map.tombstones)) + 8 * calls.countP Call.puts := by
  have hI := reachable_inv hks hvs h
  have hQ : ∀ (s : Run ks vs) c t, s.Inv hash keyEq →
      (system ks vs a hash keyEq).step s c = some t → t.Inv hash keyEq := by
    intro s c t hs hst
    cases hst
    exact hs.step c
  have hstep : ∀ (s : Run ks vs) c t, s.Inv hash keyEq →
      (system ks vs a hash keyEq).step s c = some t →
      t.saved + s.rehashed c ≤ s.saved + (if c.puts then 8 else 0) ∧
      t.peak ≤ s.peak + (if c.puts then 8 else 0) := by
    intro s c t hs hst
    cases hst
    exact hs.wf.step_potentials c
  refine ⟨?_, ?_⟩
  · have hle := System.work_le (Φ := Run.saved) hQ
      (fun s c t hs hst => (hstep s c t hs hst).1) hI hr
    rw [sum_ite_eq] at hle
    unfold Run.saved load used at hle
    omega
  · have hle := System.gain_le (Φ := Run.peak) hQ (fun s c t hs hst => (hstep s c t hs hst).2) hI hr
    rw [sum_ite_eq] at hle
    unfold Run.peak used at hle
    omega

/-- Six puts, with removals between them and a growth that finds two tombstones: at most 48 slots
are scanned and cleared. -/
theorem hashmap_growth_amortized_churn :
    ∃ r t, Reachable (system 1 1 pageAllocator none none) r ∧
      (system 1 1 pageAllocator none none).run r churn = some t ∧ t.map.capacity = 16 ∧
      (system 1 1 pageAllocator none none).work Run.rehashed r churn ≤ 48 := by
  have hr : Reachable (system 1 1 pageAllocator none none)
      ⟨lazyMap pageAllocator none none, ⟨0, []⟩, []⟩ :=
    .init ⟨0, ⟨0, []⟩, .ok, by norm_num, rfl, rfl⟩
  obtain ⟨t, ht, he⟩ := Option.map_eq_some_iff.mp churn_run
  exact ⟨_, t, hr, ht, (Prod.mk.inj he).1,
    (hashmap_growth_amortized (by decide) (by decide) hr ht).1⟩

end Hashmap

end D4np
