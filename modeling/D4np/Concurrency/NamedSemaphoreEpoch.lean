import D4np.Concurrency.NamedSemaphore

/-!
# Which semaphore a key names

The header says that the same bare key names the same semaphore in every process.  It does so until
the key is unlinked: a handle is attached to a key and to the number of times the key had been
unlinked when the handle was opened (`attached`), and such a pair names one counter (`permits`),
which can be read off the history of the calls.
-/

namespace D4np

open PosixSem TransitionSystem

namespace NamedSemaphore

/-! ## What the history says -/

/-- A key, and how often it had been unlinked. -/
abbrev Epoch := List UInt8 × ℕ

/-- The call took the key of the name away. -/
def unlinks (name : List UInt8) : Call × Outcome → Bool
  | (.unlink (some name'), .status .ok) => decide (key name' = key name)
  | _ => false

/-- The epoch a name is in after the calls of a history. -/
def epoch (name : List UInt8) (history : List (Call × Outcome)) : Epoch :=
  (key name, history.countP (unlinks name))

/-- What a handle is attached to. -/
def attached (s : ℕ) : List (Call × Outcome) → Option Epoch
  | [] => none
  | (.openSem (some s') (some name) _, .status .ok) :: history =>
    if s = s' then some (epoch name history) else attached s history
  | (.close (some s'), _) :: history => if s = s' then none else attached s history
  | _ :: history => attached s history

/-- The permits of an epoch: those it was first opened with, one more for each post through a handle
attached to it, up to the maximum, and one less for each wait that returned and each try that
succeeded. -/
def permits (x : Epoch) : List (Call × Outcome) → Option ℕ
  | [] => none
  | (.openSem (some _) (some name) initialCount, .status .ok) :: history =>
    if epoch name history = x then some ((permits x history).getD initialCount)
    else permits x history
  | (.post s, _) :: history =>
    if attached s history = some x then (permits x history).map fun v => min (v + 1) semValueMax
    else permits x history
  | (.wait s, _) :: history | (.trywait (some s), .bool true) :: history =>
    if attached s history = some x then (permits x history).map (· - 1) else permits x history
  | _ :: history => permits x history

/-- The epochs in which a key was opened, in the order of their first opening. -/
def born : List (Call × Outcome) → List Epoch
  | [] => []
  | (.openSem (some _) (some name) _, .status .ok) :: history =>
    if epoch name history ∈ born history then born history
    else born history ++ [epoch name history]
  | _ :: history => born history

variable {n : ℕ}

/-- The system holds what the history says: its semaphores are the epochs born, with their permits,
a name leads to the one of its current epoch, and a handle holds the one it is attached to. -/
structure Run.Inv (r : Run n) : Prop where
  nodup : (born r.history).Nodup
  alive : ∀ x, permits x r.history ≠ none ↔ x ∈ born r.history
  names : ∀ name i, r.kernel.names (key name) = some i ↔
    (born r.history)[i]? = some (epoch name r.history)
  values : r.kernel.values = (born r.history).map fun x => (permits x r.history).getD 0
  sem : ∀ s, attached s r.history = (r.sem s).bind fun i => (born r.history)[i]?
  held : ∀ s i, r.sem s = some i → i < (born r.history).length
  busy : ∀ t s, (r.pc t).uses s = true → r.sem s ≠ none
  bounded : ∀ x v, permits x r.history = some v → v ≤ semValueMax

/-! ## What a call adds to the history -/

section History

variable {h : List (Call × Outcome)}

/-- The entry of a call that changed nothing. -/
inductive Neutral : Call × Outcome → Prop
  | openSem {s : Option ℕ} {name : Option (List UInt8)} {c : ℕ} {rc : Status} :
    (rc = .ok → s = none ∨ name = none) → Neutral (.openSem s name c, .status rc)
  | close : Neutral (.close none, .done)
  | unlink {name : Option (List UInt8)} {rc : Status} :
    (rc = .ok → name = none) → Neutral (.unlink name, .status rc)
  | trywait {s : Option ℕ} : Neutral (.trywait s, .bool false)

/-- The history of a call that changed nothing says what the history before it said. -/
theorem Neutral.same {e : Call × Outcome} (he : Neutral e) (h : List (Call × Outcome)) :
    (∀ name, epoch name (e :: h) = epoch name h) ∧ (∀ s, attached s (e :: h) = attached s h) ∧
      (∀ x, permits x (e :: h) = permits x h) ∧ born (e :: h) = born h := by
  have hepoch : (∀ name, unlinks name e = false) → ∀ name, epoch name (e :: h) = epoch name h := by
    intro hu name
    unfold epoch
    rw [List.countP_cons, hu name]
    rfl
  cases he with
  | openSem hrc =>
    rename_i s name c rc
    refine ⟨hepoch fun _ => rfl, ?_⟩
    rcases s with _ | s
    · exact ⟨fun _ => rfl, fun _ => rfl, rfl⟩
    rcases name with _ | name
    · exact ⟨fun _ => rfl, fun _ => rfl, rfl⟩
    cases rc <;> first | exact ⟨fun _ => rfl, fun _ => rfl, rfl⟩ | simp at hrc
  | close => exact ⟨hepoch fun _ => rfl, fun _ => rfl, fun _ => rfl, rfl⟩
  | unlink hrc =>
    rename_i name rc
    refine ⟨hepoch fun _ => ?_, fun _ => rfl, fun _ => rfl, rfl⟩
    rcases name with _ | name
    · rfl
    cases rc <;> first | rfl | simp at hrc
  | trywait =>
    rename_i s
    rcases s with _ | s
    · exact ⟨hepoch fun _ => rfl, fun _ => rfl, fun _ => rfl, rfl⟩
    · exact ⟨hepoch fun _ => rfl, fun _ => rfl, fun _ => rfl, rfl⟩

/-- The entry of a call that took a permit through the handle `s`. -/
inductive Takes (s : ℕ) : Call × Outcome → Prop
  | wait : Takes s (.wait s, .done)
  | trywait : Takes s (.trywait (some s), .bool true)

/-- The entry of a call that changed the permits behind the handle `s`, and how. -/
inductive Counts (s : ℕ) : (ℕ → ℕ) → Call × Outcome → Prop
  | post : Counts s (fun v => min (v + 1) semValueMax) (.post s, .done)
  | take {e : Call × Outcome} : Takes s e → Counts s (· - 1) e

theorem Counts.same {s : ℕ} {f : ℕ → ℕ} {e : Call × Outcome} (he : Counts s f e)
    (h : List (Call × Outcome)) :
    (∀ name, epoch name (e :: h) = epoch name h) ∧ (∀ s, attached s (e :: h) = attached s h) ∧
      born (e :: h) = born h ∧
      ∀ x, permits x (e :: h) =
        if attached s h = some x then (permits x h).map f else permits x h := by
  rcases he with _ | _ | _ <;> exact ⟨fun _ => rfl, fun _ => rfl, rfl, fun _ => rfl⟩

theorem epoch_unlink (name name' : List UInt8) (h : List (Call × Outcome)) :
    epoch name' ((.unlink (some name), .status .ok) :: h) =
      if key name = key name' then (key name', (epoch name' h).2 + 1) else epoch name' h := by
  unfold epoch
  rw [List.countP_cons]
  show (key name', _ + if decide (key name = key name') = true then 1 else 0) = _
  split_ifs with hd hk hk
  · rfl
  · exact absurd (of_decide_eq_true hd) hk
  · exact absurd (decide_eq_true hk) hd
  · rfl

theorem epoch_congr {name name' : List UInt8} (hk : key name = key name')
    (h : List (Call × Outcome)) : epoch name h = epoch name' h := by
  have hu : unlinks name = unlinks name' := by
    funext e
    unfold unlinks
    rw [hk]
  unfold epoch
  rw [hk, hu]

/-- A call opens at most one epoch, and that is the current one of a name. -/
theorem born_cons (e : Call × Outcome) (h : List (Call × Outcome)) :
    born (e :: h) = born h ∨ ∃ name, born (e :: h) = born h ++ [epoch name h] := by
  generalize hb : born (e :: h) = l
  unfold born at hb
  split at hb
  · rename_i heq
    cases heq
  · rename_i heq
    obtain ⟨_, rfl⟩ := List.cons.inj heq
    split_ifs at hb
    · exact Or.inl hb.symm
    · exact Or.inr ⟨_, hb.symm⟩
  · rename_i heq
    obtain ⟨_, rfl⟩ := List.cons.inj heq
    exact Or.inl hb.symm

/-- The epochs born are not ahead of the current ones. -/
theorem born_le {x : Epoch} (hx : x ∈ born h) {name : List UInt8} (hk : x.1 = key name) :
    x.2 ≤ (epoch name h).2 := by
  induction h with
  | nil => exact absurd hx List.not_mem_nil
  | cons e h ih =>
    have hmono : (epoch name h).2 ≤ (epoch name (e :: h)).2 := by
      unfold epoch
      rw [List.countP_cons]
      exact Nat.le_add_right _ _
    rcases born_cons e h with hb | ⟨name', hb⟩
    · rw [hb] at hx
      exact (ih hx).trans hmono
    · rw [hb] at hx
      rcases List.mem_append.mp hx with hx | hx
      · exact (ih hx).trans hmono
      · rw [List.mem_singleton] at hx
        subst hx
        rw [epoch_congr hk h]
        exact hmono

end History

/-! ## Steps -/

/-- The threads are where they were, or inside a call on an open handle. -/
def Run.Enters (r : Run n) (pc : Fin n → Pc) : Prop :=
  ∀ t s, (pc t).uses s = true → (r.pc t).uses s = true ∨ r.sem s ≠ none

/-- What a step can do. -/
inductive Run.Step (r : Run n) : Run n → Prop
  /-- A thread enters a call, or goes round again. -/
  | pc {pc : Fin n → Pc} : r.Enters pc → Step r { r with pc := pc }
  /-- A call returns that changed nothing. -/
  | neutral {e : Call × Outcome} {pc : Fin n → Pc} : Neutral e → r.Enters pc →
    Step r { r with history := e :: r.history, pc := pc }
  | openSem (s : ℕ) (name : List UInt8) {c : ℕ} : c ≤ semValueMax →
    Step r { r with
      kernel := (r.kernel.attach (key name) c).2
      sem := Function.update r.sem s (some (r.kernel.attach (key name) c).1)
      history := (.openSem (some s) (some name) c, .status .ok) :: r.history }
  | close {s : ℕ} : r.Unused s →
    Step r { r with
      sem := Function.update r.sem s none
      history := (.close (some s), .done) :: r.history }
  | unlink (name : List UInt8) :
    Step r { r with
      kernel := { r.kernel with names := Function.update r.kernel.names (key name) none }
      history := (.unlink (some name), .status .ok) :: r.history }
  | post {s i : ℕ} : r.sem s = some i →
    Step r { r with kernel := post r.kernel i, history := (.post s, .done) :: r.history }
  /-- A call returns that took a permit. -/
  | take {s i : ℕ} {e : Call × Outcome} {pc : Fin n → Pc} : r.sem s = some i →
    r.kernel.value i ≠ 0 → Takes s e → r.Enters pc →
    Step r { r with
      kernel := r.kernel.setValue i (r.kernel.value i - 1)
      history := e :: r.history
      pc := pc }

section Steps

variable {r r' : Run n}

theorem Run.Enters.update (t : Fin n) {p : Pc} (hp : ∀ s, p.uses s = true → r.sem s ≠ none) :
    r.Enters (Function.update r.pc t p) := by
  intro t' s hs
  rw [Function.update_apply] at hs
  split_ifs at hs
  · exact Or.inr (hp s hs)
  · exact Or.inl hs

theorem Run.Enters.refl (r : Run n) : r.Enters r.pc := fun _ _ h => Or.inl h

theorem Run.call_step {t : Fin n} {granted : Bool} {c : Call}
    (hbare : ∀ name ∈ c.name, Bare name) (hc : r.call t granted c = some r') : r.Step r' := by
  cases c with
  | openSem s name initialCount =>
    simp only [Run.call] at hc
    rcases openSem_cases r.kernel s name initialCount granted hbare with
      ⟨rc, hrc, he⟩ | ⟨s', name', rfl, rfl, hmax, he⟩
    · have hneutral : Neutral (.openSem s name initialCount, .status rc) :=
        .openSem fun h => absurd h hrc
      rw [he] at hc
      rcases s with _ | s
      · cases hc
        exact .neutral hneutral (.refl r)
      · cases hc
        exact .neutral hneutral (.refl r)
    · rw [he] at hc
      simp only at hc
      split_ifs at hc
      cases hc
      exact .openSem s' name' hmax
  | close s =>
    rcases s with _ | s
    · cases hc
      exact .neutral .close (.refl r)
    · simp only [Run.call] at hc
      split_ifs at hc with hg
      cases hc
      exact .close hg.1
  | unlink name =>
    simp only [Run.call] at hc
    rcases unlink_cases r.kernel name granted hbare with ⟨rc, hrc, he⟩ | ⟨name', rfl, he⟩
    · rw [he] at hc
      cases hc
      exact .neutral (.unlink fun h => absurd h hrc) (.refl r)
    · rw [he] at hc
      cases hc
      exact .unlink name'
  | wait s =>
    simp only [Run.call] at hc
    split_ifs at hc with hs
    cases hc
    exact .pc (.update t fun s' hs' => of_decide_eq_true hs' ▸ hs)
  | trywait s =>
    rcases s with _ | s
    · cases hc
      exact .neutral .trywait (.refl r)
    · simp only [Run.call] at hc
      split_ifs at hc with hs
      cases hc
      exact .pc (.update t fun s' hs' => of_decide_eq_true hs' ▸ hs)
  | post s =>
    simp only [Run.call] at hc
    rcases hs : r.sem s with _ | i
    · rw [hs] at hc
      cases hc
    · rw [hs] at hc
      cases hc
      exact .post hs

theorem Run.round_step {t : Fin n} {interrupted : Bool}
    (hr : r.round t interrupted = some r') : r.Step r' := by
  have hidle : r.Enters (Function.update r.pc t .idle) :=
    .update t fun _ h => absurd h Bool.false_ne_true
  unfold Run.round at hr
  split at hr
  · cases hr
  · rename_i s _
    rcases hs : r.sem s with _ | i
    · rw [hs] at hr
      cases hr
    · simp only [hs, waitRound_eq] at hr
      by_cases hint : interrupted = true
      · rw [if_pos hint] at hr
        cases hr
        exact .pc (.refl r)
      rw [if_neg hint] at hr
      by_cases hz : r.kernel.value i = 0
      · rw [if_pos hz] at hr
        cases hr
      · rw [if_neg hz] at hr
        cases hr
        exact .take hs hz .wait hidle
  · rename_i s _
    rcases hs : r.sem s with _ | i
    · rw [hs] at hr
      cases hr
    · simp only [hs, trywaitRound_eq] at hr
      by_cases hint : interrupted = true
      · rw [if_pos hint] at hr
        cases hr
        exact .pc (.refl r)
      rw [if_neg hint] at hr
      by_cases hz : r.kernel.value i = 0
      · rw [if_pos hz] at hr
        cases hr
        exact .neutral .trywait hidle
      · rw [if_neg hz] at hr
        cases hr
        exact .take hs hz .trywait hidle

/-- **The steps of the system.** -/
theorem step_cases {e : Event n} (hs : (system n).step r e = some r') : r.Step r' := by
  cases e with
  | call t c granted =>
    replace hs : (if r.pc t = .idle ∧ ∀ name ∈ c.name, Bare name then r.call t granted c
      else none) = some r' := hs
    split_ifs at hs with hg
    exact Run.call_step hg.2 hs
  | round t interrupted => exact Run.round_step hs

end Steps

/-! ## The invariant -/

theorem getElem?_append_singleton_iff {α : Type*} {l : List α} {x y : α} {i : ℕ} :
    (l ++ [x])[i]? = some y ↔ l[i]? = some y ∨ i = l.length ∧ x = y := by
  rcases lt_trichotomy i l.length with hi | rfl | hi
  · rw [List.getElem?_append_left hi]
    exact ⟨Or.inl, fun h => h.resolve_right fun he => hi.ne he.1⟩
  · rw [List.getElem?_concat_length, List.getElem?_eq_none (le_refl _), Option.some_inj]
    simp
  · rw [List.getElem?_eq_none (by rw [List.length_append, List.length_singleton]; omega),
      List.getElem?_eq_none hi.le]
    simp [hi.ne']

namespace Run.Inv

variable {r : Run n}

theorem neutral (hI : r.Inv) {e : Call × Outcome} (he : Neutral e) :
    Inv { r with history := e :: r.history } := by
  obtain ⟨hepoch, hattached, hpermits, hborn⟩ := he.same r.history
  refine ⟨?_, ?_, ?_, ?_, ?_, ?_, hI.busy, ?_⟩
  · rw [hborn]
    exact hI.nodup
  · intro x
    rw [hpermits, hborn]
    exact hI.alive x
  · intro name i
    rw [hborn, hepoch]
    exact hI.names name i
  · simp only [hborn, hpermits]
    exact hI.values
  · intro s
    rw [hattached, hborn]
    exact hI.sem s
  · intro s i hs
    rw [hborn]
    exact hI.held s i hs
  · intro x v hv
    rw [hpermits] at hv
    exact hI.bounded x v hv

/-- A thread that enters or leaves a call. -/
theorem at_pc (hI : r.Inv) {pc : Fin n → Pc}
    (hb : ∀ t s, (pc t).uses s = true → r.sem s ≠ none) : Inv { r with pc := pc } :=
  ⟨hI.nodup, hI.alive, hI.names, hI.values, hI.sem, hI.held, hb, hI.bounded⟩

theorem busy_of (hI : r.Inv) {pc : Fin n → Pc} (hpc : r.Enters pc) :
    ∀ t s, (pc t).uses s = true → r.sem s ≠ none :=
  fun t s hs => (hpc t s hs).elim (hI.busy t s) id

/-- The semaphore an open handle holds: that of the epoch it is attached to, with its permits. -/
theorem holds (hI : r.Inv) {s i : ℕ} (hs : r.sem s = some i) :
    ∃ x, (born r.history)[i]? = some x ∧ attached s r.history = some x ∧
      permits x r.history = some (r.kernel.value i) := by
  have hi := hI.held s i hs
  have hx : (born r.history)[i]? = some (born r.history)[i] := List.getElem?_eq_getElem hi
  obtain ⟨v, hv⟩ := Option.ne_none_iff_exists'.mp
    ((hI.alive (born r.history)[i]).mpr (List.getElem_mem hi))
  refine ⟨_, hx, ?_, ?_⟩
  · rw [hI.sem s, hs]
    exact hx
  · rw [hv, Kernel.value, hI.values, List.getD_eq_getElem?_getD, List.getElem?_map, hx]
    simp only [Option.map_some, Option.getD_some, hv]

/-- A call that changes the permits behind a handle. -/
theorem counts (hI : r.Inv) {s i : ℕ} (hs : r.sem s = some i) {f : ℕ → ℕ} {e : Call × Outcome}
    (he : Counts s f e) (hf : ∀ v ≤ semValueMax, f v ≤ semValueMax) :
    Inv { r with
      kernel := r.kernel.setValue i (f (r.kernel.value i))
      history := e :: r.history } := by
  obtain ⟨hepoch, hattached, hborn, hpermits⟩ := he.same r.history
  obtain ⟨x, hx, hsx, hv⟩ := hI.holds hs
  rw [hsx] at hpermits
  simp only [Option.some_inj] at hpermits
  refine ⟨?_, ?_, ?_, ?_, ?_, ?_, hI.busy, ?_⟩
  · rw [hborn]
    exact hI.nodup
  · intro y
    rw [hpermits, hborn, ← hI.alive y]
    split_ifs
    · exact not_congr Option.map_eq_none_iff
    · exact Iff.rfl
  · intro name j
    rw [hborn, hepoch]
    exact hI.names name j
  · -- the semaphore of the epoch, and no other
    show r.kernel.values.set i (f (r.kernel.value i)) = _
    simp only [hborn, hpermits]
    apply List.ext_getElem?
    intro j
    rw [List.getElem?_set, List.getElem?_map]
    by_cases hij : i = j
    · subst hij
      rw [if_pos rfl, hx, if_pos (by rw [hI.values, List.length_map]; exact hI.held s i hs)]
      simp only [Option.map_some, if_true, hv, Option.getD_some]
    · rw [if_neg hij, hI.values, List.getElem?_map]
      rcases hy : (born r.history)[j]? with _ | y
      · rfl
      · have hne : x ≠ y := fun he =>
          hij ((List.getElem?_inj (hI.held s i hs) hI.nodup).mp (hx.trans (he ▸ hy.symm)))
        simp only [Option.map_some, if_neg hne]
  · intro s
    rw [hattached, hborn]
    exact hI.sem s
  · intro s i hs
    rw [hborn]
    exact hI.held s i hs
  · intro y v hv
    rw [hpermits] at hv
    split_ifs at hv
    · obtain ⟨w, hw, rfl⟩ := Option.map_eq_some_iff.mp hv
      exact hf w (hI.bounded y w hw)
    · exact hI.bounded y v hv

theorem close (hI : r.Inv) {s : ℕ} (hs : r.Unused s) :
    Inv { r with
      sem := Function.update r.sem s none
      history := (.close (some s), .done) :: r.history } := by
  refine ⟨hI.nodup, hI.alive, hI.names, hI.values, ?_, ?_, ?_, hI.bounded⟩
  · intro s'
    show (if s' = s then none else attached s' r.history) =
      (Function.update r.sem s none s').bind fun i => (born r.history)[i]?
    rw [Function.update_apply]
    split_ifs
    · rfl
    · exact hI.sem s'
  · intro s' i hi
    replace hi : Function.update r.sem s none s' = some i := hi
    rw [Function.update_apply] at hi
    split_ifs at hi
    exact hI.held s' i hi
  · intro t s' ht
    have hne : s' ≠ s := by
      rintro rfl
      rw [hs t] at ht
      cases ht
    show Function.update r.sem s none s' ≠ none
    rw [Function.update_of_ne hne]
    exact hI.busy t s' ht

theorem unlink (hI : r.Inv) (name : List UInt8) :
    Inv { r with
      kernel := { r.kernel with names := Function.update r.kernel.names (key name) none }
      history := (.unlink (some name), .status .ok) :: r.history } := by
  refine ⟨hI.nodup, hI.alive, ?_, hI.values, hI.sem, hI.held, hI.busy, hI.bounded⟩
  intro name' i
  show Function.update r.kernel.names (key name) none (key name') = some i ↔
    (born r.history)[i]? = some _
  rw [Function.update_apply, epoch_unlink]
  by_cases hk : key name = key name'
  · -- the new epoch of the key has not been opened
    rw [if_pos (by rw [hk]), if_pos hk]
    refine ⟨nofun, fun hx => ?_⟩
    have hle := born_le (List.mem_of_getElem? hx) rfl
    simp only at hle
    omega
  · rw [if_neg (Ne.symm hk), if_neg hk]
    exact hI.names name' i

/-- A handle that gets the semaphore `i` of the epoch `x`, where the epochs born may be more. -/
theorem attach (hI : r.Inv) (s : ℕ) {x : Epoch} {i : ℕ} {h : List (Call × Outcome)}
    (hatt : ∀ s', attached s' h = if s' = s then some x else attached s' r.history)
    (hborn : born r.history <+: born h) (hx : (born h)[i]? = some x) :
    (∀ s', attached s' h =
      (Function.update r.sem s (some i) s').bind fun i => (born h)[i]?) ∧
    (∀ s' j, Function.update r.sem s (some i) s' = some j → j < (born h).length) ∧
    ∀ t s', (r.pc t).uses s' = true → Function.update r.sem s (some i) s' ≠ none := by
  have hlen := hborn.length_le
  refine ⟨fun s' => ?_, fun s' j hj => ?_, fun t s' ht => ?_⟩
  · rw [hatt, Function.update_apply]
    split_ifs
    · exact hx.symm
    · rw [hI.sem s']
      rcases hs' : r.sem s' with _ | j
      · rfl
      · have hj := hI.held s' j hs'
        show (born r.history)[j]? = (born h)[j]?
        rw [List.prefix_iff_getElem?.mp hborn j hj, List.getElem?_eq_getElem hj]
  · rw [Function.update_apply] at hj
    split_ifs at hj
    · cases hj
      exact (List.getElem?_eq_some_iff.mp hx).1
    · exact (hI.held s' j hj).trans_le hlen
  · rw [Function.update_apply]
    split_ifs
    · simp
    · exact hI.busy t s' ht

/-- A name that leads nowhere gets a new semaphore, that of its current epoch. -/
theorem openSem_new (hI : r.Inv) (s : ℕ) (name : List UInt8) {c : ℕ} (hc : c ≤ semValueMax)
    (hn : r.kernel.names (key name) = none) :
    Inv { r with
      kernel :=
        ⟨Function.update r.kernel.names (key name) (some (born r.history).length),
          r.kernel.values ++ [c]⟩
      sem := Function.update r.sem s (some (born r.history).length)
      history := (.openSem (some s) (some name) c, .status .ok) :: r.history } := by
  have hpermits : ∀ y, permits y ((.openSem (some s) (some name) c, .status .ok) :: r.history) =
      if epoch name r.history = y then some ((permits y r.history).getD c)
      else permits y r.history := fun _ => rfl
  have hborn : born ((.openSem (some s) (some name) c, .status .ok) :: r.history) =
      if epoch name r.history ∈ born r.history then born r.history
      else born r.history ++ [epoch name r.history] := rfl
  have hnew : epoch name r.history ∉ born r.history := by
    intro hmem
    obtain ⟨i, hi⟩ := List.mem_iff_getElem?.mp hmem
    rw [(hI.names name i).mpr hi] at hn
    cases hn
  have hnone : permits (epoch name r.history) r.history = none := by
    by_contra hne
    exact hnew ((hI.alive _).mp hne)
  rw [if_neg hnew] at hborn
  obtain ⟨hsem, hheld, hbusy⟩ := hI.attach s
    (h := (.openSem (some s) (some name) c, .status .ok) :: r.history) (fun _ => rfl)
    (by rw [hborn]; exact List.prefix_append _ _)
    (by rw [hborn]; exact List.getElem?_concat_length)
  refine ⟨?_, ?_, ?_, ?_, hsem, hheld, hbusy, ?_⟩
  · rw [hborn]
    exact List.nodup_append.mpr ⟨hI.nodup, List.nodup_singleton _, fun y hy z hz he =>
      hnew (List.mem_singleton.mp hz ▸ he ▸ hy)⟩
  · intro y
    rw [hpermits, hborn, List.mem_append, List.mem_singleton, ← hI.alive y]
    split_ifs with hy
    · simp [hy]
    · exact ⟨Or.inl, fun h => h.resolve_right fun he => hy he.symm⟩
  · intro name' j
    show Function.update r.kernel.names (key name) (some (born r.history).length)
      (key name') = some j ↔
      (born ((.openSem (some s) (some name) c, .status .ok) :: r.history))[j]? =
        some (epoch name' r.history)
    rw [Function.update_apply, hborn, getElem?_append_singleton_iff]
    by_cases hk : key name' = key name
    · rw [if_pos (by rw [hk]), epoch_congr hk r.history, Option.some_inj]
      refine ⟨fun hj => Or.inr ⟨hj.symm, rfl⟩, fun hj => ?_⟩
      exact (hj.resolve_left fun hold => hnew (List.mem_of_getElem? hold)).1.symm
    · rw [if_neg hk, hI.names name' j]
      exact ⟨Or.inl, fun hj => hj.resolve_right fun he => hk (congrArg Prod.fst he.2).symm⟩
  · show r.kernel.values ++ [c] = _
    rw [hborn, List.map_append, List.map_singleton, hpermits, if_pos rfl, hnone, hI.values]
    congr 1
    apply List.map_congr_left
    intro y hy
    have hne : epoch name r.history ≠ y := by
      rintro rfl
      exact hnew hy
    rw [hpermits, if_neg hne]
  · intro y v hv
    rw [hpermits] at hv
    split_ifs at hv with hy
    · subst hy
      rw [hnone] at hv
      cases hv
      exact hc
    · exact hI.bounded y v hv

/-- A name that leads to a semaphore leads to that of its current epoch, and its permits stay. -/
theorem openSem_old (hI : r.Inv) (s : ℕ) (name : List UInt8) (c : ℕ) {i : ℕ}
    (hn : r.kernel.names (key name) = some i) :
    Inv { r with
      sem := Function.update r.sem s (some i)
      history := (.openSem (some s) (some name) c, .status .ok) :: r.history } := by
  have hpermits : ∀ y, permits y ((.openSem (some s) (some name) c, .status .ok) :: r.history) =
      if epoch name r.history = y then some ((permits y r.history).getD c)
      else permits y r.history := fun _ => rfl
  have hborn : born ((.openSem (some s) (some name) c, .status .ok) :: r.history) =
      if epoch name r.history ∈ born r.history then born r.history
      else born r.history ++ [epoch name r.history] := rfl
  have hx := (hI.names name i).mp hn
  have hmem : epoch name r.history ∈ born r.history := List.mem_of_getElem? hx
  rw [if_pos hmem] at hborn
  have hsame : ∀ y, permits y ((.openSem (some s) (some name) c, .status .ok) :: r.history) =
      permits y r.history := by
    intro y
    rw [hpermits]
    split_ifs with hy
    · subst hy
      obtain ⟨v, hv⟩ := Option.ne_none_iff_exists'.mp ((hI.alive _).mpr hmem)
      rw [hv]
      rfl
    · rfl
  obtain ⟨hsem, hheld, hbusy⟩ := hI.attach s
    (h := (.openSem (some s) (some name) c, .status .ok) :: r.history) (fun _ => rfl)
    (by rw [hborn]) (by rw [hborn]; exact hx)
  refine ⟨?_, ?_, ?_, ?_, hsem, hheld, hbusy, ?_⟩
  · rw [hborn]
    exact hI.nodup
  · intro y
    rw [hsame, hborn]
    exact hI.alive y
  · intro name' j
    rw [hborn]
    exact hI.names name' j
  · simp only [hborn, hsame]
    exact hI.values
  · intro y v hv
    rw [hsame] at hv
    exact hI.bounded y v hv

theorem openSem (hI : r.Inv) (s : ℕ) (name : List UInt8) {c : ℕ} (hc : c ≤ semValueMax) :
    Inv { r with
      kernel := (r.kernel.attach (key name) c).2
      sem := Function.update r.sem s (some (r.kernel.attach (key name) c).1)
      history := (.openSem (some s) (some name) c, .status .ok) :: r.history } := by
  have hlen : r.kernel.values.length = (born r.history).length := by
    rw [hI.values, List.length_map]
  unfold Kernel.attach
  rcases hn : r.kernel.names (key name) with _ | i
  · rw [hlen]
    exact hI.openSem_new s name hc hn
  · exact hI.openSem_old s name c hn

/-- **Every step** keeps the system in line with the history. -/
theorem step (hI : r.Inv) {r' : Run n} (hs : r.Step r') : r'.Inv := by
  cases hs with
  | pc hpc => exact hI.at_pc (hI.busy_of hpc)
  | neutral he hpc => exact (hI.neutral he).at_pc (hI.busy_of hpc)
  | openSem s name hc => exact hI.openSem s name hc
  | close hs => exact hI.close hs
  | unlink name => exact hI.unlink name
  | post hs =>
    obtain ⟨x, _, _, hv⟩ := hI.holds hs
    rw [post_eq (hI.bounded x _ hv)]
    exact hI.counts hs .post fun v _ => min_le_right _ _
  | take hs _ he hpc =>
    exact (hI.counts hs (.take he) fun v hv => (Nat.sub_le v 1).trans hv).at_pc (hI.busy_of hpc)

end Run.Inv

theorem reachable_inv {r : Run n} (h : Reachable (system n) r) : r.Inv := by
  refine h.induct (P := Run.Inv) ?_ fun r e r' hI hs => hI.step (step_cases hs)
  rintro r rfl
  refine ⟨List.nodup_nil, fun x => ?_, fun name i => ?_, rfl, fun s => rfl, fun s i hs => ?_,
    fun t s hs => ?_, fun x v hv => ?_⟩
  · exact iff_of_false (fun hne => hne rfl) List.not_mem_nil
  · exact iff_of_false nofun nofun
  · cases hs
  · cases hs
  · cases hv

/-! ## The permits of an epoch -/

/-- The permits an epoch was first opened with. -/
def opening (x : Epoch) : List (Call × Outcome) → Option ℕ
  | [] => none
  | (.openSem (some _) (some name) initialCount, .status .ok) :: history =>
    if epoch name history = x then some ((opening x history).getD initialCount)
    else opening x history
  | _ :: history => opening x history

/-- The posts through handles attached to an epoch. -/
def posted (x : Epoch) : List (Call × Outcome) → ℕ
  | [] => 0
  | (.post s, _) :: history => posted x history + if attached s history = some x then 1 else 0
  | _ :: history => posted x history

/-- The permits taken through handles attached to an epoch. -/
def taken (x : Epoch) : List (Call × Outcome) → ℕ
  | [] => 0
  | (.wait s, _) :: history | (.trywait (some s), .bool true) :: history =>
    taken x history + if attached s history = some x then 1 else 0
  | _ :: history => taken x history

/-- The permits left, those taken, those the epoch was opened with and those posted balance, as long
as no post found the counter at its maximum. -/
structure Balanced (x : Epoch) (h : List (Call × Outcome)) : Prop where
  fresh : permits x h = none → opening x h = none ∧ posted x h = 0 ∧ taken x h = 0
  tally : ∀ v, permits x h = some v → ∃ c, opening x h = some c ∧
    v + taken x h ≤ c + posted x h ∧
    (c + posted x h ≤ semValueMax → v + taken x h = c + posted x h)

theorem Neutral.tally {e : Call × Outcome} (he : Neutral e) (x : Epoch)
    (h : List (Call × Outcome)) :
    opening x (e :: h) = opening x h ∧ posted x (e :: h) = posted x h ∧
      taken x (e :: h) = taken x h := by
  cases he with
  | openSem hrc =>
    rename_i s name c rc
    rcases s with _ | s
    · exact ⟨rfl, rfl, rfl⟩
    rcases name with _ | name
    · exact ⟨rfl, rfl, rfl⟩
    cases rc <;> first | exact ⟨rfl, rfl, rfl⟩ | simp at hrc
  | close => exact ⟨rfl, rfl, rfl⟩
  | unlink hrc => exact ⟨rfl, rfl, rfl⟩
  | trywait =>
    rename_i s
    rcases s with _ | s <;> exact ⟨rfl, rfl, rfl⟩

theorem Takes.tally {s : ℕ} {e : Call × Outcome} (he : Takes s e) (x : Epoch)
    (h : List (Call × Outcome)) :
    opening x (e :: h) = opening x h ∧ posted x (e :: h) = posted x h ∧
      taken x (e :: h) = taken x h + if attached s h = some x then 1 else 0 := by
  rcases he with _ | _ <;> exact ⟨rfl, rfl, rfl⟩

theorem Balanced.of_same {x : Epoch} {h h' : List (Call × Outcome)} (hB : Balanced x h)
    (hp : permits x h' = permits x h) (ho : opening x h' = opening x h)
    (hpost : posted x h' = posted x h) (ht : taken x h' = taken x h) : Balanced x h' := by
  refine ⟨fun hn => ?_, fun v hv => ?_⟩
  · rw [ho, hpost, ht]
    exact hB.fresh (hp ▸ hn)
  · rw [ho, hpost, ht]
    exact hB.tally v (hp ▸ hv)

theorem Balanced.openSem {x : Epoch} {h : List (Call × Outcome)} (hB : Balanced x h) (s : ℕ)
    (name : List UInt8) (c : ℕ) :
    Balanced x ((.openSem (some s) (some name) c, .status .ok) :: h) := by
  by_cases hx : epoch name h = x
  · have hp : permits x ((.openSem (some s) (some name) c, .status .ok) :: h) =
        some ((permits x h).getD c) := if_pos hx
    have ho : opening x ((.openSem (some s) (some name) c, .status .ok) :: h) =
        some ((opening x h).getD c) := if_pos hx
    rcases hv : permits x h with _ | v
    · -- the first opening
      obtain ⟨hnone, hposted, htaken⟩ := hB.fresh hv
      rw [hv] at hp
      rw [hnone] at ho
      refine ⟨fun hn => absurd (hp.symm.trans hn) (Option.some_ne_none _), fun w hw => ⟨c, ho, ?_⟩⟩
      obtain rfl : c = w := Option.some.inj (hp.symm.trans hw)
      show c + taken x h ≤ c + posted x h ∧ (c + posted x h ≤ _ → c + taken x h = c + posted x h)
      rw [hposted, htaken]
      exact ⟨le_refl _, fun _ => rfl⟩
    · obtain ⟨c', hc', _⟩ := hB.tally v hv
      refine hB.of_same ?_ ?_ rfl rfl
      · rw [hp, hv]
        rfl
      · rw [ho, hc']
        rfl
  · exact hB.of_same (if_neg hx) (if_neg hx) rfl rfl

/-- **Every step** keeps the balance of every epoch. -/
theorem Balanced.step {r r' : Run n} (hI : r.Inv) (hs : r.Step r') {x : Epoch}
    (hB : Balanced x r.history) : Balanced x r'.history := by
  cases hs with
  | pc _ => exact hB
  | neutral he _ =>
    obtain ⟨ho, hp, ht⟩ := he.tally x r.history
    exact hB.of_same ((he.same r.history).2.2.1 x) ho hp ht
  | openSem s name _ => exact hB.openSem s name _
  | close _ => exact hB.of_same rfl rfl rfl rfl
  | unlink name => exact hB.of_same rfl rfl rfl rfl
  | post hs =>
    rename_i s i
    obtain ⟨y, _, hy, hv⟩ := hI.holds hs
    by_cases hx : y = x
    · subst hx
      obtain ⟨c, hc, hle, heq⟩ := hB.tally _ hv
      have hpermits : permits y ((.post s, .done) :: r.history) =
          some (min (r.kernel.value i + 1) semValueMax) := by
        rw [(Counts.post.same r.history).2.2.2, if_pos hy, hv]
        rfl
      have hposted : posted y ((.post s, .done) :: r.history) = posted y r.history + 1 :=
        congrArg (posted y r.history + ·) (if_pos hy)
      refine ⟨fun hn => absurd (hpermits.symm.trans hn) (Option.some_ne_none _),
        fun w hw => ⟨c, hc, ?_⟩⟩
      obtain rfl := Option.some.inj (hpermits.symm.trans hw)
      show _ + taken y r.history ≤ _ ∧ (_ → _ + taken y r.history = _)
      rw [hposted]
      omega
    · have hne : attached s r.history ≠ some x := by
        rw [hy]
        exact fun he => hx (Option.some.inj he)
      exact hB.of_same (if_neg hne) rfl (congrArg (posted x r.history + ·) (if_neg hne)) rfl
  | take hs hpos he hpc =>
    rename_i s i e pc
    obtain ⟨y, _, hy, hv⟩ := hI.holds hs
    obtain ⟨ho, hp, ht⟩ := he.tally x r.history
    have hcount := (Counts.take he).same r.history
    by_cases hx : y = x
    · subst hx
      obtain ⟨c, hc, hle, heq⟩ := hB.tally _ hv
      have hpermits : permits y (e :: r.history) = some (r.kernel.value i - 1) := by
        rw [hcount.2.2.2, if_pos hy, hv]
        rfl
      rw [if_pos hy] at ht
      refine ⟨fun hn => absurd (hpermits.symm.trans hn) (Option.some_ne_none _),
        fun w hw => ⟨c, ho.trans hc, ?_⟩⟩
      obtain rfl := Option.some.inj (hpermits.symm.trans hw)
      rw [hp, ht]
      omega
    · have hne : attached s r.history ≠ some x := by
        rw [hy]
        exact fun he => hx (Option.some.inj he)
      rw [if_neg hne] at ht
      exact hB.of_same ((hcount.2.2.2 x).trans (if_neg hne)) ho hp ht

theorem reachable_balanced {r : Run n} (h : Reachable (system n) r) (x : Epoch) :
    Balanced x r.history := by
  refine h.induct_of (Q := Run.Inv) (P := fun r => Balanced x r.history)
    (fun _ hr => reachable_inv hr) ?_ fun r e r' hI hB hs => hB.step hI (step_cases hs)
  rintro r rfl
  exact ⟨fun _ => ⟨rfl, rfl, rfl⟩, nofun⟩

/-- **A bare key and an unlink count name one counting semaphore, in every process.** In every state
that any number of threads reach by any calls with bare keys in any order, with waits that may be
interrupted and a platform that may refuse to open or unlink any name: two open handles hold the
same semaphore if and only if they were opened under the same key with no unlinking of it in between;
the semaphore holds the permits that the history says, that is those of its first opening, and one
more or one less for each post and each successful wait through any of its handles; it never gives
out more permits than that; and a wait blocks if and only if there is none. -/
theorem namedSemaphore_refines_epochs {r : Run n} (h : Reachable (system n) r) :
    (∀ s, r.sem s = none ↔ attached s r.history = none) ∧
    (∀ s s' i i', r.sem s = some i → r.sem s' = some i' →
      (i = i' ↔ attached s r.history = attached s' r.history)) ∧
    (∀ s i, r.sem s = some i → ∃ x c v, attached s r.history = some x ∧
      opening x r.history = some c ∧ permits x r.history = some v ∧ r.kernel.value i = v ∧
      v ≤ semValueMax ∧ taken x r.history + v ≤ c + posted x r.history ∧
      (c + posted x r.history ≤ semValueMax →
        taken x r.history + v = c + posted x r.history)) ∧
    ∀ t s, r.pc t = .wait s → ∃ x v, attached s r.history = some x ∧
      permits x r.history = some v ∧ ((system n).step r (.round t false) = none ↔ v = 0) := by
  have hI := reachable_inv h
  refine ⟨fun s => ?_, fun s s' i i' hs hs' => ?_, fun s i hs => ?_, fun t s hpc => ?_⟩
  · rcases hs : r.sem s with _ | i
    · rw [hI.sem s, hs]
      exact iff_of_true rfl rfl
    · obtain ⟨x, _, hx, _⟩ := hI.holds hs
      rw [hx]
      exact iff_of_false (Option.some_ne_none _) (Option.some_ne_none _)
  · rw [hI.sem s, hI.sem s', hs, hs']
    exact (List.getElem?_inj (hI.held s i hs) hI.nodup).symm
  · obtain ⟨x, _, hx, hv⟩ := hI.holds hs
    obtain ⟨c, hc, hle, heq⟩ := (reachable_balanced h x).tally _ hv
    exact ⟨x, c, _, hx, hc, hv, rfl, hI.bounded x _ hv, by omega, by omega⟩
  · have huses : (r.pc t).uses s = true := by
      rw [hpc]
      exact decide_eq_true rfl
    obtain ⟨i, hi⟩ := Option.ne_none_iff_exists'.mp (hI.busy t s huses)
    obtain ⟨x, _, hx, hv⟩ := hI.holds hi
    refine ⟨x, _, hx, hv, ?_⟩
    show r.round t false = none ↔ _
    simp only [Run.round, hpc, hi, waitRound_eq]
    by_cases hz : r.kernel.value i = 0 <;> simp [hz]

/-- Two processes that open one key: the second count is ignored, and an interrupted wait takes the
one permit there is. -/
theorem namedSemaphore_refines_epochs_two_handles :
    ∃ r : Run 2, Reachable (system 2) r ∧ r.sem 0 = r.sem 1 ∧ r.sem 0 = some 0 ∧
      r.kernel.value 0 = 0 ∧ ∃ x v, attached 1 r.history = some x ∧
        permits x r.history = some v ∧ ((system 2).step r (.round 1 false) = none ↔ v = 0) := by
  have h0 : Reachable (system 2) ⟨⟨fun _ => none, []⟩, fun _ => none, fun _ => .idle, []⟩ :=
    .init rfl
  obtain ⟨r, hr⟩ : ∃ r, (system 2).run
      ⟨⟨fun _ => none, []⟩, fun _ => none, fun _ => .idle, []⟩
      [.call 0 (.openSem (some 0) (some [97]) 1) true,
        .call 1 (.openSem (some 1) (some [97]) 5) true,
        .call 0 (.wait 0) true, .round 0 true, .round 0 false, .call 1 (.wait 1) true] = some r :=
    ⟨_, rfl⟩
  have hsem : r.sem 0 = some 0 ∧ r.sem 1 = some 0 ∧ r.kernel.value 0 = 0 ∧ r.pc 1 = .wait 1 := by
    obtain rfl := Option.some.inj hr
    exact ⟨rfl, rfl, rfl, rfl⟩
  obtain ⟨hs0, hs1, hv, hpc⟩ := hsem
  refine ⟨r, h0.run hr, hs0.trans hs1.symm, hs0, hv, ?_⟩
  exact (namedSemaphore_refines_epochs (h0.run hr)).2.2.2 1 1 hpc

end NamedSemaphore

end D4np
