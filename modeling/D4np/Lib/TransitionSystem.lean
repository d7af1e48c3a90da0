import Mathlib.Tactic.Common

/-!
# Transition systems

Initial states and an executable step: `step s e` is the state after the event `e`, or `none` where
`e` cannot happen in `s`.  `Reachable.induct` is the rule that a property of the initial states kept
by every step holds in every reachable state, `Reachable.induct_of` its form relative to an
invariant already known, `Reachable.mono` compares two systems, and `System.guarded` is the
subsystem of the runs all of whose steps meet a guard, which has its own rule
(`Reachable.induct_guarded`).  `System.run` replays a list of events, so that a concrete run is
checked by evaluation; `System.run_induct` is the invariant rule for what it passes through.
-/

namespace TransitionSystem

/-- A transition system with states `σ` and events `ε`. -/
structure System (σ ε : Type*) where
  init : σ → Prop
  step : σ → ε → Option σ

variable {σ ε : Type*} {S : System σ ε}

/-- The states some run of the system leads to. -/
inductive Reachable (S : System σ ε) : σ → Prop
  | init {s : σ} : S.init s → Reachable S s
  | step {s t : σ} {e : ε} : Reachable S s → S.step s e = some t → Reachable S t

/-- **The invariant rule.** -/
theorem Reachable.induct {P : σ → Prop} (hinit : ∀ s, S.init s → P s)
    (hstep : ∀ s e t, P s → S.step s e = some t → P t) {s : σ} (h : Reachable S s) : P s := by
  induction h with
  | init h0 => exact hinit _ h0
  | step _ hst ih => exact hstep _ _ _ ih hst

/-- The invariant rule for `P`, where the step may use a known invariant `Q`. -/
theorem Reachable.induct_of {P Q : σ → Prop} (hQ : ∀ s, Reachable S s → Q s)
    (hinit : ∀ s, S.init s → P s) (hstep : ∀ s e t, Q s → P s → S.step s e = some t → P t)
    {s : σ} (h : Reachable S s) : P s := by
  induction h with
  | init h0 => exact hinit _ h0
  | step hr hst ih => exact hstep _ _ _ (hQ _ hr) ih hst

/-- A system with more initial states and more steps reaches more. -/
theorem Reachable.mono {T : System σ ε} {s : σ} (h : Reachable S s)
    (hinit : ∀ s, S.init s → T.init s)
    (hstep : ∀ s e t, S.step s e = some t → T.step s e = some t) : Reachable T s :=
  h.induct (fun _ h0 => .init (hinit _ h0)) fun _ _ _ hr hs => hr.step (hstep _ _ _ hs)

/-- Replay of a list of events; `none` if one of them cannot happen. -/
def System.run (S : System σ ε) : σ → List ε → Option σ
  | s, [] => some s
  | s, e :: es => (S.step s e).bind fun t => S.run t es

/-- The invariant rule for a replay from a given state. -/
theorem System.run_induct {P : σ → Prop} (hstep : ∀ s e t, P s → S.step s e = some t → P t)
    {s t : σ} (h : P s) {es : List ε} (hr : S.run s es = some t) : P t := by
  induction es generalizing s with
  | nil => cases hr; exact h
  | cons e es ih =>
    obtain ⟨u, hu, hr⟩ := Option.bind_eq_some_iff.mp hr
    exact ih (hstep s e u h hu) hr

/-- What every step leaves as it is, a run leaves as it is. -/
theorem System.run_const {β : Type*} (f : σ → β) (hstep : ∀ s e t, S.step s e = some t → f t = f s)
    {s t : σ} {es : List ε} (hr : S.run s es = some t) : f t = f s :=
  System.run_induct (P := fun t => f t = f s) (fun _ _ _ h hs => (hstep _ _ _ hs).trans h) rfl hr

theorem Reachable.run {s t : σ} (h : Reachable S s) {es : List ε} (hr : S.run s es = some t) :
    Reachable S t :=
  System.run_induct (fun _ _ _ h hs => h.step hs) h hr

/-- The system whose runs take only the steps that meet `G`. -/
def System.guarded (S : System σ ε) (G : σ → ε → Prop) [∀ s e, Decidable (G s e)] :
    System σ ε where
  init := S.init
  step s e := if G s e then S.step s e else none

theorem System.guarded_step {G : σ → ε → Prop} [∀ s e, Decidable (G s e)] {s t : σ} {e : ε} :
    (S.guarded G).step s e = some t ↔ G s e ∧ S.step s e = some t := by
  show (if G s e then S.step s e else none) = some t ↔ _
  split_ifs with hg
  · exact ⟨fun h => ⟨hg, h⟩, fun h => h.2⟩
  · exact ⟨fun h => by simp at h, fun h => absurd h.1 hg⟩

/-- A run whose steps meet a guard is a run. -/
theorem Reachable.of_guarded {G : σ → ε → Prop} [∀ s e, Decidable (G s e)] {s : σ}
    (h : Reachable (S.guarded G) s) : Reachable S s :=
  h.mono (fun _ h0 => h0) fun _ _ _ hs => (System.guarded_step.mp hs).2

/-- The invariant rule for the runs whose steps meet a guard. -/
theorem Reachable.induct_guarded {G : σ → ε → Prop} [∀ s e, Decidable (G s e)] {P : σ → Prop}
    (hinit : ∀ s, S.init s → P s) (hstep : ∀ s e t, P s → G s e → S.step s e = some t → P t)
    {s : σ} (h : Reachable (S.guarded G) s) : P s := by
  induction h with
  | init h0 => exact hinit _ h0
  | step _ hst ih =>
    obtain ⟨hg, hst⟩ := System.guarded_step.mp hst
    exact hstep _ _ _ ih hg hst

end TransitionSystem
