import D4np.Lib.TransitionSystem
import Mathlib.Logic.Function.Basic

/-!
# Linearizability

A concurrent object is linearizable if every call seems to take effect at one instant between its
call and its return.  The instants make a run of the atomic object: a thread calls, the operation
takes effect in one step on the state of the sequential object, and the thread returns with the
result (`Object.atomic`).  A system is linearizable if what its runs show, the calls and the returns
with their results in the order they happen, is shown by a run of the atomic object; that order
carries the real-time order of the calls.

`System.simulate` is the rule: a relation between the states of two systems that every step of the
one keeps by a run of the other that shows the same.
-/

namespace TransitionSystem

variable {σ ε τ α μ : Type*}

/-- What a run shows, when a step shows `obs s e`. -/
def System.trace (S : System σ ε) (obs : σ → ε → List μ) : σ → List ε → List μ
  | _, [] => []
  | s, e :: es => obs s e ++ ((S.step s e).map fun t => S.trace obs t es).getD []

section Trace

variable {S : System σ ε} {obs : σ → ε → List μ} {s t u : σ} {e : ε} {es es' : List ε}

theorem System.run_cons (h : S.step s e = some t) : S.run s (e :: es) = S.run t es := by
  rw [System.run, h]
  rfl

theorem System.trace_cons (h : S.step s e = some t) :
    S.trace obs s (e :: es) = obs s e ++ S.trace obs t es := by
  rw [System.trace, h]
  rfl

theorem System.run_append (h : S.run s es = some t) (h' : S.run t es' = some u) :
    S.run s (es ++ es') = some u := by
  induction es generalizing s with
  | nil =>
    cases h
    exact h'
  | cons e es ih =>
    obtain ⟨v, hv, hr⟩ := Option.bind_eq_some_iff.mp h
    rw [List.cons_append, System.run_cons hv]
    exact ih hr

theorem System.trace_append (h : S.run s es = some t) :
    S.trace obs s (es ++ es') = S.trace obs s es ++ S.trace obs t es' := by
  induction es generalizing s with
  | nil =>
    cases h
    rfl
  | cons e es ih =>
    obtain ⟨v, hv, hr⟩ := Option.bind_eq_some_iff.mp h
    rw [List.cons_append, System.trace_cons hv, System.trace_cons hv, ih hr, List.append_assoc]

end Trace

/-- **The simulation rule.** -/
theorem System.simulate {S : System σ ε} (obs : σ → ε → List μ) {A : System τ α}
    (obs' : τ → α → List μ) {R : σ → τ → Prop}
    (hstep : ∀ s e s' t, R s t → S.step s e = some s' →
      ∃ as t', A.run t as = some t' ∧ A.trace obs' t as = obs s e ∧ R s' t')
    {s s' : σ} {t : τ} (hR : R s t) {es : List ε} (hr : S.run s es = some s') :
    ∃ as t', A.run t as = some t' ∧ A.trace obs' t as = S.trace obs s es ∧ R s' t' := by
  induction es generalizing s t with
  | nil =>
    cases hr
    exact ⟨[], t, rfl, rfl, hR⟩
  | cons e es ih =>
    obtain ⟨u, hu, hr⟩ := Option.bind_eq_some_iff.mp hr
    obtain ⟨as, v, hv, htr, hRu⟩ := hstep s e u t hR hu
    obtain ⟨as', t', hrun, htr', hR'⟩ := ih hRu hr
    refine ⟨as ++ as', t', System.run_append hv hrun, ?_, hR'⟩
    rw [System.trace_append hv, System.trace_cons hu, htr, htr']

/-! ## Atomic objects -/

/-- A sequential object: the operation `op` with the result `r` takes the state `x` to `effect x op r`,
if that can be its result. -/
structure Object (τ ω ρ : Type*) where
  start : τ
  effect : τ → ω → ρ → Option τ

/-- Where a thread of an atomic object stands. -/
inductive Stage (ω ρ : Type*)
  | idle
  | called (op : ω)
  | done (r : ρ)

/-- The state of an atomic object and of its threads. -/
structure Atomic (ι τ ω ρ : Type*) where
  obj : τ
  stage : ι → Stage ω ρ

/-- The steps of an atomic object: a call, the instant an operation takes effect, a return. -/
inductive Action (ι ω ρ : Type*)
  | call (i : ι) (op : ω)
  | take (i : ι) (r : ρ)
  | ret (i : ι)

/-- What is seen of an object: calls and returns. -/
inductive Mark (ι ω ρ : Type*)
  | call (i : ι) (op : ω)
  | ret (i : ι) (r : ρ)
  deriving DecidableEq

variable {ι ω ρ : Type*} [DecidableEq ι]

/-- Thread `i` goes to the stage `x`. -/
def Atomic.goto (s : Atomic ι τ ω ρ) (i : ι) (x : Stage ω ρ) : Atomic ι τ ω ρ :=
  { s with stage := Function.update s.stage i x }

/-- A thread that keeps its stage. -/
theorem Atomic.goto_stay {s : Atomic ι τ ω ρ} {i : ι} {x : Stage ω ρ} (h : s.stage i = x) :
    s.goto i x = s := by
  subst h
  simp only [Atomic.goto, Function.update_eq_self]

/-- The atomic object. -/
def Object.atomic (O : Object τ ω ρ) (ι : Type*) [DecidableEq ι] :
    System (Atomic ι τ ω ρ) (Action ι ω ρ) where
  init s := s = ⟨O.start, fun _ => .idle⟩
  step s
    | .call i op =>
      match s.stage i with
      | .idle => some (s.goto i (.called op))
      | _ => none
    | .take i r =>
      match s.stage i with
      | .called op => (O.effect s.obj op r).map fun x => { s.goto i (.done r) with obj := x }
      | _ => none
    | .ret i =>
      match s.stage i with
      | .done _ => some (s.goto i .idle)
      | _ => none

/-- What a step of an atomic object shows. -/
def Atomic.marks (s : Atomic ι τ ω ρ) : Action ι ω ρ → List (Mark ι ω ρ)
  | .call i op => [.call i op]
  | .take _ _ => []
  | .ret i =>
    match s.stage i with
    | .done r => [.ret i r]
    | _ => []

/-- `h` is what some run of the atomic object shows, and the run leaves the object in state `x`. -/
def Object.Explains (O : Object τ ω ρ) (h : List (Mark ι ω ρ)) (x : τ) : Prop :=
  ∃ as t, (O.atomic ι).run ⟨O.start, fun _ => .idle⟩ as = some t ∧
    (O.atomic ι).trace Atomic.marks ⟨O.start, fun _ => .idle⟩ as = h ∧ t.obj = x

section Actions

variable {O : Object τ ω ρ} {t : Atomic ι τ ω ρ} {i : ι} {op : ω} {r : ρ} {x : τ}

/-- `t` goes to `t'` by steps that show `h`. -/
def Object.Moves (O : Object τ ω ρ) (t : Atomic ι τ ω ρ) (h : List (Mark ι ω ρ))
    (t' : Atomic ι τ ω ρ) : Prop :=
  ∃ as, (O.atomic ι).run t as = some t' ∧ (O.atomic ι).trace Atomic.marks t as = h

theorem Object.Moves.refl : O.Moves t [] t := ⟨[], rfl, rfl⟩

theorem Object.Moves.trans {t' t'' : Atomic ι τ ω ρ} {h h' : List (Mark ι ω ρ)}
    (h₁ : O.Moves t h t') (h₂ : O.Moves t' h' t'') : O.Moves t (h ++ h') t'' := by
  obtain ⟨as, hr, ht⟩ := h₁
  obtain ⟨as', hr', ht'⟩ := h₂
  exact ⟨as ++ as', System.run_append hr hr', by rw [System.trace_append hr, ht, ht']⟩

theorem Object.Moves.one {t' : Atomic ι τ ω ρ} {a : Action ι ω ρ}
    (h : (O.atomic ι).step t a = some t') : O.Moves t (t.marks a) t' := by
  refine ⟨[a], ?_, ?_⟩
  · rw [System.run_cons h]
    rfl
  · rw [System.trace_cons h]
    exact List.append_nil _

theorem Object.Moves.call (h : t.stage i = .idle) (op : ω) :
    O.Moves t [.call i op] (t.goto i (.called op)) := by
  apply Object.Moves.one (a := .call i op)
  simp only [Object.atomic, h]

theorem Object.Moves.take (h : t.stage i = .called op) (he : O.effect t.obj op r = some x) :
    O.Moves t [] { t.goto i (.done r) with obj := x } := by
  apply Object.Moves.one (a := .take i r)
  simp only [Object.atomic, h, he]
  rfl

theorem Object.Moves.ret (h : t.stage i = .done r) : O.Moves t [.ret i r] (t.goto i .idle) := by
  have hm : t.marks (.ret i) = [.ret i r] := by
    simp only [Atomic.marks, h]
  rw [← hm]
  apply Object.Moves.one (a := .ret i)
  simp only [Object.atomic, h]

/-- **The rule for an object**: a map of the states onto those of the atomic object, under which
every step shows what it should. -/
theorem Object.explains_of_map {S : System σ ε} {obs : σ → ε → List (Mark ι ω ρ)} {Q : σ → Prop}
    {f : σ → Atomic ι τ ω ρ}
    (hstep : ∀ s e s', Q s → S.step s e = some s' → Q s' ∧ O.Moves (f s) (obs s e) (f s'))
    {s s' : σ} (hQ : Q s) (hs : f s = ⟨O.start, fun _ => .idle⟩) {es : List ε}
    (hr : S.run s es = some s') : O.Explains (S.trace obs s es) (f s').obj := by
  obtain ⟨as, t, hrun, htr, _, ht⟩ := System.simulate (S := S) (A := O.atomic ι) obs
    Atomic.marks (R := fun s t => Q s ∧ t = f s) (by
      rintro s e s' t ⟨hq, rfl⟩ he
      obtain ⟨hq', as, hr, ht⟩ := hstep s e s' hq he
      exact ⟨as, f s', hr, ht, hq', rfl⟩) ⟨hQ, rfl⟩ hr
  rw [hs] at hrun htr
  exact ⟨as, t, hrun, htr, by rw [ht]⟩

end Actions

end TransitionSystem
