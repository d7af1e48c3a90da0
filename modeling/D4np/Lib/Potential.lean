import D4np.Lib.TransitionSystem
import Mathlib.Algebra.BigOperators.Group.List.Basic
import Mathlib.Tactic.Linarith

/-!
# Potentials

A potential charges the work of a run to its events.  If every step does at most as much work as
the potential falls by, less what the event brings in (its gain), then the work of a whole run is at
most the potential it starts with and the gains of its events (`System.work_le`).  With one unit of work
for each step this bounds the length of a run (`System.length_le`), with one for each step of one
side it bounds that side's steps, whatever the others do (`System.own_steps_le`), and where a class
of events brings in nothing, every state has a run of such events to a state in which none of them
can happen (`System.exists_quiet`).

The second part is the potential of a table that grows before it is too full (`load`): a table that
at least doubles its capacity when it is full for its load factor has saved up the cost of the move
(`load_grow`).
-/

namespace TransitionSystem

variable {σ ε : Type*} {S : System σ ε}

/-- The work of a run, when the event `e` does the work `c s e` in the state `s`. -/
def System.work (S : System σ ε) (c : σ → ε → ℕ) : σ → List ε → ℕ
  | _, [] => 0
  | s, e :: es => c s e + ((S.step s e).map fun t => S.work c t es).getD 0

/-- None of the events in `I` can happen. -/
def System.Quiet (S : System σ ε) (I : ε → Prop) (s : σ) : Prop := ∀ e, I e → S.step s e = none

section Rules

variable {Q : σ → Prop} {Φ : σ → ℕ} {g : ε → ℕ}

/-- **The potential rule**, relative to an invariant `Q`. -/
theorem System.work_le {c : σ → ε → ℕ} (hQ : ∀ s e t, Q s → S.step s e = some t → Q t)
    (hstep : ∀ s e t, Q s → S.step s e = some t → Φ t + c s e ≤ Φ s + g e) {s t : σ} (hs : Q s)
    {es : List ε} (hr : S.run s es = some t) :
    Φ t + S.work c s es ≤ Φ s + (es.map g).sum := by
  induction es generalizing s with
  | nil =>
    cases hr
    exact le_refl _
  | cons e es ih =>
    obtain ⟨u, hu, hr⟩ := Option.bind_eq_some_iff.mp hr
    have h1 := hstep s e u hs hu
    have h2 := ih (hQ s e u hs hu) hr
    have hwork : S.work c s (e :: es) = c s e + S.work c u es := by
      rw [System.work, hu]
      rfl
    rw [hwork, List.map_cons, List.sum_cons]
    omega

/-- The potential rule for a potential that includes the work done so far. -/
theorem System.gain_le (hQ : ∀ s e t, Q s → S.step s e = some t → Q t)
    (hstep : ∀ s e t, Q s → S.step s e = some t → Φ t ≤ Φ s + g e) {s t : σ} (hs : Q s)
    {es : List ε} (hr : S.run s es = some t) : Φ t ≤ Φ s + (es.map g).sum :=
  (Nat.le_add_right _ _).trans (System.work_le (c := fun _ _ => 0) hQ hstep hs hr)

/-- The work of a run in which the events of one kind do one unit each. -/
theorem System.work_countP (own : ε → Bool) {s t : σ} {es : List ε} (hr : S.run s es = some t) :
    S.work (fun _ e => if own e then 1 else 0) s es = es.countP own := by
  induction es generalizing s with
  | nil => rfl
  | cons e es ih =>
    obtain ⟨u, hu, hr⟩ := Option.bind_eq_some_iff.mp hr
    rw [System.work, hu, List.countP_cons, Option.map_some, Option.getD_some, ih hr]
    omega

/-- A potential that every step spends one unit of bounds the length of every run. -/
theorem System.length_le (hQ : ∀ s e t, Q s → S.step s e = some t → Q t)
    (hstep : ∀ s e t, Q s → S.step s e = some t → Φ t + 1 ≤ Φ s + g e) {s t : σ} (hs : Q s)
    {es : List ε} (hr : S.run s es = some t) : Φ t + es.length ≤ Φ s + (es.map g).sum := by
  have h := System.work_le (c := fun _ e => if (fun _ => true) e then 1 else 0) hQ hstep hs hr
  rw [System.work_countP (fun _ => true) hr, List.countP_true] at h
  exact h

/-- The gains of a run in which the events of one kind bring in `b` each. -/
theorem sum_ite_eq (call : ε → Bool) (b : ℕ) (es : List ε) :
    (es.map fun e => if call e then b else 0).sum = b * es.countP call := by
  induction es with
  | nil => rfl
  | cons e es ih =>
    rw [List.map_cons, List.sum_cons, ih, List.countP_cons, Nat.mul_add]
    split_ifs <;> omega

/-- **The steps of one side.** A side whose own steps lower a measure, which the other steps leave
alone and which a call raises by at most `b`, takes at most `b` steps for each of its calls. -/
theorem System.own_steps_le {own call : ε → Bool} {b : ℕ}
    (hQ : ∀ s e t, Q s → S.step s e = some t → Q t)
    (hstep : ∀ s e t, Q s → S.step s e = some t →
      Φ t + (if own e then 1 else 0) ≤ Φ s + if call e then b else 0) {s t : σ} (hs : Q s)
    {es : List ε} (hr : S.run s es = some t) :
    Φ t + es.countP own ≤ Φ s + b * es.countP call := by
  have h := System.work_le (c := fun _ e => if own e then 1 else 0)
    (g := fun e => if call e then b else 0) hQ hstep hs hr
  rw [System.work_countP own hr, sum_ite_eq] at h
  exact h

/-- Events that bring in nothing cannot go on for ever: from every state they lead to one in which
none of them can happen. -/
theorem System.exists_quiet {I : ε → Prop} (hQ : ∀ s e t, Q s → S.step s e = some t → Q t)
    (hstep : ∀ s e t, Q s → I e → S.step s e = some t → Φ t < Φ s) {s : σ} (hs : Q s) :
    ∃ es t, (∀ e ∈ es, I e) ∧ S.run s es = some t ∧ S.Quiet I t := by
  induction hn : Φ s using Nat.strong_induction_on generalizing s with
  | _ n ih =>
    by_cases hquiet : S.Quiet I s
    · exact ⟨[], s, fun e he => absurd he List.not_mem_nil, rfl, hquiet⟩
    · simp only [System.Quiet, not_forall] at hquiet
      obtain ⟨e, hI, he⟩ := hquiet
      obtain ⟨u, hu⟩ := Option.ne_none_iff_exists'.mp he
      have hlt := hstep s e u hs hI hu
      obtain ⟨es, t, hes, hr, hq⟩ := ih (Φ u) (hn ▸ hlt) (hQ s e u hs hu) rfl
      refine ⟨e :: es, t, ?_, ?_, hq⟩
      · intro x hx
        rcases List.mem_cons.mp hx with rfl | hx
        · exact hI
        · exact hes x hx
      · rw [System.run, hu]
        exact hr

end Rules

/-! ## Tables that grow -/

section Load

variable {a b used cap : ℕ}

/-- The potential of a table of capacity `cap` with `used` places in use: `a` for each of these,
less `b` for each place there is. -/
def load (a b used cap : ℕ) : ℕ := a * used - b * cap

theorem load_mono {used' cap' : ℕ} (hused : used' ≤ used) (hcap : cap ≤ cap') :
    load a b used' cap' ≤ load a b used cap :=
  tsub_le_tsub (Nat.mul_le_mul_left a hused) (Nat.mul_le_mul_left b hcap)

/-- **Growth is paid for.** A table that at least doubles, once the places in use and the `k` to
come are worth twice what its capacity is, pays `b` for each of its old places out of its
potential. -/
theorem load_grow {cap' k : ℕ} (hfull : 2 * (b * cap) ≤ a * (used + k)) (hcap : 2 * cap ≤ cap') :
    load a b (used + k) cap' + b * cap ≤ load a b used cap + a * k := by
  have hdouble : 2 * (b * cap) ≤ b * cap' := by
    rw [Nat.mul_left_comm]
    exact Nat.mul_le_mul_left b hcap
  unfold load
  rw [Nat.mul_add] at hfull ⊢
  omega

end Load

end TransitionSystem
