import D4np.Concurrency.Semaphore
import D4np.Lib.Potential

/-!
# No thread hangs at the semaphore

Every step of a thread spends potential: the steps it still has before its return or its sleep.  A
post brings in enough to wake every other thread, since a signal may wake more than one, and each of
those looks at the count again; a wake-up without a signal pays for itself.  So the threads cannot
keep each other busy, and a run is over after a number of steps that is bounded by its calls.

Where it is over nobody is inside the critical section, nobody waits for the mutex, and who still
sleeps does so at a count of zero.
-/

namespace D4np

open Word64 TransitionSystem

namespace Semaphore

variable {ι : Type*} [DecidableEq ι] [Fintype ι]

/-- The steps a thread can still take, when a signal may wake `n` threads; a woken one takes four. -/
def remaining (n : ℕ) : SemPc → ℕ
  | .idle | .sleeping => 0
  | .waitUnlock | .tryUnlock _ | .postUnlock => 1
  | .waitDec _ | .tryDec => 2
  | .waitCheck _ | .tryCheck => 3
  | .waitLock | .relock | .tryLock => 4
  | .postSignal => 4 * n + 2
  | .postInc => 4 * n + 3
  | .postLock => 4 * n + 4

/-- The potential of the threads. -/
def potential (s : Semaphore ι) : ℕ := ∑ i, remaining (Fintype.card ι) (s.pc i)

/-- What an event brings in. -/
def gain (n : ℕ) : Event ι → ℕ
  | .call _ _ => 4 * n + 5
  | .spurious _ => 5
  | _ => 0

/-- The potential after one thread has moved. -/
theorem potential_update (s : Semaphore ι) (i : ι) (c : SemPc) (count : ℕ) (holder : Option ι)
    (taken posted : ℕ) :
    potential ⟨count, holder, Function.update s.pc i c, taken, posted⟩ +
      remaining (Fintype.card ι) (s.pc i) = s.potential + remaining (Fintype.card ι) c := by
  have hnew := Finset.add_sum_erase Finset.univ
    (fun j => remaining (Fintype.card ι) (Function.update s.pc i c j)) (Finset.mem_univ i)
  have hold := Finset.add_sum_erase Finset.univ (fun j => remaining (Fintype.card ι) (s.pc j))
    (Finset.mem_univ i)
  have hrest : ∑ j ∈ Finset.univ.erase i, remaining (Fintype.card ι) (Function.update s.pc i c j) =
      ∑ j ∈ Finset.univ.erase i, remaining (Fintype.card ι) (s.pc j) := by
    apply Finset.sum_congr rfl
    intro j hj
    rw [Function.update_of_ne (Finset.ne_of_mem_erase hj)]
  simp only [Function.update_self] at hnew
  simp only [potential]
  omega

section Steps

variable {s t : Semaphore ι} {i : ι}

/-- A thread that moves to where fewer steps remain. -/
theorem potential_move {c : SemPc} (hc : remaining (Fintype.card ι) c < remaining (Fintype.card ι) (s.pc i))
    (count : ℕ) (holder : Option ι) (taken posted : ℕ) :
    potential ⟨count, holder, Function.update s.pc i c, taken, posted⟩ + 1 ≤ s.potential := by
  have h := potential_update s i c count holder taken posted
  omega

theorem lock_potential {c : SemPc} (ht : s.lock i c = some t)
    (hc : remaining (Fintype.card ι) c < remaining (Fintype.card ι) (s.pc i)) :
    t.potential + 1 ≤ s.potential := by
  unfold lock at ht
  split_ifs at ht
  obtain rfl := Option.some.inj ht
  exact potential_move hc ..

theorem advance_potential (ht : s.advance i = some t) : t.potential + 1 ≤ s.potential := by
  unfold advance at ht
  rcases hpc : s.pc i with _ | _ | slept | _ | _ | slept | _ | _ | _ | _ | ok | _ | _ | _ | _
  all_goals rw [hpc] at ht
  · cases ht
  · exact lock_potential ht (by rw [hpc]; simp [remaining])
  · simp only at ht
    split_ifs at ht <;> obtain rfl := Option.some.inj ht
    · exact potential_move (c := .sleeping) (by rw [hpc]; simp [remaining]) ..
    · exact potential_move (c := .waitDec slept) (by rw [hpc]; simp [remaining]) ..
  · cases ht
  · exact lock_potential ht (by rw [hpc]; simp [remaining])
  · obtain rfl := Option.some.inj ht
    exact potential_move (c := .waitUnlock) (by rw [hpc]; simp [remaining]) ..
  · obtain rfl := Option.some.inj ht
    exact potential_move (c := .idle) (by rw [hpc]; simp [remaining]) ..
  · exact lock_potential ht (by rw [hpc]; simp [remaining])
  · obtain rfl := Option.some.inj ht
    by_cases hpos : s.count > 0
    · rw [if_pos hpos]
      exact potential_move (c := .tryDec) (by rw [hpc]; simp [remaining]) ..
    · rw [if_neg hpos]
      exact potential_move (c := .tryUnlock false) (by rw [hpc]; simp [remaining]) ..
  · obtain rfl := Option.some.inj ht
    exact potential_move (c := .tryUnlock true) (by rw [hpc]; simp [remaining]) ..
  · obtain rfl := Option.some.inj ht
    exact potential_move (c := .idle) (by rw [hpc]; simp [remaining]) ..
  · exact lock_potential ht (by rw [hpc]; exact Nat.lt_succ_self _)
  · obtain rfl := Option.some.inj ht
    exact potential_move (c := .postSignal) (by rw [hpc]; exact Nat.lt_succ_self _) ..
  · cases ht
  · obtain rfl := Option.some.inj ht
    exact potential_move (c := .idle) (by rw [hpc]; simp [remaining]) ..

/-- A signal pays for the threads it wakes. -/
theorem signal_potential {woken : Finset ι} (hi : s.pc i = .postSignal)
    (hw : ∀ j ∈ woken, s.pc j = .sleeping) :
    potential { s with pc := s.wake i woken } + 1 ≤ s.potential := by
  have hle : ∀ j, remaining (Fintype.card ι) (s.wake i woken j) ≤
      remaining (Fintype.card ι) (Function.update s.pc i .postUnlock j) +
        if j = i then 0 else 4 := by
    intro j
    rcases wake_cases s i hw j with ⟨rfl, he⟩ | ⟨hj, _, hsl, he⟩ | ⟨hj, _, he⟩
    · rw [he, Function.update_self]
      exact Nat.le_add_right _ _
    · rw [he, Function.update_of_ne hj, hsl, if_neg hj]
      exact le_refl _
    · rw [he, Function.update_of_ne hj]
      exact Nat.le_add_right _ _
  have hsum := Finset.sum_le_sum fun j (_ : j ∈ Finset.univ) => hle j
  rw [Finset.sum_add_distrib] at hsum
  have hfour : ∑ j : ι, (if j = i then 0 else 4) ≤ 4 * Fintype.card ι := by
    calc ∑ j : ι, (if j = i then 0 else 4) ≤ ∑ _j : ι, 4 := by
          apply Finset.sum_le_sum
          intro j _
          split_ifs <;> omega
      _ = 4 * Fintype.card ι := by
          rw [Finset.sum_const, Finset.card_univ, smul_eq_mul, Nat.mul_comm]
  have hupd := potential_update s i .postUnlock s.count s.holder s.taken s.posted
  rw [hi] at hupd
  simp only [remaining] at hupd
  simp only [potential] at hupd ⊢
  omega

/-- **Every step spends**, and only calls and wake-ups without a signal bring anything in. -/
theorem step_potential {e : Event ι} (ht : s.step e = some t) :
    t.potential + 1 ≤ s.potential + gain (Fintype.card ι) e := by
  cases e with
  | call i c =>
    simp only [step] at ht
    split_ifs at ht with hi
    obtain rfl := Option.some.inj ht
    have h := potential_update s i (entry c) s.count s.holder s.taken s.posted
    have hc : remaining (Fintype.card ι) (entry c) ≤ 4 * Fintype.card ι + 4 := by
      cases c <;> simp [entry, remaining]
    rw [hi, show remaining (Fintype.card ι) .idle = 0 from rfl] at h
    simp only [goto, gain]
    omega
  | run i => exact advance_potential ht
  | signal i woken =>
    simp only [step] at ht
    split_ifs at ht with hi
    obtain rfl := Option.some.inj ht
    exact signal_potential hi.1 hi.2.1
  | spurious i =>
    simp only [step] at ht
    split_ifs at ht with hi
    obtain rfl := Option.some.inj ht
    have h := potential_update s i .relock s.count s.holder s.taken s.posted
    rw [hi] at h
    simp only [remaining, Nat.add_zero] at h
    simp only [goto, gain]
    omega

end Steps

/-! ## Where a run is over -/

/-- An event the threads in a call make happen by themselves. -/
def Event.Internal : Event ι → Prop
  | .run _ => True
  | .signal _ _ => True
  | _ => False

/-- The events that bring in work: a call, and a wake-up without a signal. -/
def Event.brings : Event ι → Bool
  | .call _ _ => true
  | .spurious _ => true
  | _ => false

omit [Fintype ι] [DecidableEq ι] in
theorem sum_gain_le (n : ℕ) (es : List (Event ι)) :
    (es.map (gain n)).sum ≤ (4 * n + 5) * es.countP Event.brings := by
  induction es with
  | nil => exact le_refl _
  | cons e es ih =>
    rw [List.map_cons, List.sum_cons, List.countP_cons, Nat.mul_add]
    cases e <;> simp only [gain, Event.brings, if_true, Bool.false_eq_true, if_false] <;> omega

section Quiet

variable {n : ℕ} {s : Semaphore ι}

/-- A thread inside its critical section can go on. -/
theorem inside_can_step (hq : (system ι n).Quiet Event.Internal s) (i : ι) :
    (s.pc i).inside = false := by
  have hrun : s.advance i = none := hq (.run i) trivial
  have hsig : s.step (.signal i (Finset.univ.filter fun j => s.pc j = .sleeping)) = none :=
    hq (.signal i _) trivial
  unfold advance at hrun
  rcases hpc : s.pc i with _ | _ | slept | _ | _ | slept | _ | _ | _ | _ | ok | _ | _ | _ | _
  all_goals rw [hpc] at hrun
  · rfl
  · rfl
  · simp only at hrun
    split_ifs at hrun
  · rfl
  · rfl
  · cases hrun
  · cases hrun
  · rfl
  · cases hrun
  · cases hrun
  · cases hrun
  · rfl
  · cases hrun
  · -- the signal that wakes every sleeper
    rw [step, if_pos] at hsig
    · cases hsig
    · refine ⟨hpc, fun j hj => (Finset.mem_filter.mp hj).2, ?_⟩
      rintro ⟨j, hj⟩
      exact ⟨j, Finset.mem_filter.mpr ⟨Finset.mem_univ j, hj⟩⟩
  · cases hrun

/-- When nobody can go on, everybody has returned or sleeps. -/
theorem Inv.idle_or_sleeping (h : Inv n s) (hq : (system ι n).Quiet Event.Internal s) (i : ι) :
    s.pc i = .idle ∨ s.pc i = .sleeping := by
  have hfree : s.holder = none := by
    rcases hh : s.holder with _ | j
    · rfl
    · have := (h.mutex j).mpr hh
      rw [inside_can_step hq j] at this
      cases this
  have hin := inside_can_step hq i
  have hrun : s.advance i = none := hq (.run i) trivial
  have hlock : ∀ c, s.lock i c ≠ none := by
    intro c
    unfold Semaphore.lock
    rw [if_pos hfree]
    exact Option.some_ne_none _
  unfold Semaphore.advance at hrun
  rcases hpc : s.pc i with _ | _ | slept | _ | _ | slept | _ | _ | _ | _ | ok | _ | _ | _ | _
  all_goals rw [hpc] at hrun hin
  · exact Or.inl rfl
  · exact absurd hrun (hlock _)
  · cases hin
  · exact Or.inr rfl
  · exact absurd hrun (hlock _)
  · cases hin
  · cases hin
  · exact absurd hrun (hlock _)
  · cases hin
  · cases hin
  · cases hin
  · exact absurd hrun (hlock _)
  · cases hin
  · cases hin
  · cases hin

/-- Who sleeps when nobody can go on sleeps at a count of zero. -/
theorem Inv.count_eq_zero (h : Inv n s) (hq : (system ι n).Quiet Event.Internal s)
    (hs : ∃ i, s.pc i = .sleeping) : s.count = 0 := by
  have hzero : ∑ j, (s.pc j).worth = 0 := by
    apply Finset.sum_eq_zero
    intro j _
    rcases h.idle_or_sleeping hq j with hj | hj <;> rw [hj] <;> rfl
  have := h.awake hs
  omega

end Quiet

/-- **No thread hangs.** Whatever any threads call, in any interleaving in which no post finds the
count at its maximum: a run has at most `4 n + 5` steps for each of its calls and each wake-up
without a signal, where `n` is the number of threads; and where no thread can take a step, every
call has returned but the waits asleep at a count of zero. -/
theorem semaphore_completes {n : ℕ} (hn : n < 2 ^ 32) {s₀ s : Semaphore ι}
    (hinit : (system ι n).init s₀) {es : List (Event ι)}
    (hr : ((system ι n).guarded NotFull).run s₀ es = some s) :
    es.length ≤ (4 * Fintype.card ι + 5) * es.countP Event.brings ∧
    ((system ι n).Quiet Event.Internal s →
      (∀ i, s.pc i = .idle ∨ s.pc i = .sleeping) ∧ ((∃ i, s.pc i = .sleeping) → s.count = 0)) := by
  have hI := inv_init hn hinit
  constructor
  · have hlen := System.length_le (S := (system ι n).guarded NotFull) (Q := fun _ => True)
      (Φ := potential) (g := gain (Fintype.card ι)) (fun _ _ _ _ _ => trivial)
      (fun s e t _ ht => step_potential (System.guarded_step.mp ht).2) trivial hr
    have h0 : s₀.potential = 0 := by
      obtain ⟨mutexOk, condOk, he⟩ := hinit
      unfold init at he
      split_ifs at he
      cases he
      exact Finset.sum_eq_zero fun _ _ => rfl
    have hsum := sum_gain_le (Fintype.card ι) es
    omega
  · intro hq
    have hI : Inv n s := reachable_inv hn (Reachable.run (.init hinit) hr)
    exact ⟨hI.idle_or_sleeping hq, hI.count_eq_zero hq⟩

/-- A wait that sleeps: the run is over, and the count is zero. -/
theorem semaphore_completes_asleep :
    ∃ s₀ s : Semaphore (Fin 2), (system (Fin 2) 0).init s₀ ∧
      ((system (Fin 2) 0).guarded NotFull).run s₀ [.call 0 .wait, .run 0, .run 0] = some s ∧
      (system (Fin 2) 0).Quiet Event.Internal s ∧ s.pc 0 = .sleeping ∧ s.count = 0 := by
  let s₀ : Semaphore (Fin 2) := ⟨0, none, fun _ => .idle, 0, 0⟩
  have h0 : (system (Fin 2) 0).init s₀ := ⟨true, true, rfl⟩
  obtain ⟨s, hs, hpc, hpc'⟩ : ∃ s, ((system (Fin 2) 0).guarded NotFull).run s₀
      [.call 0 .wait, .run 0, .run 0] = some s ∧ s.pc 0 = .sleeping ∧ s.pc 1 = .idle :=
    ⟨_, rfl, rfl, rfl⟩
  have hall : ∀ i, s.pc i = .sleeping ∨ s.pc i = .idle := by
    intro i
    fin_cases i
    · exact Or.inl hpc
    · exact Or.inr hpc'
  have hq : (system (Fin 2) 0).Quiet Event.Internal s := by
    intro e he
    cases e with
    | call i c => exact absurd he id
    | spurious i => exact absurd he id
    | run i =>
      show s.advance i = none
      rcases hall i with hi | hi <;> simp only [advance, hi]
    | signal i woken =>
      show s.step (.signal i woken) = none
      rcases hall i with hi | hi <;> simp [step, hi]
  exact ⟨s₀, s, h0, hs, hq, hpc, ((semaphore_completes (by norm_num) h0 hs).2 hq).2 ⟨0, hpc⟩⟩

end Semaphore

end D4np
