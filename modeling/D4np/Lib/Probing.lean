import Mathlib.Data.Finset.Range
import Mathlib.Data.Finset.Card
import Mathlib.Data.List.GetD
import Mathlib.Data.Nat.ModEq
import Mathlib.Tactic.Common
import Mathlib.Tactic.NormNum

/-!
# Linear probing in a cyclic table

Probe number `d` of a search that starts at `start` in a table of `cap` slots looks at the slot
`(start + d) % cap`.  The first `cap` probes meet every slot once (`exists_probe`,
`probe_injective`).  `Reaches cap E start i`: the probes from `start` meet `i` before any slot of
`E`.  A search that stops at its first slot of `E` has then passed `i` (`Reaches.before`), and
`Reaches` survives whatever happens to the table as long as no slot joins `E` (`Reaches.mono`).
-/

namespace Probing

variable {cap start i : ℕ} {E E' : ℕ → Prop}

/-- Every slot is met by one of the first `cap` probes. -/
theorem exists_probe (start : ℕ) (hi : i < cap) : ∃ d < cap, (start + d) % cap = i := by
  have hcap : 0 < cap := by omega
  have hs := Nat.mod_lt start hcap
  by_cases h : start % cap ≤ i
  · refine ⟨i - start % cap, by omega, ?_⟩
    rw [Nat.add_mod, Nat.mod_eq_of_lt (show i - start % cap < cap by omega),
      show start % cap + (i - start % cap) = i by omega, Nat.mod_eq_of_lt hi]
  · refine ⟨i + cap - start % cap, by omega, ?_⟩
    rw [Nat.add_mod, Nat.mod_eq_of_lt (show i + cap - start % cap < cap by omega),
      show start % cap + (i + cap - start % cap) = i + cap by omega, Nat.add_mod_right,
      Nat.mod_eq_of_lt hi]

/-- Different probes among the first `cap` meet different slots. -/
theorem probe_injective {d e : ℕ} (hd : d < cap) (he : e < cap)
    (h : (start + d) % cap = (start + e) % cap) : d = e := by
  have hmod : d % cap = e % cap := Nat.ModEq.add_left_cancel' start h
  rwa [Nat.mod_eq_of_lt hd, Nat.mod_eq_of_lt he] at hmod

/-- The probes from `start` meet `i`, and up to there no slot of `E`. -/
def Reaches (cap : ℕ) (E : ℕ → Prop) (start i : ℕ) : Prop :=
  ∃ d < cap, (start + d) % cap = i ∧ ∀ e ≤ d, ¬ E ((start + e) % cap)

theorem Reaches.mono (h : Reaches cap E start i) (hE : ∀ j, E' j → E j) :
    Reaches cap E' start i := by
  obtain ⟨d, hd, hi, hno⟩ := h
  exact ⟨d, hd, hi, fun e he hE' => hno e he (hE _ hE')⟩

/-- A slot that is reached is met before any probe that meets `E`. -/
theorem Reaches.before (h : Reaches cap E start i) {d : ℕ} (hd : E ((start + d) % cap)) :
    ∃ e < d, (start + e) % cap = i := by
  obtain ⟨e, _, hi, hno⟩ := h
  refine ⟨e, ?_, hi⟩
  by_contra hle
  exact hno d (by omega) hd

/-! ## Counting slots -/

end Probing
