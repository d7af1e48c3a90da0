import D4np.Io.FileFrame

/-!
# Is a whole-file write durable?

`file.h` promises that writes are durable and atomic.  A call of `d4np_file_write_all` syncs the
temporary file before it renames it, but not the directory after that, so a crash may take the
rename back: the target leads again to where its directory led when it was last synced.  The data
then survives only if that place has it too (`writeAll_durable_iff`), or once somebody else has
synced the directory (`writeAll_durable_after_syncDir`).
-/

namespace D4np

open Posix TransitionSystem

namespace File

/-- What may happen to a disk after a call that left it as `d₀`, as long as nobody writes the target
again. -/
def afterwards (path : Name) (d₀ : Disk) : System Disk Disk.Op :=
  System.guarded ⟨fun d => d = d₀, Disk.step⟩ (Disk.LeavesAlone path)

/-- A crash at any later time leaves the target with the data. -/
def DurableWrite (path : Name) (data : List UInt8) (d₀ : Disk) : Prop :=
  ∀ d, Reachable (afterwards path d₀) d → ∀ c, Crash d.durable d.fs c → c.content path = some data

/-- Before the call, the durable entry of the target already led to the file behind the temporary
name, or to a synced file with the same data. -/
def AlreadyDurable (path : Name) (data : List UInt8) (d₀ : Disk) : Prop :=
  ∃ j, d₀.durable path = some j ∧ (d₀.fs.names (tmpName path) = some j ∨
    (d₀.fs.files j).synced = true ∧ (d₀.fs.files j).data = data)

variable {path : Name} {data : List UInt8} {fs₀ fs : FileSystem} {durable : Name → Option ℕ}

theorem Call.replaced (h : Call path data fs₀ .ok fs) : Replaced path data fs₀ fs :=
  reachable_soloOk h

/-- The file behind the new name of the target was synced before it was renamed. -/
theorem Replaced.holds (h : Replaced path data fs₀ fs) :
    (Disk.mk fs durable).Holds data (fs.names path) :=
  ⟨_, h.target, h.synced, h.data⟩

/-- The file of a name that existed is the temporary file exactly if it was behind its name. -/
theorem eq_tmpFile_iff {j : ℕ} (hj : j < fs₀.nextFile) :
    j = tmpFile path fs₀ ↔ fs₀.names (tmpName path) = some j := by
  unfold tmpFile FileSystem.openTrunc
  rcases ht : fs₀.names (tmpName path) with _ | i
  · exact ⟨fun h => absurd h (Nat.ne_of_lt hj), fun h => by cases h⟩
  · exact ⟨fun h => congrArg some h.symm, fun h => (Option.some.inj h).symm⟩

/-- The disk after a call, in terms of the disk before. -/
theorem Replaced.safe_iff (h : Replaced path data fs₀ fs)
    (hd : ∀ j, durable path = some j → j < fs₀.nextFile) :
    (Disk.mk fs durable).Safe path data ↔ AlreadyDurable path data ⟨fs₀, durable⟩ := by
  constructor
  · rintro ⟨-, j, hj, hsync, hdata⟩
    refine ⟨j, hj, ?_⟩
    by_cases ht : j = tmpFile path fs₀
    · exact Or.inl ((eq_tmpFile_iff (hd j hj)).mp ht)
    · right
      rw [show Disk.fs ⟨fs₀, durable⟩ = fs₀ from rfl, ← h.files j ht]
      exact ⟨hsync, hdata⟩
  · rintro ⟨j, hj, hdurable⟩
    refine ⟨h.holds, j, hj, ?_⟩
    by_cases ht : j = tmpFile path fs₀
    · rw [ht]
      exact ⟨h.synced, h.data⟩
    · rw [show Disk.fs ⟨fs, durable⟩ = fs from rfl, h.files j ht]
      exact hdurable.resolve_left fun hn => ht ((eq_tmpFile_iff (hd j hj)).mpr hn)

/-- Data that is safe stays safe. -/
theorem safe_afterwards {d₀ d : Disk} (h0 : d₀.Safe path data)
    (h : Reachable (afterwards path d₀) d) : d.Safe path data := by
  refine h.induct_guarded (P := fun d => d.Safe path data) ?_ ?_
  · rintro _ rfl
    exact h0
  · intro d op d' ih hg hs
    exact ih.step hg hs

/-- **When a whole-file write is durable.** After a call that returned success, a crash at any later
time leaves the target with the data exactly if its durable entry already led to the file behind the
temporary name, or to a synced file with the same data. -/
theorem writeAll_durable_iff (h : Call path data fs₀ .ok fs)
    (hd : ∀ j, durable path = some j → j < fs₀.nextFile) :
    DurableWrite path data ⟨fs, durable⟩ ↔ AlreadyDurable path data ⟨fs₀, durable⟩ := by
  rw [← h.replaced.safe_iff hd]
  constructor
  · intro hall
    exact Disk.crash_iff_safe.mp (hall _ (.init rfl))
  · intro hsafe d hr
    exact Disk.crash_iff_safe.mpr (safe_afterwards hsafe hr)

/-- The target's new entry leads to the data at every later time, synced or not. -/
theorem holds_afterwards {d₀ d : Disk} (h0 : d₀.Holds data (d₀.fs.names path))
    (h : Reachable (afterwards path d₀) d) : d.Holds data (d.fs.names path) := by
  refine h.induct_guarded (P := fun d => d.Holds data (d.fs.names path)) ?_ ?_
  · rintro _ rfl
    exact h0
  · intro d op d' ih hg hs
    rw [(Disk.step_of_leavesAlone hg hs).1]
    exact ih.step (Or.inl rfl) hg hs

/-- **What is missing is the sync of the directory.** Whoever makes it after the call makes the
write durable, whatever the directory held before. -/
theorem writeAll_durable_after_syncDir (h : Call path data fs₀ .ok fs) {d : Disk}
    (hr : Reachable (afterwards path ⟨fs, durable⟩) d) {dir : Name → Bool} (hdir : dir path = true)
    {d' : Disk} (hs : d.step (.syncDir dir) = some d') : DurableWrite path data d' := by
  have hnow : d.Holds data (d.fs.names path) := holds_afterwards h.replaced.holds hr
  cases hs
  have hsafe : Disk.Safe path data
      ⟨d.fs, fun n => if dir n then d.fs.names n else d.durable n⟩ := by
    refine ⟨hnow, ?_⟩
    show Disk.Holds _ data (if dir path then _ else _)
    rw [if_pos hdir]
    exact hnow
  exact fun d' hr' => Disk.crash_iff_safe.mpr (safe_afterwards hsafe hr')

/-- A call that writes again what `f` holds, after everything was synced. -/
theorem writeAll_durable_iff_same_data :
    Call [0x66] [9] oneFile .ok (after [0x66] [9] oneFile) ∧
    DurableWrite [0x66] [9] ⟨after [0x66] [9] oneFile, oneFile.names⟩ := by
  have h : CleanCall [0x66] [9] oneFile .ok (after [0x66] [9] oneFile) := cleanCall_of_run rfl
  refine ⟨h.call, (writeAll_durable_iff h.call fun j hj => oneFile.names_lt hj).mpr ?_⟩
  exact ⟨0, rfl, Or.inr ⟨rfl, rfl⟩⟩

/-- `f`, with everything synced, is written with success, and a crash brings the old content
back. -/
theorem writeAll_not_durable :
    Call [0x66] [1, 2] oneFile .ok (after [0x66] [1, 2] oneFile) ∧
    (∃ c, Crash oneFile.names (after [0x66] [1, 2] oneFile) c ∧ c.content [0x66] = some [9]) ∧
    ¬ DurableWrite [0x66] [1, 2] ⟨after [0x66] [1, 2] oneFile, oneFile.names⟩ := by
  have h : CleanCall [0x66] [1, 2] oneFile .ok (after [0x66] [1, 2] oneFile) := cleanCall_of_run rfl
  have hcrash : ∃ c, Crash oneFile.names (after [0x66] [1, 2] oneFile) c ∧
      c.content [0x66] = some [9] :=
    ⟨Disk.afterCrash ⟨after [0x66] [1, 2] oneFile, oneFile.names⟩ [0x66] [] (some 0),
      Disk.crash_afterCrash (d := ⟨_, _⟩) [] (Or.inr rfl), rfl⟩
  refine ⟨h.call, hcrash, fun hall => ?_⟩
  obtain ⟨c, hc, hold⟩ := hcrash
  have hnew : c.content [0x66] = some [1, 2] := hall _ (.init rfl) c hc
  rw [hold] at hnew
  exact absurd hnew (by decide)

end File

end D4np
