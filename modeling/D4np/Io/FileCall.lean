import D4np.Io.File

/-!
# One whole-file write

A call of `d4np_file_write_all` on its own, from its entry to its return, with any pattern of
failures.  Until the rename the name of the target and every file but the temporary one are as they
were before the call, and the temporary file holds a prefix of the data; the rename comes only after
the whole of it was synced.  So the target changes at once, from what it was to all of the data, and
a crash on either side of the rename leaves one or the other.
-/

namespace D4np

open Posix TransitionSystem

namespace File

/-- A call of `d4np_file_write_all` on its own, made in the file system `fs₀`. -/
def solo (path : Name) (data : List UInt8) (fs₀ : FileSystem) : System (FileSystem × Pc) Act where
  init s := s = (fs₀, writeAll path)
  step s a := step path data s.1 s.2 a

/-- The temporary file can be removed. -/
def RemoveSucceeds (s : FileSystem × Pc) (a : Act) : Prop := s.2 = .remove → a ≠ .ret false

instance (s : FileSystem × Pc) (a : Act) : Decidable (RemoveSucceeds s a) :=
  inferInstanceAs (Decidable (_ → _))

/-! ## The invariant of a call -/

/-- The file a call works on. -/
def tmpFile (path : Name) (fs₀ : FileSystem) : ℕ := (fs₀.openTrunc (tmpName path)).1

/-- The target's name, the names a call does not use and the files it does not use are as they
were. -/
structure Frame (path : Name) (fs₀ fs : FileSystem) : Prop where
  target : fs.names path = fs₀.names path
  others : ∀ n, n ≠ tmpName path → n ≠ path → fs.names n = fs₀.names n
  files : ∀ j, j ≠ tmpFile path fs₀ → fs.files j = fs₀.files j

/-- The temporary file is behind its name and holds `bytes`. -/
structure Temp (path : Name) (fs₀ fs : FileSystem) (file : ℕ) (bytes : List UInt8) : Prop
    extends Frame path fs₀ fs where
  file_eq : file = tmpFile path fs₀
  name : fs.names (tmpName path) = some file
  data : (fs.files file).data = bytes

/-- The temporary file has taken the place of the target.  Its own name is gone, unless it was the
target's file from the start. -/
structure Replaced (path : Name) (data : List UInt8) (fs₀ fs : FileSystem) : Prop where
  target : fs.names path = some (tmpFile path fs₀)
  others : ∀ n, n ≠ tmpName path → n ≠ path → fs.names n = fs₀.names n
  files : ∀ j, j ≠ tmpFile path fs₀ → fs.files j = fs₀.files j
  data : (fs.files (tmpFile path fs₀)).data = data
  synced : (fs.files (tmpFile path fs₀)).synced = true
  tmp : fs.names (tmpName path) = none ∨ fs₀.names path = some (tmpFile path fs₀)

/-- What a call knows at each position. -/
def SoloOk (path : Name) (data : List UInt8) (fs₀ fs : FileSystem) : Pc → Prop
  | .fopen => fs = fs₀
  | .fwrite file pos | .fflush file pos | .abort file pos =>
    Temp path fs₀ fs file (data.take pos) ∧ pos ≤ data.length
  | .fsync file => Temp path fs₀ fs file data
  | .fclose file => Temp path fs₀ fs file data ∧ (fs.files file).synced = true
  | .rename => Temp path fs₀ fs (tmpFile path fs₀) data ∧
    (fs.files (tmpFile path fs₀)).synced = true
  | .remove => Frame path fs₀ fs
  | .returned .ok => Replaced path data fs₀ fs
  | .returned _ => Frame path fs₀ fs

variable {path : Name} {data bytes : List UInt8} {fs₀ fs fs' : FileSystem} {pc pc' : Pc}
  {file pos n : ℕ} {a : Act}

theorem Frame.refl (path : Name) (fs : FileSystem) : Frame path fs fs :=
  ⟨rfl, fun _ _ _ => rfl, fun _ _ => rfl⟩

/-- `fopen` creates the temporary file, or truncates what was there. -/
theorem temp_open (path : Name) (fs₀ : FileSystem) :
    Temp path fs₀ (fs₀.openTrunc (tmpName path)).2 (tmpFile path fs₀) [] := by
  obtain ⟨hname, hdata, hnames, hfiles, -, -⟩ := fs₀.openTrunc_spec (tmpName path)
  exact ⟨⟨hnames path (tmpName_ne path).symm, fun n hn _ => hnames n hn, hfiles⟩, rfl, hname, hdata⟩

theorem Temp.write (h : Temp path fs₀ fs file (data.take pos)) (hn : pos + n ≤ data.length) :
    Temp path fs₀ (fs.write file pos ((data.drop pos).take n)) file (data.take (pos + n)) where
  target := h.target
  others := h.others
  files := by
    intro j hj
    rw [← h.files j hj]
    exact FileSystem.setData_files_of_ne (h.file_eq ▸ hj)
  file_eq := h.file_eq
  name := h.name
  data := by
    have ht : TempHolds path fs file (data.take pos) := ⟨Or.inr h.name, h.data⟩
    exact (ht.write hn).2

theorem Temp.writeOut (h : Temp path fs₀ fs file (data.take pos))
    (hw : File.writeOut data fs file pos n = some fs') :
    Temp path fs₀ fs' file (data.take (pos + n)) ∧ pos + n ≤ data.length := by
  unfold File.writeOut at hw
  split_ifs at hw with hn
  cases hw
  exact ⟨h.write hn.2, hn.2⟩

theorem Temp.sync (h : Temp path fs₀ fs file bytes) : Temp path fs₀ (fs.sync file) file bytes where
  target := h.target
  others := h.others
  files := by
    intro j hj
    rw [← h.files j hj]
    exact FileSystem.sync_files_of_ne (h.file_eq ▸ hj)
  file_eq := h.file_eq
  name := h.name
  data := by
    rw [FileSystem.sync_data]
    exact h.data

/-- The rename puts the temporary file in the place of the target. -/
theorem Temp.rename (h : Temp path fs₀ fs (tmpFile path fs₀) data)
    (hsync : (fs.files (tmpFile path fs₀)).synced = true)
    (hr : fs.rename (tmpName path) path = some fs') : Replaced path data fs₀ fs' := by
  by_cases hsame : fs.names path = some (tmpFile path fs₀)
  · rw [FileSystem.rename_def h.name, if_pos hsame] at hr
    cases hr
    exact ⟨hsame, h.others, h.files, h.data, hsync, Or.inr (h.target.symm.trans hsame)⟩
  · obtain ⟨_, hr', hpath, htmp, hothers, hfiles, -⟩ :=
      FileSystem.rename_eq_some h.name hsame (tmpName_ne path)
    cases hr.symm.trans hr'
    refine ⟨hpath, fun n hn hp => (hothers n hn hp).trans (h.others n hn hp), fun j hj => ?_, ?_, ?_,
      Or.inl htmp⟩
    · rw [hfiles]
      exact h.files j hj
    · rw [hfiles]
      exact h.data
    · rw [hfiles]
      exact hsync

theorem Frame.unlink (h : Frame path fs₀ fs) : Frame path fs₀ (fs.unlink (tmpName path)) where
  target := by
    rw [← h.target]
    exact Function.update_of_ne (tmpName_ne path).symm _ _
  others := by
    intro n hn hp
    rw [← h.others n hn hp]
    exact Function.update_of_ne hn _ _
  files := h.files

/-- One step of a call keeps what it knows. -/
theorem SoloOk.step (h : SoloOk path data fs₀ fs pc)
    (hs : File.step path data fs pc a = some (fs', pc')) : SoloOk path data fs₀ fs' pc' := by
  cases pc with
  | fopen =>
    rcases a with n | ok
    · cases hs
    · have hfs : fs = fs₀ := h
      subst hfs
      cases ok <;> cases hs
      · exact .refl path fs
      · have ht := temp_open path fs
        by_cases hd : data.length > 0
        · rw [if_pos hd]
          exact ⟨ht, Nat.zero_le _⟩
        · rw [if_neg hd]
          exact ⟨ht, Nat.zero_le _⟩
  | fwrite file pos =>
    rcases a with n | ok
    · obtain ⟨_, hw, heq⟩ := Option.map_eq_some_iff.mp hs
      cases heq
      exact h.1.writeOut hw
    · cases ok <;> cases hs <;> exact h
  | fflush file pos =>
    rcases a with n | ok
    · obtain ⟨_, hw, heq⟩ := Option.map_eq_some_iff.mp hs
      cases heq
      exact h.1.writeOut hw
    · cases ok
      · cases hs
        exact h
      · simp only [File.step, if_true] at hs
        split_ifs at hs with hpos
        cases hs
        have ht := h.1
        rwa [hpos, List.take_length] at ht
  | fsync file =>
    rcases a with n | ok
    · cases hs
    · have ht : Temp path fs₀ fs file data := h
      cases ok <;> cases hs
      · refine ⟨?_, Nat.le_refl _⟩
        rw [List.take_length]
        exact ht
      · exact ⟨ht.sync, FileSystem.sync_synced fs file⟩
  | fclose file =>
    rcases a with n | ok
    · cases hs
    · obtain ⟨ht, hsync⟩ := h
      have hfile := ht.file_eq
      subst hfile
      cases ok <;> cases hs
      · exact ht.toFrame
      · exact ⟨ht, hsync⟩
  | rename =>
    rcases a with n | ok
    · cases hs
    · cases ok
      · cases hs
        exact h.1.toFrame
      · obtain ⟨_, hr, heq⟩ := Option.map_eq_some_iff.mp hs
        cases heq
        exact h.1.rename h.2 hr
  | abort file pos =>
    rcases a with n | ok
    · obtain ⟨_, hw, heq⟩ := Option.map_eq_some_iff.mp hs
      cases heq
      exact h.1.writeOut hw
    · cases hs
      exact h.1.toFrame
  | remove =>
    have hf : Frame path fs₀ fs := h
    rcases a with n | ok
    · cases hs
    · cases ok <;> cases hs
      · exact hf
      · exact hf.unlink
  | returned status => cases hs

theorem soloOk_init (path : Name) (data : List UInt8) (fs₀ : FileSystem) :
    SoloOk path data fs₀ fs₀ (writeAll path) := by
  unfold writeAll
  split_ifs
  · exact .refl path fs₀
  · rfl

/-- A call knows at each position what `SoloOk` says. -/
theorem reachable_soloOk {s : FileSystem × Pc} (h : Reachable (solo path data fs₀) s) :
    SoloOk path data fs₀ s.1 s.2 := by
  induction h with
  | init h0 =>
    have h0 : _ = (fs₀, writeAll path) := h0
    subst h0
    exact soloOk_init path data fs₀
  | step _ hs ih => exact ih.step hs

/-! ## Failures and crashes -/

/-- A call fails at its `fopen`, or after it tried to remove the temporary file. -/
theorem step_error {rc : Status} (hs : File.step path data fs pc a = some (fs', .returned rc))
    (hrc : rc ≠ .ok) :
    (pc = .fopen ∧ fs' = fs) ∨
      (pc = .remove ∧ (a = .ret false ∨ fs' = fs.unlink (tmpName path))) := by
  cases pc with
  | fopen =>
    rcases a with n | _ | _
    · cases hs
    · cases hs
      exact Or.inl ⟨rfl, rfl⟩
    · simp only [File.step, if_true, Option.some.injEq, Prod.mk.injEq] at hs
      split_ifs at hs <;> cases hs.2
  | rename =>
    rcases a with n | _ | _
    · cases hs
    · cases hs
    · obtain ⟨_, _, heq⟩ := Option.map_eq_some_iff.mp hs
      cases heq
      exact absurd rfl hrc
  | remove =>
    rcases a with n | _ | _
    · cases hs
    · exact Or.inr ⟨rfl, Or.inl rfl⟩
    · cases hs
      exact Or.inr ⟨rfl, Or.inr rfl⟩
  | fwrite file pos | fflush file pos | abort file pos =>
    rcases a with n | _ | _ <;> simp [File.step] at hs
  | fsync file | fclose file => rcases a with n | _ | _ <;> simp [File.step] at hs
  | returned status => cases hs

/-- A call whose `remove` succeeds leaves no temporary file when it fails. -/
theorem tmp_gone_of_error {s : FileSystem × Pc}
    (h : Reachable ((solo path data fs₀).guarded RemoveSucceeds) s)
    (htmp : fs₀.names (tmpName path) = none) :
    ∀ rc, s.2 = .returned rc → rc ≠ .ok → s.1.names (tmpName path) = none := by
  induction h with
  | init h0 =>
    have h0 : _ = (fs₀, writeAll path) := h0
    subst h0
    exact fun _ _ _ => htmp
  | @step s t a hr hs _ =>
    obtain ⟨hg, hs⟩ := System.guarded_step.mp hs
    obtain ⟨fs, pc⟩ := s
    obtain ⟨fs', pc'⟩ := t
    rintro rc hpc hrc
    replace hpc : pc' = .returned rc := hpc
    subst hpc
    rcases step_error hs hrc with ⟨rfl, rfl⟩ | ⟨rfl, hremove⟩
    · have hfs : fs' = fs₀ := reachable_soloOk hr.of_guarded
      rw [hfs]
      exact htmp
    · rcases hremove with rfl | rfl
      · exact absurd rfl (hg rfl)
      · exact Function.update_self ..

/-- Until the call returns success the target is what it was. -/
theorem SoloOk.frame (h : SoloOk path data fs₀ fs pc) (hpc : pc ≠ .returned .ok) :
    Frame path fs₀ fs := by
  cases pc with
  | fopen =>
    have hfs : fs = fs₀ := h
    subst hfs
    exact .refl path fs
  | fwrite file pos | fflush file pos | abort file pos => exact h.1.toFrame
  | fsync file =>
    have ht : Temp path fs₀ fs file data := h
    exact ht.toFrame
  | fclose file | rename => exact h.1.toFrame
  | remove => exact h
  | returned rc => cases rc <;> first | exact h | exact absurd rfl hpc

/-- A temporary file that did not exist before the call is not behind any name of before. -/
theorem names_ne_tmpFile (htmp : fs₀.names (tmpName path) = none) {m : Name} {i : ℕ}
    (hm : fs₀.names m = some i) : i ≠ tmpFile path fs₀ := by
  have hlt := fs₀.names_lt hm
  have hnew : tmpFile path fs₀ = fs₀.nextFile := by
    unfold tmpFile FileSystem.openTrunc
    rw [htmp]
  omega

theorem Frame.content (h : Frame path fs₀ fs) (htmp : fs₀.names (tmpName path) = none) :
    fs.content path = fs₀.content path := by
  refine FileSystem.content_congr h.target fun i hi => ?_
  rw [h.files i (names_ne_tmpFile htmp hi)]

theorem Replaced.content (h : Replaced path data fs₀ fs) : fs.content path = some data := by
  rw [FileSystem.content_of_name h.target, h.data]

/-- A crash before the rename, or one that takes it back, leaves the target as it was. -/
theorem content_of_crash {durable : Name → Option ℕ} {c : FileSystem}
    (hfiles : ∀ j, j ≠ tmpFile path fs₀ → fs.files j = fs₀.files j)
    (htmp : fs₀.names (tmpName path) = none) (hd : Durable durable fs₀ path)
    (hc : Crash durable fs c) (hn : c.names path = fs₀.names path) :
    c.content path = fs₀.content path := by
  rcases hi : fs₀.names path with _ | i
  · rw [FileSystem.content_of_none (hn.trans hi), FileSystem.content_of_none hi]
  · have hfile := hfiles i (names_ne_tmpFile htmp hi)
    rw [hc.content (hn.trans hi) (by rw [hfile]; exact hd.2 i hi), hfile,
      FileSystem.content_of_name hi]

/-- **A write is all or nothing.** A call of `d4np_file_write_all` that is alone with a temporary
name that did not exist, whatever of it fails: at every step the target has the content it had
before, or all of the data; so it has after a crash at any step, if what it had before was on stable
storage; a call that returns an error leaves the target as it was, and one that returns success
leaves it with the data; and neither leaves a temporary file. -/
theorem writeAll_all_or_nothing {s : FileSystem × Pc} (htmp : fs₀.names (tmpName path) = none)
    (h : Reachable ((solo path data fs₀).guarded RemoveSucceeds) s) :
    (s.1.content path = fs₀.content path ∨ s.1.content path = some data) ∧
    (∀ durable c, Durable durable fs₀ path → Crash durable s.1 c →
      c.content path = fs₀.content path ∨ c.content path = some data) ∧
    (∀ rc, s.2 = .returned rc → rc ≠ .ok →
      s.1.content path = fs₀.content path ∧ s.1.names (tmpName path) = none) ∧
    (s.2 = .returned .ok →
      s.1.content path = some data ∧ s.1.names (tmpName path) = none) := by
  have hok := reachable_soloOk h.of_guarded
  by_cases hpc : s.2 = .returned .ok
  · rw [hpc] at hok
    have hR : Replaced path data fs₀ s.1 := hok
    have hgone : s.1.names (tmpName path) = none := by
      rcases hR.tmp with ht | ht
      · exact ht
      · exact absurd rfl (names_ne_tmpFile htmp ht)
    refine ⟨Or.inr hR.content, fun durable c hd hc => ?_, fun rc hrc hne => ?_,
      fun _ => ⟨hR.content, hgone⟩⟩
    · rcases hc.names path with hn | hn
      · right
        rw [hc.content (hn.trans hR.target) hR.synced, hR.data]
      · exact Or.inl (content_of_crash hR.files htmp hd hc (hn.trans hd.1))
    · rw [hpc] at hrc
      cases hrc
      exact absurd rfl hne
  · have hF := hok.frame hpc
    have hcontent := hF.content htmp
    refine ⟨Or.inl hcontent, fun durable c hd hc => Or.inl ?_, fun rc hrc hne =>
      ⟨hcontent, tmp_gone_of_error h htmp rc hrc hne⟩, fun h => absurd h hpc⟩
    refine content_of_crash hF.files htmp hd hc ?_
    rcases hc.names path with hn | hn
    · exact hn.trans hF.target
    · exact hn.trans hd.1

theorem writeAll_all_or_nothing_rename_fails :
    ∃ s, Reachable ((solo [0x66] [1, 2] oneFile).guarded RemoveSucceeds) s ∧
      s.2 = .returned .errIo ∧ s.1.content [0x66] = some [9] ∧ s.1.names (tmpName [0x66]) = none ∧
      ∀ c, Crash oneFile.names s.1 c → c.content [0x66] = some [9] ∨ c.content [0x66] = some [1, 2] := by
  have h0 : Reachable ((solo [0x66] [1, 2] oneFile).guarded RemoveSucceeds)
      (oneFile, writeAll [0x66]) := .init rfl
  obtain ⟨s, hrun⟩ : ∃ s, ((solo [0x66] [1, 2] oneFile).guarded RemoveSucceeds).run
      (oneFile, writeAll [0x66]) [.ret true, .write 1, .ret true, .write 1, .ret true, .ret true,
        .ret true, .ret false, .ret true] = some s := ⟨_, rfl⟩
  have hs : s.2 = .returned .errIo := by
    cases hrun
    rfl
  have hr := h0.run hrun
  obtain ⟨_, hcrash, herr, _⟩ := writeAll_all_or_nothing (by decide) hr
  obtain ⟨hcontent, htmp⟩ := herr _ hs (by decide)
  exact ⟨s, hr, hs, hcontent, htmp, fun c hc => hcrash _ c ⟨rfl, fun i _ => rfl⟩ hc⟩

end File

end D4np
