import D4np.Core.Allocator
import D4np.Lib.FileSystem
import D4np.Lib.TransitionSystem
import Mathlib.Data.Fintype.Basic

/-!
# Whole-file writes

`d4np_file_write_all` writes a sibling temporary file, syncs it, and renames it over the target.  A
call is a position in the code, named after the library function it waits for, and the environment
decides what that function returns and when stdio hands the next bytes of its buffer to the kernel.

Calls on one path share the name of their temporary file.  The promise of `file.h`, that a reader
never observes a half-written file, then depends on the calls taking turns: a second call that opens
the temporary file while a first one works on it truncates what the first one is about to rename.
With calls that open the file one after another it holds in every state, whatever fails, for any
number of calls: the file a call works on is in no reader's hands, and holds a prefix of the data.
-/

namespace D4np

open Posix TransitionSystem

/-! ## The code -/

namespace File

/-- `".tmp"`, without its NUL. -/
def tmpSuffix : Name := [0x2e, 0x74, 0x6d, 0x70]

/-- `sizeof(tmp)`. -/
def tmpCapacity : ℕ := 4096

/-- The name a call on `path` writes to. -/
def tmpName (path : Name) : Name := path ++ tmpSuffix

/-- Where a call of `d4np_file_write_all` is: the library function it waits for, with the file it
has open and the number of bytes stdio has written to it.  `abort` is the `fclose` of the error
paths, which may still write what is in the buffer. -/
inductive Pc
  | fopen
  | fwrite (file pos : ℕ)
  | fflush (file pos : ℕ)
  | fsync (file : ℕ)
  | fclose (file : ℕ)
  | rename
  | abort (file pos : ℕ)
  | remove
  | returned (status : Status)
  deriving DecidableEq

/-- What the environment does next in a call: stdio writes `n` more bytes, or the function the call
waits for returns, with or without success. -/
inductive Act
  | write (n : ℕ)
  | ret (ok : Bool)
  deriving DecidableEq

/-- The entry of `d4np_file_write_all`: the temporary name has to fit its buffer, with the NUL. -/
def writeAll (path : Name) : Pc :=
  if path.length + (tmpSuffix.length + 1) > tmpCapacity then .returned .errInvalidArgument else .fopen

/-- The next `n` bytes of `data` go to the file. -/
def writeOut (data : List UInt8) (fs : FileSystem) (file pos n : ℕ) : Option FileSystem :=
  if 0 < n ∧ pos + n ≤ data.length then some (fs.write file pos ((data.drop pos).take n)) else none

/-- The body of `d4np_file_write_all`. -/
def step (path : Name) (data : List UInt8) (fs : FileSystem) : Pc → Act → Option (FileSystem × Pc)
  | .fopen, .ret ok =>
    if ok then
      let (file, fs') := fs.openTrunc (tmpName path)
      some (fs', if data.length > 0 then .fwrite file 0 else .fflush file 0)
    else some (fs, .returned .errIo)
  | .fwrite file pos, .write n => (writeOut data fs file pos n).map fun fs' => (fs', .fwrite file (pos + n))
  | .fwrite file pos, .ret ok => some (fs, if ok then .fflush file pos else .abort file pos)
  | .fflush file pos, .write n => (writeOut data fs file pos n).map fun fs' => (fs', .fflush file (pos + n))
  | .fflush file pos, .ret ok =>
    if ok then if pos = data.length then some (fs, .fsync file) else none
    else some (fs, .abort file pos)
  | .fsync file, .ret ok =>
    some (if ok then (fs.sync file, .fclose file) else (fs, .abort file data.length))
  | .fclose _, .ret ok => some (fs, if ok then .rename else .remove)
  | .rename, .ret ok =>
    if ok then (fs.rename (tmpName path) path).map fun fs' => (fs', .returned .ok)
    else some (fs, .remove)
  | .abort file pos, .write n => (writeOut data fs file pos n).map fun fs' => (fs', .abort file (pos + n))
  | .abort _ _, .ret _ => some (fs, .remove)
  | .remove, .ret ok => some (if ok then fs.unlink (tmpName path) else fs, .returned .errIo)
  | _, _ => none

/-! ## Calls on one path -/

/-- Calls that run at the same time, and the files readers have opened. -/
structure World (ι : Type) where
  fs : FileSystem
  calls : ι → Pc
  readers : List ℕ

/-- A step of a call, or a reader that opens the path. -/
inductive Event (ι : Type)
  | call (k : ι) (a : Act)
  | read
  deriving DecidableEq

variable {ι : Type} [DecidableEq ι]

def World.step (path : Name) (data : ι → List UInt8) (w : World ι) : Event ι → Option (World ι)
  | .call k a =>
    (File.step path (data k) w.fs (w.calls k) a).map fun r =>
      { w with fs := r.1, calls := Function.update w.calls k r.2 }
  | .read => some { w with readers := (w.fs.names path).toList ++ w.readers }

/-- Calls with the data `data k` on one path, which has the content `initial` before they begin. -/
def system (path : Name) (data : ι → List UInt8) (initial : Option (List UInt8)) :
    System (World ι) (Event ι) where
  init w := w.fs.content path = initial ∧ (∀ k, w.calls k = writeAll path) ∧ w.readers = []
  step := World.step path data

/-- What a reader may find: the content from before the calls, or all the data of one call. -/
def Whole (data : ι → List UInt8) (initial c : Option (List UInt8)) : Prop :=
  c = initial ∨ ∃ k, c = some (data k)

/-- A call between its `fopen` and its `rename`, or the `fclose` that gives up. -/
def Pc.busy : Pc → Bool
  | .fopen | .remove | .returned _ => false
  | _ => true

/-- A call opens the temporary file only if that file is not the target under a second name and no
other call works on it. -/
def TakesTurns [Fintype ι] (path : Name) (w : World ι) : Event ι → Prop
  | .call k (.ret true) => w.calls k = .fopen →
    (w.fs.names (tmpName path) = none ∨ w.fs.names (tmpName path) ≠ w.fs.names path) ∧
    ∀ j, j ≠ k → (w.calls j).busy = false
  | _ => True

instance [Fintype ι] (path : Name) (w : World ι) : (e : Event ι) → Decidable (TakesTurns path w e)
  | .call k (.ret true) => inferInstanceAs (Decidable (w.calls k = .fopen →
      (w.fs.names (tmpName path) = none ∨ w.fs.names (tmpName path) ≠ w.fs.names path) ∧
      ∀ j, j ≠ k → (w.calls j).busy = false))
  | .call _ (.ret false) | .call _ (.write _) | .read => inferInstanceAs (Decidable True)

/-! ## What one step does -/

/-- The file a call has open. -/
def Pc.handle : Pc → Option ℕ
  | .fwrite file _ | .fflush file _ | .fsync file | .fclose file | .abort file _ => some file
  | _ => none

/-- The temporary file of a call holds `bytes`.  Its name may be gone: another call that failed
before removes it. -/
def TempHolds (path : Name) (fs : FileSystem) (file : ℕ) (bytes : List UInt8) : Prop :=
  (fs.names (tmpName path) = none ∨ fs.names (tmpName path) = some file) ∧
    (fs.files file).data = bytes

/-- What a call knows of the file system while it is alone with its temporary file. -/
def CallOk (path : Name) (data : List UInt8) (fs : FileSystem) : Pc → Prop
  | .fwrite file pos | .fflush file pos | .abort file pos =>
    TempHolds path fs file (data.take pos) ∧ pos ≤ data.length
  | .fsync file | .fclose file => TempHolds path fs file data
  | .rename => ∀ file, fs.names (tmpName path) = some file →
    fs.names path ≠ some file ∧ (fs.files file).data = data
  | _ => True

/-- A step that leaves the names alone, and every file but the one the call has open. -/
structure Keeps (path : Name) (data : List UInt8) (fs fs' : FileSystem) (pc pc' : Pc) : Prop where
  names : fs'.names = fs.names
  nextFile : fs'.nextFile = fs.nextFile
  others : ∀ i, pc.handle ≠ some i → (fs'.files i).data = (fs.files i).data
  busy : pc'.busy = true → pc.busy = true
  handle : ∀ {i}, pc'.handle = some i → pc.handle = some i
  callOk : CallOk path data fs' pc'

variable {path : Name} {data : List UInt8} {fs fs' : FileSystem} {pc pc' : Pc}

theorem tmpName_ne (path : Name) : tmpName path ≠ path := by
  intro h
  have hlen := congrArg List.length h
  simp [tmpName, tmpSuffix] at hlen

theorem CallOk.of_not_busy (h : pc.busy = false) : CallOk path data fs pc := by
  cases pc <;> trivial

theorem Pc.busy_of_handle {i : ℕ} (h : pc.handle = some i) : pc.busy = true := by
  cases pc <;> first | rfl | cases h

/-- Bytes that go out on where the file ends make a longer prefix of the data. -/
theorem TempHolds.write {file pos n : ℕ} (h : TempHolds path fs file (data.take pos))
    (hn : pos + n ≤ data.length) :
    TempHolds path (fs.write file pos ((data.drop pos).take n)) file (data.take (pos + n)) := by
  refine ⟨h.1, ?_⟩
  have hlen : (data.take pos).length = pos := by
    rw [List.length_take]
    omega
  unfold FileSystem.write
  rw [FileSystem.setData_data, if_pos rfl, h.2, List.take_add]
  nth_rewrite 2 [← hlen]
  exact overwrite_append _ _

/-- A step that does not touch the file system. -/
theorem Keeps.same (hbusy : pc'.busy = true → pc.busy = true)
    (hhandle : ∀ {i}, pc'.handle = some i → pc.handle = some i) (hok : CallOk path data fs pc') :
    Keeps path data fs fs pc pc' :=
  ⟨rfl, rfl, fun _ _ => rfl, hbusy, hhandle, hok⟩

theorem Keeps.write {file pos n : ℕ} (hpc : pc.handle = some file)
    (hw : writeOut data fs file pos n = some fs') (h : TempHolds path fs file (data.take pos))
    (hpc' : pc'.handle = some file)
    (hok : TempHolds path fs' file (data.take (pos + n)) ∧ pos + n ≤ data.length →
      CallOk path data fs' pc') :
    Keeps path data fs fs' pc pc' := by
  unfold writeOut at hw
  split_ifs at hw with hn
  cases hw
  refine ⟨rfl, rfl, fun i hi => ?_, fun _ => Pc.busy_of_handle hpc, fun hi => ?_,
    hok ⟨h.write hn.2, hn.2⟩⟩
  · unfold FileSystem.write
    rw [FileSystem.setData_data, if_neg]
    rintro rfl
    exact hi hpc
  · rw [hpc, ← hpc', hi]

/-- What a step can do: it opens the temporary file, renames it over the target, removes it, or
leaves the names alone. -/
theorem step_cases {a : Act} (h : step path data fs pc a = some (fs', pc'))
    (hok : CallOk path data fs pc) (hne : ∀ {i}, pc.handle = some i → fs.names path ≠ some i) :
    (pc = .fopen ∧ a = .ret true ∧ fs' = (fs.openTrunc (tmpName path)).2 ∧
      pc' = if data.length > 0 then .fwrite (fs.openTrunc (tmpName path)).1 0
        else .fflush (fs.openTrunc (tmpName path)).1 0) ∨
    (pc = .rename ∧ fs.rename (tmpName path) path = some fs' ∧ pc' = .returned .ok) ∨
    (pc = .remove ∧ fs' = fs.unlink (tmpName path) ∧ pc' = .returned .errIo) ∨
    Keeps path data fs fs' pc pc' := by
  cases pc with
  | fopen =>
    rcases a with n | ok
    · cases h
    · cases ok
      · cases h
        exact .inr (.inr (.inr (.same nofun nofun trivial)))
      · cases h
        exact .inl ⟨rfl, rfl, rfl, rfl⟩
  | fwrite file pos =>
    refine .inr (.inr (.inr ?_))
    rcases a with n | ok
    · obtain ⟨_, hw, heq⟩ := Option.map_eq_some_iff.mp h
      cases heq
      exact .write rfl hw hok.1 rfl id
    · cases ok <;> cases h <;> exact .same (fun _ => rfl) id hok
  | fflush file pos =>
    refine .inr (.inr (.inr ?_))
    rcases a with n | ok
    · obtain ⟨_, hw, heq⟩ := Option.map_eq_some_iff.mp h
      cases heq
      exact .write rfl hw hok.1 rfl id
    · cases ok
      · cases h
        exact .same (fun _ => rfl) id hok
      · simp only [step, if_true] at h
        split_ifs at h with hpos
        cases h
        refine .same (fun _ => rfl) id ?_
        have hf := hok.1
        rwa [hpos, List.take_length] at hf
  | fsync file =>
    refine .inr (.inr (.inr ?_))
    rcases a with n | ok
    · cases h
    · cases ok
      · cases h
        refine .same (fun _ => rfl) id ⟨?_, Nat.le_refl _⟩
        rw [List.take_length]
        exact hok
      · cases h
        refine ⟨rfl, rfl, fun i _ => FileSystem.sync_data fs file i, fun _ => rfl, id, hok.1, ?_⟩
        rw [FileSystem.sync_data]
        exact hok.2
  | fclose file =>
    refine .inr (.inr (.inr ?_))
    rcases a with n | ok
    · cases h
    · cases ok
      · cases h
        exact .same (fun _ => rfl) nofun trivial
      · cases h
        refine .same (fun _ => rfl) nofun fun i hi => ?_
        have hfile : i = file := by
          rcases hok.1 with h0 | h0 <;> rw [h0] at hi <;> cases hi
          rfl
        subst hfile
        exact ⟨hne rfl, hok.2⟩
  | rename =>
    rcases a with n | ok
    · cases h
    · cases ok
      · cases h
        exact .inr (.inr (.inr (.same (fun _ => rfl) nofun trivial)))
      · obtain ⟨_, hr, heq⟩ := Option.map_eq_some_iff.mp h
        cases heq
        exact .inr (.inl ⟨rfl, hr, rfl⟩)
  | abort file pos =>
    refine .inr (.inr (.inr ?_))
    rcases a with n | ok
    · obtain ⟨_, hw, heq⟩ := Option.map_eq_some_iff.mp h
      cases heq
      exact .write rfl hw hok.1 rfl id
    · cases h
      exact .same (fun _ => rfl) nofun trivial
  | remove =>
    refine .inr (.inr ?_)
    rcases a with n | ok
    · cases h
    · cases ok
      · cases h
        exact .inr (.same nofun nofun trivial)
      · cases h
        exact .inl ⟨rfl, rfl, rfl⟩
  | returned status => cases h

/-! ## The invariant -/

/-- A file that a reader has opened or would open now. -/
def World.Shown (path : Name) (w : World ι) (i : ℕ) : Prop :=
  w.fs.names path = some i ∨ i ∈ w.readers

/-- A file in a reader's hands is whole, and no call writes to it or can open it. -/
structure ShownOk (path : Name) (d : ι → List UInt8) (initial : Option (List UInt8)) (w : World ι)
    (i : ℕ) : Prop where
  lt : i < w.fs.nextFile
  ofTmp : w.fs.names (tmpName path) = some i → w.fs.names path = some i
  whole : Whole d initial (some (w.fs.files i).data)
  handle : ∀ k, (w.calls k).handle ≠ some i

/-- The invariant of calls that take turns. -/
structure Inv (path : Name) (d : ι → List UInt8) (initial : Option (List UInt8)) (w : World ι) :
    Prop where
  absent : w.fs.names path = none → initial = none
  shown : ∀ i, w.Shown path i → ShownOk path d initial w i
  calls : ∀ k, CallOk path (d k) w.fs (w.calls k)
  alone : ∀ {j k}, (w.calls j).busy = true → (w.calls k).busy = true → j = k

variable {d : ι → List UInt8} {initial : Option (List UInt8)} {w w' : World ι} {k : ι}

theorem writeAll_not_busy (path : Name) : (writeAll path).busy = false := by
  unfold writeAll
  split_ifs <;> rfl

/-- Facts about all calls after a step of one of them. -/
theorem forall_update {P : ι → Pc → Prop} (hk : P k pc') (hj : ∀ j, j ≠ k → P j (w.calls j)) :
    ∀ j, P j (Function.update w.calls k pc' j) := by
  intro j
  by_cases hjk : j = k
  · subst hjk
    rwa [Function.update_self]
  · rw [Function.update_of_ne hjk]
    exact hj j hjk

omit [DecidableEq ι] in
theorem Inv.other_not_busy (h : Inv path d initial w) (hk : (w.calls k).busy = true) :
    ∀ j, j ≠ k → (w.calls j).busy = false := by
  intro j hj
  by_contra hb
  exact hj (h.alone (by simpa using hb) hk)

/-- At most one call stays busy if the stepping one was busy before or no other one is. -/
theorem Inv.alone_update (h : Inv path d initial w)
    (hb : pc'.busy = true → ∀ j, j ≠ k → (w.calls j).busy = false) {i j : ι}
    (hi : (Function.update w.calls k pc' i).busy = true)
    (hj : (Function.update w.calls k pc' j).busy = true) : i = j := by
  have key : ∀ i, i ≠ k → ¬ ((Function.update w.calls k pc' i).busy = true ∧ pc'.busy = true) := by
    rintro i hik ⟨hi, hk⟩
    rw [Function.update_of_ne hik, hb hk i hik] at hi
    cases hi
  by_cases hik : i = k <;> by_cases hjk : j = k
  · rw [hik, hjk]
  · rw [hik, Function.update_self] at hi
    exact absurd ⟨hj, hi⟩ (key j hjk)
  · rw [hjk, Function.update_self] at hj
    exact absurd ⟨hi, hj⟩ (key i hik)
  · rw [Function.update_of_ne hik] at hi
    rw [Function.update_of_ne hjk] at hj
    exact h.alone hi hj

theorem CallOk.congr (h : CallOk path data fs pc) (hn : fs'.names = fs.names)
    (hd : ∀ i, (fs'.files i).data = (fs.files i).data) : CallOk path data fs' pc := by
  cases pc <;> simp only [CallOk, TempHolds, hn, hd] at h ⊢ <;> exact h

theorem Inv.keeps (h : Inv path d initial w) (hs : Keeps path (d k) w.fs fs' (w.calls k) pc') :
    Inv path d initial { w with fs := fs', calls := Function.update w.calls k pc' } where
  absent := by
    show fs'.names path = none → _
    rw [hs.names]
    exact h.absent
  shown := by
    intro i hi
    have hi' : w.Shown path i := by
      unfold World.Shown at hi
      rwa [hs.names] at hi
    have ho := h.shown i hi'
    refine ⟨?_, ?_, ?_, forall_update (P := fun _ pc => pc.handle ≠ some i)
      (fun hk => ho.handle k (hs.handle hk)) fun j _ => ho.handle j⟩
    · show i < fs'.nextFile
      rw [hs.nextFile]
      exact ho.lt
    · show fs'.names _ = _ → fs'.names _ = _
      rw [hs.names]
      exact ho.ofTmp
    · show Whole d initial (some (fs'.files i).data)
      rw [hs.others i (ho.handle k)]
      exact ho.whole
  calls := by
    refine forall_update hs.callOk fun j hj => ?_
    by_cases hb : (w.calls k).busy = true
    · exact .of_not_busy (h.other_not_busy hb j hj)
    · refine (h.calls j).congr hs.names fun i => hs.others i fun hi => hb (Pc.busy_of_handle hi)
  alone := h.alone_update fun hb => h.other_not_busy (hs.busy hb)

/-- A call that is alone opens its temporary file: readers hold other files. -/
theorem Inv.opens (h : Inv path d initial w)
    (hne : w.fs.names (tmpName path) = none ∨ w.fs.names (tmpName path) ≠ w.fs.names path)
    (hb : ∀ j, j ≠ k → (w.calls j).busy = false)
    (hpc : pc' = if (d k).length > 0 then .fwrite (w.fs.openTrunc (tmpName path)).1 0
      else .fflush (w.fs.openTrunc (tmpName path)).1 0) :
    Inv path d initial { w with
      fs := (w.fs.openTrunc (tmpName path)).2, calls := Function.update w.calls k pc' } := by
  obtain ⟨hname, hdata, hnames, hfiles, hfile, hnext⟩ := w.fs.openTrunc_spec (tmpName path)
  revert hpc hname hdata hnames hfiles hfile hnext
  generalize (w.fs.openTrunc (tmpName path)).1 = file
  generalize (w.fs.openTrunc (tmpName path)).2 = fs'
  intro hpc hname hdata hnames hfiles hfile hnext
  have hpath := hnames path (tmpName_ne path).symm
  have hhandle : pc'.handle = some file := by
    rw [hpc]
    split_ifs <;> rfl
  have hold : ∀ i, w.Shown path i → i ≠ file := by
    rintro i hi rfl
    have ho := h.shown i hi
    rcases hfile with hf | ⟨-, hf⟩
    · rcases hne with hn | hn
      · rw [hn] at hf
        cases hf
      · exact hn (hf.trans (ho.ofTmp hf).symm)
    · exact absurd ho.lt (by omega)
  refine ⟨?_, fun i hi => ?_, forall_update ?_ fun j hj => .of_not_busy (hb j hj),
    h.alone_update fun _ => hb⟩
  · show fs'.names path = none → _
    rw [hpath]
    exact h.absent
  · have hi' : w.Shown path i := by
      unfold World.Shown at hi
      rwa [hpath] at hi
    have ho := h.shown i hi'
    have hif := hold i hi'
    refine ⟨ho.lt.trans_le hnext, ?_, ?_,
      forall_update (P := fun _ pc => pc.handle ≠ some i) ?_ fun j _ => ho.handle j⟩
    · show fs'.names (tmpName path) = some i → _
      rw [hname]
      intro he
      exact absurd (Option.some_inj.mp he).symm hif
    · show Whole d initial (some (fs'.files i).data)
      rw [hfiles i hif]
      exact ho.whole
    · rw [hhandle]
      intro he
      exact hif (Option.some_inj.mp he).symm
  · rw [hpc]
    split_ifs
    · exact ⟨⟨.inr hname, hdata⟩, Nat.zero_le _⟩
    · exact ⟨⟨.inr hname, hdata⟩, Nat.zero_le _⟩

/-- The rename shows a file with all of the data. -/
theorem Inv.renames (h : Inv path d initial w) (hk : w.calls k = .rename)
    (hr : w.fs.rename (tmpName path) path = some fs') :
    Inv path d initial
      { w with fs := fs', calls := Function.update w.calls k (.returned .ok) } := by
  have hb : (w.calls k).busy = true := by
    rw [hk]
    rfl
  have hok := h.calls k
  rw [hk] at hok
  rcases hname : w.fs.names (tmpName path) with _ | file
  · rw [FileSystem.rename_eq_none hname] at hr
    cases hr
  obtain ⟨hne, hdata⟩ := hok file hname
  obtain ⟨_, hr', hpath, htmp, _, hfiles, hnext⟩ :=
    FileSystem.rename_eq_some hname hne (tmpName_ne path)
  cases hr.symm.trans hr'
  refine ⟨?_, fun i hi => ?_, forall_update trivial fun j hj => .of_not_busy (h.other_not_busy hb j hj),
    h.alone_update fun hb => by cases hb⟩
  · show fs'.names path = none → _
    rw [hpath]
    nofun
  have hgood : i < w.fs.nextFile ∧ Whole d initial (some (w.fs.files i).data) := by
    rcases hi with hi | hi
    · replace hi : fs'.names path = some i := hi
      rw [hpath] at hi
      cases hi
      exact ⟨w.fs.names_lt hname, .inr ⟨k, congrArg some hdata⟩⟩
    · exact ⟨(h.shown i (.inr hi)).lt, (h.shown i (.inr hi)).whole⟩
  refine ⟨?_, ?_, ?_,
    forall_update (P := fun _ pc => pc.handle ≠ some i) nofun fun j hj hh => ?_⟩
  · show i < fs'.nextFile
    rw [hnext]
    exact hgood.1
  · show fs'.names (tmpName path) = some i → _
    rw [htmp]
    nofun
  · show Whole d initial (some (fs'.files i).data)
    rw [hfiles]
    exact hgood.2
  · have hjb := h.other_not_busy hb j hj
    rw [Pc.busy_of_handle hh] at hjb
    cases hjb

/-- A call that gives up takes the temporary name away, from itself or from a call that came after.
-/
theorem Inv.removes (h : Inv path d initial w) :
    Inv path d initial { w with
      fs := w.fs.unlink (tmpName path), calls := Function.update w.calls k (.returned .errIo) } := by
  have hpath : (w.fs.unlink (tmpName path)).names path = w.fs.names path :=
    Function.update_of_ne (tmpName_ne path).symm _ _
  have htmp : (w.fs.unlink (tmpName path)).names (tmpName path) = none := Function.update_self ..
  refine ⟨?_, fun i hi => ?_, forall_update trivial fun j _ => ?_, h.alone_update fun hb => by cases hb⟩
  · show (w.fs.unlink (tmpName path)).names path = none → _
    rw [hpath]
    exact h.absent
  · have ho := h.shown i (by
      unfold World.Shown at hi
      rwa [hpath] at hi)
    refine ⟨ho.lt, ?_, ho.whole,
      forall_update (P := fun _ pc => pc.handle ≠ some i) nofun fun j _ => ho.handle j⟩
    show (w.fs.unlink (tmpName path)).names (tmpName path) = some i → _
    rw [htmp]
    nofun
  · have hj := h.calls j
    cases hpc : w.calls j <;> rw [hpc] at hj
    case fwrite | fflush | abort => exact ⟨⟨.inl htmp, hj.1.2⟩, hj.2⟩
    case fsync | fclose => exact ⟨.inl htmp, hj.2⟩
    case rename =>
      intro file hf
      rw [htmp] at hf
      cases hf
    all_goals trivial

omit [DecidableEq ι] in
/-- A reader opens the file behind the path. -/
theorem Inv.reads (h : Inv path d initial w) :
    Inv path d initial { w with readers := (w.fs.names path).toList ++ w.readers } := by
  refine ⟨h.absent, fun i hi => ?_, h.calls, h.alone⟩
  have ho := h.shown i (by
    rcases hi with hi | hi
    · exact .inl hi
    · rcases List.mem_append.mp hi with hi | hi
      · exact .inl (Option.mem_toList.mp hi)
      · exact .inr hi)
  exact ⟨ho.lt, ho.ofTmp, ho.whole, ho.handle⟩

/-! ## Runs -/

theorem system_init (h : (system path d initial).init w) : Inv path d initial w := by
  obtain ⟨hc, hcalls, hreaders⟩ := h
  have hbusy : ∀ k, (w.calls k).busy = false := fun k => by rw [hcalls k, writeAll_not_busy]
  refine ⟨fun hn => ?_, fun i hi => ?_, fun k => .of_not_busy (hbusy k), fun hj => ?_⟩
  · rw [← hc, FileSystem.content_of_none hn]
  · unfold World.Shown at hi
    rw [hreaders] at hi
    have hi : w.fs.names path = some i := hi.resolve_right List.not_mem_nil
    refine ⟨w.fs.names_lt hi, fun _ => hi, .inl ?_, fun k hk => ?_⟩
    · rw [← hc, FileSystem.content_of_name hi]
    · have hb := hbusy k
      rw [Pc.busy_of_handle hk] at hb
      cases hb
  · rw [hbusy] at hj
    cases hj

theorem inv_step [Fintype ι] {e : Event ι} (h : Inv path d initial w) (hg : TakesTurns path w e)
    (hs : w.step path d e = some w') : Inv path d initial w' := by
  cases e with
  | read =>
    cases hs
    exact h.reads
  | call k a =>
    obtain ⟨⟨fs', pc'⟩, hst, heq⟩ := Option.map_eq_some_iff.mp hs
    cases heq
    have hne : ∀ {i}, (w.calls k).handle = some i → w.fs.names path ≠ some i :=
      fun hi hn => (h.shown _ (.inl hn)).handle k hi
    rcases step_cases hst (h.calls k) hne with ⟨hpc, rfl, rfl, hpc'⟩ | ⟨hpc, hr, rfl⟩ |
      ⟨hpc, rfl, rfl⟩ | hk
    · obtain ⟨hne, hb⟩ := hg hpc
      exact h.opens hne hb hpc'
    · exact h.renames hpc hr
    · exact h.removes
    · exact h.keeps hk

theorem reachable_inv [Fintype ι] (h : Reachable ((system path d initial).guarded (TakesTurns path)) w) :
    Inv path d initial w := by
  refine h.induct_guarded ?_ ?_
  · intro w hw
    exact system_init hw
  · intro w e w' hI hg hs
    exact inv_step hI hg hs

omit [DecidableEq ι] in
theorem Inv.content_whole (h : Inv path d initial w) : Whole d initial (w.fs.content path) := by
  unfold FileSystem.content
  rcases hn : w.fs.names path with _ | i
  · exact .inl (h.absent hn).symm
  · exact (h.shown i (.inl hn)).whole

/-- The data of two calls. -/
def pair (d1 d2 : List UInt8) : Bool → List UInt8
  | false => d1
  | true => d2

theorem Whole.pair {d1 d2 : List UInt8} {c : Option (List UInt8)} (h : Whole (pair d1 d2) initial c) :
    c = initial ∨ c = some d1 ∨ c = some d2 := by
  rcases h with h | ⟨_ | _, h⟩
  · exact .inl h
  · exact .inr (.inl h)
  · exact .inr (.inr h)

/-- **Two calls that take turns show whole files.** In every interleaving of two calls on one path
in which no call opens the temporary file while the other works on it, nor while it is the target
under a second name, whatever fails: the path has the content it had before, all of `d1` or all of
`d2`, and so has every file a reader has opened, at every moment after it was opened. -/
theorem writeAll_whole_of_turns {d1 d2 : List UInt8} {w : World Bool}
    (h : Reachable ((system path (pair d1 d2) initial).guarded (TakesTurns path)) w) :
    (w.fs.content path = initial ∨ w.fs.content path = some d1 ∨ w.fs.content path = some d2) ∧
    ∀ i ∈ w.readers, some (w.fs.files i).data = initial ∨ some (w.fs.files i).data = some d1 ∨
      some (w.fs.files i).data = some d2 := by
  have hI := reachable_inv h
  exact ⟨hI.content_whole.pair, fun i hi => (hI.shown i (.inr hi)).whole.pair⟩

/-- The file `f`, with the content `[9]`, and no other one. -/
def oneFile : FileSystem where
  names n := if n = [0x66] then some 0 else none
  files _ := ⟨[9], true⟩
  nextFile := 1
  names_lt := by
    intro n i h
    split_ifs at h
    cases h
    exact Nat.zero_lt_one

/-- Two calls on `f` before their first step. -/
def oneFileWorld : World Bool := ⟨oneFile, fun _ => writeAll [0x66], []⟩

/-- The steps of a call that writes `n` bytes at once, up to its `rename`. -/
def untilRename (k : Bool) (n : ℕ) : List (Event Bool) :=
  [.call k (.ret true), .call k (.ret true), .call k (.write n), .call k (.ret true),
    .call k (.ret true), .call k (.ret true)]

theorem writeAll_whole_of_turns_one_after_another :
    ∃ w, Reachable ((system [0x66] (pair [1, 2] [3]) (some [9])).guarded (TakesTurns [0x66])) w ∧
      w.fs.content [0x66] = some [3] ∧ w.readers = [1, 0] ∧
      ∀ i ∈ w.readers, some (w.fs.files i).data = some [9] ∨ some (w.fs.files i).data = some [1, 2] ∨
        some (w.fs.files i).data = some [3] := by
  have h0 : Reachable ((system [0x66] (pair [1, 2] [3]) (some [9])).guarded (TakesTurns [0x66]))
      oneFileWorld := .init ⟨rfl, fun _ => rfl, rfl⟩
  obtain ⟨w, hrun⟩ : ∃ w, ((system [0x66] (pair [1, 2] [3]) (some [9])).guarded
      (TakesTurns [0x66])).run oneFileWorld ([.read] ++ untilRename false 2 ++
        [.call false (.ret true), .read] ++ untilRename true 1 ++ [.call true (.ret true)]) = some w :=
    ⟨_, rfl⟩
  have hw : w.fs.content [0x66] = some [3] ∧ w.readers = [1, 0] := by
    cases hrun
    exact ⟨rfl, rfl⟩
  exact ⟨w, h0.run hrun, hw.1, hw.2, (writeAll_whole_of_turns (h0.run hrun)).2⟩

/-- The second call truncates the temporary file that the first one then renames. -/
theorem writeAll_shows_truncated :
    ∃ w, Reachable (system [0x66] (pair [1, 2] [3]) (some [9])) w ∧ w.fs.content [0x66] = some [] ∧
      ¬ (w.fs.content [0x66] = some [9] ∨ w.fs.content [0x66] = some [1, 2] ∨
        w.fs.content [0x66] = some [3]) := by
  have h0 : Reachable (system [0x66] (pair [1, 2] [3]) (some [9])) oneFileWorld :=
    .init ⟨rfl, fun _ => rfl, rfl⟩
  obtain ⟨w, hrun⟩ : ∃ w, (system [0x66] (pair [1, 2] [3]) (some [9])).run oneFileWorld
      (untilRename false 2 ++ [.call true (.ret true), .call false (.ret true)]) = some w := ⟨_, rfl⟩
  have hw : w.fs.content [0x66] = some [] := by
    cases hrun
    rfl
  refine ⟨w, h0.run hrun, hw, ?_⟩
  rw [hw]
  decide

end File

end D4np
