import Mathlib.Data.List.Basic
import Mathlib.Logic.Function.Basic
import Mathlib.Tactic.Common

/-!
# A file system

Names point at files, and a file outlives its names while it is open: a handle is the number of a
file, which is not used again.  Opening for writing creates the name or truncates the file it names,
a write through a handle goes to the file the handle opened, a rename moves a name over another, and
an unlink takes a name away.  The lemmas say what each operation does to the names and to the data
of each file.  After a crash (`Crash`) a name may be back where it was when its directory was last
synced, and a file that was not synced may hold anything; `Disk.crash_iff_safe` says when data
survives every crash, and `Disk.Safe.step` that it then survives what others do to the disk.
-/

namespace Posix

/-- The name of a file, as bytes. -/
abbrev Name := List UInt8

/-- A file: its data, and whether all of it has reached stable storage. -/
structure File where
  data : List UInt8
  synced : Bool

/-- A file system.  Files are numbered in the order they are created. -/
structure FileSystem where
  names : Name → Option ℕ
  files : ℕ → File
  nextFile : ℕ
  names_lt : ∀ {n i}, names n = some i → i < nextFile

/-- The data of a file after `bytes` were written at `pos`; a gap before `pos` reads as zeros. -/
def overwrite (data : List UInt8) (pos : ℕ) (bytes : List UInt8) : List UInt8 :=
  (data ++ List.replicate (pos - data.length) 0).take pos ++ bytes ++ data.drop (pos + bytes.length)

namespace FileSystem

/-- What a reader finds behind a name. -/
def content (fs : FileSystem) (n : Name) : Option (List UInt8) :=
  (fs.names n).map fun i => (fs.files i).data

/-- The data of file `i` replaced. -/
def setData (fs : FileSystem) (i : ℕ) (data : List UInt8) : FileSystem :=
  { fs with files := Function.update fs.files i ⟨data, false⟩ }

/-- A new, empty file behind the name `n`. -/
def create (fs : FileSystem) (n : Name) : FileSystem where
  names := Function.update fs.names n (some fs.nextFile)
  files := Function.update fs.files fs.nextFile ⟨[], false⟩
  nextFile := fs.nextFile + 1
  names_lt := by
    intro m i h
    by_cases hm : m = n
    · subst hm
      rw [Function.update_self] at h
      cases h
      exact Nat.lt_succ_self _
    · rw [Function.update_of_ne hm] at h
      exact Nat.lt_succ_of_lt (fs.names_lt h)

/-- `fopen` with mode `"wb"`. -/
def openTrunc (fs : FileSystem) (n : Name) : ℕ × FileSystem :=
  match fs.names n with
  | some i => (i, fs.setData i [])
  | none => (fs.nextFile, fs.create n)

/-- A write of `bytes` at `pos` through a handle on file `i`. -/
def write (fs : FileSystem) (i pos : ℕ) (bytes : List UInt8) : FileSystem :=
  fs.setData i (overwrite (fs.files i).data pos bytes)

/-- `fsync` through a handle on file `i`. -/
def sync (fs : FileSystem) (i : ℕ) : FileSystem :=
  { fs with files := Function.update fs.files i ⟨(fs.files i).data, true⟩ }

/-- `remove`; nothing happens if the name does not exist. -/
def unlink (fs : FileSystem) (n : Name) : FileSystem where
  names := Function.update fs.names n none
  files := fs.files
  nextFile := fs.nextFile
  names_lt := by
    intro m i h
    by_cases hm : m = n
    · subst hm
      rw [Function.update_self] at h
      simp at h
    · rw [Function.update_of_ne hm] at h
      exact fs.names_lt h

/-- The name `n` points at file `i`. -/
def link (fs : FileSystem) (n : Name) (i : ℕ) (h : i < fs.nextFile) : FileSystem where
  names := Function.update fs.names n (some i)
  files := fs.files
  nextFile := fs.nextFile
  names_lt := by
    intro m j hj
    by_cases hm : m = n
    · subst hm
      rw [Function.update_self] at hj
      cases hj
      exact h
    · rw [Function.update_of_ne hm] at hj
      exact fs.names_lt hj

/-- `rename`; it fails if the old name does not exist, and does nothing if both names are of one
file. -/
def rename (fs : FileSystem) (old new : Name) : Option FileSystem :=
  match h : fs.names old with
  | none => none
  | some i =>
    if fs.names new = some i then some fs
    else some ((fs.link new i (fs.names_lt h)).unlink old)

end FileSystem

/-- `c` may be what is left of `fs` after a crash; `durable` are the names as they were when the
directories were last synced. -/
structure Crash (durable : Name → Option ℕ) (fs c : FileSystem) : Prop where
  names : ∀ n, c.names n = fs.names n ∨ c.names n = durable n
  files : ∀ i, (fs.files i).synced = true → (c.files i).data = (fs.files i).data

/-- What is behind the name `n` has reached stable storage, with the name. -/
def Durable (durable : Name → Option ℕ) (fs : FileSystem) (n : Name) : Prop :=
  durable n = fs.names n ∧ ∀ i, fs.names n = some i → (fs.files i).synced = true

namespace FileSystem

/-! ## What the operations do -/

variable {fs fs' : FileSystem} {n m : Name} {i j : ℕ}

theorem content_of_none (h : fs.names n = none) : fs.content n = none := by
  unfold content
  rw [h, Option.map_none]

theorem content_of_name (h : fs.names n = some i) : fs.content n = some (fs.files i).data := by
  unfold content
  rw [h, Option.map_some]

/-- A name has the content it had if it leads where it led, to data that are as they were. -/
theorem content_congr (hn : fs'.names n = fs.names n)
    (hd : ∀ i, fs.names n = some i → (fs'.files i).data = (fs.files i).data) :
    fs'.content n = fs.content n := by
  rcases hi : fs.names n with _ | i
  · rw [content_of_none (hn.trans hi), content_of_none hi]
  · rw [content_of_name (hn.trans hi), content_of_name hi, hd i hi]

theorem setData_data (fs : FileSystem) (i j : ℕ) (data : List UInt8) :
    ((fs.setData i data).files j).data = if j = i then data else (fs.files j).data := by
  by_cases h : j = i
  · subst h
    simp [setData]
  · simp [setData, h]

theorem sync_data (fs : FileSystem) (i j : ℕ) : ((fs.sync i).files j).data = (fs.files j).data := by
  by_cases h : j = i
  · subst h
    simp [sync]
  · simp [sync, h]

theorem setData_files_of_ne {data : List UInt8} (h : j ≠ i) :
    (fs.setData i data).files j = fs.files j :=
  Function.update_of_ne h ..

theorem sync_files_of_ne (h : j ≠ i) : (fs.sync i).files j = fs.files j :=
  Function.update_of_ne h ..

theorem sync_synced (fs : FileSystem) (i : ℕ) : ((fs.sync i).files i).synced = true := by
  simp [sync]

/-- The file `fopen` opens: it is behind the name and empty, and other names and files are as they
were. -/
theorem openTrunc_spec (fs : FileSystem) (n : Name) :
    (fs.openTrunc n).2.names n = some (fs.openTrunc n).1 ∧
    (((fs.openTrunc n).2.files (fs.openTrunc n).1).data = []) ∧
    (∀ m, m ≠ n → (fs.openTrunc n).2.names m = fs.names m) ∧
    (∀ j, j ≠ (fs.openTrunc n).1 → (fs.openTrunc n).2.files j = fs.files j) ∧
    (fs.names n = some (fs.openTrunc n).1 ∨
      fs.names n = none ∧ (fs.openTrunc n).1 = fs.nextFile) ∧
    fs.nextFile ≤ (fs.openTrunc n).2.nextFile := by
  unfold openTrunc
  rcases hn : fs.names n with _ | i
  · refine ⟨Function.update_self .., ?_, fun m hm => Function.update_of_ne hm _ _,
      fun j hj => Function.update_of_ne hj _ _, Or.inr ⟨rfl, rfl⟩, Nat.le_succ _⟩
    simp [create]
  · refine ⟨hn, ?_, fun m _ => rfl, fun j hj => setData_files_of_ne hj, Or.inl rfl, Nat.le_refl _⟩
    simp [setData_data]

theorem rename_eq_none (h : fs.names n = none) : fs.rename n m = none := by
  unfold rename
  split
  · rfl
  · rename_i i h'
    rw [h] at h'
    cases h'

theorem rename_def (h : fs.names n = some i) : fs.rename n m =
    if fs.names m = some i then some fs else some ((fs.link m i (fs.names_lt h)).unlink n) := by
  unfold rename
  split
  · rename_i h'
    rw [h] at h'
    cases h'
  · rename_i j h'
    have hij : i = j := by
      rw [h] at h'
      exact Option.some_inj.mp h'
    subst hij
    rfl

/-- A rename of a name whose file is not behind the other one moves it. -/
theorem rename_eq_some (h : fs.names n = some i) (hne : fs.names m ≠ some i) (hnm : n ≠ m) :
    ∃ fs', fs.rename n m = some fs' ∧ fs'.names m = some i ∧ fs'.names n = none ∧
      (∀ k, k ≠ n → k ≠ m → fs'.names k = fs.names k) ∧
      fs'.files = fs.files ∧ fs'.nextFile = fs.nextFile := by
  refine ⟨(fs.link m i (fs.names_lt h)).unlink n, ?_, ?_, Function.update_self .., fun k hn hm => ?_,
    rfl, rfl⟩
  · rw [rename_def h, if_neg hne]
  · show Function.update (Function.update fs.names m (some i)) n none m = some i
    rw [Function.update_of_ne (Ne.symm hnm), Function.update_self]
  · show Function.update (Function.update fs.names m (some i)) n none k = fs.names k
    rw [Function.update_of_ne hn, Function.update_of_ne hm]

end FileSystem

/-- A crash leaves a name with the content it had, if the name is back where it was or stayed, and
the file behind it is synced. -/
theorem Crash.content {durable : Name → Option ℕ} {fs c : FileSystem} (h : Crash durable fs c)
    {n : Name} {i : ℕ} (hn : c.names n = some i) (hs : (fs.files i).synced = true) :
    c.content n = some (fs.files i).data := by
  rw [FileSystem.content_of_name hn, h.files i hs]

/-- Writing on where the data ends appends to it. -/
theorem overwrite_append (data bytes : List UInt8) :
    overwrite data data.length bytes = data ++ bytes := by
  unfold overwrite
  rw [Nat.sub_self, List.replicate_zero, List.append_nil, List.take_length, List.drop_eq_nil_of_le,
    List.append_nil]
  exact Nat.le_add_right _ _

/-! ## Disks -/

/-- A file system, and the names as they were when their directories were last synced. -/
structure Disk where
  fs : FileSystem
  durable : Name → Option ℕ

/-- What a process does to a disk.  A directory is given by the names in it. -/
inductive Disk.Op
  | openTrunc (n : Name)
  | write (i pos : ℕ) (bytes : List UInt8)
  | sync (i : ℕ)
  | unlink (n : Name)
  | rename (old new : Name)
  | syncDir (dir : Name → Bool)

namespace Disk

def step (d : Disk) : Op → Option Disk
  | .openTrunc n => some { d with fs := (d.fs.openTrunc n).2 }
  | .write i pos bytes => some { d with fs := d.fs.write i pos bytes }
  | .sync i => some { d with fs := d.fs.sync i }
  | .unlink n => some { d with fs := d.fs.unlink n }
  | .rename old new => (d.fs.rename old new).map fun fs => { d with fs := fs }
  | .syncDir dir => some { d with durable := fun n => if dir n then d.fs.names n else d.durable n }

/-- The file is behind the name, or will be if a crash takes the name back. -/
def Behind (d : Disk) (n : Name) (i : ℕ) : Prop := d.fs.names n = some i ∨ d.durable n = some i

instance (d : Disk) (n : Name) (i : ℕ) : Decidable (d.Behind n i) :=
  inferInstanceAs (Decidable (_ ∨ _))

/-- The operation changes neither the name nor the data of a file behind it. -/
def LeavesAlone (n : Name) (d : Disk) : Op → Prop
  | .openTrunc m => m ≠ n ∧ ¬ d.Behind n (d.fs.openTrunc m).1
  | .write i _ _ => ¬ d.Behind n i
  | .unlink m => m ≠ n
  | .rename old new => old ≠ n ∧ new ≠ n
  | .sync _ | .syncDir _ => True

instance (n : Name) (d : Disk) : ∀ op, Decidable (LeavesAlone n d op)
  | .openTrunc m => inferInstanceAs (Decidable (m ≠ n ∧ ¬ d.Behind n (d.fs.openTrunc m).1))
  | .write i _ _ => inferInstanceAs (Decidable (¬ d.Behind n i))
  | .unlink m => inferInstanceAs (Decidable (m ≠ n))
  | .rename old new => inferInstanceAs (Decidable (old ≠ n ∧ new ≠ n))
  | .sync _ => isTrue trivial
  | .syncDir _ => isTrue trivial

/-- A name that leads to `o` leads to a synced file that holds `data`. -/
def Holds (d : Disk) (data : List UInt8) (o : Option ℕ) : Prop :=
  ∃ i, o = some i ∧ (d.fs.files i).synced = true ∧ (d.fs.files i).data = data

/-- The name leads to the data, and will after a crash. -/
structure Safe (n : Name) (data : List UInt8) (d : Disk) : Prop where
  now : d.Holds data (d.fs.names n)
  crashed : d.Holds data (d.durable n)

variable {d d' : Disk} {n : Name} {data : List UInt8} {o : Option ℕ} {op : Op}

/-- What may be left of a disk after a crash that leads `n` to `o`: files that were not synced hold
something else than `data`. -/
def afterCrash (d : Disk) (n : Name) (data : List UInt8) (o : Option ℕ) : FileSystem where
  names := Function.update d.fs.names n o
  files i := if (d.fs.files i).synced then d.fs.files i else ⟨0 :: data, false⟩
  nextFile := max d.fs.nextFile (o.elim 0 Nat.succ)
  names_lt := by
    intro m i h
    by_cases hm : m = n
    · subst hm
      rw [Function.update_self] at h
      subst h
      exact Nat.lt_of_lt_of_le (Nat.lt_succ_self i) (Nat.le_max_right _ _)
    · rw [Function.update_of_ne hm] at h
      exact Nat.lt_of_lt_of_le (d.fs.names_lt h) (Nat.le_max_left _ _)

theorem crash_afterCrash (data : List UInt8) (ho : o = d.fs.names n ∨ o = d.durable n) :
    Crash d.durable d.fs (d.afterCrash n data o) where
  names m := by
    by_cases hm : m = n
    · subst hm
      rcases ho with rfl | rfl
      · exact Or.inl (Function.update_self ..)
      · exact Or.inr (Function.update_self ..)
    · exact Or.inl (Function.update_of_ne hm ..)
  files i hs := by
    show (if (d.fs.files i).synced then d.fs.files i else _).data = _
    rw [if_pos hs]

/-- A name that has the data after every crash leads to it. -/
theorem holds_of_crash (h : ∀ c, Crash d.durable d.fs c → c.content n = some data)
    (ho : o = d.fs.names n ∨ o = d.durable n) : d.Holds data o := by
  have hc := h _ (crash_afterCrash data ho)
  unfold FileSystem.content at hc
  rw [show (d.afterCrash n data o).names n = o from Function.update_self ..] at hc
  obtain ⟨i, rfl, hi⟩ := Option.map_eq_some_iff.mp hc
  have hi : (if (d.fs.files i).synced then d.fs.files i else ⟨0 :: data, false⟩).data = data := hi
  split_ifs at hi with hs
  · exact ⟨i, rfl, hs, hi⟩
  · exact absurd hi (List.cons_ne_self 0 data)

/-- **Crashes.** The data is behind the name after every crash exactly if both the name and its
durable entry lead to it. -/
theorem crash_iff_safe :
    (∀ c, Crash d.durable d.fs c → c.content n = some data) ↔ d.Safe n data := by
  constructor
  · intro h
    exact ⟨holds_of_crash h (Or.inl rfl), holds_of_crash h (Or.inr rfl)⟩
  · rintro ⟨⟨i, hi, hsi, rfl⟩, j, hj, hsj, hdj⟩ c hc
    rcases hc.names n with hn | hn
    · exact hc.content (hn.trans hi) hsi
    · rw [hc.content (hn.trans hj) hsj, hdj]

/-- What an operation that leaves a name alone can do: it may sync files, and the directory. -/
theorem step_of_leavesAlone (hg : LeavesAlone n d op) (hs : d.step op = some d') :
    d'.fs.names n = d.fs.names n ∧
    (d'.durable n = d.durable n ∨ d'.durable n = d.fs.names n) ∧
    ∀ i, d.Behind n i → (d'.fs.files i).data = (d.fs.files i).data ∧
      ((d.fs.files i).synced = true → (d'.fs.files i).synced = true) := by
  cases op with
  | openTrunc m =>
    cases hs
    obtain ⟨-, -, hnames, hfiles, -, -⟩ := d.fs.openTrunc_spec m
    refine ⟨hnames n (Ne.symm hg.1), Or.inl rfl, fun i hi => ?_⟩
    rw [hfiles i fun he => hg.2 (he ▸ hi)]
    exact ⟨rfl, id⟩
  | write j pos bytes =>
    cases hs
    refine ⟨rfl, Or.inl rfl, fun i hi => ?_⟩
    rw [show (d.fs.write j pos bytes).files i = d.fs.files i from
      FileSystem.setData_files_of_ne fun he => hg (he ▸ hi)]
    exact ⟨rfl, id⟩
  | sync j =>
    cases hs
    refine ⟨rfl, Or.inl rfl, fun i _ => ⟨FileSystem.sync_data .., fun hi => ?_⟩⟩
    by_cases hij : i = j
    · rw [hij]
      exact FileSystem.sync_synced ..
    · rw [FileSystem.sync_files_of_ne hij]
      exact hi
  | unlink m =>
    cases hs
    exact ⟨Function.update_of_ne (Ne.symm hg) .., Or.inl rfl, fun i _ => ⟨rfl, id⟩⟩
  | rename old new =>
    obtain ⟨fs', hr, rfl⟩ := Option.map_eq_some_iff.mp hs
    rcases ho : d.fs.names old with _ | j
    · rw [FileSystem.rename_eq_none ho] at hr
      cases hr
    · rw [FileSystem.rename_def ho] at hr
      split_ifs at hr <;> cases hr
      · exact ⟨rfl, Or.inl rfl, fun i _ => ⟨rfl, id⟩⟩
      · refine ⟨?_, Or.inl rfl, fun i _ => ⟨rfl, id⟩⟩
        show Function.update (Function.update d.fs.names new (some j)) old none n = d.fs.names n
        rw [Function.update_of_ne (Ne.symm hg.1), Function.update_of_ne (Ne.symm hg.2)]
  | syncDir dir =>
    cases hs
    refine ⟨rfl, ?_, fun i _ => ⟨rfl, id⟩⟩
    show (if dir n then _ else _) = _ ∨ (if dir n then _ else _) = _
    split_ifs
    · exact Or.inr rfl
    · exact Or.inl rfl

/-- A file behind the name keeps its data where the name is left alone. -/
theorem Holds.step (h : d.Holds data o) (ho : o = d.fs.names n ∨ o = d.durable n)
    (hg : LeavesAlone n d op) (hs : d.step op = some d') : d'.Holds data o := by
  obtain ⟨i, rfl, hsync, hdata⟩ := h
  have hbehind : d.Behind n i := ho.imp Eq.symm Eq.symm
  obtain ⟨hd, hsy⟩ := (step_of_leavesAlone hg hs).2.2 i hbehind
  exact ⟨i, rfl, hsy hsync, hd.trans hdata⟩

theorem Safe.step (h : d.Safe n data) (hg : LeavesAlone n d op) (hs : d.step op = some d') :
    d'.Safe n data := by
  obtain ⟨hnames, hdurable, -⟩ := step_of_leavesAlone hg hs
  have hnow : d'.Holds data (d.fs.names n) := h.now.step (Or.inl rfl) hg hs
  constructor
  · rw [hnames]
    exact hnow
  · rcases hdurable with he | he
    · rw [he]
      exact h.crashed.step (Or.inr rfl) hg hs
    · rw [he]
      exact hnow

end Disk

end Posix
