import D4np.Io.FileRead
import D4np.Lib.Linearizability

/-!
# A path is an atomic register

Any number of threads read and write one path, each with calls of `d4np_file_read_all` and
`d4np_file_write_all`, one after another.  A write takes effect where it renames its temporary file
over the path, and a read where it opens the file: from then on that file is in no writer's hands,
so however the reads that follow are split and whatever is renamed over the path in between, they
give the bytes the path led to at that instant.  As for the writes alone, this needs writers that
take turns with the temporary file.

A step of a reader is one round of its loop; what a single `fread` delivers is any number of bytes,
so one that the library splits into several system calls is several rounds.
-/

namespace D4np

open Word64 ByteMem Posix TransitionSystem

namespace File

/-- Where a thread is: between calls, in a write, or in a read, which waits for its `fopen`, is at
the top of its loop, or is about to return.  A read brings its allocator, the number of requests
that has had, and the answers of its `fread` calls. -/
inductive Thread
  | idle
  | write (data : List UInt8) (pc : Pc)
  | fopen (a : Allocator) (reads : ℕ → ReadAnswer) (requests : ℕ)
  | loop (a : Allocator) (reads : ℕ → ReadAnswer) (file : ℕ) (st : ReadState) (heap : Heap)
  | done (status : Status) (out : Option ReadOut)

namespace Thread

/-- The write a thread is in. -/
def pc : Thread → Pc
  | .write _ pc => pc
  | _ => .returned .ok

/-- The data of the write a thread is in. -/
def data : Thread → List UInt8
  | .write data _ => data
  | _ => []

/-- The file a thread reads. -/
def file : Thread → Option ℕ
  | .loop _ _ file _ _ => some file
  | _ => none

/-- The end of a read. -/
def finish (a : Allocator) (exit : ReadExit) (st : ReadState) (h : Heap) : Thread :=
  .done (readEnd a exit st h).1 (readEnd a exit st h).2.1

/-- One round of the loop of `d4np_file_read_all`, on a file that holds `data`. -/
def round (a : Allocator) (reads : ℕ → ReadAnswer) (file : ℕ) (data : List UInt8) (st : ReadState)
    (h : Heap) : Thread :=
  match st.grow a h with
  | (none, h) => finish a .refused st h
  | (some st, h) =>
    if st.got data (reads st.calls) = 0 then
      let st := st.fread data (reads st.calls)
      finish a (if st.failed then .failed else .eof) st h
    else .loop a reads file (st.fread data (reads st.calls)) h

end Thread

/-- The file system, and the threads that use one path of it. -/
structure Shared (ι : Type) where
  fs : FileSystem
  threads : ι → Thread

/-- A thread calls, what the environment does next in its write, its `fopen` for reading, a round of
its loop, and its return. -/
inductive SharedEvent (ι : Type)
  | write (i : ι) (data : List UInt8)
  | read (i : ι) (a : Allocator) (reads : ℕ → ReadAnswer) (requests : ℕ)
  | act (i : ι) (a : Act)
  | fopen (i : ι) (ok : Bool)
  | round (i : ι)
  | ret (i : ι)

namespace Shared

variable {ι : Type} [DecidableEq ι]

/-- Thread `i` moves. -/
def goto (w : Shared ι) (i : ι) (t : Thread) : Shared ι :=
  { w with threads := Function.update w.threads i t }

/-- A file has less than `2 ^ 63` bytes, as its offsets are signed. -/
def step (path : Name) (w : Shared ι) : SharedEvent ι → Option (Shared ι)
  | .write i data =>
    match w.threads i with
    | .idle => if data.length < 2 ^ 63 then some (w.goto i (.write data (writeAll path))) else none
    | _ => none
  | .read i a reads requests =>
    match w.threads i with
    | .idle => some (w.goto i (.fopen a reads requests))
    | _ => none
  | .act i act =>
    match w.threads i with
    | .write data pc =>
      (File.step path data w.fs pc act).map fun r => { w.goto i (.write data r.2) with fs := r.1 }
    | _ => none
  | .fopen i ok =>
    match w.threads i with
    | .fopen a reads requests =>
      match if ok then w.fs.names path else none with
      | none => some (w.goto i (.done .errIo none))
      | some file => some (w.goto i (.loop a reads file ReadState.start ⟨requests, []⟩))
    | _ => none
  | .round i =>
    match w.threads i with
    | .loop a reads file st heap =>
      some (w.goto i (.round a reads file (w.fs.files file).data st heap))
    | _ => none
  | .ret i =>
    match w.threads i with
    | .write _ (.returned _) | .done _ _ => some (w.goto i .idle)
    | _ => none

/-- A write opens the temporary file only if that file is not the target under a second name and no
other write works on it. -/
def TakesTurns [Fintype ι] (path : Name) (w : Shared ι) : SharedEvent ι → Prop
  | .act i (.ret true) => (w.threads i).pc = .fopen →
    (w.fs.names (tmpName path) = none ∨ w.fs.names (tmpName path) ≠ w.fs.names path) ∧
    ∀ j, j ≠ i → (w.threads j).pc.busy = false
  | _ => True

instance [Fintype ι] (path : Name) (w : Shared ι) :
    (e : SharedEvent ι) → Decidable (TakesTurns path w e)
  | .act i (.ret true) => inferInstanceAs (Decidable ((w.threads i).pc = .fopen →
      (w.fs.names (tmpName path) = none ∨ w.fs.names (tmpName path) ≠ w.fs.names path) ∧
      ∀ j, j ≠ i → (w.threads j).pc.busy = false))
  | .act _ (.ret false) | .act _ (.write _) | .write _ _ | .read _ _ _ _ | .fopen _ _ | .round _
  | .ret _ => inferInstanceAs (Decidable True)

end Shared

/-- Threads that share a path of a file system. -/
def shared (ι : Type) [DecidableEq ι] (path : Name) (fs₀ : FileSystem) :
    System (Shared ι) (SharedEvent ι) where
  init w := w = ⟨fs₀, fun _ => .idle⟩
  step := Shared.step path

/-! ## The register -/

/-- An operation on the path. -/
inductive RegisterOp
  | write (data : List UInt8)
  | read

/-- What an operation returns: a status, and for a read the bytes handed out. -/
inductive RegisterResult
  | written (rc : Status)
  | read (rc : Status) (bytes : Option (List UInt8))

/-- A register that may be absent: a write that succeeds replaces its contents, a read that succeeds
gives them, and an operation that fails changes nothing and gives nothing. -/
def register (initial : Option (List UInt8)) :
    Object (Option (List UInt8)) RegisterOp RegisterResult where
  start := initial
  effect
    | c, .write data, .written rc => if rc = .ok then some (some data) else some c
    | c, .read, .read rc bytes =>
      if rc = .ok then if c ≠ none ∧ bytes = c then some c else none
      else if bytes = none then some c else none
    | _, _, _ => none

/-- The bytes a read hands out. -/
def handedOut (out : Option ReadOut) : Option (List UInt8) :=
  out.map fun o => front o.bytes o.size

/-- What a read that stands in its loop will return, if the file holds `data` from now on. -/
def outcome (a : Allocator) (reads : ℕ → ReadAnswer) (data : List UInt8) (st : ReadState)
    (h : Heap) : Option RegisterResult :=
  (ReadState.readLoop a data reads (data.length + 1) st h).map fun x =>
    .read (readEnd a x.1 x.2.1 x.2.2).1 (handedOut (readEnd a x.1 x.2.1 x.2.2).2.1)

/-- Where a thread stands with its operation: before or after the instant it takes effect. -/
def Thread.stage (fs : FileSystem) : Thread → Stage RegisterOp RegisterResult
  | .idle => .idle
  | .write _ (.returned rc) => .done (.written rc)
  | .write data _ => .called (.write data)
  | .fopen _ _ _ => .called .read
  | .loop a reads file st heap =>
    .done ((outcome a reads (fs.files file).data st heap).getD (.read .errInternal none))
  | .done rc out => .done (.read rc (handedOut out))

namespace Shared

variable {ι : Type} [DecidableEq ι]

/-- The register and the stages of the threads. -/
def toAtomic (path : Name) (w : Shared ι) :
    Atomic ι (Option (List UInt8)) RegisterOp RegisterResult where
  obj := w.fs.content path
  stage i := (w.threads i).stage w.fs

/-- What a step shows: a call, or a return with its result. -/
def marks (w : Shared ι) : SharedEvent ι → List (Mark ι RegisterOp RegisterResult)
  | .write i data => [.call i (.write data)]
  | .read i _ _ _ => [.call i .read]
  | .ret i =>
    match w.threads i with
    | .write _ (.returned rc) => [.ret i (.written rc)]
    | .done rc out => [.ret i (.read rc (handedOut out))]
    | _ => []
  | _ => []

end Shared

/-! ## The rounds of a read -/

section Rounds

variable {a : Allocator} {reads : ℕ → ReadAnswer} {data : List UInt8} {st : ReadState} {h : Heap}

/-- A loop that ends does not need more rounds. -/
theorem readLoop_succ : ∀ {fuel : ℕ} {st : ReadState} {h : Heap} {x : ReadExit × ReadState × Heap},
    ReadState.readLoop a data reads fuel st h = some x →
    ReadState.readLoop a data reads (fuel + 1) st h = some x := by
  intro fuel
  induction fuel with
  | zero =>
    intro st h x hx
    cases hx
  | succ fuel ih =>
    intro st h x hx
    unfold ReadState.readLoop at hx ⊢
    rcases hg : st.grow a h with ⟨_ | st', h'⟩
    · rw [hg] at hx
      exact hx
    · rw [hg] at hx
      simp only at hx ⊢
      by_cases hgot : st'.got data (reads st'.calls) = 0
      · rw [if_pos hgot] at hx ⊢
        exact hx
      · rw [if_neg hgot] at hx ⊢
        exact ih hx

/-- **A round.** It ends the read with the result its remaining rounds give, or leaves it in its
loop with the same result ahead. -/
theorem round_cases (hok : ReadOk data reads st h) (hdata : data.length < 2 ^ 63) (file : ℕ) :
    (∃ rc out, Thread.round a reads file data st h = .done rc out ∧
      outcome a reads data st h = some (.read rc (handedOut out))) ∨
    ∃ st' h', Thread.round a reads file data st h = .loop a reads file st' h' ∧
      ReadOk data reads st' h' ∧ outcome a reads data st h = outcome a reads data st' h' := by
  unfold outcome Thread.round
  rw [ReadState.readLoop]
  rcases hok.grow hdata a with ⟨h', hg, hend⟩ | ⟨st', h', hg, hok', _, hroom⟩
  · rw [hg]
    exact Or.inl ⟨_, _, rfl, rfl⟩
  · rw [hg]
    obtain ⟨hread, hlen⟩ := hok'.fread hdata
    simp only
    by_cases hgot : st'.got data (reads st'.calls) = 0
    · rw [if_pos hgot, if_pos hgot]
      refine Or.inl ⟨_, _, rfl, ?_⟩
      by_cases hfailed : (st'.fread data (reads st'.calls)).failed = true
      · rw [if_pos hfailed, if_pos hfailed]
        rfl
      · rw [if_neg hfailed, if_neg hfailed]
        rfl
    · rw [if_neg hgot, if_neg hgot]
      refine Or.inr ⟨_, h', rfl, hread, ?_⟩
      -- a byte was read, so one round less is enough
      obtain ⟨exit, st₁, h₁, hloop, _⟩ := readLoop_ended hdata a data.length _ h' hread (by omega)
      rw [hloop, readLoop_succ hloop]

/-- What a read returns that has just opened the file: its bytes, or an error and nothing. -/
theorem outcome_start (a : Allocator) (reads : ℕ → ReadAnswer) (hdata : data.length < 2 ^ 63)
    (requests : ℕ) : ∃ rc bytes,
      outcome a reads data ReadState.start ⟨requests, []⟩ = some (.read rc bytes) ∧
      (rc = .ok → bytes = some data) ∧ (rc ≠ .ok → bytes = none) := by
  obtain ⟨exit, st, h, hloop, hend⟩ := readLoop_ended hdata a (data.length + 1) ReadState.start
    ⟨requests, []⟩ (readOk_start data reads requests) (Nat.le_add_left _ _)
  unfold outcome
  rw [hloop]
  by_cases hexit : exit = .eof
  · subst hexit
    obtain ⟨out, o, h', he, hdel, _⟩ := readEnd_eof hend a
    refine ⟨_, _, rfl, fun _ => ?_, fun hrc => ?_⟩
    · simp only [he, hdel.written, handedOut, Option.map_some, hdel.bytes_eq]
    · simp only [he] at hrc
      exact absurd rfl hrc
  · obtain ⟨rc, hrc, he, _⟩ := readEnd_error hend hexit a
    refine ⟨_, _, rfl, fun h => ?_, fun _ => ?_⟩
    · simp only [he] at h
      exact absurd h hrc
    · simp only [he]
      rfl

end Rounds

/-! ## The invariant -/

namespace Shared

variable {ι : Type} [DecidableEq ι] {path : Name} {w : Shared ι} {i : ι}

/-- A file that a thread reads, or would open for reading now. -/
def Shown (path : Name) (w : Shared ι) (f : ℕ) : Prop :=
  w.fs.names path = some f ∨ ∃ i, (w.threads i).file = some f

/-- A file that is shown is in no writer's hands, nor can a writer open it. -/
structure ShownOk (path : Name) (w : Shared ι) (f : ℕ) : Prop where
  length : (w.fs.files f).data.length < 2 ^ 63
  lt : f < w.fs.nextFile
  ofTmp : w.fs.names (tmpName path) = some f → w.fs.names path = some f
  handle : ∀ i, (w.threads i).pc.handle ≠ some f

/-- The invariant of threads that share a path. -/
structure Inv (path : Name) (w : Shared ι) : Prop where
  shown : ∀ f, w.Shown path f → w.ShownOk path f
  calls : ∀ i, CallOk path (w.threads i).data w.fs (w.threads i).pc
  small : ∀ i, (w.threads i).data.length < 2 ^ 63
  alone : ∀ {i j}, (w.threads i).pc.busy = true → (w.threads j).pc.busy = true → i = j
  loops : ∀ i {a reads file st heap}, w.threads i = .loop a reads file st heap →
    ReadOk (w.fs.files file).data reads st heap

/-- Facts about all threads after a step of one of them. -/
theorem forall_threads {P : ι → Thread → Prop} {t : Thread} (hi : P i t)
    (hj : ∀ j, j ≠ i → P j (w.threads j)) : ∀ j, P j (Function.update w.threads i t j) := by
  intro j
  by_cases hji : j = i
  · subst hji
    rwa [Function.update_self]
  · rw [Function.update_of_ne hji]
    exact hj j hji

omit [DecidableEq ι] in
theorem Inv.others_idle (h : Inv path w) (hi : (w.threads i).pc.busy = true) :
    ∀ j, j ≠ i → (w.threads j).pc.busy = false := by
  intro j hj
  by_contra hb
  exact hj (h.alone (by simpa using hb) hi)

theorem Inv.alone_update (h : Inv path w) {t : Thread}
    (hb : t.pc.busy = true → ∀ j, j ≠ i → (w.threads j).pc.busy = false) {j k : ι}
    (hj : (Function.update w.threads i t j).pc.busy = true)
    (hk : (Function.update w.threads i t k).pc.busy = true) : j = k := by
  have key : ∀ j, j ≠ i →
      ¬((Function.update w.threads i t j).pc.busy = true ∧ t.pc.busy = true) := by
    rintro j hji ⟨hj, ht⟩
    rw [Function.update_of_ne hji, hb ht j hji] at hj
    cases hj
  by_cases hji : j = i <;> by_cases hki : k = i
  · rw [hji, hki]
  · rw [hji, Function.update_self] at hj
    exact absurd ⟨hk, hj⟩ (key k hki)
  · rw [hki, Function.update_self] at hk
    exact absurd ⟨hj, hk⟩ (key j hji)
  · rw [Function.update_of_ne hji] at hj
    rw [Function.update_of_ne hki] at hk
    exact h.alone hj hk

/-- A thread moves that has nothing to do with the temporary file. -/
theorem Inv.goto (h : Inv path w) {t : Thread} (hb : t.pc.busy = false)
    (hsmall : t.data.length < 2 ^ 63) (hfile : ∀ f, t.file = some f → w.Shown path f)
    (hloop : ∀ {a reads file st heap}, t = .loop a reads file st heap →
      ReadOk (w.fs.files file).data reads st heap) : Inv path (w.goto i t) := by
  have hshown : ∀ f, (w.goto i t).Shown path f → w.Shown path f := by
    rintro f (hf | ⟨j, hj⟩)
    · exact Or.inl hf
    · replace hj : (Function.update w.threads i t j).file = some f := hj
      by_cases hji : j = i
      · subst hji
        rw [Function.update_self] at hj
        exact hfile f hj
      · rw [Function.update_of_ne hji] at hj
        exact Or.inr ⟨j, hj⟩
  have hhandle : ∀ f, t.pc.handle ≠ some f := by
    intro f hf
    rw [Pc.busy_of_handle hf] at hb
    cases hb
  refine ⟨fun f hf => ?_, ?_, ?_,
    h.alone_update fun ht => absurd (hb.symm.trans ht) Bool.false_ne_true, ?_⟩
  · have ho := h.shown f (hshown f hf)
    exact ⟨ho.length, ho.lt, ho.ofTmp, forall_threads (P := fun _ t => t.pc.handle ≠ some f)
      (hhandle f) fun j _ => ho.handle j⟩
  · exact forall_threads (P := fun _ t => CallOk path t.data w.fs t.pc) (.of_not_busy hb)
      fun j _ => h.calls j
  · exact forall_threads (P := fun _ t => t.data.length < 2 ^ 63) hsmall fun j _ => h.small j
  · intro j
    exact forall_threads (P := fun _ t => ∀ {a reads file st heap}, t = .loop a reads file st heap →
      ReadOk (w.fs.files file).data reads st heap) hloop (fun j _ => h.loops j) j

section Writer

variable {data : List UInt8} {pc pc' : Pc} {fs' : FileSystem}

/-- A writer moves, with what its step does to the file system. -/
def wrote (w : Shared ι) (i : ι) (data : List UInt8) (fs' : FileSystem) (pc' : Pc) : Shared ι :=
  { w.goto i (.write data pc') with fs := fs' }

theorem Shown.of_wrote {f : ℕ} (hf : (w.wrote i data fs' pc').Shown path f) :
    fs'.names path = some f ∨ ∃ j, (w.threads j).file = some f := by
  rcases hf with hf | ⟨j, hj⟩
  · exact Or.inl hf
  · replace hj : (Function.update w.threads i (.write data pc') j).file = some f := hj
    by_cases hji : j = i
    · rw [hji, Function.update_self] at hj
      cases hj
    · rw [Function.update_of_ne hji] at hj
      exact Or.inr ⟨j, hj⟩

theorem Inv.wrote (h : Inv path w) (hi : w.threads i = .write data pc)
    (hshown : ∀ f, (fs'.names path = some f ∨ ∃ j, (w.threads j).file = some f) →
      (w.wrote i data fs' pc').ShownOk path f)
    (hfile : ∀ j f, (w.threads j).file = some f → (fs'.files f).data = (w.fs.files f).data)
    (hcall : CallOk path data fs' pc')
    (hcalls : ∀ j, j ≠ i → CallOk path (w.threads j).data fs' (w.threads j).pc)
    (hb : pc'.busy = true → ∀ j, j ≠ i → (w.threads j).pc.busy = false) :
    Inv path (w.wrote i data fs' pc') := by
  have hsmall : data.length < 2 ^ 63 := by
    have hs := h.small i
    rwa [hi] at hs
  refine ⟨fun f hf => hshown f hf.of_wrote, ?_, ?_, h.alone_update (t := .write data pc') hb, ?_⟩
  · exact forall_threads (P := fun _ t => CallOk path t.data fs' t.pc) hcall hcalls
  · exact forall_threads (P := fun _ t => t.data.length < 2 ^ 63) hsmall fun j _ => h.small j
  · intro j
    refine forall_threads (P := fun _ t => ∀ {a reads file st heap},
      t = .loop a reads file st heap → ReadOk (fs'.files file).data reads st heap)
      (fun ht => by cases ht) (fun j _ => ?_) j
    intro a reads file st heap ht
    rw [hfile j file (by rw [ht]; rfl)]
    exact h.loops j ht

/-- A step of a writer that leads the path nowhere else. -/
theorem Inv.wrote_of_path (h : Inv path w) (hi : w.threads i = .write data pc)
    (hpath : fs'.names path = w.fs.names path) (hnext : w.fs.nextFile ≤ fs'.nextFile)
    (htmp : ∀ f, w.Shown path f → fs'.names (tmpName path) = some f → w.fs.names path = some f)
    (hdata : ∀ f, w.Shown path f → (fs'.files f).data = (w.fs.files f).data)
    (hhandle : ∀ f, w.Shown path f → pc'.handle ≠ some f) (hcall : CallOk path data fs' pc')
    (hcalls : ∀ j, j ≠ i → CallOk path (w.threads j).data fs' (w.threads j).pc)
    (hb : pc'.busy = true → ∀ j, j ≠ i → (w.threads j).pc.busy = false) :
    Inv path (w.wrote i data fs' pc') := by
  refine h.wrote hi (fun f hf => ?_) (fun j f hj => hdata f (Or.inr ⟨j, hj⟩)) hcall hcalls hb
  rw [hpath] at hf
  have ho := h.shown f hf
  refine ⟨?_, ho.lt.trans_le hnext, fun ht => hpath.trans (htmp f hf ht),
    forall_threads (P := fun _ t => t.pc.handle ≠ some f) (hhandle f hf) fun j _ => ho.handle j⟩
  show (fs'.files f).data.length < 2 ^ 63
  rw [hdata f hf]
  exact ho.length

/-- What the step of a writer may do to the threads that read: nothing, until it renames. -/
structure Wrote (path : Name) (w : Shared ι) (i : ι) (data : List UInt8) (fs' : FileSystem)
    (pc' : Pc) : Prop where
  inv : Inv path (w.wrote i data fs' pc')
  kept : ∀ f, w.Shown path f → (fs'.files f).data = (w.fs.files f).data
  content : fs'.content path = if pc' = .returned .ok then some data else w.fs.content path

/-- A writer that is alone opens its temporary file. -/
theorem Inv.opens (h : Inv path w) (hi : w.threads i = .write data .fopen)
    (hne : w.fs.names (tmpName path) = none ∨ w.fs.names (tmpName path) ≠ w.fs.names path)
    (hb : ∀ j, j ≠ i → (w.threads j).pc.busy = false)
    (hpc : pc' = if data.length > 0 then .fwrite (w.fs.openTrunc (tmpName path)).1 0
      else .fflush (w.fs.openTrunc (tmpName path)).1 0) :
    Wrote path w i data (w.fs.openTrunc (tmpName path)).2 pc' := by
  obtain ⟨hname, hdata, hnames, hfiles, hfile, hnext⟩ := w.fs.openTrunc_spec (tmpName path)
  revert hpc hname hdata hnames hfiles hfile hnext
  generalize (w.fs.openTrunc (tmpName path)).1 = file
  generalize (w.fs.openTrunc (tmpName path)).2 = fs'
  intro hpc hname hdata hnames hfiles hfile hnext
  have hpath := hnames path (tmpName_ne path).symm
  have hold : ∀ f, w.Shown path f → f ≠ file := by
    rintro f hf rfl
    have ho := h.shown f hf
    rcases hfile with he | ⟨-, he⟩
    · rcases hne with hn | hn
      · rw [hn] at he
        cases he
      · exact hn (he.trans (ho.ofTmp he).symm)
    · exact absurd ho.lt (by omega)
  have hkept : ∀ f, w.Shown path f → (fs'.files f).data = (w.fs.files f).data := by
    intro f hf
    rw [hfiles f (hold f hf)]
  refine ⟨h.wrote_of_path hi hpath hnext ?_ hkept ?_ ?_ ?_ fun _ => hb, hkept, ?_⟩
  · intro f hf he
    rw [hname] at he
    exact absurd (Option.some_inj.mp he).symm (hold f hf)
  · intro f hf he
    refine hold f hf ?_
    rw [hpc] at he
    split_ifs at he <;> exact (Option.some_inj.mp he).symm
  · rw [hpc]
    split_ifs
    · exact ⟨⟨Or.inr hname, hdata⟩, Nat.zero_le _⟩
    · exact ⟨⟨Or.inr hname, hdata⟩, Nat.zero_le _⟩
  · exact fun j hj => .of_not_busy (hb j hj)
  · rw [if_neg (by rw [hpc]; split_ifs <;> nofun)]
    exact FileSystem.content_congr hpath fun f hf => hkept f (Or.inl hf)

theorem Inv.keeps (h : Inv path w) (hi : w.threads i = .write data pc)
    (hs : Keeps path data w.fs fs' pc pc') (hok : pc' ≠ .returned .ok) :
    Wrote path w i data fs' pc' := by
  have hpc : (w.threads i).pc = pc := by rw [hi]; rfl
  have hkept : ∀ f, w.Shown path f → (fs'.files f).data = (w.fs.files f).data := by
    intro f hf
    refine hs.others f ?_
    rw [← hpc]
    exact (h.shown f hf).handle i
  refine ⟨h.wrote_of_path hi (by rw [hs.names]) (Nat.le_of_eq hs.nextFile.symm) ?_ hkept ?_
    hs.callOk ?_ ?_, hkept, ?_⟩
  · intro f hf ht
    rw [hs.names] at ht
    exact (h.shown f hf).ofTmp ht
  · intro f hf hf'
    exact (h.shown f hf).handle i (by rw [hpc, hs.handle hf'])
  · intro j hj
    by_cases hb : pc.busy = true
    · exact .of_not_busy (h.others_idle (by rwa [hpc]) j hj)
    · exact (h.calls j).congr hs.names fun f => hs.others f fun hf => hb (Pc.busy_of_handle hf)
  · exact fun hb => h.others_idle (by rw [hpc]; exact hs.busy hb)
  · rw [if_neg hok]
    exact FileSystem.content_congr (by rw [hs.names]) fun f hf => hkept f (Or.inl hf)

/-- A writer that gives up takes the temporary name away, perhaps from one that came after. -/
theorem Inv.removes (h : Inv path w) (hi : w.threads i = .write data .remove) :
    Wrote path w i data (w.fs.unlink (tmpName path)) (.returned .errIo) := by
  have hpath : (w.fs.unlink (tmpName path)).names path = w.fs.names path :=
    Function.update_of_ne (tmpName_ne path).symm _ _
  have htmp : (w.fs.unlink (tmpName path)).names (tmpName path) = none := Function.update_self ..
  refine ⟨h.wrote_of_path hi hpath (Nat.le_refl _) ?_ (fun _ _ => rfl) nofun trivial ?_ nofun,
    fun _ _ => rfl, FileSystem.content_congr hpath fun _ _ => rfl⟩
  · intro f _ ht
    rw [htmp] at ht
    cases ht
  · intro j _
    have hj := h.calls j
    cases hpc : (w.threads j).pc <;> rw [hpc] at hj
    case fwrite | fflush | abort => exact ⟨⟨Or.inl htmp, hj.1.2⟩, hj.2⟩
    case fsync | fclose => exact ⟨Or.inl htmp, hj.2⟩
    case rename =>
      intro file hf
      rw [htmp] at hf
      cases hf
    all_goals trivial

/-- The rename leads the path to all of the data, in a file no one reads yet. -/
theorem Inv.renames (h : Inv path w) (hi : w.threads i = .write data .rename)
    (hr : w.fs.rename (tmpName path) path = some fs') :
    Wrote path w i data fs' (.returned .ok) := by
  have hb : ∀ j, j ≠ i → (w.threads j).pc.busy = false := h.others_idle (by rw [hi]; rfl)
  have hok := h.calls i
  have hsmall := h.small i
  rw [hi] at hok hsmall
  rcases hname : w.fs.names (tmpName path) with _ | file
  · rw [FileSystem.rename_eq_none hname] at hr
    cases hr
  obtain ⟨hne, hdata⟩ := hok file hname
  obtain ⟨_, hr', hpath, htmp, _, hfiles, hnext⟩ :=
    FileSystem.rename_eq_some hname hne (tmpName_ne path)
  obtain rfl := Option.some.inj (hr.symm.trans hr')
  refine ⟨h.wrote hi (fun f hf => ?_) (fun _ f _ => by rw [hfiles]) trivial
    (fun j hj => .of_not_busy (hb j hj)) nofun, fun f _ => by rw [hfiles], ?_⟩
  · have hgood : f < w.fs.nextFile ∧ (w.fs.files f).data.length < 2 ^ 63 := by
      rcases hf with hf | hf
      · rw [hpath] at hf
        obtain rfl := Option.some.inj hf
        rw [hdata]
        exact ⟨w.fs.names_lt hname, hsmall⟩
      · have ho := h.shown f (Or.inr hf)
        exact ⟨ho.lt, ho.length⟩
    refine ⟨?_, ?_, ?_, forall_threads (P := fun _ t => t.pc.handle ≠ some f) nofun
      fun j hj hh => ?_⟩
    · show (fs'.files f).data.length < 2 ^ 63
      rw [hfiles]
      exact hgood.2
    · show f < fs'.nextFile
      rw [hnext]
      exact hgood.1
    · show fs'.names (tmpName path) = some f → _
      rw [htmp]
      nofun
    · exact absurd ((hb j hj).symm.trans (Pc.busy_of_handle hh)) Bool.false_ne_true
  · rw [FileSystem.content_of_name hpath, hfiles, hdata]
    rfl

/-- A call goes on until it returns, and only a rename lets it succeed. -/
theorem step_status {fs : FileSystem} {a : Act}
    (hs : File.step path data fs pc a = some (fs', pc')) :
    (∀ rc, pc ≠ .returned rc) ∧
      (pc' = .returned .ok → pc = .rename ∧ fs.rename (tmpName path) path = some fs') := by
  refine ⟨?_, ?_⟩
  · rintro rc rfl
    cases hs
  · rintro rfl
    unfold File.step at hs
    split at hs
    case h_8 =>
      split_ifs at hs
      · obtain ⟨_, hr, he⟩ := Option.map_eq_some_iff.mp hs
        cases he
        exact ⟨rfl, hr⟩
      · cases hs
    -- no other position is followed by a successful return
    all_goals grind [Option.map_eq_some_iff]

theorem Inv.act [Fintype ι] {a : Act} (h : Inv path w) (hi : w.threads i = .write data pc)
    (hg : w.TakesTurns path (.act i a)) (hs : File.step path data w.fs pc a = some (fs', pc')) :
    Wrote path w i data fs' pc' := by
  have hpc : (w.threads i).pc = pc := by rw [hi]; rfl
  by_cases hret : pc' = .returned .ok
  · obtain ⟨rfl, hr⟩ := (step_status hs).2 hret
    rw [hret]
    exact h.renames hi hr
  have hok := h.calls i
  rw [hi] at hok
  have hne : ∀ {f}, pc.handle = some f → w.fs.names path ≠ some f := by
    intro f hf hn
    exact (h.shown f (Or.inl hn)).handle i (by rw [hpc, hf])
  rcases step_cases hs hok hne with ⟨rfl, rfl, rfl, he⟩ | ⟨_, _, he⟩ | ⟨rfl, rfl, rfl⟩ | hk
  · obtain ⟨hne, hb⟩ := hg hpc
    exact h.opens hi hne hb he
  · exact absurd he hret
  · exact h.removes hi
  · exact h.keeps hi hk hret

end Writer

/-! ## Every step is one of the register's -/

section Moves

variable {data : List UInt8} {pc pc' : Pc} {fs fs' : FileSystem} {initial : Option (List UInt8)}

theorem stage_write (h : ∀ rc, pc ≠ .returned rc) :
    (Thread.write data pc).stage fs = .called (.write data) := by
  cases pc with
  | returned rc => exact absurd rfl (h rc)
  | _ => rfl

theorem stage_loop (a : Allocator) (reads : ℕ → ReadAnswer) (file : ℕ) (st : ReadState)
    (heap : Heap) :
    (Thread.loop a reads file st heap).stage fs =
      .done ((outcome a reads (fs.files file).data st heap).getD (.read .errInternal none)) :=
  rfl

theorem stage_congr {t : Thread}
    (h : ∀ f, t.file = some f → (fs'.files f).data = (fs.files f).data) :
    t.stage fs' = t.stage fs := by
  cases t with
  | loop a reads file st heap => rw [stage_loop, stage_loop, h file rfl]
  | write data pc => cases pc <;> rfl
  | _ => rfl

theorem toAtomic_goto (w : Shared ι) (i : ι) (t : Thread) :
    (w.goto i t).toAtomic path = (w.toAtomic path).goto i (t.stage w.fs) := by
  simp only [toAtomic, goto, Atomic.goto, Atomic.mk.injEq, true_and]
  funext j
  exact Function.apply_update (fun _ t => Thread.stage w.fs t) w.threads i t j

theorem toAtomic_wrote (hkept : ∀ f, w.Shown path f → (fs'.files f).data = (w.fs.files f).data) :
    (w.wrote i data fs' pc').toAtomic path =
      { (w.toAtomic path).goto i ((Thread.write data pc').stage fs') with
        obj := fs'.content path } := by
  simp only [toAtomic, Shared.wrote, goto, Atomic.goto, Atomic.mk.injEq, true_and]
  funext j
  by_cases hj : j = i
  · rw [hj, Function.update_self, Function.update_self]
  · rw [Function.update_of_ne hj, Function.update_of_ne hj]
    exact stage_congr fun f hf => hkept f (Or.inr ⟨j, hf⟩)

/-- A write takes effect where it returns: the rename is its last step. -/
theorem Wrote.moves (hw : Wrote path w i data fs' pc') (hi : w.threads i = .write data pc)
    (hpc : ∀ rc, pc ≠ .returned rc) :
    (register initial).Moves (w.toAtomic path) [] ((w.wrote i data fs' pc').toAtomic path) := by
  have hstage : (w.toAtomic path).stage i = .called (.write data) := by
    show (w.threads i).stage w.fs = _
    rw [hi, stage_write hpc]
  rw [toAtomic_wrote hw.kept]
  by_cases hret : ∃ rc, pc' = .returned rc
  · obtain ⟨rc, rfl⟩ := hret
    refine Object.Moves.take hstage (r := .written rc) ?_
    rw [hw.content]
    show (if rc = .ok then some (some data) else some (w.fs.content path)) = _
    by_cases hrc : rc = .ok
    · rw [if_pos hrc, if_pos (by rw [hrc])]
    · rw [if_neg hrc, if_neg (by rintro ⟨⟩; exact hrc rfl)]
  · rw [stage_write fun rc h => hret ⟨rc, h⟩, Atomic.goto_stay hstage, hw.content,
      if_neg fun h => hret ⟨_, h⟩]
    exact Object.Moves.refl

/-- A read that takes effect leaves the register alone. -/
theorem read_moves {t : Thread} {rc : Status} {bytes : Option (List UInt8)}
    (hi : (w.threads i).stage w.fs = .called .read) (ht : t.stage w.fs = .done (.read rc bytes))
    (hok : rc = .ok → w.fs.content path ≠ none ∧ bytes = w.fs.content path)
    (herr : rc ≠ .ok → bytes = none) :
    (register initial).Moves (w.toAtomic path) [] ((w.goto i t).toAtomic path) := by
  have he : (register initial).effect (w.fs.content path) .read (.read rc bytes) =
      some (w.fs.content path) := by
    unfold register
    simp only
    by_cases hrc : rc = .ok
    · rw [if_pos hrc, if_pos (hok hrc)]
    · rw [if_neg hrc, if_pos (herr hrc)]
  rw [toAtomic_goto, ht]
  exact Object.Moves.take (x := w.fs.content path) hi he

/-- A read takes effect where it opens the file. -/
theorem fopen_moves {a : Allocator} {reads : ℕ → ReadAnswer} {requests file : ℕ} (h : Inv path w)
    (hi : w.threads i = .fopen a reads requests) (hf : w.fs.names path = some file) :
    (register initial).Moves (w.toAtomic path) []
      ((w.goto i (.loop a reads file ReadState.start ⟨requests, []⟩)).toAtomic path) := by
  have hcontent := FileSystem.content_of_name hf
  obtain ⟨rc, bytes, ho, hok, herr⟩ := outcome_start a reads
    (h.shown file (Or.inl hf)).length requests
  have hstage : (Thread.loop a reads file ReadState.start ⟨requests, []⟩).stage w.fs =
      .done (.read rc bytes) := by
    rw [stage_loop, ho]
    rfl
  refine read_moves (by rw [hi]; rfl) hstage (fun hrc => ?_) herr
  rw [hcontent]
  exact ⟨nofun, hok hrc⟩

/-- A round keeps the result that a read has ahead. -/
theorem Inv.round (h : Inv path w) {a : Allocator} {reads : ℕ → ReadAnswer} {file : ℕ}
    {st : ReadState} {heap : Heap} (hi : w.threads i = .loop a reads file st heap) :
    Inv path (w.goto i (.round a reads file (w.fs.files file).data st heap)) ∧
    (register initial).Moves (w.toAtomic path) []
      ((w.goto i (.round a reads file (w.fs.files file).data st heap)).toAtomic path) := by
  have hfile : (w.threads i).file = some file := by rw [hi]; rfl
  have ho := h.shown file (Or.inr ⟨i, hfile⟩)
  have hstage : (w.toAtomic path).stage i = .done ((outcome a reads (w.fs.files file).data st
      heap).getD (.read .errInternal none)) := by
    show (w.threads i).stage w.fs = _
    rw [hi, stage_loop]
  rw [toAtomic_goto]
  rcases round_cases (a := a) (h.loops i hi) ho.length file with
    ⟨rc, out, hr, hout⟩ | ⟨st', h', hr, hok, hout⟩
  · rw [hr]
    refine ⟨h.goto rfl (Nat.two_pow_pos 63) nofun nofun, ?_⟩
    rw [Atomic.goto_stay (by rw [hstage, hout]; rfl)]
    exact Object.Moves.refl
  · rw [hr]
    refine ⟨h.goto rfl (Nat.two_pow_pos 63) ?_ ?_, ?_⟩
    · rintro f ⟨⟩
      exact Or.inr ⟨i, hfile⟩
    · rintro _ _ _ _ _ ⟨⟩
      exact hok
    · rw [Atomic.goto_stay (by rw [hstage, hout, stage_loop])]
      exact Object.Moves.refl

/-- A call of a write takes no file in hand, and takes effect at once if its path is too long. -/
theorem Inv.call_write (h : Inv path w) (hi : w.threads i = .idle) (hdata : data.length < 2 ^ 63) :
    Inv path (w.goto i (.write data (writeAll path))) ∧
    (register initial).Moves (w.toAtomic path) [.call i (.write data)]
      ((w.goto i (.write data (writeAll path))).toAtomic path) := by
  refine ⟨h.goto (writeAll_not_busy path) hdata nofun nofun, ?_⟩
  have hstage : (w.toAtomic path).stage i = .idle := by
    show (w.threads i).stage w.fs = _
    rw [hi]
    rfl
  have hcall := Object.Moves.call (O := register initial) hstage (.write data)
  rw [toAtomic_goto]
  by_cases hlong : path.length + (tmpSuffix.length + 1) > tmpCapacity
  · rw [writeAll, if_pos hlong]
    have hcalled : ((w.toAtomic path).goto i (.called (.write data))).stage i =
        .called (.write data) := Function.update_self ..
    have htake := Object.Moves.take (O := register initial) (r := .written .errInvalidArgument)
      (x := w.fs.content path) hcalled rfl
    have hboth := hcall.trans htake
    rwa [show (⟨w.fs.content path, _⟩ : Atomic ι _ _ _) = (w.toAtomic path).goto i
      (.done (.written .errInvalidArgument)) by
        simp only [Atomic.goto, Function.update_idem]; rfl] at hboth
  · rw [writeAll, if_neg hlong]
    exact hcall

theorem shared_step [Fintype ι] {e : SharedEvent ι} {w' : Shared ι} (h : Inv path w)
    (hg : w.TakesTurns path e) (hs : w.step path e = some w') :
    Inv path w' ∧
      (register initial).Moves (w.toAtomic path) (w.marks e) (w'.toAtomic path) := by
  cases e with
  | write i data =>
    rcases hi : w.threads i
    all_goals rw [step, hi] at hs
    case idle =>
      simp only at hs
      split_ifs at hs with hdata
      obtain rfl := Option.some.inj hs
      exact h.call_write hi hdata
    all_goals cases hs
  | read i a reads requests =>
    rcases hi : w.threads i
    all_goals rw [step, hi] at hs
    case idle =>
      obtain rfl := Option.some.inj hs
      refine ⟨h.goto rfl (Nat.two_pow_pos 63) nofun nofun, ?_⟩
      rw [toAtomic_goto]
      refine Object.Moves.call ?_ _
      show (w.threads i).stage w.fs = _
      rw [hi]
      rfl
    all_goals cases hs
  | act i a =>
    rcases hi : w.threads i
    all_goals rw [step, hi] at hs
    case write data pc =>
      obtain ⟨⟨fs', pc'⟩, hst, rfl⟩ := Option.map_eq_some_iff.mp hs
      have hw := h.act hi hg hst
      exact ⟨hw.inv, hw.moves hi (step_status hst).1⟩
    all_goals cases hs
  | fopen i ok =>
    rcases hi : w.threads i
    all_goals rw [step, hi] at hs
    case fopen a reads requests =>
      rcases hf : (if ok then w.fs.names path else none) with _ | file
      · simp only [hf] at hs
        obtain rfl := Option.some.inj hs
        exact ⟨h.goto rfl (Nat.two_pow_pos 63) nofun nofun,
          read_moves (by rw [hi]; rfl) rfl nofun fun _ => rfl⟩
      · simp only [hf] at hs
        obtain rfl := Option.some.inj hs
        have hname : w.fs.names path = some file := by
          split_ifs at hf
          exact hf
        refine ⟨h.goto rfl (Nat.two_pow_pos 63) ?_ ?_, fopen_moves h hi hname⟩
        · rintro f ⟨⟩
          exact Or.inl hname
        · rintro _ _ _ _ _ ⟨⟩
          exact readOk_start _ _ _
    all_goals cases hs
  | round i =>
    rcases hi : w.threads i
    all_goals rw [step, hi] at hs
    case loop a reads file st heap =>
      obtain rfl := Option.some.inj hs
      exact h.round hi
    all_goals cases hs
  | ret i =>
    -- what a thread returns is what its stage says
    have hret : ∀ {r}, (w.threads i).stage w.fs = .done r →
        (register initial).Moves (w.toAtomic path) [.ret i r] ((w.goto i .idle).toAtomic path) := by
      intro r hr
      rw [toAtomic_goto]
      exact Object.Moves.ret hr
    have hinv : Inv path (w.goto i .idle) := h.goto rfl (Nat.two_pow_pos 63) nofun nofun
    simp only [step] at hs
    simp only [marks]
    split at hs
    · rename_i data rc hi
      obtain rfl := Option.some.inj hs
      exact ⟨hinv, hret (by rw [hi]; rfl)⟩
    · rename_i rc out hi
      obtain rfl := Option.some.inj hs
      exact ⟨hinv, hret (by rw [hi]; rfl)⟩
    · cases hs

end Moves

omit [DecidableEq ι] in
theorem inv_start (fs₀ : FileSystem) (hlen : ∀ c, fs₀.content path = some c → c.length < 2 ^ 63) :
    Inv path (⟨fs₀, fun _ => .idle⟩ : Shared ι) where
  shown := by
    rintro f (hf | ⟨_, ⟨⟩⟩)
    replace hf : fs₀.names path = some f := hf
    exact ⟨hlen _ (FileSystem.content_of_name hf), fs₀.names_lt hf, fun _ => hf, fun _ => nofun⟩
  calls _ := trivial
  small _ := Nat.two_pow_pos 63
  alone := nofun
  loops _ := nofun

end Shared

variable {ι : Type} [DecidableEq ι] [Fintype ι] {path : Name} {fs₀ : FileSystem}

/-- **A path is an atomic register.** Threads read and write one path in any order and at the same
time, and the writes take turns with the temporary file.  Whatever fails and however reads are
split, the calls and returns that are seen are those of a register on which every operation takes
effect in one step between its call and its return: a write that succeeds replaces the contents, a
read that succeeds gives all of them, and nothing else changes them. -/
theorem file_atomic_register {es : List (SharedEvent ι)} {w : Shared ι}
    (hlen : ∀ c, fs₀.content path = some c → c.length < 2 ^ 63)
    (hr : ((shared ι path fs₀).guarded (Shared.TakesTurns path)).run ⟨fs₀, fun _ => .idle⟩ es =
      some w) :
    (register (fs₀.content path)).Explains
      (((shared ι path fs₀).guarded (Shared.TakesTurns path)).trace Shared.marks
        ⟨fs₀, fun _ => .idle⟩ es) (w.fs.content path) := by
  refine Object.explains_of_map (Q := Shared.Inv path) (f := Shared.toAtomic path) ?_
    (Shared.inv_start fs₀ hlen) rfl hr
  intro s e s' hI hs
  obtain ⟨hg, hs⟩ := System.guarded_step.mp hs
  exact Shared.shared_step hI hg hs

/-- A read that opened the file before a write replaced it, and goes on after the write returned. -/
def readAcrossWrite : List (SharedEvent Bool) :=
  [.read true chunkAllocator (fun _ => ⟨0, false⟩) 0, .fopen true true, .write false [1, 2],
    .act false (.ret true), .act false (.ret true), .round true, .act false (.write 2),
    .act false (.ret true), .act false (.ret true), .act false (.ret true), .act false (.ret true),
    .ret false, .round true, .ret true]

theorem file_atomic_register_read_across_write :
    ∃ w, ((shared Bool [0x66] oneFile).guarded (Shared.TakesTurns [0x66])).run
        ⟨oneFile, fun _ => .idle⟩ readAcrossWrite = some w ∧ w.fs.content [0x66] = some [1, 2] ∧
      (register (some [9])).Explains [.call true .read, .call false (.write [1, 2]),
        .ret false (.written .ok), .ret true (.read .ok (some [9]))] (some [1, 2]) := by
  obtain ⟨w, hr⟩ : ∃ w, ((shared Bool [0x66] oneFile).guarded (Shared.TakesTurns [0x66])).run
    ⟨oneFile, fun _ => .idle⟩ readAcrossWrite = some w := ⟨_, rfl⟩
  have hc : w.fs.content [0x66] = some [1, 2] := by
    obtain rfl := Option.some.inj hr
    rfl
  have hlen : ∀ c, oneFile.content [0x66] = some c → c.length < 2 ^ 63 := by
    rintro c ⟨⟩
    decide
  have hlin := file_atomic_register hlen hr
  rw [hc] at hlin
  exact ⟨w, hr, hc, hlin⟩

end File

end D4np
