import D4np.Lib.TransitionSystem
import Mathlib.Data.List.Basic
import Mathlib.Logic.Function.Basic
import Mathlib.Tactic

/-!
# The logger

Any number of threads call `d4np_log_set_output`, `d4np_log_set_min_level` and `d4np_log_write`.
Each call first goes through the one-time guard `log_ensure_init`: a fast path, a compare-exchange
whose winner runs the initialisation, and a loop in which the losers wait for it.  A step is one
access to a shared variable, one call of the mutex, or one byte that reaches a stream.

A run keeps the trace of what happened to the mutex, the stream and the level.  While the winner is
in its block, everybody else is before it or in the loop, so the trace is the block as far as it has
come; once it is over the trace only grows by uses (`OnceOk`).  Under the mutex one thread writes at
a time, and nobody changes the stream under it, so a stream holds whole records and what the thread
inside has written of its own (`Written`).
-/

namespace D4np

open TransitionSystem

/-- A `FILE *` that is not null. -/
abbrev Stream := ℕ

/-- `stderr`. -/
def stderr : Stream := 2

/-- `D4NP_LOG_INFO`. -/
def logInfo : ℤ := 0

/-- `level_name`. -/
def levelName (level : ℤ) : String :=
  if level = 0 then "INFO" else if level = 1 then "WARN" else if level = 2 then "ERROR" else "?"

/-- A record: when it was made, its level, and its body as `vfprintf` formats it. -/
structure Record where
  ts : ℕ
  level : ℤ
  body : List UInt8
  deriving DecidableEq

namespace Record

/-- The bytes of an ASCII text. -/
def ascii (cs : List Char) : List UInt8 := cs.map fun c => UInt8.ofNat c.toNat

/-- `"[%llu] %-5s "`. -/
def head (r : Record) : List UInt8 :=
  ascii (['['] ++ Nat.toDigits 10 r.ts ++ [']', ' '] ++
    (levelName r.level).toList ++ List.replicate (5 - (levelName r.level).length) ' ' ++ [' '])

/-- What the three output calls of `d4np_log_write` print. -/
def pieces (r : Record) : List (List UInt8) := [r.head, r.body, ascii ['\n']]

/-- The whole record: prefix, body and newline. -/
def text (r : Record) : List UInt8 := r.head ++ r.body ++ ascii ['\n']

theorem pieces_flatten (r : Record) : r.pieces.flatten = r.text := by
  simp [pieces, text]

end Record

/-- The functions of the logger; a null stream is `none`. -/
inductive LogCall
  | setOutput (stream : Option Stream)
  | setMinLevel (level : ℤ)
  | write (level : ℤ) (body : List UInt8)
  deriving DecidableEq

/-- `g_once`. -/
inductive Once
  | uninitialized
  | initializing
  | ready
  deriving DecidableEq, Repr

/-- Where a thread stands.  `piece r ps` is before an output call of the pieces `ps`, or before the
flush; `bytes r st rest ps` is inside one, with `rest` still to go to the stream `st`. -/
inductive LogPc
  | idle
  | fast (c : LogCall)
  | cas (c : LogCall)
  | initMutex (c : LogCall)
  | initStream (c : LogCall)
  | initLevel (c : LogCall)
  | initReady (c : LogCall)
  | spin (c : LogCall)
  | outLock (stream : Option Stream)
  | outSet (stream : Option Stream)
  | outUnlock
  | levelSet (level : ℤ)
  | check (level : ℤ) (body : List UInt8)
  | stamp (level : ℤ) (body : List UInt8)
  | writeLock (r : Record)
  | piece (r : Record) (ps : List (List UInt8))
  | bytes (r : Record) (st : Stream) (rest : List UInt8) (ps : List (List UInt8))
  | writeUnlock
  deriving DecidableEq

/-- What happens to the mutex, the stream and the level. -/
inductive LogEffect
  | mutexInit
  | streamDefault
  | levelDefault
  | ready
  | lock
  | setStream (st : Stream)
  | readStream
  | setLevel (level : ℤ)
  | readLevel
  deriving DecidableEq

/-- The static variables of `log.c`, the streams and the threads; the trace, newest first, and the
records that have been flushed, in order. -/
structure Log (ι : Type*) where
  once : Once
  minLevel : ℤ
  mutex : Option Bool
  holder : Option ι
  stream : Option Stream
  out : Stream → List UInt8
  pc : ι → LogPc
  trace : List LogEffect
  emitted : List (Stream × Record)

namespace Log

variable {ι : Type*} [DecidableEq ι]

/-- The call after `log_ensure_init`. -/
def enter : LogCall → LogPc
  | .setOutput stream => .outLock stream
  | .setMinLevel level => .levelSet level
  | .write level body => .check level body

/-- Thread `i` goes to `c`. -/
def goto (s : Log ι) (i : ι) (c : LogPc) : Log ι := { s with pc := Function.update s.pc i c }

/-- `d4np_mutex_lock`.  A mutex whose initialisation failed excludes nobody. -/
def lock (s : Log ι) (i : ι) (c : LogPc) : Option (Log ι) :=
  if s.mutex = some true then
    if s.holder = none then some { s.goto i c with holder := some i, trace := .lock :: s.trace }
    else none
  else some { s.goto i c with trace := .lock :: s.trace }

/-- `d4np_mutex_unlock`. -/
def unlock (s : Log ι) (i : ι) : Log ι := { s.goto i .idle with holder := none }

/-- The next step of thread `i`; `mutexOk` is the answer of `pthread_mutex_init`.  Output to a null
stream has no step. -/
def advance (mutexOk : Bool) (s : Log ι) (i : ι) : Option (Log ι) :=
  match s.pc i with
  | .idle | .stamp _ _ => none
  -- `log_ensure_init`
  | .fast c => some (s.goto i (if s.once = .ready then enter c else .cas c))
  | .cas c =>
    if s.once = .uninitialized then some { s.goto i (.initMutex c) with once := .initializing }
    else some (s.goto i (.spin c))
  | .initMutex c =>
    some { s.goto i (.initStream c) with mutex := some mutexOk, trace := .mutexInit :: s.trace }
  | .initStream c =>
    some { s.goto i (.initLevel c) with
      stream := some stderr, trace := .streamDefault :: s.trace }
  | .initLevel c =>
    some { s.goto i (.initReady c) with minLevel := logInfo, trace := .levelDefault :: s.trace }
  | .initReady c => some { s.goto i (enter c) with once := .ready, trace := .ready :: s.trace }
  | .spin c => if s.once = .ready then some (s.goto i (enter c)) else some s
  -- `d4np_log_set_output`
  | .outLock stream => s.lock i (.outSet stream)
  | .outSet stream =>
    some { s.goto i .outUnlock with
      stream := some (stream.getD stderr), trace := .setStream (stream.getD stderr) :: s.trace }
  | .outUnlock => some (s.unlock i)
  -- `d4np_log_set_min_level`
  | .levelSet level =>
    some { s.goto i .idle with minLevel := level, trace := .setLevel level :: s.trace }
  -- `d4np_log_write`
  | .check level body =>
    some { s.goto i (if level < s.minLevel then .idle else .stamp level body) with
      trace := .readLevel :: s.trace }
  | .writeLock r => s.lock i (.piece r r.pieces)
  | .piece r (p :: ps) =>
    s.stream.map fun st =>
      { s.goto i (.bytes r st p ps) with trace := .readStream :: s.trace }
  | .bytes r st (b :: rest) ps =>
    some { s.goto i (.bytes r st rest ps) with out := Function.update s.out st (s.out st ++ [b]) }
  | .bytes r _ [] ps => some (s.goto i (.piece r ps))
  | .piece r [] =>
    s.stream.map fun st =>
      { s.goto i .writeUnlock with
        trace := .readStream :: s.trace, emitted := s.emitted ++ [(st, r)] }
  | .writeUnlock => some (s.unlock i)

/-- A thread calls a function, takes its next step, or reads the clock. -/
inductive Event (ι : Type*)
  | call (i : ι) (c : LogCall)
  | run (i : ι)
  | stamp (i : ι) (ts : ℕ)

/-- One step. -/
def step (mutexOk : Bool) (s : Log ι) : Event ι → Option (Log ι)
  | .call i c => if s.pc i = .idle then some (s.goto i (.fast c)) else none
  | .run i => s.advance mutexOk i
  | .stamp i ts =>
    match s.pc i with
    | .stamp level body => some (s.goto i (.writeLock ⟨ts, level, body⟩))
    | _ => none

/-- The threads of a program before its first log call; the streams hold `base`. -/
def system (ι : Type*) [DecidableEq ι] (mutexOk : Bool) (base : Stream → List UInt8) :
    System (Log ι) (Event ι) where
  init s := s = ⟨.uninitialized, 0, none, none, none, base, fun _ => .idle, [], []⟩
  step := step mutexOk

/-! ## The one-time guard -/

/-- Where a thread stands with respect to the initialisation; `initing k` is in the block, after `k`
of its effects. -/
inductive Phase
  | before
  | initing (k : ℕ)
  | spinning
  | after
  deriving DecidableEq

/-- The phase of a thread. -/
def phase : LogPc → Phase
  | .idle | .fast _ | .cas _ => .before
  | .initMutex _ => .initing 0
  | .initStream _ => .initing 1
  | .initLevel _ => .initing 2
  | .initReady _ => .initing 3
  | .spin _ => .spinning
  | _ => .after

/-- A function of `log.c`. -/
inductive LogFunction
  | ensureInit
  | setOutput
  | setMinLevel
  | write

/-- The function a thread is in. -/
def within : LogPc → Option LogFunction
  | .idle => none
  | .fast _ | .cas _ | .initMutex _ | .initStream _ | .initLevel _ | .initReady _ | .spin _ =>
    some .ensureInit
  | .outLock _ | .outSet _ | .outUnlock => some .setOutput
  | .levelSet _ => some .setMinLevel
  | .check _ _ | .stamp _ _ | .writeLock _ | .piece _ _ | .bytes _ _ _ _ | .writeUnlock =>
    some .write

/-- The initialisation block, in its order. -/
def initBlock : List LogEffect := [.mutexInit, .streamDefault, .levelDefault, .ready]

/-- An access to the mutex, the stream or the level outside the initialisation. -/
def IsUse : LogEffect → Prop
  | .mutexInit | .streamDefault | .levelDefault | .ready => False
  | _ => True

/-- The level last set, or the default. -/
def configuredLevel : List LogEffect → ℤ
  | [] => logInfo
  | .setLevel level :: _ => level
  | _ :: es => configuredLevel es

/-- The stream last set, or the default. -/
def configuredStream : List LogEffect → Stream
  | [] => stderr
  | .setStream st :: _ => st
  | _ :: es => configuredStream es

/-- The block has come to its effect number `k`. -/
structure InBlock (mutexOk : Bool) (s : Log ι) (k : ℕ) : Prop where
  trace : s.trace = (initBlock.take k).reverse
  mutex : 1 ≤ k → s.mutex = some mutexOk
  stream : 2 ≤ k → s.stream = some stderr
  level : 3 ≤ k → s.minLevel = logInfo

/-- The block is over, and `uses` have followed it. -/
structure AfterBlock (mutexOk : Bool) (s : Log ι) (uses : List LogEffect) : Prop where
  trace : s.trace = uses ++ initBlock.reverse
  isUse : ∀ u ∈ uses, IsUse u
  mutex : s.mutex = some mutexOk
  stream : s.stream = some (configuredStream uses)
  level : s.minLevel = configuredLevel uses

/-- The guard: what has happened, and where the threads may be. -/
def OnceOk (mutexOk : Bool) (s : Log ι) : Prop :=
  match s.once with
  | .uninitialized => InBlock mutexOk s 0 ∧ ∀ j, phase (s.pc j) = .before
  | .initializing => ∃ i k, phase (s.pc i) = .initing k ∧ InBlock mutexOk s k ∧
      ∀ j, j ≠ i → phase (s.pc j) = .before ∨ phase (s.pc j) = .spinning
  | .ready => (∃ uses, AfterBlock mutexOk s uses) ∧ ∀ j k, phase (s.pc j) ≠ .initing k

variable {mutexOk : Bool} {s t : Log ι} {i : ι}

theorem phase_enter (c : LogCall) : phase (enter c) = .after := by
  cases c <;> rfl

/-- A thread that is in no function has no step of its own. -/
theorem advance_of_within_none (h : within (s.pc i) = none) : s.advance mutexOk i = none := by
  unfold Log.advance
  cases hpc : s.pc i with
  | idle | stamp => rfl
  | _ =>
    rw [hpc] at h
    cases h

/-- Facts about all threads after one of them has moved. -/
theorem forall_goto {P : ι → LogPc → Prop} {c : LogPc} (hi : P i c)
    (hj : ∀ j, j ≠ i → P j (s.pc j)) : ∀ j, P j (Function.update s.pc i c j) := by
  intro j
  by_cases hji : j = i
  · subst hji
    rwa [Function.update_self]
  · rw [Function.update_of_ne hji]
    exact hj j hji

omit [DecidableEq ι] in
/-- A thread past the guard has seen the end of the block. -/
theorem OnceOk.ready (h : OnceOk mutexOk s) (hi : phase (s.pc i) = .after) : s.once = .ready := by
  unfold OnceOk at h
  rcases ho : s.once with _ | _ | _
  · rw [ho] at h
    have := h.2 i
    rw [hi] at this
    cases this
  · rw [ho] at h
    obtain ⟨j, k, hj, _, hother⟩ := h
    by_cases hij : i = j
    · rw [hij, hj] at hi
      cases hi
    · rcases hother i hij with he | he <;> rw [hi] at he <;> cases he
  · rfl

omit [DecidableEq ι] in
theorem onceOk_ready (ho : s.once = .ready) : OnceOk mutexOk s ↔
    (∃ uses, AfterBlock mutexOk s uses) ∧ ∀ j k, phase (s.pc j) ≠ .initing k := by
  unfold OnceOk
  rw [ho]

/-- A step after the block: the trace grows by uses, and the settings follow it. -/
theorem OnceOk.use (h : OnceOk mutexOk s) (ho : s.once = .ready) {c : LogPc} {t : Log ι}
    (hpc : t.pc = Function.update s.pc i c) (hc : ∀ k, phase c ≠ .initing k)
    (honce : t.once = s.once) (hmutex : t.mutex = s.mutex) {e : List LogEffect}
    (htrace : t.trace = e ++ s.trace) (he : ∀ u ∈ e, IsUse u)
    (hstream : ∀ uses, s.stream = some (configuredStream uses) →
      t.stream = some (configuredStream (e ++ uses)))
    (hlevel : ∀ uses, s.minLevel = configuredLevel uses →
      t.minLevel = configuredLevel (e ++ uses)) : OnceOk mutexOk t := by
  obtain ⟨⟨uses, ha⟩, hno⟩ := (onceOk_ready ho).mp h
  refine (onceOk_ready (honce.trans ho)).mpr ⟨⟨e ++ uses, ?_, ?_, ?_, ?_, ?_⟩, ?_⟩
  · rw [htrace, ha.trace, List.append_assoc]
  · intro u hu
    rcases List.mem_append.mp hu with hu | hu
    · exact he u hu
    · exact ha.isUse u hu
  · rw [hmutex, ha.mutex]
  · exact hstream uses ha.stream
  · exact hlevel uses ha.level
  · rw [hpc]
    exact forall_goto (P := fun _ c => ∀ k, phase c ≠ .initing k) hc fun j _ => hno j

/-- A step that touches neither the settings nor the trace. -/
theorem OnceOk.goto (h : OnceOk mutexOk s) (ho : s.once = .ready) {c : LogPc} {t : Log ι}
    (hpc : t.pc = Function.update s.pc i c) (hc : ∀ k, phase c ≠ .initing k)
    (honce : t.once = s.once) (hmutex : t.mutex = s.mutex) (htrace : t.trace = s.trace)
    (hstream : t.stream = s.stream) (hlevel : t.minLevel = s.minLevel) : OnceOk mutexOk t :=
  h.use ho hpc hc honce hmutex (e := []) htrace nofun (fun _ hs => hstream.trans hs)
    fun _ hl => hlevel.trans hl

omit [DecidableEq ι] in
/-- A thread in the block is the only one there. -/
theorem OnceOk.initing (h : OnceOk mutexOk s) {k : ℕ} (hi : phase (s.pc i) = .initing k) :
    s.once = .initializing ∧ InBlock mutexOk s k ∧
      ∀ j, j ≠ i → phase (s.pc j) = .before ∨ phase (s.pc j) = .spinning := by
  unfold OnceOk at h
  rcases ho : s.once with _ | _ | _
  · rw [ho] at h
    have := h.2 i
    rw [hi] at this
    cases this
  · rw [ho] at h
    obtain ⟨j, l, hj, hb, hother⟩ := h
    by_cases hij : i = j
    · subst hij
      rw [hi] at hj
      cases hj
      exact ⟨rfl, hb, hother⟩
    · rcases hother i hij with he | he <;> rw [hi] at he <;> cases he
  · rw [ho] at h
    exact absurd hi (h.2 i k)

/-- A move of a thread that is not past the guard, while the block is not over. -/
theorem OnceOk.wait (h : OnceOk mutexOk s) (ho : s.once ≠ .ready)
    (hi : phase (s.pc i) = .before ∨ phase (s.pc i) = .spinning) {c : LogPc}
    (hc : phase c = .before ∨ (s.once ≠ .uninitialized ∧ phase c = .spinning)) :
    OnceOk mutexOk (s.goto i c) := by
  unfold OnceOk at h ⊢
  show match s.once with
    | .uninitialized => _
    | .initializing => _
    | .ready => _
  rcases hs : s.once with _ | _ | _
  · rw [hs] at h hc
    refine ⟨⟨h.1.trace, nofun, nofun, nofun⟩, ?_⟩
    refine forall_goto (P := fun _ c => phase c = .before) ?_ fun j _ => h.2 j
    exact hc.resolve_right fun hh => hh.1 rfl
  · rw [hs] at h hc
    obtain ⟨j, k, hj, hb, hother⟩ := h
    have hij : j ≠ i := by
      rintro rfl
      rw [hj] at hi
      rcases hi with hi | hi <;> cases hi
    refine ⟨j, k, ?_, ⟨hb.trace, hb.mutex, hb.stream, hb.level⟩, ?_⟩
    · show phase (Function.update s.pc i c j) = _
      rw [Function.update_of_ne hij]
      exact hj
    · refine forall_goto (P := fun l c => l ≠ j → phase c = .before ∨ phase c = .spinning)
        (fun _ => ?_) fun l _ => hother l
      rcases hc with hc | ⟨_, hc⟩
      · exact Or.inl hc
      · exact Or.inr hc
  · exact absurd hs ho

/-- The winner of the compare-exchange starts the block. -/
theorem OnceOk.start (h : OnceOk mutexOk s) (ho : s.once = .uninitialized) (c : LogCall) :
    OnceOk mutexOk { s.goto i (.initMutex c) with once := .initializing } := by
  unfold OnceOk at h
  rw [ho] at h
  refine ⟨i, 0, ?_, ⟨h.1.trace, nofun, nofun, nofun⟩, fun j hj => Or.inl ?_⟩
  · show phase (Function.update s.pc i (.initMutex c) i) = _
    rw [Function.update_self]
    rfl
  · show phase (Function.update s.pc i (.initMutex c) j) = _
    rw [Function.update_of_ne hj]
    exact h.2 j

/-- The next effect of the block. -/
theorem OnceOk.next (h : OnceOk mutexOk s) {k : ℕ} (hi : phase (s.pc i) = .initing k) {c : LogPc}
    {t : Log ι} (hc : phase c = .initing (k + 1)) (hpc : t.pc = Function.update s.pc i c)
    (honce : t.once = s.once) (hb : InBlock mutexOk t (k + 1)) : OnceOk mutexOk t := by
  obtain ⟨ho, _, hother⟩ := h.initing hi
  unfold OnceOk
  rw [honce, ho]
  refine ⟨i, k + 1, ?_, hb, fun j hj => ?_⟩
  · rw [hpc, Function.update_self]
    exact hc
  · rw [hpc, Function.update_of_ne hj]
    exact hother j hj

/-- The block ends. -/
theorem OnceOk.finish (h : OnceOk mutexOk s) (hi : phase (s.pc i) = .initing 3) (c : LogCall) :
    OnceOk mutexOk { s.goto i (enter c) with once := .ready, trace := .ready :: s.trace } := by
  obtain ⟨_, hb, hother⟩ := h.initing hi
  refine (onceOk_ready rfl).mpr ⟨⟨[], ?_, nofun, hb.mutex (by norm_num), hb.stream (by norm_num),
    hb.level (by norm_num)⟩, ?_⟩
  · show LogEffect.ready :: s.trace = _
    rw [hb.trace]
    rfl
  · refine forall_goto (P := fun _ c => ∀ k, phase c ≠ .initing k) ?_ ?_
    · intro k
      rw [phase_enter]
      nofun
    · intro j hj k
      rcases hother j hj with he | he <;> rw [he] <;> nofun

theorem OnceOk.lock (h : OnceOk mutexOk s) (hi : phase (s.pc i) = .after) {c : LogPc}
    (hc : phase c = .after) (ht : s.lock i c = some t) : OnceOk mutexOk t := by
  have hc' : ∀ k, phase c ≠ .initing k := by
    intro k
    rw [hc]
    nofun
  unfold Log.lock at ht
  split_ifs at ht
  · cases ht
    exact h.use (h.ready hi) rfl hc' rfl rfl (e := [.lock]) rfl (by simp [IsUse])
      (fun _ hs => hs) (fun _ hl => hl)
  · cases ht
    exact h.use (h.ready hi) rfl hc' rfl rfl (e := [.lock]) rfl (by simp [IsUse])
      (fun _ hs => hs) (fun _ hl => hl)

omit [DecidableEq ι] in
/-- The next effect of the block. -/
theorem InBlock.trace_cons {k : ℕ} {e : LogEffect} (hb : InBlock mutexOk s k)
    (he : initBlock[k]? = some e) : e :: s.trace = (initBlock.take (k + 1)).reverse := by
  rw [hb.trace, List.take_add_one, he]
  simp

/-- The guard over `log_ensure_init`. -/
theorem OnceOk.ensureInit (h : OnceOk mutexOk s) (hin : within (s.pc i) = some .ensureInit)
    (ht : s.advance mutexOk i = some t) : OnceOk mutexOk t := by
  have henter : ∀ (c : LogCall) k, phase (enter c) ≠ .initing k := by
    intro c k
    rw [phase_enter]
    nofun
  unfold Log.advance at ht
  cases hpc : s.pc i with
  | fast c =>
    rw [hpc] at ht
    cases ht
    by_cases ho : s.once = .ready
    · rw [if_pos ho]
      exact h.goto ho rfl (henter c) rfl rfl rfl rfl rfl
    · rw [if_neg ho]
      exact h.wait ho (Or.inl (by rw [hpc]; rfl)) (Or.inl rfl)
  | cas c =>
    rw [hpc] at ht
    simp only at ht
    split_ifs at ht with ho
    · cases ht
      exact h.start ho c
    · cases ht
      by_cases hr : s.once = .ready
      · exact h.goto hr rfl nofun rfl rfl rfl rfl rfl
      · exact h.wait hr (Or.inl (by rw [hpc]; rfl)) (Or.inr ⟨ho, rfl⟩)
  | initMutex c =>
    rw [hpc] at ht
    cases ht
    have hi : phase (s.pc i) = .initing 0 := by rw [hpc]; rfl
    have hb := (h.initing hi).2.1
    exact h.next hi rfl rfl rfl ⟨hb.trace_cons rfl, fun _ => rfl, nofun, nofun⟩
  | initStream c =>
    rw [hpc] at ht
    cases ht
    have hi : phase (s.pc i) = .initing 1 := by rw [hpc]; rfl
    have hb := (h.initing hi).2.1
    exact h.next hi rfl rfl rfl
      ⟨hb.trace_cons rfl, fun _ => hb.mutex (le_refl 1), fun _ => rfl, nofun⟩
  | initLevel c =>
    rw [hpc] at ht
    cases ht
    have hi : phase (s.pc i) = .initing 2 := by rw [hpc]; rfl
    have hb := (h.initing hi).2.1
    exact h.next hi rfl rfl rfl
      ⟨hb.trace_cons rfl, fun _ => hb.mutex (by norm_num), fun _ => hb.stream (le_refl 2),
        fun _ => rfl⟩
  | initReady c =>
    rw [hpc] at ht
    cases ht
    exact h.finish (by rw [hpc]; rfl) c
  | spin c =>
    rw [hpc] at ht
    simp only at ht
    split_ifs at ht with ho
    · cases ht
      exact h.goto ho rfl (henter c) rfl rfl rfl rfl rfl
    · cases ht
      exact h
  | _ =>
    rw [hpc] at hin
    cases hin

/-- The guard over `d4np_log_set_output`. -/
theorem OnceOk.setOutput (h : OnceOk mutexOk s) (hin : within (s.pc i) = some .setOutput)
    (ht : s.advance mutexOk i = some t) : OnceOk mutexOk t := by
  unfold Log.advance at ht
  cases hpc : s.pc i with
  | outLock stream =>
    rw [hpc] at ht
    exact h.lock (by rw [hpc]; rfl) rfl ht
  | outSet stream =>
    rw [hpc] at ht
    cases ht
    exact h.use (h.ready (by rw [hpc]; rfl)) rfl nofun rfl rfl
      (e := [.setStream (stream.getD stderr)]) rfl (by simp [IsUse]) (fun _ _ => rfl) fun _ hl => hl
  | outUnlock =>
    rw [hpc] at ht
    cases ht
    exact h.goto (h.ready (by rw [hpc]; rfl)) rfl nofun rfl rfl rfl rfl rfl
  | _ =>
    rw [hpc] at hin
    cases hin

/-- The guard over `d4np_log_set_min_level`. -/
theorem OnceOk.setMinLevel (h : OnceOk mutexOk s) (hin : within (s.pc i) = some .setMinLevel)
    (ht : s.advance mutexOk i = some t) : OnceOk mutexOk t := by
  unfold Log.advance at ht
  cases hpc : s.pc i with
  | levelSet level =>
    rw [hpc] at ht
    cases ht
    exact h.use (h.ready (by rw [hpc]; rfl)) rfl nofun rfl rfl (e := [.setLevel level]) rfl
      (by simp [IsUse]) (fun _ hs => hs) fun _ _ => rfl
  | _ =>
    rw [hpc] at hin
    cases hin

/-- The guard over `d4np_log_write`. -/
theorem OnceOk.write (h : OnceOk mutexOk s) (hin : within (s.pc i) = some .write)
    (ht : s.advance mutexOk i = some t) : OnceOk mutexOk t := by
  unfold Log.advance at ht
  cases hpc : s.pc i with
  | check level body =>
    rw [hpc] at ht
    cases ht
    refine h.use (h.ready (by rw [hpc]; rfl)) rfl ?_ rfl rfl (e := [.readLevel]) rfl
      (by simp [IsUse]) (fun _ hs => hs) fun _ hl => hl
    intro k
    split_ifs <;> nofun
  | stamp level body =>
    rw [hpc] at ht
    cases ht
  | writeLock r =>
    rw [hpc] at ht
    exact h.lock (by rw [hpc]; rfl) rfl ht
  | piece r ps =>
    rw [hpc] at ht
    have ho := h.ready (i := i) (by rw [hpc]; rfl)
    cases ps with
    | nil =>
      obtain ⟨st, _, rfl⟩ := Option.map_eq_some_iff.mp ht
      exact h.use ho rfl nofun rfl rfl (e := [.readStream]) rfl (by simp [IsUse])
        (fun _ hs => hs) fun _ hl => hl
    | cons p ps =>
      obtain ⟨st, _, rfl⟩ := Option.map_eq_some_iff.mp ht
      exact h.use ho rfl nofun rfl rfl (e := [.readStream]) rfl (by simp [IsUse])
        (fun _ hs => hs) fun _ hl => hl
  | bytes r st rest ps =>
    rw [hpc] at ht
    have ho := h.ready (i := i) (by rw [hpc]; rfl)
    cases rest with
    | nil =>
      cases ht
      exact h.goto ho rfl nofun rfl rfl rfl rfl rfl
    | cons b rest =>
      cases ht
      exact h.goto ho rfl nofun rfl rfl rfl rfl rfl
  | writeUnlock =>
    rw [hpc] at ht
    cases ht
    exact h.goto (h.ready (by rw [hpc]; rfl)) rfl nofun rfl rfl rfl rfl rfl
  | _ =>
    rw [hpc] at hin
    cases hin

/-- **The guard over a step.** -/
theorem OnceOk.advance (h : OnceOk mutexOk s) (ht : s.advance mutexOk i = some t) :
    OnceOk mutexOk t := by
  cases hin : within (s.pc i) with
  | none =>
    rw [advance_of_within_none hin] at ht
    cases ht
  | some f =>
    cases f with
    | ensureInit => exact h.ensureInit hin ht
    | setOutput => exact h.setOutput hin ht
    | setMinLevel => exact h.setMinLevel hin ht
    | write => exact h.write hin ht

theorem OnceOk.step (h : OnceOk mutexOk s) {e : Event ι} (ht : s.step mutexOk e = some t) :
    OnceOk mutexOk t := by
  cases e with
  | call i c =>
    simp only [Log.step] at ht
    split_ifs at ht with hi
    cases ht
    by_cases ho : s.once = .ready
    · exact h.goto ho rfl nofun rfl rfl rfl rfl rfl
    · exact h.wait ho (Or.inl (by rw [hi]; rfl)) (Or.inl rfl)
  | run i => exact h.advance ht
  | stamp i ts =>
    simp only [Log.step] at ht
    split at ht
    · rename_i hpc
      cases ht
      exact h.goto (h.ready (by rw [hpc]; rfl)) rfl nofun rfl rfl rfl rfl rfl
    · cases ht

theorem reachable_onceOk {base : Stream → List UInt8}
    (h : Reachable (system ι mutexOk base) s) : OnceOk mutexOk s := by
  refine h.induct (P := OnceOk mutexOk) ?_ ?_
  · rintro s rfl
    exact ⟨⟨rfl, nofun, nofun, nofun⟩, fun _ => rfl⟩
  · intro s e t hs hst
    exact hs.step hst

/-! ## Whole records -/

/-- The thread is between its lock and its unlock. -/
def inside : LogPc → Bool
  | .outSet _ | .outUnlock | .piece _ _ | .bytes _ _ _ _ | .writeUnlock => true
  | _ => false

/-- The record a thread is writing, and what is left of it. -/
def remaining : LogPc → Option (Record × List UInt8)
  | .piece r ps => some (r, ps.flatten)
  | .bytes r _ rest ps => some (r, rest ++ ps.flatten)
  | _ => none

/-- The stream of the output call a thread is in. -/
def target : LogPc → Option Stream
  | .bytes _ st _ _ => some st
  | _ => none

/-- The records flushed to a stream. -/
def texts (st : Stream) (es : List (Stream × Record)) : List UInt8 :=
  (es.filter fun e => e.1 = st).flatMap fun e => e.2.text

theorem inside_of_remaining {c : LogPc} {x : Record × List UInt8} (h : remaining c = some x) :
    inside c = true := by
  cases c <;> first | rfl | cases h

theorem remaining_of_outside {c : LogPc} (h : inside c = false) : remaining c = none := by
  cases c <;> first | rfl | cases h

theorem inside_enter (c : LogCall) : inside (enter c) = false := by
  cases c <;> rfl

theorem target_of_remaining {c : LogPc} (h : remaining c = none) : target c = none := by
  cases c <;> first | rfl | cases h

theorem remaining_of_phase {c : LogPc} (h : phase c ≠ .after) : remaining c = none := by
  cases c <;> first | rfl | exact absurd rfl h

/-- The streams hold whole records, and the current one `done`, which one thread is writing. -/
structure Written (base : Stream → List UInt8) (s : Log ι) (done : List UInt8) : Prop where
  mutex : ∀ j, inside (s.pc j) = true ↔ s.holder = some j
  out_eq : ∀ st, s.out st =
    base st ++ texts st s.emitted ++ if s.stream = some st then done else []
  current : ∀ j r rest, remaining (s.pc j) = some (r, rest) → done ++ rest = r.text
  silent : (∀ j, remaining (s.pc j) = none) → done = []
  target_eq : ∀ j st, target (s.pc j) = some st → s.stream = some st

section Records

variable {base : Stream → List UInt8} {done : List UInt8}

omit [DecidableEq ι] in
/-- A thread that does not hold the mutex writes nothing. -/
theorem Written.remaining_eq_none (h : Written base s done) {j : ι} (hj : s.holder ≠ some j) :
    remaining (s.pc j) = none := by
  by_contra hne
  obtain ⟨x, hx⟩ := Option.ne_none_iff_exists'.mp hne
  exact hj ((h.mutex j).mp (inside_of_remaining hx))

omit [DecidableEq ι] in
/-- Only the thread that holds the mutex writes. -/
theorem Written.remaining_other (h : Written base s done) (hheld : s.holder = some i) {j : ι}
    (hj : j ≠ i) : remaining (s.pc j) = none := by
  apply h.remaining_eq_none
  rw [hheld]
  simp [Ne.symm hj]

omit [DecidableEq ι] in
/-- While a thread that writes nothing is inside, nobody writes. -/
theorem Written.done_eq_nil (h : Written base s done) (hi : inside (s.pc i) = true)
    (hr : remaining (s.pc i) = none) : done = [] := by
  apply h.silent
  intro j
  by_cases hj : j = i
  · rw [hj, hr]
  · exact h.remaining_other ((h.mutex i).mp hi) hj

/-- A thread that moves on its side of the lock leaves the mutex as it is. -/
theorem Written.mutex_goto (h : Written base s done) {c : LogPc}
    (hpc : t.pc = Function.update s.pc i c) (hin : inside c = inside (s.pc i))
    (hholder : t.holder = s.holder) : ∀ j, inside (t.pc j) = true ↔ t.holder = some j := by
  rw [hpc, hholder]
  refine forall_goto (P := fun j c => inside c = true ↔ s.holder = some j) ?_ fun j _ => h.mutex j
  rw [hin]
  exact h.mutex i

/-- A thread moves and takes its unwritten text with it. -/
theorem Written.move (h : Written base s done) {c : LogPc} (hpc : t.pc = Function.update s.pc i c)
    (hin : inside c = inside (s.pc i)) (hrem : remaining c = remaining (s.pc i))
    (htarget : ∀ st, target c = some st → s.stream = some st) (hholder : t.holder = s.holder)
    (hout : t.out = s.out) (hemitted : t.emitted = s.emitted) (hstream : t.stream = s.stream) :
    Written base t done where
  mutex := h.mutex_goto hpc hin hholder
  out_eq := by
    rw [hout, hemitted, hstream]
    exact h.out_eq
  current := by
    rw [hpc]
    refine forall_goto (P := fun _ c => ∀ r rest, remaining c = some (r, rest) →
      done ++ rest = r.text) ?_ fun j _ => h.current j
    rw [hrem]
    exact h.current i
  silent := by
    intro hall
    apply h.silent
    rw [hpc] at hall
    intro j
    by_cases hj : j = i
    · have := hall i
      rw [Function.update_self, hrem] at this
      rw [hj, this]
    · have := hall j
      rwa [Function.update_of_ne hj] at this
  target_eq := by
    rw [hpc, hstream]
    exact forall_goto (P := fun _ c => ∀ st, target c = some st → s.stream = some st) htarget
      fun j _ => h.target_eq j

/-- A thread moves outside the lock. -/
theorem Written.move_outside (h : Written base s done) {c : LogPc}
    (hpc : t.pc = Function.update s.pc i c) (hi : inside (s.pc i) = false) (hc : inside c = false)
    (hholder : t.holder = s.holder) (hout : t.out = s.out) (hemitted : t.emitted = s.emitted)
    (hstream : t.stream = s.stream) : Written base t done := by
  have hrem := remaining_of_outside hc
  refine h.move hpc (hc.trans hi.symm) (hrem.trans (remaining_of_outside hi).symm) ?_ hholder hout
    hemitted hstream
  rw [target_of_remaining hrem]
  nofun

/-- A lock that is free: nobody is inside, and nobody writes. -/
theorem Written.lock (h : Written base s done) (hm : s.mutex = some true) {c : LogPc}
    (ht : s.lock i c = some t) (hc : inside c = true) (htarget : target c = none)
    (hrem : ∀ r rest, remaining c = some (r, rest) → rest = r.text) : Written base t [] := by
  unfold Log.lock at ht
  rw [if_pos hm] at ht
  split_ifs at ht with hfree
  cases ht
  have hnone : ∀ j, inside (s.pc j) = false := by
    intro j
    rw [← Bool.not_eq_true, h.mutex j, hfree]
    nofun
  have hrest : ∀ j, remaining (s.pc j) = none := by
    intro j
    apply h.remaining_eq_none
    rw [hfree]
    nofun
  have hdone := h.silent hrest
  subst hdone
  refine ⟨?_, h.out_eq, ?_, fun _ => rfl, ?_⟩
  · refine forall_goto (P := fun j c => inside c = true ↔ some i = some j) (iff_of_true hc rfl) ?_
    intro j hj
    rw [hnone j]
    simp [Ne.symm hj]
  · refine forall_goto (P := fun _ c => ∀ r rest, remaining c = some (r, rest) → [] ++ rest = r.text)
      hrem ?_
    intro j _ r rest hr
    rw [hrest j] at hr
    cases hr
  · refine forall_goto (P := fun _ c => ∀ st, target c = some st → s.stream = some st) ?_
      fun j _ => h.target_eq j
    intro st hst
    rw [htarget] at hst
    cases hst

theorem Written.unlock (h : Written base s done) (hi : inside (s.pc i) = true)
    (hr : remaining (s.pc i) = none) : Written base (s.unlock i) done := by
  have hheld := (h.mutex i).mp hi
  have hother : ∀ j, j ≠ i → inside (s.pc j) = false := by
    intro j hj
    rw [← Bool.not_eq_true, h.mutex j, hheld]
    simp [Ne.symm hj]
  refine ⟨?_, h.out_eq, ?_, fun _ => h.done_eq_nil hi hr, ?_⟩
  · refine forall_goto (P := fun j c => inside c = true ↔ none = some j) (by simp [inside]) ?_
    intro j hj
    rw [hother j hj]
    simp
  · exact forall_goto (P := fun _ c => ∀ r rest, remaining c = some (r, rest) →
      done ++ rest = r.text) nofun fun j _ => h.current j
  · exact forall_goto (P := fun _ c => ∀ st, target c = some st → s.stream = some st) nofun
      fun j _ => h.target_eq j

/-- The stream changes while nobody writes. -/
theorem Written.setStream (h : Written base s done) {c : LogPc}
    (hpc : t.pc = Function.update s.pc i c) (hin : inside c = inside (s.pc i))
    (hall : ∀ j, remaining (s.pc j) = none) (hrem : remaining c = none) (hholder : t.holder = s.holder)
    (hout : t.out = s.out) (hemitted : t.emitted = s.emitted) : Written base t [] where
  mutex := h.mutex_goto hpc hin hholder
  out_eq := by
    have hdone := h.silent hall
    intro st
    have := h.out_eq st
    rw [hout, hemitted, this, hdone, ite_self, ite_self]
  current := by
    rw [hpc]
    refine forall_goto (P := fun _ c => ∀ r rest, remaining c = some (r, rest) →
      [] ++ rest = r.text) ?_ ?_
    · rw [hrem]
      nofun
    · intro j _
      rw [hall j]
      nofun
  silent := fun _ => rfl
  target_eq := by
    rw [hpc]
    refine forall_goto (P := fun _ c => ∀ st, target c = some st → t.stream = some st) ?_ ?_
    · rw [target_of_remaining hrem]
      nofun
    · intro j _
      rw [target_of_remaining (hall j)]
      nofun

/-- A byte reaches the stream. -/
theorem Written.byte (h : Written base s done) {r : Record} {st : Stream} {b : UInt8}
    {rest : List UInt8} {ps : List (List UInt8)} (hpc : s.pc i = .bytes r st (b :: rest) ps) :
    Written base { s.goto i (.bytes r st rest ps) with
      out := Function.update s.out st (s.out st ++ [b]) } (done ++ [b]) where
  mutex := by
    refine forall_goto (P := fun j c => inside c = true ↔ s.holder = some j) ?_ fun j _ => h.mutex j
    have := h.mutex i
    rw [hpc] at this
    exact this
  out_eq := by
    have hst : s.stream = some st := h.target_eq i st (by rw [hpc]; rfl)
    intro st'
    show Function.update s.out st (s.out st ++ [b]) st' =
      base st' ++ texts st' s.emitted ++ if s.stream = some st' then done ++ [b] else []
    have hout := h.out_eq st'
    by_cases hs : st' = st
    · subst hs
      rw [if_pos hst] at hout
      rw [Function.update_self, if_pos hst, hout, List.append_assoc]
    · have hne : ¬ s.stream = some st' := by
        rw [hst, Option.some_inj]
        exact fun he => hs he.symm
      rw [if_neg hne] at hout
      rw [Function.update_of_ne hs, if_neg hne, hout]
  current := by
    have hi := h.current i r (b :: rest ++ ps.flatten) (by rw [hpc]; rfl)
    refine forall_goto (P := fun _ c => ∀ r rest, remaining c = some (r, rest) →
      done ++ [b] ++ rest = r.text) ?_ ?_
    · intro r' rest' hr
      cases hr
      simpa using hi
    · intro j hj r' rest' hr
      have hheld : s.holder = some i := (h.mutex i).mp (by rw [hpc]; rfl)
      rw [h.remaining_other hheld hj] at hr
      cases hr
  silent := by
    intro hall
    have : remaining (Function.update s.pc i (.bytes r st rest ps) i) = none := hall i
    rw [Function.update_self] at this
    cases this
  target_eq := by
    refine forall_goto (P := fun _ c => ∀ st, target c = some st → s.stream = some st) ?_
      fun j _ => h.target_eq j
    intro st' hst
    exact h.target_eq i st' (by rw [hpc]; exact hst)

omit [DecidableEq ι] in
theorem texts_append (st : Stream) (es : List (Stream × Record)) (e : Stream × Record) :
    texts st (es ++ [e]) = texts st es ++ if e.1 = st then e.2.text else [] := by
  unfold texts
  by_cases he : e.1 = st
  · simp [he]
  · simp [he]

/-- The record is flushed. -/
theorem Written.flush (h : Written base s done) {r : Record} {st : Stream}
    (hpc : s.pc i = .piece r []) (hst : s.stream = some st) (trace : List LogEffect) :
    Written base { s.goto i .writeUnlock with
      trace := trace, emitted := s.emitted ++ [(st, r)] } [] := by
  have hdone : done = r.text := by
    have := h.current i r [] (by rw [hpc]; rfl)
    rwa [List.append_nil] at this
  have hheld : s.holder = some i := (h.mutex i).mp (by rw [hpc]; rfl)
  refine ⟨?_, ?_, ?_, fun _ => rfl, ?_⟩
  · refine forall_goto (P := fun j c => inside c = true ↔ s.holder = some j) ?_ fun j _ => h.mutex j
    exact iff_of_true rfl hheld
  · intro st'
    show s.out st' = base st' ++ texts st' (s.emitted ++ [(st, r)]) ++
      if s.stream = some st' then [] else []
    rw [h.out_eq st', texts_append, hst, hdone, ite_self, List.append_nil]
    simp only [Option.some_inj, List.append_assoc]
  · refine forall_goto (P := fun _ c => ∀ r rest, remaining c = some (r, rest) →
      [] ++ rest = r.text) nofun ?_
    intro j hj r' rest' hr
    rw [h.remaining_other hheld hj] at hr
    cases hr
  · exact forall_goto (P := fun _ c => ∀ st, target c = some st → s.stream = some st) nofun
      fun j _ => h.target_eq j

omit [DecidableEq ι] in
/-- Nobody writes before the block is over. -/
theorem OnceOk.remaining_eq_none (h : OnceOk mutexOk s) {k : ℕ} (hi : phase (s.pc i) = .initing k)
    (j : ι) : remaining (s.pc j) = none := by
  apply remaining_of_phase
  by_cases hj : j = i
  · rw [hj, hi]
    nofun
  · rcases (h.initing hi).2.2 j hj with he | he <;> rw [he] <;> nofun

omit [DecidableEq ι] in
theorem OnceOk.mutex (h : OnceOk mutexOk s) (hi : phase (s.pc i) = .after) :
    s.mutex = some mutexOk := by
  obtain ⟨⟨uses, ha⟩, _⟩ := (onceOk_ready (h.ready hi)).mp h
  exact ha.mutex

/-- The streams over `log_ensure_init`. -/
theorem Written.ensureInit (h : Written base s done) (ho : OnceOk true s)
    (hin : within (s.pc i) = some .ensureInit) (ht : s.advance true i = some t) :
    ∃ done', Written base t done' := by
  unfold Log.advance at ht
  cases hpc : s.pc i with
  | fast c =>
    rw [hpc] at ht
    cases ht
    refine ⟨done, h.move_outside rfl (by rw [hpc]; rfl) ?_ rfl rfl rfl rfl⟩
    split_ifs
    · exact inside_enter c
    · rfl
  | cas c =>
    rw [hpc] at ht
    simp only at ht
    split_ifs at ht
    · cases ht
      exact ⟨done, h.move_outside rfl (by rw [hpc]; rfl) rfl rfl rfl rfl rfl⟩
    · cases ht
      exact ⟨done, h.move_outside rfl (by rw [hpc]; rfl) rfl rfl rfl rfl rfl⟩
  | initMutex c =>
    rw [hpc] at ht
    cases ht
    exact ⟨done, h.move_outside rfl (by rw [hpc]; rfl) rfl rfl rfl rfl rfl⟩
  | initStream c =>
    rw [hpc] at ht
    cases ht
    have hall := ho.remaining_eq_none (i := i) (by rw [hpc]; rfl)
    exact ⟨[], h.setStream rfl (by rw [hpc]; rfl) hall rfl rfl rfl rfl⟩
  | initLevel c =>
    rw [hpc] at ht
    cases ht
    exact ⟨done, h.move_outside rfl (by rw [hpc]; rfl) rfl rfl rfl rfl rfl⟩
  | initReady c =>
    rw [hpc] at ht
    cases ht
    exact ⟨done, h.move_outside rfl (by rw [hpc]; rfl) (inside_enter c) rfl rfl rfl rfl⟩
  | spin c =>
    rw [hpc] at ht
    simp only at ht
    split_ifs at ht
    · cases ht
      exact ⟨done, h.move_outside rfl (by rw [hpc]; rfl) (inside_enter c) rfl rfl rfl rfl⟩
    · cases ht
      exact ⟨done, h⟩
  | _ =>
    rw [hpc] at hin
    cases hin

/-- The streams over `d4np_log_set_output`. -/
theorem Written.setOutput (h : Written base s done) (ho : OnceOk true s)
    (hin : within (s.pc i) = some .setOutput) (ht : s.advance true i = some t) :
    ∃ done', Written base t done' := by
  unfold Log.advance at ht
  cases hpc : s.pc i with
  | outLock stream =>
    rw [hpc] at ht
    exact ⟨[], h.lock (ho.mutex (i := i) (by rw [hpc]; rfl)) ht rfl rfl nofun⟩
  | outSet stream =>
    rw [hpc] at ht
    cases ht
    have hheld : s.holder = some i := (h.mutex i).mp (by rw [hpc]; rfl)
    refine ⟨[], h.setStream rfl (by rw [hpc]; rfl) ?_ rfl rfl rfl rfl⟩
    intro j
    by_cases hj : j = i
    · rw [hj, hpc]
      rfl
    · exact h.remaining_eq_none (by rw [hheld]; simp [Ne.symm hj])
  | outUnlock =>
    rw [hpc] at ht
    cases ht
    exact ⟨done, h.unlock (by rw [hpc]; rfl) (by rw [hpc]; rfl)⟩
  | _ =>
    rw [hpc] at hin
    cases hin

/-- The streams over `d4np_log_set_min_level`. -/
theorem Written.setMinLevel (h : Written base s done)
    (hin : within (s.pc i) = some .setMinLevel) (ht : s.advance true i = some t) :
    Written base t done := by
  unfold Log.advance at ht
  cases hpc : s.pc i with
  | levelSet level =>
    rw [hpc] at ht
    cases ht
    exact h.move_outside rfl (by rw [hpc]; rfl) rfl rfl rfl rfl rfl
  | _ =>
    rw [hpc] at hin
    cases hin

/-- The streams over `d4np_log_write`. -/
theorem Written.write (h : Written base s done) (ho : OnceOk true s)
    (hin : within (s.pc i) = some .write) (ht : s.advance true i = some t) :
    ∃ done', Written base t done' := by
  unfold Log.advance at ht
  cases hpc : s.pc i with
  | check level body =>
    rw [hpc] at ht
    cases ht
    refine ⟨done, h.move_outside rfl (by rw [hpc]; rfl) ?_ rfl rfl rfl rfl⟩
    split_ifs <;> rfl
  | stamp level body =>
    rw [hpc] at ht
    cases ht
  | writeLock r =>
    rw [hpc] at ht
    refine ⟨[], h.lock (ho.mutex (i := i) (by rw [hpc]; rfl)) ht rfl rfl ?_⟩
    intro r' rest hr
    cases hr
    exact r.pieces_flatten
  | piece r ps =>
    rw [hpc] at ht
    cases ps with
    | nil =>
      obtain ⟨st, hst, rfl⟩ := Option.map_eq_some_iff.mp ht
      exact ⟨[], h.flush hpc hst _⟩
    | cons p ps =>
      obtain ⟨st, hst, rfl⟩ := Option.map_eq_some_iff.mp ht
      refine ⟨done, h.move rfl (by rw [hpc]; rfl) (by rw [hpc]; rfl) ?_ rfl rfl rfl rfl⟩
      intro st' hst'
      cases hst'
      exact hst
  | bytes r st rest ps =>
    rw [hpc] at ht
    cases rest with
    | nil =>
      cases ht
      exact ⟨done, h.move rfl (by rw [hpc]; rfl) (by rw [hpc]; rfl) nofun rfl rfl rfl rfl⟩
    | cons b rest =>
      cases ht
      exact ⟨done ++ [b], h.byte hpc⟩
  | writeUnlock =>
    rw [hpc] at ht
    cases ht
    exact ⟨done, h.unlock (by rw [hpc]; rfl) (by rw [hpc]; rfl)⟩
  | _ =>
    rw [hpc] at hin
    cases hin

/-- **The streams over a step**, under a mutex that excludes. -/
theorem Written.advance (h : Written base s done) (ho : OnceOk true s)
    (ht : s.advance true i = some t) : ∃ done', Written base t done' := by
  cases hin : within (s.pc i) with
  | none =>
    rw [advance_of_within_none hin] at ht
    cases ht
  | some f =>
    cases f with
    | ensureInit => exact h.ensureInit ho hin ht
    | setOutput => exact h.setOutput ho hin ht
    | setMinLevel => exact ⟨done, h.setMinLevel hin ht⟩
    | write => exact h.write ho hin ht

theorem Written.step (h : Written base s done) (ho : OnceOk true s) {e : Event ι}
    (ht : s.step true e = some t) : ∃ done', Written base t done' := by
  cases e with
  | call i c =>
    simp only [Log.step] at ht
    split_ifs at ht with hi
    cases ht
    exact ⟨done, h.move_outside rfl (by rw [hi]; rfl) rfl rfl rfl rfl rfl⟩
  | run i => exact h.advance ho ht
  | stamp i ts =>
    simp only [Log.step] at ht
    split at ht
    · rename_i hpc
      cases ht
      exact ⟨done, h.move_outside rfl (by rw [hpc]; rfl) rfl rfl rfl rfl rfl⟩
    · cases ht

theorem reachable_written (h : Reachable (system ι true base) s) : ∃ done, Written base s done := by
  refine h.induct_of (P := fun s => ∃ done, Written base s done) (fun _ hs => reachable_onceOk hs)
    ?_ ?_
  · rintro s rfl
    refine ⟨[], fun j => ?_, fun st => ?_, nofun, fun _ => rfl, nofun⟩
    · simp [inside]
    · simp [texts]
  · rintro s e t ho ⟨done, hs⟩ hst
    exact hs.step ho hst

end Records

/-! ## The logger -/

/-- **The logger.** For any number of threads and any interleaving of their calls: what happened to
the mutex, the stream and the level is a part of the initialisation block, in its order and once,
and after the whole of it only uses; a thread past the guard has the whole block behind it; from
then on the level and the stream are the ones last set, or the defaults; and if the mutex was
initialised, every stream holds whole records one after the other, and at the end of the current
stream the part of a record that the one thread inside has written. -/
theorem log_initialised_once_and_records_whole {base : Stream → List UInt8}
    (h : Reachable (system ι mutexOk base) s) :
    (∃ k uses, s.trace = uses ++ (initBlock.take k).reverse ∧ (∀ u ∈ uses, IsUse u) ∧
      (uses ≠ [] → initBlock.take k = initBlock) ∧
      (∀ i, phase (s.pc i) = .after → initBlock.take k = initBlock) ∧
      (s.once = .ready → initBlock.take k = initBlock ∧ s.minLevel = configuredLevel uses ∧
        s.stream = some (configuredStream uses))) ∧
    (mutexOk = true → ∃ done : List UInt8,
      (∀ st, s.out st = base st ++ texts st s.emitted ++
        if s.stream = some st then done else []) ∧
      ((∀ i, inside (s.pc i) = false) → done = []) ∧
      ∀ i, inside (s.pc i) = true → (∀ j, inside (s.pc j) = true → j = i) ∧
        match remaining (s.pc i) with
        | none => done = []
        | some (r, rest) => done ++ rest = r.text) := by
  refine ⟨?_, ?_⟩
  · have ho := reachable_onceOk h
    have hready := fun i (hi : phase (s.pc i) = .after) => ho.ready hi
    unfold OnceOk at ho
    rcases hs : s.once with _ | _ | _
    · rw [hs] at ho hready
      exact ⟨0, [], ho.1.trace, nofun, fun hne => absurd rfl hne,
        fun i hi => absurd (hready i hi) nofun, nofun⟩
    · rw [hs] at ho hready
      obtain ⟨_, k, _, hb, _⟩ := ho
      exact ⟨k, [], hb.trace, nofun, fun hne => absurd rfl hne,
        fun i hi => absurd (hready i hi) nofun, nofun⟩
    · rw [hs] at ho
      obtain ⟨⟨uses, ha⟩, _⟩ := ho
      exact ⟨4, uses, ha.trace, ha.isUse, fun _ => rfl, fun _ _ => rfl,
        fun _ => ⟨rfl, ha.level, ha.stream⟩⟩
  · rintro rfl
    obtain ⟨done, hw⟩ := reachable_written h
    refine ⟨done, hw.out_eq, ?_, fun i hi => ⟨fun j hj => ?_, ?_⟩⟩
    · intro hout
      apply hw.silent
      intro j
      by_contra hne
      obtain ⟨x, hx⟩ := Option.ne_none_iff_exists'.mp hne
      have := hout j
      rw [inside_of_remaining hx] at this
      cases this
    · have hi' := (hw.mutex i).mp hi
      rw [(hw.mutex j).mp hj] at hi'
      exact Option.some.inj hi'
    · rcases hr : remaining (s.pc i) with _ | ⟨r, rest⟩
      · exact hw.done_eq_nil hi hr
      · exact hw.current i r rest hr

/-- A thread sets the level while the first record of another waits for the initialisation. -/
def levelAndRecord : List (Event (Fin 2)) :=
  List.append
    [.call 0 (.setMinLevel 1), .call 1 (.write 2 [65]), .run 1, .run 0, .run 1, .run 0, .run 1,
      .run 1, .run 1, .run 1, .run 0, .run 0, .run 1, .stamp 1 7, .run 1]
    (List.replicate 20 (.run 1))

/-- A level set while another thread's first record waits for the initialisation. -/
theorem log_initialised_once_and_records_whole_two_threads :
    ∃ s : Log (Fin 2), Reachable (system (Fin 2) true fun _ => []) s ∧ s.minLevel = 1 ∧
      s.emitted = [(stderr, ⟨7, 2, [65]⟩)] ∧
      ∃ done : List UInt8, ∀ st, s.out st = [] ++ texts st s.emitted ++
        if s.stream = some st then done else [] := by
  let s₀ : Log (Fin 2) :=
    ⟨.uninitialized, 0, none, none, none, fun _ => [], fun _ => .idle, [], []⟩
  have h0 : Reachable (system (Fin 2) true fun _ => []) s₀ := .init rfl
  have hrun : ((system (Fin 2) true fun _ => []).run s₀ levelAndRecord).map
      (fun s => (s.minLevel, s.emitted)) = some (1, [(stderr, ⟨7, 2, [65]⟩)]) := by decide +kernel
  obtain ⟨s, hs, hfields⟩ := Option.map_eq_some_iff.mp hrun
  obtain ⟨hlevel, hemitted⟩ := Prod.mk.inj hfields
  have hr := h0.run hs
  obtain ⟨done, hout, _⟩ := (log_initialised_once_and_records_whole hr).2 rfl
  exact ⟨s, hr, hlevel, hemitted, done, hout⟩

end Log

end D4np
