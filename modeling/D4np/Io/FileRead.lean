import D4np.Core.Ledger
import D4np.Io.FileCall
import D4np.Lib.ByteMem
import D4np.Lib.Word
import Mathlib.Tactic

/-!
# Whole-file reads

`d4np_file_read_all` reads a file of unknown size into a buffer that doubles whenever it is full.
The environment decides how much each `fread` delivers: at least one byte as long as there is one to
deliver, unless an error occurs.  The error indicator of the stream stays set, so an error that came
with some bytes is found when `fread` at last delivers none.  The answer of `fclose` is not looked
at.

The loop keeps that the buffer holds as much of the file as has been read, and that it is the only
block the call has (`ReadOk`).  Each round that does not end the loop reads at least one byte, so
the loop ends; where it ends well the whole file is in the buffer.
-/

namespace D4np

open Word64 ByteMem Posix TransitionSystem

namespace File

/-- `D4NP_FILE_CHUNK`. -/
def chunk : ℕ := 65536

/-- What the environment answers to an `fread`: a limit on what it delivers, and whether an error
occurs. -/
structure ReadAnswer where
  limit : ℕ
  error : Bool

/-- The variables of `d4np_file_read_all` and its stream: the buffer and its contents, how far the
stream has been read, its error indicator, and the number of calls of `fread`. -/
structure ReadState where
  buf : Option ℕ
  bytes : Mem
  cap : ℕ
  len : ℕ
  pos : ℕ
  failed : Bool
  calls : ℕ

/-- What `d4np_file_read_all` writes through its output pointers. -/
structure ReadOut where
  data : Option ℕ
  bytes : Mem
  size : ℕ

/-- How the loop ends: a growth is refused, an error has occurred, or the file has ended. -/
inductive ReadExit
  | refused
  | failed
  | eof
  deriving DecidableEq

namespace ReadState

/-- The variables before the loop. -/
def start : ReadState := ⟨none, fun _ => 0, 0, 0, 0, false, 0⟩

/-- The growth of a full buffer. -/
def grow (a : Allocator) (st : ReadState) (h : Heap) : Option ReadState × Heap :=
  if st.len = st.cap then
    let ncap := if st.cap = 0 then chunk else wrap (st.cap * 2)
    match d4npRealloc a st.buf st.bytes st.cap ncap maxAlign h with
    | (none, h) => (none, h)
    | (some nb, h) => (some { st with buf := some nb.addr, bytes := nb.bytes, cap := ncap }, h)
  else (some st, h)

/-- The number of bytes `fread(buf + len, 1, cap - len, f)` delivers from a file that holds `data`.
-/
def got (st : ReadState) (data : List UInt8) (answer : ReadAnswer) : ℕ :=
  min (min (sub st.cap st.len) (data.length - st.pos))
    (if answer.error then answer.limit else answer.limit + 1)

/-- `fread`, and `len += got`. -/
def fread (st : ReadState) (data : List UInt8) (answer : ReadAnswer) : ReadState :=
  { st with
    bytes := writeList st.bytes st.len ((data.drop st.pos).take (st.got data answer))
    len := wrap (st.len + st.got data answer)
    pos := st.pos + st.got data answer
    failed := st.failed || answer.error
    calls := st.calls + 1 }

/-- The loop of `d4np_file_read_all`, cut off after `fuel` rounds. -/
def readLoop (a : Allocator) (data : List UInt8) (reads : ℕ → ReadAnswer) :
    ℕ → ReadState → Heap → Option (ReadExit × ReadState × Heap)
  | 0, _, _ => none
  | fuel + 1, st, h =>
    match st.grow a h with
    | (none, h) => some (.refused, st, h)
    | (some st, h) =>
      if st.got data (reads st.calls) = 0 then
        let st := st.fread data (reads st.calls)
        if st.failed then some (.failed, st, h) else some (.eof, st, h)
      else readLoop a data reads fuel (st.fread data (reads st.calls)) h

end ReadState

open ReadState

/-- The end of `d4np_file_read_all`, after the loop: the status, what is written through the output
pointers, and the heap. -/
def readEnd (a : Allocator) (exit : ReadExit) (st : ReadState) (h : Heap) :
    Status × Option ReadOut × Heap :=
  match exit with
  | .refused => (.errOutOfMemory, none, d4npFree st.buf st.cap h)
  | .failed => (.errIo, none, d4npFree st.buf st.cap h)
  | .eof =>
    if st.len = 0 then (.ok, some ⟨none, st.bytes, 0⟩, d4npFree st.buf st.cap h)
    else
      -- the trim, whose refusal leaves the buffer as it is
      match d4npRealloc a st.buf st.bytes st.cap st.len maxAlign h with
      | (some shrunk, h) => (.ok, some ⟨some shrunk.addr, shrunk.bytes, st.len⟩, h)
      | (none, h) => (.ok, some ⟨st.buf, st.bytes, st.len⟩, h)

/-- `d4np_file_read_all`, with the answers of `fopen` and of each `fread`; it also gives the number
of calls of `fread`.  A file of `n` bytes takes at most `n + 1` rounds. -/
def readAll (a : Allocator) (fs : FileSystem) (path : Name) (openOk : Bool) (reads : ℕ → ReadAnswer)
    (h : Heap) : Option (Status × Option ReadOut × ℕ × Heap) :=
  match if openOk then fs.content path else none with
  | none => some (.errIo, none, 0, h)
  | some data =>
    (readLoop a data reads (data.length + 1) start h).map fun (exit, st, h) =>
      let (rc, out, h) := readEnd a exit st h
      (rc, out, st.calls, h)

/-! ## The loop -/

/-- A request for a larger buffer was refused. -/
def GrowthRefused (log : List AllocEvent) : Prop :=
  ∃ ptr oldSize newSize align, .realloc ptr oldSize newSize align none ∈ log ∧ oldSize < newSize

/-- Between two rounds the buffer holds what has been read of the file, its error indicator tells
whether an error has occurred, and the buffer is the only live block. -/
structure ReadOk (data : List UInt8) (reads : ℕ → ReadAnswer) (st : ReadState) (h : Heap) : Prop where
  pos_eq : st.pos = st.len
  len_le : st.len ≤ data.length
  holds : front st.bytes st.len = data.take st.len
  room : st.len ≤ st.cap
  null : st.buf = none ↔ st.cap = 0
  cap_le : st.cap ≤ max chunk (2 * st.len)
  failed_iff : st.failed = true ↔ ∃ k < st.calls, (reads k).error = true
  sole : Sole h.log st.buf st.cap
  served : ¬GrowthRefused h.log

/-- What is known where the loop ends. -/
def Ended (data : List UInt8) (reads : ℕ → ReadAnswer) (st : ReadState) (h : Heap) : ReadExit → Prop
  | .refused => Sole h.log st.buf st.cap ∧ GrowthRefused h.log
  | .failed => ReadOk data reads st h ∧ st.failed = true
  | .eof => ReadOk data reads st h ∧ st.failed = false ∧ st.len = data.length ∧ st.len < st.cap

variable {data : List UInt8} {reads : ℕ → ReadAnswer} {st : ReadState} {h : Heap}

theorem growthRefused_cons {e : AllocEvent} {log : List AllocEvent}
    (he : ∀ ptr oldSize newSize align, e = .realloc ptr oldSize newSize align none →
      newSize ≤ oldSize) : GrowthRefused (e :: log) ↔ GrowthRefused log := by
  constructor
  · rintro ⟨ptr, old, new, align, hm, hlt⟩
    rcases List.mem_cons.mp hm with heq | hm
    · have := he ptr old new align heq.symm
      omega
    · exact ⟨ptr, old, new, align, hm, hlt⟩
  · rintro ⟨ptr, old, new, align, hm, hlt⟩
    exact ⟨ptr, old, new, align, List.mem_cons_of_mem _ hm, hlt⟩

theorem readOk_start (data : List UInt8) (reads : ℕ → ReadAnswer) (requests : ℕ) :
    ReadOk data reads start ⟨requests, []⟩ where
  pos_eq := rfl
  len_le := Nat.zero_le _
  holds := rfl
  room := le_refl _
  null := iff_of_true rfl rfl
  cap_le := Nat.zero_le _
  failed_iff := iff_of_false nofun fun ⟨_, hk, _⟩ => absurd hk (Nat.not_lt_zero _)
  sole := Sole.nil 0
  served := fun ⟨_, _, _, _, hm, _⟩ => absurd hm List.not_mem_nil

/-- The capacity a full buffer grows to. -/
def ncap (st : ReadState) : ℕ := if st.cap = 0 then chunk else wrap (st.cap * 2)

/-- What a growth does: nothing, or it is refused, or the buffer moves. -/
theorem grow_cases (a : Allocator) (st : ReadState) (h : Heap) :
    (st.len ≠ st.cap ∧ st.grow a h = (some st, h)) ∨
    st.len = st.cap ∧
      (st.grow a h =
        (none, ⟨h.requests + 1, .realloc st.buf st.cap (ncap st) maxAlign none :: h.log⟩) ∨
      ∃ b : Block, st.grow a h =
        (some { st with
          buf := some b.addr
          bytes := (resized st.buf st.bytes st.cap (ncap st) b).bytes
          cap := ncap st },
        ⟨h.requests + 1, .realloc st.buf st.cap (ncap st) maxAlign (some b.addr) :: h.log⟩)) := by
  unfold ReadState.grow
  by_cases hfull : st.len = st.cap
  · rw [if_pos hfull]
    refine Or.inr ⟨hfull, ?_⟩
    rcases d4npRealloc_cases a st.buf st.bytes st.cap (ncap st) maxAlign h with he | ⟨b, -, he⟩
    · left
      unfold ncap at he ⊢
      simp only [he]
    · right
      unfold ncap at he ⊢
      simp only [he]
      exact ⟨b, rfl⟩
  · rw [if_neg hfull]
    exact Or.inl ⟨hfull, rfl⟩

/-- The new capacity of a full buffer does not wrap. -/
theorem ReadOk.ncap_bounds (hok : ReadOk data reads st h) (hdata : data.length < 2 ^ 63)
    (hfull : st.len = st.cap) : st.cap < ncap st ∧ ncap st ≤ max chunk (2 * st.len) := by
  have hlen := hok.len_le
  unfold ncap
  split_ifs with hz
  · exact ⟨by rw [hz]; decide, le_max_left _ _⟩
  · rw [wrap_of_lt (by omega)]
    exact ⟨by omega, le_max_of_le_right (by omega)⟩

/-- A full buffer grows or the growth is refused; afterwards there is room for a byte. -/
theorem ReadOk.grow (hok : ReadOk data reads st h) (hdata : data.length < 2 ^ 63) (a : Allocator) :
    (∃ h', st.grow a h = (none, h') ∧ Ended data reads st h' .refused) ∨
    ∃ st' h', st.grow a h = (some st', h') ∧ ReadOk data reads st' h' ∧ st'.len = st.len ∧
      st'.len < st'.cap := by
  rcases grow_cases a st h with ⟨hne, he⟩ | ⟨hfull, he | ⟨b, he⟩⟩
  · exact Or.inr ⟨st, h, he, hok, rfl, lt_of_le_of_ne hok.room hne⟩
  · exact Or.inl ⟨_, he, hok.sole.realloc_refused maxAlign, st.buf, st.cap, ncap st, maxAlign,
      List.mem_cons_self, (hok.ncap_bounds hdata hfull).1⟩
  · obtain ⟨hlt, hle⟩ := hok.ncap_bounds hdata hfull
    refine Or.inr ⟨_, _, he, ?_, rfl, hfull.trans_lt hlt⟩
    refine { hok with
      holds := ?_
      room := hok.room.trans hlt.le
      null := iff_of_false nofun (Nat.ne_of_gt (Nat.zero_lt_of_lt hlt))
      cap_le := hle
      sole := hok.sole.realloc_granted maxAlign b.addr
      served := ?_ }
    · rw [← hok.holds]
      refine front_congr fun x hx => ?_
      have hx' : x < st.len := hx
      refine resized_bytes (fun hnull => ?_) (by omega) (by omega)
      have := hok.null.mp hnull
      omega
    · rw [growthRefused_cons (by simp)]
      exact hok.served

/-- What `fread` delivers lies inside the buffer and the file. -/
theorem ReadOk.got_le (hok : ReadOk data reads st h) (hcap : st.cap < 2 ^ 64) (answer : ReadAnswer) :
    st.len + st.got data answer ≤ st.cap ∧ st.len + st.got data answer ≤ data.length := by
  have hlen := hok.len_le
  have hroom := hok.room
  unfold got
  rw [hok.pos_eq, sub_of_le hroom hcap]
  omega

/-- Without an error `fread` delivers nothing only at the end of the file. -/
theorem ReadOk.len_eq_of_got (hok : ReadOk data reads st h) (hroom : st.len < st.cap)
    (hcap : st.cap < 2 ^ 64) {answer : ReadAnswer} (herr : answer.error = false)
    (hgot : st.got data answer = 0) : st.len = data.length := by
  have hlen := hok.len_le
  unfold got at hgot
  rw [hok.pos_eq, sub_of_le hroom.le hcap, herr] at hgot
  simp only [Bool.false_eq_true, if_false] at hgot
  omega

theorem ReadOk.cap_lt (hok : ReadOk data reads st h) (hdata : data.length < 2 ^ 63) :
    st.cap < 2 ^ 64 := by
  have hlen := hok.len_le
  have hcap := hok.cap_le
  unfold chunk at hcap
  omega

/-- One more call, and whether an error has occurred. -/
theorem failed_iff_succ {failed : Bool} {n : ℕ}
    (hf : failed = true ↔ ∃ k < n, (reads k).error = true) :
    (failed || (reads n).error) = true ↔ ∃ k < n + 1, (reads k).error = true := by
  rw [Bool.or_eq_true, hf]
  constructor
  · rintro (⟨k, hk, he⟩ | he)
    · exact ⟨k, by omega, he⟩
    · exact ⟨n, by omega, he⟩
  · rintro ⟨k, hk, he⟩
    rcases Nat.lt_succ_iff_lt_or_eq.mp hk with hk | rfl
    · exact Or.inl ⟨k, hk, he⟩
    · exact Or.inr he

/-- `fread` appends to the buffer what comes next in the file. -/
theorem ReadOk.fread (hok : ReadOk data reads st h) (hdata : data.length < 2 ^ 63) :
    ReadOk data reads (st.fread data (reads st.calls)) h ∧
      (st.fread data (reads st.calls)).len = st.len + st.got data (reads st.calls) := by
  have hcap := hok.cap_lt hdata
  have hcap' := hok.cap_le
  obtain ⟨hgot, hgot'⟩ := hok.got_le (by omega) (reads st.calls)
  have hlen : (st.fread data (reads st.calls)).len = st.len + st.got data (reads st.calls) :=
    wrap_of_lt (by omega)
  generalize hn : st.got data (reads st.calls) = n at *
  refine ⟨?_, hlen⟩
  refine { hok with
    pos_eq := ?_
    len_le := hlen.trans_le hgot'
    holds := ?_
    room := hlen.trans_le hgot
    cap_le := ?_
    failed_iff := failed_iff_succ hok.failed_iff }
  · rw [hlen, ← hok.pos_eq, ← hn]
    rfl
  · rw [hlen]
    show front (writeList st.bytes st.len ((data.drop st.pos).take _)) _ = _
    rw [hn, hok.pos_eq]
    have hn' : ((data.drop st.len).take n).length = n := by
      rw [List.length_take, List.length_drop]
      omega
    have hfront := front_writeList st.bytes st.len ((data.drop st.len).take n)
    rw [hn', hok.holds, ← List.take_add] at hfront
    exact hfront
  · rw [hlen]
    exact hcap'.trans (max_le_max_left _ (by omega))

/-- **The loop.** It ends, and what it knows at its end holds. -/
theorem readLoop_ended (hdata : data.length < 2 ^ 63) (a : Allocator) :
    ∀ fuel st h, ReadOk data reads st h → data.length + 1 ≤ st.len + fuel →
      ∃ exit st' h', readLoop a data reads fuel st h = some (exit, st', h') ∧
        Ended data reads st' h' exit := by
  intro fuel
  induction fuel with
  | zero =>
    intro st h hok hfuel
    have := hok.len_le
    omega
  | succ fuel ih =>
    intro st h hok hfuel
    unfold readLoop
    rcases hok.grow hdata a with ⟨h', hg, hend⟩ | ⟨st', h', hg, hok', hlen, hroom⟩
    · rw [hg]
      exact ⟨.refused, st, h', rfl, hend⟩
    · rw [hg]
      obtain ⟨hread, hlen'⟩ := hok'.fread hdata
      simp only
      by_cases hgot : st'.got data (reads st'.calls) = 0
      · rw [if_pos hgot]
        rw [hgot, Nat.add_zero] at hlen'
        by_cases hfailed : (st'.fread data (reads st'.calls)).failed = true
        · rw [if_pos hfailed]
          exact ⟨.failed, _, h', rfl, hread, hfailed⟩
        · rw [if_neg hfailed]
          have herr : (reads st'.calls).error = false := by
            by_contra herr
            rw [Bool.not_eq_false] at herr
            exact hfailed (hread.failed_iff.mpr ⟨st'.calls, Nat.lt_succ_self _, herr⟩)
          have hcap := hok'.cap_lt hdata
          refine ⟨.eof, _, h', rfl, hread, Bool.not_eq_true _ ▸ hfailed, ?_, hlen'.trans_lt hroom⟩
          rw [hlen']
          exact hok'.len_eq_of_got hroom (by omega) herr hgot
      · rw [if_neg hgot]
        exact ih _ h' hread (by omega)

/-! ## The whole call -/

/-- An error occurred on opening the file or in one of the calls of `fread`. -/
def IoError (openOk : Bool) (reads : ℕ → ReadAnswer) (calls : ℕ) : Prop :=
  openOk = false ∨ ∃ k < calls, (reads k).error = true

/-- The bytes handed out are those of the file, and there is no buffer for an empty file. -/
structure Delivers (data : List UInt8) (out : Option ReadOut) (o : ReadOut) : Prop where
  written : out = some o
  size_eq : o.size = data.length
  bytes_eq : front o.bytes o.size = data
  null_iff : o.data = none ↔ data = []

/-- After an error the buffer is released and nothing is written. -/
theorem readEnd_error {exit : ReadExit} (hend : Ended data reads st h exit) (hne : exit ≠ .eof)
    (a : Allocator) : ∃ rc, rc ≠ .ok ∧ readEnd a exit st h = (rc, none, d4npFree st.buf st.cap h) ∧
      Owns (d4npFree st.buf st.cap h).log [] := by
  cases exit with
  | refused => exact ⟨.errOutOfMemory, by decide, rfl, hend.1.free⟩
  | failed => exact ⟨.errIo, by decide, rfl, hend.1.sole.free⟩
  | eof => exact absurd rfl hne

/-- At the end of the file its bytes are handed out, whether the trim is granted or not. -/
theorem readEnd_eof (hend : Ended data reads st h .eof) (a : Allocator) :
    ∃ out o h', readEnd a .eof st h = (.ok, out, h') ∧ Delivers data out o ∧
      ¬GrowthRefused h'.log := by
  obtain ⟨hok, -, hlen, hlt⟩ := hend
  have hholds : front st.bytes st.len = data := by
    rw [hok.holds, hlen, List.take_length]
  unfold readEnd
  by_cases hz : st.len = 0
  · have hnil : data = [] := List.length_eq_zero_iff.mp (hlen.symm.trans hz)
    simp only [if_pos hz]
    refine ⟨_, _, _, rfl, ⟨rfl, hz ▸ hlen, ?_, iff_of_true rfl hnil⟩, ?_⟩
    · rw [hnil]
      rfl
    · unfold d4npFree
      rw [growthRefused_cons (by simp)]
      exact hok.served
  have hnil : data ≠ [] := by
    intro hnil
    rw [hnil] at hlen
    exact hz hlen
  have hbuf : st.buf ≠ none := by
    intro hnull
    have := hok.null.mp hnull
    omega
  simp only [if_neg hz]
  -- the trim asks for less than there is
  have hserved : ∀ ptr, ¬GrowthRefused (.realloc st.buf st.cap st.len maxAlign ptr :: h.log) := by
    intro ptr
    rw [growthRefused_cons]
    · exact hok.served
    · intro _ _ _ _ he
      cases he
      exact hlt.le
  rcases d4npRealloc_cases a st.buf st.bytes st.cap st.len maxAlign h with he | ⟨b, -, he⟩
  · simp only [he]
    exact ⟨_, _, _, rfl, ⟨rfl, hlen, hholds, iff_of_false hbuf hnil⟩, hserved _⟩
  · simp only [he]
    refine ⟨_, _, _, rfl, ⟨rfl, hlen, ?_, iff_of_false nofun hnil⟩, hserved _⟩
    rw [← hholds]
    exact front_congr fun x hx => resized_bytes hbuf (hx.trans hlt) hx

/-- What `d4np_file_read_all` does with a file that holds `data`. -/
theorem readAll_spec {fs : FileSystem} {path : Name} (hcontent : fs.content path = some data)
    (hdata : data.length < 2 ^ 63) (a : Allocator) (openOk : Bool) (reads : ℕ → ReadAnswer)
    (requests : ℕ) :
    ∃ rc out calls heap, readAll a fs path openOk reads ⟨requests, []⟩ = some (rc, out, calls, heap) ∧
      ((rc = .ok ∧ (∃ o, Delivers data out o) ∧ ¬IoError openOk reads calls ∧
        ¬GrowthRefused heap.log) ∨
      (rc ≠ .ok ∧ out = none ∧ Owns heap.log [] ∧
        (IoError openOk reads calls ∨ GrowthRefused heap.log))) := by
  unfold readAll
  cases openOk with
  | false =>
    exact ⟨.errIo, none, 0, ⟨requests, []⟩, rfl, Or.inr ⟨by decide, rfl, Owns.nil,
      Or.inl (Or.inl rfl)⟩⟩
  | true =>
    rw [if_pos rfl, hcontent]
    obtain ⟨exit, st, h, hloop, hend⟩ := readLoop_ended hdata a (data.length + 1) start
      ⟨requests, []⟩ (readOk_start data reads requests) (Nat.le_add_left _ _)
    simp only [hloop, Option.map_some]
    by_cases hexit : exit = .eof
    · subst hexit
      obtain ⟨out, o, h', he, hdel, hserved⟩ := readEnd_eof hend a
      rw [he]
      refine ⟨_, _, _, _, rfl, Or.inl ⟨rfl, ⟨o, hdel⟩, ?_, hserved⟩⟩
      rintro (hopen | herr)
      · cases hopen
      · have := hend.1.failed_iff.mpr herr
        rw [hend.2.1] at this
        cases this
    · obtain ⟨rc, hrc, he, hfree⟩ := readEnd_error hend hexit a
      rw [he]
      refine ⟨_, _, _, _, rfl, Or.inr ⟨hrc, rfl, hfree, ?_⟩⟩
      cases exit with
      | refused =>
        right
        unfold d4npFree
        rw [growthRefused_cons (by simp)]
        exact hend.2
      | failed => exact Or.inl (Or.inr (hend.1.failed_iff.mp hend.2))
      | eof => exact absurd rfl hexit

/-- **Reading back what was written.** After a successful `d4np_file_write_all`, and as long as the
file is not changed, `d4np_file_read_all` gives the bytes written, however `fread` splits them;
where an error occurs or a growth is refused it returns an error, writes nothing and has no live
block. -/
theorem readAll_writeAll {path : Name} {data : List UInt8} {fs₀ fs : FileSystem}
    {s : FileSystem × Pc} (hdata : data.length < 2 ^ 62) (hw : Reachable (solo path data fs₀) s)
    (hok : s.2 = .returned .ok) (hsame : fs.content path = s.1.content path) (a : Allocator)
    (openOk : Bool) (reads : ℕ → ReadAnswer) (requests : ℕ) :
    ∃ rc out calls heap, readAll a fs path openOk reads ⟨requests, []⟩ = some (rc, out, calls, heap) ∧
      (¬IoError openOk reads calls → ¬GrowthRefused heap.log → rc = .ok ∧
        ∃ o, out = some o ∧ o.size = data.length ∧ front o.bytes o.size = data ∧
          (o.data = none ↔ data = [])) ∧
      (IoError openOk reads calls ∨ GrowthRefused heap.log → rc ≠ .ok ∧ out = none ∧
        Owns heap.log []) := by
  have hreplaced := reachable_soloOk hw
  rw [hok] at hreplaced
  have hcontent : fs.content path = some data := hsame.trans (Replaced.content hreplaced)
  obtain ⟨rc, out, calls, heap, he, hcases⟩ := readAll_spec hcontent (by omega) a openOk reads requests
  refine ⟨rc, out, calls, heap, he, ?_, ?_⟩
  · intro hio hserved
    rcases hcases with ⟨hrc, ⟨o, hdel⟩, -⟩ | ⟨-, -, -, hbad⟩
    · exact ⟨hrc, o, hdel.written, hdel.size_eq, hdel.bytes_eq, hdel.null_iff⟩
    · exact absurd hbad (by tauto)
  · intro hbad
    rcases hcases with ⟨-, -, hio, hserved⟩ | ⟨hrc, hout, howns, -⟩
    · exact absurd hbad (by tauto)
    · exact ⟨hrc, hout, howns⟩

/-- An allocator that serves every request of at most a chunk from a chunk of its own, and refuses
the others. -/
def chunkAllocator : Allocator where
  alloc n size align :=
    if size ≤ chunk ∧ align ∣ chunk ∧ n < 2 ^ 32 then some ⟨chunk * (n + 1), fun _ => 0⟩ else none
  addr_pos := by
    intro n size align b h
    split_ifs at h
    cases h
    simp [chunk]
  addr_le := by
    intro n size align b h
    split_ifs at h with hc
    cases h
    unfold chunk at hc ⊢
    simp only
    omega
  addr_dvd := by
    intro n size align b h _
    split_ifs at h with hc
    cases h
    exact hc.2.1.mul_right _

theorem readAll_writeAll_byte_by_byte :
    ∃ s, Reachable (solo [0x66] [1, 2] oneFile) s ∧ s.2 = .returned .ok ∧
      ∃ o calls heap, readAll chunkAllocator s.1 [0x66] true (fun _ => ⟨0, false⟩) ⟨0, []⟩ =
        some (.ok, some o, calls, heap) ∧ o.size = 2 ∧ front o.bytes o.size = [1, 2] := by
  have h0 : Reachable (solo [0x66] [1, 2] oneFile) (oneFile, writeAll [0x66]) := .init rfl
  obtain ⟨s, hrun⟩ : ∃ s, (solo [0x66] [1, 2] oneFile).run (oneFile, writeAll [0x66])
      [.ret true, .write 1, .ret true, .write 1, .ret true, .ret true, .ret true, .ret true] =
      some s := ⟨_, rfl⟩
  have hs : s.2 = .returned .ok := by
    cases hrun
    rfl
  have hlog : (readAll chunkAllocator s.1 [0x66] true (fun _ => ⟨0, false⟩) ⟨0, []⟩).map
      (fun r => r.2.2.2.log) = some [.realloc (some 65536) 65536 2 16 (some 131072),
        .realloc none 0 65536 16 (some 65536)] := by
    cases hrun
    decide
  have hr := h0.run hrun
  obtain ⟨rc, out, calls, heap, he, hread, -⟩ := readAll_writeAll (by decide) hr hs rfl
    chunkAllocator true (fun _ => ⟨0, false⟩) 0
  rw [he] at hlog
  have hserved : ¬GrowthRefused heap.log := by
    rw [show heap.log = _ from Option.some.inj hlog]
    simp [GrowthRefused]
  obtain ⟨rfl, o, rfl, hsize, hbytes, -⟩ := hread (by simp [IoError]) hserved
  exact ⟨s, hr, hs, o, calls, heap, he, hsize, hbytes⟩

end File

end D4np
