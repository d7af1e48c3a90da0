import D4np.Io.FileRead
import Mathlib.Data.Nat.Size
import Mathlib.Tactic

/-!
# The size of the buffer a read hands out

`d4np_file_read_all` hands out a buffer with the number of bytes read, which is the size its owner
releases it with.  The buffer was grown past that number, and a last reallocation trims it.  Behind
a growth the buffer is never exactly full (`Held.grow`), so where the trim is refused the block
keeps a size that is not the one handed out; where it is granted the sizes agree.  The buffer starts
with a chunk and doubles, which says how many requests come before the trim (`Grown`).
-/

namespace D4np

open Word64 ByteMem Posix TransitionSystem

namespace File

open ReadState

/-- The buffer is the only live block, and the counters are words. -/
structure Held (st : ReadState) (h : Heap) : Prop where
  sole : Sole h.log st.buf st.cap
  cap_lt : st.cap < 2 ^ 64
  len_lt : st.len < 2 ^ 64

/-- After `k + 1` growths the buffer has doubled `k` times. -/
def Grown (requests : ℕ) (st : ReadState) (h : Heap) : Prop :=
  (h.requests = requests ∧ st.cap = 0) ∨
    ∃ k, h.requests = requests + (k + 1) ∧ st.cap = chunk * 2 ^ k

/-! ## The loop -/

variable {a : Allocator} {data : List UInt8} {reads : ℕ → ReadAnswer} {st st' : ReadState}
  {h h' : Heap}

theorem ncap_lt (st : ReadState) : ncap st < 2 ^ 64 := by
  unfold ncap wrap chunk
  split_ifs
  · norm_num
  · exact Nat.mod_lt _ (by norm_num)

/-- Doubling modulo `2 ^ 64` changes every word but zero. -/
theorem ncap_ne (hcap : st.cap < 2 ^ 64) : st.cap ≠ ncap st := by
  unfold ncap wrap chunk
  split_ifs <;> omega

/-- Behind a growth the buffer is not exactly full. -/
theorem Held.grow (hs : Held st h) (hg : st.grow a h = (some st', h')) :
    Held st' h' ∧ st'.len = st.len ∧ st'.len ≠ st'.cap := by
  rcases grow_cases a st h with ⟨hne, he⟩ | ⟨hfull, he | ⟨b, he⟩⟩
  · cases he.symm.trans hg
    exact ⟨hs, rfl, hne⟩
  · cases he.symm.trans hg
  · cases he.symm.trans hg
    refine ⟨⟨hs.sole.realloc_granted maxAlign b.addr, ncap_lt st, hs.len_lt⟩, rfl, ?_⟩
    show st.len ≠ ncap st
    rw [hfull]
    exact ncap_ne hs.cap_lt

theorem Held.fread (hs : Held st h) (answer : ReadAnswer) : Held (st.fread data answer) h :=
  ⟨hs.sole, hs.cap_lt, Nat.mod_lt _ (by norm_num)⟩

/-- **The last round.** Where the loop ends at the end of the file, the round that found it began
with whatever the rounds before it kept. -/
theorem readLoop_last_round {P : ReadState → Heap → Prop}
    (hround : ∀ st h st₁ h₁, P st h → st.grow a h = (some st₁, h₁) →
      P (st₁.fread data (reads st₁.calls)) h₁) :
    ∀ fuel st h, P st h → readLoop a data reads fuel st h = some (.eof, st', h') →
      ∃ st₀ h₀ st₁, P st₀ h₀ ∧ st₀.grow a h₀ = (some st₁, h') ∧
        st₁.got data (reads st₁.calls) = 0 ∧ st' = st₁.fread data (reads st₁.calls) := by
  intro fuel
  induction fuel with
  | zero => intro st h _ he; cases he
  | succ fuel ih =>
    intro st h hP he
    unfold readLoop at he
    rcases hg : st.grow a h with ⟨_ | st₁, h₁⟩
    · rw [hg] at he
      cases he
    · rw [hg] at he
      simp only at he
      by_cases hgot : st₁.got data (reads st₁.calls) = 0
      · rw [if_pos hgot] at he
        split_ifs at he <;> cases he
        exact ⟨st, h, st₁, hP, hg, hgot, rfl⟩
      · rw [if_neg hgot] at he
        exact ih _ h₁ (hround st h st₁ h₁ hP hg) he

/-- Where the loop ends at the end of the file, the buffer is not exactly full. -/
theorem readLoop_held {fuel : ℕ} (hs : Held st h)
    (he : readLoop a data reads fuel st h = some (.eof, st', h')) :
    Held st' h' ∧ st'.len ≠ st'.cap := by
  obtain ⟨st₀, h₀, st₁, hs₀, hg, hgot, rfl⟩ :=
    readLoop_last_round (P := Held) (fun _ _ _ _ hs hg => (hs.grow hg).1.fread _) _ _ _ hs he
  obtain ⟨hs₁, -, hne⟩ := hs₀.grow hg
  refine ⟨hs₁.fread _, ?_⟩
  show wrap (st₁.len + st₁.got data (reads st₁.calls)) ≠ st₁.cap
  rw [hgot, Nat.add_zero, wrap_of_lt hs₁.len_lt]
  exact hne

/-- The requests made, and the capacity they led to, as long as the capacity does not wrap. -/
theorem Grown.grow {requests : ℕ} (hgr : Grown requests st h)
    (hcap : st.len = st.cap → st.cap < 2 ^ 63) (hg : st.grow a h = (some st', h')) :
    Grown requests st' h' := by
  rcases grow_cases a st h with ⟨_, he⟩ | ⟨hfull, he | ⟨b, he⟩⟩
  · cases he.symm.trans hg
    exact hgr
  · cases he.symm.trans hg
  · cases he.symm.trans hg
    have hcap := hcap hfull
    right
    rcases hgr with ⟨hreq, hzero⟩ | ⟨k, hreq, hpow⟩
    · refine ⟨0, by rw [hreq], ?_⟩
      show ncap st = chunk * 2 ^ 0
      rw [ncap, if_pos hzero, pow_zero, Nat.mul_one]
    · refine ⟨k + 1, by rw [hreq]; rfl, ?_⟩
      have hpos : 0 < st.cap := by
        rw [hpow]
        exact Nat.mul_pos (by decide) (Nat.two_pow_pos k)
      show ncap st = chunk * 2 ^ (k + 1)
      rw [ncap, if_neg (by omega), wrap_of_lt (by omega), hpow, pow_succ, Nat.mul_assoc]

/-- A growth inside the file leads to no capacity that wraps. -/
theorem Grown.grow_of_ok {requests : ℕ} (hgr : Grown requests st h) (hok : ReadOk data reads st h)
    (hdata : data.length < 2 ^ 63) (hg : st.grow a h = (some st', h')) :
    Grown requests st' h' ∧ ReadOk data reads st' h' := by
  have hlen := hok.len_le
  refine ⟨hgr.grow (fun hfull => by omega) hg, ?_⟩
  rcases hok.grow hdata a with ⟨h₁, hg₁, _⟩ | ⟨st₁, h₁, hg₁, hok₁, -, -⟩
  · cases hg₁.symm.trans hg
  · cases hg₁.symm.trans hg
    exact hok₁

/-- The growths of the whole loop. -/
theorem readLoop_grown (hdata : data.length < 2 ^ 63) {requests fuel : ℕ}
    (hok : ReadOk data reads st h) (hgr : Grown requests st h)
    (he : readLoop a data reads fuel st h = some (.eof, st', h')) : Grown requests st' h' := by
  obtain ⟨st₀, h₀, st₁, ⟨hgr₀, hok₀⟩, hg, -, rfl⟩ :=
    readLoop_last_round (P := fun st h => Grown requests st h ∧ ReadOk data reads st h)
      (fun _ _ _ _ ⟨hgr, hok⟩ hg =>
        (hgr.grow_of_ok hok hdata hg).imp_right fun hok => (hok.fread hdata).1) _ _ _ ⟨hgr, hok⟩ he
  exact (hgr₀.grow_of_ok hok₀ hdata hg).1

/-- The number of doublings that lead past `n` bytes and not further. -/
theorem doublings_eq {k n : ℕ} (hlt : n < chunk * 2 ^ k) (hle : chunk * 2 ^ k ≤ max chunk (2 * n)) :
    k = Nat.size (n / chunk) := by
  have hpos : 0 < chunk := by decide
  apply Nat.le_antisymm
  · rcases k with _ | k
    · exact Nat.zero_le _
    · rw [Nat.succ_le_iff, Nat.lt_size, Nat.le_div_iff_mul_le hpos]
      have hone := Nat.one_le_two_pow (n := k)
      rw [pow_succ] at hle
      unfold chunk at *
      omega
  · rw [Nat.size_le, Nat.div_lt_iff_lt_mul hpos, Nat.mul_comm]
    exact hlt

/-! ## The trim -/

/-- The size of a sole block. -/
theorem sole_liveSize {log : List AllocEvent} {p size n : ℕ} (hs : Sole log (some p) size) :
    liveSize log p = some n ↔ n = size := by
  rw [hs.owns.live]
  show (p, n) ∈ [(p, size)] ↔ _
  rw [List.mem_singleton, Prod.mk.injEq, eq_self_iff_true, true_and]

/-- The end of the call: the trim is its last request, and decides about the size of the block. -/
theorem Held.readEnd {o : ReadOut} {heap : Heap} {p : ℕ} (hs : Held st h) (hne : st.len ≠ st.cap)
    (he : File.readEnd a .eof st h = (.ok, some o, heap)) (hp : o.data = some p) :
    o.size = st.len ∧ heap.requests = h.requests + 1 ∧
      (liveSize heap.log p = some st.len ↔ (a.alloc h.requests st.len maxAlign).isSome) := by
  unfold File.readEnd at he
  by_cases hz : st.len = 0
  · simp only [if_pos hz] at he
    cases he
    cases hp
  simp only [if_neg hz] at he
  rcases hb : a.alloc h.requests st.len maxAlign with _ | b
  · simp only [d4npRealloc, hb, Option.map_none] at he
    cases he
    have hsole : Sole (.realloc st.buf st.cap st.len maxAlign none :: h.log) (some p) st.cap := by
      rw [← show st.buf = some p from hp]
      exact hs.sole.realloc_refused maxAlign
    refine ⟨rfl, rfl, ?_⟩
    rw [sole_liveSize hsole]
    exact iff_of_false hne nofun
  · simp only [d4npRealloc, hb, Option.map_some] at he
    cases he
    cases hp
    have hsole : Sole (.realloc st.buf st.cap st.len maxAlign (some b.addr) :: h.log) (some b.addr)
        st.len := hs.sole.realloc_granted maxAlign b.addr
    refine ⟨rfl, rfl, ?_⟩
    exact iff_of_true ((sole_liveSize hsole).mpr rfl) rfl

/-- **The size handed out.** Whatever the file, the reads and the allocator: where the call succeeds
with a buffer, the live block has the size handed out exactly if the last request, the trim, was
granted.  For a file of `n` bytes, which is at most `OFF_MAX`, that is the request for `n` bytes
behind those for the first chunk and its doublings. -/
theorem readAll_trim_iff {fs : FileSystem} {path : Name} (hcontent : fs.content path = some data)
    {openOk : Bool} {requests calls p : ℕ} {o : ReadOut} {heap : Heap}
    (he : readAll a fs path openOk reads ⟨requests, []⟩ = some (.ok, some o, calls, heap))
    (hp : o.data = some p) :
    (liveSize heap.log p = some o.size ↔ (a.alloc (heap.requests - 1) o.size maxAlign).isSome) ∧
    (data.length < 2 ^ 63 → (liveSize heap.log p = some o.size ↔
      (a.alloc (requests + 1 + Nat.size (data.length / chunk)) data.length maxAlign).isSome)) := by
  have hheld : Held start ⟨requests, []⟩ := ⟨Sole.nil 0, by norm_num [start], by norm_num [start]⟩
  unfold readAll at he
  cases openOk with
  | false => cases he
  | true =>
    rw [if_pos rfl, hcontent] at he
    obtain ⟨⟨exit, st, h⟩, hloop, hend⟩ := Option.map_eq_some_iff.mp he
    cases exit with
    | refused | failed => cases hend
    | eof =>
      obtain ⟨hs, hne⟩ := readLoop_held hheld hloop
      rcases hr : readEnd a .eof st h with ⟨rc, out, heap'⟩
      simp only [hr] at hend
      cases hend
      obtain ⟨hsize, hreq, hiff⟩ := hs.readEnd hne hr hp
      rw [hsize, hreq, Nat.add_sub_cancel]
      refine ⟨hiff, fun hdata => ?_⟩
      -- the loop ended behind the last byte, with the capacity the growths led to
      obtain ⟨exit, st₁, h₁, hloop₁, hended⟩ := readLoop_ended hdata a (data.length + 1) start
        ⟨requests, []⟩ (readOk_start data reads requests) (Nat.le_add_left _ _)
      cases hloop.symm.trans hloop₁
      obtain ⟨hok, -, hlen, hlt⟩ := hended
      rcases readLoop_grown hdata (readOk_start data reads requests) (Or.inl ⟨rfl, rfl⟩) hloop with
        ⟨-, hcap⟩ | ⟨k, hk, hcap⟩
      · omega
      · have hcap' := hok.cap_le
        rw [hcap, hlen] at hcap' hlt
        rw [hiff, hk, hlen, doublings_eq hlt hcap', Nat.add_assoc, Nat.add_comm 1]

/-- A file of one byte, read with an allocator that grants everything up to a chunk. -/
theorem readAll_trim_iff_one_byte :
    ∃ o calls heap, readAll chunkAllocator oneFile [0x66] true (fun _ => ⟨0, false⟩) ⟨0, []⟩ =
      some (.ok, some o, calls, heap) ∧ o.size = 1 ∧ liveSize heap.log 131072 = some o.size := by
  obtain ⟨o, calls, heap, he, hp, hsize⟩ : ∃ o calls heap,
      readAll chunkAllocator oneFile [0x66] true (fun _ => ⟨0, false⟩) ⟨0, []⟩ =
        some (.ok, some o, calls, heap) ∧ o.data = some 131072 ∧ o.size = 1 :=
    ⟨_, _, _, rfl, rfl, rfl⟩
  have hcontent : oneFile.content [0x66] = some [9] := rfl
  exact ⟨o, calls, heap, he, hsize,
    ((readAll_trim_iff hcontent he hp).2 (by norm_num)).mpr (by decide)⟩

/-- An allocator that grants only the first request. -/
def firstAllocator : Allocator where
  alloc n size align := if n = 0 then chunkAllocator.alloc 0 size align else none
  addr_pos := by
    intro n size align b h
    split_ifs at h
    exact chunkAllocator.addr_pos h
  addr_le := by
    intro n size align b h
    split_ifs at h
    exact chunkAllocator.addr_le h
  addr_dvd := by
    intro n size align b h
    split_ifs at h
    exact chunkAllocator.addr_dvd h

/-- With that allocator the byte is handed out in a block of a whole chunk. -/
theorem readAll_untrimmed :
    ∃ o calls heap, readAll firstAllocator oneFile [0x66] true (fun _ => ⟨0, false⟩) ⟨0, []⟩ =
      some (.ok, some o, calls, heap) ∧ o.data = some 65536 ∧ o.size = 1 ∧
        liveSize heap.log 65536 = some 65536 := by
  exact ⟨_, _, _, rfl, rfl, rfl, rfl⟩

end File

end D4np
