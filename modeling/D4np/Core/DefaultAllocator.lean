import D4np.Core.Ledger
import D4np.Lib.Malloc

/-!
# The default allocator

The functions behind `d4np_allocator_default` pass a request on to the C library, or turn it away.
Two of their answers look alike to a container: a `NULL` from `realloc` leaves the old block live,
while a request to resize to nothing frees it and returns `NULL` too.  A container that asked for
that would go on to release the block a second time.

A container is careful (`Careful`) if it asks for blocks of positive size with an alignment the
allocator accepts, and names live blocks with their sizes in every release and reallocation, as
long as the allocator has been honest.  `Booked` is the ledger of a careful container, and follows
it through its requests and releases as `Accounts` does.  The calls of the library that a careful
container causes are safe (`Careful.safe`), and the library's heap is then its ledger.
-/

namespace D4np

/-! ## The code -/

/-- `align_ok`. -/
def alignOk (align : ℕ) : Bool := align ≤ maxAlign

/-- `default_alloc`: the call of the library it makes, and what it returns when the library answers
`malloc`. -/
def defaultAlloc (size align : ℕ) (malloc : Option ℕ) : Option Malloc.Call × Option ℕ :=
  if size = 0 ∨ alignOk align = false then (none, none) else (some (.malloc size malloc), malloc)

/-- `default_realloc`. -/
def defaultRealloc (ptr : Option ℕ) (newSize align : ℕ) (realloc : Option ℕ) :
    Option Malloc.Call × Option ℕ :=
  if alignOk align = false then (none, none)
  else if newSize = 0 then (some (.free ptr), none)
  else (some (.realloc ptr newSize realloc), realloc)

/-- `default_free`. -/
def defaultFree (ptr : Option ℕ) : Option Malloc.Call := some (.free ptr)

namespace AllocEvent

/-- What the container was answered. -/
def result : AllocEvent → Option ℕ
  | .alloc _ _ r => r
  | .realloc _ _ _ _ r => r
  | .free _ _ => none

/-- An event served by the default allocator, when the library answers what the container was
answered: the call of the library, and what the allocator returns. -/
def libc : AllocEvent → Option Malloc.Call × Option ℕ
  | .alloc size align r => defaultAlloc size align r
  | .realloc ptr _ newSize align r => defaultRealloc ptr newSize align r
  | .free ptr _ => (defaultFree ptr, none)

/-- A request the default allocator passes on as it is. -/
def Ordinary : AllocEvent → Prop
  | .alloc size align _ => 0 < size ∧ align ≤ maxAlign
  | .realloc _ _ newSize align _ => 0 < newSize ∧ align ≤ maxAlign
  | .free _ _ => True

/-- What a release or a reallocation says of the block it names is true. -/
def NamesLive (log : List AllocEvent) : AllocEvent → Prop
  | .free (some p) size => liveSize log p = some size
  | .realloc (some p) oldSize _ _ _ => liveSize log p = some oldSize
  | _ => True

/-- The call of the library that an ordinary event makes. -/
def call : AllocEvent → Malloc.Call
  | .alloc size _ r => .malloc size r
  | .realloc ptr _ newSize _ r => .realloc ptr newSize r
  | .free ptr _ => .free ptr

variable {e : AllocEvent} {log : List AllocEvent}

theorem Ordinary.libc_eq (h : e.Ordinary) : e.libc = (some e.call, e.result) := by
  rcases e with ⟨size, align, r⟩ | ⟨ptr, oldSize, newSize, align, r⟩ | ⟨ptr, size⟩
  · have hok : alignOk align = true := decide_eq_true h.2
    have hpos := h.1
    show defaultAlloc size align r = _
    rw [defaultAlloc, if_neg (by rw [hok]; simp; omega)]
    rfl
  · have hok : alignOk align = true := decide_eq_true h.2
    have hpos := h.1
    show defaultRealloc ptr newSize align r = _
    rw [defaultRealloc, if_neg (by rw [hok]; nofun), if_neg (by omega)]
    rfl
  · rfl

end AllocEvent

/-- Every event is ordinary, and names live blocks as long as the allocator has been honest. -/
def Careful : List AllocEvent → Prop
  | [] => True
  | e :: log => Careful log ∧ e.Ordinary ∧ (Honest log → e.NamesLive log)

/-- The calls of the library that a log caused. -/
def libcCalls (log : List AllocEvent) : List Malloc.Call := log.filterMap fun e => e.libc.1

section Library

variable {e : AllocEvent} {log : List AllocEvent}

theorem libcCalls_cons (h : e.Ordinary) : libcCalls (e :: log) = e.call :: libcCalls log := by
  rw [libcCalls, List.filterMap_cons, h.libc_eq]
  rfl

/-- A release of a live block, or of none. -/
theorem release_liveSize {ptr : Option ℕ} {size : ℕ}
    (h : ∀ p, ptr = some p → liveSize log p = some size) :
    Malloc.Heap.release (liveSize log) ptr = some (liveSize (.free ptr size :: log)) := by
  rcases ptr with _ | p
  · rfl
  · show (if liveSize log p = none then none else some _) = some _
    rw [if_neg (by rw [h p rfl]; nofun)]
    congr 1
    funext x
    by_cases hx : x = p
    · subst hx
      rw [Function.update_self, liveSize, if_pos rfl]
    · rw [Function.update_of_ne hx, liveSize, if_neg hx]

/-- A call that names a live block does in the library what it does in the ledger. -/
theorem step_liveSize (h : e.NamesLive log) :
    Malloc.Heap.step (liveSize log) e.call = some (liveSize (e :: log)) := by
  rcases e with ⟨size, align, _ | q⟩ | ⟨ptr, oldSize, newSize, align, r⟩ | ⟨ptr, size⟩
  · rfl
  · show some (Function.update (liveSize log) q (some size)) = _
    congr 1
    funext x
    by_cases hx : x = q
    · subst hx
      rw [Function.update_self, liveSize, if_pos rfl]
    · rw [Function.update_of_ne hx, liveSize, if_neg hx]
  · have hr : Malloc.Heap.release (liveSize log) ptr =
        some (liveSize (.free ptr oldSize :: log)) := by
      refine release_liveSize fun p hp => ?_
      subst hp
      exact h
    rcases r with _ | q
    · show (Malloc.Heap.release (liveSize log) ptr).map _ = _
      rw [hr]
      rfl
    · show (Malloc.Heap.release (liveSize log) ptr).map _ = _
      rw [hr, Option.map_some]
      congr 1
      funext x
      show Function.update (liveSize (.free ptr oldSize :: log)) q (some newSize) x = _
      by_cases hx : x = q
      · rw [hx, Function.update_self, liveSize, if_pos rfl]
      · rw [Function.update_of_ne hx]
        rcases ptr with _ | p
        · simp only [liveSize, if_neg hx, reduceCtorEq, if_false]
        · simp only [liveSize, if_neg hx, Option.some.injEq, eq_comm (a := p)]
  · refine release_liveSize fun p hp => ?_
    subst hp
    exact h

theorem honest_cons_iff :
    Honest (e :: log) ↔ Honest log ∧ Malloc.Heap.Admissible (liveSize log) e.call := by
  rcases e with ⟨_, _, _ | q⟩ | ⟨ptr, _, _, _, _ | q⟩ | ⟨ptr, _⟩
  · exact ⟨fun h => ⟨h, trivial⟩, And.left⟩
  · exact and_comm
  · exact ⟨fun h => ⟨h, trivial⟩, And.left⟩
  · exact and_comm
  · exact ⟨fun h => ⟨h, trivial⟩, And.left⟩

/-- **The library behind a careful container.** The calls it causes are safe, and where the
library's answers were admissible the heap is the ledger. -/
theorem Careful.safe (h : Careful log) :
    Malloc.Safe (libcCalls log) ∧ (Malloc.Served (libcCalls log) →
      Honest log ∧ Malloc.after (libcCalls log) = some (liveSize log)) := by
  induction log with
  | nil => exact ⟨trivial, fun _ => ⟨trivial, rfl⟩⟩
  | cons e log ih =>
    obtain ⟨hlog, hord, hnames⟩ := h
    obtain ⟨hsafe, hheap⟩ := ih hlog
    rw [libcCalls_cons hord]
    refine ⟨⟨hsafe, fun hserved x hx => ?_⟩, fun ⟨hserved, hadm⟩ => ?_⟩
    · obtain ⟨hh, hafter⟩ := hheap hserved
      obtain rfl := Option.some.inj (hafter.symm.trans hx)
      exact ⟨_, step_liveSize (hnames hh)⟩
    · obtain ⟨hh, hafter⟩ := hheap hserved
      refine ⟨honest_cons_iff.mpr ⟨hh, hadm _ hafter⟩, ?_⟩
      rw [Malloc.after, hafter]
      exact step_liveSize (hnames hh)

end Library

/-! ## Following a careful container -/

/-- A careful log, and the blocks that are live after it. -/
structure Booked (log : List AllocEvent) (blocks : List (ℕ × ℕ)) : Prop where
  careful : Careful log
  accounts : Accounts log blocks

namespace Booked

variable {log : List AllocEvent} {blocks blocks' : List (ℕ × ℕ)} {ptr : Option ℕ} {h : Heap}
  {size newSize align : ℕ}

theorem nil : Booked [] [] := ⟨trivial, Accounts.nil⟩

theorem perm (ht : Booked log blocks) (hp : blocks.Perm blocks') : Booked log blocks' :=
  ⟨ht.careful, ht.accounts.perm hp⟩

theorem alloc (ht : Booked h.log blocks) (a : Allocator) (hsize : 0 < size)
    (halign : align ≤ maxAlign) :
    Booked (d4npAlloc a size align h).2.log
      (block ((d4npAlloc a size align h).1.map Block.addr) size ++ blocks) :=
  ⟨⟨ht.careful, ⟨hsize, halign⟩, fun _ => trivial⟩, ht.accounts.alloc a size align⟩

/-- A block of the ledger is live. -/
theorem live (ht : Booked log (block ptr size ++ blocks)) (hh : Honest log) {p : ℕ}
    (hp : ptr = some p) : liveSize log p = some size := by
  subst hp
  exact ((ht.accounts hh).live p size).mpr List.mem_cons_self

theorem free (ht : Booked h.log blocks) (hp : blocks.Perm (block ptr size ++ blocks')) :
    Booked (d4npFree ptr size h).log blocks' := by
  refine ⟨⟨ht.careful, trivial, fun hh => ?_⟩, ht.accounts.free hp⟩
  rcases ptr with _ | p
  · trivial
  · exact (ht.perm hp).live hh rfl

/-- A container of one block asks for another size. -/
theorem realloc (ht : Booked log (block ptr size)) (hsize : 0 < newSize)
    (halign : align ≤ maxAlign) :
    Booked (.realloc ptr size newSize align none :: log) (block ptr size) ∧
    ∀ q, Booked (.realloc ptr size newSize align (some q) :: log) (block (some q) newSize) := by
  rw [← List.append_nil (block ptr size)] at ht ⊢
  have hnames : ∀ r, Careful (.realloc ptr size newSize align r :: log) := by
    refine fun r => ⟨ht.careful, ⟨hsize, halign⟩, fun hh => ?_⟩
    rcases ptr with _ | p
    · trivial
    · exact ht.live hh rfl
  exact ⟨⟨hnames none, fun hh => (ht.accounts hh).realloc_refused align⟩,
    fun q => ⟨hnames (some q), fun hh => (ht.accounts hh.tail).realloc_granted hh⟩⟩

end Booked

/-! ## Sharing the default allocator -/

section Share

variable {ι : Type*} [DecidableEq ι]

/-- The events of one container in the history of a process. -/
def ownEvents (i : ι) (history : List (ι × AllocEvent)) : List AllocEvent :=
  history.filterMap fun x => if x.1 = i then some x.2 else none

/-- The calls of the library, with the container that caused each. -/
def taggedCalls (history : List (ι × AllocEvent)) : List (ι × Malloc.Call) :=
  history.filterMap fun x => x.2.libc.1.map fun c => (x.1, c)

omit [DecidableEq ι] in
theorem taggedCalls_snd (history : List (ι × AllocEvent)) :
    (taggedCalls history).map Prod.snd = libcCalls (history.map Prod.snd) := by
  rw [taggedCalls, libcCalls, List.map_filterMap, List.filterMap_map]
  congr 1
  funext x
  simp [Option.map_map, Function.comp_def]

theorem mine_taggedCalls (i : ι) (history : List (ι × AllocEvent)) :
    Malloc.mine i (taggedCalls history) = libcCalls (ownEvents i history) := by
  rw [Malloc.mine, taggedCalls, libcCalls, ownEvents, List.filterMap_filterMap,
    List.filterMap_filterMap]
  congr 1
  funext x
  by_cases hx : x.1 = i
  · rw [if_pos hx, Option.bind_some]
    rcases x.2.libc.1 with _ | c
    · rfl
    · simp [hx]
  · rw [if_neg hx]
    rcases x.2.libc.1 with _ | c
    · rfl
    · simp [hx]

theorem Careful.ordinary {log : List AllocEvent} (h : Careful log) : ∀ e ∈ log, e.Ordinary := by
  induction log with
  | nil => exact fun _ he => absurd he List.not_mem_nil
  | cons e log ih =>
    rintro x hx
    rcases List.mem_cons.mp hx with rfl | hx
    · exact h.2.1
    · exact ih h.1 x hx

/-- **Careful containers share the default allocator.** Whatever the order of their calls, every
request reaches the library and no call of the library is undefined; its heap holds exactly the
blocks of the containers, and no address is in the ledgers of two of them. -/
theorem Booked.share {history : List (ι × AllocEvent)} {blocks : ι → List (ℕ × ℕ)}
    (ht : ∀ i, Booked (ownEvents i history) (blocks i))
    (hs : Malloc.Served (libcCalls (history.map Prod.snd))) :
    (∀ x ∈ history, x.2.libc = (some x.2.call, x.2.result)) ∧
    ∃ heap, Malloc.after (libcCalls (history.map Prod.snd)) = some heap ∧
      (∀ p n, heap p = some n ↔ ∃ i, (p, n) ∈ blocks i) ∧
      ∀ i j p n m, (p, n) ∈ blocks i → (p, m) ∈ blocks j → i = j := by
  refine ⟨fun x hx => ?_, ?_⟩
  · have hmem : x.2 ∈ ownEvents x.1 history :=
      List.mem_filterMap.mpr ⟨x, hx, if_pos rfl⟩
    exact ((ht x.1).careful.ordinary _ hmem).libc_eq
  rw [← taggedCalls_snd] at hs ⊢
  obtain ⟨heap, part, hafter, hp, hpart⟩ := Malloc.Safe.share (fun i => by
    rw [mine_taggedCalls]
    exact (ht i).careful.safe.1) hs
  -- the part of a container is its ledger
  have hlive : ∀ i p n, part i p = some n ↔ (p, n) ∈ blocks i := by
    intro i p n
    obtain ⟨hserved, hi⟩ := hpart i
    rw [mine_taggedCalls] at hserved hi
    obtain ⟨hh, hown⟩ := (ht i).careful.safe.2 hserved
    rw [Option.some.inj (hi.symm.trans hown)]
    exact ((ht i).accounts hh).live p n
  refine ⟨heap, hafter, fun p n => (hp.live p n).trans (exists_congr fun i => hlive i p n), ?_⟩
  intro i j p n m hn hm
  refine hp.apart (p := p) ?_ ?_
  · rw [(hlive i p n).mpr hn]
    nofun
  · rw [(hlive j p m).mpr hm]
    nofun

end Share

end D4np
