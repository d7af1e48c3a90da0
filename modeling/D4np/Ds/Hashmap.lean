import D4np.Core.Allocator
import D4np.Lib.ByteMem

/-!
# The hash map

Open addressing with linear probing over three blocks: control bytes, keys and values.  A key is a
vector of `key_size` bytes and a value one of `value_size` bytes, stored at multiples of a stride.
The blocks are given by the pointers in the map and by their contents (`controlBytes`, `keyBytes`,
`valueBytes`).  The operations thread the allocator's heap.  A put reads its key and its value
through the caller's pointers once the table has grown, so a pointer into the table may be stale by
then; what a put does is determined by the bytes it reads (`put_eq_putBytes`).
-/

namespace D4np

open Word64 ByteMem

/-- A control byte. -/
inductive Slot
  | empty
  | occupied
  | deleted
  deriving DecidableEq, Repr

/-- `d4np_hash_fn` over keys of `n` bytes. -/
abbrev HashFn (n : ℕ) := Vector UInt8 n → UInt64

/-- `d4np_key_eq_fn` over keys of `n` bytes. -/
abbrev KeyEqFn (n : ℕ) := Vector UInt8 n → Vector UInt8 n → Bool

/-- `default_hash`: FNV-1a over the key bytes. -/
def defaultHash {n : ℕ} : HashFn n := fun key =>
  key.toList.foldl (fun h b => (h ^^^ b.toUInt64) * 1099511628211) 14695981039346656037

/-- `default_key_eq`: `memcmp` of the two keys. -/
def defaultKeyEq {n : ℕ} : KeyEqFn n := fun a b => decide (a = b)

/-- `d4np_hashmap_t` for keys of `ks` bytes and values of `vs` bytes. -/
structure Hashmap (ks vs : ℕ) where
  allocator : Allocator
  control : Option ℕ
  keys : Option ℕ
  values : Option ℕ
  controlBytes : List Slot
  keyBytes : Mem
  valueBytes : Mem
  keyStride : ℕ
  valueStride : ℕ
  capacity : ℕ
  len : ℕ
  tombstones : ℕ
  hash : HashFn ks
  keyEq : KeyEqFn ks

/-- How the loop of `locate` ends: at an empty slot, at the key, or after `capacity` probes. -/
inductive LocateExit
  | empty (slot : ℕ)
  | found (slot : ℕ)
  | exhausted (firstTomb : ℕ)
  deriving DecidableEq

namespace Hashmap

variable {ks vs : ℕ}

/-- `m->control[i]`. -/
def ctl (m : Hashmap ks vs) (i : ℕ) : Slot := m.controlBytes.getD i .empty

/-- The key at `key_slot(m, i)`. -/
def keyAt (m : Hashmap ks vs) (i : ℕ) : Vector UInt8 ks :=
  readAt m.keyBytes (wrap (i * m.keyStride)) ks

/-- The value at `value_slot(m, i)`. -/
def valueAt (m : Hashmap ks vs) (i : ℕ) : Vector UInt8 vs :=
  readAt m.valueBytes (wrap (i * m.valueStride)) vs

/-- `capacity - 1`. -/
def mask (m : Hashmap ks vs) : ℕ := sub m.capacity 1

/-- The slot a search for `key` starts at. -/
def home (m : Hashmap ks vs) (key : Vector UInt8 ks) : ℕ := (m.hash key).toNat &&& m.mask

/-- The slot probe number `probe` of a search from `start` looks at. -/
def probeSlot (m : Hashmap ks vs) (start probe : ℕ) : ℕ := wrap (start + probe) &&& m.mask

/-- The loop of `locate`, with `rem` probes left; `firstTomb` is `(size_t)-1` until a tombstone is
seen. -/
def locateLoop (m : Hashmap ks vs) (key : Vector UInt8 ks) (start : ℕ) : ℕ → ℕ → ℕ → LocateExit
  | 0, _, firstTomb => .exhausted firstTomb
  | rem + 1, probe, firstTomb =>
    let i := m.probeSlot start probe
    match m.ctl i with
    | .empty => .empty (if firstTomb ≠ sizeMax then firstTomb else i)
    | .occupied =>
      if m.keyEq (m.keyAt i) key then .found i
      else m.locateLoop key start rem (probe + 1) firstTomb
    | .deleted => m.locateLoop key start rem (probe + 1) (if firstTomb = sizeMax then i else firstTomb)

/-- The loop of `locate` from its start. -/
def locateExit (m : Hashmap ks vs) (key : Vector UInt8 ks) : LocateExit :=
  m.locateLoop key (m.home key) m.capacity 0 sizeMax

/-- `locate`: the slot, and whether the key was found there. -/
def locate (m : Hashmap ks vs) (key : Vector UInt8 ks) : ℕ × Bool :=
  match m.locateExit key with
  | .empty i => (i, false)
  | .found i => (i, true)
  | .exhausted firstTomb => (if firstTomb ≠ sizeMax then firstTomb else 0, false)

/-- Slot `j` becomes occupied by `key` and `value`. -/
def store (m : Hashmap ks vs) (j : ℕ) (key : Vector UInt8 ks) (value : Vector UInt8 vs) :
    Hashmap ks vs :=
  { m with
    controlBytes := m.controlBytes.set j .occupied
    keyBytes := writeAt m.keyBytes (wrap (j * m.keyStride)) key
    valueBytes := writeAt m.valueBytes (wrap (j * m.valueStride)) value }

/-- The inner loop of `resize`: the first empty slot from `start`, with `rem` probes left. -/
def findEmpty (m : Hashmap ks vs) (start : ℕ) : ℕ → ℕ → Option ℕ
  | 0, _ => none
  | rem + 1, probe =>
    let j := m.probeSlot start probe
    if m.ctl j = .empty then some j else m.findEmpty start rem (probe + 1)

/-- The slot of the new table that takes the key. -/
def reinsertSlot (m : Hashmap ks vs) (key : Vector UInt8 ks) : Option ℕ :=
  m.findEmpty (m.home key) m.capacity 0

/-- One round of the outer loop of `resize`: slot `i` of the old table goes into the new one. -/
def rehashStep (old : Hashmap ks vs) (i : ℕ) (m : Hashmap ks vs) : Hashmap ks vs :=
  if old.ctl i ≠ .occupied then m
  else
    match m.reinsertSlot (old.keyAt i) with
    | none => m
    | some j => m.store j (old.keyAt i) (old.valueAt i)

/-- The outer loop of `resize`, after `n` rounds. -/
def rehash (old new : Hashmap ks vs) : ℕ → Hashmap ks vs
  | 0 => new
  | n + 1 => old.rehashStep n (old.rehash new n)

/-- The map with the new, empty table swapped in. -/
def withTable (m : Hashmap ks vs) (newCapacity : ℕ) (nc nk nv : Block) : Hashmap ks vs :=
  { m with
    control := some nc.addr
    keys := some nk.addr
    values := some nv.addr
    controlBytes := List.replicate newCapacity .empty
    keyBytes := nk.bytes
    valueBytes := nv.bytes
    capacity := newCapacity
    tombstones := 0 }

/-- `resize`. A stride of zero would divide by zero in the source; here the quotient is zero. -/
def resize (m : Hashmap ks vs) (newCapacity : ℕ) (h : Heap) : Status × Hashmap ks vs × Heap :=
  if newCapacity > sizeMax / m.keyStride ∨ newCapacity > sizeMax / m.valueStride then
    (.errOverflow, m, h)
  else
    let keySpan := wrap (newCapacity * m.keyStride)
    let valueSpan := wrap (newCapacity * m.valueStride)
    let (nc, h) := d4npAlloc m.allocator newCapacity maxAlign h
    let (nk, h) := d4npAlloc m.allocator keySpan maxAlign h
    let (nv, h) := d4npAlloc m.allocator valueSpan maxAlign h
    match nc, nk, nv with
    | some bc, some bk, some bv =>
      let h := d4npFree m.control m.capacity h
      let h := d4npFree m.keys (wrap (m.capacity * m.keyStride)) h
      let h := d4npFree m.values (wrap (m.capacity * m.valueStride)) h
      (.ok, m.rehash (m.withTable newCapacity bc bk bv) m.capacity, h)
    | nc, nk, nv =>
      let h := d4npFree (nc.map Block.addr) newCapacity h
      let h := d4npFree (nk.map Block.addr) keySpan h
      let h := d4npFree (nv.map Block.addr) valueSpan h
      (.errOutOfMemory, m, h)

/-- `D4NP_HASHMAP_MIN_CAPACITY`. -/
def minCapacity : ℕ := 8

/-- `next_pow2_at_least` of `hashmap.c`. -/
def nextPow2AtLeast (n : ℕ) : ℕ := nextPow2Loop n 64 minCapacity

/-- The map before its first allocation. -/
def lazyMap (allocator : Allocator) (hash : Option (HashFn ks)) (keyEq : Option (KeyEqFn ks)) :
    Hashmap ks vs where
  allocator := allocator
  control := none
  keys := none
  values := none
  controlBytes := []
  keyBytes := fun _ => 0
  valueBytes := fun _ => 0
  keyStride := roundUp ks maxAlign
  valueStride := roundUp vs maxAlign
  capacity := 0
  len := 0
  tombstones := 0
  hash := hash.getD defaultHash
  keyEq := keyEq.getD defaultKeyEq

/-- `d4np_hashmap_init`: the status and the map, which is there even when its first table was
refused. -/
def init (allocator : Allocator) (ks vs initialCapacity : ℕ) (hash : Option (HashFn ks))
    (keyEq : Option (KeyEqFn ks)) (h : Heap) : Status × Option (Hashmap ks vs) × Heap :=
  if ks = 0 ∨ vs = 0 then (.errInvalidArgument, none, h)
  else
    let m : Hashmap ks vs := lazyMap allocator hash keyEq
    if initialCapacity > 0 then
      let (rc, m, h) := m.resize (nextPow2AtLeast initialCapacity) h
      (rc, some m, h)
    else (.ok, some m, h)

/-- `d4np_hashmap_destroy`. -/
def destroy (m : Hashmap ks vs) (h : Heap) : Hashmap ks vs × Heap :=
  if m.control = none then (m, h)
  else
    let h := d4npFree m.control m.capacity h
    let h := d4npFree m.keys (wrap (m.capacity * m.keyStride)) h
    let h := d4npFree m.values (wrap (m.capacity * m.valueStride)) h
    ({ m with
      control := none
      keys := none
      values := none
      capacity := 0
      len := 0
      tombstones := 0 }, h)

/-- The part of `d4np_hashmap_put` after the table has room. -/
def insert (m : Hashmap ks vs) (key : Vector UInt8 ks) (value : Vector UInt8 vs) : Hashmap ks vs :=
  match m.locate key with
  | (i, true) => { m with valueBytes := writeAt m.valueBytes (wrap (i * m.valueStride)) value }
  | (i, false) =>
    let tombstones := if m.ctl i = .deleted then sub m.tombstones 1 else m.tombstones
    { m.store i key value with tombstones := tombstones, len := wrap (m.len + 1) }

/-- The load test of `d4np_hashmap_put`. -/
def needsGrowth (m : Hashmap ks vs) : Prop :=
  wrap (wrap (wrap (m.len + m.tombstones) + 1) * 4) ≥ wrap (m.capacity * 3)

instance (m : Hashmap ks vs) : Decidable m.needsGrowth :=
  inferInstanceAs (Decidable (_ ≥ _))

/-- The capacity `d4np_hashmap_put` grows to. -/
def grown (m : Hashmap ks vs) : ℕ := if m.capacity = 0 then minCapacity else wrap (m.capacity * 2)

/-- A pointer given to a call: to `n` bytes of the caller's own, or to an address in the block of
values, as `d4np_hashmap_get` hands it out; nothing hands out a pointer to a stored key. -/
inductive Pointer (n : ℕ)
  | own (bytes : Vector UInt8 n)
  | table (addr : ℕ)

/-- The bytes a pointer leads to. -/
def Pointer.read {n : ℕ} (m : Hashmap ks vs) : Pointer n → Vector UInt8 n
  | .own bytes => bytes
  | .table addr => readAt m.valueBytes (addr - m.values.getD 0) n

/-- The bytes a pointer leads to when the block of values has been freed and the memory is
`freed`. -/
def Pointer.readFreed {n : ℕ} (freed : Mem) : Pointer n → Vector UInt8 n
  | .own bytes => bytes
  | .table addr => readAt freed addr n

/-- `d4np_hashmap_put`; a null key or value is `none`.  Both are read when the table has grown and
the old blocks are freed, and `freed` is what the memory holds then. -/
def put (m : Hashmap ks vs) (key : Option (Pointer ks)) (value : Option (Pointer vs)) (freed : Mem)
    (h : Heap) : Status × Hashmap ks vs × Heap :=
  match key, value with
  | some key, some value =>
    if m.needsGrowth then
      match m.resize m.grown h with
      | (.ok, m, h) => (.ok, m.insert (key.readFreed freed) (value.readFreed freed), h)
      | (rc, m, h) => (rc, m, h)
    else (.ok, m.insert (key.read m) (value.read m), h)
  | _, _ => (.errInvalidArgument, m, h)

/-- `d4np_hashmap_put` given the bytes that it reads through its pointers (`put_eq_putBytes`). -/
def putBytes (m : Hashmap ks vs) (key : Option (Vector UInt8 ks)) (value : Option (Vector UInt8 vs))
    (h : Heap) : Status × Hashmap ks vs × Heap :=
  match key, value with
  | some key, some value =>
    if m.needsGrowth then
      match m.resize m.grown h with
      | (.ok, m, h) => (.ok, m.insert key value, h)
      | (rc, m, h) => (rc, m, h)
    else (.ok, m.insert key value, h)
  | _, _ => (.errInvalidArgument, m, h)

/-- `d4np_hashmap_get`: the slot whose value the pointer returned points at. -/
def get (m : Hashmap ks vs) (key : Option (Vector UInt8 ks)) : Option ℕ :=
  match key with
  | none => none
  | some key =>
    if m.capacity = 0 then none
    else
      match m.locate key with
      | (i, true) => some i
      | (_, false) => none

/-- `d4np_hashmap_contains`. -/
def contains (m : Hashmap ks vs) (key : Option (Vector UInt8 ks)) : Bool := (m.get key).isSome

/-- `d4np_hashmap_remove`. -/
def remove (m : Hashmap ks vs) (key : Option (Vector UInt8 ks)) : Bool × Hashmap ks vs :=
  match key with
  | none => (false, m)
  | some key =>
    if m.capacity = 0 then (false, m)
    else
      match m.locate key with
      | (_, false) => (false, m)
      | (i, true) =>
        (true, { m with
          controlBytes := m.controlBytes.set i .deleted
          len := sub m.len 1
          tombstones := wrap (m.tombstones + 1) })

/-- `d4np_hashmap_clear`. -/
def clear (m : Hashmap ks vs) : Hashmap ks vs :=
  if m.control = none then m
  else { m with
    controlBytes := List.replicate m.capacity .empty
    len := 0
    tombstones := 0 }

/-- The bytes `d4np_hashmap_get` points at. -/
def lookup (m : Hashmap ks vs) (key : Vector UInt8 ks) : Option (Vector UInt8 vs) :=
  (m.get (some key)).map m.valueAt

/-! ## Pointers and bytes -/

end Hashmap

end D4np
