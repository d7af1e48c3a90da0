import Mathlib.Tactic.NormNum

/-!
# Byte memory

A memory maps addresses to bytes.  A field of `n` bytes is read and written as a whole (`readAt`,
`writeAt`), a pointer as eight bytes with the least significant first (`loadWord`, `storeWord`), a
range and the front of a buffer as lists (`bytesAt`, `front`, `writeList`).  Reading back what was
written gives it (`readAt_writeAt`, `loadWord_storeWord`, `front_writeList`); reading where nothing
was written gives what was there (`readAt_congr`, `loadWord_congr`, `front_congr`).
-/

namespace ByteMem

/-- A memory. -/
abbrev Mem := ℕ → UInt8

/-! ## Fields -/

/-- The `n` bytes at `a`. -/
def readAt (m : Mem) (a n : ℕ) : Vector UInt8 n := Vector.ofFn fun j => m (a + j)

/-- The memory with `v` written at `a`. -/
def writeAt {n : ℕ} (m : Mem) (a : ℕ) (v : Vector UInt8 n) : Mem :=
  fun x => if h : a ≤ x ∧ x - a < n then v[x - a] else m x

theorem readAt_congr {m m' : Mem} {a n : ℕ} (h : ∀ j < n, m (a + j) = m' (a + j)) :
    readAt m a n = readAt m' a n := by
  unfold readAt
  congr 1
  funext j
  exact h j j.isLt

@[simp] theorem readAt_writeAt {n : ℕ} (m : Mem) (a : ℕ) (v : Vector UInt8 n) :
    readAt (writeAt m a v) a n = v := by
  apply Vector.ext
  intro j hj
  simp [readAt, writeAt]

/-- A write leaves alone what lies before or after it. -/
theorem writeAt_of_not_mem {n : ℕ} (m : Mem) {a x : ℕ} (v : Vector UInt8 n)
    (h : x < a ∨ a + n ≤ x) : writeAt m a v x = m x := by
  unfold writeAt
  rw [dif_neg (by omega)]

theorem readAt_writeAt_of_disjoint {n k : ℕ} (m : Mem) {a b : ℕ} (v : Vector UInt8 n)
    (h : b + k ≤ a ∨ a + n ≤ b) : readAt (writeAt m a v) b k = readAt m b k :=
  readAt_congr fun _ _ => writeAt_of_not_mem m v (by omega)

/-- A field ends before the next one begins. -/
theorem span_end_le {i j : ℕ} (h : i < j) (stride : ℕ) : i * stride + stride ≤ j * stride := by
  have hle := Nat.mul_le_mul_right stride (Nat.succ_le_of_lt h)
  rwa [Nat.succ_mul] at hle

/-- Fields at different multiples of a stride do not overlap. -/
theorem span_disjoint {i j size stride : ℕ} (hij : i ≠ j) (hle : size ≤ stride) :
    i * stride + size ≤ j * stride ∨ j * stride + size ≤ i * stride := by
  rcases Nat.lt_or_gt_of_ne hij with h | h
  · left
    have := span_end_le h stride
    omega
  · right
    have := span_end_le h stride
    omega

/-! ## Pointers -/

/-- The eight bytes at `a`, least significant first. -/
def loadWord (m : Mem) (a : ℕ) : ℕ :=
  (m a).toNat + 256 * ((m (a + 1)).toNat + 256 * ((m (a + 2)).toNat + 256 * ((m (a + 3)).toNat +
    256 * ((m (a + 4)).toNat + 256 * ((m (a + 5)).toNat + 256 * ((m (a + 6)).toNat +
      256 * (m (a + 7)).toNat))))))

/-- The memory with the word `p` stored at `a`. -/
def storeWord (m : Mem) (a p : ℕ) : Mem :=
  fun x => if a ≤ x ∧ x < a + 8 then UInt8.ofNat (p / 256 ^ (x - a)) else m x

theorem storeWord_of_not_mem (m : Mem) {a p x : ℕ} (h : x < a ∨ a + 8 ≤ x) :
    storeWord m a p x = m x := by
  unfold storeWord
  rw [if_neg (by omega)]

theorem storeWord_byte (m : Mem) (a p : ℕ) {j : ℕ} (hj : j < 8) :
    (storeWord m a p (a + j)).toNat = p / 256 ^ j % 256 := by
  unfold storeWord
  rw [if_pos (by omega), Nat.add_sub_cancel_left]
  simp

theorem loadWord_congr {m m' : Mem} {a : ℕ} (h : ∀ j < 8, m (a + j) = m' (a + j)) :
    loadWord m a = loadWord m' a := by
  have h0 := h 0 (by norm_num)
  rw [Nat.add_zero] at h0
  unfold loadWord
  rw [h0, h 1 (by norm_num), h 2 (by norm_num), h 3 (by norm_num), h 4 (by norm_num),
    h 5 (by norm_num), h 6 (by norm_num), h 7 (by norm_num)]

theorem loadWord_storeWord (m : Mem) (a : ℕ) {p : ℕ} (hp : p < 2 ^ 64) :
    loadWord (storeWord m a p) a = p := by
  have h0 := storeWord_byte m a p (show 0 < 8 by norm_num)
  rw [Nat.add_zero] at h0
  unfold loadWord
  rw [h0, storeWord_byte m a p (show 1 < 8 by norm_num),
    storeWord_byte m a p (show 2 < 8 by norm_num), storeWord_byte m a p (show 3 < 8 by norm_num),
    storeWord_byte m a p (show 4 < 8 by norm_num), storeWord_byte m a p (show 5 < 8 by norm_num),
    storeWord_byte m a p (show 6 < 8 by norm_num), storeWord_byte m a p (show 7 < 8 by norm_num)]
  omega

theorem loadWord_storeWord_of_disjoint (m : Mem) {a b p : ℕ} (h : b + 8 ≤ a ∨ a + 8 ≤ b) :
    loadWord (storeWord m a p) b = loadWord m b :=
  loadWord_congr fun _ _ => storeWord_of_not_mem m (by omega)

/-! ## Ranges -/

/-- The `n` bytes at `a`, as a list. -/
def bytesAt (m : Mem) (a n : ℕ) : List UInt8 := (List.range n).map fun i => m (a + i)

@[simp] theorem bytesAt_length (m : Mem) (a n : ℕ) : (bytesAt m a n).length = n := by
  simp [bytesAt]

theorem bytesAt_add (m : Mem) (a n k : ℕ) :
    bytesAt m a (n + k) = bytesAt m a n ++ bytesAt m (a + n) k := by
  unfold bytesAt
  rw [List.range_add, List.map_append, List.map_map]
  congr 1
  apply List.map_congr_left
  intro i _
  show m (a + (n + i)) = m (a + n + i)
  rw [Nat.add_assoc]

theorem bytesAt_succ (m : Mem) (a n : ℕ) : bytesAt m a (n + 1) = m a :: bytesAt m (a + 1) n := by
  rw [Nat.add_comm n 1, bytesAt_add]
  rfl

theorem bytesAt_succ_last (m : Mem) (a n : ℕ) :
    bytesAt m a (n + 1) = bytesAt m a n ++ [m (a + n)] := bytesAt_add m a n 1

theorem bytesAt_congr {m m' : Mem} {a n : ℕ} (h : ∀ i < n, m (a + i) = m' (a + i)) :
    bytesAt m a n = bytesAt m' a n :=
  List.map_congr_left fun i hi => h i (List.mem_range.mp hi)

/-! ## Buffers -/

/-- The first `n` bytes. -/
def front (m : Mem) (n : ℕ) : List UInt8 := (List.range n).map m

/-- The memory with the list `l` written at `a`. -/
def writeList (m : Mem) (a : ℕ) (l : List UInt8) : Mem :=
  fun x => if a ≤ x then (l[x - a]?).getD (m x) else m x

@[simp] theorem front_length (m : Mem) (n : ℕ) : (front m n).length = n := by
  simp [front]

theorem front_congr {m m' : Mem} {n : ℕ} (h : ∀ x < n, m x = m' x) : front m n = front m' n :=
  List.map_congr_left fun x hx => h x (List.mem_range.mp hx)

theorem front_add (m : Mem) (n k : ℕ) : front m (n + k) = front m n ++ bytesAt m n k := by
  unfold front bytesAt
  rw [List.range_add, List.map_append, List.map_map]
  rfl

theorem writeList_of_lt (m : Mem) {a x : ℕ} (l : List UInt8) (h : x < a) :
    writeList m a l x = m x := if_neg (by omega)

/-- A list written behind the front lengthens it. -/
theorem front_writeList (m : Mem) (n : ℕ) (l : List UInt8) :
    front (writeList m n l) (n + l.length) = front m n ++ l := by
  unfold front
  rw [List.range_add, List.map_append, List.map_map]
  congr 1
  · exact List.map_congr_left fun x hx => writeList_of_lt m l (List.mem_range.mp hx)
  · apply List.ext_getElem
    · simp
    · intro j hj hj'
      simp [writeList, hj']

theorem writeList_of_ge (m : Mem) {a x : ℕ} (l : List UInt8) (h : a + l.length ≤ x) :
    writeList m a l x = m x := by
  unfold writeList
  rw [if_pos (by omega), List.getElem?_eq_none (by omega)]
  rfl

@[simp] theorem writeList_nil (m : Mem) (a : ℕ) : writeList m a [] = m := by
  funext x
  unfold writeList
  split_ifs <;> rfl

theorem bytesAt_writeList (m : Mem) (a : ℕ) (l : List UInt8) :
    bytesAt (writeList m a l) a l.length = l := by
  apply List.ext_getElem
  · exact bytesAt_length _ _ _
  · intro j hj hj'
    simp [bytesAt, writeList, hj']

theorem bytesAt_writeList_of_lt (m : Mem) {a b n : ℕ} (l : List UInt8) (h : b + n ≤ a) :
    bytesAt (writeList m a l) b n = bytesAt m b n :=
  bytesAt_congr fun i hi => writeList_of_lt m l (by omega)

/-- Two lists written one behind the other. -/
theorem writeList_append (m : Mem) (a : ℕ) (l l' : List UInt8) :
    writeList (writeList m a l) (a + l.length) l' = writeList m a (l ++ l') := by
  funext x
  by_cases hx : a + l.length ≤ x
  · have hsub : x - (a + l.length) = x - a - l.length := by omega
    simp only [writeList, if_pos hx, if_pos (show a ≤ x by omega), hsub,
      List.getElem?_append_right (show l.length ≤ x - a by omega),
      List.getElem?_eq_none (show l.length ≤ x - a by omega), Option.getD_none]
  · rw [writeList_of_lt _ _ (by omega)]
    by_cases ha : a ≤ x
    · simp only [writeList, if_pos ha, List.getElem?_append_left (show x - a < l.length by omega)]
    · rw [writeList_of_lt _ _ (by omega), writeList_of_lt _ _ (by omega)]

/-- What is written behind the front leaves it alone. -/
theorem front_writeList_of_le (m : Mem) {n a : ℕ} (l : List UInt8) (h : n ≤ a) :
    front (writeList m a l) n = front m n :=
  front_congr fun _ hx => writeList_of_lt m l (by omega)

end ByteMem
