import D4np.Core.Size
import D4np.Lib.Chain
import D4np.Lib.TransitionSystem
import Mathlib.Data.Fintype.Card
import Mathlib.Tactic

/-!
# The intrusive doubly-linked list

Any number of lists over one heap of nodes.  A list is named by the address of its sentinel (its
first member), which is a node itself.  `Ring h s l` says that the links of the heap form the ring
`s, l, s` in both directions; that the counter is the length of `l` is a part of the invariant of
its own (`Run.Inv`).  Splicing in and taking out are proved once, between two adjacent nodes of the
ring that may coincide with each other or with the sentinel (`Ring.linkBetween`, `Ring.unlink`); the
operations are instances.
-/

namespace D4np

open Word64 Links TransitionSystem

namespace LinkedList

/-- A machine address; a null pointer is zero. -/
abbrev Addr := Fin (2 ^ 64)

/-- The links of every node, and the counter of every list. -/
structure ListHeap where
  prev : Addr → Addr
  next : Addr → Addr
  len : Addr → ℕ

namespace ListHeap

/-- `node->prev = v`. -/
def setPrev (h : ListHeap) (node v : Addr) : ListHeap :=
  { h with prev := Function.update h.prev node v }

/-- `node->next = v`. -/
def setNext (h : ListHeap) (node v : Addr) : ListHeap :=
  { h with next := Function.update h.next node v }

/-- `list->len = v`. -/
def setLen (h : ListHeap) (list : Addr) (v : ℕ) : ListHeap :=
  { h with len := Function.update h.len list v }

/-- `link_between`; `none` where a null pointer is dereferenced. -/
def linkBetween (h : ListHeap) (node prev next : Addr) : Option ListHeap :=
  if node = 0 ∨ prev = 0 ∨ next = 0 then none
  else some ((((h.setPrev node prev).setNext node next).setNext prev node).setPrev next node)

/-- `unlink`; `none` where a null pointer is dereferenced. -/
def unlink (h : ListHeap) (node : Addr) : Option ListHeap :=
  if node = 0 ∨ h.prev node = 0 then none
  else
    let h := h.setNext (h.prev node) (h.next node)
    if h.next node = 0 then none
    else
      let h := h.setPrev (h.next node) (h.prev node)
      some ((h.setPrev node 0).setNext node 0)

/-- `d4np_linked_list_init`. -/
def init (h : ListHeap) (list : Addr) : ListHeap :=
  if list = 0 then h
  else ((h.setNext list list).setPrev list list).setLen list 0

/-- `d4np_linked_list_push_front`. -/
def pushFront (h : ListHeap) (list node : Addr) : Option ListHeap :=
  if list = 0 ∨ node = 0 then some h
  else (h.linkBetween node list (h.next list)).map fun h => h.setLen list (wrap (h.len list + 1))

/-- `d4np_linked_list_push_back`. -/
def pushBack (h : ListHeap) (list node : Addr) : Option ListHeap :=
  if list = 0 ∨ node = 0 then some h
  else (h.linkBetween node (h.prev list) list).map fun h => h.setLen list (wrap (h.len list + 1))

/-- `d4np_linked_list_pop_front`: the node returned and the heap after the call. -/
def popFront (h : ListHeap) (list : Addr) : Option (Addr × ListHeap) :=
  if list = 0 ∨ h.len list = 0 then some (0, h)
  else
    let node := h.next list
    (h.unlink node).map fun h => (node, h.setLen list (sub (h.len list) 1))

/-- `d4np_linked_list_pop_back`: the node returned and the heap after the call. -/
def popBack (h : ListHeap) (list : Addr) : Option (Addr × ListHeap) :=
  if list = 0 ∨ h.len list = 0 then some (0, h)
  else
    let node := h.prev list
    (h.unlink node).map fun h => (node, h.setLen list (sub (h.len list) 1))

/-- `d4np_linked_list_remove`. -/
def remove (h : ListHeap) (list node : Addr) : Option ListHeap :=
  if list = 0 ∨ node = 0 ∨ h.len list = 0 then some h
  else (h.unlink node).map fun h => h.setLen list (sub (h.len list) 1)

/-- `d4np_linked_list_front`. -/
def front (h : ListHeap) (list : Addr) : Addr :=
  if list = 0 ∨ h.len list = 0 then 0 else h.next list

/-- `d4np_linked_list_back`. -/
def back (h : ListHeap) (list : Addr) : Addr :=
  if list = 0 ∨ h.len list = 0 then 0 else h.prev list

/-- The loop of `D4NP_LIST_FOR_EACH` from `node`: the nodes visited, or `none` if it has not ended
after `fuel` steps or follows a null pointer. -/
def forEachFrom (h : ListHeap) (list : Addr) : ℕ → Addr → Option (List Addr)
  | fuel, node =>
    if node = list then some []
    else
      match fuel with
      | 0 => none
      | fuel + 1 =>
        if node = 0 then none else (forEachFrom h list fuel (h.next node)).map (node :: ·)

/-- `D4NP_LIST_FOR_EACH`. -/
def forEach (h : ListHeap) (list : Addr) (fuel : ℕ) : Option (List Addr) :=
  h.forEachFrom list fuel (h.next list)

end ListHeap

/-! ## Rings -/

/-- The links form the ring `s, l, s` in both directions, through distinct nodes. -/
structure Ring (h : ListHeap) (s : Addr) (l : List Addr) : Prop where
  fwd : Chain h.next s (s :: l) s
  bwd : Chain h.prev s (s :: l.reverse) s
  nodup : (s :: l).Nodup
  ne_zero : 0 ∉ s :: l

/-- The heaps agree on the links of the nodes in `l`. -/
def SameLinks (h h' : ListHeap) (l : List Addr) : Prop :=
  ∀ x ∈ l, h'.next x = h.next x ∧ h'.prev x = h.prev x

namespace Ring

variable {h h' : ListHeap} {s n p q : Addr} {l l₁ l₂ A B : List Addr}

theorem congr (hr : Ring h s l) (hs : SameLinks h h' (s :: l)) : Ring h' s l := by
  refine ⟨hr.fwd.congr fun x hx => (hs x hx).1.symm, hr.bwd.congr fun x hx => ?_, hr.nodup,
    hr.ne_zero⟩
  refine (hs x ?_).2.symm
  rcases List.mem_cons.mp hx with rfl | hx
  · exact List.mem_cons_self
  · exact List.mem_cons_of_mem _ (List.mem_reverse.mp hx)

/-- A ring read backwards. -/
theorem bwd_append (hr : Ring h s (l₁ ++ l₂)) :
    Chain h.prev s (s :: (l₂.reverse ++ l₁.reverse)) s := by
  have := hr.bwd
  rwa [List.reverse_append] at this

/-- Adjacent nodes of a ring link to each other. -/
theorem adjacent (hr : Ring h s (l₁ ++ l₂)) (hA : s :: l₁ = A ++ [p])
    (hB : s :: l₂.reverse = B ++ [q]) : h.next p = q ∧ h.prev q = p :=
  ⟨hr.fwd.ring_next hA hB, hr.bwd_append.ring_next hB (by rwa [List.reverse_reverse])⟩

/-- The ends at which a ring is cut lie on it. -/
theorem mem_cut (hA : s :: l₁ = A ++ [p]) (hB : s :: l₂.reverse = B ++ [q]) :
    p ∈ s :: (l₁ ++ l₂) ∧ q ∈ s :: (l₁ ++ l₂) := by
  have hp : p ∈ s :: l₁ := by rw [hA]; simp
  have hq : q ∈ s :: l₂.reverse := by rw [hB]; simp
  simp only [List.mem_cons, List.mem_reverse, List.mem_append] at *
  tauto

theorem nodup_reverse (hr : Ring h s (l₁ ++ l₂)) : (s :: (l₂.reverse ++ l₁.reverse)).Nodup := by
  have := hr.nodup
  rw [List.nodup_cons] at this ⊢
  rw [← List.reverse_append, List.nodup_reverse, List.mem_reverse]
  exact this

/-- What `link_between` writes. -/
theorem linkBetween_eq (hn : n ≠ 0) (hp : p ≠ 0) (hq : q ≠ 0) :
    h.linkBetween n p q = some ⟨Function.update (Function.update h.prev n p) q n,
      Function.update (Function.update h.next n q) p n, h.len⟩ := by
  unfold ListHeap.linkBetween
  rw [if_neg (by tauto)]
  rfl

/-- **Splicing in.** A new node between two adjacent nodes of a ring. -/
theorem linkBetween (hr : Ring h s (l₁ ++ l₂)) (hA : s :: l₁ = A ++ [p])
    (hB : s :: l₂.reverse = B ++ [q]) (hn0 : n ≠ 0) (hn : n ∉ s :: (l₁ ++ l₂)) :
    ∃ h', h.linkBetween n p q = some h' ∧ Ring h' s (l₁ ++ n :: l₂) ∧ h'.len = h.len ∧
      ∀ x, x ≠ n → x ∉ s :: (l₁ ++ l₂) → h'.next x = h.next x ∧ h'.prev x = h.prev x := by
  obtain ⟨hpm, hqm⟩ := mem_cut hA hB
  obtain ⟨hnext, hprev⟩ := hr.adjacent hA hB
  have hz := hr.ne_zero
  have hp0 : p ≠ 0 := by rintro rfl; exact hz hpm
  have hq0 : q ≠ 0 := by rintro rfl; exact hz hqm
  refine ⟨_, linkBetween_eq hn0 hp0 hq0, ⟨?_, ?_, ?_, ?_⟩, rfl, ?_⟩
  · rw [← hnext]
    exact hr.fwd.ring_insert hr.nodup hA hn
  · rw [← hprev, List.reverse_append, List.reverse_cons, List.append_assoc]
    refine hr.bwd_append.ring_insert hr.nodup_reverse hB ?_
    simpa [or_comm, and_comm] using hn
  · have hperm : (s :: (l₁ ++ n :: l₂)).Perm (n :: s :: (l₁ ++ l₂)) :=
      (List.perm_middle.cons s).trans (List.Perm.swap n s _)
    exact hperm.nodup_iff.mpr (List.nodup_cons.mpr ⟨hn, hr.nodup⟩)
  · simp only [List.mem_cons, List.mem_append, not_or] at hz ⊢
    exact ⟨hz.1, hz.2.1, hn0.symm, hz.2.2⟩
  · intro x hxn hx
    have hxp : x ≠ p := by rintro rfl; exact hx hpm
    have hxq : x ≠ q := by rintro rfl; exact hx hqm
    simp [Function.update_of_ne, hxn, hxp, hxq]

/-- What `unlink` writes. -/
theorem unlink_eq (hn : n ≠ 0) (hp0 : p ≠ 0) (hq0 : q ≠ 0) (hpn : p ≠ n) (hp : h.prev n = p)
    (hq : h.next n = q) :
    h.unlink n = some ⟨Function.update (Function.update h.prev q p) n 0,
      Function.update (Function.update h.next p q) n 0, h.len⟩ := by
  have hnext : (h.setNext p q).next n = q := by
    show Function.update h.next p q n = q
    rw [Function.update_of_ne hpn.symm, hq]
  have hprev : (h.setNext p q).prev n = p := hp
  unfold ListHeap.unlink
  rw [hp, hq, if_neg (by tauto)]
  simp only [hnext, hprev, if_neg hq0]
  rfl

theorem exists_concat (s : Addr) (l : List Addr) : ∃ A p, s :: l = A ++ [p] :=
  ⟨_, _, (List.dropLast_append_getLast (List.cons_ne_nil s l)).symm⟩

/-- **Taking out.** A node of a ring is unlinked, and keeps no link. -/
theorem unlink (hr : Ring h s (l₁ ++ n :: l₂)) :
    ∃ h', h.unlink n = some h' ∧ Ring h' s (l₁ ++ l₂) ∧ h'.len = h.len ∧
      h'.next n = 0 ∧ h'.prev n = 0 ∧
      ∀ x, x ∉ s :: (l₁ ++ n :: l₂) → h'.next x = h.next x ∧ h'.prev x = h.prev x := by
  obtain ⟨A, p, hA⟩ := exists_concat s l₁
  obtain ⟨B, q, hB⟩ := exists_concat s l₂.reverse
  have hr' : Ring h s ((l₁ ++ [n]) ++ l₂) := by rwa [List.append_assoc]
  obtain ⟨_, hprev⟩ := hr.adjacent hA (B := s :: l₂.reverse) (q := n) (by simp)
  obtain ⟨hnext, _⟩ := hr'.adjacent (A := s :: l₁) (p := n) (by simp) hB
  -- the two neighbours lie on the ring without `n`
  have hperm : (s :: (l₁ ++ n :: l₂)).Perm (n :: s :: (l₁ ++ l₂)) :=
    (List.perm_middle.cons s).trans (List.Perm.swap n s _)
  obtain ⟨hn, hnd⟩ := List.nodup_cons.mp (hperm.nodup_iff.mp hr.nodup)
  have hz : ∀ x ∈ n :: s :: (l₁ ++ l₂), x ≠ 0 := by
    rintro x hx rfl
    exact hr.ne_zero (hperm.mem_iff.mpr hx)
  obtain ⟨hpm, hqm⟩ := mem_cut hA hB
  have hpn : p ≠ n := by rintro rfl; exact hn hpm
  have hqn : q ≠ n := by rintro rfl; exact hn hqm
  refine ⟨_, unlink_eq (hz n List.mem_cons_self) (hz p (List.mem_cons_of_mem _ hpm))
    (hz q (List.mem_cons_of_mem _ hqm)) hpn hprev hnext, ⟨?_, ?_, hnd, ?_⟩, rfl, ?_, ?_, ?_⟩
  · rw [← hnext]
    exact hr.fwd.ring_remove hr.nodup hA
  · have hc := hr.bwd_append
    have hnd' := hr.nodup_reverse
    rw [List.reverse_cons, List.append_assoc, List.singleton_append] at hc hnd'
    rw [← hprev, List.reverse_append]
    exact hc.ring_remove hnd' hB
  · exact fun h0 => hz 0 (List.mem_cons_of_mem _ h0) rfl
  · simp
  · simp
  · intro x hx
    have hxn : x ≠ n := by rintro rfl; exact hx (by simp)
    have hxr : x ∉ s :: (l₁ ++ l₂) := fun hm => hx (hperm.mem_iff.mpr (List.mem_cons_of_mem _ hm))
    have hxp : x ≠ p := by rintro rfl; exact hxr hpm
    have hxq : x ≠ q := by rintro rfl; exact hxr hqm
    simp [Function.update_of_ne, hxn, hxp, hxq]

end Ring

/-! ## Runs -/

/-- The lists in use, the sequence each represents, and the nodes taken out of a list and not put
into one since. -/
structure Run where
  heap : ListHeap
  lists : List Addr
  seqs : Addr → List Addr
  unlinked : List Addr

/-- A call. -/
inductive Event
  | init (list : Addr)
  | pushFront (list node : Addr)
  | pushBack (list node : Addr)
  | popFront (list : Addr)
  | popBack (list : Addr)
  | remove (list node : Addr)
  deriving DecidableEq

/-- The list a call is about. -/
def Event.list : Event → Addr
  | .init list | .pushFront list _ | .pushBack list _ | .popFront list | .popBack list
  | .remove list _ => list

namespace Run

/-- A node that is in no list. -/
def Fresh (r : Run) (x : Addr) : Prop := x ≠ 0 ∧ ∀ s ∈ r.lists, x ∉ s :: r.seqs s

-- the search would otherwise run through the address space
instance (r : Run) (x : Addr) : Decidable (r.Fresh x) :=
  haveI : Decidable (∀ s ∈ r.lists, x ∉ s :: r.seqs s) := List.decidableBAll _ _
  inferInstanceAs (Decidable (x ≠ 0 ∧ ∀ s ∈ r.lists, x ∉ s :: r.seqs s))

/-- The contract of the calls: a pushed node is in no list, a removed node is in the list named. -/
def Enabled (r : Run) : Event → Prop
  | .init list => r.Fresh list
  | .pushFront list node | .pushBack list node => list ∈ r.lists ∧ r.Fresh node
  | .popFront list | .popBack list => list ∈ r.lists
  | .remove list node => list ∈ r.lists ∧ node ∈ r.seqs list

instance (r : Run) : DecidablePred r.Enabled := fun e => by
  cases e <;> unfold Enabled <;> infer_instance

/-- The run with the sequence of `list` set to `l`. -/
def setSeq (r : Run) (list : Addr) (l : List Addr) : Addr → List Addr :=
  Function.update r.seqs list l

/-- A call, with the sequence of its list updated as the call says; `none` where it would
dereference a null pointer. -/
def exec (r : Run) : Event → Option Run
  | .init list =>
    some ⟨r.heap.init list, list :: r.lists, r.setSeq list [], r.unlinked.filter (· ≠ list)⟩
  | .pushFront list node => (r.heap.pushFront list node).map fun h =>
    ⟨h, r.lists, r.setSeq list (node :: r.seqs list), r.unlinked.filter (· ≠ node)⟩
  | .pushBack list node => (r.heap.pushBack list node).map fun h =>
    ⟨h, r.lists, r.setSeq list (r.seqs list ++ [node]), r.unlinked.filter (· ≠ node)⟩
  | .popFront list => (r.heap.popFront list).map fun (node, h) =>
    ⟨h, r.lists, r.setSeq list (r.seqs list).tail,
      if node = 0 then r.unlinked else node :: r.unlinked⟩
  | .popBack list => (r.heap.popBack list).map fun (node, h) =>
    ⟨h, r.lists, r.setSeq list (r.seqs list).dropLast,
      if node = 0 then r.unlinked else node :: r.unlinked⟩
  | .remove list node => (r.heap.remove list node).map fun h =>
    ⟨h, r.lists, r.setSeq list ((r.seqs list).erase node), node :: r.unlinked⟩

end Run

/-- The runs of the calls that keep the contract, from any heap with no list in it yet. -/
def system : System Run Event where
  init r := r.lists = [] ∧ r.unlinked = []
  step r e := if r.Enabled e then r.exec e else none

/-- The invariant: each list is a ring and its counter the length, the rings are apart, and the
unlinked nodes are on none and have no links. -/
structure Run.Inv (r : Run) : Prop where
  ring : ∀ s ∈ r.lists, Ring r.heap s (r.seqs s)
  len : ∀ s ∈ r.lists, r.heap.len s = (r.seqs s).length
  apart : ∀ s ∈ r.lists, ∀ t ∈ r.lists, s ≠ t → ∀ x ∈ s :: r.seqs s, x ∉ t :: r.seqs t
  unlinked : ∀ x ∈ r.unlinked, r.heap.next x = 0 ∧ r.heap.prev x = 0 ∧
    ∀ s ∈ r.lists, x ∉ s :: r.seqs s

/-- A call about `list` that went through: the invariant holds again, and the links of the nodes of
every other list are as they were. -/
structure Run.Kept (r r' : Run) (list : Addr) : Prop where
  inv : r'.Inv
  others : ∀ t ∈ r.lists, t ≠ list → t ∈ r'.lists ∧ r'.seqs t = r.seqs t ∧
    SameLinks r.heap r'.heap (t :: r.seqs t)

namespace Run

variable {r : Run} {s n p q : Addr} {l₁ l₂ A B : List Addr}

/-- A list of distinct addresses, none of them zero, is shorter than the address space. -/
theorem length_lt (hnd : (s :: l₁).Nodup) (hz : 0 ∉ s :: l₁) : l₁.length + 1 < 2 ^ 64 := by
  have h := (List.nodup_cons.mpr ⟨hz, hnd⟩).length_le_card
  rw [Fintype.card_fin, List.length_cons, List.length_cons] at h
  omega

/-- The one argument behind every call: the ring of `s` became `l'`, of old nodes of `s` and nodes
that were in no list, and nothing off these two was written. -/
theorem kept_of_ring (hI : r.Inv) (hs : s ∈ r.lists) {h' : ListHeap} {l' u' : List Addr}
    (hring : Ring h' s l') (hlen : h'.len = Function.update r.heap.len s l'.length)
    (hsub : ∀ x ∈ l', x ∈ r.seqs s ∨ r.Fresh x)
    (hframe : ∀ x, x ∉ s :: r.seqs s → x ∉ l' →
      h'.next x = r.heap.next x ∧ h'.prev x = r.heap.prev x)
    (hu : ∀ x ∈ u', x ∉ s :: l' ∧
      (x ∈ r.unlinked ∨ x ∈ r.seqs s ∧ h'.next x = 0 ∧ h'.prev x = 0)) :
    r.Kept ⟨h', r.lists, r.setSeq s l', u'⟩ s := by
  have hself : r.setSeq s l' s = l' := Function.update_self ..
  have hother : ∀ t, t ≠ s → r.setSeq s l' t = r.seqs t := fun t ht => Function.update_of_ne ht ..
  -- nodes of another list are off both the old and the new ring of `s`
  have hoff : ∀ t ∈ r.lists, t ≠ s → ∀ x ∈ t :: r.seqs t, x ∉ s :: r.seqs s ∧ x ∉ s :: l' := by
    intro t ht hts x hx
    have hx1 := hI.apart t ht s hs hts x hx
    refine ⟨hx1, fun hx2 => ?_⟩
    rcases List.mem_cons.mp hx2 with rfl | hx2
    · exact hx1 List.mem_cons_self
    · rcases hsub x hx2 with h | h
      · exact hx1 (List.mem_cons_of_mem _ h)
      · exact h.2 t ht hx
  have hsame : ∀ t ∈ r.lists, t ≠ s → SameLinks r.heap h' (t :: r.seqs t) := by
    intro t ht hts x hx
    obtain ⟨h1, h2⟩ := hoff t ht hts x hx
    exact hframe x h1 fun h => h2 (List.mem_cons_of_mem _ h)
  refine ⟨⟨?_, ?_, ?_, ?_⟩, fun t ht hts => ⟨ht, hother t hts, hsame t ht hts⟩⟩
  · intro t ht
    by_cases hts : t = s
    · subst hts
      simpa only [hself] using hring
    · simpa only [hother t hts] using (hI.ring t ht).congr (hsame t ht hts)
  · intro t ht
    by_cases hts : t = s
    · subst hts
      simp only [hself, hlen, Function.update_self]
    · simp only [hother t hts, hlen, Function.update_of_ne hts]
      exact hI.len t ht
  · intro t ht u hu htu x hx
    by_cases hts : t = s
    · subst hts
      simp only [hself] at hx
      simp only [hother u htu.symm]
      exact fun hx' => (hoff u hu htu.symm x hx').2 hx
    · simp only [hother t hts] at hx
      by_cases hus : u = s
      · subst hus
        simp only [hself]
        exact (hoff t ht hts x hx).2
      · simp only [hother u hus]
        exact hI.apart t ht u hu htu x hx
  · intro x hx
    obtain ⟨hxl, hx⟩ := hu x hx
    have hlinks : h'.next x = 0 ∧ h'.prev x = 0 := by
      rcases hx with hx | hx
      · obtain ⟨h1, h2, h3⟩ := hI.unlinked x hx
        obtain ⟨h4, h5⟩ := hframe x (h3 s hs) fun h => hxl (List.mem_cons_of_mem _ h)
        exact ⟨h4.trans h1, h5.trans h2⟩
      · exact hx.2
    refine ⟨hlinks.1, hlinks.2, fun t ht => ?_⟩
    by_cases hts : t = s
    · subst hts
      simpa only [hself] using hxl
    · simp only [hother t hts]
      rcases hx with hx | hx
      · exact (hI.unlinked x hx).2.2 t ht
      · exact fun hx' => (hoff t ht hts x hx').1 (List.mem_cons_of_mem _ hx.1)

/-- A node spliced into a list between two adjacent nodes. -/
theorem linkBetween_kept (hI : r.Inv) (hs : s ∈ r.lists) (hl : r.seqs s = l₁ ++ l₂)
    (hA : s :: l₁ = A ++ [p]) (hB : s :: l₂.reverse = B ++ [q]) (hn : r.Fresh n) :
    ∃ h', (r.heap.linkBetween n p q).map (fun h => h.setLen s (wrap (h.len s + 1))) = some h' ∧
      r.Kept ⟨h', r.lists, r.setSeq s (l₁ ++ n :: l₂), r.unlinked.filter (· ≠ n)⟩ s := by
  have hring := hI.ring s hs
  have hfresh := hn.2 s hs
  rw [hl] at hring hfresh
  obtain ⟨h', hlink, hring', hlen', hframe⟩ := hring.linkBetween hA hB hn.1 hfresh
  have hlt := length_lt hring'.nodup hring'.ne_zero
  have hlen : wrap (h'.len s + 1) = (l₁ ++ n :: l₂).length := by
    rw [hlen', hI.len s hs, hl]
    simp only [List.length_append, List.length_cons] at hlt ⊢
    rw [wrap_of_lt (by omega)]
    omega
  rw [hlink]
  refine ⟨_, rfl, kept_of_ring hI hs (hring'.congr fun _ _ => ⟨rfl, rfl⟩) ?_ ?_ ?_ ?_⟩
  · show Function.update h'.len s _ = _
    rw [hlen, hlen']
  · intro x hx
    rw [hl]
    simp only [List.mem_append, List.mem_cons] at hx ⊢
    rcases hx with hx | rfl | hx
    · exact Or.inl (Or.inl hx)
    · exact Or.inr hn
    · exact Or.inl (Or.inr hx)
  · intro x hx hx'
    rw [hl] at hx
    exact hframe x (by rintro rfl; exact hx' (by simp)) hx
  · intro x hx
    obtain ⟨hx, hxn⟩ := List.mem_filter.mp hx
    have hxs := (hI.unlinked x hx).2.2 s hs
    rw [hl] at hxs
    have hxn : x ≠ n := by simpa using hxn
    refine ⟨?_, Or.inl hx⟩
    simp only [List.mem_cons, List.mem_append, not_or] at hxs ⊢
    exact ⟨hxs.1, hxs.2.1, hxn, hxs.2.2⟩

/-- A node taken out of a list. -/
theorem unlink_kept (hI : r.Inv) (hs : s ∈ r.lists) (hl : r.seqs s = l₁ ++ n :: l₂) :
    n ≠ 0 ∧ ∃ h', (r.heap.unlink n).map (fun h => h.setLen s (sub (h.len s) 1)) = some h' ∧
      r.Kept ⟨h', r.lists, r.setSeq s (l₁ ++ l₂), n :: r.unlinked⟩ s := by
  have hring := hI.ring s hs
  rw [hl] at hring
  obtain ⟨h', hunlink, hring', hlen', hnext, hprev, hframe⟩ := hring.unlink
  have hn0 : n ≠ 0 := by rintro rfl; exact hring.ne_zero (by simp)
  have hlt := length_lt hring.nodup hring.ne_zero
  have hlen : sub (h'.len s) 1 = (l₁ ++ l₂).length := by
    rw [hlen', hI.len s hs, hl]
    simp only [List.length_append, List.length_cons] at hlt ⊢
    rw [sub_one (by omega) (by omega)]
    omega
  have hnoff : n ∉ s :: (l₁ ++ l₂) := by
    have hperm : (s :: (l₁ ++ n :: l₂)).Perm (n :: s :: (l₁ ++ l₂)) :=
      (List.perm_middle.cons s).trans (List.Perm.swap n s _)
    exact (List.nodup_cons.mp (hperm.nodup_iff.mp hring.nodup)).1
  rw [hunlink]
  refine ⟨hn0, _, rfl, kept_of_ring hI hs (hring'.congr fun _ _ => ⟨rfl, rfl⟩) ?_ ?_ ?_ ?_⟩
  · show Function.update h'.len s _ = _
    rw [hlen, hlen']
  · intro x hx
    rw [hl]
    simp only [List.mem_append, List.mem_cons] at hx ⊢
    rcases hx with hx | hx
    · exact Or.inl (Or.inl hx)
    · exact Or.inl (Or.inr (Or.inr hx))
  · intro x hx _
    rw [hl] at hx
    exact hframe x hx
  · intro x hx
    rcases List.mem_cons.mp hx with rfl | hx
    · refine ⟨hnoff, Or.inr ⟨?_, hnext, hprev⟩⟩
      rw [hl]
      simp
    · have hxs := (hI.unlinked x hx).2.2 s hs
      rw [hl] at hxs
      refine ⟨?_, Or.inl hx⟩
      simp only [List.mem_cons, List.mem_append, not_or] at hxs ⊢
      exact ⟨hxs.1, hxs.2.1, hxs.2.2.2⟩

theorem lists_ne_zero (hI : r.Inv) (hs : s ∈ r.lists) : s ≠ 0 := by
  rintro rfl
  exact (hI.ring 0 hs).ne_zero List.mem_cons_self

/-- The first node, and the cut of the ring before it. -/
theorem first_cut (hI : r.Inv) (hs : s ∈ r.lists) :
    ∃ B, s :: (r.seqs s).reverse = B ++ [r.heap.next s] := by
  have hring := hI.ring s hs
  obtain ⟨B, q, hB⟩ := Ring.exists_concat s (r.seqs s).reverse
  have hc : Chain r.heap.next s (s :: ([] ++ r.seqs s)) s := hring.fwd
  have : r.heap.next s = q := hc.ring_next (A := []) rfl hB
  exact ⟨B, by rw [this, hB]⟩

/-- The last node, and the cut of the ring behind it. -/
theorem last_cut (hI : r.Inv) (hs : s ∈ r.lists) :
    ∃ A, s :: r.seqs s = A ++ [r.heap.prev s] := by
  have hring := hI.ring s hs
  obtain ⟨A, p, hA⟩ := Ring.exists_concat s (r.seqs s)
  have hc : Chain r.heap.prev s (s :: ([] ++ (r.seqs s).reverse)) s := hring.bwd
  have : r.heap.prev s = p := hc.ring_next (A := []) rfl (by rwa [List.reverse_reverse])
  exact ⟨A, by rw [this, hA]⟩

theorem pushFront_kept (hI : r.Inv) (hs : s ∈ r.lists) (hn : r.Fresh n) :
    ∃ r', r.exec (.pushFront s n) = some r' ∧ r.Kept r' s := by
  obtain ⟨B, hB⟩ := first_cut hI hs
  obtain ⟨h', he, hk⟩ := linkBetween_kept hI hs (show r.seqs s = [] ++ r.seqs s from rfl)
    (A := []) rfl hB hn
  refine ⟨_, ?_, hk⟩
  simp only [exec, ListHeap.pushFront, if_neg (not_or.mpr ⟨lists_ne_zero hI hs, hn.1⟩), he]
  rfl

theorem pushBack_kept (hI : r.Inv) (hs : s ∈ r.lists) (hn : r.Fresh n) :
    ∃ r', r.exec (.pushBack s n) = some r' ∧ r.Kept r' s := by
  obtain ⟨A, hA⟩ := last_cut hI hs
  obtain ⟨h', he, hk⟩ := linkBetween_kept hI hs (List.append_nil _).symm hA (B := []) rfl hn
  refine ⟨_, ?_, hk⟩
  simp only [exec, ListHeap.pushBack, if_neg (not_or.mpr ⟨lists_ne_zero hI hs, hn.1⟩), he]
  rfl

theorem remove_kept (hI : r.Inv) (hs : s ∈ r.lists) (hn : n ∈ r.seqs s) :
    ∃ r', r.exec (.remove s n) = some r' ∧ r.Kept r' s := by
  obtain ⟨l₁, l₂, hl⟩ := List.append_of_mem hn
  obtain ⟨hn0, h', he, hk⟩ := unlink_kept hI hs hl
  have hnd := (List.nodup_cons.mp (hI.ring s hs).nodup).2
  have hlen := hI.len s hs
  have herase : (r.seqs s).erase n = l₁ ++ l₂ := by
    rw [hl] at hnd ⊢
    have hn1 : n ∉ l₁ := fun h => (List.nodup_append.mp hnd).2.2 n h n List.mem_cons_self rfl
    rw [List.erase_append_right _ hn1, List.erase_cons_head]
  have hpos : r.heap.len s ≠ 0 := by
    rw [hlen, hl]
    simp
  refine ⟨_, ?_, hk⟩
  simp only [exec, ListHeap.remove, herase, he,
    if_neg (not_or.mpr ⟨lists_ne_zero hI hs, not_or.mpr ⟨hn0, hpos⟩⟩)]
  rfl

/-- The heap the call of an empty list leaves alone. -/
theorem kept_of_empty (hI : r.Inv) (hl : r.seqs s = []) :
    r.Kept ⟨r.heap, r.lists, r.setSeq s [], r.unlinked⟩ s := by
  have hsame : r.setSeq s [] = r.seqs := by
    unfold setSeq
    rw [← hl, Function.update_eq_self]
  rw [hsame]
  exact ⟨hI, fun t ht _ => ⟨ht, rfl, fun _ _ => ⟨rfl, rfl⟩⟩⟩

theorem popFront_kept (hI : r.Inv) (hs : s ∈ r.lists) :
    (∃ h', r.heap.popFront s = some ((r.seqs s).headD 0, h')) ∧
      ∃ r', r.exec (.popFront s) = some r' ∧ r.Kept r' s := by
  have hlen := hI.len s hs
  have hs0 := lists_ne_zero hI hs
  rcases hl : r.seqs s with _ | ⟨n, l⟩
  · rw [hl] at hlen
    have he : r.heap.popFront s = some (0, r.heap) := if_pos (Or.inr hlen)
    refine ⟨⟨_, he⟩, _, ?_, kept_of_empty hI hl⟩
    simp only [exec, he, hl]
    rfl
  · obtain ⟨hn0, h', he, hk⟩ := unlink_kept hI hs (show r.seqs s = [] ++ n :: l from hl)
    have hnext : r.heap.next s = n := by
      have := (hI.ring s hs).fwd.2
      rw [hl] at this
      exact this.1
    have hpop : r.heap.popFront s = some (n, h') := by
      unfold ListHeap.popFront
      rw [if_neg (not_or.mpr ⟨hs0, by rw [hlen, hl]; simp⟩)]
      simp only [hnext]
      rw [← Option.map_some, ← he]
      cases r.heap.unlink n <;> rfl
    refine ⟨⟨_, hpop⟩, _, ?_, hk⟩
    simp only [exec, hpop, hl, Option.map_some, if_neg hn0]
    rfl

theorem popBack_kept (hI : r.Inv) (hs : s ∈ r.lists) :
    (∃ h', r.heap.popBack s = some ((r.seqs s).getLastD 0, h')) ∧
      ∃ r', r.exec (.popBack s) = some r' ∧ r.Kept r' s := by
  have hlen := hI.len s hs
  have hs0 := lists_ne_zero hI hs
  rcases List.eq_nil_or_concat' (r.seqs s) with hl | ⟨l, n, hl⟩
  · rw [hl] at hlen
    have he : r.heap.popBack s = some (0, r.heap) := if_pos (Or.inr hlen)
    rw [hl]
    refine ⟨⟨_, he⟩, _, ?_, kept_of_empty hI hl⟩
    simp only [exec, he, hl]
    rfl
  · obtain ⟨hn0, h', he, hk⟩ := unlink_kept hI hs hl
    rw [List.append_nil] at hk
    obtain ⟨A, hA⟩ := last_cut hI hs
    have hprev : r.heap.prev s = n := by
      rw [hl, ← List.cons_append] at hA
      exact (List.cons.inj (List.append_inj' hA rfl).2).1.symm
    have hpop : r.heap.popBack s = some (n, h') := by
      unfold ListHeap.popBack
      rw [if_neg (not_or.mpr ⟨hs0, by rw [hlen, hl]; simp⟩)]
      simp only [hprev]
      rw [← Option.map_some, ← he]
      cases r.heap.unlink n <;> rfl
    rw [hl]
    refine ⟨⟨_, by simpa using hpop⟩, _, ?_, hk⟩
    simp only [exec, hpop, hl, Option.map_some, if_neg hn0, List.dropLast_concat]

theorem init_kept (hI : r.Inv) (hs : r.Fresh s) :
    ∃ r', r.exec (.init s) = some r' ∧ r.Kept r' s := by
  have hinit : r.heap.init s = ⟨Function.update r.heap.prev s s, Function.update r.heap.next s s,
      Function.update r.heap.len s 0⟩ := if_neg hs.1
  have hself : r.setSeq s [] s = [] := Function.update_self ..
  have hother : ∀ t, t ≠ s → r.setSeq s [] t = r.seqs t := fun t ht => Function.update_of_ne ht ..
  have hne : ∀ t ∈ r.lists, t ≠ s := by
    rintro t ht rfl
    exact hs.2 t ht List.mem_cons_self
  have hsame : ∀ t ∈ r.lists, SameLinks r.heap (r.heap.init s) (t :: r.seqs t) := by
    intro t ht x hx
    have hxs : x ≠ s := by rintro rfl; exact hs.2 t ht hx
    simp [hinit, Function.update_of_ne hxs]
  refine ⟨_, rfl, ⟨?_, ?_, ?_, ?_⟩, fun t ht _ =>
    ⟨List.mem_cons_of_mem _ ht, hother t (hne t ht), hsame t ht⟩⟩
  · intro t ht
    rcases List.mem_cons.mp ht with rfl | ht
    · simp only [hself]
      exact ⟨by simp [hinit], by simp [hinit], List.nodup_singleton _, by simpa using hs.1.symm⟩
    · simp only [hother t (hne t ht)]
      exact (hI.ring t ht).congr (hsame t ht)
  · intro t ht
    rcases List.mem_cons.mp ht with rfl | ht
    · simp [hself, hinit]
    · simp only [hother t (hne t ht), hinit, Function.update_of_ne (hne t ht)]
      exact hI.len t ht
  · intro t ht u hu htu x hx
    rcases List.mem_cons.mp ht with rfl | htl
    · simp only [hself, List.mem_singleton] at hx
      subst hx
      have hul := (List.mem_cons.mp hu).resolve_left htu.symm
      simp only [hother u (hne u hul)]
      exact hs.2 u hul
    · simp only [hother t (hne t htl)] at hx
      rcases List.mem_cons.mp hu with rfl | hul
      · simp only [hself, List.mem_singleton]
        exact fun hxu => hs.2 t htl (hxu ▸ hx)
      · simp only [hother u (hne u hul)]
        exact hI.apart t htl u hul htu x hx
  · intro x hx
    obtain ⟨hx, hxs⟩ := List.mem_filter.mp hx
    have hxs : x ≠ s := by simpa using hxs
    obtain ⟨h1, h2, h3⟩ := hI.unlinked x hx
    refine ⟨by simp [hinit, Function.update_of_ne hxs, h1],
      by simp [hinit, Function.update_of_ne hxs, h2], fun t ht => ?_⟩
    rcases List.mem_cons.mp ht with rfl | ht
    · simpa only [hself, List.mem_singleton] using hxs
    · simp only [hother t (hne t ht)]
      exact h3 t ht

/-- Every call within its contract goes through, keeps the invariant, and leaves the links of the
other lists alone. -/
theorem exec_kept (hI : r.Inv) {e : Event} (he : r.Enabled e) :
    ∃ r', r.exec e = some r' ∧ r.Kept r' e.list := by
  cases e with
  | init list => exact init_kept hI he
  | pushFront list node => exact pushFront_kept hI he.1 he.2
  | pushBack list node => exact pushBack_kept hI he.1 he.2
  | popFront list => exact (popFront_kept hI he).2
  | popBack list => exact (popBack_kept hI he).2
  | remove list node => exact remove_kept hI he.1 he.2

theorem reachable_inv (h : Reachable system r) : r.Inv := by
  refine h.induct ?_ ?_
  · rintro s ⟨hl, hu⟩
    refine ⟨?_, ?_, ?_, ?_⟩ <;> simp [hl, hu]
  · intro s e t hI hst
    simp only [system] at hst
    split_ifs at hst with he
    obtain ⟨r', hr', hk⟩ := exec_kept hI he
    rw [hr'] at hst
    cases hst
    exact hk.inv

end Run

/-! ## What the links say -/

/-- Following a chain of `next` links to the sentinel takes as many steps as it has nodes. -/
theorem forEachFrom_eq {h : ListHeap} {s a : Addr} {l : List Addr} (hc : Chain h.next a l s)
    (hs : s ∉ l) (h0 : 0 ∉ l) (fuel : ℕ) :
    h.forEachFrom s fuel a = if l.length ≤ fuel then some l else none := by
  induction l generalizing a fuel with
  | nil =>
    have ha : a = s := hc
    unfold ListHeap.forEachFrom
    simp [ha]
  | cons x l ih =>
    obtain ⟨rfl, hc⟩ := hc
    simp only [List.mem_cons, not_or] at hs h0
    unfold ListHeap.forEachFrom
    rw [if_neg (Ne.symm hs.1)]
    cases fuel with
    | zero => simp
    | succ fuel =>
      simp only [if_neg (Ne.symm h0.1), ih hc hs.2 h0.2 fuel, List.length_cons]
      by_cases hle : l.length ≤ fuel
      · rw [if_pos hle, if_pos (by omega)]
        rfl
      · rw [if_neg hle, if_neg (by omega)]
        rfl

/-- The list at `s` represents `l`: following `next` from the sentinel visits `l` in order and
returns to the sentinel, after exactly as many steps as `l` has nodes; following `prev` visits it in
reverse; the counter is its length; front and back are its ends. -/
structure Represents (h : ListHeap) (s : Addr) (l : List Addr) : Prop where
  nodup : l.Nodup
  next : Chain h.next (h.next s) l s
  prev : Chain h.prev (h.prev s) l.reverse s
  forEach : ∀ fuel, h.forEach s fuel = if l.length ≤ fuel then some l else none
  len : h.len s = l.length
  front : h.front s = l.headD 0
  back : h.back s = l.getLastD 0

theorem represents_of_inv {r : Run} (hI : r.Inv) {s : Addr} (hs : s ∈ r.lists) :
    Represents r.heap s (r.seqs s) := by
  have hring := hI.ring s hs
  have hlen := hI.len s hs
  have hs0 := Run.lists_ne_zero hI hs
  obtain ⟨hsl, hnd⟩ := List.nodup_cons.mp hring.nodup
  refine ⟨hnd, hring.fwd.2, hring.bwd.2, fun fuel => forEachFrom_eq hring.fwd.2 hsl
    (fun h => hring.ne_zero (List.mem_cons_of_mem _ h)) fuel, hlen, ?_, ?_⟩
  · unfold ListHeap.front
    have hn := hring.fwd.2
    rcases hl : r.seqs s with _ | ⟨n, l⟩
    · rw [if_pos (Or.inr (by rw [hlen, hl]; rfl))]
      rfl
    · rw [hl] at hn
      rw [if_neg (not_or.mpr ⟨hs0, by rw [hlen, hl]; simp⟩)]
      exact hn.1
  · unfold ListHeap.back
    have hp := hring.bwd.2
    rcases List.eq_nil_or_concat' (r.seqs s) with hl | ⟨l, n, hl⟩
    · rw [if_pos (Or.inr (by rw [hlen, hl]; rfl)), hl]
      rfl
    · rw [hl, List.reverse_append] at hp
      rw [if_neg (not_or.mpr ⟨hs0, by rw [hlen, hl]; simp⟩), hl]
      simpa using hp.1

/-- **The lists over whole runs.** After any calls within their contract, on any number of lists
that share the nodes: each list represents its sequence; a node taken out and not put back has no
links; and every further call within the contract goes through without touching a null pointer,
returns the end it pops, and leaves the other lists' sequences and the links of their nodes
unchanged. -/
theorem linkedList_run_correct {r : Run} (h : Reachable system r) :
    (∀ s ∈ r.lists, Represents r.heap s (r.seqs s)) ∧
    (∀ x ∈ r.unlinked, r.heap.next x = 0 ∧ r.heap.prev x = 0) ∧
    (∀ s ∈ r.lists, (∃ h', r.heap.popFront s = some ((r.seqs s).headD 0, h')) ∧
      ∃ h', r.heap.popBack s = some ((r.seqs s).getLastD 0, h')) ∧
    ∀ e, r.Enabled e → ∃ r', r.exec e = some r' ∧
      ∀ t ∈ r.lists, t ≠ e.list → t ∈ r'.lists ∧ r'.seqs t = r.seqs t ∧
        SameLinks r.heap r'.heap (t :: r.seqs t) := by
  have hI := Run.reachable_inv h
  refine ⟨fun s hs => represents_of_inv hI hs, fun x hx => ?_, fun s hs => ?_, fun e he => ?_⟩
  · obtain ⟨h1, h2, _⟩ := hI.unlinked x hx
    exact ⟨h1, h2⟩
  · exact ⟨(Run.popFront_kept hI hs).1, (Run.popBack_kept hI hs).1⟩
  · obtain ⟨r', hr', hk⟩ := Run.exec_kept hI he
    exact ⟨r', hr', hk.others⟩

/-- Two lists: three nodes pushed into one, one popped and one removed, and the other untouched. -/
theorem linkedList_run_correct_two_lists :
    ∃ r, Reachable system r ∧ r.lists = [2, 1] ∧ r.seqs 1 = [11] ∧ r.seqs 2 = [20] ∧
      r.unlinked = [10, 12] ∧ Represents r.heap 1 [11] ∧ Represents r.heap 2 [20] := by
  have h0 : Reachable system ⟨⟨fun _ => 7, fun _ => 7, fun _ => 7⟩, [], fun _ => [], []⟩ :=
    .init ⟨rfl, rfl⟩
  have hrun : (system.run ⟨⟨fun _ => 7, fun _ => 7, fun _ => 7⟩, [], fun _ => [], []⟩
      [.init 1, .init 2, .pushBack 1 10, .pushBack 1 11, .pushFront 2 20, .pushFront 1 12,
        .popFront 1, .remove 1 10]).map
      (fun r => (r.lists, r.seqs 1, r.seqs 2, r.unlinked)) = some ([2, 1], [11], [20], [10, 12]) := by
    decide +kernel
  obtain ⟨r, hr, heq⟩ := Option.map_eq_some_iff.mp hrun
  simp only [Prod.mk.injEq] at heq
  obtain ⟨hl, h1, h2, hu⟩ := heq
  have hreach := h0.run hr
  have hrep := (linkedList_run_correct hreach).1
  refine ⟨r, hreach, hl, h1, h2, hu, ?_, ?_⟩
  · have := hrep 1 (by rw [hl]; decide)
    rwa [h1] at this
  · have := hrep 2 (by rw [hl]; decide)
    rwa [h2] at this

end LinkedList

end D4np
