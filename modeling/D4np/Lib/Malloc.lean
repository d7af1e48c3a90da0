import Mathlib.Data.List.Basic
import Mathlib.Logic.Function.Basic
import Mathlib.Tactic.Common

/-!
# The heap of the C library

`malloc`, `realloc` and `free` work on one heap, that of a process.  A call that names a block that
is not live has no defined behaviour, and no answer of the library is the address of a live block,
other than the one a reallocation resizes.  Histories of calls are lists, newest first, like the
logs they come from.

Several clients share the heap.  A client is safe if, judged by its own calls alone and as long as
the library's answers to it are admissible, none of its calls is undefined (`Safe`).  Safe clients
can be put together: whatever the order of their calls, no call is undefined, and the heap is made
up of what each client would have in a heap of its own (`Safe.share`).
-/

namespace Malloc

/-- The sizes of the live blocks, by address. -/
abbrev Heap := ℕ → Option ℕ

/-- A call, with the address it returned; `none` is `NULL`. -/
inductive Call
  | malloc (size : ℕ) (answer : Option ℕ)
  | realloc (ptr : Option ℕ) (size : ℕ) (answer : Option ℕ)
  | free (ptr : Option ℕ)
  deriving DecidableEq

namespace Heap

/-- The heap after a block was granted. -/
def grant (h : Heap) (size : ℕ) : Option ℕ → Heap
  | none => h
  | some q => Function.update h q (some size)

/-- The heap after a block was released; `none` where that is undefined. -/
def release (h : Heap) : Option ℕ → Option Heap
  | none => some h
  | some p => if h p = none then none else some (Function.update h p none)

/-- What a call does; `none` where its behaviour is undefined.  A refused `realloc` leaves the block
as it was. -/
def step (h : Heap) : Call → Option Heap
  | .malloc size answer => some (h.grant size answer)
  | .realloc ptr size (some q) => (h.release ptr).map fun h' => h'.grant size (some q)
  | .realloc ptr _ none => (h.release ptr).map fun _ => h
  | .free ptr => h.release ptr

/-- The answer is one the library may give. -/
def Admissible (h : Heap) : Call → Prop
  | .malloc _ (some q) => h q = none
  | .realloc ptr _ (some q) => ptr = some q ∨ h q = none
  | _ => True

theorem release_apply {h h' : Heap} {ptr : Option ℕ} (hr : h.release ptr = some h') (q : ℕ) :
    h' q = if ptr = some q then none else h q := by
  rcases ptr with _ | p
  · obtain rfl := Option.some.inj hr
    rfl
  · replace hr : (if h p = none then none else some (Function.update h p none)) = some h' := hr
    split_ifs at hr
    obtain rfl := Option.some.inj hr
    by_cases hq : q = p
    · rw [hq, Function.update_self, if_pos rfl]
    · rw [Function.update_of_ne hq, if_neg fun hc => hq (Option.some.inj hc).symm]

end Heap

/-- The heap after a history; `none` if the behaviour of a call in it is undefined. -/
def after : List Call → Option Heap
  | [] => some fun _ => none
  | c :: cs => (after cs).bind fun h => h.step c

/-- All answers were admissible. -/
def Served : List Call → Prop
  | [] => True
  | c :: cs => Served cs ∧ ∀ h, after cs = some h → h.Admissible c

/-- No call is undefined, as long as the answers before it were admissible. -/
def Safe : List Call → Prop
  | [] => True
  | c :: cs => Safe cs ∧ (Served cs → ∀ h, after cs = some h → ∃ h', h.step c = some h')

/-! ## Clients -/

section Clients

variable {ι : Type*} {h : Heap} {part : ι → Heap} {i : ι} {c : Call}

/-- The heap is made up of the parts, which have no address in common. -/
structure Parts (h : Heap) (part : ι → Heap) : Prop where
  live : ∀ p n, h p = some n ↔ ∃ i, part i p = some n
  apart : ∀ {i j p}, part i p ≠ none → part j p ≠ none → i = j

theorem Parts.empty : Parts (fun _ => none) (fun (_ : ι) _ => none) :=
  ⟨fun _ _ => ⟨nofun, fun ⟨_, h⟩ => nomatch h⟩, fun h => absurd rfl h⟩

/-- An address that is free is free in every part. -/
theorem Parts.free (hp : Parts h part) {p : ℕ} (hfree : h p = none) (i : ι) : part i p = none := by
  rcases hi : part i p with _ | n
  · rfl
  · rw [(hp.live p n).mpr ⟨i, hi⟩] at hfree
    cases hfree

/-- An answer that is admissible to the process is admissible to the client it is given to. -/
theorem Parts.admissible (hp : Parts h part) (ha : h.Admissible c) (i : ι) :
    (part i).Admissible c := by
  rcases c with ⟨size, _ | q⟩ | ⟨ptr, size, _ | q⟩ | ptr
  · trivial
  · exact hp.free ha i
  · trivial
  · exact ha.imp_right fun hq => hp.free hq i
  · trivial

variable [DecidableEq ι]

/-- A client changes what is at an address that no other one has. -/
theorem Parts.update (hp : Parts h part) {p : ℕ} (v : Option ℕ)
    (hother : ∀ j, j ≠ i → part j p = none) :
    Parts (Function.update h p v) (Function.update part i (Function.update (part i) p v)) := by
  have hpart : ∀ j x, Function.update part i (Function.update (part i) p v) j x =
      if j = i ∧ x = p then v else part j x := by
    intro j x
    by_cases hj : j = i
    · subst hj
      rw [Function.update_self]
      by_cases hx : x = p
      · rw [hx, Function.update_self, if_pos ⟨rfl, rfl⟩]
      · rw [Function.update_of_ne hx, if_neg fun hc => hx hc.2]
    · rw [Function.update_of_ne hj, if_neg fun hc => hj hc.1]
  refine ⟨fun x n => ?_, fun {j k x} hj hk => ?_⟩
  · by_cases hx : x = p
    · subst hx
      rw [Function.update_self]
      constructor
      · intro hv
        exact ⟨i, by rw [hpart, if_pos ⟨rfl, rfl⟩, hv]⟩
      · rintro ⟨j, hj⟩
        rw [hpart] at hj
        by_cases hji : j = i
        · rwa [if_pos ⟨hji, rfl⟩] at hj
        · rw [if_neg fun hc => hji hc.1, hother j hji] at hj
          cases hj
    · rw [Function.update_of_ne hx, hp.live x n]
      refine exists_congr fun j => ?_
      rw [hpart, if_neg fun hc => hx hc.2]
  · rw [hpart] at hj hk
    by_cases hx : x = p
    · subst hx
      have key : ∀ l, (if l = i ∧ x = x then v else part l x) ≠ none → l = i := by
        intro l hl
        by_contra hli
        rw [if_neg fun hc => hli hc.1, hother l hli] at hl
        exact hl rfl
      rw [key j hj, key k hk]
    · rw [if_neg fun hc => hx hc.2] at hj hk
      exact hp.apart hj hk

/-- A block released by the client that has it. -/
theorem Parts.release (hp : Parts h part) {ptr : Option ℕ} {x : Heap}
    (hx : (part i).release ptr = some x) :
    ∃ h', h.release ptr = some h' ∧ Parts h' (Function.update part i x) := by
  rcases ptr with _ | p
  · obtain rfl := Option.some.inj hx
    exact ⟨h, rfl, by rwa [Function.update_eq_self]⟩
  · replace hx : (if part i p = none then none else some (Function.update (part i) p none)) =
      some x := hx
    split_ifs at hx with hfree
    obtain rfl := Option.some.inj hx
    obtain ⟨n, hn⟩ := Option.ne_none_iff_exists'.mp hfree
    refine ⟨Function.update h p none, ?_, hp.update none fun j hj => ?_⟩
    · show (if h p = none then none else _) = _
      rw [if_neg (by rw [(hp.live p n).mpr ⟨i, hn⟩]; nofun)]
    · by_contra hne
      exact hj (hp.apart hne hfree)

/-- **The frame rule of the heap.** A call that is defined in the part of a client is defined in
the heap, and changes no other part. -/
theorem Parts.step (hp : Parts h part) (ha : h.Admissible c) {x : Heap}
    (hx : (part i).step c = some x) :
    ∃ h', h.step c = some h' ∧ Parts h' (Function.update part i x) := by
  rcases c with ⟨size, _ | q⟩ | ⟨ptr, size, _ | q⟩ | ptr
  · obtain rfl := Option.some.inj hx
    exact ⟨h, rfl, by rwa [Heap.grant, Function.update_eq_self]⟩
  · obtain rfl := Option.some.inj hx
    exact ⟨_, rfl, hp.update _ fun j _ => hp.free ha j⟩
  · obtain ⟨y, hy, rfl⟩ := Option.map_eq_some_iff.mp hx
    obtain ⟨h', hr, _⟩ := hp.release hy
    refine ⟨h, ?_, by rwa [Function.update_eq_self]⟩
    rw [Heap.step, hr]
    rfl
  · obtain ⟨y, hy, rfl⟩ := Option.map_eq_some_iff.mp hx
    obtain ⟨h', hr, hp'⟩ := hp.release hy
    refine ⟨h'.grant size (some q), by rw [Heap.step, hr]; rfl, ?_⟩
    -- the address of the new block is free once the old one is released
    have hq : h' q = none := by
      rw [Heap.release_apply hr]
      split_ifs with hptr
      · rfl
      · exact ha.resolve_left hptr
    have hg := hp'.update (i := i) (some size) fun j _ => hp'.free hq j
    rwa [Function.update_self, Function.update_idem] at hg
  · exact hp.release hx

/-- The calls of one client. -/
def mine (i : ι) (history : List (ι × Call)) : List Call :=
  history.filterMap fun x => if x.1 = i then some x.2 else none

theorem mine_cons (i j : ι) (c : Call) (history : List (ι × Call)) :
    mine i ((j, c) :: history) = if j = i then c :: mine i history else mine i history := by
  unfold mine
  by_cases hji : j = i
  · rw [List.filterMap_cons, if_pos hji, if_pos hji]
  · rw [List.filterMap_cons, if_neg hji, if_neg hji]

/-- **Safe clients share a heap.** -/
theorem Safe.share {history : List (ι × Call)} (hsafe : ∀ i, Safe (mine i history))
    (hserved : Served (history.map Prod.snd)) :
    ∃ h part, after (history.map Prod.snd) = some h ∧ Parts h part ∧
      ∀ i, Served (mine i history) ∧ after (mine i history) = some (part i) := by
  induction history with
  | nil => exact ⟨_, _, rfl, Parts.empty, fun _ => ⟨trivial, rfl⟩⟩
  | cons e history ih =>
    obtain ⟨j, c⟩ := e
    obtain ⟨h, part, hafter, hp, hpart⟩ := ih (fun i => by
      have hs := hsafe i
      rw [mine_cons] at hs
      split_ifs at hs
      · exact hs.1
      · exact hs) hserved.1
    have ha := hserved.2 h hafter
    have hs := hsafe j
    rw [mine_cons, if_pos rfl] at hs
    obtain ⟨x, hx⟩ := hs.2 (hpart j).1 (part j) (hpart j).2
    obtain ⟨h', hstep, hp'⟩ := hp.step ha hx
    refine ⟨h', _, ?_, hp', fun i => ?_⟩
    · show (after (history.map Prod.snd)).bind _ = _
      rw [hafter]
      exact hstep
    · rw [mine_cons]
      by_cases hji : j = i
      · subst hji
        rw [if_pos rfl, Function.update_self]
        refine ⟨⟨(hpart j).1, fun y hy => ?_⟩, ?_⟩
        · obtain rfl := Option.some.inj ((hpart j).2.symm.trans hy)
          exact hp.admissible ha j
        · rw [after, (hpart j).2]
          exact hx
      · rw [if_neg hji, Function.update_of_ne (Ne.symm hji)]
        exact hpart i

end Clients

end Malloc
