import Mathlib.Data.List.Basic
import Mathlib.Tactic.Common

/-!
# Chains of links

`Chain next a l b`: following `next` from the pointer `a` visits the nodes `l` in order and arrives
at the pointer `b`.  With `b` a null pointer this is a list, with `b` the node the chain left from
a ring.  A chain depends only on the links of the nodes it visits (`Chain.congr`), so a write
elsewhere leaves it alone (`Chain.update`); a node is spliced in behind a node of the chain, and
taken out, by redirecting two links (`Chain.insertAfter`, `Chain.removeAfter`).
-/

namespace Links

variable {α : Type*}

/-- Following `next` from `a` visits `l` and arrives at `b`. -/
def Chain (next : α → α) : α → List α → α → Prop
  | a, [], b => a = b
  | a, x :: l, b => a = x ∧ Chain next (next x) l b

namespace Chain

variable {next next' : α → α} {a b x : α} {l l' l₁ l₂ : List α}

@[simp] theorem nil_iff : Chain next a [] b ↔ a = b := Iff.rfl

@[simp] theorem cons_iff : Chain next a (x :: l) b ↔ a = x ∧ Chain next (next x) l b := Iff.rfl

/-- The links of the nodes visited are all that matters. -/
theorem congr (h : ∀ x ∈ l, next x = next' x) (hc : Chain next a l b) : Chain next' a l b := by
  induction l generalizing a with
  | nil => exact hc
  | cons x l ih =>
    obtain ⟨rfl, hc⟩ := hc
    refine ⟨rfl, ?_⟩
    rw [← h a (List.mem_cons_self)]
    exact ih (fun y hy => h y (List.mem_cons_of_mem _ hy)) hc

theorem append_iff :
    Chain next a (l₁ ++ l₂) b ↔ ∃ c, Chain next a l₁ c ∧ Chain next c l₂ b := by
  induction l₁ generalizing a with
  | nil => simp
  | cons x l ih => simp [ih, and_assoc]

theorem concat_iff : Chain next a (l ++ [x]) b ↔ Chain next a l x ∧ next x = b := by
  rw [append_iff]
  constructor
  · rintro ⟨c, hc, rfl, hb⟩
    exact ⟨hc, hb⟩
  · rintro ⟨hc, hb⟩
    exact ⟨x, hc, rfl, hb⟩

/-- Redirecting the link of a node that is not visited changes nothing. -/
theorem update [DecidableEq α] {y v : α} (hy : y ∉ l) (hc : Chain next a l b) :
    Chain (Function.update next y v) a l b := by
  refine hc.congr fun z hz => ?_
  rw [Function.update_of_ne]
  rintro rfl
  exact hy hz

/-- A node is linked behind the last one; its own link becomes the end of the chain. -/
theorem concat_update [DecidableEq α] {y : α} (hc : Chain next a (l ++ [x]) b)
    (hnd : (l ++ [x]).Nodup) (hy : y ∉ l ++ [x]) :
    Chain (Function.update next x y) a (l ++ [x] ++ [y]) (next y) := by
  have hx : x ∉ l := fun hm =>
    (List.nodup_append.mp hnd).2.2 x hm x (List.mem_singleton.mpr rfl) rfl
  have hne : y ≠ x := by
    rintro rfl
    exact hy (List.mem_append_right _ (List.mem_singleton.mpr rfl))
  refine concat_iff.mpr ⟨concat_iff.mpr ⟨(concat_iff.mp hc).1.update hx, ?_⟩, ?_⟩
  · exact Function.update_self ..
  · exact Function.update_of_ne hne ..

/-- In the ring of `s` and `l₁ ++ l₂`, the node that ends `s :: l₁` links to the one that begins
`l₂` followed by `s`. -/
theorem ring_next {p q s : α} {A B : List α} (hc : Chain next s (s :: (l₁ ++ l₂)) s)
    (hA : s :: l₁ = A ++ [p]) (hB : s :: l₂.reverse = B ++ [q]) : next p = q := by
  rw [← List.cons_append, hA, append_iff] at hc
  obtain ⟨c, hc₁, hc₂⟩ := hc
  obtain ⟨_, hp⟩ := concat_iff.mp hc₁
  rw [hp]
  cases l₂ with
  | nil =>
    have hq : s = q := (List.cons.inj (List.append_inj' (show [] ++ [s] = B ++ [q] from hB) rfl).2).1
    exact (show c = s from hc₂).trans hq
  | cons x l₂ =>
    rw [List.reverse_cons, ← List.cons_append] at hB
    have hq : x = q := (List.cons.inj (List.append_inj' hB rfl).2).1
    exact (show c = x from hc₂.1).trans hq

section Splice

variable [DecidableEq α] {p n v : α}

/-- Splicing `n` in behind `p`. -/
theorem insertAfter (hc : Chain next a (l₁ ++ p :: l₂) b) (hp₁ : p ∉ l₁) (hp₂ : p ∉ l₂)
    (hn : n ∉ l₁ ++ p :: l₂) :
    Chain (Function.update (Function.update next n (next p)) p n) a (l₁ ++ p :: n :: l₂) b := by
  simp only [List.mem_append, List.mem_cons, not_or] at hn
  obtain ⟨c, hc₁, rfl, hc₂⟩ := append_iff.mp hc
  refine append_iff.mpr ⟨c, (hc₁.update hn.1).update hp₁, rfl, ?_⟩
  rw [Function.update_self]
  refine ⟨rfl, ?_⟩
  rw [Function.update_of_ne hn.2.1, Function.update_self]
  exact (hc₂.update hn.2.2).update hp₂

/-- Taking out the node `n` behind `p`; its own link is free to be anything. -/
theorem removeAfter (hc : Chain next a (l₁ ++ p :: n :: l₂) b) (hp₁ : p ∉ l₁) (hp₂ : p ∉ n :: l₂)
    (hn₁ : n ∉ l₁) (hn₂ : n ∉ l₂) :
    Chain (Function.update (Function.update next p (next n)) n v) a (l₁ ++ p :: l₂) b := by
  simp only [List.mem_cons, not_or] at hp₂
  obtain ⟨c, hc₁, rfl, hcn, hc₂⟩ := append_iff.mp hc
  refine append_iff.mpr ⟨c, (hc₁.update hp₁).update hn₁, rfl, ?_⟩
  rw [Function.update_of_ne hp₂.1, Function.update_self]
  exact (hc₂.update hp₂.2).update hn₂

/-- Splicing `n` into the ring of `s` and `l₁ ++ l₂` behind the node that ends `s :: l₁`. -/
theorem ring_insert {s : α} {A : List α} (hc : Chain next s (s :: (l₁ ++ l₂)) s)
    (hnd : (s :: (l₁ ++ l₂)).Nodup) (hA : s :: l₁ = A ++ [p]) (hn : n ∉ s :: (l₁ ++ l₂)) :
    Chain (Function.update (Function.update next n (next p)) p n) s (s :: (l₁ ++ n :: l₂)) s := by
  rw [← List.cons_append, hA, List.append_assoc, List.singleton_append] at hc hnd hn ⊢
  obtain ⟨_, hnd₂, hdisj⟩ := List.nodup_append.mp hnd
  refine hc.insertAfter (fun hm => hdisj p hm p List.mem_cons_self rfl) ?_ hn
  exact (List.nodup_cons.mp hnd₂).1

/-- Taking `n` out of the ring of `s` and `l₁ ++ n :: l₂`, behind the node that ends `s :: l₁`. -/
theorem ring_remove {s : α} {A : List α} (hc : Chain next s (s :: (l₁ ++ n :: l₂)) s)
    (hnd : (s :: (l₁ ++ n :: l₂)).Nodup) (hA : s :: l₁ = A ++ [p]) :
    Chain (Function.update (Function.update next p (next n)) n v) s (s :: (l₁ ++ l₂)) s := by
  rw [← List.cons_append, hA, List.append_assoc, List.singleton_append] at hc hnd ⊢
  obtain ⟨_, hnd₂, hdisj⟩ := List.nodup_append.mp hnd
  obtain ⟨hp, hnd₃⟩ := List.nodup_cons.mp hnd₂
  refine hc.removeAfter (fun hm => hdisj p hm p List.mem_cons_self rfl) hp ?_
    (List.nodup_cons.mp hnd₃).1
  exact fun hm => hdisj n hm n (List.mem_cons_of_mem _ List.mem_cons_self) rfl

end Splice

end Chain

end Links
