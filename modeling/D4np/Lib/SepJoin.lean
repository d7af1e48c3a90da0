import Mathlib.Data.List.DropRight
import Mathlib.Data.List.TakeWhile
import Mathlib.Tactic

/-!
# Joining lists with a separator

Some elements are separators; `s` is the one a join puts in.  A join drops the separators at the end
of the left list and at the start of the right one and puts one `s` between what is left, unless one
side is empty; a left list of separators only is a root and stays one.  The front of a join is read
off its parts (`dropWhile_join`), and so is its end (`rdropWhile_join`); both are again a join of
trimmed lists, and joining those is associative (`glue_assoc`).  So the join is (`join_assoc`).  It
commutes with a map (`map_join`).

Where fields are written with one `s` between two of them, the elements `s` of the text are counted
by the fields and by those inside of them (`count_intercalate`).
-/

namespace SepJoin

variable {α : Type*} (p : α → Bool) (s : α)

/-- Two lists with `s` between them, unless one is empty. -/
def glue (l r : List α) : List α := l ++ (if l ≠ [] ∧ r ≠ [] then [s] else []) ++ r

/-- A list of separators, with at least one. -/
def IsRoot (a : List α) : Prop := a ≠ [] ∧ ∀ x ∈ a, p x

instance (a : List α) : Decidable (IsRoot p a) := inferInstanceAs (Decidable (_ ∧ _))

/-- The join of two lists. -/
def join (a b : List α) : List α :=
  if IsRoot p a then s :: b.dropWhile p else glue s (a.rdropWhile p) (b.dropWhile p)

variable {p s}

/-! ## Glue -/

@[simp] theorem glue_nil_left (r : List α) : glue s [] r = r := by
  simp [glue]

@[simp] theorem glue_nil_right (l : List α) : glue s l [] = l := by
  simp [glue]

theorem glue_of_ne {l r : List α} (hl : l ≠ []) (hr : r ≠ []) : glue s l r = l ++ s :: r := by
  simp [glue, hl, hr]

theorem glue_eq_nil_iff {l r : List α} : glue s l r = [] ↔ l = [] ∧ r = [] := by
  by_cases hl : l = []
  · simp [hl]
  · by_cases hr : r = []
    · simp [hr]
    · simp [glue_of_ne hl hr, hl]

theorem glue_assoc (x y z : List α) : glue s (glue s x y) z = glue s x (glue s y z) := by
  by_cases hx : x = []
  · simp [hx]
  by_cases hy : y = []
  · simp [hy]
  by_cases hz : z = []
  · simp [hz]
  have hxy : glue s x y ≠ [] := fun h => hx (glue_eq_nil_iff.mp h).1
  have hyz : glue s y z ≠ [] := fun h => hy (glue_eq_nil_iff.mp h).1
  rw [glue_of_ne hxy hz, glue_of_ne hx hyz, glue_of_ne hx hy, glue_of_ne hy hz]
  simp

/-! ## Trimming -/

theorem rdropWhile_eq_nil_iff_dropWhile (a : List α) : a.rdropWhile p = [] ↔ a.dropWhile p = [] := by
  rw [List.rdropWhile_eq_nil_iff, List.dropWhile_eq_nil_iff]

/-- What is trimmed at the front does not begin with a separator. -/
theorem dropWhile_eq_self_of_prefix {a b : List α} (h : a <+: b) (hb : b.dropWhile p = b) :
    a.dropWhile p = a := by
  obtain ⟨t, rfl⟩ := h
  cases a with
  | nil => rfl
  | cons x a =>
    rw [List.cons_append, List.dropWhile_cons] at hb
    split_ifs at hb with hx
    · have hlen := congrArg List.length hb
      have := (List.dropWhile_sublist p (l := a ++ t)).length_le
      rw [List.length_cons] at hlen
      omega
    · rw [List.dropWhile_cons, if_neg hx]

theorem dropWhile_append_of_ne {a : List α} (h : a.dropWhile p ≠ []) (b : List α) :
    (a ++ b).dropWhile p = a.dropWhile p ++ b := by
  rw [List.dropWhile_append, if_neg (by simpa using h)]

theorem rdropWhile_append_of_ne {b : List α} (h : b.rdropWhile p ≠ []) (a : List α) :
    (a ++ b).rdropWhile p = a ++ b.rdropWhile p := by
  have hrev : (b.reverse).dropWhile p ≠ [] := by
    intro he
    apply h
    rw [List.rdropWhile, he, List.reverse_nil]
  rw [List.rdropWhile, List.reverse_append, dropWhile_append_of_ne hrev, List.reverse_append,
    List.reverse_reverse]
  rfl

/-- The two trims commute. -/
theorem dropWhile_rdropWhile (a : List α) :
    (a.rdropWhile p).dropWhile p = (a.dropWhile p).rdropWhile p := by
  by_cases h : a.dropWhile p = []
  · rw [h, (rdropWhile_eq_nil_iff_dropWhile a).mpr h]
    simp
  · have hne : (a.dropWhile p).rdropWhile p ≠ [] := by
      intro he
      rw [rdropWhile_eq_nil_iff_dropWhile, List.dropWhile_idempotent] at he
      exact h he
    conv_lhs => rw [← List.takeWhile_append_dropWhile (p := p) (l := a), rdropWhile_append_of_ne hne,
      List.dropWhile_append_of_pos (fun x hx => List.mem_takeWhile_imp hx)]
    exact dropWhile_eq_self_of_prefix (List.rdropWhile_prefix p _) (List.dropWhile_idempotent p a)

/-! ## The join -/

variable {a b c : List α}

theorem join_of_root (h : IsRoot p a) : join p s a b = s :: b.dropWhile p := if_pos h

theorem join_of_not_root (h : ¬IsRoot p a) :
    join p s a b = glue s (a.rdropWhile p) (b.dropWhile p) := if_neg h

/-- What is in a join. -/
theorem mem_join {x : α} (h : x ∈ join p s a b) : x = s ∨ x ∈ a ∨ x ∈ b := by
  have hl : x ∈ a.rdropWhile p → x ∈ a := fun hx => (List.rdropWhile_prefix p a).subset hx
  have hr : x ∈ b.dropWhile p → x ∈ b := fun hx => (List.dropWhile_sublist p).subset hx
  unfold join glue at h
  split_ifs at h <;> simp at h <;> tauto

/-- A list that is no root is empty or has something that is no separator. -/
theorem not_isRoot_iff : ¬IsRoot p a ↔ a = [] ∨ a.dropWhile p ≠ [] := by
  have h := List.dropWhile_eq_nil_iff (p := p) (l := a)
  unfold IsRoot
  tauto

theorem dropWhile_glue (hb : b.dropWhile p ≠ []) (c : List α) :
    (glue s b c).dropWhile p = glue s (b.dropWhile p) c := by
  by_cases hz : c = []
  · simp [hz]
  · have hne : b ≠ [] := by
      rintro rfl
      exact hb rfl
    rw [glue_of_ne hne hz, glue_of_ne hb hz, dropWhile_append_of_ne hb]

/-- **The front of a join.** -/
theorem dropWhile_join (hs : p s = true) (b c : List α) :
    (join p s b c).dropWhile p = glue s ((b.dropWhile p).rdropWhile p) (c.dropWhile p) := by
  have hc := List.dropWhile_idempotent p c
  by_cases hroot : IsRoot p b
  · rw [join_of_root hroot, List.dropWhile_cons, if_pos hs, hc,
      List.dropWhile_eq_nil_iff.mpr hroot.2]
    simp
  · rw [join_of_not_root hroot, ← dropWhile_rdropWhile]
    rcases not_isRoot_iff.mp hroot with rfl | hb
    · simpa using hc
    · apply dropWhile_glue
      rwa [dropWhile_rdropWhile, Ne, rdropWhile_eq_nil_iff_dropWhile, List.dropWhile_idempotent]

/-- **The end of a join** whose left list is no root. -/
theorem rdropWhile_join (h : ¬IsRoot p a) (b : List α) :
    (join p s a b).rdropWhile p = glue s (a.rdropWhile p) ((b.dropWhile p).rdropWhile p) := by
  rw [join_of_not_root h]
  by_cases ha : a.rdropWhile p = []
  · simp [ha]
  by_cases hb : b.dropWhile p = []
  · simp [hb, List.rdropWhile_idempotent]
  · have hne : (b.dropWhile p).rdropWhile p ≠ [] := by
      rwa [Ne, rdropWhile_eq_nil_iff_dropWhile, List.dropWhile_idempotent]
    have hcons : (s :: b.dropWhile p).rdropWhile p = s :: (b.dropWhile p).rdropWhile p :=
      rdropWhile_append_of_ne hne [s]
    rw [glue_of_ne ha hb, glue_of_ne ha hne, rdropWhile_append_of_ne (by simp [hcons]), hcons]

/-- A join whose left list is no root is no root. -/
theorem not_isRoot_join (h : ¬IsRoot p a) (b : List α) : ¬IsRoot p (join p s a b) := by
  rw [not_isRoot_iff]
  by_cases hr : (join p s a b).rdropWhile p = []
  · left
    rw [rdropWhile_join h, glue_eq_nil_iff, rdropWhile_eq_nil_iff_dropWhile (b.dropWhile p),
      List.dropWhile_idempotent] at hr
    rw [join_of_not_root h, hr.1, hr.2, glue_nil_left]
  · right
    rwa [Ne, ← rdropWhile_eq_nil_iff_dropWhile]

/-- The join of a root and a trimmed list is joined like the list. -/
theorem join_cons (hs : p s = true) (hb : b.dropWhile p = b) (c : List α) :
    join p s (s :: b) c = s :: glue s (b.rdropWhile p) (c.dropWhile p) := by
  by_cases hz : b = []
  · subst hz
    rw [join_of_root ⟨by simp, by simpa using hs⟩]
    simp
  · have hne : b.rdropWhile p ≠ [] := by
      rwa [Ne, rdropWhile_eq_nil_iff_dropWhile, hb]
    have hroot : ¬IsRoot p (s :: b) := by
      rw [not_isRoot_iff, List.dropWhile_cons, if_pos hs, hb]
      exact Or.inr hz
    have hcons : (s :: b).rdropWhile p = s :: b.rdropWhile p := rdropWhile_append_of_ne hne [s]
    rw [join_of_not_root hroot, hcons]
    by_cases hc : c.dropWhile p = []
    · simp [hc]
    · rw [glue_of_ne (by simp) hc, glue_of_ne hne hc]
      rfl

/-- **The join is associative.** -/
theorem join_assoc (hs : p s = true) (a b c : List α) :
    join p s (join p s a b) c = join p s a (join p s b c) := by
  by_cases hroot : IsRoot p a
  · rw [join_of_root hroot, join_of_root hroot, dropWhile_join hs,
      join_cons hs (List.dropWhile_idempotent p b)]
  · rw [join_of_not_root (not_isRoot_join hroot b), rdropWhile_join hroot, glue_assoc,
      join_of_not_root hroot, dropWhile_join hs]

/-! ## Empty sides and the first element -/

theorem join_nil_left (b : List α) : join p s [] b = b.dropWhile p := by
  rw [join_of_not_root (fun h => h.1 rfl), List.rdropWhile_nil, glue_nil_left]

theorem join_nil_right (a : List α) :
    join p s a [] = if IsRoot p a then [s] else a.rdropWhile p := by
  unfold join
  simp

/-- What is trimmed at the end begins like the list. -/
theorem head?_rdropWhile (h : a.rdropWhile p ≠ []) : (a.rdropWhile p).head? = a.head? := by
  obtain ⟨t, ht⟩ := List.rdropWhile_prefix p a
  rw [← ht, List.head?_append_of_ne_nil _ h]
  rw [ht]

/-- **The first element of a join** is a separator exactly if the left list begins with one. -/
theorem head?_join (hs : p s = true) (a b : List α) :
    (∃ x ∈ (join p s a b).head?, p x = true) ↔ ∃ x ∈ a.head?, p x = true := by
  by_cases hroot : IsRoot p a
  · obtain ⟨hne, hall⟩ := hroot
    rw [join_of_root ⟨hne, hall⟩]
    refine iff_of_true ⟨s, rfl, hs⟩ ⟨a.head hne, List.head?_eq_some_head hne, ?_⟩
    exact hall _ (List.head_mem hne)
  · rw [join_of_not_root hroot]
    by_cases ha : a.rdropWhile p = []
    · -- an empty left list; what is left of the right one does not begin with a separator
      have hnil : a = [] := by
        refine (not_isRoot_iff.mp hroot).resolve_right fun h => h ?_
        exact (rdropWhile_eq_nil_iff_dropWhile a).mp ha
      subst hnil
      rw [List.rdropWhile_nil, glue_nil_left]
      refine iff_of_false ?_ (by simp)
      rintro ⟨x, hx, hp⟩
      have := List.head?_dropWhile_not p b
      rw [Option.mem_def.mp hx] at this
      simp [hp] at this
    · have hhead : (glue s (a.rdropWhile p) (b.dropWhile p)).head? = (a.rdropWhile p).head? := by
        unfold glue
        rw [List.append_assoc, List.head?_append_of_ne_nil _ ha]
      rw [hhead, head?_rdropWhile ha]

/-! ## Mapping -/

section Map

variable {β : Type*} (f : β → α)

theorem rdropWhile_map (l : List β) : (l.map f).rdropWhile p = (l.rdropWhile (p ∘ f)).map f := by
  rw [List.rdropWhile, ← List.map_reverse, List.dropWhile_map, ← List.map_reverse]
  rfl

theorem isRoot_map (l : List β) : IsRoot p (l.map f) ↔ IsRoot (p ∘ f) l := by
  simp [IsRoot]

theorem map_glue (t : β) (l r : List β) :
    (glue t l r).map f = glue (f t) (l.map f) (r.map f) := by
  unfold glue
  simp only [List.map_append, ne_eq, List.map_eq_nil_iff, apply_ite (List.map f), List.map_singleton,
    List.map_nil]

/-- The join of the images, with elements that are separators if their images are. -/
theorem map_join (t : β) (a b : List β) :
    (join (p ∘ f) t a b).map f = join p (f t) (a.map f) (b.map f) := by
  by_cases hroot : IsRoot (p ∘ f) a
  · rw [join_of_root hroot, join_of_root ((isRoot_map f a).mpr hroot), List.map_cons,
      List.dropWhile_map]
  · rw [join_of_not_root hroot, join_of_not_root (mt (isRoot_map f a).mp hroot), map_glue,
      rdropWhile_map, List.dropWhile_map]

end Map

/-! ## Texts of fields -/

/-- A text of fields is empty only if it is that of one empty field. -/
theorem intercalate_eq_nil_iff {fields : List (List α)} (hne : fields ≠ []) :
    [s].intercalate fields = [] ↔ fields = [[]] := by
  rcases fields with _ | ⟨f, _ | ⟨g, fields⟩⟩
  · exact absurd rfl hne
  · rw [List.intercalate_singleton, List.cons.injEq]
    exact (and_iff_left rfl).symm
  · rw [List.intercalate_cons_of_ne_nil (List.cons_ne_nil g fields)]
    simp

variable [DecidableEq α]

/-- The separators in a text of fields: those between two fields, and those inside of them. -/
theorem count_intercalate {fields : List (List α)} (hne : fields ≠ []) :
    ([s].intercalate fields).count s + 1 = fields.length + (fields.map (List.count s)).sum := by
  induction fields with
  | nil => exact absurd rfl hne
  | cons f fields ih =>
    by_cases hnil : fields = []
    · subst hnil
      simp [Nat.add_comm]
    · rw [List.intercalate_cons_of_ne_nil hnil, List.count_append, List.count_append,
        List.count_singleton_self, List.length_cons, List.map_cons, List.sum_cons]
      have := ih hnil
      omega

theorem sum_count_eq_zero {fields : List (List α)} (h : ∀ f ∈ fields, s ∉ f) :
    (fields.map (List.count s)).sum = 0 := by
  refine List.sum_eq_zero_iff_forall_eq_nat.mpr fun n hn => ?_
  obtain ⟨f, hf, rfl⟩ := List.mem_map.mp hn
  exact List.count_eq_zero_of_not_mem (h f hf)

end SepJoin
