import D4np.Ds.Hashmap
import D4np.Lib.WordMix
import Mathlib.Tactic

/-!
# FNV-1a

Each byte is mixed into the hash by an exclusive or and a multiplication by an odd prime, and both
can be undone.  So bytes mixed into different hashes keep them different
(`fnv1aContinue_injective`), and two strings that differ in one byte differ from there on.
-/

namespace D4np

open WordMix

namespace Hash

/-- `D4NP_FNV1A_PRIME`. -/
def fnv1aPrime : UInt64 := 1099511628211

/-- `D4NP_FNV1A_OFFSET_BASIS`. -/
def fnv1aOffsetBasis : UInt64 := 14695981039346656037

/-- The body of the loop of `d4np_hash_fnv1a_continue`. -/
def mix (h : UInt64) (b : UInt8) : UInt64 := (h ^^^ b.toUInt64) * fnv1aPrime

/-- `d4np_hash_fnv1a_continue`; a null buffer is `none`. -/
def fnv1aContinue (seed : UInt64) (data : Option (List UInt8)) : UInt64 :=
  match data with
  | none => seed
  | some p => p.foldl mix seed

/-- `d4np_hash_fnv1a`. -/
def fnv1a (data : Option (List UInt8)) : UInt64 := fnv1aContinue fnv1aOffsetBasis data

/-- `d4np_hash_fnv1a_str`: the bytes before the terminator; a null string is `none`. -/
def fnv1aStr (cstr : Option (List UInt8)) : UInt64 := fnv1a (cstr.map fun s => s.takeWhile (· ≠ 0))

theorem fnv1aContinue_append (seed : UInt64) (a b : List UInt8) :
    fnv1aContinue seed (some (a ++ b)) = fnv1aContinue (fnv1aContinue seed (some a)) (some b) :=
  List.foldl_append

/-- Chunks hashed one after the other. -/
theorem fnv1aContinue_flatten (seed : UInt64) (chunks : List (List UInt8)) :
    chunks.foldl (fun h c => fnv1aContinue h (some c)) seed =
      fnv1aContinue seed (some chunks.flatten) := by
  induction chunks generalizing seed with
  | nil => rfl
  | cons c chunks ih =>
    rw [List.foldl_cons, List.flatten_cons, fnv1aContinue_append]
    exact ih _

/-- The hash map has the same loop. -/
theorem defaultHash_eq {n : ℕ} (key : Vector UInt8 n) : defaultHash key = fnv1a (some key.toList) :=
  rfl

/-! ## Nothing is lost -/

theorem mix_left_injective (b : UInt8) : Function.Injective fun h => mix h b := by
  intro x y hxy
  have hxor : x ^^^ b.toUInt64 = y ^^^ b.toUInt64 :=
    uint64_mul_injective (a := fnv1aPrime) (by decide) hxy
  exact (UInt64.xor_left_inj b.toUInt64).mp hxor

theorem mix_right_injective (h : UInt64) : Function.Injective (mix h) := by
  intro b c hbc
  have hxor : h ^^^ b.toUInt64 = h ^^^ c.toUInt64 :=
    uint64_mul_injective (a := fnv1aPrime) (by decide) hbc
  have hword : b.toUInt64 = c.toUInt64 := (UInt64.xor_right_inj h).mp hxor
  exact UInt8.toUInt64_inj.mp hword

/-- Bytes mixed into different hashes keep them different. -/
theorem fnv1aContinue_injective (data : Option (List UInt8)) :
    Function.Injective fun seed => fnv1aContinue seed data := by
  rcases data with _ | p
  · exact Function.injective_id
  · induction p with
    | nil => exact Function.injective_id
    | cons b p ih => exact ih.comp (mix_left_injective b)

/-- Two lists that differ at one index agree before and behind it. -/
theorem exists_split {a b : List UInt8} {i : ℕ} (hlen : a.length = b.length) (hi : a[i]? ≠ b[i]?)
    (hrest : ∀ j, j ≠ i → a[j]? = b[j]?) :
    ∃ pre x y post, x ≠ y ∧ a = pre ++ x :: post ∧ b = pre ++ y :: post := by
  have hlt : i < a.length := by
    by_contra hge
    apply hi
    rw [List.getElem?_eq_none (by omega), List.getElem?_eq_none (by omega)]
  have hlt' : i < b.length := hlen ▸ hlt
  have hpre : a.take i = b.take i := by
    apply List.ext_getElem?
    intro j
    rw [List.getElem?_take, List.getElem?_take]
    split_ifs with hj
    · exact hrest j (by omega)
    · rfl
  have hpost : a.drop (i + 1) = b.drop (i + 1) := by
    apply List.ext_getElem?
    intro j
    rw [List.getElem?_drop, List.getElem?_drop]
    exact hrest _ (by omega)
  refine ⟨a.take i, a[i], b[i], a.drop (i + 1), fun hxy => hi ?_, ?_, ?_⟩
  · rw [List.getElem?_eq_getElem hlt, List.getElem?_eq_getElem hlt', hxy]
  · rw [← List.drop_eq_getElem_cons hlt, List.take_append_drop]
  · rw [hpre, hpost, ← List.drop_eq_getElem_cons hlt', List.take_append_drop]

/-- **FNV-1a.** Chunks hashed one after the other from the offset basis give the hash of the whole,
however it was cut; the hash map's own hash is the same one; the seed can be told from the hash for
all data; and byte strings of one length that differ in exactly one byte have different hashes. -/
theorem fnv1a_laws :
    (∀ chunks : List (List UInt8),
      chunks.foldl (fun h c => fnv1aContinue h (some c)) fnv1aOffsetBasis =
        fnv1a (some chunks.flatten)) ∧
    (∀ (n : ℕ) (key : Vector UInt8 n), fnv1a (some key.toList) = defaultHash key) ∧
    (∀ data, Function.Injective fun seed => fnv1aContinue seed data) ∧
    ∀ (a b : List UInt8) (i : ℕ), a.length = b.length → a[i]? ≠ b[i]? →
      (∀ j, j ≠ i → a[j]? = b[j]?) → fnv1a (some a) ≠ fnv1a (some b) := by
  refine ⟨fun chunks => fnv1aContinue_flatten _ chunks, fun n key => (defaultHash_eq key).symm,
    fnv1aContinue_injective, fun a b i hlen hi hrest heq => ?_⟩
  obtain ⟨pre, x, y, post, hxy, rfl, rfl⟩ := exists_split hlen hi hrest
  unfold fnv1a at heq
  rw [fnv1aContinue_append, fnv1aContinue_append] at heq
  have hmix : mix _ x = mix _ y := fnv1aContinue_injective (some post) heq
  exact hxy (mix_right_injective _ hmix)

/-- `ab` and `ac` have different hashes. -/
theorem fnv1a_laws_second_byte : fnv1a (some [97, 98]) ≠ fnv1a (some [97, 99]) := by
  refine fnv1a_laws.2.2.2 [97, 98] [97, 99] 1 rfl (by decide) fun j hj => ?_
  rcases j with _ | _ | j
  · rfl
  · exact absurd rfl hj
  · rfl

end Hash

end D4np
