import Mathlib.Data.List.Count
import Mathlib.Data.Nat.Basic
import Trilogicon.Lib.Bytes

/-!
# Delimited Text

Strings as UTF-8 byte strings, decimal numbers as text, and when a text
joined by a separator can be taken apart again.

Everything about separators follows from one fact, `append_sep_inj`: two
lists cut at a separator agree on both sides of the cut as soon as the parts
in front of it hold the same number of separators. The usual forms are
instances. A front field free of the separator has count zero, so the cut is
the first separator; a back field free of it fixes the count of the front
part from the total, so the cut is the last one. The general form is what a
text with unrestricted fields needs, where the count is the only thing left
to hold on to.

## Main definitions

* `utf8`: The UTF-8 bytes of a string.
* `fromUtf8`: The string a byte string encodes, if it is valid UTF-8.
* `joinWith`: Pieces joined by a separator.
* `sepEach`: Pieces, each after a separator.

## Theorems

* `utf8_inj`: A string is determined by its bytes.
* `utf8_append`: Bytes of a concatenation.
* `fromUtf8_utf8`: Reading back a written string.
* `utf8_of_fromUtf8`: Writing back a read string.
* `utf8_eq_flatMap`: Bytes of a string, character by character.
* `utf8_length_of_ascii`: One-byte characters take one byte each.
* `notMem_repr`: A decimal numeral holds digits only.
* `repr_toList_inj`: A number is determined by its numeral.
* `append_sep_inj`: Cutting at a separator, given equal counts in front.
* `append_sep_inj_left`: Cutting at the first separator.
* `append_sep_inj_right`: Cutting at the last separator.
* `count_joinWith`: The separators of joined pieces.
* `joinWith_inj`: Joined pieces with equal separator counts are equal.
* `cons_joinWith`: Joined pieces, with a separator in front of each.
* `sepEach_inj`: A field and the pieces after it, read from the end.
-/

namespace Trilogicon

/-! ### UTF-8 -/

/-- The UTF-8 bytes of a string. -/
def utf8 (s : String) : Bytes :=
  s.toByteArray.data.toList

/-- The string encoded by a byte string, if it is valid UTF-8. -/
def fromUtf8 (b : Bytes) : Option String :=
  String.fromUTF8? ⟨b.toArray⟩

theorem utf8_inj {s t : String} : utf8 s = utf8 t ↔ s = t := by
  constructor
  · intro h
    apply String.toByteArray_inj.mp
    apply ByteArray.ext
    exact Array.toList_inj.mp h
  · intro h
    rw [h]

theorem utf8_append (s t : String) : utf8 (s ++ t) = utf8 s ++ utf8 t := by
  simp only [utf8, String.toByteArray_append, ByteArray.data_append, Array.toList_append]

theorem fromUtf8_utf8 (s : String) : fromUtf8 (utf8 s) = some s := by
  have h : (⟨(utf8 s).toArray⟩ : ByteArray) = s.toByteArray := by
    apply ByteArray.ext
    simp only [utf8, Array.toArray_toList]
  rw [fromUtf8, h, String.fromUTF8?, dif_pos s.isValidUTF8]
  rfl

theorem utf8_of_fromUtf8 {b : Bytes} {s : String} (h : fromUtf8 b = some s) : utf8 s = b := by
  rw [fromUtf8, String.fromUTF8?] at h
  by_cases hv : (⟨b.toArray⟩ : ByteArray).IsValidUTF8
  · rw [dif_pos hv, Option.some.injEq] at h
    rw [← h]
    rfl
  · rw [dif_neg hv] at h
    exact absurd h (by simp only [reduceCtorEq, not_false_eq_true])

/-- The bytes of a string are the bytes of its characters in order. -/
theorem utf8_eq_flatMap (s : String) : utf8 s = s.toList.flatMap String.utf8EncodeChar := by
  rw [utf8, ← String.utf8Encode_toList, List.utf8Encode, List.toList_data_toByteArray]

/-- A text of one-byte characters takes one byte for each of them. -/
theorem utf8_length_of_ascii (s : String) (h : ∀ c ∈ s.toList, c.utf8Size = 1) :
    (utf8 s).length = s.toList.length := by
  rw [utf8_eq_flatMap]
  generalize s.toList = l at h
  induction l with
  | nil => rfl
  | cons c cs ih =>
      rw [List.flatMap_cons, List.length_append, String.length_utf8EncodeChar,
        h c List.mem_cons_self, ih (fun d hd => h d (List.mem_cons_of_mem c hd)),
        List.length_cons]
      omega

/-! ### Decimal numerals -/

/-- A decimal numeral holds digits only, so no other character occurs in it. -/
theorem notMem_repr (n : Nat) {c : Char} (hc : c.isDigit = false) : c ∉ n.repr.toList := by
  intro h
  rw [Nat.toList_repr] at h
  have := Nat.isDigit_of_mem_toDigits (by decide) (by decide) h
  rw [hc] at this
  exact absurd this (by decide)

/-- A numeral is read back by its digits. -/
theorem repr_toList_inj {m n : Nat} (h : m.repr.toList = n.repr.toList) : m = n := by
  rw [Nat.toList_repr, Nat.toList_repr] at h
  have hread := congrArg (fun ds => Nat.ofDigitChars 10 ds 0) h
  simp only [Nat.ofDigitChars_toDigits (by decide : 1 < 10) (by decide : 10 ≤ 10)] at hread
  exact hread

/-! ### Separators -/

section Separators

variable {α : Type*} [DecidableEq α] {c : α}

/-- Two lists cut at a separator agree on both sides when the front parts
    hold the same number of separators. -/
theorem append_sep_inj {xs ys a b : List α} (hcount : xs.count c = ys.count c)
    (h : xs ++ c :: a = ys ++ c :: b) : xs = ys ∧ a = b := by
  induction xs generalizing ys with
  | nil =>
      cases ys with
      | nil => exact ⟨rfl, (List.cons.inj h).2⟩
      | cons y ys =>
          -- The other front part would start with the separator.
          have hy : c = y := (List.cons.inj h).1
          rw [← hy, List.count_cons_self, List.count_nil] at hcount
          omega
  | cons x xs ih =>
      cases ys with
      | nil =>
          have hx : x = c := (List.cons.inj h).1
          rw [hx, List.count_cons_self, List.count_nil] at hcount
          omega
      | cons y ys =>
          rcases List.cons.inj h with ⟨hxy, htail⟩
          rw [hxy, List.count_cons, List.count_cons, Nat.add_right_cancel_iff] at hcount
          rcases ih hcount htail with ⟨hxs, hab⟩
          exact ⟨by rw [hxy, hxs], hab⟩

theorem append_sep_inj_left {xs ys a b : List α} (hx : c ∉ xs) (hy : c ∉ ys)
    (h : xs ++ c :: a = ys ++ c :: b) : xs = ys ∧ a = b :=
  append_sep_inj (by rw [List.count_eq_zero_of_not_mem hx, List.count_eq_zero_of_not_mem hy]) h

theorem append_sep_inj_right {xs ys a b : List α} (ha : c ∉ a) (hb : c ∉ b)
    (h : xs ++ c :: a = ys ++ c :: b) : xs = ys ∧ a = b := by
  have htotal := congrArg (List.count c) h
  rw [List.count_append, List.count_append, List.count_cons_self, List.count_cons_self,
    List.count_eq_zero_of_not_mem ha, List.count_eq_zero_of_not_mem hb] at htotal
  exact append_sep_inj (by omega) h

/-- Pieces joined by a separator, as `[T]::join` does it. -/
def joinWith (c : α) : List (List α) → List α
  | [] => []
  | [x] => x
  | x :: y :: rest => x ++ c :: joinWith c (y :: rest)

/-- Joined pieces are equal when they are equally many and hold, piece by
    piece, the same number of separators. -/
theorem joinWith_inj {xs ys : List (List α)}
    (hcount : xs.map (List.count c) = ys.map (List.count c))
    (h : joinWith c xs = joinWith c ys) : xs = ys := by
  induction xs generalizing ys with
  | nil =>
      cases ys with
      | nil => rfl
      | cons y ys => exact absurd hcount (by simp only [List.map_nil, List.map_cons, reduceCtorEq,
          not_false_eq_true])
  | cons x xs ih =>
      cases ys with
      | nil => exact absurd hcount (by simp only [List.map_nil, List.map_cons, reduceCtorEq,
          not_false_eq_true])
      | cons y ys =>
          rw [List.map_cons, List.map_cons, List.cons.injEq] at hcount
          -- The last piece has no separator after it.
          cases xs with
          | nil =>
              cases ys with
              | nil => rw [show x = y from h]
              | cons y' ys => exact absurd hcount.2 (by simp only [List.map_nil, List.map_cons,
                  reduceCtorEq, not_false_eq_true])
          | cons x' xs =>
              cases ys with
              | nil => exact absurd hcount.2 (by simp only [List.map_nil, List.map_cons,
                  reduceCtorEq, not_false_eq_true])
              | cons y' ys =>
                  rcases append_sep_inj hcount.1 h with ⟨hxy, hrest⟩
                  rw [hxy, ih hcount.2 hrest]

/-- The separators of joined pieces are those of the pieces and those between
    them. -/
theorem count_joinWith {xs : List (List α)} (h : xs ≠ []) :
    (joinWith c xs).count c + 1 = (xs.map (List.count c)).sum + xs.length := by
  induction xs with
  | nil => exact absurd rfl h
  | cons x xs ih =>
      cases xs with
      | nil => rw [joinWith, List.map_singleton, List.sum_singleton, List.length_singleton]
      | cons y xs =>
          have hrest := ih (List.cons_ne_nil y xs)
          rw [joinWith, List.count_append, List.count_cons_self, List.map_cons, List.sum_cons,
            List.length_cons]
          omega

/-- Pieces, each written after a separator. -/
def sepEach (c : α) (ps : List (List α)) : List α :=
  ps.flatMap fun p => c :: p

omit [DecidableEq α] in
theorem cons_joinWith {ps : List (List α)} (h : ps ≠ []) : c :: joinWith c ps = sepEach c ps := by
  induction ps with
  | nil => exact absurd rfl h
  | cons p ps ih =>
      cases ps with
      | nil => simp only [joinWith, sepEach, List.flatMap_cons, List.flatMap_nil, List.append_nil]
      | cons q ps =>
          rw [joinWith, ih (List.cons_ne_nil q ps)]
          rfl

omit [DecidableEq α] in
theorem append_sepEach_snoc (xs : List α) (ps : List (List α)) (p : List α) :
    xs ++ sepEach c (ps ++ [p]) = (xs ++ sepEach c ps) ++ c :: p := by
  simp only [sepEach, List.flatMap_append, List.flatMap_cons, List.flatMap_nil, List.append_nil,
    List.append_assoc]

/-- A text that ends in a field `u` and then pieces of another kind, read from
    its end: the pieces are taken off while they are of their kind, and the
    first segment that is not is the field. Whatever stands in front may hold
    separators. -/
theorem sepEach_inj {P : List α → Prop} {xs ys u v : List α} {ps qs : List (List α)}
    (hps : ∀ p ∈ ps, P p ∧ c ∉ p) (hqs : ∀ q ∈ qs, P q ∧ c ∉ q)
    (hu : ¬ P u ∧ c ∉ u) (hv : ¬ P v ∧ c ∉ v)
    (h : (xs ++ c :: u) ++ sepEach c ps = (ys ++ c :: v) ++ sepEach c qs) :
    xs = ys ∧ u = v ∧ ps = qs := by
  -- The induction is on the pieces from the end; a side that runs out of
  -- pieces first would make the field `u` or `v` a piece.
  induction ps using List.reverseRecOn generalizing qs with
  | nil =>
      rcases List.eq_nil_or_concat qs with rfl | ⟨qs', q, rfl⟩
      · simp only [sepEach, List.flatMap_nil, List.append_nil] at h
        rcases append_sep_inj_right hu.2 hv.2 h with ⟨hxy, huv⟩
        exact ⟨hxy, huv, rfl⟩
      · rw [List.concat_eq_append] at h hqs
        have hq := hqs q (List.mem_append_right _ List.mem_cons_self)
        rw [append_sepEach_snoc, sepEach, List.flatMap_nil, List.append_nil] at h
        have huq := (append_sep_inj_right hu.2 hq.2 h).2
        exact absurd (huq ▸ hq.1) hu.1
  | append_singleton ps' p ih =>
      have hp := hps p (List.mem_append_right _ List.mem_cons_self)
      have hps' : ∀ r ∈ ps', P r ∧ c ∉ r := fun r hr => hps r (List.mem_append_left _ hr)
      rw [append_sepEach_snoc] at h
      rcases List.eq_nil_or_concat qs with rfl | ⟨qs', q, rfl⟩
      · simp only [sepEach, List.flatMap_nil, List.append_nil] at h
        have hpv := (append_sep_inj_right hp.2 hv.2 h).2
        exact absurd (hpv ▸ hp.1) hv.1
      · rw [List.concat_eq_append] at h hqs
        have hq := hqs q (List.mem_append_right _ List.mem_cons_self)
        have hqs' : ∀ r ∈ qs', P r ∧ c ∉ r := fun r hr => hqs r (List.mem_append_left _ hr)
        rw [append_sepEach_snoc] at h
        rcases append_sep_inj_right hp.2 hq.2 h with ⟨hrest, hpq⟩
        rcases ih hps' hqs' hrest with ⟨hxy, huv, hpsqs⟩
        exact ⟨hxy, huv, by rw [hpsqs, hpq, List.concat_eq_append]⟩

end Separators

end Trilogicon
