import Mathlib.Data.Finset.Insert
import Mathlib.Data.List.Nodup

/-!
# First and Later Elements of a Key

Lists whose elements have a key, and which elements come first for theirs.

A pass that remembers the keys it has met finds the elements that are not the
first of their key. `repeats` is that pass. An element is found by it when an
earlier one has its key, and left when a search for the key stops at it. A key
has a later element exactly if it has two, and no key has one exactly if the
keys are without duplicates.

## Main definitions

* `repeats`: The elements whose key was met before.

## Theorems

* `split_cons_iff`: Where an element stands in a list.
* `mem_repeats`: An element is found when an earlier one has its key.
* `mem_repeats_iff_find`: An element is left when it is the first of its key.
* `exists_repeats_iff`: A key has a later element when it has two.
* `nodup_keys_iff`: Keys without duplicates have at most one element each.
-/

namespace Trilogicon

universe u v

variable {α : Type u} {κ : Type v} [DecidableEq κ]

/-- The elements whose key was met before, by a pass that remembers keys. -/
def repeats (key : α → κ) : Finset κ → List α → List α
  | _, [] => []
  | seen, x :: xs =>
      if key x ∈ seen then x :: repeats key seen xs
      else repeats key (insert (key x) seen) xs

/-- An element stands at the head of a list, or behind it. -/
theorem split_cons_iff {P : List α → Prop} {a x : α} {xs : List α} :
    (∃ pre post, a :: xs = pre ++ x :: post ∧ P pre) ↔
      (a = x ∧ P []) ∨ ∃ pre post, xs = pre ++ x :: post ∧ P (a :: pre) := by
  constructor
  · intro h
    rcases h with ⟨pre, post, hxs, hpre⟩
    cases pre with
    | nil =>
        rw [List.nil_append, List.cons.injEq] at hxs
        exact Or.inl ⟨hxs.1, hpre⟩
    | cons b pre =>
        rw [List.cons_append, List.cons.injEq] at hxs
        exact Or.inr ⟨pre, post, hxs.2, hxs.1 ▸ hpre⟩
  · intro h
    rcases h with ⟨hax, hnil⟩ | ⟨pre, post, hxs, hpre⟩
    · exact ⟨[], xs, by rw [hax, List.nil_append], hnil⟩
    · exact ⟨a :: pre, post, by rw [hxs, List.cons_append], hpre⟩

/-- An element is found when its key was known or an earlier one has it. -/
theorem mem_repeats {key : α → κ} {xs : List α} {seen : Finset κ} {x : α} :
    x ∈ repeats key seen xs ↔ ∃ pre post, xs = pre ++ x :: post ∧
      (key x ∈ seen ∨ ∃ y ∈ pre, key y = key x) := by
  induction xs generalizing seen with
  | nil =>
      constructor
      · intro h
        exact absurd h List.not_mem_nil
      · intro h
        rcases h with ⟨pre, post, hxs, _⟩
        exact absurd hxs.symm (List.append_ne_nil_of_right_ne_nil pre (List.cons_ne_nil x post))
  | cons a xs ih =>
      -- Behind the head its key is known.
      have hlater : ∀ pre : List α, (key x ∈ seen ∨ ∃ y ∈ a :: pre, key y = key x) ↔
          (key x ∈ insert (key a) seen ∨ ∃ y ∈ pre, key y = key x) := by
        intro pre
        rw [List.exists_mem_cons_iff, Finset.mem_insert, eq_comm (a := key a), ← or_assoc,
          or_comm (a := key x ∈ seen)]
      rw [split_cons_iff, repeats]
      simp only [hlater, ← ih, List.not_mem_nil, false_and, exists_false, or_false]
      by_cases ha : key a ∈ seen
      · rw [if_pos ha, List.mem_cons, Finset.insert_eq_of_mem ha]
        exact or_congr_left ⟨fun h => ⟨h.symm, h ▸ ha⟩, fun h => h.1.symm⟩
      · have hnot : ¬ (a = x ∧ key x ∈ seen) := fun h => ha (h.1 ▸ h.2)
        rw [if_neg ha, or_iff_right hnot]

theorem mem_of_mem_repeats {key : α → κ} {xs : List α} {seen : Finset κ} {x : α}
    (h : x ∈ repeats key seen xs) : x ∈ xs := by
  rcases mem_repeats.mp h with ⟨pre, post, rfl, _⟩
  exact List.mem_append_right pre List.mem_cons_self

/-- An element is left when the search for its key stops at it. -/
theorem mem_repeats_iff_find {key : α → κ} {xs : List α} (hxs : xs.Nodup) {x : α}
    (hx : x ∈ xs) :
    x ∈ repeats key ∅ xs ↔ xs.find? (fun y => key y = key x) ≠ some x := by
  rw [mem_repeats]
  constructor
  · intro h
    rcases h with ⟨pre, post, rfl, hmem | ⟨y, hy, hkey⟩⟩
    · exact absurd hmem (Finset.notMem_empty _)
    · intro hfind
      -- The search stops inside of the part before the element.
      rw [List.find?_append] at hfind
      cases hpre : pre.find? (fun y => key y = key x) with
      | none =>
          have hnone := List.find?_eq_none.mp hpre y hy
          exact hnone (decide_eq_true hkey)
      | some z =>
          rw [hpre, Option.some_or, Option.some.injEq] at hfind
          have hin : x ∈ pre := hfind ▸ List.mem_of_find?_eq_some hpre
          exact (List.nodup_append.mp hxs).2.2 x hin x List.mem_cons_self rfl
  · intro h
    rcases List.append_of_mem hx with ⟨pre, post, rfl⟩
    refine ⟨pre, post, rfl, Or.inr ?_⟩
    by_contra hnone
    apply h
    have hpre : pre.find? (fun y => key y = key x) = none := by
      rw [List.find?_eq_none]
      intro y hy hkey
      exact hnone ⟨y, hy, of_decide_eq_true hkey⟩
    rw [List.find?_append, hpre, Option.none_or]
    exact List.find?_cons_of_pos (decide_eq_true rfl)

/-- A key has a later element when it has two. -/
theorem exists_repeats_iff {key : α → κ} {xs : List α} {k : κ} :
    (∃ x ∈ repeats key ∅ xs, key x = k) ↔ 2 ≤ (xs.filter fun x => key x = k).length := by
  constructor
  · intro h
    rcases h with ⟨x, hx, hk⟩
    rcases mem_repeats.mp hx with ⟨pre, post, rfl, hmem | ⟨y, hy, hkey⟩⟩
    · exact absurd hmem (Finset.notMem_empty _)
    · have hpos : 0 < (pre.filter fun x => key x = k).length :=
        List.length_pos_of_mem (List.mem_filter.mpr ⟨hy, decide_eq_true (hkey.trans hk)⟩)
      have hhead : ((x :: post).filter fun x => key x = k) =
          x :: post.filter fun x => key x = k :=
        List.filter_cons_of_pos (decide_eq_true hk)
      rw [List.filter_append, hhead, List.length_append, List.length_cons]
      omega
  · intro h
    cases hf : xs.filter (fun x => key x = k) with
    | nil =>
        rw [hf] at h
        exact absurd h (by simp only [List.length_nil]; omega)
    | cons x rest =>
        cases rest with
        | nil =>
            rw [hf] at h
            exact absurd h (by simp only [List.length_cons, List.length_nil]; omega)
        | cons y rest =>
            -- The second element of the key stands behind the first.
            rcases List.filter_eq_cons_iff.mp hf with ⟨pre, mid, rfl, _, hx, hmid⟩
            rcases List.filter_eq_cons_iff.mp hmid with ⟨pre', post, rfl, _, hy, _⟩
            have hxk := of_decide_eq_true hx
            have hyk := of_decide_eq_true hy
            refine ⟨y, mem_repeats.mpr ⟨pre ++ x :: pre', post, ?_, Or.inr ⟨x, ?_, ?_⟩⟩, hyk⟩
            · rw [List.append_assoc, List.cons_append]
            · exact List.mem_append_right pre List.mem_cons_self
            · rw [hxk, hyk]

/-- Keys without duplicates have at most one element each. -/
theorem nodup_keys_iff {key : α → κ} {xs : List α} :
    (xs.map key).Nodup ↔ ∀ k, (xs.filter fun x => key x = k).length ≤ 1 := by
  rw [List.nodup_iff_count_le_one]
  refine forall_congr' fun k => ?_
  rw [List.count, List.countP_map, List.countP_eq_length_filter]
  exact Iff.rfl

end Trilogicon
