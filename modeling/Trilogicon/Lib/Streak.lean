import Mathlib.Algebra.BigOperators.Group.Finset.Basic
import Mathlib.Algebra.Order.BigOperators.Group.Finset
import Mathlib.Data.List.Basic

/-!
# Failures in a Row

A counter that goes up at a failure and back to zero at anything else holds the
number of failures since the last success. What it held before only counts as
long as nothing has succeeded.

Such counters are kept to wait between attempts. The second part is what the
waiting amounts to: times that are each some distance after the one before are,
all together, the sum of the distances apart, so that only so many of them fit
between two readings of a clock.

The events of a run come in rounds, and some of them are about one party. The
last part finds such events in the run.

## Main definitions

* `inRow`: The failures in a row at the end of a list.

## Theorems

* `inRow_append`: The counter goes on from what it held.
* `inRow_of_all`: Without a success it counts every failure.
* `add_sum_le_of_spaced`: How far apart the first and the last time are.
* `sum_le_of_spaced`: The distances that fit between two times.
* `flatMap_eq_append_cons`: An event happens in one of the rounds.
* `filter_eq_append_cons_cons`: Two events of one party that follow each other.
-/

namespace Trilogicon

section Streak

variable {α : Type*} (failed : α → Bool)

/-- The failures in a row at the end of a list, with `k` of them before it. -/
def inRow (k : Nat) (l : List α) : Nat :=
  l.foldl (fun k x => if failed x then k + 1 else 0) k

@[simp] theorem inRow_nil (k : Nat) : inRow failed k [] = k :=
  rfl

/-- The counter goes on from what it held. -/
theorem inRow_append (k : Nat) (l m : List α) :
    inRow failed k (l ++ m) = inRow failed (inRow failed k l) m :=
  List.foldl_append

theorem inRow_concat (k : Nat) (l : List α) (x : α) :
    inRow failed k (l ++ [x]) = if failed x then inRow failed k l + 1 else 0 :=
  inRow_append failed k l [x]

/-- Without a success it counts every failure. -/
theorem inRow_of_all {k : Nat} {l : List α} (h : ∀ x ∈ l, failed x = true) :
    inRow failed k l = k + l.length := by
  induction l using List.reverseRecOn with
  | nil => rfl
  | append_singleton l x ih =>
      rw [inRow_concat, if_pos (h x (by simp)), ih fun y hy => h y (by simp [hy]),
        List.length_append, List.length_singleton, Nat.add_assoc]

end Streak

section Spacing

variable {α : Type*} (time : α → Nat) (gap : Nat → Nat) {lo : Nat}

/-- Times that are each some distance after the one before are the sum of the
    distances apart. -/
theorem add_sum_le_of_spaced {l : List α} {x : α} (hlo : ∀ y ∈ l ++ [x], lo ≤ time y)
    (h : ∀ pre y z post, l ++ [x] = pre ++ y :: z :: post → time y + gap pre.length ≤ time z) :
    lo + ∑ i ∈ Finset.range l.length, gap i ≤ time x := by
  induction l using List.reverseRecOn generalizing x with
  | nil =>
      have := hlo x (by simp)
      simpa using this
  | append_singleton l y ih =>
      have hy : lo + ∑ i ∈ Finset.range l.length, gap i ≤ time y := by
        refine ih (fun z hz => hlo z (List.mem_append_left _ hz)) fun pre z z' post heq => ?_
        exact h pre z z' (post ++ [x]) (by rw [heq]; simp)
      have hlast := h l y x [] (by simp)
      rw [List.length_append, List.length_singleton, Finset.sum_range_succ]
      omega

/-- Only so many of them are at most `hi`. -/
theorem sum_le_of_spaced {l : List α} {hi : Nat} (hin : ∀ y ∈ l, lo ≤ time y ∧ time y ≤ hi)
    (h : ∀ pre y z post, l = pre ++ y :: z :: post → time y + gap pre.length ≤ time z) :
    ∑ i ∈ Finset.range (l.length - 1), gap i ≤ hi - lo := by
  rcases List.eq_nil_or_concat l with rfl | ⟨l, x, rfl⟩
  · simp
  · rw [List.concat_eq_append] at hin h ⊢
    have hsum := add_sum_le_of_spaced time gap (fun y hy => (hin y hy).1) h
    have hx := (hin x (by simp)).2
    rw [List.length_append, List.length_singleton, Nat.add_sub_cancel]
    omega

end Spacing

section Rounds

variable {α β : Type*} {f : α → List β}

/-- An event of a run that is made of rounds happens in one of them. -/
theorem flatMap_eq_append_cons {l : List α} {before after : List β} {x : β}
    (h : l.flatMap f = before ++ x :: after) :
    ∃ l₁ a l₂ pre post, l = l₁ ++ a :: l₂ ∧ f a = pre ++ x :: post ∧
      before = l₁.flatMap f ++ pre ∧ after = post ++ l₂.flatMap f := by
  induction l generalizing before with
  | nil => exact absurd h.symm (by simp)
  | cons a l ih =>
      rw [List.flatMap_cons, List.append_eq_append_iff] at h
      rcases h with ⟨mid, rfl, hrest⟩ | ⟨mid, hround, hrest⟩
      · rcases ih hrest with ⟨l₁, a', l₂, pre, post, rfl, hround, rfl, rfl⟩
        exact ⟨a :: l₁, a', l₂, pre, post, rfl, hround, by simp, rfl⟩
      · rcases mid with _ | ⟨y, mid⟩
        · -- The round ends just before the event.
          rw [List.append_nil] at hround
          have hnext : l.flatMap f = [] ++ x :: after := hrest.symm
          rcases ih hnext with ⟨l₁, a', l₂, pre, post, rfl, hround', hnil, rfl⟩
          refine ⟨a :: l₁, a', l₂, pre, post, rfl, hround', ?_, rfl⟩
          rw [List.flatMap_cons, List.append_assoc, ← hnil, List.append_nil, hround]
        · rw [List.cons_append, List.cons.injEq] at hrest
          rcases hrest with ⟨rfl, rfl⟩
          exact ⟨[], a, l, before, mid, rfl, hround, rfl, rfl⟩

/-- Two of some events that follow each other, among all events. -/
theorem filter_eq_append_cons_cons {q : β → Bool} {l pre post : List β} {y z : β}
    (h : l.filter q = pre ++ y :: z :: post) :
    ∃ before mid after, l = before ++ y :: (mid ++ z :: after) ∧ before.filter q = pre ∧
      ∀ x ∈ mid, ¬ q x = true := by
  rcases List.filter_eq_append_iff.mp h with ⟨l₁, l₂, rfl, hpre, hrest⟩
  rcases List.filter_eq_cons_iff.mp hrest with ⟨m₁, l₃, rfl, hm₁, _, hrest⟩
  rcases List.filter_eq_cons_iff.mp hrest with ⟨mid, after, rfl, hmid, _, _⟩
  refine ⟨l₁ ++ m₁, mid, after, by simp, ?_, hmid⟩
  rw [List.filter_append, hpre, List.filter_eq_nil_iff.mpr hm₁, List.append_nil]

end Rounds

end Trilogicon
