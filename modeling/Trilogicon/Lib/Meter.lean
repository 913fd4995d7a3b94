import Mathlib.Data.List.Chain
import Mathlib.Data.List.Basic

/-!
# Counters Along a Run

A run is a list of turns, and a counter is a number that every turn finds and
hands to the next. A counter keeps count of an event if it starts at zero and
a turn hands on one more exactly if the event happened in it.

What a program can test is the counter; what a limit is about are the events.
`Metered.count_eq` goes from one to the other, at any turn, and a test that is
made at each event bounds their number over the whole run.

A number that grows with every step and cannot grow for ever bounds the steps:
`exists_of_grows` is the progress rule for runs that are not given as lists.

## Main definitions

* `Metered`: A counter keeps count of an event.

## Theorems

* `Metered.count_eq`: A turn finds the number of events before it.
* `Metered.countP_le`: A test at each event bounds their number.
* `exists_of_grows`: What ends a bounded growth happens.
-/

namespace Trilogicon

section Meters

variable {τ : Type} {count : τ → Nat} {event event' : τ → Bool} {l : List τ}

/-- A counter keeps count of an event over a run. -/
structure Metered (count : τ → Nat) (event : τ → Bool) (l : List τ) : Prop where
  start : ∀ t ∈ l.head?, count t = 0
  step : l.IsChain fun t u => count u = count t + (event t).toNat

/-- A turn finds the number of events before it. -/
theorem Metered.count_eq {pre post : List τ} {t : τ}
    (h : Metered count event (pre ++ t :: post)) : count t = pre.countP event := by
  -- From the end of the run before the turn: its last turn hands on the counter.
  induction pre using List.reverseRecOn generalizing t post with
  | nil =>
      rw [List.countP_nil]
      exact h.start t rfl
  | append_singleton pre u ih =>
      have hrun : pre ++ [u] ++ t :: post = pre ++ u :: t :: post := by
        rw [List.append_assoc, List.singleton_append]
      rw [hrun] at h
      have hstep := (List.isChain_cons_cons.mp h.step.right_of_append).1
      rw [hstep, ih h, List.countP_append, List.countP_singleton]
      cases event u with
      | false => rfl
      | true => rfl

theorem Metered.of_concat {t : τ} (h : Metered count event (l ++ [t])) :
    Metered count event l := by
  refine ⟨?_, h.step.left_of_append⟩
  intro u hu
  refine h.start u ?_
  rw [List.head?_append, Option.mem_def.mp hu, Option.some_or]
  rfl

/-- If a test of the counter is passed at each event of one kind, it bounds the
    number of these events. The counter may count others too. -/
theorem Metered.countP_le {limit : Nat} (h : Metered count event l)
    (hsub : ∀ t ∈ l, event' t = true → event t = true)
    (htest : ∀ t ∈ l, event' t = true → count t + 1 ≤ limit) : l.countP event' ≤ limit := by
  induction l using List.reverseRecOn with
  | nil =>
      rw [List.countP_nil]
      exact Nat.zero_le _
  | append_singleton l t ih =>
      rw [List.countP_append, List.countP_singleton]
      by_cases ht : event' t = true
      · -- At the last event the counter has counted all the others.
        have hcount := h.count_eq
        have hothers := List.countP_mono_left (fun u hu => hsub u (List.mem_append_left _ hu))
        have hlast := htest t (List.mem_append_right _ List.mem_cons_self) ht
        rw [if_pos ht]
        omega
      · rw [if_neg ht]
        exact ih h.of_concat (fun u hu => hsub u (List.mem_append_left _ hu))
          (fun u hu => htest u (List.mem_append_left _ hu))

end Meters

/-- If a number below a bound grows at every step where something does not
    happen, then it happens, after at most as many steps as there is room for. -/
theorem exists_of_grows {f : Nat → Nat} {P : Nat → Prop} {bound : Nat}
    (hgrow : ∀ i, ¬ P i → f i < f (i + 1)) (hbound : ∀ i, f i ≤ bound) :
    ∃ i ≤ bound - f 0, P i := by
  by_contra hnone
  have hnot : ∀ i ≤ bound - f 0, ¬ P i := fun i hi hc => hnone ⟨i, hi, hc⟩
  have hgrown : ∀ i ≤ bound - f 0 + 1, f 0 + i ≤ f i := by
    intro i
    induction i with
    | zero => exact fun _ => Nat.le_refl _
    | succ i ih =>
        intro hi
        have hstep := hgrow i (hnot i (by omega))
        have hbefore := ih (by omega)
        omega
  -- One step more than there is room for.
  have hlast := hgrown _ (Nat.le_refl _)
  have hroom := hbound (bound - f 0 + 1)
  omega

end Trilogicon
