import Mathlib.Logic.Basic

/-!
# Fallible Computations

Reading a successful run backwards. A chain of checks that returned `ok`
passed each of them, and a sequence of fallible steps that returned `ok` went
through an `ok` of every step. These are the only facts about `Except` that
inversion proofs need, so a proof about a validator is a rewrite with them and
never a case split over the ways it can fail.

A method on a mutable value returns its result beside the final value; `Pair`
versions of the rules cover those.

## Main definitions

* `okOr`: Take the value of an option, or return early with an error.
* `attempt`: Take the value of a result, or return early with its error.
* `andThen`: The same for the result of a method call.
* `Keeps`: A run that fails leaves the value as it was.

## Theorems

* `bind_ok_iff`: A sequence succeeds when both parts do.
* `then_ok_iff`: The same, when the first part returns nothing.
* `ite_error_ok_iff`: A passed check.
* `ite_ok_error_iff`: A passed check, written the other way round.
* `ite_errorPair_iff`: A passed check of a method.
* `mapError_ok_iff`: Rewording errors keeps successes.
* `map_error_iff`: Changing the value keeps errors.
* `okOr_ok_iff`, `attempt_ok_iff`, `andThen_ok_iff`: A step that did not return early.
* `attempt_then_ok_iff`: The same, when the step returns nothing.
* `Keeps.cases`: A method that keeps its value fails with it or succeeds.
* `okOr_keeps`, `attempt_keeps`, `ite_keeps`: Early returns keep the value.
-/

namespace Trilogicon

universe u

variable {ε ε' σ : Type*} {α β : Type u}

theorem bind_ok_iff {x : Except ε α} {f : α → Except ε β} {b : β} :
    (x >>= f) = .ok b ↔ ∃ a, x = .ok a ∧ f a = .ok b := by
  cases x with
  | error e =>
      constructor
      · intro h
        exact absurd h (by simp only [bind, Except.bind, reduceCtorEq, not_false_eq_true])
      · rintro ⟨a, ha, _⟩
        exact absurd ha (by simp only [reduceCtorEq, not_false_eq_true])
  | ok a =>
      constructor
      · intro h
        exact ⟨a, rfl, h⟩
      · rintro ⟨a', ha, hf⟩
        rw [Except.ok.injEq] at ha
        rw [ha]
        exact hf

theorem then_ok_iff {x : Except ε PUnit} {y : Except ε β} {b : β} :
    (x >>= fun _ => y) = .ok b ↔ x = .ok ⟨⟩ ∧ y = .ok b := by
  rw [bind_ok_iff]
  exact ⟨fun ⟨_, hx, hy⟩ => ⟨hx, hy⟩, fun ⟨hx, hy⟩ => ⟨⟨⟩, hx, hy⟩⟩

theorem ite_error_ok_iff {c : Prop} [Decidable c] {e : ε} {x : Except ε α} {a : α} :
    (if c then .error e else x) = .ok a ↔ ¬ c ∧ x = .ok a := by
  by_cases hc : c
  · rw [if_pos hc]
    exact ⟨fun h => absurd h (by simp only [reduceCtorEq, not_false_eq_true]),
      fun h => absurd hc h.1⟩
  · rw [if_neg hc]
    exact ⟨fun h => ⟨hc, h⟩, fun h => h.2⟩

theorem ite_ok_error_iff {c : Prop} [Decidable c] {e : ε} {x : Except ε α} {a : α} :
    (if c then x else .error e) = .ok a ↔ c ∧ x = .ok a := by
  by_cases hc : c
  · rw [if_pos hc]
    exact ⟨fun h => ⟨hc, h⟩, fun h => h.2⟩
  · rw [if_neg hc]
    exact ⟨fun h => absurd h (by simp only [reduceCtorEq, not_false_eq_true]),
      fun h => absurd h.1 hc⟩

theorem ite_errorPair_iff {c : Prop} [Decidable c] {e : ε} {s s' : σ} {x : Except ε α × σ}
    {a : α} :
    (if c then (.error e, s) else x) = (.ok a, s') ↔ ¬ c ∧ x = (.ok a, s') := by
  by_cases hc : c
  · rw [if_pos hc]
    exact ⟨fun h => absurd h (by simp only [Prod.mk.injEq, reduceCtorEq, false_and,
      not_false_eq_true]), fun h => absurd hc h.1⟩
  · rw [if_neg hc]
    exact ⟨fun h => ⟨hc, h⟩, fun h => h.2⟩

theorem mapError_ok_iff {f : ε → ε'} {x : Except ε α} {a : α} :
    x.mapError f = .ok a ↔ x = .ok a := by
  cases x with
  | error e =>
      constructor
      · intro h
        cases h
      · intro h
        cases h
  | ok b =>
      constructor
      · intro h
        rw [Except.ok.inj h]
      · intro h
        rw [Except.ok.inj h]
        rfl

theorem map_error_iff {f : α → β} {x : Except ε α} {e : ε} :
    x.map f = .error e ↔ x = .error e := by
  cases x with
  | error e' => rw [Except.map, Except.error.injEq, Except.error.injEq]
  | ok a => simp only [Except.map, reduceCtorEq]

/-- `o.ok_or(e)?` in a method whose value is still `s`. -/
def okOr (o : Option α) (e : ε) (s : σ) (k : α → Except ε β × σ) : Except ε β × σ :=
  match o with
  | none => (.error e, s)
  | some a => k a

theorem okOr_ok_iff {o : Option α} {e : ε} {s s' : σ} {k : α → Except ε β × σ} {b : β} :
    okOr o e s k = (.ok b, s') ↔ ∃ a, o = some a ∧ k a = (.ok b, s') := by
  cases o with
  | none => simp only [okOr, Prod.mk.injEq, reduceCtorEq, false_and, exists_false]
  | some a => simp only [okOr, Option.some.injEq, exists_eq_left']

/-- `x?` in a method whose value is still `s`. -/
def attempt (x : Except ε α) (s : σ) (k : α → Except ε β × σ) : Except ε β × σ :=
  match x with
  | .error e => (.error e, s)
  | .ok a => k a

theorem attempt_ok_iff {x : Except ε α} {s s' : σ} {k : α → Except ε β × σ} {b : β} :
    attempt x s k = (.ok b, s') ↔ ∃ a, x = .ok a ∧ k a = (.ok b, s') := by
  cases x with
  | error e => simp only [attempt, Prod.mk.injEq, reduceCtorEq, false_and, exists_false]
  | ok a => simp only [attempt, Except.ok.injEq, exists_eq_left']

theorem attempt_then_ok_iff {x : Except ε PUnit} {s s' : σ} {y : Except ε β × σ} {b : β} :
    attempt x s (fun _ => y) = (.ok b, s') ↔ x = .ok ⟨⟩ ∧ y = (.ok b, s') := by
  rw [attempt_ok_iff]
  exact ⟨fun ⟨_, hx, hy⟩ => ⟨hx, hy⟩, fun ⟨hx, hy⟩ => ⟨⟨⟩, hx, hy⟩⟩

/-- `x?` where `x` is itself a method call that moved the value. -/
def andThen (x : Except ε α × σ) (k : α → σ → Except ε β × σ) : Except ε β × σ :=
  match x with
  | (.error e, s) => (.error e, s)
  | (.ok a, s) => k a s

theorem andThen_ok_iff {x : Except ε α × σ} {k : α → σ → Except ε β × σ} {b : β} {s' : σ} :
    andThen x k = (.ok b, s') ↔ ∃ a s, x = (.ok a, s) ∧ k a s = (.ok b, s') := by
  rcases x with ⟨e | a, s⟩
  · simp only [andThen, Prod.mk.injEq, reduceCtorEq, false_and, exists_false]
  · simp only [andThen, Prod.mk.injEq, Except.ok.injEq]
    constructor
    · intro h
      exact ⟨a, s, ⟨rfl, rfl⟩, h⟩
    · rintro ⟨_, _, ⟨rfl, rfl⟩, h⟩
      exact h

/-- A run that fails leaves `s`. -/
def Keeps (s : σ) (x : Except ε α × σ) : Prop :=
  ∀ e, x.1 = .error e → x.2 = s

/-- A method that keeps its value on failure either fails with it or
    succeeds. -/
theorem Keeps.cases {s : σ} {x : Except ε α × σ} (h : Keeps s x) :
    (∃ e, x = (.error e, s)) ∨ ∃ a s', x = (.ok a, s') := by
  rcases x with ⟨e | a, s'⟩
  · exact Or.inl ⟨e, by rw [← h e rfl]⟩
  · exact Or.inr ⟨a, s', rfl⟩

theorem keeps_ok {s s' : σ} {a : α} : Keeps s ((.ok a, s') : Except ε α × σ) := by
  intro e h
  exact absurd h (by simp only [reduceCtorEq, not_false_eq_true])

theorem okOr_keeps {o : Option α} {e : ε} {s : σ} {k : α → Except ε β × σ}
    (h : ∀ a, o = some a → Keeps s (k a)) : Keeps s (okOr o e s k) := by
  cases o with
  | none => exact fun _ _ => rfl
  | some a => exact h a rfl

theorem attempt_keeps {x : Except ε α} {s : σ} {k : α → Except ε β × σ}
    (h : ∀ a, x = .ok a → Keeps s (k a)) : Keeps s (attempt x s k) := by
  cases x with
  | error e => exact fun _ _ => rfl
  | ok a => exact h a rfl

theorem ite_keeps {c : Prop} [Decidable c] {e : ε} {s : σ} {x : Except ε α × σ}
    (h : ¬ c → Keeps s x) : Keeps s (if c then (.error e, s) else x) := by
  by_cases hc : c
  · rw [if_pos hc]
    exact fun _ _ => rfl
  · rw [if_neg hc]
    exact h hc

end Trilogicon
