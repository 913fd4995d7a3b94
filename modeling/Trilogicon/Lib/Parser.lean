import Mathlib.Logic.Basic
import Trilogicon.Lib.Results

/-!
# Parsers and What They Read

Readers that take a value off the front of a list of tokens, and the law that
ties a reader to a writer.

`Reads p enc` says that `p` accepts exactly what `enc` writes: it returns a
value and a rest just when the input is the written value followed by that
rest. The law is one equivalence, so it holds both halves of a round trip.
Read from right to left it says that reading gives back what was written, and
from left to right that every accepted input is the written form of its value.
A writer returns an option, since a value may have no written form.

The laws of readers compose by rewriting: `bind_ok_iff` takes a sequence of
readers apart, and the law of each reader turns its step into an equation
about the input.

## Main definitions

* `Parser`: A reader of a value from the front of a list.
* `Parser.fail`: The reader that rejects.
* `Parser.take`: Read a number of tokens.
* `Parser.lift`: A computation that reads nothing.
* `Reads`: A reader accepts exactly what a writer writes.
* `Parser.many`: Read a number of values in sequence.
* `writeAll`: Write values in sequence.
* `Delimited`: What is written tells where it ends.

## Theorems

* `Parser.bind_ok_iff`: A sequence succeeds when its parts do.
* `Parser.bind_assoc`, `Parser.guard_bind`: Regrouping a sequence.
* `Parser.guard_ok_iff`: A passed check.
* `Parser.take_ok_iff`: What reading tokens means.
* `writeAll_append_iff`: Writing splits where the list of values does.
* `writeAll_exists`: Values that can be written can be written in sequence.
* `length_of_writeAll`, `writeAll_length_le`: How long written values are.
* `Reads.many`: Reading values in sequence reads what was written in sequence.
* `Delimited.flatMap_inj`: Sequences are told apart without their lengths.
-/

namespace Trilogicon

universe u

/-- A reader of a value from the front of a list of tokens. -/
def Parser (τ ε : Type u) (α : Type u) : Type u :=
  List τ → Except ε (α × List τ)

namespace Parser

variable {τ ε α β : Type u}

instance : Monad (Parser τ ε) where
  pure a := fun data => .ok (a, data)
  bind p f := fun data =>
    match p data with
    | .error e => .error e
    | .ok (a, rest) => f a rest

/-- The reader that rejects. -/
def fail (e : ε) : Parser τ ε α :=
  fun _ => .error e

/-- Read `n` tokens, or reject with an error that may tell how many there
    were. -/
def take (n : Nat) (short : Nat → ε) : Parser τ ε (List τ) :=
  fun data => if data.length < n then .error (short data.length) else
    .ok (data.take n, data.drop n)

/-- A computation that reads nothing. -/
def lift (x : Except ε α) : Parser τ ε α :=
  fun data => x.map fun a => (a, data)

theorem pure_ok_iff {a b : α} {data rest : List τ} :
    (pure a : Parser τ ε α) data = .ok (b, rest) ↔ a = b ∧ data = rest := by
  change Except.ok (a, data) = Except.ok (b, rest) ↔ _
  rw [Except.ok.injEq, Prod.mk.injEq]

theorem bind_ok_iff {p : Parser τ ε α} {f : α → Parser τ ε β} {data rest : List τ} {b : β} :
    (p >>= f) data = .ok (b, rest) ↔
      ∃ a mid, p data = .ok (a, mid) ∧ f a mid = .ok (b, rest) := by
  change (match p data with
    | .error e => Except.error e
    | .ok (a, mid) => f a mid) = _ ↔ _
  rcases p data with e | ⟨a, mid⟩
  · simp only [reduceCtorEq, false_and, exists_false]
  · simp only [Except.ok.injEq, Prod.mk.injEq]
    constructor
    · intro h
      exact ⟨a, mid, ⟨rfl, rfl⟩, h⟩
    · rintro ⟨_, _, ⟨rfl, rfl⟩, h⟩
      exact h

theorem bind_assoc {γ : Type u} {p : Parser τ ε α} {f : α → Parser τ ε β}
    {k : β → Parser τ ε γ} : (p >>= f) >>= k = p >>= fun a => f a >>= k := by
  funext data
  change (match (match p data with
      | .error e => Except.error e
      | .ok (a, mid) => f a mid) with
    | .error e => Except.error e
    | .ok (b, rest) => k b rest) =
    match p data with
    | .error e => Except.error e
    | .ok (a, mid) => (f a >>= k) mid
  rcases p data with e | ⟨a, mid⟩
  · rfl
  · rfl

theorem guard_bind {c : Prop} [Decidable c] {e : ε} {p : Parser τ ε α} {f : α → Parser τ ε β} :
    (if c then fail e else p) >>= f = if c then fail e else p >>= f := by
  by_cases hc : c
  · rw [if_pos hc, if_pos hc]
    rfl
  · rw [if_neg hc, if_neg hc]

theorem guard_ok_iff {c : Prop} [Decidable c] {e : ε} {p : Parser τ ε α} {data rest : List τ}
    {a : α} : (if c then fail e else p) data = .ok (a, rest) ↔ ¬ c ∧ p data = .ok (a, rest) := by
  by_cases hc : c
  · rw [if_pos hc]
    exact ⟨fun h => absurd h (by simp only [fail, reduceCtorEq, not_false_eq_true]),
      fun h => absurd hc h.1⟩
  · rw [if_neg hc]
    exact ⟨fun h => ⟨hc, h⟩, fun h => h.2⟩

theorem lift_ok_iff {x : Except ε α} {data rest : List τ} {a : α} :
    (lift x : Parser τ ε α) data = .ok (a, rest) ↔ x = .ok a ∧ data = rest := by
  cases x with
  | error e => simp only [lift, Except.map, reduceCtorEq, false_and]
  | ok b => simp only [lift, Except.map, Except.ok.injEq, Prod.mk.injEq]

theorem take_ok_iff {n : Nat} {short : Nat → ε} {data rest taken : List τ} :
    take n short data = .ok (taken, rest) ↔ taken.length = n ∧ data = taken ++ rest := by
  unfold take
  by_cases hn : data.length < n
  · rw [if_pos hn]
    constructor
    · intro h
      exact absurd h (by simp only [reduceCtorEq, not_false_eq_true])
    · rintro ⟨hlen, rfl⟩
      rw [List.length_append] at hn
      omega
  · rw [if_neg hn, Except.ok.injEq, Prod.mk.injEq]
    constructor
    · rintro ⟨rfl, rfl⟩
      exact ⟨by rw [List.length_take]; omega, (List.take_append_drop n data).symm⟩
    · rintro ⟨hlen, rfl⟩
      exact ⟨List.take_left' hlen, List.drop_left' hlen⟩

/-- Read `n` values in sequence. The reader is told the index of its value. -/
def many (p : Nat → Parser τ ε α) : Nat → Nat → Parser τ ε (List α)
  | _, 0 => pure []
  | i, n + 1 => do
      let a ← p i
      let as ← many p (i + 1) n
      pure (a :: as)

end Parser

variable {τ ε α : Type u}

/-- The reader accepts exactly what the writer writes. -/
def Reads (p : Parser τ ε α) (enc : α → Option (List τ)) : Prop :=
  ∀ data a rest, p data = .ok (a, rest) ↔ ∃ e, enc a = some e ∧ data = e ++ rest

/-- Write values in sequence. -/
def writeAll (enc : α → Option (List τ)) : List α → Option (List τ)
  | [] => some []
  | a :: as => do
      let e ← enc a
      let es ← writeAll enc as
      some (e ++ es)

theorem writeAll_cons_iff {enc : α → Option (List τ)} {a : α} {as : List α} {out : List τ} :
    writeAll enc (a :: as) = some out ↔
      ∃ e es, enc a = some e ∧ writeAll enc as = some es ∧ out = e ++ es := by
  simp only [writeAll, bind, Option.bind_eq_some_iff, Option.some.injEq]
  constructor
  · rintro ⟨e, he, es, hes, rfl⟩
    exact ⟨e, es, he, hes, rfl⟩
  · rintro ⟨e, es, he, hes, rfl⟩
    exact ⟨e, he, es, hes, rfl⟩

theorem writeAll_append_iff {enc : α → Option (List τ)} {as bs : List α} {out : List τ} :
    writeAll enc (as ++ bs) = some out ↔
      ∃ e es, writeAll enc as = some e ∧ writeAll enc bs = some es ∧ out = e ++ es := by
  induction as generalizing out with
  | nil =>
      rw [List.nil_append, writeAll]
      constructor
      · intro h
        exact ⟨[], out, rfl, h, rfl⟩
      · rintro ⟨e, es, he, hes, rfl⟩
        rw [Option.some.injEq] at he
        rw [← he, List.nil_append, hes]
  | cons a as ih =>
      simp only [List.cons_append, writeAll_cons_iff, ih]
      constructor
      · rintro ⟨e, _, he, ⟨es, ds, hes, hds, rfl⟩, rfl⟩
        exact ⟨e ++ es, ds, ⟨e, es, he, hes, rfl⟩, hds, (List.append_assoc _ _ _).symm⟩
      · rintro ⟨_, ds, ⟨e, es, he, hes, rfl⟩, hds, rfl⟩
        exact ⟨e, es ++ ds, he, ⟨es, ds, hes, hds, rfl⟩, List.append_assoc _ _ _⟩

theorem writeAll_exists {enc : α → Option (List τ)} {as : List α}
    (h : ∀ a ∈ as, ∃ e, enc a = some e) : ∃ out, writeAll enc as = some out := by
  induction as with
  | nil => exact ⟨[], rfl⟩
  | cons a as ih =>
      rw [List.forall_mem_cons] at h
      rcases h.1 with ⟨e, he⟩
      rcases ih h.2 with ⟨es, hes⟩
      exact ⟨e ++ es, writeAll_cons_iff.mpr ⟨e, es, he, hes, rfl⟩⟩

theorem exists_of_writeAll {enc : α → Option (List τ)} {as : List α} {out : List τ}
    (h : writeAll enc as = some out) : ∀ a ∈ as, ∃ e, enc a = some e := by
  induction as generalizing out with
  | nil => exact fun _ ha => absurd ha List.not_mem_nil
  | cons a as ih =>
      rcases writeAll_cons_iff.mp h with ⟨e, es, he, hes, rfl⟩
      exact List.forall_mem_cons.mpr ⟨⟨e, he⟩, ih hes⟩

/-- Values that each take a number of tokens take together that many times
    their number. -/
theorem length_of_writeAll {enc : α → Option (List τ)} {k : Nat}
    (h : ∀ a e, enc a = some e → k ≤ e.length) {as : List α} {out : List τ}
    (hout : writeAll enc as = some out) : k * as.length ≤ out.length := by
  induction as generalizing out with
  | nil =>
      rw [List.length_nil, Nat.mul_zero]
      exact Nat.zero_le _
  | cons a as ih =>
      rcases writeAll_cons_iff.mp hout with ⟨e, es, he, hes, rfl⟩
      have hhead := h a e he
      have htail := ih hes
      rw [List.length_cons, Nat.mul_succ, List.length_append]
      omega

/-- Values that each take at most a number of tokens take together at most that
    many times their number. -/
theorem writeAll_length_le {enc : α → Option (List τ)} {k : Nat} {as : List α}
    (h : ∀ a ∈ as, ∀ e, enc a = some e → e.length ≤ k) {out : List τ}
    (hout : writeAll enc as = some out) : out.length ≤ k * as.length := by
  induction as generalizing out with
  | nil =>
      rw [writeAll, Option.some.injEq] at hout
      rw [← hout]
      exact Nat.zero_le _
  | cons a as ih =>
      rw [List.forall_mem_cons] at h
      rcases writeAll_cons_iff.mp hout with ⟨e, es, he, hes, rfl⟩
      have hhead := h.1 e he
      have htail := ih h.2 hes
      rw [List.length_cons, Nat.mul_succ, List.length_append]
      omega

/-- Values are read in sequence as they were written in sequence. -/
theorem Reads.many {p : Nat → Parser τ ε α} {enc : α → Option (List τ)}
    (h : ∀ i, Reads (p i) enc) (i n : Nat) (data rest : List τ) (as : List α) :
    Parser.many p i n data = .ok (as, rest) ↔
      as.length = n ∧ ∃ e, writeAll enc as = some e ∧ data = e ++ rest := by
  induction n generalizing i data rest as with
  | zero =>
      rw [Parser.many, Parser.pure_ok_iff]
      constructor
      · rintro ⟨rfl, rfl⟩
        exact ⟨rfl, [], rfl, rfl⟩
      · rintro ⟨hlen, e, he, rfl⟩
        rw [List.length_eq_zero_iff.mp hlen] at he ⊢
        rw [writeAll, Option.some.injEq] at he
        exact ⟨rfl, by rw [← he, List.nil_append]⟩
  | succ n ih =>
      simp only [Parser.many, Parser.bind_ok_iff, h i _ _ _, ih, Parser.pure_ok_iff]
      constructor
      · rintro ⟨a, mid, ⟨e, he, rfl⟩, as', _, ⟨hlen, es, hes, rfl⟩, rfl, rfl⟩
        refine ⟨by rw [List.length_cons, hlen], e ++ es, ?_, (List.append_assoc _ _ _).symm⟩
        exact writeAll_cons_iff.mpr ⟨e, es, he, hes, rfl⟩
      · rintro ⟨hlen, out, hout, rfl⟩
        cases as with
        | nil => exact absurd hlen (by simp only [List.length_nil]; omega)
        | cons a as =>
            rcases writeAll_cons_iff.mp hout with ⟨e, es, he, hes, rfl⟩
            rw [List.length_cons, Nat.add_right_cancel_iff] at hlen
            exact ⟨a, es ++ rest, ⟨e, he, List.append_assoc _ _ _⟩, as, rest,
              ⟨hlen, es, hes, rfl⟩, rfl, rfl⟩

/-- Values of a kind are told apart by what is written of them, whatever
    follows it. -/
structure Delimited (enc : α → List τ) (P : α → Prop) : Prop where
  ne_nil : ∀ a, P a → enc a ≠ []
  inj : ∀ a b x y, P a → P b → enc a ++ x = enc b ++ y → a = b ∧ x = y

/-- Values that are told apart are told apart in sequence, also without their
    number. -/
theorem Delimited.flatMap_inj {enc : α → List τ} {P : α → Prop} (h : Delimited enc P)
    {as bs : List α} (has : ∀ a ∈ as, P a) (hbs : ∀ b ∈ bs, P b)
    (heq : as.flatMap enc = bs.flatMap enc) : as = bs := by
  induction as generalizing bs with
  | nil =>
      cases bs with
      | nil => rfl
      | cons b bs =>
          rw [List.flatMap_nil, List.flatMap_cons] at heq
          exact absurd (List.append_eq_nil_iff.mp heq.symm).1
            (h.ne_nil b (hbs b List.mem_cons_self))
  | cons a as ih =>
      rw [List.forall_mem_cons] at has
      cases bs with
      | nil =>
          rw [List.flatMap_nil, List.flatMap_cons] at heq
          exact absurd (List.append_eq_nil_iff.mp heq).1 (h.ne_nil a has.1)
      | cons b bs =>
          rw [List.forall_mem_cons] at hbs
          rw [List.flatMap_cons, List.flatMap_cons] at heq
          rcases h.inj a b _ _ has.1 hbs.1 heq with ⟨hhead, htail⟩
          rw [hhead, ih has.2 hbs.2 htail]

end Trilogicon
