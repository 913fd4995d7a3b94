import Mathlib.Data.List.Basic
import Trilogicon.Lib.Results
import Trilogicon.Lib.Text

/-!
# Command Lines of Options

A command line of options, each a flag and a value, as a loop reads it: a flag that
is not in the table is refused, a value that is not there or cannot be read is
refused, and what was read is applied to a record before the loop goes on.

`parse_ok_iff` says what the loop accepts. If options of different kinds do not
touch the same part of the record, and one of the same kind replaces what the
earlier one did, then the record depends on the last option of each kind alone:
neither the order nor what was given before matters.

Values are numbers as `str::parse` reads them, or lists with a separator.

## Main definitions

* `OptionTable`: The flags, and how their values are read.
* `OptionTable.parse`: The loop.
* `lastOf`: The last option of a kind.
* `Overwrites`: Options of different kinds commute, and of one kind the last counts.
* `readUnsigned`: An unsigned number in decimal.

## Theorems

* `OptionTable.parse_ok_iff`: What the loop accepts.
* `Overwrites.foldl_eq`: The last option of each kind is all that counts.
* `OptionTable.parse_eq_of_last`: So two lines with the same last values mean the same.
* `readUnsigned_repr`: A number that is written in decimal is read back.
* `notMem_of_mem_splitOn`: The pieces of a list hold no separator.
-/

namespace Trilogicon

variable {κ ω σ ε : Type}

/-- Flags, and how their values are read. -/
structure OptionTable (κ ω ε : Type) where
  flag : String → Option κ
  missing : κ → ε
  read : κ → String → Except ε ω
  unknown : String → ε

theorem exists_of_forall₂ {α β : Type} {R : α → β → Prop} {xs : List α} {ys : List β}
    (h : List.Forall₂ R xs ys) {x : α} (hx : x ∈ xs) : ∃ y ∈ ys, R x y := by
  induction h with
  | nil => cases hx
  | @cons a b xs ys hab _ ih =>
      rcases List.mem_cons.mp hx with rfl | hin
      · exact ⟨b, List.mem_cons_self, hab⟩
      · rcases ih hin with ⟨y, hy, hxy⟩
        exact ⟨y, List.mem_cons_of_mem b hy, hxy⟩

namespace OptionTable

/-- The loop over a command line. -/
def parse (t : OptionTable κ ω ε) (apply : σ → ω → σ) : σ → List String → Except ε σ
  | s, [] => .ok s
  | _, [f] =>
      match t.flag f with
      | none => .error (t.unknown f)
      | some k => .error (t.missing k)
  | s, f :: v :: rest =>
      match t.flag f with
      | none => .error (t.unknown f)
      | some k =>
          match t.read k v with
          | .error e => .error e
          | .ok w => parse t apply (apply s w) rest

/-- A flag and its value are read as an option. -/
def Reads (t : OptionTable κ ω ε) (p : String × String) (w : ω) : Prop :=
  ∃ k, t.flag p.1 = some k ∧ t.read k p.2 = .ok w

/-- Flags and values, written one after another. -/
def line (ps : List (String × String)) : List String :=
  ps.flatMap fun p => [p.1, p.2]

section Parse

variable {t : OptionTable κ ω ε} {apply : σ → ω → σ} {s s' : σ}

theorem parse_line {ps : List (String × String)} {ws : List ω} (h : List.Forall₂ t.Reads ps ws) :
    t.parse apply s (line ps) = .ok (ws.foldl apply s) := by
  induction h generalizing s with
  | nil => rfl
  | @cons p w ps ws hp _ ih =>
      rcases hp with ⟨k, hflag, hread⟩
      change t.parse apply s (p.1 :: p.2 :: line ps) = _
      rw [parse]
      simp only [hflag, hread]
      exact ih

/-- The loop accepts lines of flags with values that can be read, and applies what
    it read from the left to the right. -/
theorem parse_ok_iff {args : List String} :
    t.parse apply s args = .ok s' ↔
      ∃ ps ws, args = line ps ∧ List.Forall₂ t.Reads ps ws ∧ s' = ws.foldl apply s := by
  constructor
  · intro h
    fun_induction parse t apply s args with
    | case1 s => exact ⟨[], [], rfl, .nil, (Except.ok.inj h).symm⟩
    | case2 s f hflag => cases h
    | case3 s f k hflag => cases h
    | case4 s f v rest hflag => cases h
    | case5 s f v rest k hflag e hread => cases h
    | case6 s f v rest k hflag w hread ih =>
        rcases ih h with ⟨ps, ws, rfl, hreads, rfl⟩
        exact ⟨(f, v) :: ps, w :: ws, rfl, .cons ⟨k, hflag, hread⟩ hreads, rfl⟩
  · intro h
    rcases h with ⟨ps, ws, rfl, hreads, rfl⟩
    exact parse_line hreads

end Parse

end OptionTable

/-! ### The last option of each kind -/

section Last

variable {kind : ω → κ} [DecidableEq κ] {apply : σ → ω → σ}

/-- The last option of a kind. -/
def lastOf (kind : ω → κ) (ws : List ω) (k : κ) : Option ω :=
  (ws.filter fun w => kind w = k).getLast?

theorem lastOf_cons (w : ω) (ws : List ω) (k : κ) :
    lastOf kind (w :: ws) k = (lastOf kind ws k).or (if kind w = k then some w else none) := by
  unfold lastOf
  by_cases hw : kind w = k
  · rw [List.filter_cons, if_pos (decide_eq_true hw), List.getLast?_cons, if_pos hw]
    rcases (ws.filter fun w => kind w = k).getLast? with _ | x
    · rfl
    · rfl
  · rw [List.filter_cons, if_neg (by rwa [decide_eq_true_eq]), if_neg hw, Option.or_none]

theorem kind_of_lastOf {ws : List ω} {k : κ} {w : ω} (h : lastOf kind ws k = some w) :
    kind w = k := by
  have hin := List.mem_of_getLast? h
  exact of_decide_eq_true (List.mem_filter.mp hin).2

/-- The options that are not of a kind. -/
def without (kind : ω → κ) (ws : List ω) (k : κ) : List ω :=
  ws.filter fun w => !decide (kind w = k)

theorem without_cons (w : ω) (ws : List ω) (k : κ) :
    without kind (w :: ws) k =
      if kind w = k then without kind ws k else w :: without kind ws k := by
  unfold without
  by_cases hw : kind w = k
  · rw [List.filter_cons_of_neg, if_pos hw]
    rw [Bool.not_eq_true', decide_eq_false_iff_not, not_not]
    exact hw
  · rw [List.filter_cons_of_pos, if_neg hw]
    rw [Bool.not_eq_true', decide_eq_false_iff_not]
    exact hw

theorem lastOf_without (ws : List ω) (k k' : κ) :
    lastOf kind (without kind ws k) k' = if k' = k then none else lastOf kind ws k' := by
  induction ws with
  | nil => rw [without, List.filter_nil, lastOf, List.filter_nil, List.getLast?_nil, ite_self]
  | cons w ws ih =>
      rw [without_cons, lastOf_cons]
      by_cases hw : kind w = k
      · rw [if_pos hw, ih, hw]
        by_cases hk : k' = k
        · rw [if_pos hk, if_pos hk]
        · rw [if_neg hk, if_neg hk, if_neg (Ne.symm hk), Option.or_none]
      · rw [if_neg hw, lastOf_cons, ih]
        by_cases hk : k' = k
        · rw [if_pos hk, if_pos hk, if_neg (hk ▸ hw), Option.or_none]
        · rw [if_neg hk, if_neg hk]

theorem without_of_none {ws : List ω} {k : κ} (h : lastOf kind ws k = none) :
    without kind ws k = ws := by
  rw [lastOf, List.getLast?_eq_none_iff, List.filter_eq_nil_iff] at h
  refine List.filter_eq_self.mpr fun w hw => ?_
  rw [Bool.not_eq_true', ← Bool.not_eq_true]
  exact h w hw

/-- Options of different kinds commute, and of two of one kind the later counts. -/
structure Overwrites (kind : ω → κ) (apply : σ → ω → σ) : Prop where
  commute : ∀ s w x, kind w ≠ kind x → apply (apply s w) x = apply (apply s x) w
  absorb : ∀ s w x, kind w = kind x → apply (apply s w) x = apply s x

namespace Overwrites

/-- An option moves behind those of other kinds. -/
theorem foldl_without (h : Overwrites kind apply) (w : ω) (ws : List ω) (s : σ) :
    (without kind ws (kind w)).foldl apply (apply s w) =
      apply ((without kind ws (kind w)).foldl apply s) w := by
  induction ws generalizing s with
  | nil => rfl
  | cons x ws ih =>
      rw [without_cons]
      by_cases hx : kind x = kind w
      · rw [if_pos hx]
        exact ih s
      · rw [if_neg hx, List.foldl_cons, h.commute s w x (Ne.symm hx), ih, List.foldl_cons]

/-- The last option of a kind may as well be the last of all, and the others of its
    kind be left out. -/
theorem foldl_last (h : Overwrites kind apply) {ws : List ω} {k : κ} {w : ω}
    (hlast : lastOf kind ws k = some w) (s : σ) :
    ws.foldl apply s = apply ((without kind ws k).foldl apply s) w := by
  have hw := kind_of_lastOf hlast
  induction ws generalizing s with
  | nil => cases hlast
  | cons x ws ih =>
      rw [lastOf_cons] at hlast
      rw [List.foldl_cons, without_cons]
      rcases hrest : lastOf kind ws k with _ | y
      · -- There is none after the first, so the first is the last of its kind.
        rw [hrest, Option.none_or] at hlast
        by_cases hx : kind x = k
        · rw [if_pos hx, Option.some.injEq] at hlast
          have hmove := h.foldl_without x ws s
          rw [hx, without_of_none hrest] at hmove
          rw [if_pos hx, without_of_none hrest, hmove, hlast]
        · rw [if_neg hx] at hlast
          cases hlast
      · rw [hrest, Option.some_or, Option.some.injEq] at hlast
        rw [hlast] at hrest
        rw [ih hrest]
        by_cases hx : kind x = k
        · have hmove := h.foldl_without x ws s
          rw [hx] at hmove
          rw [if_pos hx, hmove, h.absorb _ x w (hx.trans hw.symm)]
        · rw [if_neg hx, List.foldl_cons]

/-- Two lists of options with the same last option of each kind do the same. -/
theorem foldl_eq (h : Overwrites kind apply) {ws xs : List ω}
    (hlast : ∀ k, lastOf kind ws k = lastOf kind xs k) (s : σ) :
    ws.foldl apply s = xs.foldl apply s := by
  -- One kind after another is moved to the end; the lists get shorter by it.
  induction hn : ws.length using Nat.strongRecOn generalizing ws xs with
  | ind n ih =>
      rcases ws with _ | ⟨x, ws⟩
      · rcases xs with _ | ⟨y, xs⟩
        · rfl
        · have hy := hlast (kind y)
          rw [lastOf_cons, if_pos rfl, Option.or_some] at hy
          cases hy
      · have hx := hlast (kind x)
        rw [lastOf_cons, if_pos rfl, Option.or_some] at hx
        have hfirst : lastOf kind (x :: ws) (kind x) =
            some ((lastOf kind ws (kind x)).getD x) := by
          rw [lastOf_cons, if_pos rfl, Option.or_some]
        rw [h.foldl_last hfirst, h.foldl_last hx.symm]
        refine congrArg (apply · _) (ih (without kind (x :: ws) (kind x)).length ?_ ?_ rfl)
        · rw [without_cons, if_pos rfl, ← hn, List.length_cons]
          exact Nat.lt_succ_of_le (List.length_filter_le _ _)
        · intro k
          rw [lastOf_without, lastOf_without, hlast]

end Overwrites

namespace OptionTable

variable {t : OptionTable κ ω ε} {name : κ → String}

omit [DecidableEq κ] in
/-- What the loop accepts, when each kind has a name. -/
theorem parse_named_iff (hname : ∀ k, t.flag (name k) = some k) {ps : List (κ × String)}
    {s s' : σ} :
    t.parse apply s (line (ps.map fun p => (name p.1, p.2))) = .ok s' ↔
      ∃ ws, List.Forall₂ (fun p w => t.read p.1 p.2 = .ok w) ps ws ∧ s' = ws.foldl apply s := by
  induction ps generalizing s with
  | nil =>
      constructor
      · intro h
        exact ⟨[], .nil, (Except.ok.inj h).symm⟩
      · intro h
        rcases h with ⟨ws, hreads, rfl⟩
        cases hreads
        rfl
  | cons p ps ih =>
      change t.parse apply s (name p.1 :: p.2 :: line (ps.map fun p => (name p.1, p.2))) = _ ↔ _
      rw [parse]
      simp only [hname]
      rcases hread : t.read p.1 p.2 with e | w
      · simp only [reduceCtorEq, false_iff]
        intro h
        rcases h with ⟨ws, hreads, _⟩
        rcases hreads with _ | ⟨hp, _⟩
        rw [hread] at hp
        cases hp
      · simp only [ih]
        constructor
        · intro h
          rcases h with ⟨ws, hreads, rfl⟩
          exact ⟨w :: ws, .cons hread hreads, rfl⟩
        · intro h
          rcases h with ⟨_, hreads, rfl⟩
          rcases hreads with _ | ⟨hp, hrest⟩
          rw [hread, Except.ok.injEq] at hp
          rw [← hp]
          exact ⟨_, hrest, rfl⟩

/-- The last option of a kind is read from the last value that was given for it. -/
theorem lastOf_reads (hkind : ∀ k v w, t.read k v = .ok w → kind w = k) {ps : List (κ × String)}
    {ws : List ω} (h : List.Forall₂ (fun p w => t.read p.1 p.2 = .ok w) ps ws) (k : κ) :
    lastOf kind ws k = (lastOf Prod.fst ps k).bind fun p => (t.read p.1 p.2).toOption := by
  induction h with
  | nil => rfl
  | @cons p w ps ws hread hreads ih =>
      rw [lastOf_cons, lastOf_cons, ih, hkind _ _ _ hread]
      rcases hlast : lastOf Prod.fst ps k with _ | q
      · by_cases hp : p.1 = k
        · rw [if_pos hp, if_pos hp, Option.bind_none, Option.none_or, Option.none_or,
            Option.bind_some, hread]
          rfl
        · rw [if_neg hp, if_neg hp]
          rfl
      · -- Its value was read, as all were.
        rcases exists_of_forall₂ hreads (List.mem_of_mem_filter (List.mem_of_getLast? hlast)) with
          ⟨x, _, hq⟩
        rw [Option.bind_some, Option.some_or, Option.bind_some, hq]
        rfl

/-- Two lines with the same last value for each kind mean the same, where the last
    option of each kind is all that counts. -/
theorem parse_eq_of_last (h : Overwrites kind apply) (hname : ∀ k, t.flag (name k) = some k)
    (hkind : ∀ k v w, t.read k v = .ok w → kind w = k) {ps qs : List (κ × String)} {s r r' : σ}
    (hlast : ∀ k, lastOf Prod.fst ps k = lastOf Prod.fst qs k)
    (hps : t.parse apply s (line (ps.map fun p => (name p.1, p.2))) = .ok r)
    (hqs : t.parse apply s (line (qs.map fun p => (name p.1, p.2))) = .ok r') : r = r' := by
  rcases (parse_named_iff hname).mp hps with ⟨ws, hws, rfl⟩
  rcases (parse_named_iff hname).mp hqs with ⟨xs, hxs, rfl⟩
  refine h.foldl_eq (fun k => ?_) s
  rw [lastOf_reads hkind hws, lastOf_reads hkind hxs, hlast]

end OptionTable

end Last

/-! ### Values -/

/-- `str::parse` for an unsigned number with a largest value: digits, with a plus
    sign in front or not. -/
def readUnsigned (max : Nat) (s : String) : Option Nat :=
  let digits := match s.toList with
    | '+' :: rest => rest
    | all => all
  if digits = [] then none
  else if digits.all Char.isDigit = false then none
  else if Nat.ofDigitChars 10 digits 0 ≤ max then some (Nat.ofDigitChars 10 digits 0)
  else none

theorem readUnsigned_repr {max n : Nat} (h : n ≤ max) : readUnsigned max n.repr = some n := by
  have hplus : '+' ∉ n.repr.toList := notMem_repr n (by decide)
  have hdigits : (match n.repr.toList with
      | '+' :: rest => rest
      | all => all) = Nat.toDigits 10 n := by
    rw [Nat.toList_repr] at hplus ⊢
    split
    · rename_i heq
      rw [heq] at hplus
      exact absurd List.mem_cons_self hplus
    · rfl
  unfold readUnsigned
  simp only [hdigits, Nat.ofDigitChars_ten_toDigits, if_pos h]
  have hall : (Nat.toDigits 10 n).all Char.isDigit = true := by
    rw [List.all_eq_true]
    exact fun c hc => Nat.isDigit_of_mem_toDigits (by decide) (by decide) hc
  rw [if_neg Nat.toDigits_ne_nil, hall, if_neg (by decide)]

/-- The pieces of a list hold no separator. -/
theorem notMem_of_mem_splitOn {α : Type} [BEq α] [LawfulBEq α] {c : α} {l p : List α}
    (h : p ∈ l.splitOn c) : c ∉ p := by
  rw [List.splitOn_eq_splitOnP] at h
  induction l generalizing p with
  | nil =>
      rw [List.splitOnP_nil, List.mem_singleton] at h
      rw [h]
      exact List.not_mem_nil
  | cons x l ih =>
      rw [List.splitOnP_cons_eq_if_modifyHead] at h
      by_cases hx : (x == c) = true
      · rw [if_pos hx, List.mem_cons] at h
        rcases h with rfl | h
        · exact List.not_mem_nil
        · exact ih h
      · rw [if_neg hx] at h
        rcases hpieces : l.splitOnP (· == c) with _ | ⟨q, qs⟩
        · exact absurd hpieces (List.splitOnP_ne_nil _ _)
        · rw [hpieces] at h ih
          rw [List.modifyHead_cons, List.mem_cons] at h
          rcases h with rfl | h
          · rw [List.mem_cons, not_or]
            exact ⟨fun hc => hx (beq_iff_eq.mpr hc.symm), ih List.mem_cons_self⟩
          · exact ih (List.mem_cons_of_mem q h)

end Trilogicon
