import Mathlib.Data.Finset.Card
import Mathlib.Data.List.Nodup

/-!
# Walks Down a Ranked Relation

Following a relation from a point until some condition holds, as a loop does
that remembers where it has been and gives up after a number of rounds.

`Leads R a l r` says that the walk from `a` passes through the points `l` and
arrives at `r`. If every step lowers a rank, a walk never comes back to where it
was; so a loop that guards against returning never uses its guard, and if all
points it can leave are in a finite set, it does not run out of rounds either.
What is left is `walk_ok_iff`: the loop returns exactly the points between its
start and the first point that satisfies the condition. It fails only where a
walk leads to a point that is refused, and what it would report when one of its
guards strikes does not matter.

## Main definitions

* `Leads`: A walk from one point to another, with the points it leaves.
* `Lowers`: Every step lowers a rank.
* `Round`: What one round of a loop decides.
* `walk`: The loop.
* `Guides`: The rounds of a loop follow a relation up to a condition.
* `DecidesBy`: The rounds of a loop look at the point only, apart from a guard.
* `Ahead`: Where a loop cannot come back and has rounds left.

## Theorems

* `leads_cons_iff`, `leads_concat_iff`: The first and the last step of a walk.
* `leads_until_iff`: A walk to the first point that satisfies a condition.
* `exists_leads_iff`: What walks lead to.
* `Leads.append`, `Leads.split_at`: Walks compose, and split at their points.
* `Leads.rank_lt`, `Leads.nodup`: A walk leaves each point once.
* `Leads.extends`: Of two walks from one point, the one to a dead end is longer.
* `Leads.nodup_of_end`: A walk to a dead end leaves each point once.
* `no_end_iff`: A walk without an end comes back to some point.
* `Leads.exists_meet`: Two walks to one point have a first point in common.
* `walk_succ_ok_iff`, `walk_succ_error_iff`: One round of a loop.
* `walk_ok_iff`: What a loop with enough rounds returns.
* `walk_error_iff`: Where it fails.
* `walk_congr`: Its guards do not matter.
-/

namespace Trilogicon

variable {α ε : Type}

/-- The walk from one point passes through some points and arrives at another. -/
inductive Leads (R : α → α → Prop) : α → List α → α → Prop where
  | here (r : α) : Leads R r [] r
  | step {a b r : α} {l : List α} (hab : R a b) (h : Leads R b l r) : Leads R a (a :: l) r

/-- Every step lowers a rank. -/
def Lowers (R : α → α → Prop) (rank : α → Nat) : Prop :=
  ∀ a b, R a b → rank b < rank a

section Walks

variable {R : α → α → Prop} {rank : α → Nat} {a b r r' x : α} {l l' : List α}

theorem leads_nil_iff : Leads R a [] r ↔ a = r := by
  constructor
  · intro h
    cases h
    rfl
  · intro h
    rw [h]
    exact .here r

theorem leads_cons_iff : Leads R a (x :: l) r ↔ a = x ∧ ∃ b, R a b ∧ Leads R b l r := by
  constructor
  · intro h
    cases h with
    | step hab hb => exact ⟨rfl, _, hab, hb⟩
  · intro h
    rcases h with ⟨rfl, b, hab, hb⟩
    exact .step hab hb

/-- A walk to the first point that satisfies a condition: the walk is over, or
    takes a first step and then is such a walk. -/
theorem leads_until_iff {Stop : α → Prop} :
    (Leads R a l r ∧ Stop r ∧ ∀ x ∈ l, ¬ Stop x) ↔
      Stop a ∧ l = [] ∧ a = r ∨
      ∃ b l', (¬ Stop a ∧ R a b) ∧ l = a :: l' ∧ Leads R b l' r ∧ Stop r ∧ ∀ x ∈ l', ¬ Stop x := by
  constructor
  · intro h
    rcases h with ⟨hl, hstop, hbefore⟩
    cases hl with
    | here => exact Or.inl ⟨hstop, rfl, rfl⟩
    | step hab hb =>
        exact Or.inr ⟨_, _, ⟨hbefore a List.mem_cons_self, hab⟩, rfl, hb, hstop,
          fun x hx => hbefore x (List.mem_cons_of_mem a hx)⟩
  · intro h
    rcases h with ⟨hstop, rfl, rfl⟩ | ⟨b, l', ⟨hgoes, hab⟩, rfl, hb, hstop, hbefore⟩
    · exact ⟨.here a, hstop, fun x hx => absurd hx List.not_mem_nil⟩
    · refine ⟨.step hab hb, hstop, ?_⟩
      intro x hx
      rcases List.mem_cons.mp hx with rfl | hin
      · exact hgoes
      · exact hbefore x hin

/-- What walks lead to: the start, or what walks lead to after a first step. -/
theorem exists_leads_iff {P : α → Prop} :
    (∃ l r, Leads R a l r ∧ P r) ↔ P a ∨ ∃ b, R a b ∧ ∃ l r, Leads R b l r ∧ P r := by
  constructor
  · intro h
    rcases h with ⟨l, r, hl, hr⟩
    cases hl with
    | here => exact Or.inl hr
    | step hab hb => exact Or.inr ⟨_, hab, _, r, hb, hr⟩
  · intro h
    rcases h with ha | ⟨b, hab, l, r, hb, hr⟩
    · exact ⟨[], a, .here a, ha⟩
    · exact ⟨a :: l, r, .step hab hb, hr⟩

/-- The last step of a walk. -/
theorem leads_concat_iff : Leads R a (l ++ [x]) r ↔ Leads R a l x ∧ R x r := by
  induction l generalizing a with
  | nil =>
      rw [List.nil_append, leads_cons_iff, leads_nil_iff]
      constructor
      · intro h
        rcases h with ⟨rfl, b, hab, hb⟩
        exact ⟨rfl, leads_nil_iff.mp hb ▸ hab⟩
      · intro h
        rcases h with ⟨rfl, har⟩
        exact ⟨rfl, r, har, .here r⟩
  | cons y l ih =>
      rw [List.cons_append, leads_cons_iff, leads_cons_iff]
      constructor
      · intro h
        rcases h with ⟨hay, b, hab, hb⟩
        exact ⟨⟨hay, b, hab, (ih.mp hb).1⟩, (ih.mp hb).2⟩
      · intro h
        rcases h with ⟨⟨hay, b, hab, hb⟩, hxr⟩
        exact ⟨hay, b, hab, ih.mpr ⟨hb, hxr⟩⟩

/-- A walk can go on where another arrived. -/
theorem Leads.append (h : Leads R a l b) (h' : Leads R b l' r) : Leads R a (l ++ l') r := by
  induction h with
  | here => exact h'
  | step hab _ ih => exact .step hab (ih h')

/-- A walk passes through each of its points. -/
theorem Leads.split_at (h : Leads R a l r) (hx : x ∈ l) :
    ∃ l₁ l₂, l = l₁ ++ x :: l₂ ∧ Leads R a l₁ x ∧ Leads R x (x :: l₂) r := by
  induction h with
  | here => exact absurd hx List.not_mem_nil
  | @step a b r l hab hb ih =>
      rcases List.mem_cons.mp hx with rfl | hin
      · exact ⟨[], l, rfl, .here x, .step hab hb⟩
      · rcases ih hin with ⟨l₁, l₂, rfl, h₁, h₂⟩
        exact ⟨a :: l₁, l₂, rfl, .step hab h₁, h₂⟩

/-- From each of its points a walk takes a step. -/
theorem Leads.exists_step (h : Leads R a l r) (hx : x ∈ l) : ∃ b, R x b := by
  rcases h.split_at hx with ⟨_, _, _, _, h₂⟩
  rcases leads_cons_iff.mp h₂ with ⟨_, b, hxb, _⟩
  exact ⟨b, hxb⟩

/-- A walk that does not repeat goes from each of its points to another. -/
theorem Leads.exists_next (h : Leads R a l r) (hnodup : (l ++ [r]).Nodup) (hx : x ∈ l) :
    ∃ y ∈ l ++ [r], y ≠ x ∧ R x y := by
  rcases h.split_at hx with ⟨l₁, l₂, rfl, _, h₂⟩
  rcases leads_cons_iff.mp h₂ with ⟨_, y, hxy, hy⟩
  have hin : y ∈ l₂ ++ [r] := by
    cases hy with
    | here => exact List.mem_singleton_self _
    | step => exact List.mem_cons_self
  rw [List.append_assoc, List.cons_append] at hnodup ⊢
  have hout := (List.nodup_cons.mp (List.nodup_append.mp hnodup).2.1).1
  exact ⟨y, List.mem_append_right _ (List.mem_cons_of_mem _ hin), fun hc => hout (hc ▸ hin), hxy⟩

theorem Leads.mono {S : α → α → Prop} (h : Leads R a l r)
    (himp : ∀ x ∈ l, ∀ y, R x y → S x y) : Leads S a l r := by
  induction h with
  | here r => exact .here r
  | @step a b r l hab _ ih =>
      exact .step (himp a List.mem_cons_self b hab)
        (ih fun x hx => himp x (List.mem_cons_of_mem a hx))

/-- A walk arrives below every point it leaves. -/
theorem Leads.rank_lt (hR : Lowers R rank) (h : Leads R a l r) (hx : x ∈ l) :
    rank r < rank x := by
  induction h generalizing x with
  | here => exact absurd hx List.not_mem_nil
  | @step a b r l hab hb ih =>
      have hle : rank r ≤ rank b := by
        cases hb with
        | here => exact Nat.le_refl _
        | step hbc hc => exact Nat.le_of_lt (ih List.mem_cons_self)
      rcases List.mem_cons.mp hx with rfl | hin
      · exact Nat.lt_of_le_of_lt hle (hR _ _ hab)
      · exact ih hin

theorem Leads.rank_le (hR : Lowers R rank) (h : Leads R a l r) : rank r ≤ rank a := by
  cases h with
  | here => exact Nat.le_refl _
  | step hab hb => exact Nat.le_of_lt ((Leads.step hab hb).rank_lt hR List.mem_cons_self)

/-- A walk never comes back to where it was. -/
theorem Leads.nodup (hR : Lowers R rank) (h : Leads R a l r) : (l ++ [r]).Nodup := by
  induction h with
  | here r => exact List.nodup_singleton r
  | @step a b r l hab hb ih =>
      refine List.nodup_cons.mpr ⟨?_, ih⟩
      -- Everything after the first step is below the first point.
      intro hin
      have hlow := hR _ _ hab
      rcases List.mem_append.mp hin with hl | hr
      · rcases hb.split_at hl with ⟨_, _, _, h₁, _⟩
        have := h₁.rank_le hR
        omega
      · rw [List.mem_singleton] at hr
        subst hr
        have := hb.rank_le hR
        omega

/-- Where steps are determined, a walk to a point with no step extends every
    walk from the same start. -/
theorem Leads.extends (hfun : ∀ a b c, R a b → R a c → b = c) (hend : ∀ b, ¬ R r' b)
    (h : Leads R a l r) (h' : Leads R a l' r') :
    ∃ l₂, l' = l ++ l₂ ∧ Leads R r l₂ r' := by
  induction h generalizing l' with
  | here r => exact ⟨l', rfl, h'⟩
  | @step a b r l hab hb ih =>
      cases h' with
      | here => exact absurd hab (hend b)
      | @step _ c _ l' hac hc =>
          rw [← hfun a b c hab hac] at hc
          rcases ih hc with ⟨l₂, rfl, h₂⟩
          exact ⟨l₂, rfl, h₂⟩

/-- Where steps are determined, a walk to a point with no step leaves each point
    once. -/
theorem Leads.nodup_of_end (hfun : ∀ a b c, R a b → R a c → b = c) (hend : ∀ b, ¬ R r b)
    (h : Leads R a l r) : l.Nodup := by
  induction h with
  | here => exact List.nodup_nil
  | @step a b r l hab hb ih =>
      refine List.nodup_cons.mpr ⟨?_, ih hend⟩
      intro hin
      -- From where it comes back to its start, the walk would have to be as long as it is.
      rcases hb.split_at hin with ⟨l₁, l₂, rfl, _, h₂⟩
      rcases h₂.extends hfun hend (.step hab hb) with ⟨l₃, hl₃, h₃⟩
      cases h₃ with
      | here =>
          have hlen := congrArg List.length hl₃
          simp only [List.length_cons, List.length_append, List.length_nil] at hlen
          omega
      | step hrc _ => exact hend _ hrc

/-- From every point there is a walk to an end, or one of any length. -/
theorem exists_end_or_leads (R : α → α → Prop) (n : Nat) (a : α) :
    (∃ l r, Leads R a l r ∧ ∀ b, ¬ R r b) ∨ ∃ l r, Leads R a l r ∧ l.length = n := by
  induction n generalizing a with
  | zero => exact .inr ⟨[], a, .here a, rfl⟩
  | succ n ih =>
      by_cases hstep : ∃ b, R a b
      · rcases hstep with ⟨b, hab⟩
        rcases ih b with ⟨l, r, h, hend⟩ | ⟨l, r, h, hlen⟩
        · exact .inl ⟨a :: l, r, .step hab h, hend⟩
        · exact .inr ⟨a :: l, r, .step hab h, by rw [List.length_cons, hlen]⟩
      · exact .inl ⟨[], a, .here a, fun b hab => hstep ⟨b, hab⟩⟩

/-- A walk that leaves a point twice comes back to it. -/
theorem Leads.exists_loop [DecidableEq α] (h : Leads R a l r) (hdup : ¬ l.Nodup) :
    ∃ l₁ x l₂, Leads R a l₁ x ∧ Leads R x l₂ x ∧ l₂ ≠ [] := by
  induction h with
  | here => exact absurd List.nodup_nil hdup
  | @step a b r l hab hb ih =>
      by_cases hin : a ∈ l
      · rcases hb.split_at hin with ⟨l₁, _, _, h₁, _⟩
        exact ⟨[], a, a :: l₁, .here a, .step hab h₁, List.cons_ne_nil _ _⟩
      · rcases ih fun hc => hdup (List.nodup_cons.mpr ⟨hin, hc⟩) with ⟨l₁, x, l₂, h₁, h₂, hne⟩
        exact ⟨a :: l₁, x, l₂, .step hab h₁, h₂, hne⟩

/-- Where steps are determined and all points that can be left are in a finite set,
    the walk from a point has no end exactly when it comes back to some point. -/
theorem no_end_iff [DecidableEq α] {S : Finset α} (hfun : ∀ a b c, R a b → R a c → b = c)
    (hS : ∀ a b, R a b → a ∈ S) :
    (¬ ∃ l r, Leads R a l r ∧ ∀ b, ¬ R r b) ↔
      ∃ l x l', Leads R a l x ∧ Leads R x l' x ∧ l' ≠ [] := by
  constructor
  · intro hnone
    rcases exists_end_or_leads R (S.card + 1) a with hend | ⟨l, r, h, hlen⟩
    · exact absurd hend hnone
    · -- There are more points to leave than the set has.
      refine h.exists_loop fun hnodup => ?_
      have hsub : l.toFinset ⊆ S := by
        intro x hx
        rcases h.exists_step (List.mem_toFinset.mp hx) with ⟨b, hxb⟩
        exact hS x b hxb
      have hcard := Finset.card_le_card hsub
      rw [List.toFinset_card_of_nodup hnodup, hlen] at hcard
      omega
  · intro hloop hend
    rcases hloop with ⟨l, x, l', h, hback, hne⟩
    rcases hend with ⟨l₀, r, h₀, hend⟩
    rcases h.extends hfun hend h₀ with ⟨l₂, _, h₂⟩
    -- Going round once more gives a longer walk to the same end.
    rcases h₂.extends hfun hend (hback.append h₂) with ⟨l₃, hl₃, h₃⟩
    cases h₃ with
    | here =>
        have hlen := congrArg List.length hl₃
        rw [List.append_nil, List.length_append] at hlen
        exact hne (List.eq_nil_of_length_eq_zero (by omega))
    | step hrc _ => exact hend _ hrc

/-- Two walks to one point meet: there is a point that both pass, and before it
    they have nothing in common. -/
theorem Leads.exists_meet [DecidableEq α] (h : Leads R a l r) (h' : Leads R b l' r) :
    ∃ f old new rest, l = old ++ rest ∧ Leads R a old f ∧ Leads R b new f ∧
      Leads R f rest r ∧ ∀ x ∈ new, x ∉ old := by
  induction h' with
  | here r => exact ⟨r, l, [], [], (List.append_nil l).symm, h, .here r, .here r,
      fun x hx => absurd hx List.not_mem_nil⟩
  | @step b c r l' hbc _ ih =>
      by_cases hb : b ∈ l
      · -- The second walk is at a point of the first, so they meet here.
        rcases h.split_at hb with ⟨l₁, l₂, rfl, h₁, h₂⟩
        exact ⟨b, l₁, [], b :: l₂, rfl, h₁, .here b, h₂, fun x hx => absurd hx List.not_mem_nil⟩
      · rcases ih h with ⟨f, old, new, rest, rfl, hold, hnew, hrest, hdisj⟩
        refine ⟨f, old, b :: new, rest, rfl, hold, .step hbc hnew, hrest, ?_⟩
        intro x hx
        rcases List.mem_cons.mp hx with rfl | hin
        · exact fun hc => hb (List.mem_append_left rest hc)
        · exact hdisj x hin

end Walks

/-! ### Loops -/

/-- What a round of a loop decides: to end at its point, to fail, or to leave
    the point for another. -/
inductive Round (α ε : Type) where
  | stop
  | fail (e : ε)
  | go (next : α)

section Loops

variable [DecidableEq α]

/-- A loop from a point, with the points it has left. Returns the points it
    leaves from here on, and where it ends. -/
def walk (round : α → Finset α → Round α ε) (exhausted : α → Except ε α) :
    Nat → α → Finset α → Except ε (List α × α)
  | 0, cur, _ =>
      match exhausted cur with
      | .error e => .error e
      | .ok r => .ok ([], r)
  | fuel + 1, cur, visited =>
      match round cur visited with
      | .stop => .ok ([], cur)
      | .fail e => .error e
      | .go next =>
          match walk round exhausted fuel next (insert cur visited) with
          | .error e => .error e
          | .ok (l, r) => .ok (cur :: l, r)

/-- At a point that is new to it, a loop ends where the condition holds and
    else follows the relation. -/
structure Guides (round : α → Finset α → Round α ε) (R : α → α → Prop) (Stop : α → Prop) :
    Prop where
  stop_iff : ∀ cur visited, cur ∉ visited → (round cur visited = .stop ↔ Stop cur)
  go_iff : ∀ cur visited next, cur ∉ visited →
    (round cur visited = .go next ↔ ¬ Stop cur ∧ R cur next)

/-- Apart from its guard, a loop decides by the point it is at. -/
def DecidesBy (round : α → Finset α → Round α ε) (verdict : α → Round α ε) : Prop :=
  ∀ cur visited, cur ∉ visited → round cur visited = verdict cur

/-- One round of a loop: it ends at its point, or goes on from another. -/
theorem walk_succ_ok_iff {round : α → Finset α → Round α ε} {exhausted : α → Except ε α}
    {fuel : Nat} {cur : α} {visited : Finset α} {l : List α} {r : α} :
    walk round exhausted (fuel + 1) cur visited = .ok (l, r) ↔
      round cur visited = .stop ∧ l = [] ∧ cur = r ∨
      ∃ next l', round cur visited = .go next ∧ l = cur :: l' ∧
        walk round exhausted fuel next (insert cur visited) = .ok (l', r) := by
  rw [walk]
  cases round cur visited with
  | stop => simp only [Except.ok.injEq, Prod.mk.injEq, true_and, reduceCtorEq, false_and,
      exists_false, or_false, eq_comm]
  | fail e => simp only [reduceCtorEq, false_and, exists_false, or_self]
  | go next =>
      simp only [reduceCtorEq, false_and, false_or, Round.go.injEq]
      constructor
      · intro h
        cases hw : walk round exhausted fuel next (insert cur visited) with
        | error e =>
            rw [hw] at h
            exact absurd h (by simp only [reduceCtorEq, not_false_eq_true])
        | ok p =>
            rcases p with ⟨l', r'⟩
            simp only [hw, Except.ok.injEq, Prod.mk.injEq] at h
            exact ⟨next, l', rfl, h.1.symm, by rw [hw, h.2]⟩
      · intro h
        rcases h with ⟨_, l', rfl, rfl, hw⟩
        rw [hw]

/-- One round of a loop that fails: in this round, or after it. -/
theorem walk_succ_error_iff {round : α → Finset α → Round α ε} {exhausted : α → Except ε α}
    {fuel : Nat} {cur : α} {visited : Finset α} {e : ε} :
    walk round exhausted (fuel + 1) cur visited = .error e ↔
      round cur visited = .fail e ∨
      ∃ next, round cur visited = .go next ∧
        walk round exhausted fuel next (insert cur visited) = .error e := by
  rw [walk]
  cases round cur visited with
  | stop => simp only [reduceCtorEq, false_and, exists_false, or_self]
  | fail e' => simp only [Except.error.injEq, Round.fail.injEq, reduceCtorEq, false_and,
      exists_false, or_false]
  | go next =>
      simp only [reduceCtorEq, false_or, Round.go.injEq, exists_eq_left']
      cases walk round exhausted fuel next (insert cur visited) with
      | error e' => rfl
      | ok p => simp only [reduceCtorEq]

/-- A loop is below every point it has left, and has more rounds than there are
    points it could still leave. -/
structure Ahead (rank : α → Nat) (S : Finset α) (fuel : Nat) (cur : α) (visited : Finset α) :
    Prop where
  below : ∀ v ∈ visited, rank cur < rank v
  room : (S \ visited).card < fuel

namespace Ahead

variable {R : α → α → Prop} {rank : α → Nat} {S : Finset α} {fuel : Nat} {cur next : α}
  {visited : Finset α}

theorem start (h : S.card < fuel) : Ahead rank S fuel cur ∅ where
  below v hv := absurd hv (Finset.notMem_empty v)
  room := by rwa [Finset.sdiff_empty]

theorem notMem (h : Ahead rank S fuel cur visited) : cur ∉ visited :=
  fun hc => Nat.lt_irrefl _ (h.below cur hc)

/-- A step down keeps a loop ahead. -/
theorem step (hR : Lowers R rank) (hS : ∀ a b, R a b → a ∈ S)
    (h : Ahead rank S (fuel + 1) cur visited) (hstep : R cur next) :
    Ahead rank S fuel next (insert cur visited) where
  below v hv := by
    have hlow := hR cur next hstep
    rcases Finset.mem_insert.mp hv with rfl | hin
    · exact hlow
    · exact hlow.trans (h.below v hin)
  room := by
    -- The point that is left is one of those that could still be left.
    have hin : cur ∈ S \ visited := Finset.mem_sdiff.mpr ⟨hS cur next hstep, h.notMem⟩
    have hcard := Finset.card_erase_lt_of_mem hin
    have hroom := h.room
    rw [Finset.sdiff_insert]
    omega

end Ahead

section Outcome

variable {R : α → α → Prop} {rank : α → Nat} (hR : Lowers R rank) {S : Finset α}
  (hS : ∀ a b, R a b → a ∈ S) {round : α → Finset α → Round α ε} {exhausted : α → Except ε α}
  {fuel : Nat} {cur : α} {visited : Finset α}

include hR hS

/-- The loop returns the walk to the first point where the condition holds. -/
theorem walk_ok_iff {Stop : α → Prop} (hg : Guides round R Stop)
    (h : Ahead rank S fuel cur visited) {l : List α} {r : α} :
    walk round exhausted fuel cur visited = .ok (l, r) ↔
      Leads R cur l r ∧ Stop r ∧ ∀ x ∈ l, ¬ Stop x := by
  induction fuel generalizing cur visited l with
  | zero => exact absurd h.room (Nat.not_lt_zero _)
  | succ fuel ih =>
      rw [walk_succ_ok_iff, leads_until_iff, hg.stop_iff cur visited h.notMem]
      refine or_congr_right (exists_congr fun next => exists_congr fun l' => ?_)
      rw [hg.go_iff cur visited next h.notMem]
      exact and_congr_right fun hgo => and_congr_right fun _ => ih (h.step hR hS hgo.2)

/-- A loop fails where a walk leads to a point that is refused. -/
theorem walk_error_iff {verdict : α → Round α ε} (hround : DecidesBy round verdict)
    (hgo : ∀ a b, verdict a = .go b ↔ R a b) (h : Ahead rank S fuel cur visited) {e : ε} :
    walk round exhausted fuel cur visited = .error e ↔
      ∃ l r, Leads R cur l r ∧ verdict r = .fail e := by
  induction fuel generalizing cur visited with
  | zero => exact absurd h.room (Nat.not_lt_zero _)
  | succ fuel ih =>
      rw [walk_succ_error_iff, exists_leads_iff, hround cur visited h.notMem]
      refine or_congr_right (exists_congr fun next => ?_)
      rw [hgo cur next]
      exact and_congr_right fun hstep => ih (h.step hR hS hstep)

/-- Loops that differ in their guards only return the same: neither the memory of
    where they were nor the number of their rounds ever decides. -/
theorem walk_congr {round' : α → Finset α → Round α ε} {exhausted' : α → Except ε α}
    {verdict : α → Round α ε} (hround : DecidesBy round verdict)
    (hround' : DecidesBy round' verdict) (hgo : ∀ a b, verdict a = .go b ↔ R a b)
    (h : Ahead rank S fuel cur visited) :
    walk round exhausted fuel cur visited = walk round' exhausted' fuel cur visited := by
  induction fuel generalizing cur visited with
  | zero => exact absurd h.room (Nat.not_lt_zero _)
  | succ fuel ih =>
      rw [walk, walk, hround cur visited h.notMem, hround' cur visited h.notMem]
      cases hverdict : verdict cur with
      | stop => rfl
      | fail e => rfl
      | go next =>
          have hstep := (hgo cur next).mp hverdict
          simp only [ih (h.step hR hS hstep)]

end Outcome

end Loops

end Trilogicon
