import Trilogicon.Theory.Binding

/-!
# The Order of a Genesis Document

Which documents are loaded, and that the order of their allocations does not
matter.

Duplicates are looked for among neighbours only. That is enough after the sort:
equal addresses end up next to each other, so a list without equal neighbours
is sorted strictly, and a strict order has no duplicates at all. A list has at
most one strict rearrangement, so whatever order the allocations come in, the
same pairs, the same table and the same commitment come out.

A refused document is refused in every order. The text of the error names the
first bad entry that was met, which may be another one.

## Main definitions

* `SameOutcome`: Equal results, or a genesis error on both sides.

## Theorems

* `sortedPairs_exists_iff`: Which documents are accepted.
* `sortedPairs_error`: A document is refused with a genesis error.
* `sortedPairs_sameOutcome`: The order of the allocations does not matter.
* `genesis_order_independent`: The same for the table and the commitment.
-/

namespace Trilogicon

/-- The results are equal, or both sides fail with a genesis error. -/
def SameOutcome {α : Type} (x y : Except ProtocolError α) : Prop :=
  x = y ∨ ∃ m m', x = .error (.genesisError m) ∧ y = .error (.genesisError m')

theorem SameOutcome.bind {α β : Type} {x y : Except ProtocolError α} (h : SameOutcome x y)
    (f : α → Except ProtocolError β) : SameOutcome (x >>= f) (y >>= f) := by
  rcases h with rfl | ⟨m, m', rfl, rfl⟩
  · exact Or.inl rfl
  · exact Or.inr ⟨m, m', rfl, rfl⟩

namespace Genesis

theorem validateAllocations_error {as : List GenesisAllocation} {e : ProtocolError}
    (h : validateAllocations as = .error e) : ∃ m, e = .genesisError m := by
  induction as with
  | nil =>
      unfold validateAllocations at h
      exact absurd h (by simp only [reduceCtorEq, not_false_eq_true])
  | cons a as ih =>
      unfold validateAllocations at h
      by_cases hvalid : (!(Address.mk a.address).isValid) = true
      · rw [if_pos hvalid, Except.error.injEq] at h
        exact ⟨_, h.symm⟩
      · rw [if_neg hvalid] at h
        by_cases hzero : a.balance = 0
        · rw [if_pos hzero, Except.error.injEq] at h
          exact ⟨_, h.symm⟩
        · rw [if_neg hzero] at h
          exact ih h

theorem checkAdjacent_error {ps : List (Address × UInt64)} {e : ProtocolError}
    (h : checkAdjacent ps = .error e) : ∃ m, e = .genesisError m := by
  induction ps with
  | nil =>
      unfold checkAdjacent at h
      exact absurd h (by simp only [reduceCtorEq, not_false_eq_true])
  | cons x ps ih =>
      cases ps with
      | nil =>
          unfold checkAdjacent at h
          exact absurd h (by simp only [reduceCtorEq, not_false_eq_true])
      | cons y ps =>
          unfold checkAdjacent at h
          by_cases hsame : x.1 = y.1
          · rw [if_pos hsame, Except.error.injEq] at h
            exact ⟨_, h.symm⟩
          · rw [if_neg hsame] at h
            exact ih h

/-- A document is refused with a genesis error. -/
theorem sortedPairs_error {g : Genesis} {e : ProtocolError} (h : g.sortedPairs = .error e) :
    ∃ m, e = .genesisError m := by
  unfold sortedPairs at h
  cases hdecl : g.validateDecl with
  | error e' =>
      rw [hdecl] at h
      rw [← Except.error.inj h]
      exact validateAllocations_error hdecl
  | ok _ =>
      cases hadj : checkAdjacent (g.pairs.insertionSort pairLe) with
      | error e' =>
          rw [hdecl, hadj] at h
          rw [← Except.error.inj h]
          exact checkAdjacent_error hadj
      | ok _ =>
          rw [hdecl, hadj] at h
          exact absurd h (by simp only [bind, Except.bind, reduceCtorEq, not_false_eq_true])

theorem pairs_map_fst (g : Genesis) :
    g.pairs.map Prod.fst = (g.allocations.map fun a => a.address).map Address.mk := by
  unfold pairs
  rw [List.map_map, List.map_map]
  rfl

/-- Which documents are accepted. -/
theorem sortedPairs_exists_iff (g : Genesis) :
    (∃ ps, g.sortedPairs = .ok ps) ↔
      (∀ a ∈ g.allocations, (Address.mk a.address).isValid = true ∧ 0 < a.balance) ∧
        (g.allocations.map fun a => a.address).Nodup := by
  have hpositive : ∀ b : UInt64, b ≠ 0 ↔ 0 < b := by
    intro b
    rw [UInt64.lt_iff_toNat_lt, ne_eq, ← UInt64.toNat_inj, UInt64.toNat_zero]
    omega
  have hinj : Function.Injective Address.mk := fun a b h => congrArg Address.value h
  constructor
  · intro h
    rcases h with ⟨ps, hps⟩
    refine ⟨fun a ha => ?_, ?_⟩
    · rcases ((sortedPairs_ok_iff g ps).mp hps).1 a ha with ⟨hvalid, hne⟩
      exact ⟨hvalid, (hpositive a.balance).mp hne⟩
    · -- What is sorted has no equal neighbours, and is the document in another order.
      have hnodup := sortedPairs_nodup hps
      rw [((sortedPairs_perm hps).map Prod.fst).nodup_iff, pairs_map_fst] at hnodup
      exact hnodup.of_map _
  · intro h
    refine ⟨_, (sortedPairs_ok_iff g _).mpr ⟨fun a ha => ?_, ?_, rfl⟩⟩
    · exact ⟨(h.1 a ha).1, (hpositive a.balance).mpr (h.1 a ha).2⟩
    · -- Addresses without duplicates have no equal neighbours in any order.
      have hnodup : ((g.pairs.insertionSort pairLe).map Prod.fst).Nodup := by
        rw [((List.perm_insertionSort pairLe g.pairs).map Prod.fst).nodup_iff, pairs_map_fst]
        exact h.2.map hinj
      rw [List.Nodup, List.pairwise_map] at hnodup
      exact hnodup.isChain

/-- The order of the allocations does not matter. -/
theorem sortedPairs_sameOutcome {g g' : Genesis}
    (hperm : g'.allocations.Perm g.allocations) :
    SameOutcome g'.sortedPairs g.sortedPairs := by
  have hiff : (∃ ps, g'.sortedPairs = .ok ps) ↔ ∃ ps, g.sortedPairs = .ok ps := by
    rw [sortedPairs_exists_iff, sortedPairs_exists_iff, (hperm.map _).nodup_iff]
    refine and_congr_left fun _ => forall_congr' fun a => ?_
    rw [hperm.mem_iff]
  cases h' : g'.sortedPairs with
  | ok ps' =>
      rcases hiff.mp ⟨ps', h'⟩ with ⟨ps, h⟩
      rw [h]
      refine Or.inl (congrArg Except.ok ?_)
      -- The order is strict, so it leaves one way to list the same pairs.
      have hpairs : ps'.Perm ps :=
        (sortedPairs_perm h').trans ((hperm.map _).trans (sortedPairs_perm h).symm)
      refine hpairs.eq_of_pairwise ?_ (sortedPairs_strict h') (sortedPairs_strict h)
      intro x y _ _ hxy hyx
      exact absurd (lt_trans (α := List Nat) hxy hyx) (lt_irrefl _)
  | error e' =>
      cases h : g.sortedPairs with
      | ok ps =>
          rcases hiff.mpr ⟨ps, h⟩ with ⟨ps', hok⟩
          rw [h'] at hok
          exact absurd hok (by simp only [reduceCtorEq, not_false_eq_true])
      | error e =>
          -- Each text names the first bad entry of its own order.
          rcases sortedPairs_error h' with ⟨m, rfl⟩
          rcases sortedPairs_error h with ⟨m', rfl⟩
          exact Or.inr ⟨m, m', rfl, rfl⟩

end Genesis

section Results

variable [Primitives]

/-- A document is loaded exactly if its addresses are valid and distinct and its
    balances positive. The pairs are then its allocations in the strict order of the
    address bytes, and the table holds just these, with nonce zero. Another order
    of the allocations gives the same pairs, table and commitment, or is refused as
    well. -/
theorem genesis_order_independent (g : Genesis) :
    ((∃ ps, g.sortedPairs = .ok ps) ↔
      (∀ a ∈ g.allocations, (Address.mk a.address).isValid = true ∧ 0 < a.balance) ∧
        (g.allocations.map fun a => a.address).Nodup) ∧
    (∀ ps, g.sortedPairs = .ok ps → ps.Perm g.pairs ∧
      ps.Pairwise (fun x y => byteKey x.1.value < byteKey y.1.value) ∧
      ∃ s, State.fromGenesis g = .ok s ∧ ∀ a acc, s.getAccount a = some acc ↔
        ∃ balance, (a, balance) ∈ ps ∧ acc = { address := a, balance, nonce := 0 }) ∧
    ∀ g' : Genesis, g'.allocations.Perm g.allocations →
      SameOutcome g'.sortedPairs g.sortedPairs ∧
      SameOutcome (State.fromGenesis g') (State.fromGenesis g) ∧
      SameOutcome g'.stateCommitmentRaw32 g.stateCommitmentRaw32 := by
  refine ⟨g.sortedPairs_exists_iff, ?_, ?_⟩
  · intro ps hps
    have hnodup := Genesis.sortedPairs_nodup hps
    refine ⟨Genesis.sortedPairs_perm hps, Genesis.sortedPairs_strict hps, State.new.insertPairs ps,
      bind_ok_iff.mpr ⟨ps, hps, rfl⟩, ?_⟩
    intro a acc
    constructor
    · intro hget
      by_cases hmem : a ∈ ps.map Prod.fst
      · rcases List.mem_map.mp hmem with ⟨p, hp, rfl⟩
        rw [State.getAccount_insertPairs_of_mem hnodup hp, Option.some.injEq] at hget
        exact ⟨p.2, hp, hget.symm⟩
      · rw [State.getAccount_insertPairs_of_notMem hmem] at hget
        exact absurd (hget.symm.trans (Finmap.lookup_empty a))
          (by simp only [reduceCtorEq, not_false_eq_true])
    · intro h
      rcases h with ⟨balance, hp, rfl⟩
      exact State.getAccount_insertPairs_of_mem hnodup hp
  · intro g' hperm
    have hpairs := Genesis.sortedPairs_sameOutcome hperm
    exact ⟨hpairs, hpairs.bind _, hpairs.bind _⟩

end Results

end Trilogicon
