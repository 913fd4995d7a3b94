import Trilogicon.Theory.Chain

/-!
# The Ledger of a Chain

What the account table of a chain says about the transactions in it.

The table at height zero is the book of the genesis document. Every later
table is that book with the committed transfers posted to it, so the closed
forms of `Lib.Book` apply: what an account holds plus all it sent is what it
was allocated plus all it received, and its nonce counts what it sent. They do
not depend on how the chain was built, because every reachable chain is the
replay of its own blocks.

The nonces an account used are `0, 1, 2, ...` in chain order. The check for
repeated ids inside one block plays no part in this; a transaction cannot be
committed twice because its nonce is spent.

## Main definitions

* `Genesis.allocation`: What a document gives an address.
* `Genesis.total`: All it gives.
* `Blockchain.committed`: The transactions of a chain, in order.
* `Blockchain.transfers`: The same, as transfers.

## Theorems

* `Genesis.sortedPairs_strict`: Accepted allocations are sorted strictly.
* `State.fromGenesis_book`: The table at height zero.
* `Blockchain.Sound.book_eq`: A chain's table is its genesis book with its
  transfers posted.
* `Blockchain.Sound.supply_eq`: What is left of the supply.
* `ledger_closed_form`: Balances, nonces, accounts and supply of a chain.
* `committed_nonces`: Each sender's nonces count up from zero.
-/

namespace Trilogicon

/-! ### The table at height zero -/

namespace Genesis

/-- What the document gives an address. -/
def allocation (g : Genesis) (a : Address) : Nat :=
  ((g.allocations.filter fun al => al.address = a.value).map fun al => al.balance.toNat).sum

/-- All the document gives. -/
def total (g : Genesis) : Nat :=
  (g.allocations.map fun al => al.balance.toNat).sum

instance : IsTrans (Address × UInt64) pairLe :=
  ⟨fun _ _ _ => le_trans⟩

instance : Std.Total pairLe :=
  ⟨fun x y => le_total (byteKey x.1.value) (byteKey y.1.value)⟩

/-- The strict version of the order allocations are sorted by. -/
def pairLt (x y : Address × UInt64) : Prop :=
  byteKey x.1.value < byteKey y.1.value

instance : Trans pairLt pairLt pairLt :=
  ⟨fun hxy hyz => lt_trans hxy hyz⟩

/-- Accepted allocations are sorted strictly by the bytes of their address. -/
theorem sortedPairs_strict {g : Genesis} {ps : List (Address × UInt64)}
    (h : g.sortedPairs = .ok ps) : ps.Pairwise pairLt := by
  rcases (sortedPairs_ok_iff g ps).mp h with ⟨_, hne, hsort⟩
  have hle : ps.Pairwise pairLe := by
    rw [hsort]
    exact List.pairwise_insertionSort pairLe g.pairs
  -- Sorted and without equal neighbours is strictly sorted.
  have hlt : ps.IsChain pairLt := by
    rw [List.isChain_iff_getElem]
    intro i hi
    have hadj := List.isChain_iff_getElem.mp hne i hi
    have hord := List.pairwise_iff_getElem.mp hle i (i + 1) (by omega) hi (by omega)
    refine lt_of_le_of_ne hord fun hc => hadj ?_
    have hval := byteKey_inj hc
    rw [← Address.mk.injEq] at hval
    exact hval
  exact hlt.pairwise

theorem sortedPairs_nodup {g : Genesis} {ps : List (Address × UInt64)}
    (h : g.sortedPairs = .ok ps) : (ps.map Prod.fst).Nodup := by
  rw [List.Nodup, List.pairwise_map]
  refine (sortedPairs_strict h).imp ?_
  intro x y hlt heq
  rw [pairLt, heq] at hlt
  exact absurd hlt (lt_irrefl _)

theorem sortedPairs_perm {g : Genesis} {ps : List (Address × UInt64)}
    (h : g.sortedPairs = .ok ps) : ps.Perm g.pairs := by
  rw [((sortedPairs_ok_iff g ps).mp h).2.2]
  exact List.perm_insertionSort pairLe g.pairs

end Genesis

namespace State

theorem insertPairs_cons (s : State) (p : Address × UInt64) (ps : List (Address × UInt64)) :
    s.insertPairs (p :: ps) = (s.put (Account.new p.1 p.2)).insertPairs ps := rfl

/-- A fresh account adds its balance to the supply. -/
theorem supply_put_of_unknown (s : State) (acc : Account) (h : acc.address ∉ s.book.known) :
    (s.put acc).book.supply = s.book.supply + acc.balance.toNat := by
  rw [Book.supply, known_put, Finset.sum_insert h, balance_put, if_pos rfl, Nat.add_comm,
    Book.supply]
  congr 1
  refine Finset.sum_congr rfl fun a ha => ?_
  have hne : a ≠ acc.address := fun hc => h (hc ▸ ha)
  rw [balance_put, if_neg hne]

/-- Inserting pairs with new, distinct addresses. -/
theorem insertPairs_book (s : State) (ps : List (Address × UInt64))
    (hnodup : (ps.map Prod.fst).Nodup) (hnew : ∀ p ∈ ps, p.1 ∉ s.book.known) :
    (∀ a, (s.insertPairs ps).book.balance a = s.book.balance a +
        ((ps.filter fun p => p.1 = a).map fun p => p.2.toNat).sum) ∧
      (∀ a, (s.insertPairs ps).book.nonce a = s.book.nonce a) ∧
      (∀ a, a ∈ (s.insertPairs ps).book.known ↔ a ∈ s.book.known ∨ a ∈ ps.map Prod.fst) ∧
      (s.insertPairs ps).book.supply = s.book.supply + (ps.map fun p => p.2.toNat).sum := by
  induction ps generalizing s with
  | nil =>
      simp only [insertPairs, List.foldl_nil, List.filter_nil, List.map_nil, List.sum_nil,
        Nat.add_zero, List.not_mem_nil, or_false, implies_true, and_self]
  | cons p ps ih =>
      rw [List.map_cons, List.nodup_cons] at hnodup
      rw [List.forall_mem_cons] at hnew
      have hnone : s.getAccount p.1 = none := by
        have hk := hnew.1
        rw [mem_known, ← Option.isSome_iff_exists, Option.not_isSome_iff_eq_none] at hk
        exact hk
      have hzero := balance_of_getAccount_none hnone
      -- The later pairs are still new, because no address occurs twice.
      have hnew' : ∀ q ∈ ps, q.1 ∉ (s.put (Account.new p.1 p.2)).book.known := by
        intro q hq
        rw [known_put, Finset.mem_insert, not_or]
        refine ⟨fun hc => hnodup.1 ?_, hnew.2 q hq⟩
        exact List.mem_map.mpr ⟨q, hq, hc⟩
      rcases ih (s.put (Account.new p.1 p.2)) hnodup.2 hnew' with ⟨hbal, hnon, hkno, hsup⟩
      rw [insertPairs_cons]
      -- The first pair is one row more, and the others add theirs.
      refine ⟨fun a => ?_, fun a => ?_, fun a => ?_, ?_⟩
      · rw [hbal, balance_put, List.filter_cons]
        by_cases ha : p.1 = a
        · rw [if_pos (by exact ha.symm), if_pos (by simpa only [decide_eq_true_eq] using ha),
            List.map_cons, List.sum_cons, ← ha, hzero.1, Nat.zero_add]
          rfl
        · rw [if_neg (fun hc => ha hc.symm), if_neg (by simpa only [decide_eq_true_eq] using ha)]
      · rw [hnon, nonce_put]
        by_cases ha : a = p.1
        · rw [if_pos (by exact ha), ha, hzero.2]
          rfl
        · rw [if_neg (by exact ha)]
      · rw [hkno, known_put, Finset.mem_insert, List.map_cons, List.mem_cons]
        exact ⟨fun h => by tauto, fun h => by tauto⟩
      · rw [hsup, supply_put_of_unknown s _ hnew.1, List.map_cons, List.sum_cons, Nat.add_assoc]
        rfl

/-- The table at height zero: the allocated balances, no nonce used. -/
theorem fromGenesis_book {g : Genesis} {s : State} (h : fromGenesis g = .ok s) :
    (∀ a, s.book.balance a = g.allocation a) ∧ (∀ a, s.book.nonce a = 0) ∧
      (∀ a, a ∈ s.book.known ↔ ∃ al ∈ g.allocations, al.address = a.value) ∧
      s.book.supply = g.total := by
  rcases bind_ok_iff.mp h with ⟨ps, hps, heq⟩
  rw [Except.ok.injEq] at heq
  have hperm := Genesis.sortedPairs_perm hps
  have hempty : (new.book).known = ∅ := rfl
  rcases insertPairs_book new ps (Genesis.sortedPairs_nodup hps)
    (fun p _ => by rw [hempty]; exact Finset.notMem_empty _) with ⟨hbal, hnon, hkno, hsup⟩
  rw [← heq]
  -- Sums and membership do not see the order in which the pairs were sorted.
  refine ⟨fun a => ?_, hnon, fun a => ?_, ?_⟩
  · rw [hbal, ((hperm.filter _).map _).sum_eq, Genesis.pairs, List.filter_map, List.map_map,
      Genesis.allocation]
    have hzero : new.book.balance a = 0 := rfl
    rw [hzero, Nat.zero_add]
    congr 2
    refine List.filter_congr fun al _ => ?_
    simp only [Function.comp_apply, decide_eq_decide]
    exact ⟨fun hc => congrArg Address.value hc, fun hc => congrArg Address.mk hc⟩
  · rw [hkno, hempty, (hperm.map _).mem_iff, Genesis.pairs, List.map_map, List.mem_map]
    simp only [Finset.notMem_empty, false_or, Function.comp_apply]
    constructor
    · rintro ⟨al, hal, rfl⟩
      exact ⟨al, hal, rfl⟩
    · rintro ⟨al, hal, hadr⟩
      exact ⟨al, hal, congrArg Address.mk hadr⟩
  · rw [hsup, (hperm.map _).sum_eq, Genesis.pairs, List.map_map, Genesis.total]
    have hzero : new.book.supply = 0 := rfl
    rw [hzero, Nat.zero_add]
    rfl

end State

/-! ### The table of a chain -/

namespace Blockchain

/-- The transactions of a chain, in chain order and block order. -/
def committed (c : Blockchain) : List Transaction :=
  c.blocks.flatMap Block.transactions

/-- The same, as transfers. -/
def transfers (c : Blockchain) : List (Transfer Address) :=
  c.committed.map Transaction.transfer

variable [Primitives]

theorem committed_eq_drop {c : Blockchain} (h : Linked c.blocks) :
    c.committed = (c.blocks.drop 1).flatMap Block.transactions := by
  rw [committed, h.eq_cons, List.flatMap_cons]
  rfl

/-- The table of a chain comes from applying its transactions to the genesis
    table. -/
theorem Sound.applyAll_committed {g : Genesis} {c : Blockchain} (h : c.Sound g) :
    ∃ s₀, State.fromGenesis g = .ok s₀ ∧ s₀.applyAll c.committed = .ok c.state := by
  rcases bind_ok_iff.mp h.replay with ⟨s₀, hg, hblocks⟩
  rw [applyBlocks_ok_iff, ← committed_eq_drop h.linked] at hblocks
  exact ⟨s₀, hg, hblocks⟩

/-- A chain's table is its genesis book with its transfers posted. -/
theorem Sound.book_eq {g : Genesis} {c : Blockchain} (h : c.Sound g) :
    ∃ s₀, State.fromGenesis g = .ok s₀ ∧ s₀.book.AdmitsAll c.transfers ∧
      c.state.book = s₀.book.postAll c.transfers := by
  rcases h.applyAll_committed with ⟨s₀, hg, happly⟩
  rcases State.applyAll_ok happly with ⟨_, hadm, hpost⟩
  exact ⟨s₀, hg, hadm, hpost⟩

/-- The supply of a chain and the fees it burned are what its genesis document
    gave. -/
theorem Sound.supply_eq {g : Genesis} {c : Blockchain} (h : c.Sound g) :
    c.state.book.supply + (c.committed.map fun tx => tx.fee.toNat).sum = g.total := by
  rcases h.book_eq with ⟨s₀, hg, hadm, hpost⟩
  have hclosed := Book.postAll_supply s₀.book c.transfers s₀.book_supported hadm
  rw [← hpost, (State.fromGenesis_book hg).2.2.2, transfers, List.map_map] at hclosed
  exact hclosed

/-- The nonce of a committed transaction is below that of its sender. -/
theorem Sound.nonce_lt {g : Genesis} {c : Blockchain} (h : c.Sound g) {tx : Transaction}
    (htx : tx ∈ c.committed) : tx.nonce.toNat < c.state.nonce tx.sender := by
  rcases h.book_eq with ⟨s₀, _, hadm, hpost⟩
  have hlt := Book.admitsAll_nonce_lt s₀.book c.transfers hadm (List.mem_map_of_mem htx)
  rw [← hpost] at hlt
  exact hlt

end Blockchain

section Accounting

variable [Primitives]

theorem State.applyAll_perm {s s₁ s₂ : State} {txs us : List Transaction} (hp : txs.Perm us)
    (h₁ : s.applyAll txs = .ok s₁) (h₂ : s.applyAll us = .ok s₂) : s₁ = s₂ := by
  rcases applyAll_ok h₁ with ⟨_, hadm₁, hpost₁⟩
  rcases applyAll_ok h₂ with ⟨_, hadm₂, hpost₂⟩
  apply book_inj
  rw [hpost₁, hpost₂, Book.postAll_perm s.book (hp.map _) hadm₁ hadm₂]

/-- Balances, nonces, accounts and supply of a chain, from its transactions
    alone; and the order in which transactions are applied does not matter
    when both orders succeed. -/
theorem ledger_closed_form (g : Genesis) (c : Blockchain) (h : Reachable g c) :
    (∀ a : Address,
      c.state.balance a + spent c.transfers a = g.allocation a + received c.transfers a ∧
      c.state.nonce a = (sentBy c.transfers a).length ∧
      (a ∈ c.state.accounts ↔ (∃ al ∈ g.allocations, al.address = a.value) ∨
        ∃ tx ∈ c.committed, tx.receiver = a)) ∧
    (∑ a ∈ c.state.accounts.keys, c.state.balance a) +
      (c.committed.map fun tx => tx.fee.toNat).sum = g.total ∧
    (∀ (s s₁ s₂ : State) (txs us : List Transaction), txs.Perm us →
      s.applyAll txs = .ok s₁ → s.applyAll us = .ok s₂ → s₁ = s₂) := by
  rcases h.sound.book_eq with ⟨s₀, hg, hadm, hpost⟩
  rcases State.fromGenesis_book hg with ⟨hbal, hnon, hkno, _⟩
  refine ⟨fun a => ⟨?_, ?_, ?_⟩, h.sound.supply_eq,
    fun s s₁ s₂ txs us hp h₁ h₂ => State.applyAll_perm hp h₁ h₂⟩
  · -- Each of the three is a closed form of posting all transfers to the table of the document.
    have hclosed := Book.postAll_balance s₀.book c.transfers hadm a
    rw [← hpost, hbal] at hclosed
    exact hclosed
  · have hclosed := Book.postAll_nonce s₀.book c.transfers a
    rw [← hpost, hnon, Nat.zero_add] at hclosed
    exact hclosed
  · have hclosed := Book.postAll_known s₀.book c.transfers a
    rw [← hpost, hkno] at hclosed
    simp only [Blockchain.transfers, List.mem_map, exists_exists_and_eq_and] at hclosed
    exact Finmap.mem_keys.symm.trans hclosed

/-- Each sender's nonces count up from zero, in chain order, to the nonce its
    account stores. No sender uses a nonce twice, and no transaction occurs
    twice. -/
theorem committed_nonces (g : Genesis) (c : Blockchain) (h : Reachable g c) :
    (∀ s : Address, (sentBy c.transfers s).map Transfer.nonce = List.range (c.state.nonce s)) ∧
      (c.committed.map fun tx => (tx.sender, tx.nonce)).Nodup ∧ c.committed.Nodup := by
  rcases h.sound.book_eq with ⟨s₀, hg, hadm, hpost⟩
  have hzero := (State.fromGenesis_book hg).2.1
  -- Words are equal when the numbers are, so pairs of numbers tell the pairs of words apart.
  have hpairs : (c.committed.map fun tx => (tx.sender, tx.nonce)).Nodup := by
    have hnodup := Book.admitsAll_nodup s₀.book c.transfers hadm
    rw [Blockchain.transfers, List.map_map] at hnodup
    refine List.Nodup.of_map (fun p => (p.1, p.2.toNat)) ?_
    rw [List.map_map]
    exact hnodup
  refine ⟨fun s => ?_, hpairs, hpairs.of_map⟩
  have hstored : c.state.nonce s = (sentBy c.transfers s).length := by
    have hclosed := Book.postAll_nonce s₀.book c.transfers s
    rw [← hpost, hzero, Nat.zero_add] at hclosed
    exact hclosed
  rw [Book.admitsAll_nonces s₀.book c.transfers hadm s, hzero, hstored, List.range_eq_range']

end Accounting

namespace Sample

theorem transfers_chain : chain.transfers = [payment.transfer] := by
  rw [Blockchain.transfers, Blockchain.committed, blocks_chain]
  rfl

/-- The sample payer holds what it was allocated, less what it sent. -/
theorem ledger_closed_form_payer :
    chain.state.balance payer + spent chain.transfers payer =
      genesis.allocation payer + received chain.transfers payer ∧
    spent chain.transfers payer = 6 ∧ genesis.allocation payer = 1000 :=
  ⟨((ledger_closed_form genesis chain reachable_chain).1 payer).1,
    by rw [transfers_chain]; decide, by decide⟩

/-- The sample payer used one nonce, and its account stores the next. -/
theorem committed_nonces_payer :
    (sentBy chain.transfers payer).map Transfer.nonce = List.range (chain.state.nonce payer) ∧
      chain.transfers = [payment.transfer] :=
  ⟨(committed_nonces genesis chain reachable_chain).1 payer, transfers_chain⟩

end Sample

end Trilogicon
