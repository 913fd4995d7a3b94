import Mathlib.Data.List.TakeWhile
import Trilogicon.Theory.Pool
import Trilogicon.Theory.Transition

/-!
# From the Pool to the Ledger

The pool makes three statements about execution without executing for real.
The purge decides whether the transaction at the front could be the next one.
The cleaning before a seal drops what can no longer be committed. The selection
runs transactions on a copy of the table and hands the block what went through.
Here each is compared with what `apply_transaction` and `append_block` do.

The purge makes the checks of `apply_transaction` by hand and leaves out two of
them, that the next nonce and the receiver's balance are words. So a
transaction that fails only there stays at the front, and every selection gives
up at it.

The cleaning removes only transactions that fail on the committed table. What
it leaves has no nonce that was used. During a selection the nonces of the copy
go up, but only past the nonces of transactions that were just taken, and no
two transactions in the pool have the same sender and nonce. So a selection
after the cleaning never meets a stale nonce.

A selection that is not empty becomes a block. The checks of `append_block`
that the selection did not make hold by the invariant of the pool: ids are
distinct, and every transaction in it is valid.

## Main definitions

* `Mempool.Drops`: Some transactions were taken out of a pool, each for a
  reason.
* `Mempool.Fresh`: No transaction of a pool has a used nonce.

## Theorems

* `Mempool.nonviable_eq_false_iff`: What the purge checks.
* `Mempool.Sound.cloneFifo_purgeLoop`: Which part of the queue the purge takes.
* `Mempool.Indexed.selectFrom_ne`: A selection does not meet a stale nonce.
* `purge_viable_iff`: When the purge leaves a front that can be executed.
* `hygiene_sound`: What the cleaning removes and what it leaves.
* `selection_seals`: A selection becomes a block.
-/

namespace Trilogicon

namespace Mempool

/-! ### Taking transactions out -/

/-- The second pool is the first without some transactions, each of which was
    taken out for a reason; the others keep their order. -/
structure Drops (reason : Transaction → Prop) (m m' : Mempool) : Prop where
  kept : ∀ h tx, m'.txs.lookup h = some tx → m.txs.lookup h = some tx
  gone : ∀ h tx, m.txs.lookup h = some tx → m'.txs.lookup h = none → reason tx
  order : m'.order.Sublist m.order

namespace Drops

theorem refl (reason : Transaction → Prop) (m : Mempool) : Drops reason m m where
  kept _ _ h := h
  gone h tx hin hout := by
    rw [hin] at hout
    exact absurd hout (by simp only [reduceCtorEq, not_false_eq_true])
  order := List.Sublist.refl _

theorem trans {reason : Transaction → Prop} {m m' m'' : Mempool} (h : Drops reason m m')
    (h' : Drops reason m' m'') : Drops reason m m'' where
  kept k tx hk := h.kept k tx (h'.kept k tx hk)
  gone k tx hin hout := by
    cases hmid : m'.txs.lookup k with
    | none => exact h.gone k tx hin hmid
    | some ty =>
        have hsame := h.kept k ty hmid
        rw [hin, Option.some.injEq] at hsame
        rw [hsame]
        exact h'.gone k ty hmid hout
  order := h'.order.trans h.order

theorem mono {reason reason' : Transaction → Prop} {m m' : Mempool} (h : Drops reason m m')
    (himp : ∀ tx, reason tx → reason' tx) : Drops reason' m m' where
  kept := h.kept
  gone k tx hin hout := himp tx (h.gone k tx hin hout)
  order := h.order

end Drops

theorem lookup_removeAll {m : Mempool} {hashes : Multiset String} {h : String}
    {tx : Transaction} :
    (m.removeAll hashes).txs.lookup h = some tx ↔ h ∉ hashes ∧ m.txs.lookup h = some tx := by
  induction hashes using Multiset.induction_on generalizing m with
  | empty => simp only [removeAll, Multiset.foldl_zero, Multiset.notMem_zero, not_false_eq_true,
      true_and]
  | cons k hashes ih =>
      rw [removeAll_cons, ih, lookup_removeTxHash, Multiset.mem_cons, not_or]
      tauto

theorem lookup_removeByTxHashes {m : Mempool} {hashes : Multiset String} {h : String}
    {tx : Transaction} :
    (m.removeByTxHashes hashes).txs.lookup h = some tx ↔
      h ∉ hashes ∧ m.txs.lookup h = some tx := by
  rw [← Multiset.mem_dedup]
  exact lookup_removeAll

theorem drops_dropFront {reason : Transaction → Prop} {m : Mempool} {h : String}
    {rest : List String} (ho : m.order = h :: rest)
    (hreason : ∀ tx, m.txs.lookup h = some tx → reason tx) : Drops reason m m.dropFront := by
  rcases dropFront_of_cons ho with ⟨htxs, horder, _, _⟩
  refine ⟨?_, ?_, ?_⟩
  · intro k tx hk
    rw [htxs] at hk
    exact (lookup_removeTxHash.mp hk).2
  · intro k tx hin hout
    by_cases hkh : k = h
    · exact hreason tx (hkh ▸ hin)
    · rw [htxs, Finmap.lookup_erase_ne hkh, hin] at hout
      exact absurd hout (by simp only [reduceCtorEq, not_false_eq_true])
  · rw [horder, ho]
    exact List.sublist_cons_self h rest

theorem drops_removeByTxHashes {reason : Transaction → Prop} {m : Mempool}
    {hashes : Multiset String}
    (hreason : ∀ h ∈ hashes, ∀ tx, m.txs.lookup h = some tx → reason tx) :
    Drops reason m (m.removeByTxHashes hashes) where
  kept k tx hk := (lookup_removeByTxHashes.mp hk).2
  gone k tx hin hout := by
    by_cases hk : k ∈ hashes
    · exact hreason k hk tx hin
    · rw [lookup_removeByTxHashes.mpr ⟨hk, hin⟩] at hout
      exact absurd hout (by simp only [reduceCtorEq, not_false_eq_true])
  order := List.filter_sublist

section Selection

variable [Primitives]

/-! ### The queue as transactions -/

theorem Sound.lookup_of_mem {m : Mempool} (hm : m.Sound) {h : String} (hh : h ∈ m.order) :
    ∃ tx, m.txs.lookup h = some tx ∧ tx.txHash = h := by
  rcases Finmap.mem_iff.mp ((hm.listed h).mp hh) with ⟨tx, htx⟩
  exact ⟨tx, htx, hm.keyed h tx htx⟩

theorem Sound.mem_cloneFifo {m : Mempool} (hm : m.Sound) {tx : Transaction} :
    tx ∈ m.cloneFifo ↔ m.txs.lookup tx.txHash = some tx := by
  unfold cloneFifo
  rw [List.mem_filterMap]
  constructor
  · intro h
    rcases h with ⟨k, _, hk⟩
    rwa [hm.keyed k tx hk]
  · intro h
    exact ⟨tx.txHash, (hm.listed _).mpr (Finmap.mem_iff.mpr ⟨tx, h⟩), h⟩

/-- The ids of the queue, in order. -/
theorem Sound.cloneFifo_map {m : Mempool} (hm : m.Sound) :
    m.cloneFifo.map Transaction.txHash = m.order := by
  unfold cloneFifo
  have hall : ∀ hs : List String, (∀ h ∈ hs, h ∈ m.order) →
      (hs.filterMap fun h => m.txs.lookup h).map Transaction.txHash = hs := by
    intro hs hin
    induction hs with
    | nil => rfl
    | cons h hs ih =>
        rw [List.forall_mem_cons] at hin
        rcases hm.lookup_of_mem hin.1 with ⟨tx, htx, hhash⟩
        simp only [List.filterMap_cons, htx, List.map_cons, hhash, ih hin.2]
  exact hall m.order fun _ h => h

/-- The transactions that are left keep their order. -/
theorem Drops.cloneFifo_sublist {reason : Transaction → Prop} {m m' : Mempool}
    (h : Drops reason m m') (hm' : m'.Sound) : m'.cloneFifo.Sublist m.cloneFifo := by
  have hsame : m'.cloneFifo = m'.order.filterMap fun k => m.txs.lookup k := by
    unfold cloneFifo
    refine List.filterMap_congr fun k hk => ?_
    rcases hm'.lookup_of_mem hk with ⟨tx, htx, _⟩
    rw [htx, h.kept k tx htx]
  rw [hsame]
  exact h.order.filterMap _

/-! ### The purge -/

/-- What the purge checks of the transaction at the front. -/
theorem nonviable_eq_false_iff (tx : Transaction) (s : State) :
    nonviable tx s = false ↔ tx.basicValidate = .ok () ∧ ∃ acc,
      s.getAccount tx.sender = some acc ∧ (acc.nonce < tx.nonce ∨ acc.nonce = tx.nonce ∧
        tx.amount.toNat + tx.fee.toNat ≤ acc.balance.toNat) := by
  unfold nonviable
  cases hv : tx.basicValidate with
  | error e => simp only [Bool.true_eq_false, reduceCtorEq, false_and]
  | ok u =>
      cases hacc : s.getAccount tx.sender with
      | none => simp only [Bool.true_eq_false, reduceCtorEq, false_and, exists_false, and_false]
      | some acc =>
          simp only [Option.some.injEq, exists_eq_left', true_and]
          -- The tests on the nonce come in the order of the source: stale, ahead, next.
          by_cases hstale : tx.nonce < acc.nonce
          · rw [if_pos hstale]
            refine ⟨fun hc => absurd hc (by decide), fun hc => ?_⟩
            rw [UInt64.lt_iff_toNat_lt] at hstale
            rcases hc with hgap | ⟨hnext, _⟩
            · rw [UInt64.lt_iff_toNat_lt] at hgap
              omega
            · rw [hnext] at hstale
              omega
          · rw [if_neg hstale]
            by_cases hgap : acc.nonce < tx.nonce
            · rw [if_pos hgap]
              exact ⟨fun _ => Or.inl hgap, fun _ => rfl⟩
            · rw [if_neg hgap]
              have hnext : acc.nonce = tx.nonce :=
                UInt64.le_antisymm (UInt64.not_lt.mp hstale) (UInt64.not_lt.mp hgap)
              have hword := acc.balance.toNat_lt
              simp only [hnext, UInt64.lt_irrefl, true_and, false_or]
              cases hsum : checkedAdd tx.amount tx.fee with
              | none =>
                  -- A cost that is no word is more than any balance.
                  have hover := checkedAdd_eq_none.mp hsum
                  simp only [Bool.true_eq_false, false_iff]
                  omega
              | some cost =>
                  have hcost := checkedAdd_eq_some.mp hsum
                  simp only [decide_eq_false_iff_not, UInt64.lt_iff_toNat_lt]
                  omega

/-- A transaction that its table does not admit fails and changes nothing. -/
theorem fails_of_not_admits {s : State} {tx : Transaction}
    (h : tx.basicValidate = .ok () → ¬ s.book.Admits tx.transfer) :
    ∃ e, s.applyTransaction tx = (.error e, s) := by
  rcases (s.applyTransaction_keeps tx).cases with ⟨e, he⟩ | ⟨_, s', hok⟩
  · exact ⟨e, he⟩
  · rcases (State.applyTransaction_ok_iff s s' tx).mp hok with ⟨hvalid, hadm, _⟩
    exact absurd hadm (h ((Transaction.basicValidate_ok_iff tx).mpr hvalid))

theorem nonviable_fails {s : State} {tx : Transaction} (h : nonviable tx s = true) :
    ∃ e, s.applyTransaction tx = (.error e, s) := by
  refine fails_of_not_admits fun hvalid hadm => ?_
  rcases (State.admits_iff s tx).mp hadm with ⟨acc, hacc, hn, hfund⟩
  have hviable := (nonviable_eq_false_iff tx s).mpr ⟨hvalid, acc, hacc, Or.inr ⟨hn, hfund⟩⟩
  rw [h] at hviable
  exact absurd hviable (by decide)

theorem stale_fails {s : State} {tx : Transaction} {acc : Account}
    (hacc : s.getAccount tx.sender = some acc) (h : tx.nonce < acc.nonce) :
    ∃ e, s.applyTransaction tx = (.error e, s) := by
  refine fails_of_not_admits fun _ hadm => ?_
  rcases (State.admits_iff s tx).mp hadm with ⟨acc', hacc', hn, _⟩
  rw [hacc, Option.some.injEq] at hacc'
  rw [hacc', hn] at h
  exact absurd h (UInt64.lt_irrefl _)

/-- The purge drops only transactions that it found not viable. -/
theorem purgeLoop_drops (committed : State) (fuel : Nat) (m : Mempool) :
    Drops (fun tx => nonviable tx committed = true) m (purgeLoop committed fuel m).2 := by
  induction fuel generalizing m with
  | zero => exact Drops.refl _ m
  | succ fuel ih =>
      rw [purgeLoop]
      cases ho : m.order with
      | nil => exact Drops.refl _ m
      | cons h rest =>
          cases hl : m.txs.lookup h with
          | none =>
              simp only [hl]
              refine (drops_dropFront ho fun tx htx => ?_).trans (ih m.dropFront)
              rw [hl] at htx
              exact absurd htx (by simp only [reduceCtorEq, not_false_eq_true])
          | some tx =>
              simp only [hl]
              by_cases hbad : nonviable tx committed = true
              · rw [if_pos hbad]
                refine (drops_dropFront ho fun ty hty => ?_).trans (ih m.dropFront)
                rw [hl, Option.some.injEq] at hty
                rwa [← hty]
              · rw [if_neg hbad]
                exact Drops.refl _ m

/-- The queue without its front. -/
theorem Sound.cloneFifo_dropFront {m : Mempool} (hm : m.Sound) :
    m.dropFront.cloneFifo = m.cloneFifo.tail := by
  unfold cloneFifo
  cases ho : m.order with
  | nil => rw [dropFront_of_nil ho, ho, List.filterMap_nil, List.tail_nil]
  | cons h rest =>
      rcases dropFront_of_cons ho with ⟨htxs, hrest, _, _⟩
      rcases hm.lookup_of_mem (ho ▸ List.mem_cons_self) with ⟨tx, htx, _⟩
      have hnodup := hm.nodup
      rw [ho, List.nodup_cons] at hnodup
      simp only [hrest, htxs, List.filterMap_cons, htx, List.tail_cons]
      -- Ids do not repeat, so the map lost no transaction of the rest.
      refine List.filterMap_congr fun k hk => ?_
      exact Finmap.lookup_erase_ne fun hkh => hnodup.1 (hkh ▸ hk)

/-- The purge takes transactions from the front for as long as they are not
    viable, and nothing else. -/
theorem Sound.cloneFifo_purgeLoop {m : Mempool} (hm : m.Sound) (s : State) {fuel : Nat}
    (hf : m.order.length ≤ fuel) :
    (Mempool.purgeLoop s fuel m).2.cloneFifo = m.cloneFifo.dropWhile (nonviable · s) := by
  induction fuel generalizing m with
  | zero =>
      rw [Mempool.purgeLoop, cloneFifo, List.length_eq_zero_iff.mp (Nat.le_zero.mp hf)]
      rfl
  | succ fuel ih =>
      rw [Mempool.purgeLoop]
      cases ho : m.order with
      | nil =>
          rw [cloneFifo, ho]
          rfl
      | cons h rest =>
          -- The front has a transaction, so the purge looks at it and not only at its id.
          rcases hm.lookup_of_mem (ho ▸ List.mem_cons_self) with ⟨tx, htx, _⟩
          have hqueue : m.cloneFifo = tx :: m.dropFront.cloneFifo := by
            rw [hm.cloneFifo_dropFront]
            simp only [cloneFifo, ho, List.filterMap_cons, htx, List.tail_cons]
          have hlen : m.dropFront.order.length ≤ fuel := by
            rw [(dropFront_of_cons ho).2.1]
            rw [ho, List.length_cons] at hf
            omega
          simp only [htx]
          rw [hqueue, List.dropWhile_cons]
          by_cases hbad : nonviable tx s = true
          · rw [if_pos hbad, if_pos hbad]
            exact ih hm.dropFront hlen
          · rw [if_neg hbad, if_neg hbad, hqueue]

/-! ### The cleaning -/

/-- No transaction of the pool has a nonce that its sender has used. -/
def Fresh (m : Mempool) (s : State) : Prop :=
  ∀ h tx, m.txs.lookup h = some tx → s.nonce tx.sender ≤ tx.nonce.toNat

/-- The ids that `drop_stale_nonces_vs_committed` collects. -/
theorem Indexed.mem_stale {m : Mempool} (hm : m.Indexed) {s : State} {h : String} :
    h ∈ (m.txs.entries.filter fun e =>
        ∃ acc ∈ s.getAccount e.2.sender, e.2.nonce < acc.nonce).map (fun e => e.2.txHash) ↔
      ∃ tx, m.txs.lookup h = some tx ∧ ∃ acc ∈ s.getAccount tx.sender, tx.nonce < acc.nonce := by
  rw [Multiset.mem_map]
  constructor
  · intro hin
    rcases hin with ⟨e, he, rfl⟩
    rcases Multiset.mem_filter.mp he with ⟨hentry, hstale⟩
    have hl := Finmap.lookup_eq_some_iff.mpr hentry
    rw [hm.keyed e.1 e.2 hl]
    exact ⟨e.2, hl, hstale⟩
  · intro hin
    rcases hin with ⟨tx, hl, hstale⟩
    exact ⟨⟨h, tx⟩, Multiset.mem_filter.mpr ⟨Finmap.lookup_eq_some_iff.mp hl, hstale⟩,
      hm.keyed h tx hl⟩

theorem Indexed.dropStale_drops {m : Mempool} (hm : m.Indexed) (s : State) :
    Drops (fun tx => ∃ acc ∈ s.getAccount tx.sender, tx.nonce < acc.nonce) m
      (m.dropStaleNoncesVsCommitted s).2 := by
  refine drops_removeByTxHashes fun h hh tx hl => ?_
  rcases hm.mem_stale.mp hh with ⟨ty, hty, hstale⟩
  rw [hl, Option.some.injEq] at hty
  rwa [hty]

theorem Indexed.dropStale_fresh {m : Mempool} (hm : m.Indexed) (s : State) :
    (m.dropStaleNoncesVsCommitted s).2.Fresh s := by
  intro h tx hl
  rcases lookup_removeByTxHashes.mp hl with ⟨hnot, hin⟩
  by_contra hused
  cases hacc : s.getAccount tx.sender with
  | none =>
      have hzero : s.nonce tx.sender = 0 := (State.balance_of_getAccount_none hacc).2
      omega
  | some acc =>
      have hnonce : s.nonce tx.sender = acc.nonce.toNat := State.nonce_of_getAccount hacc
      refine hnot (hm.mem_stale.mpr ⟨tx, hin, acc, hacc, ?_⟩)
      rw [UInt64.lt_iff_toNat_lt]
      omega

/-- In a sound pool a sender and a nonce name one id. -/
theorem Indexed.hash_unique {m : Mempool} (hm : m.Indexed) {h k : String} {tx ty : Transaction}
    (hh : m.txs.lookup h = some tx) (hk : m.txs.lookup k = some ty)
    (hs : tx.sender = ty.sender) (hn : tx.nonce = ty.nonce) : h = k := by
  have htx := (hm.indexed tx.sender tx.nonce h).mpr ⟨tx, hh, rfl, rfl⟩
  have hty := (hm.indexed tx.sender tx.nonce k).mpr ⟨ty, hk, hs.symm, hn.symm⟩
  rw [htx, Option.some.injEq] at hty
  exact hty

/-- No later transaction of a sound pool repeats a sender and a nonce. -/
theorem Indexed.laterConflicts_eq_nil {m : Mempool} (hm : m.Indexed) {hs : List String}
    (hnodup : hs.Nodup) {seen : Finset (Address × UInt64)}
    (hseen : ∀ h ∈ hs, ∀ tx, m.txs.lookup h = some tx → (tx.sender, tx.nonce) ∉ seen) :
    laterConflicts m hs seen = [] := by
  induction hs generalizing seen with
  | nil => rfl
  | cons h hs ih =>
      rw [List.nodup_cons] at hnodup
      rw [List.forall_mem_cons] at hseen
      rw [laterConflicts]
      cases hl : m.txs.lookup h with
      | none => exact ih hnodup.2 hseen.2
      | some tx =>
          simp only [if_neg (hseen.1 tx hl)]
          refine ih hnodup.2 fun k hk ty hty => ?_
          rw [Finset.mem_insert, not_or]
          -- A second one with this sender and nonce would have the same slot, so the same id.
          refine ⟨fun hc => hnodup.1 ?_, hseen.2 k hk ty hty⟩
          rw [Prod.mk.injEq] at hc
          rw [hm.hash_unique hl hty hc.1.symm hc.2.symm]
          exact hk

/-- The last part of the cleaning finds nothing in a sound pool. -/
theorem Sound.dropLater_eq {m : Mempool} (hm : m.Sound) :
    m.dropLaterSenderNonceConflictsKeepFifoFirst.2 = m := by
  have hnil : laterConflicts m m.order ∅ = [] :=
    hm.toIndexed.laterConflicts_eq_nil hm.nodup fun _ _ _ _ => Finset.notMem_empty _
  have hall : m.order.filter (fun h => h ∈ m.txs) = m.order := by
    refine List.filter_eq_self.mpr fun h hh => ?_
    exact decide_eq_true ((hm.listed h).mp hh)
  apply ext_fields
  · simp only [dropLaterSenderNonceConflictsKeepFifoFirst, hnil, List.foldl_nil]
  · simp only [dropLaterSenderNonceConflictsKeepFifoFirst, hnil, List.foldl_nil]
  · simp only [dropLaterSenderNonceConflictsKeepFifoFirst, hnil, List.foldl_nil, hall]
  · simp only [dropLaterSenderNonceConflictsKeepFifoFirst, hnil, List.foldl_nil]

/-- What the cleaning removes fails on the committed table, and what it leaves
    has no used nonce. -/
theorem Sound.hygiene_drops {m : Mempool} (hm : m.Sound) (s : State) :
    Drops (fun tx => ∃ e, s.applyTransaction tx = (.error e, s)) m
        (m.hygieneVsCommittedLedger s).2 ∧
      (m.hygieneVsCommittedLedger s).2.Fresh s := by
  have hpurged := hm.purgeLoop s m.order.length
  have heq : (m.hygieneVsCommittedLedger s).2 =
      ((m.purgeNonviableUnderCommittedState s).2.dropStaleNoncesVsCommitted s).2 :=
    Sound.dropLater_eq (hpurged.dropStale s)
  rw [heq]
  refine ⟨Drops.trans ((purgeLoop_drops s _ m).mono fun tx h => nonviable_fails h)
    ((hpurged.toIndexed.dropStale_drops s).mono ?_), hpurged.toIndexed.dropStale_fresh s⟩
  intro tx h
  rcases h with ⟨acc, hacc, hstale⟩
  exact stale_fails hacc hstale

/-! ### The selection -/

/-- A transaction that is next for its sender does not fail because of its
    nonce. -/
theorem applyTransaction_ne_invalidNonce {s : State} {tx : Transaction} {acc : Account}
    (hacc : s.getAccount tx.sender = some acc) (hn : acc.nonce = tx.nonce) :
    (s.applyTransaction tx).1 ≠ .error .invalidNonce := by
  intro hc
  rcases State.applyTransaction_error hc with hv | ⟨_, hv⟩
  · exact absurd (Transaction.basicValidate_error_mem hv) (by decide)
  · unfold State.verdict at hv
    split at hv
    · simp only [Except.error.injEq, reduceCtorEq] at hv
    · simp only [hacc, hn, ne_eq, not_true_eq_false, if_false] at hv
      split_ifs at hv
      · simp only [Except.error.injEq, reduceCtorEq] at hv
      · simp only [Except.error.injEq, reduceCtorEq] at hv
      · simp only [Except.error.injEq, reduceCtorEq] at hv

/-- Executing a transaction of the pool uses up no nonce of the others. -/
theorem Indexed.fresh_after {m : Mempool} (hm : m.Indexed) {h : String} {hs : List String}
    (hnot : h ∉ hs) {s s' : State} {tx : Transaction} (hl : m.txs.lookup h = some tx)
    (hstep : s.applyTransaction tx = (.ok (), s'))
    (hfresh : ∀ k ∈ hs, ∀ ty, m.txs.lookup k = some ty → s.nonce ty.sender ≤ ty.nonce.toNat) :
    ∀ k ∈ hs, ∀ ty, m.txs.lookup k = some ty → s'.nonce ty.sender ≤ ty.nonce.toNat := by
  intro k hk ty hty
  rcases (State.applyTransaction_ok_iff s s' tx).mp hstep with ⟨_, hadm, hpost⟩
  have hold := hfresh k hk ty hty
  have hnext : s'.nonce ty.sender = s.nonce ty.sender + if ty.sender = tx.sender then 1
      else 0 := by
    change s'.book.nonce ty.sender = _
    rw [hpost, State.nonce_post]
    rfl
  rw [hnext]
  by_cases hsender : ty.sender = tx.sender
  · -- The sender moved past the nonce just taken, which is another one.
    have htaken : s.nonce tx.sender = tx.nonce.toNat := hadm.nonce
    have hother : ty.nonce.toNat ≠ tx.nonce.toNat := by
      intro hc
      refine hnot ?_
      rw [hm.hash_unique hl hty hsender.symm (UInt64.toNat_inj.mp hc.symm)]
      exact hk
    rw [if_pos hsender]
    rw [hsender] at hold ⊢
    omega
  · rw [if_neg hsender]
    exact hold

/-- The nonces of the copy go up only past transactions that were taken, so a
    selection never meets a stale nonce. The invariant is that the ids to come
    are unused on the copy as it is. -/
theorem Indexed.selectFrom_ne {m : Mempool} (hm : m.Indexed) {max : Nat} {hs : List String}
    (hnodup : hs.Nodup) {s : State} {out : List Transaction}
    (hfresh : ∀ h ∈ hs, ∀ tx, m.txs.lookup h = some tx → s.nonce tx.sender ≤ tx.nonce.toNat) :
    selectFrom m max hs s out ≠ .error .invalidNonce := by
  induction hs generalizing s out with
  | nil => simp only [selectFrom, ne_eq, reduceCtorEq, not_false_eq_true]
  | cons h hs ih =>
      rw [List.nodup_cons] at hnodup
      rw [List.forall_mem_cons] at hfresh
      by_cases hfull : max ≤ out.length
      · simp only [selectFrom, if_pos hfull, ne_eq, reduceCtorEq, not_false_eq_true]
      · rcases selectFrom_cases m h hs s hfull with
          heq | ⟨tx, s', hl, hstep, heq⟩ | ⟨tx, acc, e, hl, hacc, hcause, heq⟩
        · rw [heq]
          exact ih hnodup.2 hfresh.2
        · rw [heq]
          exact ih hnodup.2 (hm.fresh_after hnodup.1 hl hstep hfresh.2)
        · rw [heq]
          intro hc
          rw [Except.error.injEq] at hc
          rcases hcause with ⟨hstale, _⟩ | ⟨hn, herr⟩
          · have hold := hfresh.1 tx hl
            have hnonce : s.nonce tx.sender = acc.nonce.toNat := State.nonce_of_getAccount hacc
            rw [UInt64.lt_iff_toNat_lt] at hstale
            omega
          · exact applyTransaction_ne_invalidNonce hacc hn (hc ▸ herr)

/-- Removing what was selected leaves the other transactions, in order. -/
theorem Sound.cloneFifo_removeByTxHashes {m : Mempool} (hm : m.Sound) {txs : List Transaction}
    (hsub : txs.Sublist m.cloneFifo) :
    (m.removeByTxHashes (txs.map Transaction.txHash)).cloneFifo =
      m.cloneFifo.filter fun tx => tx ∉ txs := by
  -- An id is removed exactly when its transaction was selected.
  have hselected : ∀ h tx, m.txs.lookup h = some tx →
      (h ∈ ((txs.map Transaction.txHash : List String) : Multiset String) ↔ tx ∈ txs) := by
    intro h tx hl
    rw [Multiset.mem_coe, List.mem_map]
    constructor
    · intro hin
      rcases hin with ⟨ty, hty, rfl⟩
      have hl' := hm.mem_cloneFifo.mp (hsub.subset hty)
      rw [hl, Option.some.injEq] at hl'
      rwa [hl']
    · intro hin
      exact ⟨tx, hin, hm.keyed h tx hl⟩
  -- By induction over the part of the order that is left.
  have hall : ∀ hs : List String, (∀ h ∈ hs, h ∈ m.order) →
      (hs.filter fun h =>
          h ∉ ((txs.map Transaction.txHash : List String) : Multiset String)).filterMap
        (fun h => (m.removeByTxHashes (txs.map Transaction.txHash)).txs.lookup h) =
      (hs.filterMap fun h => m.txs.lookup h).filter fun tx => tx ∉ txs := by
    intro hs hin
    induction hs with
    | nil => rfl
    | cons h hs ih =>
        rw [List.forall_mem_cons] at hin
        rcases hm.lookup_of_mem hin.1 with ⟨tx, hl, _⟩
        rw [List.filter_cons, List.filterMap_cons, hl]
        simp only [List.filter_cons, decide_eq_true_eq, hselected h tx hl]
        by_cases hsel : tx ∈ txs
        · rw [if_neg (not_not.mpr hsel), if_neg (not_not.mpr hsel)]
          exact ih hin.2
        · have hl' := lookup_removeByTxHashes.mpr ⟨fun hc => hsel ((hselected h tx hl).mp hc), hl⟩
          rw [if_pos hsel, if_pos hsel, List.filterMap_cons]
          simp only [hl']
          rw [ih hin.2]
  exact hall m.order fun _ h => h

end Selection

end Mempool

section Results

variable [Primitives]

/-- The block of a selection is accepted, if its time is right: what the
    selection did not check holds of every transaction in a sound pool. -/
theorem Blockchain.appendBlock_sealed {g : Genesis} {c : Blockchain} (hc : c.Sound g)
    (hroom : c.blocks.length < 2 ^ 64) {m : Mempool} (hm : m.Sound) {tip : Block}
    (htip : c.blocks.getLast? = some tip) {ts : UInt64}
    (htime : tip.timestampUnix.toNat + c.consensus.minBlockIntervalSecs.toNat ≤ ts.toNat)
    {txs : List Transaction} (hsub : txs.Sublist m.cloneFifo) {next : State}
    (hnext : c.state.applyAll txs = .ok next) :
    c.appendBlock (sealedBlock tip ts txs) =
      (.ok (), { c with state := next, blocks := c.blocks ++ [sealedBlock tip ts txs] }) := by
  -- The height of the new block is that of the tip and one, so it is no genesis.
  have hheight : tip.height.toNat + 1 = c.blocks.length := by
    have hlen := height_eq_length hc.linked
    rwa [height, htip, Option.map_some, Option.getD_some] at hlen
  have hzero : (sealedBlock tip ts txs).height ≠ 0 := by
    intro hz
    have hnat := congrArg UInt64.toNat hz
    change (tip.height + 1).toNat = 0 at hnat
    rw [UInt64.toNat_add, UInt64.toNat_one, Nat.mod_eq_of_lt (by omega)] at hnat
    omega
  -- The pool checked each transaction, and its ids are different.
  have hvalid : (sealedBlock tip ts txs).Valid := by
    refine ⟨hc.linked.hash_not_blank (List.mem_of_getLast? htip), ?_, ?_,
      sealedBlock_hash tip ts txs⟩
    · have hids : (txs.map Transaction.txHash).Sublist m.order := by
        rw [← hm.cloneFifo_map]
        exact hsub.map _
      exact hm.nodup.sublist hids
    · intro tx htx
      rw [← Transaction.basicValidate_ok_iff]
      exact hm.valid _ tx (hm.mem_cloneFifo.mp (hsub.subset htx))
  have hinterval : validateBlockTimestampsVsParent tip (sealedBlock tip ts txs) c.consensus =
      .ok () := by
    have hlt := ts.toNat_lt
    -- The earliest time is a word because the given time is not before it.
    rcases exists_checkedAdd (Nat.lt_of_le_of_lt htime hlt) with ⟨minTs, hmin⟩
    have hminNat := checkedAdd_eq_some.mp hmin
    simp only [validateBlockTimestampsVsParent, hmin]
    rw [if_neg]
    change ¬ ts < minTs
    rw [UInt64.lt_iff_toNat_lt]
    omega
  exact (appendBlock_ok_iff _ _ _).mpr ⟨(Block.basicValidate_ok_iff_of_height _ hzero).mpr hvalid,
    tip, htip, rfl, rfl, hinterval, next, hnext, rfl⟩

namespace Mempool

/-- The transaction at the front of the queue, if there is one, waits for its
    nonce or succeeds on the table. -/
def FrontRuns (m : Mempool) (s : State) : Prop :=
  ∀ tx, m.cloneFifo.head? = some tx →
    s.nonce tx.sender < tx.nonce.toNat ∨ (s.applyTransaction tx).1 = .ok ()

/-- What decides about a transaction that the purge found viable. -/
theorem runs_iff_of_viable {s : State} {tx : Transaction} (h : nonviable tx s = false) :
    s.nonce tx.sender < tx.nonce.toNat ∨ (s.applyTransaction tx).1 = .ok () ↔
      (s.nonce tx.sender = tx.nonce.toNat → tx.nonce.toNat + 1 < 2 ^ 64 ∧
        (tx.sender = tx.receiver ∨ s.balance tx.receiver + tx.amount.toNat < 2 ^ 64)) := by
  rcases (nonviable_eq_false_iff tx s).mp h with ⟨hvalid, acc, hacc, hnonce⟩
  have hstored : s.nonce tx.sender = acc.nonce.toNat := State.nonce_of_getAccount hacc
  rw [hstored]
  rcases hnonce with hgap | ⟨hnext, hfund⟩
  · rw [UInt64.lt_iff_toNat_lt] at hgap
    exact ⟨fun _ hc => by omega, fun _ => Or.inl hgap⟩
  · have hword := acc.balance.toNat_lt
    have hdecide : (s.applyTransaction tx).1 = .ok () ↔ tx.nonce.toNat + 1 < 2 ^ 64 ∧
        (tx.sender = tx.receiver ∨ s.balance tx.receiver + tx.amount.toNat < 2 ^ 64) := by
      -- Every check but the last two was made by the purge.
      rw [State.applyTransaction_fst, then_ok_iff]
      unfold State.verdict
      simp only [hacc, hnext, ite_error_ok_iff, ne_eq, not_true_eq_false, not_false_eq_true,
        true_and, and_true, hvalid, not_le, not_lt, not_and_or, not_not]
      constructor
      · intro hall
        exact hall.2.2
      · intro hlast
        exact ⟨by omega, hfund, hlast⟩
    rw [hdecide, hnext]
    constructor
    · intro hruns _
      exact hruns.resolve_left (lt_irrefl _)
    · intro hlast
      exact Or.inr (hlast rfl)

/-- The front that the purge leaves is the first viable transaction of the queue
    it is given. -/
theorem Sound.head_purge {m : Mempool} (hm : m.Sound) (s : State) :
    (m.purgeNonviableUnderCommittedState s).2.cloneFifo.head? =
      m.cloneFifo.find? (fun tx => !nonviable tx s) := by
  rw [purgeNonviableUnderCommittedState, hm.cloneFifo_purgeLoop s le_rfl,
    List.find?_not_eq_head?_dropWhile]

end Mempool

/-- What the purge leaves, and when its front can be executed. It takes the
    transactions that are not viable from the front, so that the first viable one
    of the queue comes to stand there. That one can be executed or waits exactly
    if, should it be next for its sender, it passes the two checks that the purge
    does not make: the sender's new nonce is a word, and so is the receiver's new
    balance. The second is only in doubt where the balances of the ledger do not
    fit. -/
theorem purge_viable_iff (g : Genesis) (c : Blockchain) (hc : Reachable g c) (m : Mempool)
    (hm : m.Reached) :
    (m.purgeNonviableUnderCommittedState c.state).2.cloneFifo =
      m.cloneFifo.dropWhile (Mempool.nonviable · c.state) ∧
    ((m.purgeNonviableUnderCommittedState c.state).2.FrontRuns c.state ↔
      ∀ tx, m.cloneFifo.find? (fun tx => !Mempool.nonviable tx c.state) = some tx →
        c.state.nonce tx.sender = tx.nonce.toNat → tx.nonce.toNat + 1 < 2 ^ 64 ∧
          (tx.sender = tx.receiver ∨
            c.state.balance tx.receiver + tx.amount.toNat < 2 ^ 64)) ∧
    (g.total < 2 ^ 64 + c.burned →
      (∀ tx, m.cloneFifo.find? (fun tx => !Mempool.nonviable tx c.state) = some tx →
        tx.nonce.toNat + 1 < 2 ^ 64) →
      (m.purgeNonviableUnderCommittedState c.state).2.FrontRuns c.state) := by
  have hviable : ∀ tx, m.cloneFifo.find? (fun tx => !Mempool.nonviable tx c.state) = some tx →
      Mempool.nonviable tx c.state = false := by
    intro tx h
    have hfound := List.find?_some h
    rwa [Bool.not_eq_true'] at hfound
  refine ⟨hm.sound.cloneFifo_purgeLoop c.state le_rfl, ?_, ?_⟩
  · unfold Mempool.FrontRuns
    rw [hm.sound.head_purge]
    exact forall₂_congr fun tx htx => Mempool.runs_iff_of_viable (hviable tx htx)
  · intro htotal hnonces tx htx
    rw [hm.sound.head_purge] at htx
    refine (Mempool.runs_iff_of_viable (hviable tx htx)).mpr fun hnext => ⟨hnonces tx htx, ?_⟩
    by_cases hself : tx.sender = tx.receiver
    · exact Or.inl hself
    · -- The sender can pay, and the two accounts together hold a word.
      rcases (Mempool.nonviable_eq_false_iff tx c.state).mp (hviable tx htx) with
        ⟨_, acc, hacc, hnonce⟩
      have hstored : c.state.nonce tx.sender = acc.nonce.toNat := State.nonce_of_getAccount hacc
      have hbal : c.state.balance tx.sender = acc.balance.toNat := State.balance_of_getAccount hacc
      have htwo : c.state.balance tx.sender + c.state.balance tx.receiver ≤ c.state.book.supply :=
        c.state.book.two_balances_le c.state.book_supported hself
      have hsupply : c.state.book.supply + c.burned = g.total := hc.sound.supply_eq
      rcases hnonce with hgap | ⟨_, hfund⟩
      · rw [UInt64.lt_iff_toNat_lt] at hgap
        omega
      · exact Or.inr (by omega)

/-- What the cleaning before a seal does to the pool of a node. What it removes
    fails on the committed table; what it leaves uses no nonce that a committed
    transaction used; no selection from it meets a stale nonce; and what is left
    keeps its order. -/
theorem hygiene_sound (g : Genesis) (c : Blockchain) (hc : Reachable g c) (m : Mempool)
    (hm : m.Reached) :
    (∀ h tx, m.txs.lookup h = some tx →
      (m.hygieneVsCommittedLedger c.state).2.txs.lookup h = none →
      ∃ e, c.state.applyTransaction tx = (.error e, c.state)) ∧
    (∀ h tx, (m.hygieneVsCommittedLedger c.state).2.txs.lookup h = some tx →
      ∀ t ∈ c.committed, (t.sender, t.nonce) ≠ (tx.sender, tx.nonce)) ∧
    (∀ max, (m.hygieneVsCommittedLedger c.state).2.orderedCandidatesForSeal c.state max ≠
      .error .invalidNonce) ∧
    (m.hygieneVsCommittedLedger c.state).2.cloneFifo.Sublist m.cloneFifo := by
  have hclean := hm.sound.hygiene c.state
  rcases hm.sound.hygiene_drops c.state with ⟨hdrops, hfresh⟩
  refine ⟨hdrops.gone, ?_, ?_, hdrops.cloneFifo_sublist hclean⟩
  · intro h tx hl t ht hsame
    rw [Prod.mk.injEq] at hsame
    have hlt := hc.sound.nonce_lt ht
    have hle := hfresh h tx hl
    rw [hsame.1, hsame.2] at hlt
    omega
  · intro max
    exact hclean.toIndexed.selectFrom_ne hclean.nodup fun h _ tx hl => hfresh h tx hl

/-- A selection becomes a block. If it is not empty and the time is right, the
    seal succeeds with the ids of the selection, the chain grows by one block with
    its transactions, and its table is the one they produce; the selection is
    taken from the queue in order and within the limit, and removing it leaves the
    other transactions in their order. In every other case nothing changes. -/
theorem selection_seals (g : Genesis) (c : Blockchain) (hc : Reachable g c)
    (hroom : c.blocks.length < 2 ^ 64) (m : Mempool) (hm : m.Reached) (max : Nat) (ts : UInt64) :
    (∀ txs tip, m.orderedCandidatesForSeal c.state max = .ok txs → txs ≠ [] →
      c.blocks.getLast? = some tip →
      tip.timestampUnix.toNat + c.consensus.minBlockIntervalSecs.toNat ≤ ts.toNat →
      ∃ b next, b.transactions = txs ∧ c.state.applyAll txs = .ok next ∧
        c.appendBlockFromMempoolPendingRemoval m max ts =
          (.ok (some (txs.map Transaction.txHash)),
            { c with state := next, blocks := c.blocks ++ [b] }) ∧
        c.appendBlockFromMempool m max ts =
          (.ok txs.length, { c with state := next, blocks := c.blocks ++ [b] },
            m.removeByTxHashes (txs.map Transaction.txHash)) ∧
        txs.Sublist m.cloneFifo ∧ txs.length ≤ max ∧
        (m.removeByTxHashes (txs.map Transaction.txHash)).cloneFifo =
          m.cloneFifo.filter (fun tx => tx ∉ txs) ∧
        (m.removeByTxHashes (txs.map Transaction.txHash)).Sound) ∧
    (∀ e, m.orderedCandidatesForSeal c.state max = .error e →
      c.appendBlockFromMempoolPendingRemoval m max ts = (.error e, c) ∧
        c.appendBlockFromMempool m max ts = (.error e, c, m)) ∧
    (m.orderedCandidatesForSeal c.state max = .ok [] →
      c.appendBlockFromMempoolPendingRemoval m max ts = (.ok none, c) ∧
        c.appendBlockFromMempool m max ts = (.ok 0, c, m)) ∧
    (∀ e, (c.appendBlockFromMempoolPendingRemoval m max ts).1 = .error e →
      c.appendBlockFromMempoolPendingRemoval m max ts = (.error e, c) ∧
        c.appendBlockFromMempool m max ts = (.error e, c, m)) := by
  refine ⟨?_, ?_, ?_, ?_⟩
  · intro txs tip hsel hne htip htime
    rcases Mempool.orderedCandidatesForSeal_ok hsel with ⟨⟨next, hnext⟩, hmax⟩
    have hsub := Mempool.orderedCandidatesForSeal_sublist hsel
    have happ := Blockchain.appendBlock_sealed hc.sound hroom hm.sound htip htime hsub hnext
    have hseal : c.appendBlockFromMempoolPendingRemoval m max ts =
        (.ok (some (txs.map Transaction.txHash)),
          { c with state := next, blocks := c.blocks ++ [Blockchain.sealedBlock tip ts txs] }) := by
      rw [Blockchain.appendBlockFromMempoolPendingRemoval, hsel, attempt, if_neg hne, htip, okOr,
        happ]
    refine ⟨Blockchain.sealedBlock tip ts txs, next, rfl, hnext, hseal, ?_, hsub, hmax,
      hm.sound.cloneFifo_removeByTxHashes hsub, hm.sound.removeByTxHashes _⟩
    rw [Blockchain.appendBlockFromMempool, hseal]
    simp only [List.length_map]
  · intro e hsel
    have hseal : c.appendBlockFromMempoolPendingRemoval m max ts = (.error e, c) := by
      rw [Blockchain.appendBlockFromMempoolPendingRemoval, hsel, attempt]
    exact ⟨hseal, by rw [Blockchain.appendBlockFromMempool, hseal]⟩
  · intro hsel
    have hseal : c.appendBlockFromMempoolPendingRemoval m max ts = (.ok none, c) := by
      rw [Blockchain.appendBlockFromMempoolPendingRemoval, hsel, attempt, if_pos rfl]
    exact ⟨hseal, by rw [Blockchain.appendBlockFromMempool, hseal]⟩
  · intro e he
    rcases c.pendingRemoval_cases m max ts with ⟨e', h⟩ | h | ⟨b, c', _, _, h⟩
    · rw [h, Except.error.injEq] at he
      rw [he] at h
      exact ⟨h, by rw [Blockchain.appendBlockFromMempool, h]⟩
    · rw [h] at he
      exact absurd he (by simp only [reduceCtorEq, not_false_eq_true])
    · rw [h] at he
      exact absurd he (by simp only [reduceCtorEq, not_false_eq_true])

end Results

/-! ### A sample pool -/

namespace Sample

/-- A pool with the payment. -/
def waiting : Mempool :=
  (Mempool.new 10).performAll [.trySubmit payment]

theorem reached_waiting : waiting.Reached :=
  ⟨10, [.trySubmit payment], rfl⟩

/-- On the crowded ledger the purge keeps the payment at the front, although it
    cannot be executed there, and every selection with room for it fails. -/
theorem purge_keeps_payment :
    Reachable crowded crowdedStart ∧ waiting.Reached ∧
      (waiting.purgeNonviableUnderCommittedState crowdedStart.state).2.cloneFifo = [payment] ∧
      ¬ crowdedStart.state.nonce payment.sender < payment.nonce.toNat ∧
      (crowdedStart.state.applyTransaction payment).1 =
        .error (.stateError "receiver balance overflow") ∧
      (waiting.purgeNonviableUnderCommittedState
          crowdedStart.state).2.orderedCandidatesForSeal crowdedStart.state 1 =
        .error (.stateError "receiver balance overflow") :=
  ⟨reachable_crowded, reached_waiting, by decide +kernel⟩

/-- A pool with a payment of an account that the ledger does not have, one of the
    first account that comes too early, and one of each account that is next. -/
def mixed : Mempool :=
  (Mempool.new 10).performAll
    ([paymentOf (List.replicate 32 8) 0, paymentOf key 1, paymentOf otherKey 0,
      paymentOf key 0].map .trySubmit)

theorem reached_mixed : mixed.Reached :=
  ⟨10, _, rfl⟩

/-- What the purge and the selection meet in that pool. -/
theorem run_mixed :
    mixed.cloneFifo = [paymentOf (List.replicate 32 8) 0, paymentOf key 1, paymentOf otherKey 0,
      paymentOf key 0] ∧
    mixed.cloneFifo.dropWhile (Mempool.nonviable · sharedStart.state) =
      [paymentOf key 1, paymentOf otherKey 0, paymentOf key 0] ∧
    mixed.orderedCandidatesForSeal sharedStart.state 5 =
      .ok [paymentOf otherKey 0, paymentOf key 0] ∧
    mixed.cloneFifo.filter (fun tx => tx ∉ [paymentOf otherKey 0, paymentOf key 0]) =
      [paymentOf (List.replicate 32 8) 0, paymentOf key 1] := by
  decide +kernel

/-- The purge takes the payment of the unknown account, and the one behind it,
    which waits for its nonce, comes to the front. -/
theorem purge_viable_mixed :
    (mixed.purgeNonviableUnderCommittedState sharedStart.state).2.cloneFifo =
        [paymentOf key 1, paymentOf otherKey 0, paymentOf key 0] ∧
      (mixed.purgeNonviableUnderCommittedState sharedStart.state).2.FrontRuns
        sharedStart.state := by
  have h := purge_viable_iff sharedGenesis sharedStart reachable_sharedStart mixed reached_mixed
  refine ⟨h.1.trans run_mixed.2.1, h.2.2 (by decide) ?_⟩
  intro tx htx
  rw [List.find?_not_eq_head?_dropWhile, run_mixed.2.1, List.head?_cons, Option.some.injEq] at htx
  rw [← htx]
  decide

/-- After the block with the payment, the cleaning drops the payment. -/
theorem hygiene_drops_payment :
    waiting.txs.lookup payment.txHash = some payment ∧
      (waiting.hygieneVsCommittedLedger chain.state).2.txs.lookup payment.txHash = none ∧
      ∃ e, chain.state.applyTransaction payment = (.error e, chain.state) := by
  have hin : waiting.txs.lookup payment.txHash = some payment := by decide +kernel
  have hout : (waiting.hygieneVsCommittedLedger chain.state).2.txs.lookup payment.txHash =
      none := by
    decide +kernel
  exact ⟨hin, hout, (hygiene_sound genesis chain reachable_chain waiting reached_waiting).1
    payment.txHash payment hin hout⟩

/-- Of two payments of one account that stand in the wrong order only the one
    that is next is sealed, with the one of the other account, and the early one
    stays. -/
theorem selection_seals_mixed :
    ∃ b next,
      b.transactions = [paymentOf otherKey 0, paymentOf key 0] ∧
        sharedStart.state.applyAll [paymentOf otherKey 0, paymentOf key 0] = .ok next ∧
        sharedStart.appendBlockFromMempool mixed 5 0 =
          (.ok 2, { sharedStart with state := next, blocks := sharedStart.blocks ++ [b] },
            mixed.removeByTxHashes
              ([paymentOf otherKey 0, paymentOf key 0].map Transaction.txHash)) ∧
        (mixed.removeByTxHashes
            ([paymentOf otherKey 0, paymentOf key 0].map Transaction.txHash)).cloneFifo =
          [paymentOf (List.replicate 32 8) 0, paymentOf key 1] := by
  rcases (selection_seals sharedGenesis sharedStart reachable_sharedStart (by decide) mixed
    reached_mixed 5 0).1 _ Block.genesis run_mixed.2.2.1 (List.cons_ne_nil _ _) rfl
    (by decide) with ⟨b, next, hb, hnext, _, hseal, _, _, hleft, _⟩
  exact ⟨b, next, hb, hnext, hseal, hleft.trans run_mixed.2.2.2⟩

end Sample

end Trilogicon
