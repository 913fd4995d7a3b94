import Mathlib.Data.Multiset.Fold
import Trilogicon.Core.State

/-!
# The Mempool

`mempool.rs`: transactions waiting for a block.

A pool holds transactions by id, the order in which they arrived, and for
each sender the ids by nonce. The order may name ids the pool no longer
holds; every loop over it skips those. It never misses one it does hold, and
the structure carries that: it is what makes the eviction loop of `trySubmit`
end.

Ids are removed in the order a hash set happens to list them. Removing two ids
commutes, so the fold over the set is written as a fold over a multiset, which
has no order to depend on.

## Main definitions

* `Mempool`: The pool.
* `Mempool.removeTxHash`: Forget a transaction.
* `Mempool.evictOldest`: Forget the transaction that has waited longest.
* `Mempool.makeRoom`: Evict until there is capacity.
* `Mempool.trySubmit`: Validate a transaction and queue it.
* `Mempool.trySubmitPendingDrain`: The same, without evicting.
* `Mempool.cloneFifo`, `Mempool.restoreFifo`: Save the pool and restore it.
* `Mempool.orderedCandidatesForSeal`: Select the transactions of a block.
* `Mempool.removeByTxHashes`: Forget committed transactions.
* `Mempool.hygieneVsCommittedLedger`: Drop what can no longer be committed.

## Theorems

* `removeTxHash_comm`: The order of removals does not matter.
* `makeRoom_done`: The eviction loop ends with room or with an empty pool.
* `selectFrom_cases`: What a round of the selection does.
* `selectFrom_sublist`: A selection is taken from the queue in order.
* `orderedCandidatesForSeal_ok`: A selection applies in order, and respects
  its limit.
-/

namespace Trilogicon

/-- The ids a sender has queued, by nonce. -/
abbrev Slots := Finmap (fun _ : UInt64 => String)

/-- `mempool::Mempool`. Every held transaction is queued. -/
structure Mempool where
  capacity : Nat
  txs : Finmap (fun _ : String => Transaction)
  order : List String
  bySender : Finmap (fun _ : Address => Slots)
  queued : ∀ h, h ∈ txs → h ∈ order

namespace Mempool

/-- `Mempool::new`. -/
def new (capacity : Nat) : Mempool :=
  { capacity := capacity, txs := ∅, order := [], bySender := ∅,
    queued := fun _ h => absurd h Finmap.notMem_empty }

/-- `Mempool::len`. -/
def len (m : Mempool) : Nat :=
  m.txs.keys.card

/-- `Mempool::is_empty`. -/
def isEmpty (m : Mempool) : Bool :=
  m.len == 0

/-- Clear a nonce of a sender, and the sender when that was its last. -/
def clearSlot (bySender : Finmap (fun _ : Address => Slots)) (sender : Address)
    (nonce : UInt64) : Finmap (fun _ : Address => Slots) :=
  match bySender.lookup sender with
  | none => bySender
  | some slots =>
      if (slots.erase nonce).keys = ∅ then bySender.erase sender
      else bySender.insert sender (slots.erase nonce)

/-- `Mempool::remove_tx_hash`. The order keeps the id. -/
def removeTxHash (m : Mempool) (hash : String) : Mempool where
  capacity := m.capacity
  txs := m.txs.erase hash
  order := m.order
  bySender :=
    match m.txs.lookup hash with
    | none => m.bySender
    | some tx => clearSlot m.bySender tx.sender tx.nonce
  queued := fun h hh => m.queued h (Finmap.mem_erase.mp hh).2

/-- Take the id at the front of the order and forget its transaction. -/
def dropFront (m : Mempool) : Mempool :=
  match ho : m.order with
  | [] => m
  | h :: rest =>
      { m.removeTxHash h with
        order := rest
        queued := by
          intro k hk
          have hne := (Finmap.mem_erase.mp hk).1
          have hin := m.queued k (Finmap.mem_erase.mp hk).2
          rw [ho, List.mem_cons] at hin
          exact hin.resolve_left hne }

/-- The loop of `evict_oldest`, one id of the order a round. -/
def evictLoop : Nat → Mempool → Mempool
  | 0, m => m
  | fuel + 1, m =>
      match m.order with
      | [] => m
      | h :: _ => if h ∈ m.txs then m.dropFront else evictLoop fuel m.dropFront

/-- `Mempool::evict_oldest`. -/
def evictOldest (m : Mempool) : Mempool :=
  evictLoop m.order.length m

/-- The loop of `try_submit`: evict until there is capacity, or until the pool
    is empty. -/
def makeRoom : Nat → Mempool → Mempool
  | 0, m => m
  | fuel + 1, m =>
      if m.capacity ≤ m.len then
        if m.evictOldest.isEmpty then m.evictOldest else makeRoom fuel m.evictOldest
      else m

/-- Another transaction already holds this sender's nonce. -/
def conflicts (m : Mempool) (tx : Transaction) : Bool :=
  match (m.bySender.lookup tx.sender).bind fun slots => slots.lookup tx.nonce with
  | some existing => existing != tx.txHash
  | none => false

/-- Index and queue a transaction. -/
def push (m : Mempool) (tx : Transaction) : Mempool where
  capacity := m.capacity
  txs := m.txs.insert tx.txHash tx
  order := m.order ++ [tx.txHash]
  bySender := m.bySender.insert tx.sender
    (((m.bySender.lookup tx.sender).getD ∅).insert tx.nonce tx.txHash)
  queued := by
    intro h hh
    rcases Finmap.mem_insert.mp hh with heq | hin
    · exact List.mem_append_right _ (List.mem_singleton.mpr heq)
    · exact List.mem_append_left _ (m.queued h hin)

/-- `Mempool::clone_fifo`. -/
def cloneFifo (m : Mempool) : List Transaction :=
  m.order.filterMap fun h => m.txs.lookup h

/-- `Mempool::restore_fifo`. -/
def restoreFifo (m : Mempool) (txs : List Transaction) : Mempool :=
  txs.foldl push (new m.capacity)

section Operations

variable [Primitives]

/-- `Mempool::try_submit`. The loop runs at most once more than the pool has
    transactions. -/
def trySubmit (m : Mempool) (tx : Transaction) : Except ProtocolError Unit × Mempool :=
  attempt tx.basicValidate m fun _ =>
  if tx.txHash ∈ m.txs then (.error .duplicateTransaction, m)
  else if m.conflicts tx then (.error .mempoolNonceConflict, m)
  else
    let m' := makeRoom (m.len + 1) m
    if m'.capacity ≤ m'.len then (.error .mempoolFull, m')
    else (.ok (), m'.push tx)

/-- `Mempool::try_submit_pending_drain`: as `trySubmit`, but a full pool is not
    evicted from. -/
def trySubmitPendingDrain (m : Mempool) (tx : Transaction) : Except ProtocolError Unit × Mempool :=
  attempt tx.basicValidate m fun _ =>
  if tx.txHash ∈ m.txs then (.error .duplicateTransaction, m)
  else if m.conflicts tx then (.error .mempoolNonceConflict, m)
  else if m.capacity ≤ m.len then (.error .mempoolFull, m)
  else (.ok (), m.push tx)

/-- The loop of `ordered_candidates_for_seal`, on a copy of the state. -/
def selectFrom (m : Mempool) (max : Nat) :
    List String → State → List Transaction → Except ProtocolError (List Transaction)
  | [], _, out => .ok out
  | h :: hs, s, out =>
      if max ≤ out.length then .ok out
      else
        match m.txs.lookup h with
        | none => selectFrom m max hs s out
        | some tx =>
            match s.getAccount tx.sender with
            | none =>
                match s.applyTransaction tx with
                | (.ok (), s') => selectFrom m max hs s' (out ++ [tx])
                | (.error _, s') => selectFrom m max hs s' out
            | some acc =>
                if acc.nonce < tx.nonce then selectFrom m max hs s out
                else if tx.nonce < acc.nonce then .error .invalidNonce
                else
                  match s.applyTransaction tx with
                  | (.ok (), s') => selectFrom m max hs s' (out ++ [tx])
                  | (.error e, _) => .error e

/-- `Mempool::ordered_candidates_for_seal`. -/
def orderedCandidatesForSeal (m : Mempool) (s : State) (max : Nat) :
    Except ProtocolError (List Transaction) :=
  selectFrom m max m.order s []

/-- The head transaction cannot be the next one on the committed ledger. -/
def nonviable (tx : Transaction) (committed : State) : Bool :=
  match tx.basicValidate with
  | .error _ => true
  | .ok () =>
      match committed.getAccount tx.sender with
      | none => true
      | some acc =>
          if tx.nonce < acc.nonce then true
          else if acc.nonce < tx.nonce then false
          else
            match checkedAdd tx.amount tx.fee with
            | none => true
            | some totalCost => acc.balance < totalCost

/-- The loop of `purge_nonviable_under_committed_state`. -/
def purgeLoop (committed : State) : Nat → Mempool → Nat × Mempool
  | 0, m => (0, m)
  | fuel + 1, m =>
      match m.order with
      | [] => (0, m)
      | h :: _ =>
          match m.txs.lookup h with
          | none => purgeLoop committed fuel m.dropFront
          | some tx =>
              if nonviable tx committed then
                let (removed, m') := purgeLoop committed fuel m.dropFront
                (removed + 1, m')
              else (0, m)

/-- `Mempool::purge_nonviable_under_committed_state`. -/
def purgeNonviableUnderCommittedState (m : Mempool) (committed : State) : Nat × Mempool :=
  purgeLoop committed m.order.length m

/-- What a round of the selection does while there is room: it passes over the
    id, takes its transaction, or gives up at a transaction that is stale or
    that is next for its sender and does not apply. -/
theorem selectFrom_cases (m : Mempool) {max : Nat} (h : String) (hs : List String) (s : State)
    {out : List Transaction} (hroom : ¬ max ≤ out.length) :
    selectFrom m max (h :: hs) s out = selectFrom m max hs s out ∨
    (∃ tx s', m.txs.lookup h = some tx ∧ s.applyTransaction tx = (.ok (), s') ∧
      selectFrom m max (h :: hs) s out = selectFrom m max hs s' (out ++ [tx])) ∨
    ∃ tx acc e, m.txs.lookup h = some tx ∧ s.getAccount tx.sender = some acc ∧
      (tx.nonce < acc.nonce ∧ e = .invalidNonce ∨
        acc.nonce = tx.nonce ∧ (s.applyTransaction tx).1 = .error e) ∧
      selectFrom m max (h :: hs) s out = .error e := by
  rw [selectFrom, if_neg hroom]
  cases hk : m.txs.lookup h with
  | none => exact Or.inl rfl
  | some tx =>
      cases hacc : s.getAccount tx.sender with
      | none =>
          rcases (State.applyTransaction_keeps s tx).cases with ⟨e, hstep⟩ | ⟨_, s', hstep⟩
          · simp only [hacc, hstep, true_or]
          · simp only [hacc, hstep]
            exact Or.inr (Or.inl ⟨tx, s', rfl, hstep, rfl⟩)
      | some acc =>
          simp only [hacc]
          by_cases hgap : acc.nonce < tx.nonce
          · rw [if_pos hgap]
            exact Or.inl rfl
          · rw [if_neg hgap]
            by_cases hstale : tx.nonce < acc.nonce
            · rw [if_pos hstale]
              exact Or.inr (Or.inr ⟨tx, acc, _, rfl, hacc, Or.inl ⟨hstale, rfl⟩, rfl⟩)
            · rw [if_neg hstale]
              have hnext : acc.nonce = tx.nonce :=
                UInt64.le_antisymm (UInt64.not_lt.mp hstale) (UInt64.not_lt.mp hgap)
              rcases (State.applyTransaction_keeps s tx).cases with ⟨e, hstep⟩ | ⟨_, s', hstep⟩
              · simp only [hstep]
                exact Or.inr (Or.inr ⟨tx, acc, e, rfl, hacc, Or.inr ⟨hnext, by rw [hstep]⟩, rfl⟩)
              · simp only [hstep]
                exact Or.inr (Or.inl ⟨tx, s', rfl, hstep, rfl⟩)

theorem selectFrom_ok {m : Mempool} {max : Nat} {hs : List String} {s s₀ : State}
    {out res : List Transaction} (h : selectFrom m max hs s out = .ok res)
    (hout : s₀.applyAll out = .ok s) (hlen : out.length ≤ max) :
    (∃ s', s₀.applyAll res = .ok s') ∧ res.length ≤ max := by
  induction hs generalizing s out with
  | nil =>
      rw [selectFrom, Except.ok.injEq] at h
      exact h ▸ ⟨⟨s, hout⟩, hlen⟩
  | cons k hs ih =>
      by_cases hfull : max ≤ out.length
      · rw [selectFrom, if_pos hfull, Except.ok.injEq] at h
        exact h ▸ ⟨⟨s, hout⟩, hlen⟩
      · rcases selectFrom_cases m k hs s hfull with
          heq | ⟨tx, s', _, hstep, heq⟩ | ⟨tx, acc, e, _, _, _, heq⟩
        · exact ih (heq ▸ h) hout hlen
        · -- A transaction that applied extends the selection by one.
          refine ih (heq ▸ h) ((State.applyAll_append_ok_iff _ _ _ _).mpr ⟨s, hout, ?_⟩) ?_
          · exact (State.applyAll_cons_ok_iff _ _ _ _).mpr ⟨s', hstep, rfl⟩
          · rw [List.length_append, List.length_singleton]
            omega
        · rw [heq] at h
          exact absurd h (by simp only [reduceCtorEq, not_false_eq_true])

/-- A selection is taken from the queue in order. -/
theorem selectFrom_sublist {m : Mempool} {max : Nat} {hs : List String} {s : State}
    {out res : List Transaction} (h : selectFrom m max hs s out = .ok res) :
    ∃ taken, res = out ++ taken ∧ taken.Sublist (hs.filterMap fun k => m.txs.lookup k) := by
  induction hs generalizing s out with
  | nil =>
      rw [selectFrom, Except.ok.injEq] at h
      exact ⟨[], by rw [List.append_nil, h], List.Sublist.refl _⟩
  | cons k hs ih =>
      by_cases hfull : max ≤ out.length
      · rw [selectFrom, if_pos hfull, Except.ok.injEq] at h
        exact ⟨[], by rw [List.append_nil, h], List.nil_sublist _⟩
      · have hskip : (hs.filterMap fun k => m.txs.lookup k).Sublist
            ((k :: hs).filterMap fun k => m.txs.lookup k) :=
          (List.sublist_cons_self k hs).filterMap _
        rcases selectFrom_cases m k hs s hfull with
          heq | ⟨tx, s', hk, _, heq⟩ | ⟨tx, acc, e, _, _, _, heq⟩
        · rcases ih (heq ▸ h) with ⟨taken, hres, hsub⟩
          exact ⟨taken, hres, hsub.trans hskip⟩
        · rcases ih (heq ▸ h) with ⟨taken, hres, hsub⟩
          refine ⟨tx :: taken, by rw [hres, List.append_assoc, List.singleton_append], ?_⟩
          simp only [List.filterMap_cons, hk]
          exact hsub.cons_cons tx
        · rw [heq] at h
          exact absurd h (by simp only [reduceCtorEq, not_false_eq_true])

/-- A selection applies in order on the state it was made for, and respects
    its limit. -/
theorem orderedCandidatesForSeal_ok {m : Mempool} {s : State} {max : Nat}
    {txs : List Transaction} (h : m.orderedCandidatesForSeal s max = .ok txs) :
    (∃ s', s.applyAll txs = .ok s') ∧ txs.length ≤ max :=
  selectFrom_ok h rfl (Nat.zero_le _)

theorem orderedCandidatesForSeal_sublist {m : Mempool} {s : State} {max : Nat}
    {txs : List Transaction} (h : m.orderedCandidatesForSeal s max = .ok txs) :
    txs.Sublist m.cloneFifo := by
  rcases selectFrom_sublist h with ⟨taken, htaken, hsub⟩
  rw [htaken, List.nil_append]
  exact hsub

end Operations

/-! ### Removal by id -/

theorem ext_fields {m n : Mempool} (hc : m.capacity = n.capacity) (ht : m.txs = n.txs)
    (ho : m.order = n.order) (hb : m.bySender = n.bySender) : m = n := by
  cases m
  cases n
  cases hc
  cases ht
  cases ho
  cases hb
  rfl

/-- What clearing a nonce does to the slots of its sender. -/
def clearNonce (nonce : UInt64) (slots : Option Slots) : Option Slots :=
  slots.bind fun slots =>
    if (slots.erase nonce).keys = ∅ then none else some (slots.erase nonce)

theorem clearNonce_comm (n k : UInt64) (slots : Option Slots) :
    clearNonce n (clearNonce k slots) = clearNonce k (clearNonce n slots) := by
  -- Once one removal empties the slots, the other finds nothing left.
  have hempty : ∀ (f : Slots) (i j : UInt64), (f.erase i).keys = ∅ →
      ((f.erase j).erase i).keys = ∅ := by
    intro f i j h
    rw [Finmap.erase_erase, Finmap.keys_erase, h]
    rfl
  cases slots with
  | none => rfl
  | some f =>
      simp only [clearNonce, Option.bind_some]
      by_cases hk : (f.erase k).keys = ∅
      · rw [if_pos hk, Option.bind_none]
        by_cases hn : (f.erase n).keys = ∅
        · rw [if_pos hn, Option.bind_none]
        · rw [if_neg hn, Option.bind_some, if_pos (hempty f k n hk)]
      · rw [if_neg hk, Option.bind_some]
        by_cases hn : (f.erase n).keys = ∅
        · rw [if_pos hn, if_pos (hempty f n k hn), Option.bind_none]
        · rw [if_neg hn, Option.bind_some, Finmap.erase_erase]

theorem lookup_clearSlot (bySender : Finmap (fun _ : Address => Slots)) (s a : Address)
    (n : UInt64) : (clearSlot bySender s n).lookup a =
      if a = s then clearNonce n (bySender.lookup s) else bySender.lookup a := by
  rw [clearSlot]
  cases hs : bySender.lookup s with
  | none =>
      by_cases ha : a = s
      · rw [if_pos ha, ha, hs]
        rfl
      · rw [if_neg ha]
  | some slots =>
      simp only [clearNonce, Option.bind_some]
      -- A sender without slots is dropped, so the table has no empty entries.
      by_cases hempty : (slots.erase n).keys = ∅
      · rw [if_pos hempty, if_pos hempty]
        by_cases ha : a = s
        · rw [if_pos ha, ha, Finmap.lookup_erase]
        · rw [if_neg ha, Finmap.lookup_erase_ne ha]
      · rw [if_neg hempty, if_neg hempty]
        by_cases ha : a = s
        · rw [if_pos ha, ha, Finmap.lookup_insert]
        · rw [if_neg ha, Finmap.lookup_insert_of_ne _ ha]

theorem clearSlot_comm (bySender : Finmap (fun _ : Address => Slots)) (s t : Address)
    (n k : UInt64) :
    clearSlot (clearSlot bySender s n) t k = clearSlot (clearSlot bySender t k) s n := by
  apply Finmap.ext_lookup
  intro a
  simp only [lookup_clearSlot]
  by_cases hst : s = t
  · rw [← hst]
    by_cases ha : a = s
    · simp only [ha, if_true, clearNonce_comm]
    · simp only [ha, if_false]
  · by_cases ha : a = s
    · simp only [ha, hst, if_true, if_false]
    · by_cases hat : a = t
      · simp only [hat, if_true, if_neg (fun hc : t = s => hst hc.symm)]
      · simp only [ha, hat, if_false]

/-- The order of removals does not matter. -/
theorem removeTxHash_comm (m : Mempool) (h k : String) :
    (m.removeTxHash h).removeTxHash k = (m.removeTxHash k).removeTxHash h := by
  by_cases hhk : h = k
  · rw [hhk]
  · apply ext_fields
    · rfl
    · exact Finmap.erase_erase
    · rfl
    · simp only [removeTxHash, Finmap.lookup_erase_ne (Ne.symm hhk), Finmap.lookup_erase_ne hhk]
      cases m.txs.lookup h with
      | none => rfl
      | some tx =>
          cases m.txs.lookup k with
          | none => rfl
          | some ty => exact clearSlot_comm _ _ _ _ _

instance : RightCommutative removeTxHash :=
  ⟨removeTxHash_comm⟩

/-- Forget several transactions; the order keeps their ids. -/
def removeAll (m : Mempool) (hashes : Multiset String) : Mempool :=
  hashes.foldl removeTxHash m

theorem removeAll_cons (m : Mempool) (h : String) (hashes : Multiset String) :
    m.removeAll (h ::ₘ hashes) = (m.removeTxHash h).removeAll hashes :=
  Multiset.foldl_cons removeTxHash m h hashes

theorem mem_removeAll (m : Mempool) (hashes : Multiset String) (h : String) :
    h ∈ (m.removeAll hashes).txs ↔ h ∈ m.txs ∧ h ∉ hashes := by
  induction hashes using Multiset.induction_on generalizing m with
  | empty => simp only [removeAll, Multiset.foldl_zero, Multiset.notMem_zero, not_false_eq_true,
      and_true]
  | cons k hashes ih =>
      rw [removeAll_cons, ih, removeTxHash, Finmap.mem_erase, Multiset.mem_cons, not_or]
      constructor
      · rintro ⟨⟨hne, hin⟩, hnot⟩
        exact ⟨hin, hne, hnot⟩
      · rintro ⟨hin, hne, hnot⟩
        exact ⟨⟨hne, hin⟩, hnot⟩

/-- `Mempool::remove_by_tx_hashes`. -/
def removeByTxHashes (m : Mempool) (hashes : Multiset String) : Mempool where
  capacity := m.capacity
  txs := (m.removeAll hashes.dedup).txs
  order := m.order.filter (fun h => h ∉ hashes)
  bySender := (m.removeAll hashes.dedup).bySender
  queued := by
    intro h hh
    rcases (mem_removeAll m hashes.dedup h).mp hh with ⟨hin, hnot⟩
    rw [Multiset.mem_dedup] at hnot
    exact List.mem_filter.mpr ⟨m.queued h hin, by simpa only [decide_eq_true_eq] using hnot⟩

/-- `Mempool::drop_stale_nonces_vs_committed`. -/
def dropStaleNoncesVsCommitted (m : Mempool) (committed : State) : Nat × Mempool :=
  let toRemove : Multiset String := (m.txs.entries.filter fun e =>
    ∃ acc ∈ committed.getAccount e.2.sender, e.2.nonce < acc.nonce).map fun e => e.2.txHash
  (toRemove.card, m.removeByTxHashes toRemove)

/-- The scan of `drop_later_sender_nonce_conflicts_keep_fifo_first`. -/
def laterConflicts (m : Mempool) : List String → Finset (Address × UInt64) → List String
  | [], _ => []
  | h :: hs, seen =>
      match m.txs.lookup h with
      | none => laterConflicts m hs seen
      | some tx =>
          if (tx.sender, tx.nonce) ∈ seen then h :: laterConflicts m hs seen
          else laterConflicts m hs (insert (tx.sender, tx.nonce) seen)

/-- `Mempool::drop_later_sender_nonce_conflicts_keep_fifo_first`. -/
def dropLaterSenderNonceConflictsKeepFifoFirst (m : Mempool) : Nat × Mempool :=
  let toRemove := laterConflicts m m.order ∅
  let m' := toRemove.foldl removeTxHash m
  (toRemove.length,
    { m' with
      order := m'.order.filter (fun h => h ∈ m'.txs)
      queued := fun h hh =>
        List.mem_filter.mpr ⟨m'.queued h hh, by simpa only [decide_eq_true_eq] using hh⟩ })

/-- `Mempool::hygiene_vs_committed_ledger`. -/
def hygieneVsCommittedLedger [Primitives] (m : Mempool) (committed : State) :
    (Nat × Nat × Nat) × Mempool :=
  let (front, m₁) := m.purgeNonviableUnderCommittedState committed
  let (stale, m₂) := m₁.dropStaleNoncesVsCommitted committed
  let (dup, m₃) := m₂.dropLaterSenderNonceConflictsKeepFifoFirst
  ((front, stale, dup), m₃)

/-! ### Eviction ends -/

theorem dropFront_of_nil {m : Mempool} (ho : m.order = []) : m.dropFront = m := by
  unfold dropFront
  split
  · rfl
  · rename_i hcons
    rw [ho] at hcons
    exact absurd hcons (by simp only [reduceCtorEq, not_false_eq_true])

theorem dropFront_of_cons {m : Mempool} {h : String} {rest : List String}
    (ho : m.order = h :: rest) :
    m.dropFront.txs = m.txs.erase h ∧ m.dropFront.order = rest ∧
      m.dropFront.capacity = m.capacity ∧
      m.dropFront.bySender = (m.removeTxHash h).bySender := by
  unfold dropFront
  split
  · rename_i hnil
    rw [ho] at hnil
    exact absurd hnil (by simp only [reduceCtorEq, not_false_eq_true])
  · rename_i k ks hk
    rw [ho, List.cons.injEq] at hk
    rw [hk.1, hk.2]
    exact ⟨rfl, rfl, rfl, rfl⟩

theorem order_ne_nil {m : Mempool} (hm : 0 < m.len) : m.order ≠ [] := by
  intro hnil
  rcases Finset.card_pos.mp hm with ⟨k, hk⟩
  have hin := m.queued k (Finmap.mem_keys.mp hk)
  rw [hnil] at hin
  exact absurd hin List.not_mem_nil

theorem evictLoop_isEmpty (fuel : Nat) (m : Mempool) (hm : m.len = 0) :
    (evictLoop fuel m).len = 0 := by
  induction fuel generalizing m with
  | zero => exact hm
  | succ fuel ih =>
      rw [evictLoop]
      cases ho : m.order with
      | nil => exact hm
      | cons h rest =>
          have hdrop : m.dropFront.len = 0 := by
            rw [len, (dropFront_of_cons ho).1, Finmap.keys_erase, Finset.card_eq_zero.mp hm]
            rfl
          by_cases hin : h ∈ m.txs
          · simp only [if_pos hin]
            exact hdrop
          · simp only [if_neg hin]
            exact ih _ hdrop

theorem evictLoop_len (fuel : Nat) (m : Mempool) (hf : m.order.length ≤ fuel) (hm : 0 < m.len) :
    (evictLoop fuel m).len + 1 = m.len ∧ (evictLoop fuel m).capacity = m.capacity := by
  induction fuel generalizing m with
  | zero => exact absurd (List.length_eq_zero_iff.mp (Nat.le_zero.mp hf)) (order_ne_nil hm)
  | succ fuel ih =>
      rw [evictLoop]
      cases ho : m.order with
      | nil => exact absurd ho (order_ne_nil hm)
      | cons h rest =>
          rcases dropFront_of_cons ho with ⟨htxs, hrest, hcap, _⟩
          by_cases hin : h ∈ m.txs
          · simp only [if_pos hin]
            refine ⟨?_, hcap⟩
            rw [len, htxs, Finmap.keys_erase, Finset.card_erase_add_one (Finmap.mem_keys.mpr hin),
              len]
          · -- A stale entry of the queue: nothing is evicted, and the loop goes on.
            simp only [if_neg hin]
            have hlen : m.dropFront.len = m.len := by
              rw [len, htxs, Finmap.keys_erase, Finset.erase_eq_of_notMem
                (fun hc => hin (Finmap.mem_keys.mp hc)), len]
            have hshort : m.dropFront.order.length ≤ fuel := by
              rw [hrest]
              rw [ho, List.length_cons] at hf
              omega
            rcases ih m.dropFront hshort (hlen ▸ hm) with ⟨hl, hc⟩
            exact ⟨hl.trans hlen, hc.trans hcap⟩

/-- The eviction loop ends with room, or with an empty pool. -/
theorem makeRoom_done (fuel : Nat) (m : Mempool) (hf : m.len < fuel) :
    (makeRoom fuel m).len < m.capacity ∨ (makeRoom fuel m).len = 0 := by
  induction fuel generalizing m with
  | zero => exact absurd hf (Nat.not_lt_zero _)
  | succ fuel ih =>
      rw [makeRoom]
      by_cases hfull : m.capacity ≤ m.len
      · rw [if_pos hfull]
        by_cases hempty : m.evictOldest.isEmpty = true
        · rw [if_pos hempty]
          exact Or.inr (by simpa only [isEmpty, beq_iff_eq] using hempty)
        · rw [if_neg hempty]
          by_cases hm : 0 < m.len
          · rcases evictLoop_len m.order.length m le_rfl hm with ⟨hl, hc⟩
            rw [← hc]
            exact ih _ (by rw [evictOldest]; omega)
          · -- An empty pool has nothing to evict, so it stays empty.
            refine Or.inr ?_
            have hstay := evictLoop_isEmpty m.order.length m (by omega)
            exact absurd (beq_iff_eq.mpr hstay) hempty
      · rw [if_neg hfull]
        exact Or.inl (by omega)

end Mempool

end Trilogicon
