import Trilogicon.Core.Mempool

/-!
# The Invariant of the Pool

A pool keeps the same transactions three times: by id, in the order of arrival,
and by sender and nonce. Every operation updates the three by hand, and some
remove from the tables first and from the order later.

So the invariant comes in two parts. `Mempool.Indexed` relates the two tables and
holds after every single removal. `Mempool.Sound` adds the order, which is only
right again at the end of an operation. What follows from it is that the head of
the order is always held: an eviction removes exactly the oldest transaction,
and the loop of `try_submit` makes one round at most.

## Main definitions

* `Mempool.slot`: The id a sender has queued for a nonce.
* `Mempool.Indexed`: The two tables agree.
* `Mempool.Sound`: All three agree, and the pool respects its capacity.
* `Mempool.roomy`: The pool a submission is queued in.
* `Mempool.Op`, `Mempool.perform`: The operations on a pool.

## Theorems

* `Indexed.removeTxHash`: A removal keeps the tables in agreement.
* `Sound.push`: Queueing a new transaction keeps the invariant.
* `Sound.makeRoom`: The eviction loop makes one round at most.
* `Sound.restoreFifo_cloneFifo`: Saving and restoring changes nothing.
* `Sound.perform`: Every operation keeps the invariant.
* `pool_sound`: What holds of every pool that operations lead to.
-/

namespace Trilogicon

namespace Mempool

/-- The id a sender has queued for a nonce. -/
def slot (m : Mempool) (s : Address) (n : UInt64) : Option String :=
  (m.bySender.lookup s).bind fun slots => slots.lookup n

/-- In a free slot there is nothing to conflict with. -/
theorem conflicts_of_slot {m : Mempool} {tx : Transaction}
    (h : m.slot tx.sender tx.nonce = none) : m.conflicts tx = false := by
  unfold slot at h
  rw [conflicts, h]

theorem lookup_clearNonce {slots : Option Slots} {k n : UInt64} :
    (clearNonce k slots).bind (fun f => f.lookup n) =
      if n = k then none else slots.bind fun f => f.lookup n := by
  cases slots with
  | none =>
      by_cases hn : n = k
      · rw [if_pos hn]
        rfl
      · rw [if_neg hn]
        rfl
  | some f =>
      have herase : (f.erase k).lookup n = if n = k then none else f.lookup n := by
        by_cases hn : n = k
        · rw [if_pos hn, hn, Finmap.lookup_erase]
        · rw [if_neg hn, Finmap.lookup_erase_ne hn]
      simp only [clearNonce, Option.bind_some]
      by_cases hempty : (f.erase k).keys = ∅
      · -- The slots are dropped as a whole, because there is nothing left in them.
        rw [if_pos hempty, Option.bind_none, ← herase, eq_comm, Finmap.lookup_eq_none,
          ← Finmap.mem_keys, hempty]
        exact Finset.notMem_empty n
      · rw [if_neg hempty, Option.bind_some, herase]

theorem slot_clearSlot {bySender : Finmap (fun _ : Address => Slots)} {s a : Address}
    {k n : UInt64} :
    ((clearSlot bySender s k).lookup a).bind (fun f => f.lookup n) =
      if a = s ∧ n = k then none else (bySender.lookup a).bind fun f => f.lookup n := by
  rw [lookup_clearSlot]
  by_cases ha : a = s
  · rw [if_pos ha, lookup_clearNonce]
    by_cases hn : n = k
    · rw [if_pos hn, if_pos ⟨ha, hn⟩]
    · rw [if_neg hn, if_neg (fun hc => hn hc.2), ha]
  · rw [if_neg ha, if_neg (fun hc => ha hc.1)]

theorem len_removeAll_le (m : Mempool) (hashes : Multiset String) :
    (m.removeAll hashes).len ≤ m.len := by
  refine Finset.card_le_card fun h hh => ?_
  rw [Finmap.mem_keys] at hh ⊢
  exact ((mem_removeAll m hashes h).mp hh).1

/-- Removals touch the tables only. -/
theorem removeAll_keeps (m : Mempool) (hashes : Multiset String) :
    (m.removeAll hashes).order = m.order ∧ (m.removeAll hashes).capacity = m.capacity := by
  induction hashes using Multiset.induction_on generalizing m with
  | empty => exact ⟨rfl, rfl⟩
  | cons h hashes ih =>
      rw [removeAll_cons]
      exact ih (m.removeTxHash h)

theorem lookup_push {m : Mempool} {tx : Transaction} {h : String} :
    (m.push tx).txs.lookup h = if h = tx.txHash then some tx else m.txs.lookup h := by
  by_cases hh : h = tx.txHash
  · subst hh
    rw [if_pos rfl]
    exact Finmap.lookup_insert _
  · rw [if_neg hh]
    exact Finmap.lookup_insert_of_ne _ hh

/-- What is held after queueing: the new transaction, and what was held before. -/
theorem lookup_push_some {m : Mempool} {tx old : Transaction} {h : String}
    (hl : (m.push tx).txs.lookup h = some old) :
    h = tx.txHash ∧ old = tx ∨ m.txs.lookup h = some old := by
  rw [lookup_push] at hl
  by_cases hh : h = tx.txHash
  · rw [if_pos hh, Option.some.injEq] at hl
    exact Or.inl ⟨hh, hl.symm⟩
  · rw [if_neg hh] at hl
    exact Or.inr hl

theorem len_push_le (m : Mempool) (tx : Transaction) : (m.push tx).len ≤ m.len + 1 := by
  have hsub : (m.push tx).txs.keys ⊆ insert tx.txHash m.txs.keys := by
    intro h hh
    rw [Finset.mem_insert, Finmap.mem_keys]
    exact Finmap.mem_insert.mp (Finmap.mem_keys.mp hh)
  exact (Finset.card_le_card hsub).trans (Finset.card_insert_le _ _)

theorem lookup_removeTxHash {m : Mempool} {h k : String} {tx : Transaction} :
    (m.removeTxHash h).txs.lookup k = some tx ↔ k ≠ h ∧ m.txs.lookup k = some tx := by
  by_cases hk : k = h
  · subst hk
    simp only [Mempool.removeTxHash, Finmap.lookup_erase, reduceCtorEq, ne_eq,
      not_true_eq_false, false_and]
  · simp only [Mempool.removeTxHash, Finmap.lookup_erase_ne hk, ne_eq, hk, not_false_eq_true,
      true_and]

theorem slot_push {m : Mempool} {tx : Transaction} {s : Address} {n : UInt64} :
    (m.push tx).slot s n =
      if s = tx.sender ∧ n = tx.nonce then some tx.txHash else m.slot s n := by
  simp only [slot, push]
  by_cases hs : s = tx.sender
  · subst hs
    rw [Finmap.lookup_insert, Option.bind_some]
    by_cases hn : n = tx.nonce
    · subst hn
      rw [Finmap.lookup_insert, if_pos ⟨rfl, rfl⟩]
    · rw [Finmap.lookup_insert_of_ne _ hn, if_neg (fun hc => hn hc.2)]
      cases m.bySender.lookup tx.sender with
      | none => rfl
      | some slots => rfl
  · rw [Finmap.lookup_insert_of_ne _ hs, if_neg (fun hc => hs hc.1)]

/-- The purge only ever drops the front, so it keeps what that keeps. -/
theorem purgeLoop_keeps [Primitives] {P : Mempool → Prop} (hdrop : ∀ m, P m → P m.dropFront)
    (committed : State) (fuel : Nat) {m : Mempool} (hm : P m) :
    P (purgeLoop committed fuel m).2 := by
  induction fuel generalizing m with
  | zero => exact hm
  | succ fuel ih =>
      rw [Mempool.purgeLoop]
      cases m.order with
      | nil => exact hm
      | cons h rest =>
          cases ht : m.txs.lookup h with
          | none =>
              simp only [ht]
              exact ih (hdrop m hm)
          | some tx =>
              simp only [ht]
              by_cases hgone : nonviable tx committed = true
              · rw [if_pos hgone]
                exact ih (hdrop m hm)
              · rw [if_neg hgone]
                exact hm

/-- What a submission without eviction finds and does. It is refused and the
    pool is as it was, or it is queued. -/
theorem trySubmitPendingDrain_cases [Primitives] (m : Mempool) (tx : Transaction) :
    (∃ e, m.trySubmitPendingDrain tx = (.error e, m) ∧
      (e = .duplicateTransaction → tx.txHash ∈ m.txs)) ∨
    (tx.basicValidate = .ok () ∧ tx.txHash ∉ m.txs ∧ m.conflicts tx = false ∧
      m.len < m.capacity ∧ m.trySubmitPendingDrain tx = (.ok (), m.push tx)) := by
  unfold Mempool.trySubmitPendingDrain
  cases hv : tx.basicValidate with
  | error e => exact Or.inl ⟨e, rfl, fun hc => absurd hc (Transaction.basicValidate_error hv).2⟩
  | ok u =>
      simp only [attempt]
      -- The checks in their order; only the last one lets the transaction in.
      by_cases hnew : tx.txHash ∈ m.txs
      · rw [if_pos hnew]
        exact Or.inl ⟨_, rfl, fun _ => hnew⟩
      · rw [if_neg hnew]
        by_cases hconflict : m.conflicts tx = true
        · rw [if_pos hconflict]
          exact Or.inl ⟨_, rfl,
            fun hc => absurd hc (by simp only [reduceCtorEq, not_false_eq_true])⟩
        · rw [if_neg hconflict]
          by_cases hfull : m.capacity ≤ m.len
          · rw [if_pos hfull]
            exact Or.inl ⟨_, rfl,
              fun hc => absurd hc (by simp only [reduceCtorEq, not_false_eq_true])⟩
          · rw [if_neg hfull]
            exact Or.inr ⟨trivial, hnew, Bool.eq_false_iff.mpr hconflict, by omega, rfl⟩

/-- The pool a submission is queued in: with the oldest transaction evicted
    if there was no room. -/
def roomy (m : Mempool) : Mempool :=
  if m.capacity ≤ m.len then m.dropFront else m

theorem dropFront_capacity (m : Mempool) : m.dropFront.capacity = m.capacity := by
  cases ho : m.order with
  | nil => rw [dropFront_of_nil ho]
  | cons h rest => exact (dropFront_of_cons ho).2.2.1

theorem roomy_capacity (m : Mempool) : m.roomy.capacity = m.capacity := by
  unfold roomy
  split
  · exact m.dropFront_capacity
  · rfl

/-- An eviction brings nothing in. -/
theorem lookup_roomy {m : Mempool} {h : String} {tx : Transaction}
    (hl : m.roomy.txs.lookup h = some tx) : m.txs.lookup h = some tx := by
  unfold roomy at hl
  split at hl
  · cases ho : m.order with
    | nil => rwa [dropFront_of_nil ho] at hl
    | cons k rest =>
        rw [(dropFront_of_cons ho).1] at hl
        by_cases hk : h = k
        · subst hk
          rw [Finmap.lookup_erase] at hl
          exact absurd hl (by simp only [reduceCtorEq, not_false_eq_true])
        · rwa [Finmap.lookup_erase_ne hk] at hl
  · exact hl

section Invariant

variable [Primitives]

/-- The table by sender is the table by id, read the other way. -/
structure Indexed (m : Mempool) : Prop where
  keyed : ∀ h tx, m.txs.lookup h = some tx → tx.txHash = h
  valid : ∀ h tx, m.txs.lookup h = some tx → tx.basicValidate = .ok ()
  indexed : ∀ s n h, m.slot s n = some h ↔
    ∃ tx, m.txs.lookup h = some tx ∧ tx.sender = s ∧ tx.nonce = n
  occupied : ∀ s slots, m.bySender.lookup s = some slots → slots.keys ≠ ∅

/-- The three views of the pool agree, and the capacity is respected. -/
structure Sound (m : Mempool) : Prop extends m.Indexed where
  nodup : m.order.Nodup
  listed : ∀ h, h ∈ m.order ↔ h ∈ m.txs
  bounded : m.len ≤ m.capacity

theorem sound_new (capacity : Nat) : (new capacity).Sound where
  keyed h tx hl := absurd hl (by simp only [new, Finmap.lookup_empty, reduceCtorEq,
    not_false_eq_true])
  valid h tx hl := absurd hl (by simp only [new, Finmap.lookup_empty, reduceCtorEq,
    not_false_eq_true])
  indexed s n h := by
    simp only [slot, new, Finmap.lookup_empty, Option.bind_none, reduceCtorEq, false_and,
      exists_false]
  occupied s slots hs := absurd hs (by simp only [new, Finmap.lookup_empty, reduceCtorEq,
    not_false_eq_true])
  nodup := List.nodup_nil
  listed h := ⟨fun hh => absurd hh List.not_mem_nil, fun hh => absurd hh Finmap.notMem_empty⟩
  bounded := Nat.zero_le capacity

/-! ### Removing -/

/-- A removal frees the slot of the transaction, and no other. -/
theorem Indexed.slot_removeTxHash {m : Mempool} (hm : m.Indexed) (h : String) (s : Address)
    (n : UInt64) (k : String) :
    (m.removeTxHash h).slot s n = some k ↔ k ≠ h ∧ m.slot s n = some k := by
  -- Without the transaction nothing is removed, and no slot names it.
  cases ht : m.txs.lookup h with
  | none =>
      simp only [slot, Mempool.removeTxHash, ht]
      rw [← slot]
      constructor
      · intro hs
        refine ⟨fun hc => ?_, hs⟩
        rcases (hm.indexed s n k).mp hs with ⟨tx, htx, _⟩
        rw [hc, ht] at htx
        exact absurd htx (by simp only [reduceCtorEq, not_false_eq_true])
      · exact And.right
  | some old =>
      simp only [slot, Mempool.removeTxHash, ht, slot_clearSlot]
      rw [← slot]
      have hold : m.slot old.sender old.nonce = some h :=
        (hm.indexed _ _ _).mpr ⟨old, ht, rfl, rfl⟩
      by_cases hsame : s = old.sender ∧ n = old.nonce
      · rw [if_pos hsame, hsame.1, hsame.2, hold]
        simp only [reduceCtorEq, Option.some.injEq, false_iff, not_and]
        exact fun hne hc => hne hc.symm
      · rw [if_neg hsame]
        constructor
        · intro hs
          refine ⟨fun hc => hsame ?_, hs⟩
          -- An id is in one slot only.
          rcases (hm.indexed s n k).mp hs with ⟨tx, htx, hsender, hnonce⟩
          rw [hc, ht, Option.some.injEq] at htx
          exact ⟨by rw [htx, hsender], by rw [htx, hnonce]⟩
        · exact And.right

/-- A removal leaves no sender without a transaction behind. -/
theorem Indexed.occupied_removeTxHash {m : Mempool} (hm : m.Indexed) (h : String) (s : Address)
    (slots : Slots)
    (hs : (m.removeTxHash h).bySender.lookup s = some slots) : slots.keys ≠ ∅ := by
  cases ht : m.txs.lookup h with
  | none =>
      simp only [Mempool.removeTxHash, ht] at hs
      exact hm.occupied s slots hs
  | some old =>
      simp only [Mempool.removeTxHash, ht, lookup_clearSlot] at hs
      -- The slots of the sender go when the last of them is freed.
      by_cases hsame : s = old.sender
      · rw [if_pos hsame, clearNonce, Option.bind_eq_some_iff] at hs
        rcases hs with ⟨f, _, hf⟩
        by_cases hempty : (f.erase old.nonce).keys = ∅
        · rw [if_pos hempty] at hf
          exact absurd hf (by simp only [reduceCtorEq, not_false_eq_true])
        · rw [if_neg hempty, Option.some.injEq] at hf
          rw [← hf]
          exact hempty
      · rw [if_neg hsame] at hs
        exact hm.occupied s slots hs

/-- A removal keeps the tables in agreement; the order is left behind. -/
theorem Indexed.removeTxHash {m : Mempool} (hm : m.Indexed) (h : String) :
    (m.removeTxHash h).Indexed where
  keyed k tx hk := hm.keyed k tx (lookup_removeTxHash.mp hk).2
  valid k tx hk := hm.valid k tx (lookup_removeTxHash.mp hk).2
  indexed s n k := by
    simp only [hm.slot_removeTxHash, hm.indexed, lookup_removeTxHash]
    constructor
    · intro hk
      rcases hk with ⟨hne, tx, htx, hs, hn⟩
      exact ⟨tx, ⟨hne, htx⟩, hs, hn⟩
    · intro hk
      rcases hk with ⟨tx, ⟨hne, htx⟩, hs, hn⟩
      exact ⟨hne, tx, htx, hs, hn⟩
  occupied := hm.occupied_removeTxHash h

theorem Indexed.removeAll {m : Mempool} (hm : m.Indexed) (hashes : Multiset String) :
    (m.removeAll hashes).Indexed := by
  induction hashes using Multiset.induction_on generalizing m with
  | empty => exact hm
  | cons h hashes ih =>
      rw [removeAll_cons]
      exact ih (hm.removeTxHash h)

/-- The tables decide whether they agree; the order and the capacity do not
    matter to it. -/
theorem Indexed.of_tables {m m' : Mempool} (hm : m.Indexed) (ht : m'.txs = m.txs)
    (hb : m'.bySender = m.bySender) : m'.Indexed := by
  refine ⟨?_, ?_, ?_, ?_⟩
  · rw [ht]
    exact hm.keyed
  · rw [ht]
    exact hm.valid
  · intro s n h
    rw [slot, hb, ht]
    exact hm.indexed s n h
  · rw [hb]
    exact hm.occupied

theorem Sound.removeByTxHashes {m : Mempool} (hm : m.Sound) (hashes : Multiset String) :
    (m.removeByTxHashes hashes).Sound where
  toIndexed := (hm.toIndexed.removeAll hashes.dedup).of_tables rfl rfl
  nodup := hm.nodup.filter _
  listed h := by
    change h ∈ m.order.filter (fun h => h ∉ hashes) ↔ h ∈ (m.removeAll hashes.dedup).txs
    rw [mem_removeAll, Multiset.mem_dedup, List.mem_filter, decide_eq_true_eq, hm.listed]
  bounded := (len_removeAll_le m hashes.dedup).trans hm.bounded

theorem Sound.dropStale {m : Mempool} (hm : m.Sound) (committed : State) :
    (m.dropStaleNoncesVsCommitted committed).2.Sound :=
  hm.removeByTxHashes _

theorem Sound.dropLater {m : Mempool} (hm : m.Sound) :
    m.dropLaterSenderNonceConflictsKeepFifoFirst.2.Sound := by
  -- A list is folded over as the multiset of its elements.
  let gone : Multiset String := laterConflicts m m.order ∅
  rcases removeAll_keeps m gone with ⟨horder, hcap⟩
  -- What is removed leaves the tables and then the order.
  refine ⟨(hm.toIndexed.removeAll gone).of_tables rfl rfl, ?_, ?_, ?_⟩
  · change ((m.removeAll gone).order.filter _).Nodup
    rw [horder]
    exact hm.nodup.filter _
  · intro h
    change h ∈ (m.removeAll gone).order.filter (fun h => h ∈ (m.removeAll gone).txs) ↔
      h ∈ (m.removeAll gone).txs
    rw [horder, List.mem_filter, decide_eq_true_eq, hm.listed]
    exact ⟨fun hh => hh.2, fun hh => ⟨((mem_removeAll m gone h).mp hh).1, hh⟩⟩
  · change (m.removeAll gone).len ≤ (m.removeAll gone).capacity
    rw [hcap]
    exact (len_removeAll_le m gone).trans hm.bounded

/-- Forgetting the oldest transaction keeps the invariant, since it is the one
    at the head of the order. -/
theorem Sound.dropFront {m : Mempool} (hm : m.Sound) : m.dropFront.Sound := by
  cases ho : m.order with
  | nil =>
      rw [dropFront_of_nil ho]
      exact hm
  | cons h rest =>
      rcases dropFront_of_cons ho with ⟨htxs, hrest, hcap, hby⟩
      have hnodup := hm.nodup
      rw [ho, List.nodup_cons] at hnodup
      -- Only the head leaves, and it stands in the order once.
      refine ⟨(hm.toIndexed.removeTxHash h).of_tables htxs hby, ?_, ?_, ?_⟩
      · rw [hrest]
        exact hnodup.2
      · intro k
        rw [hrest, htxs, Finmap.mem_erase, ← hm.listed, ho, List.mem_cons]
        constructor
        · intro hk
          exact ⟨fun hc => hnodup.1 (hc ▸ hk), Or.inr hk⟩
        · rintro ⟨hne, hk⟩
          exact hk.resolve_left hne
      · rw [len, htxs, hcap, Finmap.keys_erase]
        exact (Finset.card_erase_le).trans hm.bounded

theorem Sound.purgeLoop {m : Mempool} (hm : m.Sound) (committed : State) (fuel : Nat) :
    (purgeLoop committed fuel m).2.Sound :=
  purgeLoop_keeps (fun _ hp => Sound.dropFront hp) committed fuel hm

theorem Sound.hygiene {m : Mempool} (hm : m.Sound) (committed : State) :
    (m.hygieneVsCommittedLedger committed).2.Sound :=
  ((hm.purgeLoop committed _).dropStale committed).dropLater

/-! ### Queueing -/

/-- A transaction that is not held and has no conflict finds its slot free. -/
theorem Indexed.slot_eq_none {m : Mempool} (hm : m.Indexed) {tx : Transaction}
    (hnew : tx.txHash ∉ m.txs) (hfree : m.conflicts tx = false) :
    m.slot tx.sender tx.nonce = none := by
  cases hs : m.slot tx.sender tx.nonce with
  | none => rfl
  | some h =>
      -- The slot could only hold the same id, but that one is not held.
      have hsame : h = tx.txHash := by
        rw [conflicts] at hfree
        rw [slot] at hs
        rw [hs] at hfree
        exact bne_eq_false_iff_eq.mp hfree
      rcases (hm.indexed _ _ _).mp hs with ⟨old, hold, _⟩
      rw [hsame] at hold
      exact absurd (Finmap.mem_of_lookup_eq_some hold) hnew

/-- Queueing a valid transaction that is new and in a free slot keeps the tables
    in agreement. -/
theorem Indexed.push {m : Mempool} (hm : m.Indexed) {tx : Transaction}
    (hvalid : tx.basicValidate = .ok ()) (hnew : tx.txHash ∉ m.txs)
    (hfree : m.slot tx.sender tx.nonce = none) : (m.push tx).Indexed := by
  -- The new transaction has its own id and its own slot, so the old ones keep theirs.
  refine ⟨?_, ?_, ?_, ?_⟩
  · intro h old hl
    rcases lookup_push_some hl with ⟨rfl, rfl⟩ | hl
    · rfl
    · exact hm.keyed h old hl
  · intro h old hl
    rcases lookup_push_some hl with ⟨_, rfl⟩ | hl
    · exact hvalid
    · exact hm.valid h old hl
  · intro s n h
    rw [slot_push]
    by_cases hsame : s = tx.sender ∧ n = tx.nonce
    · rw [if_pos hsame, Option.some.injEq]
      constructor
      · intro hh
        exact ⟨tx, by rw [lookup_push, if_pos hh.symm], hsame.1.symm, hsame.2.symm⟩
      · intro hold
        rcases hold with ⟨old, hl, hs, hn⟩
        rcases lookup_push_some hl with ⟨hh, _⟩ | hl
        · exact hh.symm
        · -- An old transaction of this sender and nonce would occupy the slot.
          have hslot := (hm.indexed s n h).mpr ⟨old, hl, hs, hn⟩
          rw [hsame.1, hsame.2, hfree] at hslot
          exact absurd hslot (by simp only [reduceCtorEq, not_false_eq_true])
    · rw [if_neg hsame, hm.indexed]
      constructor
      · intro hold
        rcases hold with ⟨old, hl, hs, hn⟩
        have hne : h ≠ tx.txHash := fun hc => hnew (hc ▸ Finmap.mem_of_lookup_eq_some hl)
        exact ⟨old, by rw [lookup_push, if_neg hne, hl], hs, hn⟩
      · intro hold
        rcases hold with ⟨old, hl, hs, hn⟩
        rcases lookup_push_some hl with ⟨_, rfl⟩ | hl
        · exact absurd ⟨hs.symm, hn.symm⟩ hsame
        · exact ⟨old, hl, hs, hn⟩
  · intro s slots hs
    by_cases hsame : s = tx.sender
    · -- The slots of the sender hold the new transaction.
      subst hsame
      simp only [Mempool.push, Finmap.lookup_insert, Option.some.injEq] at hs
      rw [← hs, ← Finset.nonempty_iff_ne_empty]
      exact ⟨tx.nonce, Finmap.mem_keys.mpr (Finmap.mem_insert.mpr (Or.inl rfl))⟩
    · simp only [Mempool.push, Finmap.lookup_insert_of_ne _ hsame] at hs
      exact hm.occupied s slots hs

/-- With room for one more, the rest of the invariant is kept too. -/
theorem Sound.push {m : Mempool} (hm : m.Sound) {tx : Transaction}
    (hvalid : tx.basicValidate = .ok ()) (hnew : tx.txHash ∉ m.txs)
    (hfree : m.slot tx.sender tx.nonce = none) (hroom : m.len < m.capacity) :
    (m.push tx).Sound := by
  have hunlisted : tx.txHash ∉ m.order := fun hc => hnew ((hm.listed _).mp hc)
  refine ⟨hm.toIndexed.push hvalid hnew hfree, ?_, ?_, ?_⟩
  · refine List.nodup_append.mpr ⟨hm.nodup, List.nodup_singleton _, ?_⟩
    intro h hh k hk
    rw [List.mem_singleton.mp hk]
    exact fun hc => hunlisted (hc ▸ hh)
  · intro h
    change h ∈ m.order ++ [tx.txHash] ↔ h ∈ m.txs.insert tx.txHash tx
    rw [List.mem_append, List.mem_singleton, Finmap.mem_insert, hm.listed, or_comm]
  · have hlen := m.len_push_le tx
    change (m.push tx).len ≤ m.capacity
    omega

/-! ### Making room -/

/-- An eviction removes the transaction at the head of the order. -/
theorem Sound.evictOldest {m : Mempool} (hm : m.Sound) : m.evictOldest = m.dropFront := by
  rw [Mempool.evictOldest]
  cases ho : m.order with
  | nil =>
      rw [List.length_nil, evictLoop, dropFront_of_nil ho]
  | cons h rest =>
      have hin : h ∈ m.txs := by
        rw [← hm.listed, ho]
        exact List.mem_cons_self
      rw [List.length_cons, evictLoop]
      simp only [ho, if_pos hin]

/-- The order of a sound pool is as long as the pool is large. -/
theorem Sound.length_order {m : Mempool} (hm : m.Sound) : m.order.length = m.len := by
  have hkeys : m.order.toFinset = m.txs.keys := by
    ext h
    rw [List.mem_toFinset, hm.listed, Finmap.mem_keys]
  rw [len, ← hkeys, List.toFinset_card_of_nodup hm.nodup]

/-- What the loop of `try_submit` does, with any fuel that lasts for a round:
    nothing if there is room, and one eviction if there is none. -/
theorem Sound.makeRoom {m : Mempool} (hm : m.Sound) {fuel : Nat} (hf : m.len < fuel) :
    Mempool.makeRoom fuel m = if m.capacity ≤ m.len then m.dropFront else m := by
  cases fuel with
  | zero => exact absurd hf (Nat.not_lt_zero _)
  | succ fuel =>
      rw [Mempool.makeRoom]
      by_cases hfull : m.capacity ≤ m.len
      · -- A full pool loses one transaction, and none if it has no capacity.
        rw [if_pos hfull, if_pos hfull, hm.evictOldest]
        by_cases hempty : m.dropFront.isEmpty = true
        · rw [if_pos hempty]
        · -- After one eviction there is room, so the loop stops at its head.
          rw [if_neg hempty]
          have hleft : m.dropFront.len ≠ 0 := fun hc => hempty (beq_iff_eq.mpr hc)
          have hsome : 0 < m.len := by
            by_contra hnone
            have hnil := List.length_eq_zero_iff.mp (hm.length_order.trans (by omega))
            rw [dropFront_of_nil hnil] at hleft
            omega
          rcases evictLoop_len m.order.length m le_rfl hsome with ⟨hlen, hcap⟩
          rw [← Mempool.evictOldest, hm.evictOldest] at hlen hcap
          have hbound := hm.bounded
          cases fuel with
          | zero => omega
          | succ fuel => rw [Mempool.makeRoom, if_neg (by omega)]
      · rw [if_neg hfull, if_neg hfull]

/-- With any capacity at all, one eviction is enough. -/
theorem Sound.roomy_len {m : Mempool} (hm : m.Sound) (hcap : 1 ≤ m.capacity) :
    m.roomy.len < m.capacity := by
  rw [Mempool.roomy, ← hm.makeRoom (Nat.lt_add_one _)]
  rcases makeRoom_done (m.len + 1) m (Nat.lt_succ_self _) with hlt | hzero
  · exact hlt
  · omega

theorem Sound.roomy {m : Mempool} (hm : m.Sound) : m.roomy.Sound := by
  unfold Mempool.roomy
  split
  · exact hm.dropFront
  · exact hm

theorem Sound.slot_roomy {m : Mempool} (hm : m.Sound) {s : Address} {n : UInt64}
    (hfree : m.slot s n = none) : m.roomy.slot s n = none := by
  cases hs : m.roomy.slot s n with
  | none => rfl
  | some h =>
      rcases (hm.roomy.indexed s n h).mp hs with ⟨tx, hl, hsender, hnonce⟩
      rw [(hm.indexed s n h).mpr ⟨tx, lookup_roomy hl, hsender, hnonce⟩] at hfree
      exact absurd hfree (by simp only [reduceCtorEq, not_false_eq_true])

/-! ### Submissions -/

/-- What a submission to a sound pool finds and does. It is refused and the
    pool is as it was, or it is queued, and on a full pool the oldest
    transaction is evicted first. -/
theorem Sound.trySubmit_cases {m : Mempool} (hm : m.Sound) (tx : Transaction) :
    (∃ e, m.trySubmit tx = (.error e, m) ∧ (e = .mempoolFull → m.capacity = 0)) ∨
    (tx.basicValidate = .ok () ∧ tx.txHash ∉ m.txs ∧ m.slot tx.sender tx.nonce = none ∧
      1 ≤ m.capacity ∧ m.trySubmit tx = (.ok (), m.roomy.push tx)) := by
  unfold Mempool.trySubmit
  -- Behind the three checks there is room for one, unless there is no capacity.
  cases hv : tx.basicValidate with
  | error e => exact Or.inl ⟨e, rfl, fun hc => absurd hc (Transaction.basicValidate_error hv).1⟩
  | ok u =>
      simp only [attempt]
      by_cases hnew : tx.txHash ∈ m.txs
      · rw [if_pos hnew]
        exact Or.inl ⟨_, rfl, fun hc => absurd hc (by simp only [reduceCtorEq, not_false_eq_true])⟩
      · rw [if_neg hnew]
        by_cases hconflict : m.conflicts tx = true
        · rw [if_pos hconflict]
          exact Or.inl ⟨_, rfl,
            fun hc => absurd hc (by simp only [reduceCtorEq, not_false_eq_true])⟩
        · rw [if_neg hconflict, hm.makeRoom (Nat.lt_succ_self _), ← Mempool.roomy,
            roomy_capacity]
          by_cases hzero : m.capacity = 0
          · -- Without capacity the pool is empty and stays so.
            have hempty : m.len = 0 := Nat.le_zero.mp (hzero ▸ hm.bounded)
            have hnil := List.length_eq_zero_iff.mp (hm.length_order.trans hempty)
            have hsame : m.roomy = m := by
              rw [Mempool.roomy, if_pos (by omega), dropFront_of_nil hnil]
            rw [hsame, if_pos (by omega)]
            exact Or.inl ⟨_, rfl, fun _ => hzero⟩
          · have hroom := hm.roomy_len (Nat.one_le_iff_ne_zero.mpr hzero)
            rw [if_neg (by omega)]
            exact Or.inr ⟨trivial, hnew, hm.slot_eq_none hnew (Bool.eq_false_iff.mpr hconflict),
              by omega, rfl⟩

/-- A pool with any capacity accepts exactly the valid transactions that are new
    and have a free slot. -/
theorem Sound.trySubmit_ok_iff {m : Mempool} (hm : m.Sound) (hcap : 1 ≤ m.capacity)
    (tx : Transaction) :
    (m.trySubmit tx).1 = .ok () ↔
      tx.basicValidate = .ok () ∧ tx.txHash ∉ m.txs ∧ m.slot tx.sender tx.nonce = none := by
  constructor
  · intro hok
    rcases hm.trySubmit_cases tx with ⟨e, heq, _⟩ | ⟨hvalid, hnew, hfree, _, _⟩
    · rw [heq] at hok
      exact absurd hok (by simp only [reduceCtorEq, not_false_eq_true])
    · exact ⟨hvalid, hnew, hfree⟩
  · -- The three checks pass, and a full pool makes room.
    rintro ⟨hvalid, hnew, hfree⟩
    have hconflict : ¬ m.conflicts tx = true := Bool.eq_false_iff.mp (conflicts_of_slot hfree)
    have hroom : ¬ m.roomy.capacity ≤ m.roomy.len := by
      rw [roomy_capacity]
      exact Nat.not_le.mpr (hm.roomy_len hcap)
    have hmake : Mempool.makeRoom (m.len + 1) m = m.roomy := hm.makeRoom (Nat.lt_succ_self _)
    unfold Mempool.trySubmit
    simp only [hvalid, attempt, if_neg hnew, if_neg hconflict, hmake, if_neg hroom]

theorem Sound.trySubmit {m : Mempool} (hm : m.Sound) (tx : Transaction) :
    (m.trySubmit tx).2.Sound := by
  rcases hm.trySubmit_cases tx with ⟨e, heq, _⟩ | ⟨hvalid, hnew, hfree, hcap, heq⟩
  · rw [heq]
    exact hm
  · rw [heq]
    refine hm.roomy.push hvalid ?_ (hm.slot_roomy hfree) ?_
    · intro hin
      rcases Finmap.mem_iff.mp hin with ⟨old, hl⟩
      exact hnew (Finmap.mem_of_lookup_eq_some (lookup_roomy hl))
    · rw [roomy_capacity]
      exact hm.roomy_len hcap

theorem Sound.trySubmitPendingDrain {m : Mempool} (hm : m.Sound) (tx : Transaction) :
    (m.trySubmitPendingDrain tx).2.Sound := by
  rcases m.trySubmitPendingDrain_cases tx with ⟨e, heq, _⟩ | ⟨hvalid, hnew, hfree, hroom, heq⟩
  · rw [heq]
    exact hm
  · rw [heq]
    exact hm.push hvalid hnew (hm.slot_eq_none hnew hfree) hroom

/-! ### Saving and restoring -/

/-- Two sound pools with the same transactions in the same order are the same:
    the table by sender follows from the table by id. -/
theorem Sound.ext {m n : Mempool} (hm : m.Sound) (hn : n.Sound) (hc : m.capacity = n.capacity)
    (ht : m.txs = n.txs) (ho : m.order = n.order) : m = n := by
  have hslot : ∀ s k, m.slot s k = n.slot s k := by
    intro s k
    ext h
    rw [hm.indexed, hn.indexed, ht]
  -- A sender with slots has at least one, which the other pool must have too.
  have hsome : ∀ {p q : Mempool}, p.Sound → (∀ s k, p.slot s k = q.slot s k) → ∀ s slots,
      p.bySender.lookup s = some slots → q.bySender.lookup s ≠ none := by
    intro p q hp hpq s slots hs hnone
    rcases Finset.nonempty_iff_ne_empty.mpr (hp.occupied s slots hs) with ⟨k, hk⟩
    rcases Finmap.mem_iff.mp (Finmap.mem_keys.mp hk) with ⟨h, hl⟩
    have heq := hpq s k
    simp only [slot, hs, hnone, Option.bind_some, Option.bind_none, hl, reduceCtorEq] at heq
  refine ext_fields hc ht ho (Finmap.ext_lookup fun s => ?_)
  cases hms : m.bySender.lookup s with
  | none =>
      cases hns : n.bySender.lookup s with
      | none => rfl
      | some slots => exact absurd hms (hsome hn (fun a k => (hslot a k).symm) s slots hns)
  | some slots =>
      cases hns : n.bySender.lookup s with
      | none => exact absurd hns (hsome hm hslot s slots hms)
      | some slots' =>
          rw [Option.some.injEq]
          refine Finmap.ext_lookup fun k => ?_
          have heq := hslot s k
          simpa only [slot, hms, hns, Option.bind_some] using heq

theorem Sound.notMem {m : Mempool} (hm : m.Sound) {h : String} (hh : h ∉ m.order) : h ∉ m.txs :=
  fun hc => hh ((hm.listed h).mpr hc)

/-- A pool that holds part of another has no transaction in the slot of one that
    it does not hold: it would be that one. -/
theorem Sound.slot_free {m p : Mempool} (hm : m.Sound) (hp : p.Sound)
    (hl : ∀ h ∈ p.order, p.txs.lookup h = m.txs.lookup h) {h : String} {tx : Transaction}
    (htx : m.txs.lookup h = some tx) (hnew : h ∉ p.order) :
    p.slot tx.sender tx.nonce = none := by
  cases hs : p.slot tx.sender tx.nonce with
  | none => rfl
  | some k =>
      rcases (hp.indexed _ _ _).mp hs with ⟨old, hold, hsender, hnonce⟩
      have hk := (hp.listed k).mpr (Finmap.mem_of_lookup_eq_some hold)
      rw [hl k hk] at hold
      have hsame := (hm.indexed tx.sender tx.nonce k).mpr ⟨old, hold, hsender, hnonce⟩
      rw [(hm.indexed tx.sender tx.nonce h).mpr ⟨tx, htx, rfl, rfl⟩, Option.some.injEq] at hsame
      exact absurd (hsame ▸ hk) hnew

/-- Queueing again, in order, what a sound pool holds: after each one the pool
    is the pool of the part already queued. -/
theorem Sound.foldl_push {m : Mempool} (hm : m.Sound) (rest : List String) {p : Mempool}
    (hp : p.Sound) (hc : p.capacity = m.capacity) (ho : p.order ++ rest = m.order)
    (hl : ∀ h ∈ p.order, p.txs.lookup h = m.txs.lookup h) :
    (rest.filterMap fun h => m.txs.lookup h).foldl Mempool.push p = m := by
  induction rest generalizing p with
  | nil =>
      rw [List.append_nil] at ho
      refine hp.ext hm hc (Finmap.ext_lookup fun h => ?_) ho
      -- An id that is not in the order is in neither table.
      by_cases hin : h ∈ p.order
      · exact hl h hin
      · have hnot := hin
        rw [ho] at hin
        rw [Finmap.lookup_eq_none.mpr (hp.notMem hnot), Finmap.lookup_eq_none.mpr (hm.notMem hin)]
  | cons h rest ih =>
      have hin : h ∈ m.order := ho ▸ List.mem_append_right _ List.mem_cons_self
      rcases Finmap.mem_iff.mp ((hm.listed h).mp hin) with ⟨tx, htx⟩
      have hkey : tx.txHash = h := hm.keyed h tx htx
      -- The next id of the order is new to the part, and there is room for it.
      have hnew : h ∉ p.order := by
        intro hold
        have hnodup := ho ▸ hm.nodup
        exact (List.nodup_append.mp hnodup).2.2 h hold h List.mem_cons_self rfl
      have hroom : p.len < p.capacity := by
        have hlen := congrArg List.length ho
        rw [List.length_append, List.length_cons, hp.length_order, hm.length_order] at hlen
        have := hm.bounded
        omega
      have hheld : tx.txHash ∉ p.txs := by
        rw [hkey]
        exact hp.notMem hnew
      simp only [List.filterMap_cons, htx, List.foldl_cons]
      refine ih (hp.push (hm.valid h tx htx) hheld (hm.slot_free hp hl htx hnew) hroom) hc ?_ ?_
      · change p.order ++ [tx.txHash] ++ rest = m.order
        rw [hkey, List.append_assoc, List.singleton_append, ho]
      · intro k hk
        rw [lookup_push, hkey]
        rcases List.mem_append.mp hk with hold | hlast
        · have hne : k ≠ h := fun hc => hnew (hc ▸ hold)
          rw [if_neg hne]
          exact hl k hold
        · have hkh : k = h := (List.mem_singleton.mp hlast).trans hkey
          subst hkh
          rw [if_pos rfl, htx]

/-- Saving a sound pool and restoring it is no change at all. -/
theorem Sound.restoreFifo_cloneFifo {m : Mempool} (hm : m.Sound) :
    m.restoreFifo m.cloneFifo = m :=
  hm.foldl_push m.order (sound_new m.capacity) rfl rfl
    (fun _ hc => absurd hc List.not_mem_nil)

end Invariant

/-! ### Sequences of operations -/

/-- The operations that change a pool. -/
inductive Op where
  | trySubmit (tx : Transaction)
  | trySubmitPendingDrain (tx : Transaction)
  | removeByTxHashes (hashes : List String)
  | purgeNonviableUnderCommittedState (committed : State)
  | dropStaleNoncesVsCommitted (committed : State)
  | dropLaterSenderNonceConflictsKeepFifoFirst
  | hygieneVsCommittedLedger (committed : State)
  | restoreFifoCloneFifo

section Operations

variable [Primitives]

/-- Run an operation. Only the submissions can be refused. -/
def perform (m : Mempool) : Op → Except ProtocolError Unit × Mempool
  | .trySubmit tx => m.trySubmit tx
  | .trySubmitPendingDrain tx => m.trySubmitPendingDrain tx
  | .removeByTxHashes hashes => (.ok (), m.removeByTxHashes hashes)
  | .purgeNonviableUnderCommittedState committed =>
      (.ok (), (m.purgeNonviableUnderCommittedState committed).2)
  | .dropStaleNoncesVsCommitted committed => (.ok (), (m.dropStaleNoncesVsCommitted committed).2)
  | .dropLaterSenderNonceConflictsKeepFifoFirst =>
      (.ok (), m.dropLaterSenderNonceConflictsKeepFifoFirst.2)
  | .hygieneVsCommittedLedger committed => (.ok (), (m.hygieneVsCommittedLedger committed).2)
  | .restoreFifoCloneFifo => (.ok (), m.restoreFifo m.cloneFifo)

/-- Run operations in order, whatever each of them returns. -/
def performAll (m : Mempool) (ops : List Op) : Mempool :=
  ops.foldl (fun m op => (m.perform op).2) m

/-- One operation keeps the invariant. -/
theorem Sound.perform {m : Mempool} (hm : m.Sound) (op : Op) : (m.perform op).2.Sound := by
  cases op with
  | trySubmit tx => exact hm.trySubmit tx
  | trySubmitPendingDrain tx => exact hm.trySubmitPendingDrain tx
  | removeByTxHashes hashes => exact hm.removeByTxHashes hashes
  | purgeNonviableUnderCommittedState committed => exact hm.purgeLoop committed _
  | dropStaleNoncesVsCommitted committed => exact hm.dropStale committed
  | dropLaterSenderNonceConflictsKeepFifoFirst => exact hm.dropLater
  | hygieneVsCommittedLedger committed => exact hm.hygiene committed
  | restoreFifoCloneFifo =>
      change (m.restoreFifo m.cloneFifo).Sound
      rw [hm.restoreFifo_cloneFifo]
      exact hm

/-- No operation changes the capacity. -/
theorem Sound.perform_capacity {m : Mempool} (hm : m.Sound) (op : Op) :
    (m.perform op).2.capacity = m.capacity := by
  -- The purge and the conflicts only remove.
  have hpurge : ∀ committed fuel, (Mempool.purgeLoop committed fuel m).2.capacity = m.capacity :=
    fun committed fuel => purgeLoop_keeps (P := fun p => p.capacity = m.capacity)
      (fun p hp => p.dropFront_capacity.trans hp) committed fuel rfl
  have hlater : ∀ p : Mempool,
      p.dropLaterSenderNonceConflictsKeepFifoFirst.2.capacity = p.capacity :=
    fun p => (removeAll_keeps p (p.laterConflicts p.order ∅)).2
  cases op with
  | trySubmit tx =>
      change (m.trySubmit tx).2.capacity = _
      rcases hm.trySubmit_cases tx with ⟨e, heq, _⟩ | ⟨_, _, _, _, heq⟩
      · rw [heq]
      · rw [heq]
        exact m.roomy_capacity
  | trySubmitPendingDrain tx =>
      change (m.trySubmitPendingDrain tx).2.capacity = _
      rcases m.trySubmitPendingDrain_cases tx with ⟨e, heq, _⟩ | ⟨_, _, _, _, heq⟩
      · rw [heq]
      · rw [heq]
        rfl
  | removeByTxHashes hashes => rfl
  | purgeNonviableUnderCommittedState committed => exact hpurge committed _
  | dropStaleNoncesVsCommitted committed => rfl
  | dropLaterSenderNonceConflictsKeepFifoFirst => exact hlater m
  | hygieneVsCommittedLedger committed => exact (hlater _).trans (hpurge committed _)
  | restoreFifoCloneFifo =>
      change (m.restoreFifo m.cloneFifo).capacity = _
      rw [hm.restoreFifo_cloneFifo]

/-- The invariant and the capacity after any operations. -/
theorem Sound.performAll {m : Mempool} (hm : m.Sound) (ops : List Op) :
    (m.performAll ops).Sound ∧ (m.performAll ops).capacity = m.capacity := by
  induction ops generalizing m with
  | nil => exact ⟨hm, rfl⟩
  | cons op ops ih =>
      rcases ih (hm.perform op) with ⟨hsound, hcap⟩
      exact ⟨hsound, hcap.trans (hm.perform_capacity op)⟩

/-- The pool came about by operations on a new one. -/
def Reached (m : Mempool) : Prop :=
  ∃ capacity ops, m = (new capacity).performAll ops

theorem Reached.sound {m : Mempool} (h : m.Reached) : m.Sound := by
  rcases h with ⟨capacity, ops, rfl⟩
  exact ((sound_new capacity).performAll ops).1

/-- An operation that is refused leaves a sound pool as it was. -/
theorem Sound.perform_keeps {m : Mempool} (hm : m.Sound) (op : Op) : Keeps m (m.perform op) := by
  intro e he
  cases op with
  | trySubmit tx =>
      change (m.trySubmit tx).1 = _ at he
      rcases hm.trySubmit_cases tx with ⟨e', heq, _⟩ | ⟨_, _, _, _, heq⟩
      · exact congrArg Prod.snd heq
      · rw [heq] at he
        exact absurd he (by simp only [reduceCtorEq, not_false_eq_true])
  | trySubmitPendingDrain tx =>
      change (m.trySubmitPendingDrain tx).1 = _ at he
      rcases m.trySubmitPendingDrain_cases tx with ⟨e', heq, _⟩ | ⟨_, _, _, _, heq⟩
      · exact congrArg Prod.snd heq
      · rw [heq] at he
        exact absurd he (by simp only [reduceCtorEq, not_false_eq_true])
  | removeByTxHashes | purgeNonviableUnderCommittedState | dropStaleNoncesVsCommitted
  | dropLaterSenderNonceConflictsKeepFifoFirst | hygieneVsCommittedLedger
  | restoreFifoCloneFifo =>
      exact absurd he (by simp only [Mempool.perform, reduceCtorEq, not_false_eq_true])

/-- On a full pool an accepted submission replaces the oldest transaction. -/
theorem Sound.trySubmit_full {m : Mempool} (hm : m.Sound) {tx : Transaction}
    (hfull : m.len = m.capacity) (hok : (m.trySubmit tx).1 = .ok ()) :
    ∃ h rest, m.order = h :: rest ∧ (m.trySubmit tx).2.order = rest ++ [tx.txHash] ∧
      (m.trySubmit tx).2.txs = (m.txs.erase h).insert tx.txHash tx := by
  rcases hm.trySubmit_cases tx with ⟨e, heq, _⟩ | ⟨_, _, _, hcap, heq⟩
  · rw [heq] at hok
    exact absurd hok (by simp only [reduceCtorEq, not_false_eq_true])
  · cases ho : m.order with
    | nil => exact absurd ho (order_ne_nil (by omega))
    | cons h rest =>
        rcases dropFront_of_cons ho with ⟨htxs, hrest, _, _⟩
        rw [heq, Mempool.roomy, if_pos (by omega)]
        refine ⟨h, rest, rfl, ?_, ?_⟩
        · change m.dropFront.order ++ [tx.txHash] = _
          rw [hrest]
        · change m.dropFront.txs.insert tx.txHash tx = _
          rw [htxs]

/-- The pool after any sequence of operations: its tables agree with each
    other and with the queue, the capacity is respected, a refusal changes
    nothing, a valid transaction that is new and has a free slot is accepted, and
    a submission makes room by evicting the oldest transaction and no other. The
    last part says that the eviction loop has stopped by itself when its rounds
    run out. -/
theorem pool_sound (capacity : Nat) (ops : List Op) :
    ∃ m, (new capacity).performAll ops = m ∧ m.Sound ∧ m.capacity = capacity ∧
      (∀ op, Keeps m (m.perform op)) ∧
      (1 ≤ capacity → ∀ tx, (m.trySubmit tx).1 ≠ .error .mempoolFull) ∧
      (1 ≤ capacity → ∀ tx, (m.trySubmit tx).1 = .ok () ↔
        tx.basicValidate = .ok () ∧ tx.txHash ∉ m.txs ∧ m.slot tx.sender tx.nonce = none) ∧
      (m.len = capacity → ∀ tx, (m.trySubmit tx).1 = .ok () →
        ∃ h rest, m.order = h :: rest ∧ (m.trySubmit tx).2.order = rest ++ [tx.txHash] ∧
          (m.trySubmit tx).2.txs = (m.txs.erase h).insert tx.txHash tx) ∧
      ∀ fuel, m.len < fuel → makeRoom fuel m = makeRoom (m.len + 1) m ∧
        ((makeRoom fuel m).len < capacity ∨ (makeRoom fuel m).len = 0) := by
  rcases (sound_new capacity).performAll ops with ⟨hm, hcap⟩
  change _ = capacity at hcap
  refine ⟨_, rfl, hm, hcap, fun op => hm.perform_keeps op, ?_,
    fun hone tx => hm.trySubmit_ok_iff (hone.trans_eq hcap.symm) tx, ?_, ?_⟩
  · intro hone tx hfull
    rcases hm.trySubmit_cases tx with ⟨e, heq, hzero⟩ | ⟨_, _, _, _, heq⟩
    · rw [heq, Except.error.injEq] at hfull
      have := hzero hfull
      omega
    · rw [heq] at hfull
      exact absurd hfull (by simp only [reduceCtorEq, not_false_eq_true])
  · intro hfull tx hok
    exact hm.trySubmit_full (hfull.trans hcap.symm) hok
  · intro fuel hfuel
    refine ⟨?_, (makeRoom_done fuel _ hfuel).imp_left fun h => h.trans_eq hcap⟩
    rw [hm.makeRoom hfuel, hm.makeRoom (Nat.lt_add_one _)]

end Operations

end Mempool

end Trilogicon
