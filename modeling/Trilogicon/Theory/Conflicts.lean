import Trilogicon.Lib.Keyed
import Trilogicon.Theory.Selection

/-!
# Conflicting Transactions

What `drop_later_sender_nonce_conflicts_keep_fifo_first` leaves of a queue that
was put back with `restore_fifo`.

The queue may hold several transactions of one sender and nonce. Putting it back
writes the index slot of the sender and nonce once for each of them, so that the
slot ends up with the last. The cleaning keeps the first and removes the others,
and a removal clears the slot by sender and nonce, whichever id is in it. So the
first transaction stays in the pool and its slot is empty. The pool then takes
another transaction of this sender and nonce, against its own rule. The index is
right exactly if there was no conflict to clean up.

## Main definitions

* `Transaction.senderNonce`: The slot of a transaction.
* `Mempool.IndexExact`: The index holds the transactions of the pool.
* `Mempool.RefusesOccupied`: A slot is given to one transaction only.

## Theorems

* `slot_restoreFifo`: Putting a queue back leaves the last id in each slot.
* `slot_removeAll`: Removals clear the slots of what they remove.
* `lookup_dropLater`, `slot_dropLater`: The pool after the cleaning.
* `dropLater_restores_iff`: The index is right exactly without conflicts.
-/

namespace Trilogicon

/-- The sender and the nonce of a transaction, its slot in the index. -/
def Transaction.senderNonce (tx : Transaction) : Address × UInt64 :=
  (tx.sender, tx.nonce)

theorem Transaction.senderNonce_eq_iff {tx : Transaction} {s : Address} {n : UInt64} :
    tx.senderNonce = (s, n) ↔ tx.sender = s ∧ tx.nonce = n :=
  Prod.mk.injEq _ _ _ _ ▸ Iff.rfl

namespace Mempool

/-- The index holds exactly the transactions of the pool. -/
def IndexExact (m : Mempool) : Prop :=
  ∀ s n h, m.slot s n = some h ↔ ∃ tx, m.txs.lookup h = some tx ∧ tx.sender = s ∧ tx.nonce = n

/-- A new transaction is refused when one of the pool has its sender and nonce. -/
def RefusesOccupied [Primitives] (m : Mempool) : Prop :=
  ∀ tx h old, tx.basicValidate = .ok () → tx.txHash ∉ m.txs → m.txs.lookup h = some old →
    old.sender = tx.sender → old.nonce = tx.nonce →
    m.trySubmit tx = (.error .mempoolNonceConflict, m)

/-! ### Putting a queue back -/

theorem restoreFifo_concat (m : Mempool) (txs : List Transaction) (tx : Transaction) :
    m.restoreFifo (txs ++ [tx]) = (m.restoreFifo txs).push tx := by
  unfold restoreFifo
  rw [List.foldl_append, List.foldl_cons, List.foldl_nil]

theorem order_restoreFifo (m : Mempool) (txs : List Transaction) :
    (m.restoreFifo txs).order = txs.map Transaction.txHash := by
  induction txs using List.reverseRecOn with
  | nil => rfl
  | append_singleton txs tx ih =>
      rw [restoreFifo_concat, List.map_append, List.map_singleton, ← ih]
      rfl

theorem lookup_restoreFifo (m : Mempool) {txs : List Transaction}
    (hids : (txs.map Transaction.txHash).Nodup) {h : String} {tx : Transaction} :
    (m.restoreFifo txs).txs.lookup h = some tx ↔ tx ∈ txs ∧ tx.txHash = h := by
  induction txs using List.reverseRecOn with
  | nil =>
      constructor
      · intro hl
        exact absurd (hl.symm.trans (Finmap.lookup_empty h))
          (by simp only [reduceCtorEq, not_false_eq_true])
      · intro hl
        exact absurd hl.1 List.not_mem_nil
  | append_singleton txs last ih =>
      rw [List.map_append, List.map_singleton, List.nodup_append] at hids
      rw [restoreFifo_concat, lookup_push, List.mem_append, List.mem_singleton]
      by_cases hh : h = last.txHash
      · -- No earlier transaction has the id of the last.
        rw [if_pos hh, Option.some.injEq]
        constructor
        · intro heq
          exact ⟨Or.inr heq.symm, by rw [← heq, hh]⟩
        · intro hl
          rcases hl with ⟨hin | heq, hid⟩
          · exact absurd (hid.trans hh)
              (hids.2.2 tx.txHash (List.mem_map_of_mem hin) last.txHash List.mem_cons_self)
          · exact heq.symm
      · rw [if_neg hh, ih hids.1]
        constructor
        · intro hl
          exact ⟨Or.inl hl.1, hl.2⟩
        · intro hl
          rcases hl with ⟨hin | heq, hid⟩
          · exact ⟨hin, hid⟩
          · exact absurd (by rw [← hid, heq]) hh

/-- Putting a queue back leaves the last id in each slot. -/
theorem slot_restoreFifo (m : Mempool) (txs : List Transaction) (s : Address) (n : UInt64) :
    (m.restoreFifo txs).slot s n =
      ((txs.filter fun tx => tx.senderNonce = (s, n)).map Transaction.txHash).getLast? := by
  induction txs using List.reverseRecOn with
  | nil => rfl
  | append_singleton txs tx ih =>
      rw [restoreFifo_concat, slot_push, List.filter_append, List.map_append]
      -- The last transaction takes the slot from whoever has it.
      by_cases hat : tx.senderNonce = (s, n)
      · have hsn := Transaction.senderNonce_eq_iff.mp hat
        have hone : ([tx].filter fun tx => tx.senderNonce = (s, n)) = [tx] :=
          List.filter_cons_of_pos (decide_eq_true hat)
        rw [if_pos ⟨hsn.1.symm, hsn.2.symm⟩, hone, List.map_singleton, List.getLast?_concat]
      · have hnone : ([tx].filter fun tx => tx.senderNonce = (s, n)) = [] :=
          List.filter_cons_of_neg (by simpa only [decide_eq_true_eq] using hat)
        have hother : ¬ (s = tx.sender ∧ n = tx.nonce) := by
          intro hc
          exact hat (Transaction.senderNonce_eq_iff.mpr ⟨hc.1.symm, hc.2.symm⟩)
        rw [if_neg hother, hnone, List.map_nil, List.append_nil, ih]

/-! ### The cleaning -/

/-- The scan of a pool looks for the transactions that are not the first of
    their slot. -/
theorem laterConflicts_eq {m : Mempool} {txs : List Transaction}
    (hl : ∀ tx ∈ txs, m.txs.lookup tx.txHash = some tx) (seen : Finset (Address × UInt64)) :
    laterConflicts m (txs.map Transaction.txHash) seen =
      (repeats Transaction.senderNonce seen txs).map Transaction.txHash := by
  induction txs generalizing seen with
  | nil => rfl
  | cons tx txs ih =>
      rw [List.forall_mem_cons] at hl
      rw [List.map_cons]
      unfold laterConflicts repeats
      rw [hl.1]
      change (if tx.senderNonce ∈ seen then _ else _) = _
      by_cases hseen : tx.senderNonce ∈ seen
      · rw [if_pos hseen, if_pos hseen, List.map_cons, ih hl.2]
      · rw [if_neg hseen, if_neg hseen]
        exact ih hl.2 _

theorem slot_removeTxHash {m : Mempool} {h k : String} {s : Address} {n : UInt64} :
    (m.removeTxHash h).slot s n = some k ↔ m.slot s n = some k ∧
      ∀ tx, m.txs.lookup h = some tx → tx.senderNonce ≠ (s, n) := by
  cases hl : m.txs.lookup h with
  | none =>
      have hsame : (m.removeTxHash h).slot s n = m.slot s n := by
        simp only [slot, removeTxHash, hl]
      rw [hsame]
      refine ⟨fun hs => ⟨hs, fun tx hc => ?_⟩, And.left⟩
      exact absurd hc (by simp only [reduceCtorEq, not_false_eq_true])
  | some tx =>
      have hclear : (m.removeTxHash h).slot s n =
          if s = tx.sender ∧ n = tx.nonce then none else m.slot s n := by
        simp only [slot, removeTxHash, hl, slot_clearSlot]
      rw [hclear]
      -- The slot is freed by its name, even if another id is in it.
      by_cases hat : s = tx.sender ∧ n = tx.nonce
      · rw [if_pos hat]
        constructor
        · intro hs
          exact absurd hs (by simp only [reduceCtorEq, not_false_eq_true])
        · intro hs
          exact absurd (Transaction.senderNonce_eq_iff.mpr ⟨hat.1.symm, hat.2.symm⟩) (hs.2 tx rfl)
      · rw [if_neg hat]
        refine ⟨fun hs => ⟨hs, fun ty hty hc => hat ?_⟩, And.left⟩
        rw [Option.some.injEq] at hty
        rw [← hty, Transaction.senderNonce_eq_iff] at hc
        exact ⟨hc.1.symm, hc.2.symm⟩

/-- Removals clear the slots of what they remove, whatever id is in them. -/
theorem slot_removeAll {m : Mempool} {hashes : Multiset String} {k : String} {s : Address}
    {n : UInt64} :
    (m.removeAll hashes).slot s n = some k ↔ m.slot s n = some k ∧
      ∀ h ∈ hashes, ∀ tx, m.txs.lookup h = some tx → tx.senderNonce ≠ (s, n) := by
  induction hashes using Multiset.induction_on generalizing m with
  | empty =>
      refine ⟨fun hs => ⟨hs, fun h hh => ?_⟩, And.left⟩
      exact absurd hh (Multiset.notMem_zero h)
  | cons h hashes ih =>
      rw [removeAll_cons, ih, slot_removeTxHash, and_assoc]
      refine and_congr_right fun _ => ?_
      constructor
      · intro hs k hk tx hl
        -- An id that is listed twice removes nothing the second time.
        by_cases hkh : k = h
        · exact hs.1 tx (hkh ▸ hl)
        · exact hs.2 k ((Multiset.mem_cons.mp hk).resolve_left hkh) tx
            (lookup_removeTxHash.mpr ⟨hkh, hl⟩)
      · intro hs
        refine ⟨hs h (Multiset.mem_cons_self h hashes), fun k hk tx hl => ?_⟩
        exact hs k (Multiset.mem_cons_of_mem hk) tx (lookup_removeTxHash.mp hl).2

/-- The pool that is left of a queue. -/
def cleaned (m : Mempool) (txs : List Transaction) : Mempool :=
  (m.restoreFifo txs).dropLaterSenderNonceConflictsKeepFifoFirst.2

section Cleaned

variable (m : Mempool) {txs : List Transaction} (hids : (txs.map Transaction.txHash).Nodup)

include hids

theorem laterConflicts_restoreFifo :
    laterConflicts (m.restoreFifo txs) (m.restoreFifo txs).order ∅ =
      (repeats Transaction.senderNonce ∅ txs).map Transaction.txHash := by
  rw [order_restoreFifo]
  exact laterConflicts_eq (fun tx htx => (lookup_restoreFifo m hids).mpr ⟨htx, rfl⟩) ∅

theorem mem_laterConflicts {tx : Transaction} (htx : tx ∈ txs) :
    tx.txHash ∈ laterConflicts (m.restoreFifo txs) (m.restoreFifo txs).order ∅ ↔
      tx ∈ repeats Transaction.senderNonce ∅ txs := by
  rw [laterConflicts_restoreFifo m hids, List.mem_map]
  constructor
  · intro h
    rcases h with ⟨ty, hty, hid⟩
    rwa [List.inj_on_of_nodup_map hids (mem_of_mem_repeats hty) htx hid] at hty
  · intro h
    exact ⟨tx, h, rfl⟩

/-- What is left are the transactions that come first for their slot. -/
theorem lookup_dropLater {h : String} {tx : Transaction} :
    (m.cleaned txs).txs.lookup h = some tx ↔ (tx ∈ txs ∧ tx.txHash = h) ∧
      txs.find? (fun ty => ty.senderNonce = tx.senderNonce) = some tx := by
  change ((m.restoreFifo txs).removeAll (laterConflicts (m.restoreFifo txs)
    (m.restoreFifo txs).order ∅ : Multiset String)).txs.lookup h = some tx ↔ _
  rw [lookup_removeAll, lookup_restoreFifo m hids, and_comm, Multiset.mem_coe]
  refine and_congr_right fun htx => ?_
  rw [← htx.2, mem_laterConflicts m hids htx.1,
    mem_repeats_iff_find (List.Nodup.of_map _ hids) htx.1, not_not]

theorem mem_cleaned {tx : Transaction} (htx : tx ∈ txs) :
    tx.txHash ∈ (m.cleaned txs).txs ↔
      txs.find? (fun ty => ty.senderNonce = tx.senderNonce) = some tx := by
  constructor
  · intro h
    rcases Finmap.mem_iff.mp h with ⟨ty, hty⟩
    rcases (lookup_dropLater m hids).mp hty with ⟨⟨hin, hid⟩, hfind⟩
    rwa [List.inj_on_of_nodup_map hids hin htx hid] at hfind
  · intro h
    exact Finmap.mem_iff.mpr ⟨tx, (lookup_dropLater m hids).mpr ⟨⟨htx, rfl⟩, h⟩⟩

/-- No transaction is dropped from a slot unless the queue had two for it. -/
theorem laterConflicts_free_iff {s : Address} {n : UInt64} :
    (∀ k ∈ (laterConflicts (m.restoreFifo txs) (m.restoreFifo txs).order ∅ : Multiset String),
      ∀ tx, (m.restoreFifo txs).txs.lookup k = some tx → tx.senderNonce ≠ (s, n)) ↔
      ¬ 2 ≤ (txs.filter fun tx => tx.senderNonce = (s, n)).length := by
  rw [← exists_repeats_iff]
  constructor
  · intro hk hc
    rcases hc with ⟨tx, htx, hat⟩
    have hin := mem_of_mem_repeats htx
    exact hk tx.txHash (Multiset.mem_coe.mpr ((mem_laterConflicts m hids hin).mpr htx)) tx
      ((lookup_restoreFifo m hids).mpr ⟨hin, rfl⟩) hat
  · intro hc k hk tx hl hat
    rcases (lookup_restoreFifo m hids).mp hl with ⟨hin, hid⟩
    rw [Multiset.mem_coe, ← hid, mem_laterConflicts m hids hin] at hk
    exact hc ⟨tx, hk, hat⟩

/-- A slot is filled when the queue had one transaction for it, and empty when
    it had none or several. -/
theorem slot_dropLater {s : Address} {n : UInt64} {h : String} :
    (m.cleaned txs).slot s n = some h ↔
      (txs.filter fun tx => tx.senderNonce = (s, n)).map Transaction.txHash = [h] := by
  change ((m.restoreFifo txs).removeAll (laterConflicts (m.restoreFifo txs)
    (m.restoreFifo txs).order ∅ : Multiset String)).slot s n = some h ↔ _
  rw [slot_removeAll, laterConflicts_free_iff m hids, slot_restoreFifo]
  -- By the number of transactions for the slot: none, one, or several.
  cases txs.filter fun tx => tx.senderNonce = (s, n) with
  | nil =>
      simp only [List.map_nil, List.getLast?_nil, reduceCtorEq, false_and, List.ne_cons_self]
  | cons tx rest =>
      cases rest with
      | nil =>
          simp only [List.map_cons, List.map_nil, List.getLast?_singleton, Option.some.injEq,
            List.length_singleton, List.cons.injEq, and_true]
          exact and_iff_left (by omega)
      | cons ty rest =>
          simp only [List.length_cons, List.map_cons, List.cons.injEq, reduceCtorEq, and_false,
            iff_false, not_and, not_not]
          intro _
          omega

/-- The queue that is left, in order. -/
theorem cloneFifo_dropLater :
    (m.cleaned txs).cloneFifo = txs.filter fun tx =>
      txs.find? (fun ty => ty.senderNonce = tx.senderNonce) = some tx := by
  -- What is left of the order are the ids that are still held.
  have horder : (m.cleaned txs).order =
      (txs.map Transaction.txHash).filter fun h => h ∈ (m.cleaned txs).txs := by
    rw [← order_restoreFifo m txs]
    exact congrArg (List.filter _) (removeAll_keeps (m.restoreFifo txs)
      (laterConflicts (m.restoreFifo txs) (m.restoreFifo txs).order ∅ : Multiset String)).1
  have hone : ∀ tx ∈ txs,
      (if tx.txHash ∈ (m.cleaned txs).txs then (m.cleaned txs).txs.lookup tx.txHash else none) =
        Option.guard
          (fun tx => txs.find? (fun ty => ty.senderNonce = tx.senderNonce) = some tx) tx := by
    intro tx htx
    -- It is held if it is the first for its slot.
    by_cases hfirst : txs.find? (fun ty => ty.senderNonce = tx.senderNonce) = some tx
    · have hl := (lookup_dropLater m hids).mpr ⟨⟨htx, rfl⟩, hfirst⟩
      rw [if_pos (Finmap.mem_iff.mpr ⟨tx, hl⟩), hl]
      exact (if_pos (decide_eq_true hfirst)).symm
    · rw [if_neg (mt (mem_cleaned m hids htx).mp hfirst)]
      exact (if_neg (by simpa only [decide_eq_true_eq] using hfirst)).symm
  unfold cloneFifo
  rw [horder, List.filterMap_filter, List.filterMap_map, ← List.filterMap_eq_filter]
  refine List.filterMap_congr fun tx htx => ?_
  rw [← hone tx htx]
  simp only [Function.comp_apply, decide_eq_true_eq]

/-- The first of several transactions for a slot is in the pool, and the slot is
    empty. -/
theorem held_of_conflict {s : Address} {n : UInt64}
    (htwo : 2 ≤ (txs.filter fun tx => tx.senderNonce = (s, n)).length) :
    (∃ tx, (m.cleaned txs).txs.lookup tx.txHash = some tx ∧ tx.senderNonce = (s, n)) ∧
      (m.cleaned txs).slot s n = none := by
  refine ⟨?_, ?_⟩
  · rcases exists_repeats_iff.mpr htwo with ⟨tx, htx, hat⟩
    have hin := mem_of_mem_repeats htx
    -- The search for the slot finds something, and what it finds is kept.
    cases hfind : txs.find? (fun ty => ty.senderNonce = (s, n)) with
    | none => exact absurd (decide_eq_true hat) (List.find?_eq_none.mp hfind tx hin)
    | some first =>
        have hat' := List.find?_some hfind
        have hfirst : first.senderNonce = (s, n) := of_decide_eq_true hat'
        refine ⟨first, (lookup_dropLater m hids).mpr
          ⟨⟨List.mem_of_find?_eq_some hfind, rfl⟩, ?_⟩, hfirst⟩
        rw [hfirst]
        exact hfind
  · -- Several ids are never the list of one.
    rw [Option.eq_none_iff_forall_ne_some]
    intro h hc
    have hlen := congrArg List.length ((slot_dropLater m hids).mp hc)
    rw [List.length_map, List.length_singleton] at hlen
    omega

/-- Without conflicts the index is right. -/
theorem indexExact_of_nodup (hslots : (txs.map Transaction.senderNonce).Nodup) :
    (m.cleaned txs).IndexExact := by
  have hone := nodup_keys_iff.mp hslots
  intro s n h
  rw [slot_dropLater m hids]
  constructor
  · intro hs
    rcases List.map_eq_singleton_iff.mp hs with ⟨tx, htx, hid⟩
    have hmem : tx ∈ txs.filter fun tx => tx.senderNonce = (s, n) := by
      rw [htx]
      exact List.mem_cons_self
    rcases List.mem_filter.mp hmem with ⟨hin, hat⟩
    have hsn := of_decide_eq_true hat
    refine ⟨tx, (lookup_dropLater m hids).mpr ⟨⟨hin, hid⟩, ?_⟩,
      Transaction.senderNonce_eq_iff.mp hsn⟩
    rw [hsn, ← List.head?_filter, htx, List.head?_cons]
  · intro hh
    rcases hh with ⟨tx, hl, hsn⟩
    rcases (lookup_dropLater m hids).mp hl with ⟨⟨hin, hid⟩, _⟩
    have hmem : tx ∈ txs.filter fun tx => tx.senderNonce = (s, n) :=
      List.mem_filter.mpr ⟨hin, decide_eq_true (Transaction.senderNonce_eq_iff.mpr hsn)⟩
    -- There is one transaction for the slot, so its id is the one in it.
    have hpos := List.length_pos_of_mem hmem
    have hle := hone (s, n)
    rcases List.length_eq_one_iff.mp (by omega :
      (txs.filter fun tx => tx.senderNonce = (s, n)).length = 1) with ⟨ty, hty⟩
    rw [hty, List.mem_singleton] at hmem
    rw [hty, List.map_singleton, ← hmem, hid]

end Cleaned

/-- With a right index, occupied slots are refused. -/
theorem IndexExact.refusesOccupied [Primitives] {m : Mempool} (hm : m.IndexExact) :
    m.RefusesOccupied := by
  intro tx h old hvalid hnew hl hs hn
  have hslot := (hm tx.sender tx.nonce h).mpr ⟨old, hl, hs, hn⟩
  have hne : h ≠ tx.txHash := by
    intro hc
    exact hnew (Finmap.mem_iff.mpr ⟨old, hc ▸ hl⟩)
  have hconflict : m.conflicts tx = true := by
    unfold slot at hslot
    unfold conflicts
    rw [hslot]
    exact bne_iff_ne.mpr hne
  unfold trySubmit
  rw [hvalid, attempt, if_neg hnew, if_pos hconflict]

/-- A submission to an empty slot is not refused for a conflict. -/
theorem trySubmit_of_slot_none [Primitives] {m : Mempool} {tx : Transaction}
    (hvalid : tx.basicValidate = .ok ()) (hnew : tx.txHash ∉ m.txs)
    (hslot : m.slot tx.sender tx.nonce = none) :
    (m.trySubmit tx).1 ≠ .error .mempoolNonceConflict := by
  have hconflict : ¬ m.conflicts tx = true := Bool.eq_false_iff.mp (conflicts_of_slot hslot)
  unfold trySubmit
  rw [hvalid, attempt, if_neg hnew, if_neg hconflict]
  by_cases hfull : (makeRoom (m.len + 1) m).capacity ≤ (makeRoom (m.len + 1) m).len
  · simp only [if_pos hfull, ne_eq, Except.error.injEq, reduceCtorEq, not_false_eq_true]
  · simp only [if_neg hfull, ne_eq, reduceCtorEq, not_false_eq_true]

/-- The cleaning of a queue leaves, in order, the first transaction for each
    sender and nonce, and a filled slot where there was only one. The index is
    right, and occupied slots are refused, exactly if the queue had no conflict. -/
theorem dropLater_restores_iff [Primitives] (m : Mempool) (txs : List Transaction)
    (hvalid : ∀ tx ∈ txs, tx.basicValidate = .ok ())
    (hids : (txs.map Transaction.txHash).Nodup) :
    (m.cleaned txs).cloneFifo = (txs.filter fun tx =>
      txs.find? (fun ty => ty.senderNonce = tx.senderNonce) = some tx) ∧
    (∀ s n h, (m.cleaned txs).slot s n = some h ↔
      (txs.filter fun tx => tx.senderNonce = (s, n)).map Transaction.txHash = [h]) ∧
    ((m.cleaned txs).IndexExact ↔ (txs.map Transaction.senderNonce).Nodup) ∧
    ((m.cleaned txs).RefusesOccupied ↔ (txs.map Transaction.senderNonce).Nodup) := by
  refine ⟨cloneFifo_dropLater m hids, fun s n h => slot_dropLater m hids, ?_, ?_⟩
  · refine ⟨fun hexact => ?_, indexExact_of_nodup m hids⟩
    rw [nodup_keys_iff]
    intro ⟨s, n⟩
    -- Two for one slot would leave one held and the slot empty.
    by_contra htwo
    rcases held_of_conflict m hids (Nat.not_le.mp htwo) with ⟨⟨tx, hl, hat⟩, hnone⟩
    have hslot := (hexact s n tx.txHash).mpr ⟨tx, hl, Transaction.senderNonce_eq_iff.mp hat⟩
    rw [hnone] at hslot
    exact absurd hslot (by simp only [reduceCtorEq, not_false_eq_true])
  · refine ⟨fun hrefuses => ?_, fun h => (indexExact_of_nodup m hids h).refusesOccupied⟩
    rw [nodup_keys_iff]
    intro ⟨s, n⟩
    by_contra hle
    have htwo : 2 ≤ (txs.filter fun tx => tx.senderNonce = (s, n)).length := Nat.not_le.mp hle
    rcases held_of_conflict m hids htwo with ⟨⟨tx, hl, hat⟩, hnone⟩
    -- A later transaction for the slot is not in the pool, and is let in.
    rcases exists_repeats_iff.mpr htwo with ⟨ty, hty, hat'⟩
    have hin := mem_of_mem_repeats hty
    have hnew : ty.txHash ∉ (m.cleaned txs).txs := by
      rw [mem_cleaned m hids hin]
      exact (mem_repeats_iff_find (List.Nodup.of_map _ hids) hin).mp hty
    rcases Transaction.senderNonce_eq_iff.mp hat with ⟨hs, hn⟩
    rcases Transaction.senderNonce_eq_iff.mp hat' with ⟨hs', hn'⟩
    have hrefused := hrefuses ty tx.txHash tx (hvalid ty hin) hnew hl (by rw [hs, hs'])
      (by rw [hn, hn'])
    exact trySubmit_of_slot_none (hvalid ty hin) hnew (by rw [hs', hn', hnone])
      (congrArg Prod.fst hrefused)

end Mempool

/-! ### A sample conflict -/

namespace Sample

/-- Another payment of the same sender, with the same nonce. -/
def rival : Transaction :=
  let tx : Transaction := { payment with amount := 6 }
  { tx with txHash := tx.computeTxHash }

/-- Of two payments with one nonce the first is kept, its slot is empty, and the
    second is let in again. -/
theorem conflict_reopens_slot :
    (∀ tx ∈ [payment, rival], tx.basicValidate = .ok ()) ∧
      ([payment, rival].map Transaction.txHash).Nodup ∧
      [payment, rival].length ≤ (Mempool.new 10).capacity ∧
      ((Mempool.new 10).cleaned [payment, rival]).cloneFifo = [payment] ∧
      ((Mempool.new 10).cleaned [payment, rival]).slot payer 0 = none ∧
      ¬ ((Mempool.new 10).cleaned [payment, rival]).IndexExact ∧
      ¬ ((Mempool.new 10).cleaned [payment, rival]).RefusesOccupied ∧
      (((Mempool.new 10).cleaned [payment, rival]).trySubmit rival).1 = .ok () := by
  have hrun : (∀ tx ∈ [payment, rival], tx.basicValidate = .ok ()) ∧
      ([payment, rival].map Transaction.txHash).Nodup ∧
      ((Mempool.new 10).cleaned [payment, rival]).cloneFifo = [payment] ∧
      ((Mempool.new 10).cleaned [payment, rival]).slot payer 0 = none ∧
      ((Mempool.new 10).cleaned [payment, rival]).txs.lookup payment.txHash = some payment ∧
      rival.txHash ∉ ((Mempool.new 10).cleaned [payment, rival]).txs ∧
      (((Mempool.new 10).cleaned [payment, rival]).trySubmit rival).1 = .ok () := by
    decide +kernel
  rcases hrun with ⟨hvalid, hids, hqueue, hslot, hheld, hnew, hsubmit⟩
  refine ⟨hvalid, hids, by decide, hqueue, hslot, ?_, ?_, hsubmit⟩
  · intro hexact
    have hc := (hexact payer 0 payment.txHash).mpr ⟨payment, hheld, rfl, rfl⟩
    rw [hslot] at hc
    exact absurd hc (by simp only [reduceCtorEq, not_false_eq_true])
  · intro hrefuses
    have hc := hrefuses rival payment.txHash payment
      (hvalid rival (List.mem_cons_of_mem _ List.mem_cons_self)) hnew hheld rfl rfl
    rw [hc] at hsubmit
    exact absurd hsubmit (by simp only [reduceCtorEq, not_false_eq_true])

/-- A queue of two payments of one account and one of another, with three
    different slots, is put back with a right index. -/
theorem restored_payments :
    ((Mempool.new 10).cleaned [payment, paymentOf key 1, paymentOf otherKey 0]).IndexExact ∧
      ((Mempool.new 10).cleaned
        [payment, paymentOf key 1, paymentOf otherKey 0]).RefusesOccupied := by
  have hslots : ([payment, paymentOf key 1, paymentOf otherKey 0].map
      Transaction.senderNonce).Nodup := by
    decide
  have h := Mempool.dropLater_restores_iff (Mempool.new 10)
    [payment, paymentOf key 1, paymentOf otherKey 0] (by decide +kernel) (by decide +kernel)
  exact ⟨h.2.2.1.mpr hslots, h.2.2.2.mpr hslots⟩

end Sample

end Trilogicon
