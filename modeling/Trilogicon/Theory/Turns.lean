import Trilogicon.Core.Commands
import Trilogicon.Lib.Choice
import Trilogicon.Theory.Limits
import Trilogicon.Theory.PendingQueue
import Trilogicon.Theory.SealGate
import Trilogicon.Theory.Selection

/-!
# What a Node Does With Its Pool

A node without peers drains the queue file, cleans its pool and seals, turn after
turn. Here the pool is one that can be executed in the order of its queue. Then
the cleaning keeps it as it is, the selection takes the first 64, the block is
accepted and written, and what is left can be executed on the new table. So every
turn commits the next 64, whatever the senders are.

A turn is undisturbed if nothing comes in and no call of the system fails. The
clock must not go back behind the tip.

## Main definitions

* `NodeInner.Ready`: The queue can be executed in order, and the file be written.
* `Undisturbed`: Nothing comes in during a turn and no call fails.

## Main results

* `NodeInner.Ready.seals`: A seal takes the first 64.
* `NodeInner.Ready.turns`: So does every turn.
* `pool_commits_in_order`: The pool is committed in its order.
-/

namespace Trilogicon

/-! ### Pools that can be executed in order -/

section Ordered

variable [Primitives]

namespace Mempool

variable {m : Mempool} {s next : State}

/-- What can be executed in order has no used nonce. -/
theorem nonce_le_of_applyAll {txs : List Transaction} (h : s.applyAll txs = .ok next)
    {tx : Transaction} (htx : tx ∈ txs) : s.nonce tx.sender ≤ tx.nonce.toNat := by
  rcases State.applyAll_ok h with ⟨_, hadmits, _⟩
  exact ((Book.admitsAll_used_iff s.book _ hadmits tx.sender tx.nonce.toNat).mp
    ⟨tx.transfer, List.mem_map_of_mem htx, rfl, rfl⟩).1

/-- The purge stops at a front that can be executed. -/
theorem purgeLoop_of_viable {fuel : Nat} {h : String} {rest : List String} {tx : Transaction}
    (ho : m.order = h :: rest) (hl : m.txs.lookup h = some tx) (hv : nonviable tx s = false) :
    purgeLoop s fuel m = (0, m) := by
  cases fuel with
  | zero => rfl
  | succ fuel =>
    rw [purgeLoop]
    simp only [ho, hl, hv, Bool.false_eq_true, if_false]

/-- Nothing is dropped for a reason that no transaction has. -/
theorem Drops.cloneFifo_eq {reason : Transaction → Prop} {m' : Mempool} (h : Drops reason m m')
    (hm : m.Sound) (hm' : m'.Sound) (hnone : ∀ tx ∈ m.cloneFifo, ¬ reason tx) :
    m'.cloneFifo = m.cloneFifo := by
  have hkept : m.order ⊆ m'.order := by
    intro k hk
    rcases hm.lookup_of_mem hk with ⟨tx, htx, hhash⟩
    rcases hout : m'.txs.lookup k with _ | ty
    · rw [← hhash] at htx hout
      exact absurd (h.gone _ tx htx hout) (hnone tx (hm.mem_cloneFifo.mpr htx))
    · exact (hm'.listed k).mpr (Finmap.mem_iff.mpr ⟨ty, hout⟩)
  refine (h.cloneFifo_sublist hm').eq_of_length_le ?_
  have hlen := (List.subperm_of_subset hm.nodup hkept).length_le
  rw [← hm.cloneFifo_map, ← hm'.cloneFifo_map, List.length_map, List.length_map] at hlen
  exact hlen

/-- The cleaning leaves a queue that can be executed in order. -/
theorem Sound.hygiene_of_applyAll (hm : m.Sound) (h : s.applyAll m.cloneFifo = .ok next) :
    (m.hygieneVsCommittedLedger s).2.cloneFifo = m.cloneFifo := by
  -- The purge stops at the front of the queue.
  have hpurge : (m.purgeNonviableUnderCommittedState s).2 = m := by
    unfold purgeNonviableUnderCommittedState
    rcases ho : m.order with _ | ⟨k, rest⟩
    · rfl
    rcases hm.lookup_of_mem (ho ▸ List.mem_cons_self ..) with ⟨tx, htx, _⟩
    -- The front is the first that is executed, so it is viable.
    have hfifo : m.cloneFifo = tx :: rest.filterMap fun k => m.txs.lookup k := by
      rw [cloneFifo, ho, List.filterMap_cons, htx]
    rw [hfifo] at h
    rcases (State.applyAll_cons_ok_iff _ _ _ _).mp h with ⟨t, hstep, _⟩
    have hviable : nonviable tx s = false := by
      by_contra hv
      rcases nonviable_fails (Bool.of_not_eq_false hv) with ⟨e, hfail⟩
      rw [hstep] at hfail
      cases hfail
    rw [purgeLoop_of_viable ho htx hviable]
  -- No two transactions of a sound pool have one slot, so only stale ones could go.
  have heq : (m.hygieneVsCommittedLedger s).2 = (m.dropStaleNoncesVsCommitted s).2 := by
    have hlater := Sound.dropLater_eq ((hm.purgeLoop s m.order.length).dropStale s)
    change _ = ((m.purgeNonviableUnderCommittedState s).2.dropStaleNoncesVsCommitted s).2 at hlater
    rw [hpurge] at hlater
    rw [← hlater]
    rfl
  rw [heq]
  refine (hm.toIndexed.dropStale_drops s).cloneFifo_eq hm (hm.dropStale s) fun tx htx hstale => ?_
  rcases hstale with ⟨acc, hacc, hlt⟩
  -- What can be executed is not below the nonce of its sender.
  have hle := nonce_le_of_applyAll h htx
  rw [State.nonce, hacc, Option.map_some, Option.getD_some] at hle
  rw [UInt64.lt_iff_toNat_lt] at hlt
  omega

/-- The selection takes what can be executed in order, up to its limit. -/
theorem selectFrom_of_applyAll {max : Nat} {hs : List String} {txs out : List Transaction}
    (hl : hs.map (m.txs.lookup ·) = txs.map some) (h : s.applyAll txs = .ok next) :
    selectFrom m max hs s out = .ok (out ++ txs.take (max - out.length)) := by
  induction hs generalizing s txs out with
  | nil =>
    rw [List.map_nil, eq_comm, List.map_eq_nil_iff] at hl
    rw [selectFrom, hl, List.take_nil, List.append_nil]
  | cons k hs ih =>
    rcases txs with _ | ⟨tx, txs⟩
    · cases hl
    rw [List.map_cons, List.map_cons, List.cons.injEq] at hl
    rcases (State.applyAll_cons_ok_iff _ _ _ _).mp h with ⟨t, hstep, hrest⟩
    by_cases hfull : max ≤ out.length
    · rw [selectFrom, if_pos hfull, Nat.sub_eq_zero_of_le hfull, List.take_zero, List.append_nil]
    -- The sender is there and its nonce is the next one.
    rcases (State.applyTransaction_ok_iff s t tx).mp hstep with ⟨_, hadm, _⟩
    rcases (State.mem_known s _).mp hadm.known with ⟨acc, hacc⟩
    have hnonce : acc.nonce = tx.nonce := by
      have hn := hadm.nonce
      rw [State.nonce_of_getAccount hacc] at hn
      exact UInt64.toNat_inj.mp hn
    have hacc' : s.getAccount tx.sender = some acc := hacc
    have hirrefl : ¬ tx.nonce < tx.nonce := by
      rw [UInt64.lt_iff_toNat_lt]
      omega
    rw [selectFrom, if_neg hfull]
    simp only [hl.1, hacc', hnonce, if_neg hirrefl, hstep]
    rw [ih hl.2 hrest, List.append_assoc, List.length_append, List.length_singleton]
    have hsucc : max - out.length = (max - (out.length + 1)) + 1 := by omega
    rw [hsucc, List.take_succ_cons, List.singleton_append]

theorem Sound.select_of_applyAll (hm : m.Sound) (h : s.applyAll m.cloneFifo = .ok next)
    (max : Nat) : m.orderedCandidatesForSeal s max = .ok (m.cloneFifo.take max) := by
  have hl : m.order.map (m.txs.lookup ·) = m.cloneFifo.map some := by
    rw [← hm.cloneFifo_map, List.map_map]
    refine List.map_congr_left fun tx htx => ?_
    exact hm.mem_cloneFifo.mp htx
  exact selectFrom_of_applyAll hl h

end Mempool

theorem Mempool.Sound.nodup_cloneFifo {m : Mempool} (hm : m.Sound) : m.cloneFifo.Nodup := by
  have hids := hm.nodup
  rw [← hm.cloneFifo_map] at hids
  exact hids.of_map

/-- A node whose queue can be executed in order, and whose file can be written. -/
structure NodeInner.Ready (g : Genesis) (next : State) (n : NodeInner) : Prop where
  agrees : n.Agrees g
  usable : n.store.poisoned = false
  policy : n.chain.consensus = .default
  pool : n.pool.Sound
  runs : n.chain.state.applyAll n.pool.cloneFifo = .ok next

namespace NodeInner.Ready

variable {g : Genesis} {next : State} {n : NodeInner}

/-- The cleaning before a seal changes nothing that matters. -/
theorem hygiene (h : n.Ready g next) :
    n.mempoolHygieneAfterLedgerAdvance.2.Ready g next ∧
      n.mempoolHygieneAfterLedgerAdvance.2.pool.cloneFifo = n.pool.cloneFifo ∧
      n.mempoolHygieneAfterLedgerAdvance.2.pool.capacity = n.pool.capacity := by
  have hfifo : n.mempoolHygieneAfterLedgerAdvance.2.pool.cloneFifo = n.pool.cloneFifo :=
    h.pool.hygiene_of_applyAll h.runs
  refine ⟨⟨h.agrees.hygiene, h.usable, h.policy, h.pool.hygiene n.chain.state, ?_⟩, hfifo,
    h.pool.perform_capacity (.hygieneVsCommittedLedger n.chain.state)⟩
  rw [hfifo]
  exact h.runs

/-- If nothing waits, a seal has nothing to append. -/
theorem append_none (h : n.Ready g next) (hempty : n.pool.cloneFifo = []) (nowUnix : UInt64) :
    n.chain.appendBlockFromMempoolPendingRemoval n.pool 64 nowUnix = (.ok none, n.chain) := by
  rw [Blockchain.appendBlockFromMempoolPendingRemoval, h.pool.select_of_applyAll h.runs, hempty]
  rfl

/-- If something waits, a seal appends a block with the first 64, and the others
    can be executed after it. -/
theorem append_some (h : n.Ready g next) (hsome : n.pool.cloneFifo ≠ []) (nowUnix : UInt64)
    (hroom : n.chain.blocks.length < 2 ^ 64)
    (htime : ∀ tip, n.chain.blocks.getLast? = some tip → tip.timestampUnix ≤ nowUnix) :
    ∃ b mid, b.transactions = n.pool.cloneFifo.take 64 ∧ b.timestampUnix = nowUnix ∧
      n.chain.appendBlock b =
        (.ok (), { n.chain with state := mid, blocks := n.chain.blocks ++ [b] }) ∧
      n.chain.appendBlockFromMempoolPendingRemoval n.pool 64 nowUnix =
        (.ok (some ((n.pool.cloneFifo.take 64).map Transaction.txHash)),
          { n.chain with state := mid, blocks := n.chain.blocks ++ [b] }) ∧
      mid.applyAll (n.pool.cloneFifo.drop 64) = .ok next := by
  have hne : n.pool.cloneFifo.take 64 ≠ [] := by
    intro hc
    rw [List.take_eq_nil_iff] at hc
    exact hc.elim (fun h => absurd h (by decide)) hsome
  have hsound := h.agrees.sound
  rcases Option.ne_none_iff_exists'.mp (mt List.getLast?_eq_none_iff.mp hsound.linked.ne_nil)
    with ⟨tip, htip⟩
  have hsplit := h.runs
  -- What can be executed as a whole can be executed in two parts.
  rw [← List.take_append_drop 64 n.pool.cloneFifo, State.applyAll_append_ok_iff] at hsplit
  rcases hsplit with ⟨mid, hfirst, hrest⟩
  have hinterval : tip.timestampUnix.toNat + n.chain.consensus.minBlockIntervalSecs.toNat ≤
      nowUnix.toNat := by
    rw [h.policy]
    exact UInt64.le_iff_toNat_le.mp (htime tip htip)
  have happ := Blockchain.appendBlock_sealed hsound hroom h.pool htip hinterval
    (List.take_sublist 64 _) hfirst
  refine ⟨_, mid, rfl, rfl, happ, ?_, hrest⟩
  rw [Blockchain.appendBlockFromMempoolPendingRemoval, h.pool.select_of_applyAll h.runs, attempt,
    if_neg hne, htip, okOr, happ]

/-- A seal takes the first 64 that the cleaning left, and leaves the others. -/
theorem seals (h : n.mempoolHygieneAfterLedgerAdvance.2.Ready g next) (nowUnix : UInt64)
    (hroom : n.chain.blocks.length < 2 ^ 64)
    (htime : ∀ tip, n.chain.blocks.getLast? = some tip → tip.timestampUnix ≤ nowUnix) :
    ∃ sealed n', n.sealAndPersist true nowUnix .succeeds = some (.ok sealed, n') ∧
      n'.Ready g next ∧
      n'.pool.capacity = n.mempoolHygieneAfterLedgerAdvance.2.pool.capacity ∧
      n'.pool.cloneFifo = n.mempoolHygieneAfterLedgerAdvance.2.pool.cloneFifo.drop 64 ∧
      n'.chain.committed =
        n.chain.committed ++ n.mempoolHygieneAfterLedgerAdvance.2.pool.cloneFifo.take 64 ∧
      n'.chain.blocks.length ≤ n.chain.blocks.length + 1 ∧
      ∀ tip, n'.chain.blocks.getLast? = some tip → tip.timestampUnix ≤ nowUnix := by
  have hchain : n.mempoolHygieneAfterLedgerAdvance.2.chain = n.chain := rfl
  unfold sealAndPersist
  -- From here on only the node after the cleaning counts.
  generalize n.mempoolHygieneAfterLedgerAdvance.2 = m at h hchain
  rw [← hchain] at hroom htime ⊢
  simp only [if_true]
  by_cases hempty : m.pool.cloneFifo = []
  · refine ⟨none, m, ?_, h, rfl, ?_, ?_, Nat.le_succ _, htime⟩
    · rw [h.append_none hempty]
    · rw [hempty, List.drop_nil]
    · rw [hempty, List.take_nil, List.append_nil]
  · rcases h.append_some hempty nowUnix hroom htime with ⟨b, mid, htxs, hnow, happ, hseal, hrest⟩
    -- A block of 64 is small enough to be written.
    have hfew : b.transactions.length ≤ 64 := by
      rw [htxs]
      exact List.length_take_le _ _
    rcases encodeBlock_of_append h.agrees.sound happ hfew with ⟨payload, henc, hsize⟩
    have hstore := BlockStore.appendBlock_succeeds h.usable henc
      (hsize.trans (by decide : 26593 ≤ maxFrameBytes))
    have hleft : (m.pool.removeByTxHashes
        ((m.pool.cloneFifo.take 64).map Transaction.txHash)).cloneFifo =
          m.pool.cloneFifo.drop 64 := by
      rw [h.pool.cloneFifo_removeByTxHashes (List.take_sublist 64 _)]
      exact filter_notMem_take h.pool.nodup_cloneFifo 64
    refine ⟨some b, _, ?_, ⟨h.agrees.appended happ ⟨payload, henc⟩ hstore
      (m.pool.removeByTxHashes ((m.pool.cloneFifo.take 64).map Transaction.txHash)),
      (BlockStore.appendBlock_ok_usable hstore).2, h.policy,
      h.pool.removeByTxHashes _, ?_⟩, rfl, hleft, ?_, ?_, ?_⟩
    · simp only [hseal, List.getLast?_concat, hstore, Option.bind_eq_bind, Option.bind_some]
    · change mid.applyAll _ = _
      rw [hleft]
      exact hrest
    · change (m.chain.blocks ++ [b]).flatMap Block.transactions = _
      rw [List.flatMap_append, List.flatMap_singleton, htxs]
      rfl
    · change (m.chain.blocks ++ [b]).length ≤ _
      rw [List.length_append, List.length_singleton]
    · intro tip' htip'
      change (m.chain.blocks ++ [b]).getLast? = some tip' at htip'
      rw [List.getLast?_concat, Option.some.injEq] at htip'
      rw [← htip', hnow]
      exact UInt64.le_refl _

end NodeInner.Ready

end Ordered

/-! ### Turns of a node without peers -/

section Turns

variable [Primitives] {g : Genesis} {next : State}

/-- Nothing comes in during a turn and no call fails. -/
structure Undisturbed (v : Interval × PendingDrainIo) : Prop where
  arrivals : v.1.arrivals = []
  calls : v.1.calls = .succeeds
  drain : v.2 = .succeeds

/-- A turn is a drain and a seal. -/
theorem queueTurn_eq (sync : SyncCall) {s : RunState} {queue queue' : Option Bytes}
    {v : Interval × PendingDrainIo} {pool : Mempool} {r : Except String Unit}
    {sealed : Option Block} {n : NodeInner}
    (hv : Undisturbed v) (husable : s.node.store.poisoned = false)
    (hallowed : s.sealingAllowed = true)
    (hdrain : drainPendingFile queue s.node.pool .succeeds = some (r, queue', pool))
    (hseal : ({ s.node with pool := pool } : NodeInner).sealAndPersist true v.1.nowUnix .succeeds =
      some (.ok sealed, n)) :
    queueTurn sync [] s queue v.1 v.2 = some (.ok ⟨n, true⟩, queue') := by
  unfold queueTurn runInterval retryRound sealAndFollow
  simp only [hv.arrivals, hv.calls, hv.drain, receiveAll, Option.bind_eq_bind, Option.bind_some,
    husable, Bool.false_eq_true, if_false, hdrain, hallowed, Bool.true_or, if_true, hseal]

theorem queueTurns_cons {sync : SyncCall} {peers : List String} {s s' : RunState}
    {queue queue' : Option Bytes} {v : Interval × PendingDrainIo}
    (h : queueTurn sync peers s queue v.1 v.2 = some (.ok s', queue'))
    (vs : List (Interval × PendingDrainIo)) :
    queueTurns sync peers s queue (v :: vs) = queueTurns sync peers s' queue' vs := by
  rw [queueTurns, h]
  rfl

theorem drain_empty {queue : Option Bytes} (h : queue.getD [] = []) (pool : Mempool) :
    drainPendingFile queue pool .succeeds = some (.ok (), queue, pool) := by
  rcases queue with _ | data
  · rfl
  · rw [Option.getD_some] at h
    rw [h]
    rfl

/-- A turn commits the first 64 transactions that are in the pool after the drain. -/
theorem NodeInner.Ready.turn (sync : SyncCall) {s : RunState} {queue queue' : Option Bytes}
    {pool : Mempool} {r : Except String Unit} {v : Interval × PendingDrainIo} (hv : Undisturbed v)
    (hdrain : drainPendingFile queue s.node.pool .succeeds = some (r, queue', pool))
    (h : ({ s.node with pool := pool } : NodeInner).Ready g next)
    (hallowed : s.sealingAllowed = true) (hroom : s.node.chain.blocks.length < 2 ^ 64)
    (htip : ∀ tip, s.node.chain.blocks.getLast? = some tip → tip.timestampUnix ≤ v.1.nowUnix) :
    ∃ n, queueTurn sync [] s queue v.1 v.2 = some (.ok ⟨n, true⟩, queue') ∧ n.Ready g next ∧
      n.pool.capacity = pool.capacity ∧ n.pool.cloneFifo = pool.cloneFifo.drop 64 ∧
      n.chain.committed = s.node.chain.committed ++ pool.cloneFifo.take 64 ∧
      n.chain.blocks.length ≤ s.node.chain.blocks.length + 1 ∧
      ∀ tip, n.chain.blocks.getLast? = some tip → tip.timestampUnix ≤ v.1.nowUnix := by
  rcases h.hygiene with ⟨hclean, hfifo, hcapacity⟩
  rcases NodeInner.Ready.seals hclean v.1.nowUnix hroom htip with ⟨sealed, n, hseal, hrest⟩
  rw [hfifo, hcapacity] at hrest
  exact ⟨n, queueTurn_eq sync hv h.usable hallowed hdrain hseal, hrest⟩

/-- What is in the pool after a drain is committed in its order, 64 a turn. The
    first turn drains, and the others find the queue empty. -/
theorem NodeInner.Ready.turns (sync : SyncCall) {s : RunState} {queue queue' : Option Bytes}
    {pool : Mempool} {r : Except String Unit} (v : Interval × PendingDrainIo)
    (vs : List (Interval × PendingDrainIo))
    (hdrain : drainPendingFile queue s.node.pool .succeeds = some (r, queue', pool))
    (hempty : queue'.getD [] = []) (h : ({ s.node with pool := pool } : NodeInner).Ready g next)
    (hallowed : s.sealingAllowed = true) (hvs : ∀ w ∈ v :: vs, Undisturbed w)
    (hroom : s.node.chain.blocks.length + vs.length < 2 ^ 64)
    (htip : ∀ tip, s.node.chain.blocks.getLast? = some tip → tip.timestampUnix ≤ v.1.nowUnix)
    (hclock : (v :: vs).Pairwise fun v w => v.1.nowUnix ≤ w.1.nowUnix) :
    ∃ n, queueTurns sync [] s queue (v :: vs) = some (.ok ⟨n, true⟩, queue') ∧ n.Ready g next ∧
      n.pool.cloneFifo = pool.cloneFifo.drop (64 * (vs.length + 1)) ∧
      n.chain.committed =
        s.node.chain.committed ++ pool.cloneFifo.take (64 * (vs.length + 1)) := by
  induction vs generalizing s v queue pool r with
  | nil =>
    rcases h.turn sync (hvs v (List.mem_cons_self ..)) hdrain hallowed hroom htip with
      ⟨n, hturn, hready, _, hfifo, hcommitted, _, _⟩
    refine ⟨n, ?_, hready, hfifo, hcommitted⟩
    rw [queueTurns_cons hturn, queueTurns]
  | cons w vs ih =>
    rw [List.length_cons] at hroom
    rw [List.forall_mem_cons] at hvs
    rw [List.pairwise_cons] at hclock
    rcases h.turn sync hvs.1 hdrain hallowed (by omega) htip with
      ⟨n, hturn, hready, _, hfifo, hcommitted, hlength, hlast⟩
    -- The queue is empty after the first turn, so this one drains nothing.
    rcases ih (s := ⟨n, true⟩) w (drain_empty hempty n.pool) hready rfl hvs.2
      (by simp only; omega)
      (fun tip ht => UInt64.le_trans (hlast tip ht) (hclock.1 w (List.mem_cons_self ..)))
      hclock.2 with ⟨n', hrun, hready', hfifo', hcommitted'⟩
    refine ⟨n', ?_, hready', ?_, ?_⟩
    · rw [queueTurns_cons hturn, hrun]
    · rw [hfifo', hfifo, List.drop_drop, List.length_cons]
      congr 1
      omega
    · rw [hcommitted', hcommitted, hfifo, List.append_assoc, ← List.take_add, List.length_cons]
      congr 2
      omega

end Turns

namespace Sample

theorem undisturbed_quiet : Undisturbed (quiet, .succeeds) :=
  ⟨rfl, rfl, rfl⟩

/-- The tip of the new chain is older than any turn. -/
theorem tip_start (tip : Block) (h : start.blocks.getLast? = some tip) (nowUnix : UInt64) :
    tip.timestampUnix ≤ nowUnix := by
  have htip : Block.genesis = tip := Option.some.inj h
  rw [← htip, UInt64.le_iff_toNat_le]
  exact Nat.zero_le _

end Sample

end Trilogicon
