import Trilogicon.Theory.Exchange
import Trilogicon.Theory.Limits
import Trilogicon.Theory.Selection

/-!
# Block Times

The time of a block is written by whoever made it, and every later block must be
at least as late. So a block with a late time holds up a node that seals by its
own clock, until the clock has caught up.

The only limit is the drift that a node allows for blocks of others.
`stall_bounded` says that it is one: when all clock readings of a run were at most
`T`, a seal is held up no longer than `T` and the drift. `stall_attained` says that
it is the only one: an empty block at any time within the drift is accepted from
any peer, costs nobody anything, and no seal before its time adds a block, whatever
else happens. Under the default policy there is no limit on the drift, so one block
with the largest time ends sealing for good.

Both follow from what an event does to the time of the tip. It lets in no block that
is late by its clock, and no block at all takes the tip back.

## Main definitions

* `Blockchain.UpTo`: The tip is at most at a time, under a policy.
* `Blockchain.Past`: The tip is at least at a time, under a policy.
* `NodeEvent.ReadsUpTo`: The clock readings of an event are at most a time.

## Theorems

* `timestamps_ok`: What the rule between a block and its parent asks for.
* `Blockchain.UpTo.event`, `Blockchain.UpTo.events`: Events let in no late block.
* `Blockchain.Past.keeping`: The tip stays past a time.
* `sealAndPersist_cases`: A seal returns a block or leaves the chain alone.
* `seal_early`: A seal before its time does nothing.
* `stall_bounded`: A seal is held up by the drift at most.
* `stall_attained`: Any peer can hold it up for as long as that.
-/

namespace Trilogicon

section Clock

/-- What the rule between a block and its parent asks for. -/
theorem timestamps_ok {parent b : Block} {params : ConsensusParams}
    (h : validateBlockTimestampsVsParent parent b params = .ok ()) :
    parent.timestampUnix.toNat + params.minBlockIntervalSecs.toNat ≤ b.timestampUnix.toNat := by
  unfold validateBlockTimestampsVsParent at h
  rcases hsum : checkedAdd parent.timestampUnix params.minBlockIntervalSecs with _ | least
  · simp only [hsum, reduceCtorEq] at h
  · have hleast := checkedAdd_eq_some.mp hsum
    simp only [hsum] at h
    by_cases hearly : b.timestampUnix < least
    · simp only [if_pos hearly, reduceCtorEq] at h
    · rw [UInt64.lt_iff_toNat_lt] at hearly
      omega

variable [Primitives]

/-- The tip is at most at a time, under a policy. -/
structure Blockchain.UpTo (params : ConsensusParams) (limit : UInt64) (c : Blockchain) :
    Prop where
  policy : c.consensus = params
  tip : ∀ tip, c.blocks.getLast? = some tip → tip.timestampUnix ≤ limit

/-- The tip is at least at a time, under a policy. -/
structure Blockchain.Past (params : ConsensusParams) (time : UInt64) (c : Blockchain) :
    Prop where
  policy : c.consensus = params
  tip : ∃ tip, c.blocks.getLast? = some tip ∧ time ≤ tip.timestampUnix

/-- The clock readings of an event are at most a time. -/
def NodeEvent.ReadsUpTo (time : UInt64) : NodeEvent → Prop
  | .inbound m => m.nowUnix ≤ time
  | .sync _ _ w => ∀ k, w.clock k ≤ time
  | .sealing _ nowUnix _ => nowUnix ≤ time

/-! ### Late blocks are kept out -/

omit [Primitives] in
theorem saturatingAdd_mono {a b : UInt64} (h : a ≤ b) (d : UInt64) :
    saturatingAdd a d ≤ saturatingAdd b d := by
  rw [UInt64.le_iff_toNat_le] at h ⊢
  rw [saturatingAdd_toNat, saturatingAdd_toNat]
  omega

omit [Primitives] in
theorem le_saturatingAdd (a d : UInt64) : a ≤ saturatingAdd a d := by
  have hword := a.toNat_lt
  rw [UInt64.le_iff_toNat_le, saturatingAdd_toNat]
  omega

namespace Blockchain.UpTo

variable {g : Genesis} {params : ConsensusParams} {limit : UInt64} {n n' : NodeInner}

theorem append {c c' : Blockchain} {b : Block} (h : c.UpTo params limit)
    (happ : c.appendBlock b = (.ok (), c')) (hb : b.timestampUnix ≤ limit) :
    c'.UpTo params limit := by
  rcases (appendBlock_ok_iff c c' b).mp happ with ⟨_, _, _, _, _, _, next, _, rfl⟩
  refine ⟨h.policy, ?_⟩
  intro tip htip
  -- The new tip is the block itself.
  change (c.blocks ++ [b]).getLast? = some tip at htip
  rw [List.getLast?_concat, Option.some.injEq] at htip
  rw [← htip]
  exact hb

/-- A block of a peer is late by the clock and is refused, or it is not late. -/
theorem persist (h : n.chain.UpTo params limit) (hn : n.Agrees g) {b : Block}
    (henc : Encodes b) {nowUnix : UInt64} {calls : AppendIo}
    {r : Except NetworkBlockPersistFailure Unit}
    (hclock : saturatingAdd nowUnix params.maxFutureDriftSecs ≤ limit)
    (hrun : n.appendNetworkBlockPersist b nowUnix calls = some (r, n')) :
    n'.chain.UpTo params limit := by
  rcases persist_cases hn henc nowUnix calls with ⟨r', n₁, hr, _, _, hcases⟩
  rw [hrun, Option.some.injEq, Prod.mk.injEq] at hr
  rcases hr with ⟨rfl, rfl⟩
  rcases hcases with ⟨_, _, hchain⟩ | ⟨rfl, happ⟩
  · rw [hchain]
    exact h
  · refine h.append happ (UInt64.le_trans ?_ hclock)
    rw [← h.policy]
    by_contra hlate
    -- It was taken, so the store could be written and the check of the clock passed.
    by_cases hpois : n.store.poisoned = true
    · unfold NodeInner.appendNetworkBlockPersist at hrun
      rw [if_pos hpois] at hrun
      simp only [Option.some.injEq, Prod.mk.injEq, reduceCtorEq, false_and] at hrun
    · rcases persist_future calls (Bool.eq_false_iff.mpr hpois) hlate with ⟨f, hf⟩
      rw [hrun] at hf
      simp only [Option.some.injEq, Prod.mk.injEq, reduceCtorEq, false_and] at hf

/-! ### Catching up -/

theorem batch {w : SyncWorld}
    (hclock : ∀ k, saturatingAdd (w.clock k) params.maxFutureDriftSecs ≤ limit)
    {maxBlocks : Nat} {bs : List Block} (hbs : ∀ b ∈ bs, Encodes b) {total total' : Nat}
    {r : Except String Bool} (h : n.chain.UpTo params limit) (hn : n.Agrees g)
    (hrun : NodeInner.appendBatch w maxBlocks n total bs = some (n', total', r)) :
    n'.chain.UpTo params limit := by
  induction bs generalizing n total with
  | nil =>
      simp only [NodeInner.appendBatch, Option.some.injEq, Prod.mk.injEq] at hrun
      rw [← hrun.1]
      exact h
  | cons b bs ih =>
      rw [List.forall_mem_cons] at hbs
      rcases persist_cases hn hbs.1 (w.clock total) (w.calls total) with ⟨r₁, n₁, hr, hn₁, _, _⟩
      have h₁ := h.persist hn hbs.1 (hclock total) hr
      rw [NodeInner.appendBatch, hr, Option.bind_eq_bind, Option.bind_some] at hrun
      rcases r₁ with f | _
      · simp only [Option.some.injEq, Prod.mk.injEq] at hrun
        rw [← hrun.1]
        exact h₁
      · by_cases hfull : maxBlocks ≤ total + 1
        · simp only [if_pos hfull, Option.some.injEq, Prod.mk.injEq] at hrun
          rw [← hrun.1]
          exact h₁
        · simp only [if_neg hfull] at hrun
          exact ih hbs.2 h₁ hn₁ hrun

/-- What is appended of the batch of a round. -/
theorem taken {peer : String} {budget : SyncWorkBudget} {w : SyncWorld} {round total : Nat}
    {wire nbytes : UInt64} {bs : List Block} {total' : Nat} {r : Except String Bool}
    (hclock : ∀ k, saturatingAdd (w.clock k) params.maxFutureDriftSecs ≤ limit)
    (hbrings : Brings peer budget w round n total wire bs nbytes)
    (h : n.chain.UpTo params limit) (hn : n.Agrees g)
    (hrun : appendTaken budget w n total bs = some (n', total', r)) :
    n'.chain.UpTo params limit :=
  h.batch hclock (fun b hb => pull_encodes hbrings.answer b (List.mem_of_mem_take hb)) hn hrun

/-- The rounds of a call read the clock anew for each block. -/
theorem rounds {peer : String} {budget : SyncWorkBudget} {w : SyncWorld} {left round : Nat}
    {total : Nat} {wire : UInt64} {pulls : List Answer} {new : List Block}
    {r : Except String Bool}
    (hclock : ∀ k, saturatingAdd (w.clock k) params.maxFutureDriftSecs ≤ limit)
    (hrun : SyncRun peer budget w left round n total wire pulls new n' r)
    (h : n.chain.UpTo params limit) (hn : n.Agrees g) : n'.chain.UpTo params limit := by
  -- The first four ends come before any block of their round.
  induction hrun with
  | usedUp _ => exact h
  | unanswered _ _ => exact h
  | upToDate _ _ => exact h
  | notLinear _ _ _ _ => exact h
  | refused hbrings _ hbatch => exact h.taken hclock hbrings hn hbatch
  | lastBatch hbrings _ hbatch _ => exact h.taken hclock hbrings hn hbatch
  | next hbrings hbatch _ _ _ ih =>
      have hagrees := (appendTaken_spec (pull_encodes hbrings.answer) hn List.prefix_rfl hbatch).1
      exact ih (h.taken hclock hbrings hn hbatch) hagrees

theorem sync {peer : String} {budget : SyncWorkBudget} {w : SyncWorld}
    {r : Except String SyncFromPeerOutcome}
    (hclock : ∀ k, saturatingAdd (w.clock k) params.maxFutureDriftSecs ≤ limit)
    (h : n.chain.UpTo params limit) (hn : n.Agrees g)
    (hrun : n.syncFromPeerWithClock peer budget w = some (r, n')) :
    n'.chain.UpTo params limit := by
  by_cases hruns : n.store.poisoned = false ∧ validateSyncWorkBudget budget = .ok ()
  · rcases exists_syncRun peer budget w budget.maxRoundsPerCall.toNat 0 hn 0 0 with
      ⟨pulls, new, n₁, r₁, hloop⟩
    have h₁ := h.rounds hclock hloop hn
    -- Behind the loop only the pool changes.
    rcases finishSync_eq n₁ new r₁ with ⟨ops, hend⟩
    rw [sync_ran hruns.1 hruns.2 hloop, Option.some.injEq] at hrun
    rw [hrun] at hend
    change n' = _ at hend
    rw [hend]
    exact h₁
  · rcases sync_refused hruns peer w with ⟨e, he⟩
    rw [he, Option.some.injEq, Prod.mk.injEq] at hrun
    rw [← hrun.2]
    exact h

/-! ### Messages of peers -/

theorem applyBlock (h : n.chain.UpTo params limit) (hn : n.Agrees g) {b : Block}
    (henc : Encodes b) {nowUnix : UInt64} {k k' : SessionCounters} {policy : InboundPeerPolicy}
    {calls : AppendIo} {r : Except PeerFrameError (Option Bytes)}
    (hclock : saturatingAdd nowUnix params.maxFutureDriftSecs ≤ limit)
    (hrun : n.applyBlock b nowUnix k policy calls = some (r, n', k')) :
    n'.chain.UpTo params limit := by
  by_cases hstale : b.height ≤ n.chain.height
  · unfold NodeInner.applyBlock at hrun
    rw [if_pos hstale] at hrun
    by_cases hquota : policy.maxStaleDecodedBlocksPerSession <
        saturatingSucc32 k.staleDecodedBlocks
    · simp only [if_pos hquota, Option.some.injEq, Prod.mk.injEq] at hrun
      rw [← hrun.2.1]
      exact h
    · simp only [if_neg hquota, Option.some.injEq, Prod.mk.injEq] at hrun
      rw [← hrun.2.1]
      exact h
  · rcases persist_cases hn henc nowUnix calls with ⟨r₁, n₁, hr, _⟩
    have h₁ := h.persist hn henc hclock hr
    rcases applyBlock_of_persist hstale hr k policy with ⟨o, k₁, pool, happ⟩
    rw [happ, Option.some.injEq, Prod.mk.injEq, Prod.mk.injEq] at hrun
    rw [← hrun.2.1]
    exact ⟨h₁.policy, h₁.tip⟩

theorem receive {m : InboundMessage} (h : n.chain.UpTo params limit) (hn : n.Agrees g)
    (hclock : saturatingAdd m.nowUnix params.maxFutureDriftSecs ≤ limit)
    (hrun : n.receive m = some n') : n'.chain.UpTo params limit := by
  unfold NodeInner.receive at hrun
  rcases hdec : predecodeInboundAppPayload m.payload with e | decoded
  · simp only [hdec, Option.some.injEq] at hrun
    rw [← hrun]
    exact h
  simp only [hdec, Option.map_eq_some_iff] at hrun
  rcases hrun with ⟨⟨r, n₁, k⟩, hrun, rfl⟩
  change n₁.chain.UpTo params limit
  unfold NodeInner.applyPredecoded at hrun
  by_cases hpois : n.store.poisoned = true
  · simp only [if_pos hpois, Option.some.injEq, Prod.mk.injEq] at hrun
    rw [← hrun.2.1]
    exact h
  rw [if_neg hpois] at hrun
  -- Only a block can change the chain.
  cases decoded with
  | tx tx =>
      simp only [Option.some.injEq, Prod.mk.injEq] at hrun
      rw [← hrun.2.1]
      exact ⟨h.policy, h.tip⟩
  | getBlocks startHeight =>
      simp only [Option.bind_eq_bind, Option.bind_eq_some_iff] at hrun
      rcases hrun with ⟨e | encoded, _, hrun⟩
      · simp only [Option.some.injEq, Prod.mk.injEq] at hrun
        rw [← hrun.2.1]
        exact h
      · simp only [Option.some.injEq, Prod.mk.injEq] at hrun
        rw [← hrun.2.1]
        exact h
  | block b => exact h.applyBlock hn (encodes_of_predecode hdec) hclock hrun

end Blockchain.UpTo

/-! ### Sealing -/

/-- A seal returns a block, or it leaves the chain alone. -/
theorem sealAndPersist_cases {g : Genesis} {n : NodeInner} (h : n.Agrees g) (allowed : Bool)
    (nowUnix : UInt64) (calls : AppendIo) :
    ∃ r n', n.sealAndPersist allowed nowUnix calls = some (r, n') ∧
      ((∃ b, r = .ok (some b)) ∨ (∀ b, r ≠ .ok (some b)) ∧ n'.chain = n.chain) := by
  -- The pool is cleaned first, against the same chain.
  have hclean := h.hygiene
  have hchain : n.mempoolHygieneAfterLedgerAdvance.2.chain = n.chain := rfl
  unfold NodeInner.sealAndPersist
  generalize n.mempoolHygieneAfterLedgerAdvance.2 = m at hclean hchain
  have hnone : ∀ b : Block, (.ok none : Except String (Option Block)) ≠ .ok (some b) := by
    intro b hc
    simp only [Except.ok.injEq, reduceCtorEq] at hc
  cases allowed with
  | false => exact ⟨_, m, rfl, Or.inr ⟨hnone, hchain⟩⟩
  | true =>
      simp only [if_true]
      rcases m.chain.pendingRemoval_cases m.pool 64 nowUnix with
        ⟨e, hc⟩ | hc | ⟨b, c, happ, hfew, hc⟩
      · simp only [hc]
        exact ⟨_, _, rfl, Or.inr ⟨hnone, hchain⟩⟩
      · simp only [hc]
        exact ⟨_, _, rfl, Or.inr ⟨hnone, hchain⟩⟩
      · have hlast : c.blocks.getLast? = some b := by
          rw [(Blockchain.appendBlock_ok_sound hclean.sound happ).2, List.getLast?_concat]
        rcases appendBlock_isSome (encodes_of_append hclean.sound happ hfew) m.store calls with
          ⟨r, s, hs⟩
        simp only [hc, hlast, hs, Option.bind_eq_bind, Option.bind_some]
        cases r with
        | ok _ => exact ⟨_, _, rfl, Or.inl ⟨b, rfl⟩⟩
        | error e =>
            -- The block is taken back from the chain when the file refuses it.
            have hback := Blockchain.rollbackLastBlock_append hclean.sound happ
            rw [← hclean.genesis] at hback
            simp only [hback]
            refine ⟨_, _, rfl, Or.inr ⟨?_, hchain⟩⟩
            intro b hc
            simp only [reduceCtorEq] at hc

/-- A seal before its time does nothing to the chain. -/
theorem seal_early {g : Genesis} {n : NodeInner} (h : n.Agrees g) {tip : Block}
    (htip : n.chain.blocks.getLast? = some tip) {nowUnix : UInt64}
    (hearly : nowUnix.toNat <
      tip.timestampUnix.toNat + n.chain.consensus.minBlockIntervalSecs.toNat)
    (allowed : Bool) (calls : AppendIo) :
    ∃ r n', n.sealAndPersist allowed nowUnix calls = some (r, n') ∧ (∀ b, r ≠ .ok (some b)) ∧
      n'.chain = n.chain := by
  rcases sealAndPersist_cases h allowed nowUnix calls with ⟨r, n', hseal, ⟨b, rfl⟩ | hkept⟩
  · -- A block would have the time of the clock, which the rule does not allow here.
    rcases sealAndPersist_block h hseal with ⟨htime, happ, _⟩
    rcases (Blockchain.appendBlock_ok_iff _ _ b).mp happ with ⟨_, tip', htip', _, _, hrule, _⟩
    rw [htip, Option.some.injEq] at htip'
    rw [← htip'] at hrule
    have hle := timestamps_ok hrule
    rw [htime] at hle
    omega
  · exact ⟨r, n', hseal, hkept⟩

/-! ### Runs -/

namespace Blockchain.UpTo

variable {g : Genesis} {params : ConsensusParams} {limit time : UInt64} {n n' : NodeInner}

/-- An event lets in no block that is late by its clock. -/
theorem event (h : n.chain.UpTo params limit) (hn : n.Agrees g) {e : NodeEvent}
    (he : e.ReadsUpTo time) (hlimit : saturatingAdd time params.maxFutureDriftSecs ≤ limit)
    (hrun : e.run n = some n') : n'.chain.UpTo params limit := by
  have hclock : ∀ now, now ≤ time → saturatingAdd now params.maxFutureDriftSecs ≤ limit :=
    fun now hnow => UInt64.le_trans (saturatingAdd_mono hnow _) hlimit
  cases e with
  | inbound m => exact h.receive hn (hclock _ he) hrun
  | sync peer budget w =>
      rcases Option.map_eq_some_iff.mp hrun with ⟨⟨r, n₁⟩, hsync, rfl⟩
      exact h.sync (fun k => hclock _ (he k)) hn hsync
  | sealing allowed nowUnix calls =>
      rcases Option.map_eq_some_iff.mp hrun with ⟨⟨r, n₁⟩, hseal, rfl⟩
      rcases sealAndPersist_cases hn allowed nowUnix calls with ⟨r', n₂, hseal', hcases⟩
      rw [hseal, Option.some.injEq, Prod.mk.injEq] at hseal'
      rcases hseal' with ⟨rfl, rfl⟩
      rcases hcases with ⟨b, rfl⟩ | ⟨_, hchain⟩
      · -- The node's own blocks are not checked, but they have the time of its clock.
        rcases sealAndPersist_block hn hseal with ⟨htime, happ, _⟩
        refine h.append happ ?_
        rw [htime]
        exact UInt64.le_trans (le_saturatingAdd _ _) (hclock _ he)
      · change n₁.chain.UpTo params limit
        rw [hchain]
        exact h

theorem events (hlimit : saturatingAdd time params.maxFutureDriftSecs ≤ limit)
    {es : List NodeEvent} (h : n.chain.UpTo params limit) (hn : n.Agrees g)
    (hes : ∀ e ∈ es, e.ReadsUpTo time) (hrun : runEvents n es = some n') :
    n'.chain.UpTo params limit := by
  induction es generalizing n with
  | nil =>
      rw [runEvents, Option.some.injEq] at hrun
      rw [← hrun]
      exact h
  | cons e es ih =>
      rw [List.forall_mem_cons] at hes
      rcases e.run_moves hn with ⟨n₁, hn₁, hagrees, _⟩
      rw [runEvents, hn₁, Option.bind_eq_bind, Option.bind_some] at hrun
      exact ih (h.event hn hes.1 hlimit hn₁) hagrees hes.2 hrun

end Blockchain.UpTo

/-- No block takes the tip back before a time. -/
theorem Blockchain.Past.keeping (params : ConsensusParams) (time : UInt64) :
    Keeping (Blockchain.Past params time) fun _ => True := by
  intro c c' b hpast _ happ
  rcases hpast.tip with ⟨tip, htip, hle⟩
  rcases (appendBlock_ok_iff c c' b).mp happ with ⟨_, tip', htip', _, _, hrule, next, _, rfl⟩
  rw [htip, Option.some.injEq] at htip'
  rw [← htip'] at hrule
  exact ⟨hpast.policy, b, List.getLast?_concat,
    UInt64.le_trans hle (validateBlockTimestampsVsParent_le hrule)⟩

/-! ### How long a seal is held up -/

/-- A seal adds the selected transactions when the time has come. -/
theorem seal_selected {g : Genesis} {n : NodeInner} (h : n.Agrees g) (hp : n.pool.Sound)
    (husable : n.store.poisoned = false) (hroom : n.chain.blocks.length < 2 ^ 64) {tip : Block}
    (htip : n.chain.blocks.getLast? = some tip) {nowUnix : UInt64}
    (htime : tip.timestampUnix.toNat + n.chain.consensus.minBlockIntervalSecs.toNat ≤
      nowUnix.toNat) {txs : List Transaction}
    (hsel : n.mempoolHygieneAfterLedgerAdvance.2.pool.orderedCandidatesForSeal n.chain.state 64 =
      .ok txs) (hne : txs ≠ []) :
    ∃ b n', n.sealAndPersist true nowUnix .succeeds = some (.ok (some b), n') ∧
      b.transactions = txs := by
  -- The pool is cleaned first, against the same chain.
  have hclean := h.hygiene
  have hpool : n.mempoolHygieneAfterLedgerAdvance.2.pool.Sound := hp.hygiene n.chain.state
  have hchain : n.mempoolHygieneAfterLedgerAdvance.2.chain = n.chain := rfl
  have hstore : n.mempoolHygieneAfterLedgerAdvance.2.store = n.store := rfl
  unfold NodeInner.sealAndPersist
  generalize n.mempoolHygieneAfterLedgerAdvance.2 = m at hclean hpool hchain hstore hsel
  rw [← hchain] at hroom htip htime hsel
  rw [← hstore] at husable
  rcases Mempool.orderedCandidatesForSeal_ok hsel with ⟨⟨next, hnext⟩, hmax⟩
  have happ := Blockchain.appendBlock_sealed hclean.sound hroom hpool htip htime
    (Mempool.orderedCandidatesForSeal_sublist hsel) hnext
  have hseal : m.chain.appendBlockFromMempoolPendingRemoval m.pool 64 nowUnix =
      (.ok (some (txs.map Transaction.txHash)), { m.chain with
        state := next, blocks := m.chain.blocks ++ [Blockchain.sealedBlock tip nowUnix txs] }) := by
    rw [Blockchain.appendBlockFromMempoolPendingRemoval, hsel, attempt, if_neg hne, htip, okOr,
      happ]
  -- A block of 64 is small enough to be written.
  rcases encodeBlock_of_append hclean.sound happ hmax with ⟨payload, henc, hsize⟩
  have hwritten := BlockStore.appendBlock_succeeds husable henc
    (hsize.trans (by decide : 26593 ≤ maxFrameBytes))
  simp only [if_true, hseal, List.getLast?_concat, hwritten, Option.bind_eq_bind,
    Option.bind_some]
  exact ⟨_, _, rfl, rfl⟩

/-- A seal is held up by the drift at most. Let all clock readings of a run be at
    most some time, and let a limit be no less than that time with the drift and
    than the tip at the start. Then the tip at the end is between the tip at the
    start and the limit, and from the limit on (with the interval) every seal adds
    the transactions that are selected, if the file takes them. -/
theorem stall_bounded {g : Genesis} {n : NodeInner} (hn : n.Agrees g) (hp : n.pool.Sound)
    {tip : Block} (htip : n.chain.blocks.getLast? = some tip) {time limit : UInt64}
    {es : List NodeEvent} (hes : ∀ e ∈ es, e.ReadsUpTo time)
    (hdrift : saturatingAdd time n.chain.consensus.maxFutureDriftSecs ≤ limit)
    (hstart : tip.timestampUnix ≤ limit) :
    ∃ n' tip', runEvents n es = some n' ∧ n'.chain.blocks.getLast? = some tip' ∧
      tip.timestampUnix ≤ tip'.timestampUnix ∧ tip'.timestampUnix ≤ limit ∧
      (n'.store.poisoned = false → n'.chain.blocks.length < 2 ^ 64 → ∀ nowUnix txs,
        limit.toNat + n.chain.consensus.minBlockIntervalSecs.toNat ≤ nowUnix.toNat →
        n'.mempoolHygieneAfterLedgerAdvance.2.pool.orderedCandidatesForSeal n'.chain.state 64 =
          .ok txs → txs ≠ [] →
        ∃ b n'', n'.sealAndPersist true nowUnix .succeeds = some (.ok (some b), n'') ∧
          b.transactions = txs) := by
  -- The tip of the start bounds the run from below, the limit bounds it from above.
  have hpast : n.chain.Past n.chain.consensus tip.timestampUnix :=
    ⟨rfl, tip, htip, UInt64.le_refl _⟩
  have hupTo : n.chain.UpTo n.chain.consensus limit := by
    refine ⟨rfl, ?_⟩
    intro tip' htip'
    rw [htip, Option.some.injEq] at htip'
    rw [← htip']
    exact hstart
  rcases runEvents_keeps (Blockchain.Past.keeping _ _) hn hpast es with
    ⟨n', hrun, hn', hpast', hpool⟩
  have hupTo' := Blockchain.UpTo.events hdrift hupTo hn hes hrun
  rcases hpast'.tip with ⟨tip', htip', hle⟩
  have hlimit := hupTo'.tip tip' htip'
  refine ⟨n', tip', hrun, htip', hle, hlimit, ?_⟩
  intro husable hroom nowUnix txs hnow hsel hne
  refine seal_selected hn' (hpool hp) husable hroom htip' ?_ hsel hne
  rw [UInt64.le_iff_toNat_le] at hlimit
  rw [hupTo'.policy]
  omega

/-- An empty block on the tip is taken from a peer, at any time between the interval
    and the drift. -/
theorem receive_empty {g : Genesis} {n : NodeInner} (hn : n.Agrees g)
    (husable : n.store.poisoned = false) (hroom : n.chain.blocks.length < 2 ^ 64) {tip : Block}
    (htip : n.chain.blocks.getLast? = some tip) {nowUnix time : UInt64}
    (hafter : tip.timestampUnix.toNat + n.chain.consensus.minBlockIntervalSecs.toNat ≤
      time.toNat)
    (hdrift : time ≤ saturatingAdd nowUnix n.chain.consensus.maxFutureDriftSecs)
    (k : SessionCounters) (policy : InboundPeerPolicy) :
    ∃ payload store, blockMessage (Blockchain.sealedBlock tip time []) = some payload ∧
      store.poisoned = false ∧
      n.receive ⟨payload, nowUnix, k, policy, .succeeds⟩ = some
        { n with
          chain := { n.chain with
            blocks := n.chain.blocks ++ [Blockchain.sealedBlock tip time []] }
          pool := (n.pool.hygieneVsCommittedLedger n.chain.state).2
          store := store } := by
  -- Nothing in the rules asks for a transaction, so the chain takes the empty block.
  have hnil : n.chain.state.applyAll [] = .ok n.chain.state := rfl
  have happ := Blockchain.appendBlock_sealed hn.sound hroom (Mempool.sound_new 1) htip hafter
    (List.nil_sublist _) hnil
  rcases encodeBlock_of_append hn.sound happ (Nat.zero_le _) with ⟨enc, henc, hsize⟩
  have hwritten := BlockStore.appendBlock_succeeds husable henc
    (hsize.trans (by decide : 26593 ≤ maxFrameBytes))
  have hpersist := persist_takes husable happ hdrift hwritten
  have hnew := above_of_append hn.sound.linked happ
  have hmessage : blockMessage (Blockchain.sealedBlock tip time []) = some (opBlock :: enc) := by
    rw [blockMessage, henc]
    rfl
  have hdec := predecode_blockMessage hmessage
  refine ⟨opBlock :: enc, _, hmessage, (BlockStore.appendBlock_ok_usable hwritten).2, ?_⟩
  unfold NodeInner.receive NodeInner.applyPredecoded NodeInner.applyBlock
  simp only [hdec, husable, Bool.false_eq_true, if_false, if_neg hnew, hpersist,
    Option.bind_eq_bind, Option.bind_some, Option.map_some]
  rfl

/-- Any peer can hold a seal up for as long as that. An empty block on the tip, at
    any time between the interval and the drift, is accepted from a peer; it
    changes no account, and whatever happens afterwards, no seal before its time
    (with the interval) adds a block. -/
theorem stall_attained {g : Genesis} {n : NodeInner} (hn : n.Agrees g)
    (husable : n.store.poisoned = false) (hroom : n.chain.blocks.length < 2 ^ 64) {tip : Block}
    (htip : n.chain.blocks.getLast? = some tip) {nowUnix time : UInt64}
    (hafter : tip.timestampUnix.toNat + n.chain.consensus.minBlockIntervalSecs.toNat ≤
      time.toNat)
    (hdrift : time ≤ saturatingAdd nowUnix n.chain.consensus.maxFutureDriftSecs)
    (k : SessionCounters) (policy : InboundPeerPolicy) :
    ∃ payload n₁, blockMessage (Blockchain.sealedBlock tip time []) = some payload ∧
      n.receive ⟨payload, nowUnix, k, policy, .succeeds⟩ = some n₁ ∧
      n₁.chain.blocks = n.chain.blocks ++ [Blockchain.sealedBlock tip time []] ∧
      n₁.chain.state = n.chain.state ∧
      ∀ es, ∃ n₂, runEvents n₁ es = some n₂ ∧ ∀ allowed early calls,
        early.toNat < time.toNat + n.chain.consensus.minBlockIntervalSecs.toNat →
        ∃ r n₃, n₂.sealAndPersist allowed early calls = some (r, n₃) ∧
          (∀ b, r ≠ .ok (some b)) ∧ n₃.chain = n₂.chain := by
  rcases receive_empty hn husable hroom htip hafter hdrift k policy with
    ⟨payload, store, hmessage, _, hrun⟩
  rcases receive_agrees hn ⟨payload, nowUnix, k, policy, .succeeds⟩ with ⟨n₁, hrun', hn₁⟩
  have heq := hrun.symm.trans hrun'
  rw [Option.some.injEq] at heq
  have hchain : n₁.chain = { n.chain with
      blocks := n.chain.blocks ++ [Blockchain.sealedBlock tip time []] } := by
    rw [← heq]
  refine ⟨payload, n₁, hmessage, hrun', by rw [hchain], by rw [hchain], ?_⟩
  intro es
  -- From here on the tip is never before the block.
  have hpast : n₁.chain.Past n.chain.consensus time := by
    rw [hchain]
    exact ⟨rfl, _, List.getLast?_concat, UInt64.le_refl _⟩
  rcases runEvents_keeps (Blockchain.Past.keeping _ _) hn₁ hpast es with
    ⟨n₂, hrun₂, hn₂, hpast₂, _⟩
  refine ⟨n₂, hrun₂, ?_⟩
  intro allowed early calls hearly
  rcases hpast₂.tip with ⟨tip₂, htip₂, hle⟩
  refine seal_early hn₂ htip₂ ?_ allowed calls
  rw [UInt64.le_iff_toNat_le] at hle
  rw [hpast₂.policy]
  omega

end Clock

namespace Sample

/-- The new node with a drift of a minute, when the payment waits. -/
def punctual : NodeInner :=
  { newNode with chain := { newNode.chain with consensus := ⟨0, 60⟩ }, pool := waiting }

theorem agrees_punctual : punctual.Agrees genesis :=
  ⟨started_newNode.agrees.genesis,
    ⟨started_newNode.agrees.sound.linked, started_newNode.agrees.sound.replay⟩,
    started_newNode.agrees.encodes, started_newNode.agrees.stores⟩

/-- A peer sends an empty block that is a minute ahead. When the minute is over, the
    payment is sealed behind it. -/
theorem stall_bounded_punctual :
    ∃ payload n₁ b n₂,
      runEvents punctual
        [.inbound ⟨payload, 0, ⟨0, 0⟩, onlyOne.toInboundPeerPolicy, .succeeds⟩] = some n₁ ∧
      n₁.chain.blocks = [Block.genesis, Blockchain.sealedBlock Block.genesis 60 []] ∧
      n₁.sealAndPersist true 60 .succeeds = some (.ok (some b), n₂) ∧
      b.transactions = [payment] := by
  have htip : punctual.chain.blocks.getLast? = some Block.genesis := rfl
  have hafter : Block.genesis.timestampUnix.toNat +
      punctual.chain.consensus.minBlockIntervalSecs.toNat ≤ (60 : UInt64).toNat := by
    decide
  have hdrift : saturatingAdd 0 punctual.chain.consensus.maxFutureDriftSecs = 60 := by
    decide
  have hstart : Block.genesis.timestampUnix ≤ 60 := by
    decide
  rcases receive_empty agrees_punctual rfl (by decide) htip hafter (UInt64.le_of_eq hdrift.symm)
    ⟨0, 0⟩ onlyOne.toInboundPeerPolicy with ⟨payload, store, _, husable, hreceive⟩
  have hes : ∀ e ∈ [NodeEvent.inbound
      ⟨payload, 0, ⟨0, 0⟩, onlyOne.toInboundPeerPolicy, .succeeds⟩], e.ReadsUpTo 0 := by
    intro e he
    rw [List.mem_singleton.mp he]
    exact UInt64.le_refl _
  have hselected : ((waiting.hygieneVsCommittedLedger start.state).2.hygieneVsCommittedLedger
      start.state).2.orderedCandidatesForSeal start.state 64 = .ok [payment] := by
    decide +kernel
  rcases stall_bounded agrees_punctual reached_waiting.sound htip hes (UInt64.le_of_eq hdrift)
    hstart with ⟨n₁, _, hrun, _, _, _, hseals⟩
  have hlate := hrun
  rw [runEvents, NodeEvent.run, hreceive, Option.bind_eq_bind, Option.bind_some, runEvents,
    Option.some.injEq] at hlate
  subst hlate
  have hroom : [Block.genesis, Blockchain.sealedBlock Block.genesis 60 []].length < 2 ^ 64 := by
    decide
  rcases hseals husable hroom 60 [payment] (by decide) hselected (List.cons_ne_nil _ _) with
    ⟨b, n₂, hseal, htxs⟩
  exact ⟨payload, _, b, n₂, hrun, rfl, hseal, htxs⟩

/-- One empty block, and the node never seals again. -/
theorem stall_attained_forever :
    ∃ payload n₁, newNode.receive ⟨payload, 0, ⟨0, 0⟩, onlyOne.toInboundPeerPolicy, .succeeds⟩ =
        some n₁ ∧
      ∀ es, ∃ n₂, runEvents n₁ es = some n₂ ∧ ∀ early : UInt64, early.toNat < 2 ^ 64 - 1 →
        ∃ r n₃, n₂.sealAndPersist true early .succeeds = some (r, n₃) ∧
          (∀ b, r ≠ .ok (some b)) ∧ n₃.chain = n₂.chain := by
  have htip : newNode.chain.blocks.getLast? = some Block.genesis := rfl
  have hafter : Block.genesis.timestampUnix.toNat +
      newNode.chain.consensus.minBlockIntervalSecs.toNat ≤ (0xFFFFFFFFFFFFFFFF : UInt64).toNat := by
    decide
  have hdrift : (0xFFFFFFFFFFFFFFFF : UInt64) ≤
      saturatingAdd 0 newNode.chain.consensus.maxFutureDriftSecs := by
    decide
  rcases stall_attained started_newNode.agrees rfl (by decide) htip hafter hdrift ⟨0, 0⟩
    onlyOne.toInboundPeerPolicy with ⟨payload, n₁, _, hrun, _, _, hrest⟩
  refine ⟨payload, n₁, hrun, ?_⟩
  intro es
  rcases hrest es with ⟨n₂, hrun₂, hseals⟩
  refine ⟨n₂, hrun₂, ?_⟩
  intro early hearly
  exact hseals true early .succeeds hearly

end Sample

end Trilogicon
