import Trilogicon.Core.Session
import Trilogicon.Lib.Meter
import Trilogicon.Theory.Chain

/-!
# The Work of a Session

A session does a bounded amount of work, whatever its peer sends and whatever
other sessions do to the node in between.

The limits are about what happens: a transaction reaches the pool, a block is
rejected, a block is stale, a message is malformed. Each of these is read off a
turn without its counters. Along the turns each counter keeps count of one of
them. It cannot saturate, since there are fewer frames than its type has
values, and so the test that the code makes of a counter is a test of the
number of events.

The tests come in three forms. A transaction is tested before it is applied,
with `>`. A stale block is tested after it was counted, with `>`. A rejected
block and a malformed message are tested after they were counted, with `>=`, so
that a limit of zero lets one through.

## Main definitions

* `Turn.decodesTx`, `Turn.stale`, `Turn.rejected`, `Turn.violates`: What happens in a turn.
* `Turn.submits`: A transaction reaches the pool.
* `Turn.ends`: The session does not go on after the turn.
* `Turn.HandsOn`: The session goes on with the counters of a turn.
* `Runs`: What the loop can do.
* `Gauge`: A counter of the loop, with the event that it counts.
* `Exhausts`: A turn uses up a limit, given the turns before it.

## Theorems

* `Turn.handle_stale`, `Turn.handle_rejected`, `Turn.handle_surplus`, `Turn.handle_other`: What a
  frame does, by what happens in its turn.
* `Turn.turn_counters`: The counters at the end of a turn.
* `Turn.HandsOn.limits`: The tests that a turn has passed if another follows.
* `Gauge.metered`: A counter keeps count of its event.
* `Exhausts.not_handsOn`: No turn follows one that uses up a limit.
-/

namespace Trilogicon

section Session

variable [Primitives]

/-- A block that is rejected leaves the node as it was. -/
theorem persist_rejected {n n' : NodeInner} {b : Block} {nowUnix : UInt64} {calls : AppendIo}
    {detail : String}
    (h : n.appendNetworkBlockPersist b nowUnix calls =
      some (.error (.peerRejectedBlock detail), n')) : n' = n := by
  unfold NodeInner.appendNetworkBlockPersist at h
  by_cases hpois : n.store.poisoned = true
  · simp only [hpois, if_true, Option.some.injEq, Prod.mk.injEq, Except.error.injEq, reduceCtorEq,
      false_and] at h
  rw [if_neg hpois] at h
  rcases n.chain.tryAppendNetworkBlock_cases b nowUnix with ⟨e, hc⟩ | ⟨c, _, hc⟩
  · simp only [hc, Option.some.injEq, Prod.mk.injEq] at h
    exact h.2.symm
  · -- Once the chain has the block, only the file can fail.
    simp only [hc] at h
    rcases hlast : c.blocks.getLast? with _ | tip
    · simp only [hlast, Option.some.injEq, Prod.mk.injEq, Except.error.injEq, reduceCtorEq,
        false_and] at h
    · rcases hs : n.store.appendBlock tip calls with _ | ⟨e | _, store⟩
      · simp only [hlast, hs, Option.bind_eq_bind, Option.bind_none, reduceCtorEq] at h
      · rcases hback : c.rollbackLastBlock n.genesis with ⟨r | _, c'⟩
        · simp only [hlast, hs, hback, Option.bind_eq_bind, Option.bind_some, Option.some.injEq,
            Prod.mk.injEq, Except.error.injEq, reduceCtorEq, false_and] at h
        · simp only [hlast, hs, hback, Option.bind_eq_bind, Option.bind_some, Option.some.injEq,
            Prod.mk.injEq, Except.error.injEq, reduceCtorEq, false_and] at h
      · simp only [hlast, hs, Option.bind_eq_bind, Option.bind_some, Option.some.injEq,
          Prod.mk.injEq, reduceCtorEq, false_and] at h

omit [Primitives] in
/-- The counters with which a turn starts. -/
def LoopCounters.next (k : LoopCounters) : LoopCounters :=
  { k with framesSeen := saturatingSucc32 k.framesSeen, appFrames := k.appFrames + 1 }

omit [Primitives] in
/-- A counter that is far from its end counts. -/
theorem saturatingSucc32_toNat {n : UInt32} (h : n.toNat < 2 ^ 32 - 1) :
    (saturatingSucc32 n).toNat = n.toNat + 1 := by
  unfold saturatingSucc32
  have hne : n ≠ 0xFFFFFFFF := by
    intro hc
    rw [hc] at h
    exact absurd h (by decide)
  rw [if_neg hne, UInt32.toNat_add]
  exact Nat.mod_eq_of_lt (by change n.toNat + 1 < 2 ^ 32; omega)

omit [Primitives] in
/-- The counters of frames do not reach their end. -/
theorem LoopCounters.next_toNat {k : LoopCounters} (happ : k.appFrames = k.framesSeen)
    (hk : k.framesSeen ≤ maxFramesPerInboundSession) :
    k.next.framesSeen.toNat = k.framesSeen.toNat + 1 ∧ k.next.appFrames = k.next.framesSeen := by
  have hle := UInt32.le_iff_toNat_le.mp hk
  change _ ≤ 8192 at hle
  have hsucc := saturatingSucc32_toNat (n := k.framesSeen) (by omega)
  refine ⟨hsucc, ?_⟩
  rw [← UInt32.toNat_inj]
  change (k.appFrames + 1).toNat = (saturatingSucc32 k.framesSeen).toNat
  rw [hsucc, happ, UInt32.toNat_add]
  exact Nat.mod_eq_of_lt (by change k.framesSeen.toNat + 1 < 2 ^ 32; omega)

namespace Turn

/-! ### What happens in a turn -/

omit [Primitives] in
/-- A transaction was decoded. -/
def decodesTx (t : Turn) : Bool :=
  match predecodeInboundAppPayload t.payload with
  | .ok (.tx _) => true
  | _ => false

omit [Primitives] in
/-- A transaction reaches `Mempool::try_submit`. -/
def submits (policy : SessionPolicy) (t : Turn) : Bool :=
  match (t.screen policy).1 with
  | .ok (.tx _) => !t.node.store.poisoned
  | _ => false

omit [Primitives] in
/-- A block is not above the tip. -/
def stale (t : Turn) : Bool :=
  match predecodeInboundAppPayload t.payload with
  | .ok (.block b) => !t.node.store.poisoned && decide (b.height ≤ t.node.chain.height)
  | _ => false

/-- A block is rejected as `PeerRejectedBlock`. -/
def rejected (t : Turn) : Bool :=
  match predecodeInboundAppPayload t.payload with
  | .ok (.block b) =>
      !t.node.store.poisoned && !decide (b.height ≤ t.node.chain.height) &&
        match t.node.appendNetworkBlockPersist b t.nowUnix t.calls with
        | some (.error (.peerRejectedBlock _), _) => true
        | _ => false
  | _ => false

/-- The outcome is a protocol error. -/
def violates (policy : SessionPolicy) (t : Turn) : Bool :=
  match t.handle policy with
  | some (.error (.protocol _), _, _) => true
  | _ => false

/-- The session does not go on after the turn. -/
def ends (policy : SessionPolicy) (t : Turn) : Bool :=
  match t.handle policy with
  | none => true
  | some (outcome, _, k) => (t.settle policy k outcome).2.isSome

/-! ### What a turn does -/

/-- A stale block is counted, and nothing else. -/
theorem handle_stale {policy : SessionPolicy} {t : Turn} (h : t.stale = true) :
    t.handle policy = some
      (if policy.maxStaleDecodedBlocksPerSession < saturatingSucc32 t.counters.staleDecodedBlocks
        then .error (.staleBlockIngressQuotaExhausted policy.maxStaleDecodedBlocksPerSession)
        else .ok none, t.node,
      { t.counters with
        staleDecodedBlocks := saturatingSucc32 t.counters.staleDecodedBlocks }) := by
  unfold stale at h
  unfold handle screen
  -- The payload of a stale turn is a block, so the other kinds are excluded.
  rcases hd : predecodeInboundAppPayload t.payload with e | tx | b | start
  · simp only [hd, Bool.false_eq_true] at h
  · simp only [hd, Bool.false_eq_true] at h
  · simp only [hd, Bool.and_eq_true, Bool.not_eq_true', decide_eq_true_eq] at h
    simp only [NodeInner.applyPredecoded, NodeInner.applyBlock, h.1, h.2, Bool.false_eq_true,
      if_false, if_true]
    by_cases hlimit : policy.maxStaleDecodedBlocksPerSession <
        saturatingSucc32 t.counters.staleDecodedBlocks
    · simp only [hlimit, if_true]
      rfl
    · simp only [hlimit, if_false]
      rfl
  · simp only [hd, Bool.false_eq_true] at h

/-- A rejected block is counted, and nothing else. -/
theorem handle_rejected {policy : SessionPolicy} {t : Turn} (h : t.rejected = true) :
    t.handle policy = some
      (if policy.maxInvalidNetworkBlocksPerSession ≤
          saturatingSucc32 t.counters.invalidBlockStrikes
        then .error (.invalidBlockBudgetExhausted policy.maxInvalidNetworkBlocksPerSession)
        else .ok none, t.node,
      { t.counters with
        invalidBlockStrikes := saturatingSucc32 t.counters.invalidBlockStrikes }) := by
  unfold rejected at h
  unfold handle screen
  rcases hd : predecodeInboundAppPayload t.payload with e | tx | b | start
  · simp only [hd, Bool.false_eq_true] at h
  · simp only [hd, Bool.false_eq_true] at h
  · simp only [hd, Bool.and_eq_true, Bool.not_eq_true', decide_eq_false_iff_not] at h
    rcases h with ⟨⟨hpois, hnew⟩, hrej⟩
    rcases happ : t.node.appendNetworkBlockPersist b t.nowUnix t.calls with _ | ⟨r, n'⟩
    · simp only [happ, Bool.false_eq_true] at hrej
    · rcases r with (_ | detail | _ | _ | _) | _
      -- Only one of the failures is a rejection.
      case error.peerRejectedBlock =>
        simp only [NodeInner.applyPredecoded, NodeInner.applyBlock, hpois, hnew, happ,
          NetworkBlockPersistFailure.countsTowardInvalidBlockBudget, Option.bind_eq_bind,
          Option.bind_some, Bool.false_eq_true, if_false, if_true, persist_rejected happ]
        by_cases hlimit : policy.maxInvalidNetworkBlocksPerSession ≤
            saturatingSucc32 t.counters.invalidBlockStrikes
        · simp only [hlimit, if_true, Option.bind_some]
        · simp only [hlimit, if_false, Option.bind_some]
      all_goals simp only [happ, Bool.false_eq_true] at hrej
  · simp only [hd, Bool.false_eq_true] at h

omit [Primitives] in
/-- The number of transactions decoded after a turn. -/
theorem admit_snd (policy : SessionPolicy) (t : Turn) :
    (t.screen policy).2 = if t.decodesTx then { t.counters with
      inboundTxDecoded := saturatingSucc32 t.counters.inboundTxDecoded } else t.counters := by
  unfold screen decodesTx
  rcases predecodeInboundAppPayload t.payload with e | tx | b | start
  · rfl
  · by_cases hquota : saturatingSucc32 t.counters.inboundTxDecoded ≤
        policy.maxInboundTxPerSession
    · simp only [hquota, if_true]
    · simp only [hquota, if_false, if_true]
  · rfl
  · rfl

/-- A transaction beyond the limit does not reach the node. -/
theorem handle_surplus {policy : SessionPolicy} {t : Turn} (h : t.decodesTx = true)
    (hlimit : ¬ saturatingSucc32 t.counters.inboundTxDecoded ≤ policy.maxInboundTxPerSession) :
    t.handle policy = some
      (.error (.inboundTxIngressQuotaExhausted policy.maxInboundTxPerSession), t.node,
      { t.counters with
        inboundTxDecoded := saturatingSucc32 t.counters.inboundTxDecoded }) := by
  unfold decodesTx at h
  unfold handle screen
  rcases hd : predecodeInboundAppPayload t.payload with e | tx | b | start
  · simp only [hd, Bool.false_eq_true] at h
  · simp only [if_neg hlimit]
  · simp only [hd, Bool.false_eq_true] at h
  · simp only [hd, Bool.false_eq_true] at h

/-- A block that is neither stale nor rejected changes no counter. -/
theorem applyBlock_other {n n' : NodeInner} {b : Block} {nowUnix : UInt64}
    {k k' : SessionCounters} {policy : InboundPeerPolicy} {calls : AppendIo}
    {o : Except PeerFrameError (Option Bytes)} (hnew : ¬ b.height ≤ n.chain.height)
    (haccept : ∀ detail n₁, n.appendNetworkBlockPersist b nowUnix calls ≠
      some (.error (.peerRejectedBlock detail), n₁))
    (h : n.applyBlock b nowUnix k policy calls = some (o, n', k')) :
    k' = k ∧ ∀ e, o ≠ .error (.protocol e) := by
  unfold NodeInner.applyBlock at h
  rw [if_neg hnew] at h
  rcases happ : n.appendNetworkBlockPersist b nowUnix calls with _ | ⟨f | _, n₁⟩
  · simp only [happ, Option.bind_eq_bind, Option.bind_none, reduceCtorEq] at h
  -- The failure is not a rejection, and the others are not counted.
  · have hcounts : f.countsTowardInvalidBlockBudget = false := by
      cases f with
      | peerRejectedBlock detail => exact absurd happ (haccept detail n₁)
      | storePoisoned => rfl
      | missingTipAfterApply => rfl
      | persistAfterApply _ => rfl
      | rollbackFailed _ _ => rfl
    simp only [happ, hcounts, Option.bind_eq_bind, Option.bind_some, Bool.false_eq_true,
      if_false, Option.some.injEq, Prod.mk.injEq] at h
    rcases h with ⟨rfl, _, rfl⟩
    exact ⟨rfl, fun e => by simp only [ne_eq, Except.error.injEq, reduceCtorEq,
      not_false_eq_true]⟩
  · simp only [happ, Option.bind_eq_bind, Option.bind_some, Option.some.injEq,
      Prod.mk.injEq] at h
    rcases h with ⟨rfl, _, rfl⟩
    exact ⟨rfl, fun e => by simp only [ne_eq, reduceCtorEq, not_false_eq_true]⟩

/-- Any other message changes no counter of blocks, and a protocol error
    changes nothing. -/
theorem applyPredecoded_other {n n' : NodeInner} {decoded : PredecodedInbound}
    {nowUnix : UInt64} {k k' : SessionCounters} {policy : InboundPeerPolicy} {calls : AppendIo}
    {o : Except PeerFrameError (Option Bytes)}
    (hblock : ∀ b, decoded = .block b → n.store.poisoned = false →
      ¬ b.height ≤ n.chain.height ∧ ∀ detail n₁, n.appendNetworkBlockPersist b nowUnix calls ≠
        some (.error (.peerRejectedBlock detail), n₁))
    (h : n.applyPredecoded decoded nowUnix k policy calls = some (o, n', k')) :
    k' = k ∧ ∀ e, o = .error (.protocol e) → n' = n := by
  unfold NodeInner.applyPredecoded at h
  by_cases hpois : n.store.poisoned = true
  · simp only [hpois, if_true, Option.some.injEq, Prod.mk.injEq] at h
    rcases h with ⟨_, rfl, rfl⟩
    exact ⟨rfl, fun _ _ => rfl⟩
  rw [if_neg hpois] at h
  cases decoded with
  | tx tx =>
      simp only [Option.some.injEq, Prod.mk.injEq] at h
      rcases h with ⟨rfl, _, rfl⟩
      exact ⟨rfl, fun e he => absurd he (by simp only [reduceCtorEq, not_false_eq_true])⟩
  | block b =>
      rcases hblock b rfl (Bool.not_eq_true _ ▸ hpois) with ⟨hnew, haccept⟩
      rcases applyBlock_other hnew haccept h with ⟨rfl, hproto⟩
      exact ⟨rfl, fun e he => absurd he (hproto e)⟩
  | getBlocks start =>
      -- A batch that cannot be sent is the protocol error here.
      rcases hw : wireEncodeBlocksResponse
          (n.chain.blocksFromHeightLimited start maxBlocksPerBatch) with _ | _ | _
      · simp only [hw, Option.bind_eq_bind, Option.bind_none, reduceCtorEq] at h
      · simp only [hw, Option.bind_eq_bind, Option.bind_some, Option.some.injEq,
          Prod.mk.injEq] at h
        rcases h with ⟨_, rfl, rfl⟩
        exact ⟨rfl, fun _ _ => rfl⟩
      · simp only [hw, Option.bind_eq_bind, Option.bind_some, Option.some.injEq,
          Prod.mk.injEq] at h
        rcases h with ⟨_, rfl, rfl⟩
        exact ⟨rfl, fun _ _ => rfl⟩

omit [Primitives] in
theorem admit_block {policy : SessionPolicy} {t : Turn} {b : Block}
    (h : (t.screen policy).1 = .ok (.block b)) :
    predecodeInboundAppPayload t.payload = .ok (.block b) := by
  unfold screen at h
  rcases hd : predecodeInboundAppPayload t.payload with e | tx | b' | start
  · simp only [hd, reduceCtorEq] at h
  · by_cases hquota : saturatingSucc32 t.counters.inboundTxDecoded ≤
        policy.maxInboundTxPerSession
    · simp only [hd, hquota, if_true, Except.ok.injEq, reduceCtorEq] at h
    · simp only [hd, hquota, if_false, reduceCtorEq] at h
  · simp only [hd] at h
    exact h
  · simp only [hd, Except.ok.injEq, reduceCtorEq] at h

/-- Any other turn changes no counter but that of transactions, and a protocol
    error does not change the node. -/
theorem handle_other {policy : SessionPolicy} {t : Turn} {n' : NodeInner} {k : LoopCounters}
    {o : Except PeerFrameError (Option Bytes)} (hstale : t.stale = false)
    (hrej : t.rejected = false) (h : t.handle policy = some (o, n', k)) :
    k = (t.screen policy).2 ∧ ∀ e, o = .error (.protocol e) → n' = t.node := by
  unfold handle at h
  rcases hscr : t.screen policy with ⟨e | decoded, k₁⟩
  · -- The frame was refused before it reached the node.
    simp only [hscr, Option.some.injEq, Prod.mk.injEq] at h
    rcases h with ⟨_, rfl, rfl⟩
    exact ⟨rfl, fun _ _ => rfl⟩
  · simp only [hscr, Option.bind_eq_bind, Option.bind_eq_some_iff] at h
    rcases h with ⟨⟨o', n₁, c⟩, happ, hrest⟩
    simp only [Option.some.injEq, Prod.mk.injEq] at hrest
    rcases hrest with ⟨rfl, rfl, rfl⟩
    have hother := applyPredecoded_other (fun b hb hpois => ?_) happ
    · exact ⟨by rw [hother.1], hother.2⟩
    · -- The turn has no event of a block.
      have hd : predecodeInboundAppPayload t.payload = .ok (.block b) :=
        admit_block (by rw [hscr, hb])
      unfold stale at hstale
      unfold rejected at hrej
      simp only [hd, hpois, Bool.not_false, Bool.true_and, decide_eq_false_iff_not] at hstale
      refine ⟨hstale, fun detail n₂ hc => ?_⟩
      simp only [hd, hpois, hstale, hc, decide_false, Bool.not_false, Bool.and_self,
        Bool.true_eq_false] at hrej

/-! ### Counters -/

/-- A stale block is nothing else. -/
theorem stale_only {t : Turn} (h : t.stale = true) (policy : SessionPolicy) :
    t.decodesTx = false ∧ t.rejected = false ∧ t.violates policy = false := by
  -- Its outcome is a quota or nothing, and neither is a protocol error.
  have hviol : t.violates policy = false := by
    unfold violates
    rw [handle_stale h]
    by_cases hlimit : policy.maxStaleDecodedBlocksPerSession <
        saturatingSucc32 t.counters.staleDecodedBlocks
    · simp only [hlimit, if_true]
    · simp only [hlimit, if_false]
  unfold stale at h
  unfold decodesTx rejected
  rcases hd : predecodeInboundAppPayload t.payload with e | tx | b | start
  · simp only [hd, Bool.false_eq_true] at h
  · simp only [hd, Bool.false_eq_true] at h
  · simp only [hd, Bool.and_eq_true] at h
    simp only [h.2, Bool.not_true, Bool.and_false, Bool.false_and, true_and]
    exact hviol
  · simp only [hd, Bool.false_eq_true] at h

/-- A rejected block is nothing else. -/
theorem rejected_only {t : Turn} (h : t.rejected = true) (policy : SessionPolicy) :
    t.decodesTx = false ∧ t.stale = false ∧ t.violates policy = false := by
  have hstale : t.stale = false := by
    by_contra hc
    rw [(stale_only (Bool.of_not_eq_false hc) policy).2.1] at h
    exact absurd h (by simp only [Bool.false_eq_true, not_false_eq_true])
  have hviol : t.violates policy = false := by
    unfold violates
    rw [handle_rejected h]
    by_cases hlimit : policy.maxInvalidNetworkBlocksPerSession ≤
        saturatingSucc32 t.counters.invalidBlockStrikes
    · simp only [hlimit, if_true]
    · simp only [hlimit, if_false]
  refine ⟨?_, hstale, hviol⟩
  unfold rejected at h
  unfold decodesTx
  rcases hd : predecodeInboundAppPayload t.payload with e | tx | b | start
  · rfl
  · simp only [hd, Bool.false_eq_true] at h
  · rfl
  · rfl

omit [Primitives] in
/-- A counter after a turn in which its event may have happened. -/
def tick (n : UInt32) (event : Bool) : UInt32 :=
  if event then saturatingSucc32 n else n

/-- The counters after a frame was handled. -/
theorem handle_counters {policy : SessionPolicy} {t : Turn} {n' : NodeInner} {k : LoopCounters}
    {o : Except PeerFrameError (Option Bytes)} (h : t.handle policy = some (o, n', k)) :
    k = { t.counters with
      invalidBlockStrikes := tick t.counters.invalidBlockStrikes t.rejected
      staleDecodedBlocks := tick t.counters.staleDecodedBlocks t.stale
      inboundTxDecoded := tick t.counters.inboundTxDecoded t.decodesTx } := by
  -- A turn is one of three kinds, and each kind has its lemma.
  by_cases hstale : t.stale = true
  · rcases stale_only hstale policy with ⟨htx, hrej, _⟩
    rw [handle_stale hstale, Option.some.injEq, Prod.mk.injEq, Prod.mk.injEq] at h
    rw [← h.2.2, hstale, htx, hrej]
    rfl
  by_cases hrej : t.rejected = true
  · rcases rejected_only hrej policy with ⟨htx, _, _⟩
    rw [handle_rejected hrej, Option.some.injEq, Prod.mk.injEq, Prod.mk.injEq] at h
    rw [← h.2.2, hrej, htx, Bool.eq_false_iff.mpr hstale]
    rfl
  · rw [(handle_other (Bool.eq_false_iff.mpr hstale) (Bool.eq_false_iff.mpr hrej) h).1, admit_snd,
      Bool.eq_false_iff.mpr hstale, Bool.eq_false_iff.mpr hrej]
    cases t.decodesTx with
    | false => rfl
    | true => rfl

/-- The counters after the loop has seen the outcome. -/
theorem settle_counters {policy : SessionPolicy} {t : Turn} {n' : NodeInner} {k : LoopCounters}
    {o : Except PeerFrameError (Option Bytes)} (h : t.handle policy = some (o, n', k)) :
    (t.settle policy k o).1 =
      { k with protocolErrors := tick k.protocolErrors (t.violates policy) } := by
  unfold violates
  rw [h]
  unfold settle
  -- Only a protocol error is counted by the loop itself.
  rcases o with (_ | _ | _ | _ | e) | (_ | resp)
  case error.protocol =>
    by_cases hlimit : policy.maxProtocolErrorsPerSession ≤ saturatingSucc32 k.protocolErrors
    · simp only [hlimit, if_true]
      rfl
    · simp only [hlimit, if_false]
      rfl
  case ok.some =>
    cases t.write with
    | error e => rfl
    | ok _ => rfl
  all_goals rfl

/-- The counters at the end of a turn. -/
theorem turn_counters {policy : SessionPolicy} {t : Turn} {n' : NodeInner} {k : LoopCounters}
    {o : Except PeerFrameError (Option Bytes)} (h : t.handle policy = some (o, n', k)) :
    (t.settle policy k o).1 =
      { invalidBlockStrikes := tick t.counters.invalidBlockStrikes t.rejected
        staleDecodedBlocks := tick t.counters.staleDecodedBlocks t.stale
        protocolErrors := tick t.counters.protocolErrors (t.violates policy)
        appFrames := t.counters.appFrames
        inboundTxDecoded := tick t.counters.inboundTxDecoded t.decodesTx
        framesSeen := t.counters.framesSeen } := by
  rw [settle_counters h, handle_counters h]

omit [Primitives] in
/-- When the session goes on: no error, or one more protocol error that is
    below the limit. -/
theorem settle_none {policy : SessionPolicy} {t : Turn} {k k' : LoopCounters}
    {o : Except PeerFrameError (Option Bytes)} (h : t.settle policy k o = (k', none)) :
    (∃ resp, o = .ok resp) ∨ (∃ e, o = .error (.protocol e)) ∧
      ¬ policy.maxProtocolErrorsPerSession ≤ saturatingSucc32 k.protocolErrors := by
  unfold settle at h
  rcases o with (_ | _ | _ | _ | e) | resp
  case error.protocol =>
    refine Or.inr ⟨⟨e, rfl⟩, fun hlimit => ?_⟩
    simp only [hlimit, if_true, Prod.mk.injEq, reduceCtorEq, and_false] at h
  case ok => exact Or.inl ⟨resp, rfl⟩
  all_goals simp only [Prod.mk.injEq, reduceCtorEq, and_false] at h

omit [Primitives] in
/-- Any other error ends the session. -/
theorem settle_error_ne {policy : SessionPolicy} {t : Turn} {k k' : LoopCounters}
    {e : PeerFrameError} (he : ∀ x, e ≠ .protocol x) :
    t.settle policy k (.error e) ≠ (k', none) := by
  intro h
  rcases settle_none h with ⟨_, ho⟩ | ⟨⟨x, ho⟩, _⟩
  · exact absurd ho (by simp only [reduceCtorEq, not_false_eq_true])
  · exact he x (Except.error.inj ho)

/-- The session goes on, and the next turn starts with these counters. -/
def HandsOn (policy : SessionPolicy) (t u : Turn) : Prop :=
  ∃ o node k k', t.handle policy = some (o, node, k) ∧ t.settle policy k o = (k', none) ∧
    u.counters = k'.next

/-- With what the next turn starts. -/
theorem HandsOn.counters {policy : SessionPolicy} {t u : Turn} (h : t.HandsOn policy u) :
    u.counters =
      { invalidBlockStrikes := tick t.counters.invalidBlockStrikes t.rejected
        staleDecodedBlocks := tick t.counters.staleDecodedBlocks t.stale
        protocolErrors := tick t.counters.protocolErrors (t.violates policy)
        appFrames := t.counters.appFrames + 1
        inboundTxDecoded := tick t.counters.inboundTxDecoded t.decodesTx
        framesSeen := saturatingSucc32 t.counters.framesSeen } := by
  rcases h with ⟨o, node, k, k', hhandle, hsettle, hu⟩
  have hk' : k' = _ := hsettle ▸ turn_counters hhandle
  rw [hu, hk', LoopCounters.next]

/-- Which tests a turn has passed if the session goes on after it. -/
theorem HandsOn.limits {policy : SessionPolicy} {t u : Turn} (h : t.HandsOn policy u) :
    (t.decodesTx = true → u.counters.inboundTxDecoded ≤ policy.maxInboundTxPerSession) ∧
    (t.stale = true →
      u.counters.staleDecodedBlocks ≤ policy.maxStaleDecodedBlocksPerSession) ∧
    (t.rejected = true →
      u.counters.invalidBlockStrikes < policy.maxInvalidNetworkBlocksPerSession) ∧
    (t.violates policy = true →
      u.counters.protocolErrors < policy.maxProtocolErrorsPerSession) := by
  -- Each test that fails would have ended the session.
  rw [h.counters]
  rcases h with ⟨o, node, k, k', hhandle, hsettle, _⟩
  refine ⟨fun htx => ?_, fun hstale => ?_, fun hrej => ?_, fun hviol => ?_⟩
  · by_contra hlimit
    simp only [tick, htx, if_true] at hlimit
    rw [handle_surplus htx hlimit, Option.some.injEq, Prod.mk.injEq] at hhandle
    rw [← hhandle.1] at hsettle
    exact settle_error_ne (fun x => by simp only [ne_eq, reduceCtorEq, not_false_eq_true]) hsettle
  · by_contra hlimit
    simp only [tick, hstale, if_true, UInt32.not_le] at hlimit
    rw [handle_stale hstale, if_pos hlimit, Option.some.injEq, Prod.mk.injEq] at hhandle
    rw [← hhandle.1] at hsettle
    exact settle_error_ne (fun x => by simp only [ne_eq, reduceCtorEq, not_false_eq_true]) hsettle
  · by_contra hlimit
    simp only [tick, hrej, if_true, UInt32.not_lt] at hlimit
    rw [handle_rejected hrej, if_pos hlimit, Option.some.injEq, Prod.mk.injEq] at hhandle
    rw [← hhandle.1] at hsettle
    exact settle_error_ne (fun x => by simp only [ne_eq, reduceCtorEq, not_false_eq_true]) hsettle
  · simp only [tick, hviol, if_true]
    unfold violates at hviol
    rw [hhandle] at hviol
    have hk := handle_counters hhandle
    -- A protocol error lets the session go on only below its limit.
    rcases settle_none hsettle with ⟨resp, ho⟩ | ⟨_, hlimit⟩
    · simp only [ho, Bool.false_eq_true] at hviol
    · rw [hk] at hlimit
      exact UInt32.not_le.mp hlimit

end Turn

/-! ### The loop -/

/-- What the loop can do, with a number of turns left and counters to start
    with: nothing is left, it ends before or after it has read a frame that it
    does not decode, it ends with a turn, or it goes on after one. -/
inductive Runs (policy : SessionPolicy) : Nat → LoopCounters → Session → Prop where
  | out (k : LoopCounters) : Runs policy 0 k ⟨0, [], none⟩
  | unread {left : Nat} {k : LoopCounters} (e : SessionEnd) :
      Runs policy (left + 1) k ⟨0, [], some e⟩
  | surplus {left : Nat} {k : LoopCounters}
      (hseen : k.next.framesSeen ≤ maxFramesPerInboundSession)
      (happ : k.appFrames = 0xFFFFFFFF ∨ policy.maxAppFramesPerSession < k.next.appFrames) :
      Runs policy (left + 1) k ⟨1, [], some (.closed (.ok ()))⟩
  | last {left : Nat} {k : LoopCounters} {t : Turn} {e : SessionEnd}
      (hseen : k.next.framesSeen ≤ maxFramesPerInboundSession)
      (happ : k.next.appFrames ≤ policy.maxAppFramesPerSession) (ht : t.counters = k.next)
      (hend : ∀ o node k₁, t.handle policy = some (o, node, k₁) →
        ∃ result, (t.settle policy k₁ o).2 = some result ∧ e = .closed result) :
      Runs policy (left + 1) k ⟨1, [t], some e⟩
  | more {left : Nat} {k k₁ k₂ : LoopCounters} {t : Turn} {node : NodeInner}
      {o : Except PeerFrameError (Option Bytes)} {rest : Session}
      (hseen : k.next.framesSeen ≤ maxFramesPerInboundSession)
      (happ : k.next.appFrames ≤ policy.maxAppFramesPerSession) (ht : t.counters = k.next)
      (hhandle : t.handle policy = some (o, node, k₁))
      (hsettle : t.settle policy k₁ o = (k₂, none)) (hrest : Runs policy left k₂ rest) :
      Runs policy (left + 1) k ⟨rest.read + 1, t :: rest.turns, rest.ending⟩

theorem sessionLoop_runs (policy : SessionPolicy) (w : SessionWorld) (left i : Nat)
    (n : NodeInner) (k : LoopCounters) : Runs policy left k (sessionLoop policy w left i n k) := by
  induction left generalizing i n k with
  | zero => exact .out k
  | succ left ih =>
      rw [sessionLoop]
      -- The order of the tests is that of the loop.
      by_cases hseen : maxFramesPerInboundSession < saturatingSucc32 k.framesSeen
      · simp only [if_pos hseen]
        exact .unread _
      simp only [if_neg hseen]
      have hseen' : k.next.framesSeen ≤ maxFramesPerInboundSession := UInt32.not_lt.mp hseen
      cases w.reads i with
      | error e => exact .unread _
      | ok frame =>
          by_cases hfull : k.appFrames = 0xFFFFFFFF
          · simp only [checkedSucc32, hfull, if_true]
            exact .surplus hseen' (Or.inl hfull)
          simp only [checkedSucc32, hfull, if_false]
          by_cases happ : policy.maxAppFramesPerSession < k.appFrames + 1
          · simp only [if_pos happ]
            exact .surplus hseen' (Or.inr happ)
          simp only [if_neg happ]
          have happ' : k.next.appFrames ≤ policy.maxAppFramesPerSession := UInt32.not_lt.mp happ
          -- The frame is decoded: its turn decides about the rest.
          generalize hturn : Turn.mk frame (w.others i n) _ (w.clock i) (w.calls i) (w.writes i) = t
          have ht : t.counters = k.next := by rw [← hturn, LoopCounters.next]
          rcases hhandle : t.handle policy with _ | ⟨o, node, k₁⟩
          · refine .last hseen' happ' ht fun o node k₁ hc => ?_
            rw [hhandle] at hc
            exact absurd hc (by simp only [reduceCtorEq, not_false_eq_true])
          · rcases hsettle : t.settle policy k₁ o with ⟨k₂, _ | result⟩
            · simp only [hsettle]
              exact .more hseen' happ' ht hhandle hsettle (ih (i + 1) node k₂)
            · simp only [hsettle]
              refine .last hseen' happ' ht fun o' node' k₁' hc => ?_
              rw [hhandle, Option.some.injEq, Prod.mk.injEq, Prod.mk.injEq] at hc
              rcases hc with ⟨rfl, _, rfl⟩
              exact ⟨result, by rw [hsettle], rfl⟩

/-- More turns do not change a session that has ended. -/
theorem sessionLoop_more {policy : SessionPolicy} {w : SessionWorld} {left i : Nat}
    {n : NodeInner} {k : LoopCounters} (h : (sessionLoop policy w left i n k).ending ≠ none)
    (more : Nat) : sessionLoop policy w (left + more) i n k = sessionLoop policy w left i n k := by
  induction left generalizing i n k with
  | zero => exact absurd rfl h
  | succ left ih =>
      rw [Nat.add_right_comm]
      rw [sessionLoop] at h
      rw [sessionLoop, sessionLoop]
      by_cases hseen : maxFramesPerInboundSession < saturatingSucc32 k.framesSeen
      · simp only [if_pos hseen]
      simp only [if_neg hseen] at h ⊢
      cases hread : w.reads i with
      | error e => rfl
      | ok frame =>
          simp only [hread] at h ⊢
          rcases hframe : checkedSucc32 k.appFrames with _ | nextFrame
          · rfl
          simp only [hframe] at h ⊢
          by_cases happ : policy.maxAppFramesPerSession < nextFrame
          · simp only [if_pos happ]
          simp only [if_neg happ] at h ⊢
          generalize Turn.mk frame (w.others i n) _ (w.clock i) (w.calls i) (w.writes i) = t at h ⊢
          rcases hhandle : t.handle policy with _ | ⟨o, node, k₁⟩
          · rfl
          simp only [hhandle] at h ⊢
          rcases hsettle : t.settle policy k₁ o with ⟨k₂, _ | result⟩
          · -- Only here the two loops differ in the turns that are left.
            simp only [hsettle] at h ⊢
            rw [ih h]
          · rfl

namespace Runs

variable {policy : SessionPolicy} {left : Nat} {k : LoopCounters} {s : Session}

theorem head_counters (h : Runs policy left k s) :
    ∀ t ∈ s.turns.head?, t.counters = k.next := by
  intro t ht
  cases h with
  | out => exact absurd ht (Option.not_mem_none t)
  | unread e => exact absurd ht (Option.not_mem_none t)
  | surplus _ _ => exact absurd ht (Option.not_mem_none t)
  | last _ _ hu _ =>
      rw [← Option.mem_some_iff.mp ht]
      exact hu
  | more _ _ hu _ _ _ =>
      rw [← Option.mem_some_iff.mp ht]
      exact hu

/-- Each turn starts with the counters of the one before. -/
theorem handsOn (h : Runs policy left k s) : s.turns.IsChain (Turn.HandsOn policy) := by
  induction h with
  | out => exact List.isChain_nil
  | unread e => exact List.isChain_nil
  | surplus _ _ => exact List.isChain_nil
  | last _ _ _ _ => exact List.isChain_singleton _
  | more _ _ _ hhandle hsettle hrest ih =>
      refine List.isChain_cons.mpr ⟨fun u hu => ?_, ih⟩
      exact ⟨_, _, _, _, hhandle, hsettle, hrest.head_counters u hu⟩

/-- Every frame that is decoded is within the two limits for frames. -/
theorem limits (h : Runs policy left k s) : ∀ t ∈ s.turns,
    t.counters.framesSeen ≤ maxFramesPerInboundSession ∧
      t.counters.appFrames ≤ policy.maxAppFramesPerSession := by
  induction h with
  | out => exact fun t ht => absurd ht List.not_mem_nil
  | unread e => exact fun t ht => absurd ht List.not_mem_nil
  | surplus _ _ => exact fun t ht => absurd ht List.not_mem_nil
  | last hseen happ ht _ =>
      intro u hu
      rw [List.mem_singleton.mp hu, ht]
      exact ⟨hseen, happ⟩
  | more hseen happ ht _ _ _ ih =>
      intro u hu
      rcases List.mem_cons.mp hu with rfl | hin
      · rw [ht]
        exact ⟨hseen, happ⟩
      · exact ih u hin

/-- The session ends as its last turn says. -/
theorem ending_eq (h : Runs policy left k s) {pre : List Turn} {t : Turn} {node : NodeInner}
    {k₁ : LoopCounters} {o : Except PeerFrameError (Option Bytes)}
    {result : Except IoError Unit} (hturns : s.turns = pre ++ [t])
    (hhandle : t.handle policy = some (o, node, k₁))
    (hend : (t.settle policy k₁ o).2 = some result) : s.ending = some (.closed result) := by
  have hne : ([] : List Turn) ≠ pre ++ [t] :=
    (List.append_ne_nil_of_right_ne_nil _ (List.cons_ne_nil _ _)).symm
  induction h generalizing pre with
  | out => exact absurd hturns hne
  | unread e => exact absurd hturns hne
  | surplus _ _ => exact absurd hturns hne
  | @last _ _ u e _ _ _ hclosed =>
      rcases List.append_eq_singleton_iff.mp hturns.symm with ⟨_, hu⟩ | ⟨_, hu⟩
      · rw [List.singleton_inj] at hu
        subst hu
        rcases hclosed o node k₁ hhandle with ⟨r, hr, rfl⟩
        rw [hend] at hr
        rw [Option.some.inj hr]
      · exact absurd hu (List.cons_ne_nil _ _)
  | @more _ _ k₁' k₂ u node' o' rest _ _ _ hhandle' hsettle' _ ih =>
      rcases pre with _ | ⟨v, pre⟩
      · -- After this turn the session went on.
        rcases List.cons.inj hturns with ⟨rfl, _⟩
        rw [hhandle, Option.some.injEq, Prod.mk.injEq, Prod.mk.injEq] at hhandle'
        rw [← hhandle'.1, ← hhandle'.2.2] at hsettle'
        rw [hsettle'] at hend
        exact absurd hend (by simp only [reduceCtorEq, not_false_eq_true])
      · exact ih (List.cons.inj hturns).2
          (List.append_ne_nil_of_right_ne_nil _ (List.cons_ne_nil _ _)).symm

/-- A session ends if there are turns enough. It reads no more frames than it
    may, and decodes all of them but one that is beyond the other limit. -/
theorem reads (h : Runs policy left k s) (happ : k.appFrames = k.framesSeen)
    (hk : k.framesSeen ≤ maxFramesPerInboundSession) :
    (maxFramesPerInboundSession.toNat < k.framesSeen.toNat + left → s.ending ≠ none) ∧
    k.framesSeen.toNat + s.read ≤ maxFramesPerInboundSession.toNat ∧
    (s.read = s.turns.length ∨ s.read = s.turns.length + 1 ∧
      s.ending = some (.closed (.ok ())) ∧
      policy.maxAppFramesPerSession.toNat ≤ k.framesSeen.toNat + s.turns.length) := by
  have hle := UInt32.le_iff_toNat_le.mp hk
  induction h with
  | out k =>
      refine ⟨fun hc => ?_, hle, Or.inl rfl⟩
      omega
  | unread e =>
      exact ⟨fun _ => by simp only [ne_eq, reduceCtorEq, not_false_eq_true], hle, Or.inl rfl⟩
  | @surplus left k hseen hover =>
      rcases LoopCounters.next_toNat happ hk with ⟨hnext, hsame⟩
      rw [UInt32.le_iff_toNat_le, hnext] at hseen
      refine ⟨fun _ => by simp only [ne_eq, reduceCtorEq, not_false_eq_true], hseen,
        Or.inr ⟨rfl, rfl, ?_⟩⟩
      rcases hover with hfull | hover
      · -- The counter of frames cannot be at its end below the first limit.
        rw [happ] at hfull
        rw [hfull] at hle
        exact absurd hle (by decide)
      · rw [hsame, UInt32.lt_iff_toNat_lt, hnext] at hover
        change _ ≤ k.framesSeen.toNat + 0
        omega
  | last hseen _ _ _ =>
      rcases LoopCounters.next_toNat happ hk with ⟨hnext, hsame⟩
      rw [UInt32.le_iff_toNat_le, hnext] at hseen
      exact ⟨fun _ => by simp only [ne_eq, reduceCtorEq, not_false_eq_true], hseen, Or.inl rfl⟩
  | @more left k k₁ k₂ t node o rest hseen _ ht hhandle hsettle _ ih =>
      rcases LoopCounters.next_toNat happ hk with ⟨hnext, hsame⟩
      -- A turn does not touch the counters of frames.
      have hk₂ : k₂ = _ := hsettle ▸ Turn.turn_counters hhandle
      have hframes : k₂.framesSeen = k.next.framesSeen := by rw [hk₂, ht]
      have happs : k₂.appFrames = k.next.appFrames := by rw [hk₂, ht]
      rcases ih (by rw [happs, hframes, hsame]) (hframes ▸ hseen)
        (UInt32.le_iff_toNat_le.mp (hframes ▸ hseen)) with ⟨hends, hread, hlen⟩
      rw [hframes, hnext] at hends hread hlen
      simp only [List.length_cons]
      refine ⟨fun hc => hends (by omega), by omega, ?_⟩
      rcases hlen with hlen | ⟨hlen, hend, hmax⟩
      · exact Or.inl (by omega)
      · exact Or.inr ⟨by omega, hend, by omega⟩

end Runs

/-! ### What the counters say -/

/-- The counters with which a turn starts, on the way: they count at most the
    frames before this one. -/
structure Turn.Counts (t : Turn) : Prop where
  seen : t.counters.framesSeen.toNat ≤ maxFramesPerInboundSession.toNat
  app : t.counters.appFrames = t.counters.framesSeen
  txs : t.counters.inboundTxDecoded.toNat < t.counters.framesSeen.toNat
  stales : t.counters.staleDecodedBlocks.toNat < t.counters.framesSeen.toNat
  strikes : t.counters.invalidBlockStrikes.toNat < t.counters.framesSeen.toNat
  errors : t.counters.protocolErrors.toNat < t.counters.framesSeen.toNat

omit [Primitives] in
theorem Turn.tick_toNat {n : UInt32} (event : Bool) (h : n.toNat < 2 ^ 32 - 1) :
    (Turn.tick n event).toNat = n.toNat + event.toNat := by
  cases event with
  | false => rfl
  | true => exact saturatingSucc32_toNat h

omit [Primitives] in
/-- A counter stays below the number of frames, since it grows by at most one. -/
theorem Turn.tick_lt {n frames : UInt32} (event : Bool) (h : n.toNat < frames.toNat)
    (hf : frames.toNat ≤ maxFramesPerInboundSession.toNat) :
    (Turn.tick n event).toNat < frames.toNat + 1 := by
  change _ ≤ 8192 at hf
  rw [Turn.tick_toNat event (by omega)]
  have hbit := Bool.toNat_le event
  omega

/-- A turn hands on what the next one may find. -/
theorem Turn.HandsOn.counts {policy : SessionPolicy} {t u : Turn} (h : t.HandsOn policy u)
    (ht : t.Counts) (hu : u.counters.framesSeen ≤ maxFramesPerInboundSession) : u.Counts := by
  rcases LoopCounters.next_toNat ht.app (UInt32.le_iff_toNat_le.mpr ht.seen) with ⟨hnext, happ⟩
  have hle := UInt32.le_iff_toNat_le.mp hu
  have hc := h.counters
  have hframes : u.counters.framesSeen.toNat = t.counters.framesSeen.toNat + 1 := by
    rw [hc]
    exact hnext
  -- One frame was seen, so a counter that was behind is behind by no less.
  constructor
  · exact hle
  · rw [hc]
    exact happ
  · rw [hframes, hc]
    exact Turn.tick_lt _ ht.txs ht.seen
  · rw [hframes, hc]
    exact Turn.tick_lt _ ht.stales ht.seen
  · rw [hframes, hc]
    exact Turn.tick_lt _ ht.strikes ht.seen
  · rw [hframes, hc]
    exact Turn.tick_lt _ ht.errors ht.seen

/-- All turns of a session start that way. -/
theorem Runs.counts {policy : SessionPolicy} {left : Nat} {s : Session}
    (h : Runs policy left .zero s) : ∀ t ∈ s.turns, t.Counts := by
  have hchain : s.turns.IsChain fun t u => t.HandsOn policy u ∧
      u.counters.framesSeen ≤ maxFramesPerInboundSession :=
    h.handsOn.imp_of_mem_imp fun t u _ hu htu => ⟨htu, (h.limits u hu).1⟩
  refine hchain.induction Turn.Counts _ (fun t u htu ht => htu.1.counts ht htu.2) ?_
  intro hne
  have hhead := h.head_counters _ (List.head?_eq_some_head hne)
  constructor
  all_goals rw [hhead]
  all_goals decide

/-- A counter of the loop, with the event that it counts. -/
structure Gauge (policy : SessionPolicy) (field : LoopCounters → UInt32) (event : Turn → Bool) :
    Prop where
  zero : field LoopCounters.zero.next = 0
  step : ∀ t u, t.HandsOn policy u → field u.counters = Turn.tick (field t.counters) (event t)
  small : ∀ t : Turn, t.Counts → (field t.counters).toNat < t.counters.framesSeen.toNat

namespace Gauge

theorem txs (policy : SessionPolicy) :
    Gauge policy LoopCounters.inboundTxDecoded Turn.decodesTx :=
  ⟨rfl, fun _ _ h => by rw [h.counters], fun _ h => h.txs⟩

theorem stales (policy : SessionPolicy) :
    Gauge policy (fun k => k.staleDecodedBlocks) Turn.stale :=
  ⟨rfl, fun _ _ h => by rw [h.counters], fun _ h => h.stales⟩

theorem strikes (policy : SessionPolicy) :
    Gauge policy (fun k => k.invalidBlockStrikes) Turn.rejected :=
  ⟨rfl, fun _ _ h => by rw [h.counters], fun _ h => h.strikes⟩

theorem errors (policy : SessionPolicy) :
    Gauge policy LoopCounters.protocolErrors (Turn.violates policy) :=
  ⟨rfl, fun _ _ h => by rw [h.counters], fun _ h => h.errors⟩

variable {policy : SessionPolicy} {field : LoopCounters → UInt32} {event : Turn → Bool}
  {left : Nat} {s : Session}

/-- What a turn hands on is one more, or the same. -/
theorem step_toNat (g : Gauge policy field event) {t u : Turn} (ht : t.Counts)
    (hu : t.HandsOn policy u) :
    (field u.counters).toNat = (field t.counters).toNat + (event t).toNat := by
  have hsmall := g.small t ht
  have hseen := ht.seen
  change _ ≤ 8192 at hseen
  rw [g.step t u hu, Turn.tick_toNat _ (by omega)]

/-- The counter keeps count of its event. -/
theorem metered (g : Gauge policy field event) (h : Runs policy left .zero s) :
    Metered (fun t => (field t.counters).toNat) event s.turns := by
  refine ⟨fun t ht => ?_, h.handsOn.imp_of_mem_imp fun t u ht _ htu => ?_⟩
  · rw [h.head_counters t ht, g.zero]
    rfl
  · exact g.step_toNat (h.counts t ht) htu

/-- What a turn hands on is the number of events so far. -/
theorem handed_on (g : Gauge policy field event) (h : Runs policy left .zero s)
    {pre post : List Turn} {t u : Turn} (hs : s.turns = pre ++ t :: post)
    (hu : t.HandsOn policy u) :
    (field u.counters).toNat = (pre ++ [t]).countP event := by
  have hmeter := g.metered h
  have hmem : t ∈ s.turns := by
    rw [hs]
    exact List.mem_append_right _ List.mem_cons_self
  rw [hs] at hmeter
  rw [g.step_toNat (h.counts t hmem) hu, hmeter.count_eq, List.countP_append,
    List.countP_singleton]
  cases event t with
  | false => rfl
  | true => rfl

/-- A test with `>=` after each event: there is at most the limit, or one. -/
theorem below (g : Gauge policy field event) (h : Runs policy left .zero s) {limit : UInt32}
    (hlimit : ∀ t u, t.HandsOn policy u → event t = true → field u.counters < limit) :
    ∀ t ∈ s.turns, (field t.counters).toNat + 1 ≤ max 1 limit.toNat := by
  refine h.handsOn.induction (fun t => (field t.counters).toNat + 1 ≤ max 1 limit.toNat) _ ?_ ?_
  · intro t u htu ht
    by_cases hevent : event t = true
    · have hlt := UInt32.lt_iff_toNat_lt.mp (hlimit t u htu hevent)
      omega
    · rw [g.step t u htu, Turn.tick, if_neg hevent]
      exact ht
  · intro hne
    rw [h.head_counters _ (List.head?_eq_some_head hne), g.zero]
    exact Nat.le_max_left _ _

end Gauge

/-! ### The limits -/

omit [Primitives] in
/-- A transaction that reaches the pool was within its limit. -/
theorem Turn.submits_spec {policy : SessionPolicy} {t : Turn} (h : t.submits policy = true) :
    t.decodesTx = true ∧
      saturatingSucc32 t.counters.inboundTxDecoded ≤ policy.maxInboundTxPerSession := by
  unfold Turn.submits Turn.screen at h
  unfold Turn.decodesTx
  rcases hd : predecodeInboundAppPayload t.payload with e | tx | b | start
  · simp only [hd, Bool.false_eq_true] at h
  · refine ⟨rfl, ?_⟩
    by_contra hlimit
    simp only [hd, if_neg hlimit, Bool.false_eq_true] at h
  · simp only [hd, Bool.false_eq_true] at h
  · simp only [hd, Bool.false_eq_true] at h

/-- If the session does not end with a turn, there may be a next one. -/
theorem Turn.handsOn_of_not_ends {policy : SessionPolicy} {t : Turn}
    (h : t.ends policy = false) : ∃ u, t.HandsOn policy u := by
  unfold Turn.ends at h
  rcases hhandle : t.handle policy with _ | ⟨o, node, k⟩
  · simp only [hhandle, Bool.true_eq_false] at h
  · simp only [hhandle, Option.isSome_eq_false_iff, Option.isNone_iff_eq_none] at h
    refine ⟨{ t with counters := (t.settle policy k o).1.next }, o, node, k, _, hhandle, ?_, rfl⟩
    rw [← h]

omit [Primitives] in
/-- A session never ends with success because of a turn. -/
theorem Turn.settle_some {policy : SessionPolicy} {t : Turn} {k : LoopCounters}
    {o : Except PeerFrameError (Option Bytes)} {result : Except IoError Unit}
    (h : (t.settle policy k o).2 = some result) : ∃ e, result = .error e := by
  unfold Turn.settle at h
  rcases o with (_ | _ | _ | _ | e) | (_ | resp)
  case error.protocol =>
    by_cases hlimit : policy.maxProtocolErrorsPerSession ≤ saturatingSucc32 k.protocolErrors
    · simp only [hlimit, if_true, Option.some.injEq] at h
      exact ⟨e, h.symm⟩
    · simp only [hlimit, if_false, reduceCtorEq] at h
  case ok.none => simp only [reduceCtorEq] at h
  case ok.some =>
    cases hw : t.write with
    | error e =>
        simp only [hw, Option.some.injEq] at h
        exact ⟨e, h.symm⟩
    | ok _ => simp only [hw, reduceCtorEq] at h
  all_goals exact ⟨_, (Option.some.inj h).symm⟩

/-- The frames of a session are numbered by both counters of frames. -/
theorem Runs.length_le {policy : SessionPolicy} {left : Nat} {s : Session}
    (h : Runs policy left .zero s) :
    s.turns.length ≤ policy.maxAppFramesPerSession.toNat := by
  -- Every turn is counted, and the counter of frames is the gauge.
  have hmeter : Metered (fun t : Turn => t.counters.framesSeen.toNat - 1) (fun _ => true)
      s.turns := by
    refine ⟨fun t ht => ?_, h.handsOn.imp_of_mem_imp fun t u ht _ htu => ?_⟩
    · rw [h.head_counters t ht]
      rfl
    · have hcounts := h.counts t ht
      have hpos := hcounts.txs
      have hnext := LoopCounters.next_toNat hcounts.app (UInt32.le_iff_toNat_le.mpr hcounts.seen)
      have hframes : u.counters.framesSeen.toNat = t.counters.framesSeen.toNat + 1 := by
        rw [htu.counters]
        exact hnext.1
      rw [hframes, Bool.toNat_true]
      omega
  have hle : s.turns.countP (fun _ => true) ≤ policy.maxAppFramesPerSession.toNat := by
    refine hmeter.countP_le (fun _ _ _ => rfl) fun t ht _ => ?_
    have hcounts := h.counts t ht
    have hpos := hcounts.txs
    have happ := UInt32.le_iff_toNat_le.mp (h.limits t ht).2
    rw [hcounts.app] at happ
    omega
  rwa [List.countP_true] at hle

/-- A turn uses up a limit, given the turns before it: it is a transaction or a
    stale block beyond its limit, or a rejected block or a protocol error that
    reaches its limit. -/
def Exhausts (policy : SessionPolicy) (pre : List Turn) (t : Turn) : Prop :=
  (t.decodesTx = true ∧
    policy.maxInboundTxPerSession.toNat < (pre ++ [t]).countP Turn.decodesTx) ∨
  (t.stale = true ∧
    policy.maxStaleDecodedBlocksPerSession.toNat < (pre ++ [t]).countP Turn.stale) ∨
  (t.rejected = true ∧
    policy.maxInvalidNetworkBlocksPerSession.toNat ≤ (pre ++ [t]).countP Turn.rejected) ∨
  (t.violates policy = true ∧
    policy.maxProtocolErrorsPerSession.toNat ≤ (pre ++ [t]).countP (Turn.violates policy))

/-- No turn comes after one that uses up a limit. -/
theorem Exhausts.not_handsOn {policy : SessionPolicy} {left : Nat} {s : Session}
    (h : Runs policy left .zero s) {pre post : List Turn} {t : Turn}
    (hs : s.turns = pre ++ t :: post) (ht : Exhausts policy pre t) (u : Turn) :
    ¬ t.HandsOn policy u := by
  intro hu
  rcases hu.limits with ⟨htx, hstale, hrej, hviol⟩
  -- What the turn hands on is within the limit, and the count says it is not.
  rcases ht with ⟨he, hc⟩ | ⟨he, hc⟩ | ⟨he, hc⟩ | ⟨he, hc⟩
  · have hle := UInt32.le_iff_toNat_le.mp (htx he)
    have heq := (Gauge.txs policy).handed_on h hs hu
    omega
  · have hle := UInt32.le_iff_toNat_le.mp (hstale he)
    have heq := (Gauge.stales policy).handed_on h hs hu
    omega
  · have hlt := UInt32.lt_iff_toNat_lt.mp (hrej he)
    have heq := (Gauge.strikes policy).handed_on h hs hu
    omega
  · have hlt := UInt32.lt_iff_toNat_lt.mp (hviol he)
    have heq := (Gauge.errors policy).handed_on h hs hu
    omega

/-- A protocol error leaves the node as it was. -/
theorem Turn.handle_violates {policy : SessionPolicy} {t : Turn}
    (h : t.violates policy = true) : ∃ o k, t.handle policy = some (o, t.node, k) := by
  -- Stale and rejected blocks end in no protocol error.
  have hstale : t.stale = false := by
    by_contra hc
    rw [(Turn.stale_only (Bool.of_not_eq_false hc) policy).2.2] at h
    exact absurd h (by simp only [Bool.false_eq_true, not_false_eq_true])
  have hrej : t.rejected = false := by
    by_contra hc
    rw [(Turn.rejected_only (Bool.of_not_eq_false hc) policy).2.2] at h
    exact absurd h (by simp only [Bool.false_eq_true, not_false_eq_true])
  unfold Turn.violates at h
  rcases hhandle : t.handle policy with _ | ⟨(_ | _ | _ | _ | e) | resp, node, k⟩
  case some.error.protocol =>
    rw [(Turn.handle_other hstale hrej hhandle).2 e rfl]
    exact ⟨_, _, rfl⟩
  all_goals simp only [hhandle, Bool.false_eq_true] at h

/-- A turn that uses up a limit leaves the node as it was. -/
theorem Exhausts.handle {policy : SessionPolicy} {left : Nat} {s : Session}
    (h : Runs policy left .zero s) {pre post : List Turn} {t : Turn}
    (hs : s.turns = pre ++ t :: post) (ht : Exhausts policy pre t) :
    ∃ o k, t.handle policy = some (o, t.node, k) := by
  rcases ht with ⟨he, hc⟩ | ⟨he, _⟩ | ⟨he, _⟩ | ⟨he, _⟩
  · -- The transaction is beyond the limit, so it is not submitted.
    have hmeter := (Gauge.txs policy).metered h
    have hcounts : t.Counts := h.counts t (by
      rw [hs]
      exact List.mem_append_right _ List.mem_cons_self)
    rw [hs] at hmeter
    have hcount := hmeter.count_eq
    rw [List.countP_append, List.countP_singleton, if_pos he] at hc
    refine ⟨_, _, Turn.handle_surplus he fun hlimit => ?_⟩
    have hseen := hcounts.seen
    have htxs := hcounts.txs
    change _ ≤ 8192 at hseen
    rw [UInt32.le_iff_toNat_le, saturatingSucc32_toNat (by omega)] at hlimit
    omega
  · exact ⟨_, _, Turn.handle_stale he⟩
  · exact ⟨_, _, Turn.handle_rejected he⟩
  · exact Turn.handle_violates he

/-- A turn that uses up a limit is the last one, and the session ends in an
    error. -/
theorem Exhausts.ends {policy : SessionPolicy} {left : Nat} {s : Session}
    (h : Runs policy left .zero s) {pre post : List Turn} {t : Turn}
    (hs : s.turns = pre ++ t :: post) (ht : Exhausts policy pre t) :
    post = [] ∧ (∃ e, s.ending = some (.closed (.error e))) ∧
      ∃ o k, t.handle policy = some (o, t.node, k) := by
  rcases ht.handle h hs with ⟨o, k, hhandle⟩
  have hlast : post = [] := by
    cases post with
    | nil => rfl
    | cons u post =>
        have hchain := h.handsOn
        rw [hs] at hchain
        exact absurd (List.isChain_cons_cons.mp hchain.right_of_append).1 (ht.not_handsOn h hs u)
  subst hlast
  -- The loop cannot have gone on after the turn either.
  rcases hend : (t.settle policy k o).2 with _ | result
  · refine absurd ?_ (ht.not_handsOn h hs { t with counters := (t.settle policy k o).1.next })
    exact ⟨o, _, k, _, hhandle, by rw [← hend], rfl⟩
  · rcases Turn.settle_some hend with ⟨e, rfl⟩
    exact ⟨rfl, ⟨e, h.ending_eq hs hhandle hend⟩, o, k, hhandle⟩

/-- Transactions that are submitted were below their limit when they were
    decoded. -/
theorem Runs.submits_le {policy : SessionPolicy} {left : Nat} {s : Session}
    (h : Runs policy left .zero s) :
    s.turns.countP (Turn.submits policy) ≤ policy.maxInboundTxPerSession.toNat := by
  refine ((Gauge.txs policy).metered h).countP_le (fun t _ ht => (Turn.submits_spec ht).1) ?_
  intro t hmem ht
  have hseen := (h.counts t hmem).seen
  have htxs := (h.counts t hmem).txs
  have hle := UInt32.le_iff_toNat_le.mp (Turn.submits_spec ht).2
  change _ ≤ 8192 at hseen
  rwa [saturatingSucc32_toNat (by omega)] at hle

/-- Stale blocks after which the session goes on are within their limit. -/
theorem Runs.stales_le {policy : SessionPolicy} {left : Nat} {s : Session}
    (h : Runs policy left .zero s) :
    s.turns.countP (fun t => t.stale && !t.ends policy) ≤
      policy.maxStaleDecodedBlocksPerSession.toNat := by
  refine ((Gauge.stales policy).metered h).countP_le
    (fun t _ ht => (Bool.and_eq_true_iff.mp ht).1) ?_
  intro t hmem ht
  rw [Bool.and_eq_true_iff, Bool.not_eq_true'] at ht
  rcases Turn.handsOn_of_not_ends ht.2 with ⟨u, hu⟩
  have hle := UInt32.le_iff_toNat_le.mp (hu.limits.2.1 ht.1)
  have hstep := (Gauge.stales policy).step_toNat (h.counts t hmem) hu
  rw [ht.1, Bool.toNat_true] at hstep
  omega

/-- The work of a session is bounded, whatever is read and whatever becomes of
    the node between two frames. The session ends; it decodes no more frames
    than either limit allows, and the events of each kind are within theirs. A
    frame beyond the limit for frames is not decoded. The first turn that uses
    up another limit is the last, and it leaves the node as it was. A stale
    block and a rejected block change one counter each. -/
theorem session_bounded (policy : SessionPolicy) (w : SessionWorld) (n : NodeInner) :
    let s := peerConnectionLoop policy w n
    (s.ending ≠ none ∧
      ∀ more, sessionLoop policy w (maxFramesPerInboundSession.toNat + 1 + more) 0 n .zero = s) ∧
    s.turns.length ≤
      min maxFramesPerInboundSession.toNat policy.maxAppFramesPerSession.toNat ∧
    s.turns.countP (Turn.submits policy) ≤ policy.maxInboundTxPerSession.toNat ∧
    s.turns.countP Turn.rejected ≤ max 1 policy.maxInvalidNetworkBlocksPerSession.toNat ∧
    s.turns.countP (fun t => t.stale && !t.ends policy) ≤
      policy.maxStaleDecodedBlocksPerSession.toNat ∧
    s.turns.countP (Turn.violates policy) ≤ max 1 policy.maxProtocolErrorsPerSession.toNat ∧
    (s.read ≤ maxFramesPerInboundSession.toNat ∧
      (s.read = s.turns.length ∨ s.read = s.turns.length + 1 ∧
        s.turns.length = policy.maxAppFramesPerSession.toNat ∧
        s.ending = some (.closed (.ok ())))) ∧
    (∀ pre t post, s.turns = pre ++ t :: post → Exhausts policy pre t →
      post = [] ∧ (∃ e, s.ending = some (.closed (.error e))) ∧
        ∃ o k, t.handle policy = some (o, t.node, k)) ∧
    ∀ (t : Turn) (o : Except PeerFrameError (Option Bytes)) (node : NodeInner)
        (k : LoopCounters), t.handle policy = some (o, node, k) →
      (t.stale = true → (t.settle policy k o).1 = { t.counters with
        staleDecodedBlocks := saturatingSucc32 t.counters.staleDecodedBlocks }) ∧
      (t.rejected = true → (t.settle policy k o).1 = { t.counters with
        invalidBlockStrikes := saturatingSucc32 t.counters.invalidBlockStrikes }) := by
  intro s
  have h : Runs policy (maxFramesPerInboundSession.toNat + 1) .zero s := sessionLoop_runs ..
  -- The counters start equal, and the loop has one turn more than frames are allowed.
  rcases h.reads rfl (by decide) with ⟨hends, hread, hlen⟩
  change 0 + s.read ≤ _ at hread
  have hended : s.ending ≠ none := hends (Nat.lt_add_left _ (Nat.lt_succ_self _))
  have happ := h.length_le
  refine ⟨⟨hended, fun more => sessionLoop_more hended more⟩, ?_, ?_, ?_, ?_, ?_, ⟨?_, ?_⟩, ?_, ?_⟩
  · exact le_min (by omega) happ
  · exact h.submits_le
  · exact ((Gauge.strikes policy).metered h).countP_le (fun _ _ ht => ht) fun t hmem _ =>
      (Gauge.strikes policy).below h (fun t u htu => htu.limits.2.2.1) t hmem
  · exact h.stales_le
  · exact ((Gauge.errors policy).metered h).countP_le (fun _ _ ht => ht) fun t hmem _ =>
      (Gauge.errors policy).below h (fun t u htu => htu.limits.2.2.2) t hmem
  · omega
  · -- A frame that is read and not decoded is the first beyond the limit.
    rcases hlen with hlen | ⟨hlen, hend, hmax⟩
    · exact Or.inl hlen
    · change _ ≤ 0 + s.turns.length at hmax
      exact Or.inr ⟨hlen, by omega, hend⟩
  · exact fun pre t post hs ht => ht.ends h hs
  · intro t o node k hhandle
    rw [Turn.turn_counters hhandle]
    constructor
    · intro hstale
      rcases Turn.stale_only hstale policy with ⟨htx, hrej, hviol⟩
      rw [hstale, htx, hrej, hviol]
      rfl
    · intro hrej
      rcases Turn.rejected_only hrej policy with ⟨htx, hstale, hviol⟩
      rw [hstale, htx, hrej, hviol]
      rfl

end Session

end Trilogicon
