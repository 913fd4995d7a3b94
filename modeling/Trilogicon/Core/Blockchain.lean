import Mathlib.Data.List.DropRight
import Trilogicon.Core.Block
import Trilogicon.Core.Mempool

/-!
# The Blockchain

`blockchain.rs` and `consensus.rs`: a list of blocks, the account table they
produce, and the operations that extend the list or cut it back.

A block is appended when it passes its own checks, follows the tip in height,
hash and time, and its transactions apply to the current table. The table is
replaced only then, so a failed append changes nothing. The two rollbacks drop
blocks first and rebuild the table from genesis afterwards.

Heights are machine words, and the successor of the tip's height wraps. The
block that would wrap has height zero, and the checks for height zero then
refuse it.

## Main definitions

* `ConsensusParams`: The timestamp policy.
* `recomputeStateFromBlocks`: Replay blocks on the genesis table.
* `Blockchain`: Blocks, table and policy.
* `Blockchain.appendBlock`: Append a block.
* `Blockchain.tryAppendNetworkBlock`: The same, after a clock check.
* `Blockchain.appendBlockFromMempoolPendingRemoval`: Seal a block from the pool.
* `Blockchain.appendBlockFromMempool`: Seal, and forget what was committed.
* `Blockchain.rollbackToHeight`, `Blockchain.rollbackLastBlock`: Cut back.
* `Blockchain.blocksFromHeightLimited`: The blocks a peer asks for.

## Theorems

* `appendBlock_ok_iff`: What an accepted block satisfies.
* `appendBlock_keeps`: A rejected block changes nothing.
* `applyBlocks_append_ok_iff`: Replay splits where the list of blocks does.
-/

namespace Trilogicon

/-- `consensus::ConsensusParams`. -/
structure ConsensusParams where
  minBlockIntervalSecs : UInt64
  maxFutureDriftSecs : UInt64
deriving DecidableEq, Repr

/-- `ConsensusParams::default`: no interval, and no limit on drift. -/
def ConsensusParams.default : ConsensusParams :=
  { minBlockIntervalSecs := 0, maxFutureDriftSecs := 0xFFFFFFFFFFFFFFFF }

/-- `consensus::validate_block_timestamps_vs_parent`. -/
def validateBlockTimestampsVsParent (parent candidate : Block) (params : ConsensusParams) :
    Except ProtocolError Unit :=
  match checkedAdd parent.timestampUnix params.minBlockIntervalSecs with
  | none => .error (.invalidBlock "block timestamp arithmetic overflow")
  | some minTs =>
      if candidate.timestampUnix < minTs then
        .error (.invalidBlock "block timestamp violates minimum interval after parent")
      else .ok ()

/-- Under every policy time does not run backwards. -/
theorem validateBlockTimestampsVsParent_le {parent candidate : Block} {params : ConsensusParams}
    (h : validateBlockTimestampsVsParent parent candidate params = .ok ()) :
    parent.timestampUnix ≤ candidate.timestampUnix := by
  rw [validateBlockTimestampsVsParent] at h
  cases hsum : checkedAdd parent.timestampUnix params.minBlockIntervalSecs with
  | none =>
      rw [hsum] at h
      exact absurd h (by simp only [reduceCtorEq, not_false_eq_true])
  | some minTs =>
      simp only [hsum, ite_error_ok_iff, and_true] at h
      have hnat := checkedAdd_eq_some.mp hsum
      rw [UInt64.le_iff_toNat_le]
      rw [UInt64.lt_iff_toNat_lt] at h
      omega

/-- The default policy asks for nothing else. -/
theorem validateBlockTimestampsVsParent_default {parent candidate : Block}
    (h : parent.timestampUnix ≤ candidate.timestampUnix) :
    validateBlockTimestampsVsParent parent candidate .default = .ok () := by
  have hsum : checkedAdd parent.timestampUnix ConsensusParams.default.minBlockIntervalSecs =
      some parent.timestampUnix :=
    checkedAdd_eq_some.mpr rfl
  simp only [validateBlockTimestampsVsParent, hsum]
  rw [if_neg (UInt64.not_lt.mpr h)]

/-- `consensus::validate_block_vs_local_time`. -/
def validateBlockVsLocalTime (blockTs nowUnix maxFutureDriftSecs : UInt64) :
    Except ProtocolError Unit :=
  if saturatingAdd nowUnix maxFutureDriftSecs < blockTs then
    .error (.invalidBlock "block timestamp too far in the future")
  else .ok ()

/-- Under the default policy no block is too far in the future. -/
theorem validateBlockVsLocalTime_default (ts now : UInt64) :
    validateBlockVsLocalTime ts now ConsensusParams.default.maxFutureDriftSecs = .ok () := by
  have hsum : (saturatingAdd now ConsensusParams.default.maxFutureDriftSecs).toNat =
      2 ^ 64 - 1 := by
    rw [saturatingAdd_toNat, ConsensusParams.default]
    exact Nat.min_eq_right (Nat.le_add_left _ _)
  have hlt := ts.toNat_lt
  rw [validateBlockVsLocalTime, if_neg]
  rw [UInt64.lt_iff_toNat_lt, hsum]
  omega

section Replay

variable [Primitives]

/-- Apply the transactions of each block in turn. -/
def applyBlocks : State → List Block → Except ProtocolError State
  | s, [] => .ok s
  | s, b :: bs => do
      let s' ← s.applyAll b.transactions
      applyBlocks s' bs

/-- `blockchain::recompute_state_from_blocks`. -/
def recomputeStateFromBlocks (blocks : List Block) (g : Genesis) : Except ProtocolError State := do
  let s ← State.fromGenesis g
  applyBlocks s (blocks.drop 1)

theorem applyBlocks_append_ok_iff (s s' : State) (bs cs : List Block) :
    applyBlocks s (bs ++ cs) = .ok s' ↔
      ∃ t, applyBlocks s bs = .ok t ∧ applyBlocks t cs = .ok s' := by
  induction bs generalizing s with
  | nil => simp only [List.nil_append, applyBlocks, Except.ok.injEq, exists_eq_left']
  | cons b bs ih =>
      simp only [List.cons_append, applyBlocks, bind_ok_iff, ih]
      constructor
      · rintro ⟨t, ht, u, hu, hcs⟩
        exact ⟨u, ⟨t, ht, hu⟩, hcs⟩
      · rintro ⟨u, ⟨t, ht, hu⟩, hcs⟩
        exact ⟨t, ht, u, hu, hcs⟩

theorem applyBlocks_singleton (s : State) (b : Block) :
    applyBlocks s [b] = s.applyAll b.transactions := by
  rw [applyBlocks]
  cases s.applyAll b.transactions with
  | error e => rfl
  | ok t => rfl

/-- Replaying blocks applies all their transactions in order. -/
theorem applyBlocks_ok_iff (s s' : State) (bs : List Block) :
    applyBlocks s bs = .ok s' ↔ s.applyAll (bs.flatMap Block.transactions) = .ok s' := by
  induction bs generalizing s with
  | nil => simp only [applyBlocks, List.flatMap_nil, State.applyAll]
  | cons b bs ih =>
      rw [applyBlocks, bind_ok_iff, List.flatMap_cons, State.applyAll_append_ok_iff]
      simp only [ih]

end Replay

/-- `blockchain::Blockchain`. -/
structure Blockchain where
  blocks : List Block
  state : State
  consensus : ConsensusParams

namespace Blockchain

/-- `Blockchain::from_genesis`. -/
def fromGenesis (g : Genesis) : Except ProtocolError Blockchain := do
  let state ← State.fromGenesis g
  .ok { blocks := [Block.genesis], state := state, consensus := .default }

/-- `Blockchain::from_genesis_with_consensus`. -/
def fromGenesisWithConsensus (g : Genesis) (consensus : ConsensusParams) :
    Except ProtocolError Blockchain := do
  let c ← fromGenesis g
  .ok { c with consensus := consensus }

/-- `Blockchain::height`. -/
def height (c : Blockchain) : UInt64 :=
  (c.blocks.getLast?.map Block.height).getD 0

/-- `Blockchain::blocks_from_height_limited`. -/
def blocksFromHeightLimited (c : Blockchain) (startHeight : UInt64) (limit : Nat) : List Block :=
  if limit = 0 then []
  else (c.blocks.filter fun b => startHeight ≤ b.height).take limit

section Operations

variable [Primitives]

/-- `Blockchain::append_block`. -/
def appendBlock (c : Blockchain) (b : Block) : Except ProtocolError Unit × Blockchain :=
  attempt b.basicValidate c fun _ =>
  okOr c.blocks.getLast? (.stateError "chain tip missing") c fun tip =>
  if b.height ≠ tip.height + 1 then (.error (.invalidBlock "invalid block height"), c)
  else if b.previousHash ≠ tip.blockHash then
    (.error (.invalidBlock "invalid previous hash"), c)
  else
    attempt (validateBlockTimestampsVsParent tip b c.consensus) c fun _ =>
    -- The transactions run on a copy of the table.
    attempt (c.state.applyAll b.transactions) c fun nextState =>
    (.ok (), { c with state := nextState, blocks := c.blocks ++ [b] })

/-- `Blockchain::try_append_network_block`. -/
def tryAppendNetworkBlock (c : Blockchain) (b : Block) (nowUnix : UInt64) :
    Except ProtocolError Unit × Blockchain :=
  attempt (validateBlockVsLocalTime b.timestampUnix nowUnix c.consensus.maxFutureDriftSecs) c
    fun _ => c.appendBlock b

/-- `Blockchain::rollback_to_height`. The blocks are gone even if the replay
    of the others fails. -/
def rollbackToHeight (c : Blockchain) (targetHeight : UInt64) (g : Genesis) :
    Except ProtocolError Unit × Blockchain :=
  if c.height < targetHeight then
    (.error (.stateError ("rollback target height " ++ targetHeight.toNat.repr ++
      " above current tip " ++ c.height.toNat.repr)), c)
  else
    let cut := { c with blocks := c.blocks.rdropWhile fun b => targetHeight < b.height }
    attempt (recomputeStateFromBlocks cut.blocks g) cut fun state =>
    (.ok (), { cut with state := state })

/-- `Blockchain::rebuild_state_from_genesis`. -/
def rebuildStateFromGenesis (c : Blockchain) (g : Genesis) :
    Except ProtocolError Unit × Blockchain :=
  attempt (recomputeStateFromBlocks c.blocks g) c fun state =>
  (.ok (), { c with state := state })

/-- `Blockchain::rollback_last_block`. -/
def rollbackLastBlock (c : Blockchain) (g : Genesis) : Except ProtocolError Unit × Blockchain :=
  if c.blocks.length ≤ 1 then (.error (.stateError "cannot rollback genesis tip"), c)
  else rebuildStateFromGenesis { c with blocks := c.blocks.dropLast } g

/-- The block a seal builds on the tip. -/
def sealedBlock (tip : Block) (timestampUnix : UInt64) (txs : List Transaction) : Block :=
  let block : Block :=
    { height := tip.height + 1, previousHash := tip.blockHash, timestampUnix := timestampUnix,
      transactions := txs, blockHash := "" }
  { block with blockHash := block.computeBlockHash }

/-- A sealed block carries its own hash, which does not depend on the field
    that holds it. -/
theorem sealedBlock_hash (tip : Block) (timestampUnix : UInt64) (txs : List Transaction) :
    (sealedBlock tip timestampUnix txs).blockHash =
      (sealedBlock tip timestampUnix txs).computeBlockHash :=
  rfl

/-- `Blockchain::append_block_from_mempool_pending_removal`. -/
def appendBlockFromMempoolPendingRemoval (c : Blockchain) (m : Mempool) (maxTransactions : Nat)
    (timestampUnix : UInt64) : Except ProtocolError (Option (List String)) × Blockchain :=
  attempt (m.orderedCandidatesForSeal c.state maxTransactions) c fun txs =>
  if txs = [] then (.ok none, c)
  else
    okOr c.blocks.getLast? (.stateError "chain tip missing") c fun tip =>
    match c.appendBlock (sealedBlock tip timestampUnix txs) with
    | (.error e, c') => (.error e, c')
    | (.ok (), c') => (.ok (some (txs.map Transaction.txHash)), c')

/-- `Blockchain::append_block_from_mempool`. -/
def appendBlockFromMempool (c : Blockchain) (m : Mempool) (maxTransactions : Nat)
    (timestampUnix : UInt64) : Except ProtocolError Nat × Blockchain × Mempool :=
  match c.appendBlockFromMempoolPendingRemoval m maxTransactions timestampUnix with
  | (.error e, c') => (.error e, c', m)
  | (.ok none, c') => (.ok 0, c', m)
  | (.ok (some hashes), c') => (.ok hashes.length, c', m.removeByTxHashes hashes)

/-- What an accepted block satisfies, and the chain it leaves. -/
theorem appendBlock_ok_iff (c c' : Blockchain) (b : Block) :
    c.appendBlock b = (.ok (), c') ↔ b.basicValidate = .ok () ∧ ∃ tip,
      c.blocks.getLast? = some tip ∧ b.height = tip.height + 1 ∧ b.previousHash = tip.blockHash ∧
      validateBlockTimestampsVsParent tip b c.consensus = .ok () ∧
      ∃ next, c.state.applyAll b.transactions = .ok next ∧
        c' = { c with state := next, blocks := c.blocks ++ [b] } := by
  simp only [appendBlock, attempt_then_ok_iff, okOr_ok_iff, ite_errorPair_iff, not_not, ne_eq]
  simp only [attempt_ok_iff, Prod.mk.injEq, true_and]
  refine and_congr_right fun _ => exists_congr fun tip => ?_
  refine and_congr_right fun _ => and_congr_right fun _ => and_congr_right fun _ => ?_
  refine and_congr_right fun _ => exists_congr fun next => and_congr_right fun _ => ?_
  exact eq_comm

/-- A rejected block changes nothing. -/
theorem appendBlock_keeps (c : Blockchain) (b : Block) : Keeps c (c.appendBlock b) :=
  attempt_keeps fun _ _ => okOr_keeps fun _ _ => ite_keeps fun _ => ite_keeps fun _ =>
    attempt_keeps fun _ _ => attempt_keeps fun _ _ => keeps_ok

end Operations

end Blockchain

end Trilogicon
