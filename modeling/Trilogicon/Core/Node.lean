import Trilogicon.Core.Storage
import Trilogicon.Core.Wire

/-!
# The Node

`NodeInner` of `network.rs` and what changes it: the messages of peers, the
pull from a peer that catches up, and the seal of `cmd_run`.

A block becomes part of the chain in memory first and of the file second. If
the file refuses it, the chain is rolled back. A store that was poisoned by a
failed write refuses everything until the node is restarted.

What the outside decides is given to each operation: the clock, what becomes
of the writes to the file, and for a pull the connections to the peer. A panic
of the encoder is `none`.

## Main definitions

* `NodeInner`: The chain, the pool and the store of a node.
* `NodeInner.appendNetworkBlockPersist`: Take a block from the network.
* `NodeInner.applyPredecoded`: Handle a message of a peer.
* `pullBlocksFromPeer`: One round of catching up.
* `NodeInner.syncFromPeerWithClock`: Catch up with a peer.
* `NodeInner.sealAndPersist`: Seal a block from the pool, as `cmd_run` does.
-/

namespace Trilogicon

/-- `network::NodeInner`. The caches of seen ids and the peer book are left
    out: nothing here reads them. -/
structure NodeInner where
  genesis : Genesis
  chain : Blockchain
  pool : Mempool
  store : BlockStore

/-- `network::NetworkBlockPersistFailure`. -/
inductive NetworkBlockPersistFailure where
  | storePoisoned
  | peerRejectedBlock (detail : String)
  | missingTipAfterApply
  | persistAfterApply (ioDetail : String)
  | rollbackFailed (persistDetail rollbackDetail : String)
deriving DecidableEq, Repr

namespace NetworkBlockPersistFailure

/-- `counts_toward_invalid_block_budget`. -/
def countsTowardInvalidBlockBudget : NetworkBlockPersistFailure → Bool
  | .peerRejectedBlock _ => true
  | _ => false

/-- The `Display` text. -/
def display : NetworkBlockPersistFailure → String
  | .storePoisoned =>
      "[storage] fail-closed: store poisoned after a prior append/sync failure — refusing " ++
        "further appends in this process; restart after repairing chain.blocks"
  | .peerRejectedBlock detail => detail
  | .missingTipAfterApply => "missing tip after append"
  | .persistAfterApply ioDetail =>
      "[storage] persist block failed: " ++ ioDetail ++ " — chain.blocks may be partial; " ++
        "store is fail-closed for this process until restart"
  | .rollbackFailed persistDetail rollbackDetail =>
      "FATAL: persist failed: " ++ persistDetail ++ "; chain rollback failed: " ++
        rollbackDetail ++ " (disk and memory may disagree — stop the node and repair " ++
        "chain.blocks)"

end NetworkBlockPersistFailure

/-- The limits of `network::InboundPeerPolicy` that a message is held to. -/
structure InboundPeerPolicy where
  maxInvalidNetworkBlocksPerSession : UInt32
  maxStaleDecodedBlocksPerSession : UInt32
deriving DecidableEq, Repr

/-- What a session counts for those limits. -/
structure SessionCounters where
  invalidBlockStrikes : UInt32
  staleDecodedBlocks : UInt32
deriving DecidableEq, Repr

/-- A message of a peer: the bytes of its frame, with the clock, the session
    and the file at that moment. -/
structure InboundMessage where
  payload : Bytes
  nowUnix : UInt64
  counters : SessionCounters
  policy : InboundPeerPolicy
  calls : AppendIo
deriving DecidableEq, Repr

/-- `u32::saturating_add(1)`. -/
def saturatingSucc32 (n : UInt32) : UInt32 :=
  if n = 0xFFFFFFFF then n else n + 1

/-- `network::SyncWorkBudget`. -/
structure SyncWorkBudget where
  maxRoundsPerCall : UInt32
  maxBlocksPerCall : UInt32
  maxWireBytesPerCall : UInt64
deriving DecidableEq, Repr

/-- `SyncWorkBudget::default`. -/
def SyncWorkBudget.default : SyncWorkBudget :=
  { maxRoundsPerCall := 8192, maxBlocksPerCall := 500000,
    maxWireBytesPerCall := 512 * 1024 * 1024 }

/-- `network::validate_sync_work_budget`. -/
def validateSyncWorkBudget (budget : SyncWorkBudget) : Except String Unit :=
  if budget.maxRoundsPerCall = 0 then
    .error "[sync] invalid budget: max_rounds_per_call must be >= 1"
  else if budget.maxBlocksPerCall = 0 then
    .error "[sync] invalid budget: max_blocks_per_call must be >= 1"
  else if budget.maxWireBytesPerCall = 0 then
    .error ("[sync] invalid budget: max_wire_bytes_per_call must be >= 1 (use u64::MAX for a " ++
      "practical unlimited cap)")
  else .ok ()

/-- `network::SyncFromPeerOutcome`. -/
structure SyncFromPeerOutcome where
  blocksAppended : Nat
  stoppedDueToBudget : Bool
deriving DecidableEq, Repr

/-- What the outside does during a pull: the connection of each round, and the
    clock and the file at each block. -/
structure SyncWorld where
  connection : Nat → Except IoError Stream
  clock : Nat → UInt64
  calls : Nat → AppendIo

section Node

variable [Primitives]

/-- `network::pull_blocks_from_peer`, on the connection that was made. -/
def pullBlocksFromPeer (peer : String) (connection : Except IoError Stream)
    (startHeight : UInt64) (g : Genesis) (advisoryHeight : UInt64) :
    Except String (List Block × UInt64) :=
  match connection with
  | .error e => .error ("[sync] connect " ++ peer ++ " failed: " ++ e.msg)
  | .ok s =>
      match handshakeInitiator s g advisoryHeight with
      | (.error e, _) =>
          .error ("[sync] session handshake with " ++ peer ++ " failed: " ++ e.msg)
      | (.ok (), s) =>
          match writeFramed s (wireEncodeGetBlocks startHeight) with
          | (.error e, _) => .error e.msg
          | (.ok (), s) =>
              match readFramed s with
              | (.error e, _) => .error e.msg
              | (.ok resp, _) => do
                  let blocks ← wireDecodeBlocksResponse resp
                  .ok (blocks, UInt64.ofNat resp.length)

namespace NodeInner

/-- `NodeInner::append_network_block_persist`. -/
def appendNetworkBlockPersist (n : NodeInner) (b : Block) (nowUnix : UInt64)
    (calls : AppendIo) : Option (Except NetworkBlockPersistFailure Unit × NodeInner) :=
  if n.store.poisoned then some (.error .storePoisoned, n)
  else
    match n.chain.tryAppendNetworkBlock b nowUnix with
    | (.error e, chain) => some (.error (.peerRejectedBlock e.display), { n with chain := chain })
    | (.ok (), chain) =>
        match chain.blocks.getLast? with
        | none => some (.error .missingTipAfterApply, { n with chain := chain })
        | some tip => do
            match ← n.store.appendBlock tip calls with
            | (.ok (), store) => some (.ok (), { n with chain := chain, store := store })
            | (.error e, store) =>
                -- The file refused the block, so memory goes back.
                match chain.rollbackLastBlock n.genesis with
                | (.error r, chain) =>
                    some (.error (.rollbackFailed e.msg r.display),
                      { n with chain := chain, store := store })
                | (.ok (), chain) =>
                    some (.error (.persistAfterApply e.msg),
                      { n with chain := chain, store := store })

/-- `NodeInner::mempool_hygiene_after_ledger_advance`. -/
def mempoolHygieneAfterLedgerAdvance (n : NodeInner) : (Nat × Nat × Nat) × NodeInner :=
  let (counts, pool) := n.pool.hygieneVsCommittedLedger n.chain.state
  (counts, { n with pool := pool })

/-- What `apply_predecoded` does with a block. -/
def applyBlock (n : NodeInner) (b : Block) (nowUnix : UInt64) (k : SessionCounters)
    (policy : InboundPeerPolicy) (calls : AppendIo) :
    Option (Except PeerFrameError (Option Bytes) × NodeInner × SessionCounters) :=
  if b.height ≤ n.chain.height then
    let k := { k with staleDecodedBlocks := saturatingSucc32 k.staleDecodedBlocks }
    if policy.maxStaleDecodedBlocksPerSession < k.staleDecodedBlocks then
      some (.error (.staleBlockIngressQuotaExhausted policy.maxStaleDecodedBlocksPerSession), n, k)
    else some (.ok none, n, k)
  else do
    match ← n.appendNetworkBlockPersist b nowUnix calls with
    | (.ok (), n) => some (.ok none, n.mempoolHygieneAfterLedgerAdvance.2, k)
    | (.error failure, n) =>
        if failure.countsTowardInvalidBlockBudget then
          let k := { k with invalidBlockStrikes := saturatingSucc32 k.invalidBlockStrikes }
          if policy.maxInvalidNetworkBlocksPerSession ≤ k.invalidBlockStrikes then
            some (.error (.invalidBlockBudgetExhausted policy.maxInvalidNetworkBlocksPerSession),
              n, k)
          else some (.ok none, n, k)
        else some (.error (.localFatal failure.display), n, k)

/-- `network::apply_predecoded`. -/
def applyPredecoded (n : NodeInner) (decoded : PredecodedInbound) (nowUnix : UInt64)
    (k : SessionCounters) (policy : InboundPeerPolicy) (calls : AppendIo) :
    Option (Except PeerFrameError (Option Bytes) × NodeInner × SessionCounters) :=
  if n.store.poisoned then
    some (.error (.localFatal ("[storage] fail-closed: store poisoned after write failure — " ++
      "closing peer session; repair chain.blocks and restart")), n, k)
  else
    match decoded with
    | .tx tx =>
        -- A rejected transaction is reported and dropped.
        some (.ok none, { n with pool := (n.pool.trySubmit tx).2 }, k)
    | .block b => n.applyBlock b nowUnix k policy calls
    | .getBlocks startHeight => do
        match ← wireEncodeBlocksResponse
            (n.chain.blocksFromHeightLimited startHeight maxBlocksPerBatch) with
        | .error e => some (.error (.malformed e), n, k)
        | .ok encoded => some (.ok (some encoded), n, k)

/-- What the session loop does with a message. A message that cannot be decoded
    does not reach the node. -/
def receive (n : NodeInner) (m : InboundMessage) : Option NodeInner :=
  match predecodeInboundAppPayload m.payload with
  | .error _ => some n
  | .ok decoded =>
      (n.applyPredecoded decoded m.nowUnix m.counters m.policy m.calls).map fun r => r.2.1

/-- The inner loop of `sync_from_peer_with_clock`: append blocks until the
    budget is used up. Returns the node, the number of blocks appended by the
    call so far, and whether the budget ended it. -/
def appendBatch (w : SyncWorld) (maxBlocks : Nat) :
    NodeInner → Nat → List Block → Option (NodeInner × Nat × Except String Bool)
  | n, total, [] => some (n, total, .ok false)
  | n, total, b :: bs => do
      match ← n.appendNetworkBlockPersist b (w.clock total) (w.calls total) with
      | (.error f, n) => some (n, total, .error f.display)
      | (.ok (), n) =>
          if maxBlocks ≤ total + 1 then some (n, total + 1, .ok true)
          else appendBatch w maxBlocks n (total + 1) bs

/-- The outer loop of `sync_from_peer_with_clock`, by recursion on the rounds
    that are left. The three limits at its head all end it the same way. -/
def syncRounds (peer : String) (budget : SyncWorkBudget) (w : SyncWorld) :
    Nat → Nat → NodeInner → Nat → UInt64 → Option (NodeInner × Nat × Except String Bool)
  | 0, _, n, total, _ => some (n, total, .ok true)
  | left + 1, round, n, total, wireBytes =>
      let maxBlocks := budget.maxBlocksPerCall.toNat
      if maxBlocks ≤ total then some (n, total, .ok true)
      else if budget.maxWireBytesPerCall ≤ wireBytes then some (n, total, .ok true)
      else
        let heightNow := n.chain.height
        match pullBlocksFromPeer peer (w.connection round) (saturatingSucc heightNow) n.genesis
            heightNow with
        | .error e => some (n, total, .error e)
        | .ok (blocks, nbytes) =>
            let wireBytes := saturatingAdd wireBytes nbytes
            if blocks = [] then some (n, total, .ok false)
            else
              match validateLinearSyncBatch n.chain blocks with
              | .error e => some (n, total, .error e)
              | .ok () =>
                  let room := maxBlocks - total
                  if room = 0 then some (n, total, .ok true)
                  else do
                    let applyN := min blocks.length room
                    match ← appendBatch w maxBlocks n total (blocks.take applyN) with
                    | (n, total, .error e) => some (n, total, .error e)
                    | (n, total, .ok true) => some (n, total, .ok true)
                    | (n, total, .ok false) =>
                        if applyN < blocks.length then some (n, total, .ok true)
                        else if budget.maxWireBytesPerCall < wireBytes then
                          some (n, total, .ok true)
                        else syncRounds peer budget w left (round + 1) n total wireBytes

/-- `network::sync_from_peer_with_clock`. The pool is cleaned only if the call
    gets to its end. -/
def syncFromPeerWithClock (n : NodeInner) (peer : String) (budget : SyncWorkBudget)
    (w : SyncWorld) : Option (Except String SyncFromPeerOutcome × NodeInner) :=
  if n.store.poisoned then
    some (.error ("[storage] fail-closed: store poisoned — refusing peer sync; repair " ++
      "chain.blocks and restart"), n)
  else
    match validateSyncWorkBudget budget with
    | .error e => some (.error e, n)
    | .ok () => do
        match ← syncRounds peer budget w budget.maxRoundsPerCall.toNat 0 n 0 0 with
        | (n, _, .error e) => some (.error e, n)
        | (n, total, .ok stopped) =>
            let n := if 0 < total then n.mempoolHygieneAfterLedgerAdvance.2 else n
            some (.ok { blocksAppended := total, stoppedDueToBudget := stopped }, n)

/-- The seal of `cmd_run`: clean the pool, seal at most 64 transactions if
    sealing is allowed, write the block, and forget its transactions or go
    back. Returns the sealed block, or the error that ends the run. A seal that
    fails is only reported. -/
def sealAndPersist (n : NodeInner) (sealingAllowed : Bool) (nowUnix : UInt64)
    (calls : AppendIo) : Option (Except String (Option Block) × NodeInner) :=
  let n := n.mempoolHygieneAfterLedgerAdvance.2
  if sealingAllowed then
    match n.chain.appendBlockFromMempoolPendingRemoval n.pool 64 nowUnix with
    | (.ok none, chain) => some (.ok none, { n with chain := chain })
    | (.ok (some hashes), chain) => do
        -- The tip is there: a block was just appended.
        let tip ← chain.blocks.getLast?
        match ← n.store.appendBlock tip calls with
        | (.ok (), store) =>
            some (.ok (some tip), { n with
              chain := chain, store := store, pool := n.pool.removeByTxHashes hashes })
        | (.error e, store) =>
            match chain.rollbackLastBlock n.genesis with
            | (.error _, chain) =>
                some (.error "chain.blocks persist failed and rollback failed",
                  { n with chain := chain, store := store })
            | (.ok (), chain) =>
                some (.error ("[storage] fail-closed: chain.blocks write failure — " ++ e.msg),
                  { n with chain := chain, store := store })
    | (.error _, chain) =>
        some (.ok none, { n with chain := chain }.mempoolHygieneAfterLedgerAdvance.2)
  else some (.ok none, n)

end NodeInner

end Node

end Trilogicon
