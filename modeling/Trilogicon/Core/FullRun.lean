import Trilogicon.Core.Connection
import Trilogicon.Core.PeerBook
import Trilogicon.Core.Run

/-!
# The Whole Run Loop

`cmd_run` with its peer book and its gossip.

`Core.Run` has the peers that are asked after the seal, and whether the peer
book could be saved, as data of an interval, and leaves gossip out. Here the
peers come from the peer book, the results of the calls go back into it, and a
block that was sealed is pushed to every configured peer that is not in its
cooldown. The pushes are those of `Core.Connection`.

A turn keeps a record of the calls it made. The clock is read anew for each
purpose: for the targets, for each entry of the book, and for the gossip.

A call of `now_g + 45` that overflows is taken to wrap, as in a release build.

## Main definitions

* `Ask`, `Push`, `TurnLog`: The calls of a turn.
* `followTargets`: The loop over the targets of a turn.
* `gossipPeers`: The loop that pushes a sealed block.
* `runTurn`, `runTurns`: The loop.
* `fullRun`: `cmd_run` on a node that was loaded.
-/

namespace Trilogicon

/-- `GOSSIP_FAIL_THRESHOLD`. -/
def gossipFailThreshold : UInt32 := 5

/-- `GOSSIP_COOLDOWN_SECS`. -/
def gossipCooldownSecs : UInt64 := 45

/-- The two maps of the gossip. -/
structure GossipState where
  cooldownUntil : Finmap (fun _ : String => UInt64)
  failStreak : Finmap (fun _ : String => UInt32)

/-- The maps at the start. -/
def GossipState.empty : GossipState :=
  ⟨∅, ∅⟩

/-- The variables of `cmd_run` that the loop changes. -/
structure FullState where
  node : NodeInner
  peerBook : PeerBook
  sealingAllowed : Bool
  gossip : GossipState

/-- A call of `sync_from_peer` after the seal. -/
structure Ask where
  peer : String
  /-- The clock when the targets were chosen. -/
  nowSync : UInt64
  result : SyncResult
  /-- The clock when the result goes into the book. -/
  recordedAt : UInt64

/-- A call of `push_block_to_peer`. -/
structure Push where
  peer : String
  now : UInt64
  result : Except String Unit

/-- The record of a turn. -/
structure TurnLog where
  records : List RunRecord
  sealed : Option Block
  asks : List Ask
  pushes : List Push

/-- What the outside does during one turn of the loop. -/
structure TurnWorld where
  /-- The messages that are handled while the loop sleeps. -/
  arrivals : List InboundMessage
  /-- What `drain_pending_file` does to the pool. -/
  drained : Mempool → Mempool
  /-- The connections of a round, for each peer. -/
  round : Nat → SyncWorld
  nowUnix : UInt64
  calls : AppendIo
  nowSync : UInt64
  /-- The connections to the targets. -/
  worlds : Nat → SyncWorld
  recordClock : Nat → UInt64
  /-- What saving the peer book returns. -/
  bookSaved : Except String Unit
  nowGossip : UInt64
  /-- The connections of the gossip, for each peer. -/
  connections : Nat → Except IoError Stream

section Follow

variable (sync : SyncCall) (nowSync : UInt64)

/-- The loop over the targets, with the peer book. A fatal error ends the run
    before it is recorded. -/
def followTargets (n : NodeInner) (book : PeerBook) : List String → (Nat → SyncWorld) →
    (Nat → UInt64) → Option (List Ask × Except String Unit × NodeInner × PeerBook)
  | [], _, _ => some ([], .ok (), n, book)
  | p :: targets, worlds, clock => do
      match ← sync n p (worlds 0) with
      | (.ok out, n) => do
          let (asks, r, n, book) ← followTargets n (book.recordOk p (clock 0)) targets
            (fun i => worlds (i + 1)) fun i => clock (i + 1)
          some (⟨p, nowSync, .ok out, clock 0⟩ :: asks, r, n, book)
      | (.error e, n) =>
          if fatalSyncPrefix.toList.isPrefixOf e.toList then
            some ([⟨p, nowSync, .error e, clock 0⟩], .error e, n, book)
          else do
            let (asks, r, n, book) ← followTargets n (book.recordFail p (clock 0)) targets
              (fun i => worlds (i + 1)) fun i => clock (i + 1)
            some (⟨p, nowSync, .error e, clock 0⟩ :: asks, r, n, book)

end Follow

/-- What a push does to the maps. -/
def GossipState.settle (s : GossipState) (push : Push) : GossipState :=
  match push.result with
  | .ok () => { s with failStreak := s.failStreak.erase push.peer }
  | .error _ =>
      let streak := saturatingSucc32 ((s.failStreak.lookup push.peer).getD 0)
      if gossipFailThreshold ≤ streak then
        { cooldownUntil := s.cooldownUntil.insert push.peer (push.now + gossipCooldownSecs),
          failStreak := s.failStreak.insert push.peer 0 }
      else { s with failStreak := s.failStreak.insert push.peer streak }

/-- Whether a peer is passed over. -/
def GossipState.cooling (s : GossipState) (peer : String) (now : UInt64) : Bool :=
  (s.cooldownUntil.lookup peer).any fun t => now < t

section Loop

variable [Primitives]

/-- The loop that pushes a sealed block. -/
def gossipPeers (g : Genesis) (b : Block) (now : UInt64) (s : GossipState) :
    List String → (Nat → Except IoError Stream) → Option (List Push × GossipState)
  | [], _ => some ([], s)
  | p :: peers, connections =>
      if s.cooling p now then gossipPeers g b now s peers fun i => connections (i + 1)
      else do
        let result ← (pushBlockToPeer p (connections 0) g b.height b).1
        let push : Push := ⟨p, now, result⟩
        let (pushes, s) ← gossipPeers g b now (s.settle push) peers fun i => connections (i + 1)
        some (push :: pushes, s)

/-- The gossip of a turn, if it sealed a block. -/
def gossipSealed (g : Genesis) (peers : List String) (sealed : Option Block) (s : GossipState)
    (w : TurnWorld) : Option (List Push × GossipState) :=
  match sealed with
  | none => some ([], s)
  | some b => gossipPeers g b w.nowGossip s peers w.connections

variable (sync : SyncCall)

/-- The part of a turn that follows the seal, under the lock. -/
def followBook (peers : List String) (n : NodeInner) (book : PeerBook) (w : TurnWorld) :
    Option (List Ask × Except String Unit × NodeInner × PeerBook) :=
  if peers = [] then some ([], .ok (), n, book)
  else do
    let targets := book.syncCandidates peers
    let filtered := book.filterAvailable targets w.nowSync
    match ← followTargets sync w.nowSync n book filtered w.worlds w.recordClock with
    | (asks, .error e, n, book) => some (asks, .error e, n, book)
    | (asks, .ok (), n, book) => some (asks, w.bookSaved, n, book)

/-- One turn of the loop. -/
def runTurn (g : Genesis) (peers : List String) (s : FullState) (w : TurnWorld) :
    Option (TurnLog × Except String FullState) := do
  let n ← receiveAll s.node w.arrivals
  if n.store.poisoned then
    some (⟨[], none, [], []⟩, .error ("[storage] fail-closed: store poisoned in this process " ++
      "after a prior append/sync failure — stop; repair or restore chain.blocks before restart"))
  else do
    let n := { n with pool := w.drained n.pool }
    let (log, allowed, n) ← retryRound sync peers n s.sealingAllowed w.round
    let records := log ++ (if allowed then [.sealAttempt] else [])
    match ← n.sealAndPersist allowed w.nowUnix w.calls with
    | (.error e, _) => some (⟨records, none, [], []⟩, .error e)
    | (.ok sealed, n) => do
        match ← followBook sync peers n s.peerBook w with
        | (asks, .error e, _, _) => some (⟨records, sealed, asks, []⟩, .error e)
        | (asks, .ok (), n, book) => do
            let (pushes, gossip) ← gossipSealed g peers sealed s.gossip w
            some (⟨records, sealed, asks, pushes⟩, .ok
              { node := n, peerBook := book, sealingAllowed := allowed, gossip := gossip })

/-- The loop, until it returns an error or is stopped. -/
def runTurns (g : Genesis) (peers : List String) :
    FullState → List TurnWorld → Option (List TurnLog × Except String FullState)
  | s, [] => some ([], .ok s)
  | s, w :: ws => do
      match ← runTurn sync g peers s w with
      | (log, .error e) => some ([log], .error e)
      | (log, .ok s) => do
          let (logs, out) ← runTurns g peers s ws
          some (log :: logs, out)

/-- What is done before the loop: merge the configured peers into the book, save
    it, ask every peer once, save the book again and open the listener. -/
structure StartWorld where
  bookSaved : Except String Unit
  first : Nat → SyncWorld
  bookSavedAgain : Except String Unit
  listening : Except String Unit

/-- The part of `cmd_run` before the loop. -/
def fullStart (peers : List String) (n : NodeInner) (book : PeerBook) (w : StartWorld) :
    Option (List RunRecord × Except String FullState) :=
  let book := peers.foldl PeerBook.mergeSeed book
  match w.bookSaved with
  | .error e => some ([], .error e)
  | .ok () =>
      if peers = [] then
        some ([], w.listening.map fun _ =>
          { node := n, peerBook := book, sealingAllowed := true, gossip := .empty })
      else do
        let (results, n) ← catchUpRound sync n peers w.first
        some ([.catchUp results], (do w.bookSavedAgain; w.listening).map fun _ =>
          { node := n, peerBook := book, sealingAllowed := allOk results, gossip := .empty })

/-- `cmd_run` on a node and a peer book that were loaded. -/
def fullRun (peers : List String) (n : NodeInner) (book : PeerBook) (w : StartWorld)
    (ws : List TurnWorld) : Option (List RunRecord × List TurnLog × Except String FullState) := do
  match ← fullStart sync peers n book w with
  | (log, .error e) => some (log, [], .error e)
  | (log, .ok s) => do
      let (logs, out) ← runTurns sync n.genesis peers s ws
      some (log, logs, out)

end Loop

end Trilogicon
