import Trilogicon.Core.Node

/-!
# The Run Loop

`cmd_run` of `main.rs`, from the point where the node is loaded.

With `--peers`, the node first asks every peer for blocks. Sealing is allowed
once there was a round in which every call returned `Ok`; until then each
interval starts with another round. What a call returned besides `Ok` or `Err`
is only reported.

The call of `sync_from_peer` is a parameter, so that what is shown about the
loop holds for every sequence of results. `syncFromPeer` is the one `cmd_run`
passes. A run keeps a record of its rounds and of the seals it attempts.

The queue file, the peer book and the listener enter by what they do to the
node: the pool after the queue was drained, the peers that are asked after the
seal, the messages that came in during the sleep, and the errors. Gossip is left
out: it does not change the node.

## Main definitions

* `catchUpRound`: Ask every peer once.
* `allOk`: The test that opens the gate.
* `runInterval`: One turn of the loop.
* `cmdRun`: A run, with its record.
-/

namespace Trilogicon

/-- What `sync_from_peer` returns. -/
abbrev SyncResult := Except String SyncFromPeerOutcome

/-- `sync_from_peer` as the loop sees it. -/
abbrev SyncCall := NodeInner → String → SyncWorld → Option (SyncResult × NodeInner)

/-- `network::sync_from_peer` with the budget of `cmd_run`. -/
def syncFromPeer [Primitives] : SyncCall :=
  fun n peer w => n.syncFromPeerWithClock peer .default w

/-- `FATAL_SYNC_PREFIX`. -/
def fatalSyncPrefix : String := "FATAL:"

/-- What a run records: the results of a round, one for each peer, and that it
    attempts to seal. -/
inductive RunRecord where
  | catchUp (results : List (String × SyncResult))
  | sealAttempt

/-- The variables of `cmd_run` that the loop changes. -/
structure RunState where
  node : NodeInner
  sealingAllowed : Bool

/-- What the outside does during one turn of the loop. -/
structure Interval where
  /-- The messages that are handled while the loop sleeps. -/
  arrivals : List InboundMessage
  /-- What `drain_pending_file` does to the pool. -/
  drained : Mempool → Mempool
  /-- The connections of a round, for each peer. -/
  round : Nat → SyncWorld
  nowUnix : UInt64
  calls : AppendIo
  /-- The peers that are asked after the seal. -/
  targets : List (String × SyncWorld)
  /-- What saving the peer book returns. -/
  bookSaved : Except String Unit

/-- What a call does to `all_ok`. One that was stopped by its budget counts as
    any other `Ok`. -/
def stillOk (ok : Bool) (r : String × SyncResult) : Bool :=
  match r.2 with
  | .ok _ => ok
  | .error _ => false

/-- `all_ok` after the loop over the peers. -/
def allOk (results : List (String × SyncResult)) : Bool :=
  results.foldl stillOk true

section Rounds

variable (sync : SyncCall)

/-- The loop over the peers. A peer that fails does not end it. -/
def catchUpRound (n : NodeInner) :
    List String → (Nat → SyncWorld) → Option (List (String × SyncResult) × NodeInner)
  | [], _ => some ([], n)
  | p :: peers, worlds => do
      let (r, n) ← sync n p (worlds 0)
      let (rs, n) ← catchUpRound n peers fun i => worlds (i + 1)
      some ((p, r) :: rs, n)

/-- The loop over the peers after the seal. Only a fatal error ends the run. -/
def followPeers (n : NodeInner) :
    List (String × SyncWorld) → Option (Except String Unit × NodeInner)
  | [] => some (.ok (), n)
  | (p, w) :: targets => do
      match ← sync n p w with
      | (.ok _, n) => followPeers n targets
      | (.error e, n) =>
          if fatalSyncPrefix.toList.isPrefixOf e.toList then some (.error e, n)
          else followPeers n targets

/-- The initial round. `setup` is what saving the peer book and opening the
    listener return. -/
def startRun (peers : List String) (n : NodeInner) (first : Nat → SyncWorld)
    (setup : Except String Unit) : Option (List RunRecord × Except String RunState) :=
  if peers = [] then some ([], setup.map fun _ => { node := n, sealingAllowed := true })
  else do
    let (results, n) ← catchUpRound sync n peers first
    some ([.catchUp results],
      setup.map fun _ => { node := n, sealingAllowed := allOk results })

/-- The round at the start of a turn, made only while sealing is not allowed.
    Returns the record and the flag. -/
def retryRound (peers : List String) (n : NodeInner) (allowed : Bool) (round : Nat → SyncWorld) :
    Option (List RunRecord × Bool × NodeInner) :=
  if allowed || peers.isEmpty then some ([], allowed, n)
  else do
    let (results, n) ← catchUpRound sync n peers round
    some ([.catchUp results], allOk results, n)

end Rounds

section Run

variable [Primitives]

/-- The messages of peers, one after the other. -/
def receiveAll (n : NodeInner) : List InboundMessage → Option NodeInner
  | [] => some n
  | m :: ms => do
      let n ← n.receive m
      receiveAll n ms

variable (sync : SyncCall)

/-- The seal and what follows it in the same turn. -/
def sealAndFollow (peers : List String) (n : NodeInner) (allowed : Bool) (v : Interval) :
    Option (Except String RunState) := do
  match ← n.sealAndPersist allowed v.nowUnix v.calls with
  | (.error e, _) => some (.error e)
  | (.ok _, n) =>
      if peers = [] then some (.ok { node := n, sealingAllowed := allowed })
      else do
        match ← followPeers sync n v.targets with
        | (.error e, _) => some (.error e)
        | (.ok (), n) =>
            some (v.bookSaved.map fun _ => { node := n, sealingAllowed := allowed })

/-- One turn of the loop. -/
def runInterval (peers : List String) (s : RunState) (v : Interval) :
    Option (List RunRecord × Except String RunState) := do
  let n ← receiveAll s.node v.arrivals
  if n.store.poisoned then
    some ([], .error ("[storage] fail-closed: store poisoned in this process after a prior " ++
      "append/sync failure — stop; repair or restore chain.blocks before restart"))
  else do
    let n := { n with pool := v.drained n.pool }
    let (log, allowed, n) ← retryRound sync peers n s.sealingAllowed v.round
    let out ← sealAndFollow sync peers n allowed v
    some (log ++ (if allowed then [.sealAttempt] else []), out)

/-- The loop, until it returns an error or is stopped. -/
def runIntervals (peers : List String) :
    RunState → List Interval → Option (List RunRecord × Except String RunState)
  | s, [] => some ([], .ok s)
  | s, v :: vs => do
      match ← runInterval sync peers s v with
      | (log, .error e) => some (log, .error e)
      | (log, .ok s) => do
          let (rest, out) ← runIntervals peers s vs
          some (log ++ rest, out)

/-- `cmd_run` on a node that was loaded. -/
def cmdRun (peers : List String) (n : NodeInner) (first : Nat → SyncWorld)
    (setup : Except String Unit) (vs : List Interval) :
    Option (List RunRecord × Except String RunState) := do
  match ← startRun sync peers n first setup with
  | (log, .error e) => some (log, .error e)
  | (log, .ok s) => do
      let (rest, out) ← runIntervals sync peers s vs
      some (log ++ rest, out)

end Run

end Trilogicon
