import Trilogicon.Core.Session

/-!
# A Session on Its Connection

`Core.Session` leaves open what the loop reads and what becomes of its
responses. Here both are the connection: `peer_session_setup` and the whole of
`peer_connection_loop` on a stream, and the other side of such a connection, a
node that pushes a block or a transaction.

A loop reads and writes the same stream, so the stream is passed from turn to
turn. A connection that could not be made is its error. A push may panic in the
encoder after the handshake; its result is then `none`, and what was sent
stays sent.

## Main definitions

* `Surroundings`: What the outside decides beside the connection.
* `peerSessionSetup`: The check before the first frame.
* `connectionLoop`, `serveConnection`: The loop, and the whole of a session.
* `pushBlockToPeer`, `pushTxToPeer`: The two pushes.
-/

namespace Trilogicon

/-- What the outside does in each turn of a session, except for the connection:
    what other sessions make of the node, the clock, and the calls on the file. -/
structure Surroundings where
  others : Nat → NodeInner → NodeInner
  clock : Nat → UInt64
  calls : Nat → AppendIo

section Serve

variable [Primitives]

/-- `network::peer_session_setup`. -/
def peerSessionSetup (s : Stream) (n : NodeInner) : Except IoError Unit × Stream :=
  if n.store.poisoned then
    (.error (.other ("[storage] fail-closed: store poisoned — refusing new inbound session " ++
      "until restart")), s)
  else handshakeResponder s n.genesis n.chain.height

/-- Only a batch of blocks is written back. -/
def respond (s : Stream) : Except PeerFrameError (Option Bytes) → Except IoError Unit × Stream
  | .ok (some resp) => writeFramed s resp
  | .ok none => (.ok (), s)
  | .error _ => (.ok (), s)

/-- The loop of `peer_connection_loop` on its stream. -/
def connectionLoop (policy : SessionPolicy) (w : Surroundings) :
    Nat → Nat → Stream → NodeInner → LoopCounters → Session × Stream
  | 0, _, s, _, _ => (⟨0, [], none⟩, s)
  | left + 1, i, s, n, k =>
      let k := { k with framesSeen := saturatingSucc32 k.framesSeen }
      if maxFramesPerInboundSession < k.framesSeen then
        (⟨0, [], some (.closed (.error (.invalidData "inbound framed message limit exceeded")))⟩, s)
      else
        match readFramed s with
        | (.error e, s) => (⟨0, [], some (.closed (readFailure e))⟩, s)
        | (.ok frame, s) =>
            match checkedSucc32 k.appFrames with
            | none => (⟨1, [], some (.closed (.ok ()))⟩, s)
            | some nextFrame =>
                let k := { k with appFrames := nextFrame }
                if policy.maxAppFramesPerSession < k.appFrames then
                  (⟨1, [], some (.closed (.ok ()))⟩, s)
                else
                  -- Nothing is written before the frame was handled.
                  let t : Turn :=
                    { payload := frame, node := w.others i n, counters := k,
                      nowUnix := w.clock i, calls := w.calls i, write := .ok () }
                  match t.handle policy with
                  | none => (⟨1, [t], some .panicked⟩, s)
                  | some (outcome, node, k) =>
                      let (write, s) := respond s outcome
                      let t := { t with write := write }
                      match t.settle policy k outcome with
                      | (_, some result) => (⟨1, [t], some (.closed result)⟩, s)
                      | (k, none) =>
                          let (rest, s) := connectionLoop policy w left (i + 1) s node k
                          (⟨rest.read + 1, t :: rest.turns, rest.ending⟩, s)

/-- `network::peer_connection_loop`. -/
def serveConnection (policy : SessionPolicy) (w : Surroundings) (s : Stream) (n : NodeInner) :
    Session × Stream :=
  match peerSessionSetup s n with
  | (.error e, s) => (⟨0, [], some (.closed (.error e))⟩, s)
  | (.ok (), s) => connectionLoop policy w (maxFramesPerInboundSession.toNat + 1) 0 s n .zero

end Serve

section Push

variable [Primitives]

/-- What `push_block_to_peer_with_timeouts` and `push_tx_to_peer_with_timeouts`
    do with a message. They differ in the message and in a word of their
    errors. -/
def pushMessage (what peer : String) (connection : Except IoError Stream) (g : Genesis)
    (advisoryHeight : UInt64) (message : Option Bytes) :
    Option (Except String Unit) × Except IoError Stream :=
  match connection with
  | .error e =>
      (some (.error ("[peer] " ++ what ++ " connect " ++ peer ++ " failed: " ++ e.msg)), .error e)
  | .ok s =>
      match handshakeInitiator s g advisoryHeight with
      | (.error e, s) =>
          (some (.error ("[peer] " ++ what ++ " session handshake with " ++ peer ++ " failed: " ++
            e.msg)), .ok s)
      | (.ok (), s) =>
          match message with
          | none => (none, .ok s)
          | some msg =>
              let (written, s) := writeFramed s msg
              (some (written.mapError IoError.msg), .ok s)

/-- A block as a message. -/
def blockMessage (b : Block) : Option Bytes := do
  let enc ← encodeBlock b
  some (opBlock :: enc)

/-- A transaction as a message. -/
def txMessage (tx : Transaction) : Option Bytes := do
  let enc ← encodeTransaction tx
  some (opTx :: enc)

/-- `network::push_block_to_peer`. -/
def pushBlockToPeer (peer : String) (connection : Except IoError Stream) (g : Genesis)
    (advisoryHeight : UInt64) (b : Block) :
    Option (Except String Unit) × Except IoError Stream :=
  pushMessage "gossip" peer connection g advisoryHeight (blockMessage b)

/-- `network::push_tx_to_peer`. -/
def pushTxToPeer (peer : String) (connection : Except IoError Stream) (g : Genesis)
    (advisoryHeight : UInt64) (tx : Transaction) :
    Option (Except String Unit) × Except IoError Stream :=
  pushMessage "push_tx" peer connection g advisoryHeight (txMessage tx)

end Push

end Trilogicon
