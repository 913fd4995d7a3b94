import Trilogicon.Core.Node

/-!
# The Session of a Peer

The loop of `peer_connection_loop`, after the handshake: count the frame, read
it, count it again, decode it, hand it to the node, and decide whether the
session goes on. A session has six counters. The two for blocks are changed
under the lock of the node, by `apply_predecoded`; the other four belong to the
loop.

Between two frames the node is not locked, and other sessions may change it in
any way. That, the frames, and what becomes of the writes are given by the
outside. A panic of the encoder ends the session.

The loop is by recursion on a bound for its turns. It returns the turns in
which a frame was decoded, with the node and the counters as the turn found
them, so that what a session does can be counted without its own counters.

## Main definitions

* `SessionPolicy`: All limits of a session.
* `LoopCounters`: All counters of a session.
* `Turn`: A frame that is decoded, and all that decides what it does.
* `Turn.handle`: What a frame does to the node and the counters.
* `Turn.settle`: Whether the session goes on.
* `sessionLoop`: The loop.
-/

namespace Trilogicon

/-- `MAX_FRAMES_PER_INBOUND_SESSION`. -/
def maxFramesPerInboundSession : UInt32 := 8192

/-- The limits of `network::InboundPeerPolicy` that a session is held to: those
    of a message, and those of the loop. -/
structure SessionPolicy extends InboundPeerPolicy where
  maxProtocolErrorsPerSession : UInt32
  maxAppFramesPerSession : UInt32
  maxInboundTxPerSession : UInt32
deriving DecidableEq, Repr

/-- The counters of `peer_connection_loop`. -/
structure LoopCounters extends SessionCounters where
  protocolErrors : UInt32
  appFrames : UInt32
  inboundTxDecoded : UInt32
  framesSeen : UInt32
deriving DecidableEq, Repr

/-- The counters of a new session. -/
def LoopCounters.zero : LoopCounters :=
  { invalidBlockStrikes := 0, staleDecodedBlocks := 0, protocolErrors := 0, appFrames := 0,
    inboundTxDecoded := 0, framesSeen := 0 }

/-- What the outside does in each turn of a session: what other sessions make of
    the node before it, what is read, what becomes of a response, the clock, and
    the calls on the file. -/
structure SessionWorld where
  others : Nat → NodeInner → NodeInner
  reads : Nat → Except IoError Bytes
  writes : Nat → Except IoError Unit
  clock : Nat → UInt64
  calls : Nat → AppendIo

/-- A turn in which a frame is decoded. -/
structure Turn where
  payload : Bytes
  node : NodeInner
  counters : LoopCounters
  nowUnix : UInt64
  calls : AppendIo
  write : Except IoError Unit

/-- How a session ends: with a result, or with a panic. -/
inductive SessionEnd where
  | closed (result : Except IoError Unit)
  | panicked
deriving DecidableEq, Repr

/-- What a session did: how many frames it read, the turns in which one was
    decoded, and how it ended. -/
structure Session where
  read : Nat
  turns : List Turn
  ending : Option SessionEnd

/-- `io_err_idle_timeout`. -/
def ioErrIdleTimeout (e : IoError) : Bool :=
  e.kind == .timedOut || e.kind == .wouldBlock

/-- With what a session ends if a frame cannot be read. -/
def readFailure (e : IoError) : Except IoError Unit :=
  if e.kind = .unexpectedEof then .ok ()
  else if ioErrIdleTimeout e then .ok ()
  else if e.kind = .invalidData then
    .error ⟨e.kind, "[peer] fail-closed: wire frame read rejected — " ++ e.msg⟩
  else .error e

/-- `u32::checked_add(1)`. -/
def checkedSucc32 (n : UInt32) : Option UInt32 :=
  if n = 0xFFFFFFFF then none else some (n + 1)

namespace Turn

/-- Decode the frame, and hold a transaction to its limit. A message that passes
    is for `apply_predecoded`. -/
def screen (policy : SessionPolicy) (t : Turn) :
    Except PeerFrameError PredecodedInbound × LoopCounters :=
  match predecodeInboundAppPayload t.payload with
  | .error e => (.error e, t.counters)
  | .ok (.tx tx) =>
      let k := { t.counters with
        inboundTxDecoded := saturatingSucc32 t.counters.inboundTxDecoded }
      if k.inboundTxDecoded ≤ policy.maxInboundTxPerSession then (.ok (.tx tx), k)
      else (.error (.inboundTxIngressQuotaExhausted policy.maxInboundTxPerSession), k)
  | .ok decoded => (.ok decoded, t.counters)

section Handle

variable [Primitives]

/-- What the frame does: the outcome, the node and the counters. -/
def handle (policy : SessionPolicy) (t : Turn) :
    Option (Except PeerFrameError (Option Bytes) × NodeInner × LoopCounters) :=
  match t.screen policy with
  | (.error e, k) => some (.error e, t.node, k)
  | (.ok decoded, k) => do
      let (outcome, node, c) ← t.node.applyPredecoded decoded t.nowUnix k.toSessionCounters
        policy.toInboundPeerPolicy t.calls
      some (outcome, node, { k with toSessionCounters := c })

end Handle

/-- What the loop makes of an outcome: the counters, and the result of the
    session if it ends. -/
def settle (policy : SessionPolicy) (t : Turn) (k : LoopCounters) :
    Except PeerFrameError (Option Bytes) → LoopCounters × Option (Except IoError Unit)
  | .ok (some _) =>
      match t.write with
      | .ok () => (k, none)
      | .error e => (k, some (.error e))
  | .ok none => (k, none)
  | .error (.invalidBlockBudgetExhausted limit) =>
      (k, some (.error (.invalidData ("TRIL_INVALID_BLOCK_BUDGET_EXHAUSTED: [peer] disconnect — " ++
        "peer exceeded max_invalid_network_blocks_per_session (" ++ limit.toNat.repr ++ ")"))))
  | .error (.staleBlockIngressQuotaExhausted limit) =>
      (k, some (.error (.invalidData ("TRIL_INGRESS_STALE_BLOCK_QUOTA_EXHAUSTED: [peer] " ++
        "disconnect — exceeded max_stale_decoded_blocks_per_session (" ++ limit.toNat.repr ++
        ")"))))
  | .error (.inboundTxIngressQuotaExhausted limit) =>
      (k, some (.error (.invalidData ("TRIL_INGRESS_INBOUND_TX_QUOTA_EXHAUSTED: [peer] " ++
        "disconnect — exceeded max_inbound_tx_per_session (" ++ limit.toNat.repr ++ ")"))))
  | .error (.localFatal msg) => (k, some (.error (.other msg)))
  | .error (.protocol e) =>
      let k := { k with protocolErrors := saturatingSucc32 k.protocolErrors }
      if policy.maxProtocolErrorsPerSession ≤ k.protocolErrors then (k, some (.error e))
      else (k, none)

end Turn

section Loop

variable [Primitives]

/-- The loop of `peer_connection_loop`. -/
def sessionLoop (policy : SessionPolicy) (w : SessionWorld) :
    Nat → Nat → NodeInner → LoopCounters → Session
  | 0, _, _, _ => ⟨0, [], none⟩
  | left + 1, i, n, k =>
      let k := { k with framesSeen := saturatingSucc32 k.framesSeen }
      if maxFramesPerInboundSession < k.framesSeen then
        ⟨0, [], some (.closed (.error (.invalidData "inbound framed message limit exceeded")))⟩
      else
        match w.reads i with
        | .error e => ⟨0, [], some (.closed (readFailure e))⟩
        | .ok frame =>
            match checkedSucc32 k.appFrames with
            | none => ⟨1, [], some (.closed (.ok ()))⟩
            | some nextFrame =>
                let k := { k with appFrames := nextFrame }
                if policy.maxAppFramesPerSession < k.appFrames then
                  ⟨1, [], some (.closed (.ok ()))⟩
                else
                  let t : Turn :=
                    { payload := frame, node := w.others i n, counters := k,
                      nowUnix := w.clock i, calls := w.calls i, write := w.writes i }
                  match t.handle policy with
                  | none => ⟨1, [t], some .panicked⟩
                  | some (outcome, node, k) =>
                      match t.settle policy k outcome with
                      | (_, some result) => ⟨1, [t], some (.closed result)⟩
                      | (k, none) =>
                          let rest := sessionLoop policy w left (i + 1) node k
                          ⟨rest.read + 1, t :: rest.turns, rest.ending⟩

/-- `network::peer_connection_loop`, after `peer_session_setup`. Its turns are
    bounded by the number of frames. -/
def peerConnectionLoop (policy : SessionPolicy) (w : SessionWorld) (n : NodeInner) : Session :=
  sessionLoop policy w (maxFramesPerInboundSession.toNat + 1) 0 n .zero

end Loop

end Trilogicon
