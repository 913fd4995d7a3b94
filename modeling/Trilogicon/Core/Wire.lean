import Trilogicon.Core.Blockchain
import Trilogicon.Core.Encoding
import Trilogicon.Lib.Io

/-!
# The Wire

`network.rs`, up to the point where the node is touched: frames on a stream,
the session handshake, batches of blocks, and the messages of a peer.

A frame is a length and a body. A session starts with a HELLO and its
acknowledgement, which carry the commitment to the genesis document; a node
goes on only if the other side sent the same commitment. Afterwards the bodies
are transactions, blocks and requests for blocks, told apart by their first
byte. A batch of blocks is a count and length-prefixed blocks.

Encoding a block may panic, which is `none` here.

## Main definitions

* `readFramed`, `writeFramed`: Frames on a stream.
* `encodeSessionPayload`, `decodeSessionPayload`: The body of a HELLO.
* `handshakeInitiator`, `handshakeResponder`: The two sides of a handshake.
* `wireEncodeBlocksResponse`, `wireDecodeBlocksResponse`: Batches of blocks.
* `validateLinearSyncBatch`: A batch extends the tip.
* `predecodeInboundAppPayload`: The messages of a peer.

## Theorems

* `readFramed_ok_iff`: What a successful read consumed.
* `writeFramed_ok`: What a successful write sent.
* `wireDecodeBlocksResponse_ok_iff`: A batch is accepted exactly as written.
* `wireEncodeBlocksResponse_eq`: When a batch can be sent.
* `wireEncodeBlocksResponse_ok`: A batch that was sent is read back.
* `frameOnWire_append_inj`: Only one frame can stand at the front of a stream.
-/

namespace Trilogicon

/-- `MAX_WIRE_FRAME_BYTES`, 64 MiB. -/
def maxWireFrameBytes : Nat := 64 * 1024 * 1024

/-- `MAX_BLOCKS_PER_BATCH`. -/
def maxBlocksPerBatch : Nat := 64

/-- `TRIL_WIRE_PROTOCOL_VERSION`. -/
def trilWireProtocolVersion : UInt16 := 2

/-- `MAX_SESSION_COMMITMENT_BYTES`. -/
def maxSessionCommitmentBytes : Nat := 512

/-- `OP_TX`. -/
def opTx : UInt8 := 1

/-- `OP_BLOCK`. -/
def opBlock : UInt8 := 2

/-- `OP_GET_BLOCKS`. -/
def opGetBlocks : UInt8 := 3

/-- `OP_BLOCKS`. -/
def opBlocks : UInt8 := 4

/-- `OP_SESSION_HELLO`. -/
def opSessionHello : UInt8 := 5

/-- `OP_SESSION_HELLO_ACK`. -/
def opSessionHelloAck : UInt8 := 6

/-! ### Frames -/

/-- `network::read_framed`. -/
def readFramed (s : Stream) : Except IoError Bytes × Stream :=
  andThen (s.readExact 4) fun hdr s =>
  if maxWireFrameBytes < ofBe hdr then (.error (.invalidData "wire frame exceeds max size"), s)
  else s.readExact (ofBe hdr)

/-- `network::validate_outbound_framed_payload_len`. The conversion to a word
    cannot fail after the first check. -/
def validateOutboundFramedPayloadLen (len : Nat) : Except IoError Nat :=
  if maxWireFrameBytes < len then
    .error (.invalidInput "wire payload exceeds MAX_WIRE_FRAME_BYTES")
  else if 2 ^ 32 ≤ len then .error (.invalidInput "wire payload length does not fit u32")
  else .ok len

/-- `network::write_framed`, with one outcome for its calls. -/
def writeFramed (s : Stream) (payload : Bytes) : Except IoError Unit × Stream :=
  attempt (validateOutboundFramedPayloadLen payload.length) s fun len =>
  s.writeAll (beBytes 4 len ++ payload)

/-! ### Sessions -/

section Session

variable [Primitives]

/-- `network::encode_session_payload`. -/
def encodeSessionPayload (opcode : UInt8) (g : Genesis) (advisoryHeight : UInt64) :
    Except String Bytes := do
  let hex ← g.stateCommitmentHex.mapError ProtocolError.display
  if maxSessionCommitmentBytes < (utf8 hex).length then
    .error ("genesis commitment hex too long for wire session (max " ++
      maxSessionCommitmentBytes.repr ++ ")")
  else
    .ok (opcode :: beBytes 2 trilWireProtocolVersion.toNat ++ beBytes 2 (utf8 hex).length ++
      utf8 hex ++ beBytes 8 advisoryHeight.toNat)

/-- `network::decode_session_payload`: opcode, version, commitment, height. -/
def decodeSessionPayload (data : Bytes) : Except String (UInt8 × UInt16 × String × UInt64) :=
  if data.length < 1 + 2 + 2 + 8 then .error "[peer] malformed session frame: too short"
  else
    let op := data.headD 0
    let ver := UInt16.ofNat (ofBe ((data.drop 1).take 2))
    let hlen := ofBe ((data.drop 3).take 2)
    if maxSessionCommitmentBytes < hlen then
      .error "[peer] malformed session frame: commitment length exceeds cap"
    else if data.length < 5 + hlen + 8 then
      .error "[peer] malformed session frame: truncated"
    else
      match fromUtf8 ((data.drop 5).take hlen) with
      | none => .error "[peer] malformed session frame: commitment not valid UTF-8"
      | some hex =>
          let advisory := UInt64.ofNat (ofBe ((data.drop (5 + hlen)).take 8))
          if data.length ≠ 5 + hlen + 8 then
            .error "[peer] malformed session frame: trailing bytes after payload"
          else .ok (op, ver, hex, advisory)

/-- The checks both sides make on a session frame. They differ in the opcode
    and in the text for a wrong one. -/
def checkSessionPeer (opcode : UInt8) (wrongOpcode : UInt8 → String) (g : Genesis)
    (frame : Bytes) : Except IoError Unit := do
  let (op, ver, peerHex, _) ← (decodeSessionPayload frame).mapError IoError.invalidData
  if op ≠ opcode then .error (.invalidData (wrongOpcode op))
  else if ver ≠ trilWireProtocolVersion then
    .error (.invalidData ("[peer] disconnecting: incompatible wire version (peer " ++
      ver.toNat.repr ++ ", want " ++ trilWireProtocolVersion.toNat.repr ++ ")"))
  else do
    let localHex ← (g.stateCommitmentHex.mapError ProtocolError.display).mapError
      IoError.invalidData
    if peerHex ≠ localHex then
      .error (.invalidData ("[peer] disconnecting: genesis state commitment mismatch " ++
        "(align genesis.toml across nodes; not local chain.blocks corruption)"))
    else .ok ()

/-- `network::handshake_initiator`: send HELLO, read and check the ACK. -/
def handshakeInitiator (s : Stream) (g : Genesis) (advisoryHeight : UInt64) :
    Except IoError Unit × Stream :=
  attempt ((encodeSessionPayload opSessionHello g advisoryHeight).mapError IoError.invalidData) s
    fun hello =>
  andThen (writeFramed s hello) fun _ s =>
  andThen (readFramed s) fun resp s =>
  (checkSessionPeer opSessionHelloAck (fun op =>
    "[peer] disconnecting: expected session HELLO_ACK, got opcode " ++ op.toNat.repr) g resp, s)

/-- `network::handshake_responder`: read and check the HELLO, send the ACK. -/
def handshakeResponder (s : Stream) (g : Genesis) (advisoryHeight : UInt64) :
    Except IoError Unit × Stream :=
  andThen (readFramed s) fun frame s =>
  attempt (checkSessionPeer opSessionHello (fun op =>
    "[peer] disconnecting: expected session HELLO (op " ++ opSessionHello.toNat.repr ++
      ") as first frame, got opcode " ++ op.toNat.repr) g frame) s fun _ =>
  attempt ((encodeSessionPayload opSessionHelloAck g advisoryHeight).mapError
    IoError.invalidData) s fun ack =>
  writeFramed s ack

end Session

/-! ### Batches of blocks -/

/-- `network::wire_encode_get_blocks`. -/
def wireEncodeGetBlocks (startHeight : UInt64) : Bytes :=
  opGetBlocks :: beBytes 8 startHeight.toNat

/-- The loop of `wire_encode_blocks_response`. The size is checked after each
    block. -/
def pushBlocks (out : Bytes) : List Block → Option (Except String Bytes)
  | [] => some (.ok out)
  | b :: bs => do
      let enc ← encodeBlock b
      if 2 ^ 32 ≤ enc.length then some (.error "encoded block length overflow")
      else
        let out := out ++ (beBytes 4 enc.length ++ enc)
        if maxWireFrameBytes < out.length then
          some (.error "encoded OP_BLOCKS response exceeds MAX_WIRE_FRAME_BYTES")
        else pushBlocks out bs

/-- `network::wire_encode_blocks_response`. The count is at most the size of a
    batch, so its conversion to a word cannot fail. -/
def wireEncodeBlocksResponse (blocks : List Block) : Option (Except String Bytes) :=
  let n := min blocks.length maxBlocksPerBatch
  pushBlocks (opBlocks :: beBytes 4 n) (blocks.take n)

/-- One round of the loop of `parse_op_blocks_body`. -/
def readBatchEntry (i : Nat) : Parser UInt8 String Block := do
  let hdr ← Parser.take 4 fun _ => "truncated block length (" ++ i.repr ++ ")"
  if maxWireFrameBytes < ofBe hdr then
    Parser.fail ("OP_BLOCKS entry " ++ i.repr ++
      ": encoded block length exceeds max frame size")
  else do
    let body ← Parser.take (ofBe hdr) fun _ => "truncated block body (" ++ i.repr ++ ")"
    Parser.lift ((decodeBlock body).mapError EncodeError.msg)

/-- `network::parse_op_blocks_body`. -/
def parseOpBlocksBody (data : Bytes) (maxBlocks : Nat) : Except String (List Block) :=
  if data.length < 4 then .error "short OP_BLOCKS body"
  else
    let n := ofBe (data.take 4)
    if maxBlocks < n then
      .error ("OP_BLOCKS batch count " ++ n.repr ++ " exceeds max " ++ maxBlocks.repr)
    else
      match Parser.many readBatchEntry 0 n (data.drop 4) with
      | .error e => .error e
      | .ok (out, rest) =>
          if rest ≠ [] then .error "trailing bytes after OP_BLOCKS batch" else .ok out

/-- `network::wire_decode_blocks_response`. -/
def wireDecodeBlocksResponse (payload : Bytes) : Except String (List Block) :=
  match payload with
  | [] => .error "empty response"
  | op :: body =>
      if op = opBlocks then parseOpBlocksBody body maxBlocksPerBatch
      else .error ("expected OP_BLOCKS, got opcode " ++ op.toNat.repr)

section Sync

variable [Primitives]

/-- `u64::saturating_add(1)`. -/
def saturatingSucc (n : UInt64) : UInt64 :=
  saturatingAdd n 1

/-- The loop of `validate_linear_sync_batch`. -/
def checkLinear (i : Nat) (expectHeight : UInt64) (prevHash : String) :
    List Block → Except String Unit
  | [] => .ok ()
  | b :: bs => do
      b.basicValidate.mapError fun e =>
        "sync batch block " ++ i.repr ++ " basic_validate: " ++ e.display
      if b.height ≠ expectHeight then
        .error ("sync batch not linear at index " ++ i.repr ++ ": expected height " ++
          expectHeight.toNat.repr ++ ", got " ++ b.height.toNat.repr ++
          " (gap, stale, or out-of-order)")
      else if b.previousHash ≠ prevHash then
        .error ("sync batch broken link at index " ++ i.repr ++
          ": previous_hash does not extend tip")
      else checkLinear (i + 1) (saturatingSucc expectHeight) b.blockHash bs

/-- `network::validate_linear_sync_batch`. -/
def validateLinearSyncBatch (c : Blockchain) (blocks : List Block) : Except String Unit :=
  if blocks = [] then .ok ()
  else
    match c.blocks.getLast? with
    | none => .error "chain has no tip"
    | some tip => checkLinear 0 (saturatingSucc tip.height) tip.blockHash blocks

end Sync

/-! ### Messages -/

/-- `network::PredecodedInbound`. -/
inductive PredecodedInbound where
  | tx (tx : Transaction)
  | block (b : Block)
  | getBlocks (startHeight : UInt64)
deriving DecidableEq, Repr

/-- `network::PeerFrameError`. -/
inductive PeerFrameError where
  | invalidBlockBudgetExhausted (maxInvalidNetworkBlocksPerSession : UInt32)
  | staleBlockIngressQuotaExhausted (maxStaleDecodedBlocksPerSession : UInt32)
  | inboundTxIngressQuotaExhausted (maxInboundTxPerSession : UInt32)
  | localFatal (msg : String)
  | protocol (e : IoError)
deriving DecidableEq, Repr

/-- A message that is not what it should be. -/
def PeerFrameError.malformed (msg : String) : PeerFrameError :=
  .protocol (.invalidData msg)

/-- `network::predecode_inbound_app_payload`. -/
def predecodeInboundAppPayload (payload : Bytes) : Except PeerFrameError PredecodedInbound :=
  match payload with
  | [] => .error (.malformed "empty payload")
  | op :: body =>
      if op = opTx then
        match decodeTransaction body with
        | .error e => .error (.malformed e.msg)
        | .ok tx => .ok (.tx tx)
      else if op = opBlock then
        match decodeBlock body with
        | .error e => .error (.malformed e.msg)
        | .ok b => .ok (.block b)
      else if op = opGetBlocks then
        if body.length ≠ 8 then .error (.malformed "[peer] malformed GET_BLOCKS payload length")
        else .ok (.getBlocks (UInt64.ofNat (ofBe body)))
      else if op = opSessionHello ∨ op = opSessionHelloAck then
        .error (.malformed "[peer] session handshake must be first frame only")
      else .error (.malformed "[peer] unknown wire opcode")

/-! ### Laws -/

/-- A frame as it stands on a stream. -/
def frameOnWire (payload : Bytes) : Bytes :=
  beBytes 4 payload.length ++ payload

theorem readFramed_ok_iff {s s' : Stream} {payload : Bytes} :
    readFramed s = (.ok payload, s') ↔ payload.length ≤ maxWireFrameBytes ∧
      ∃ rest, s.incoming = frameOnWire payload ++ rest ∧ s' = { s with incoming := rest } := by
  simp only [readFramed, andThen_ok_iff, ite_errorPair_iff, Stream.readExact_ok_iff]
  constructor
  · rintro ⟨hdr, t, ⟨hfour, rest₁, hin, rfl⟩, hmax, hlen, rest, hin', rfl⟩
    simp only at hin'
    refine ⟨by omega, rest, ?_, rfl⟩
    -- The four bytes are the only ones that read as this length.
    have hhdr := beBytes_ofBe hdr
    rw [hfour] at hhdr
    rw [hin, hin', frameOnWire, hlen, hhdr, List.append_assoc]
  · rintro ⟨hmax, rest, hin, rfl⟩
    have hword : ofBe (beBytes 4 payload.length) = payload.length := by
      refine ofBe_beBytes_of_lt ?_
      unfold maxWireFrameBytes at hmax
      omega
    refine ⟨beBytes 4 payload.length, _, ⟨beBytes_length 4 _, payload ++ rest, ?_, rfl⟩, ?_,
      hword.symm, rest, rfl, rfl⟩
    · rw [hin, frameOnWire, List.append_assoc]
    · omega

theorem validateOutboundFramedPayloadLen_ok_iff {len n : Nat} :
    validateOutboundFramedPayloadLen len = .ok n ↔ len ≤ maxWireFrameBytes ∧ n = len := by
  simp only [validateOutboundFramedPayloadLen, ite_error_ok_iff, Except.ok.injEq]
  unfold maxWireFrameBytes
  constructor
  · rintro ⟨h, _, rfl⟩
    exact ⟨by omega, rfl⟩
  · rintro ⟨h, rfl⟩
    exact ⟨by omega, by omega, rfl⟩

/-- A successful write sent the frame. -/
theorem writeFramed_ok {s s' : Stream} {payload : Bytes}
    (h : writeFramed s payload = (.ok (), s')) :
    payload.length ≤ maxWireFrameBytes ∧ s'.sent = s.sent ++ frameOnWire payload ∧
      s'.incoming = s.incoming ∧ s'.ending = s.ending := by
  rcases attempt_ok_iff.mp h with ⟨n, hn, hw⟩
  rcases validateOutboundFramedPayloadLen_ok_iff.mp hn with ⟨hmax, rfl⟩
  exact ⟨hmax, Stream.writeAll_ok hw⟩

/-- A write on a connection that takes everything. -/
theorem writeFramed_of_writes_nil {s : Stream} {payload : Bytes}
    (hmax : payload.length ≤ maxWireFrameBytes) (hw : s.writes = []) :
    writeFramed s payload = (.ok (), { s with sent := s.sent ++ frameOnWire payload }) := by
  rw [writeFramed, validateOutboundFramedPayloadLen_ok_iff.mpr ⟨hmax, rfl⟩, attempt,
    Stream.writeAll, hw]
  rfl

/-- A block as it stands in a batch. -/
def batchEntry (b : Block) : Option Bytes := do
  let enc ← encodeBlock b
  if enc.length ≤ maxWireFrameBytes then some (beBytes 4 enc.length ++ enc) else none

theorem batchEntry_eq_some {b : Block} {e : Bytes} :
    batchEntry b = some e ↔ ∃ enc, encodeBlock b = some enc ∧ enc.length ≤ maxWireFrameBytes ∧
      e = frameOnWire enc := by
  simp only [batchEntry, Option.bind_eq_bind, Option.bind_eq_some_iff,
    Option.ite_none_right_eq_some, Option.some.injEq, frameOnWire, eq_comm (a := e)]

theorem readBatchEntry_reads (i : Nat) : Reads (readBatchEntry i) batchEntry := by
  intro data b rest
  simp only [readBatchEntry, Parser.bind_ok_iff, Parser.take_ok_iff, Parser.guard_ok_iff,
    Parser.lift_ok_iff, mapError_ok_iff, decodeBlock_ok_iff, batchEntry_eq_some]
  constructor
  · rintro ⟨hdr, _, ⟨hfour, rfl⟩, hmax, body, _, ⟨hbody, rfl⟩, he, rfl⟩
    refine ⟨frameOnWire body, ⟨body, he, by omega, rfl⟩, ?_⟩
    have hhdr := beBytes_ofBe hdr
    rw [hfour] at hhdr
    rw [frameOnWire, hbody, hhdr, List.append_assoc]
  · rintro ⟨_, ⟨enc, he, hmax, rfl⟩, rfl⟩
    have hword : ofBe (beBytes 4 enc.length) = enc.length := by
      refine ofBe_beBytes_of_lt ?_
      unfold maxWireFrameBytes at hmax
      omega
    refine ⟨beBytes 4 enc.length, enc ++ rest, ⟨beBytes_length 4 _, ?_⟩, by omega, enc, rest,
      ⟨hword.symm, rfl⟩, he, rfl⟩
    rw [frameOnWire, List.append_assoc]

/-- A batch is accepted exactly as it is written: opcode, count, and the
    blocks, each after its length. -/
theorem wireDecodeBlocksResponse_ok_iff {w : Bytes} {bs : List Block} :
    wireDecodeBlocksResponse w = .ok bs ↔ bs.length ≤ maxBlocksPerBatch ∧
      ∃ es, writeAll batchEntry bs = some es ∧ w = opBlocks :: beBytes 4 bs.length ++ es := by
  cases w with
  | nil =>
      simp only [wireDecodeBlocksResponse, reduceCtorEq, false_iff]
      rintro ⟨_, es, _, hc⟩
      exact absurd hc (by simp only [List.cons_append, reduceCtorEq, not_false_eq_true])
  | cons op body =>
      simp only [wireDecodeBlocksResponse, ite_ok_error_iff, parseOpBlocksBody, ite_error_ok_iff,
        List.cons_append, List.cons.injEq]
      constructor
      · rintro ⟨rfl, hfour, hmax, h⟩
        cases hm : Parser.many readBatchEntry 0 (ofBe (body.take 4)) (body.drop 4) with
        | error e =>
            rw [hm] at h
            exact absurd h (by simp only [reduceCtorEq, not_false_eq_true])
        | ok p =>
            rcases p with ⟨out, rest⟩
            simp only [hm, ite_error_ok_iff, not_not, Except.ok.injEq, ne_eq] at h
            rcases h with ⟨rfl, rfl⟩
            rcases (Reads.many readBatchEntry_reads 0 _ _ _ _).mp hm with ⟨hlen, es, hes, hbody⟩
            refine ⟨by omega, es, hes, rfl, ?_⟩
            -- Nothing is left after the last entry.
            rw [hlen, ← List.append_nil es, ← hbody, beBytes_ofBe_take (by omega)]
      · rintro ⟨hmax, es, hes, rfl, rfl⟩
        have hword : ofBe (beBytes 4 bs.length) = bs.length := by
          refine ofBe_beBytes_of_lt ?_
          unfold maxBlocksPerBatch at hmax
          omega
        have htake : (beBytes 4 bs.length ++ es).take 4 = beBytes 4 bs.length :=
          List.take_left' (beBytes_length 4 _)
        have hdrop : (beBytes 4 bs.length ++ es).drop 4 = es :=
          List.drop_left' (beBytes_length 4 _)
        refine ⟨rfl, ?_, ?_, ?_⟩
        · rw [List.length_append, beBytes_length]
          omega
        · rw [htake, hword]
          omega
        · rw [htake, hword, hdrop,
            (Reads.many readBatchEntry_reads 0 bs.length es [] bs).mpr
              ⟨rfl, es, hes, (List.append_nil _).symm⟩]
          simp only [ne_eq, not_true_eq_false, if_false]

/-- The text for a batch that does not fit a frame. -/
def batchTooLarge : String :=
  "encoded OP_BLOCKS response exceeds MAX_WIRE_FRAME_BYTES"

/-- Blocks that each fit a frame are refused only for the size of the whole. -/
theorem pushBlocks_eq {bs : List Block} {es : Bytes} (hes : writeAll batchEntry bs = some es)
    (out : Bytes) (hout : out.length ≤ maxWireFrameBytes) :
    pushBlocks out bs = some (if maxWireFrameBytes < (out ++ es).length
      then .error batchTooLarge else .ok (out ++ es)) := by
  induction bs generalizing out es with
  | nil =>
      rw [writeAll, Option.some.injEq] at hes
      rw [pushBlocks, ← hes, List.append_nil, if_neg (Nat.not_lt.mpr hout)]
  | cons b bs ih =>
      rcases writeAll_cons_iff.mp hes with ⟨e, es', he, hes', rfl⟩
      rcases batchEntry_eq_some.mp he with ⟨enc, henc, hmax, rfl⟩
      have hword : ¬ 2 ^ 32 ≤ enc.length := by
        unfold maxWireFrameBytes at hmax
        omega
      rw [pushBlocks, henc, Option.bind_eq_bind, Option.bind_some, if_neg hword,
        ← List.append_assoc out (frameOnWire enc) es']
      change (if maxWireFrameBytes < (out ++ frameOnWire enc).length then _ else _) = _
      by_cases hover : maxWireFrameBytes < (out ++ frameOnWire enc).length
      · -- The size only grows, so the whole batch is too large as well.
        have hwhole : maxWireFrameBytes < (out ++ frameOnWire enc ++ es').length := by
          rw [List.length_append]
          exact Nat.lt_of_lt_of_le hover (Nat.le_add_right _ _)
        rw [if_pos hover, if_pos hwhole, batchTooLarge]
      · rw [if_neg hover]
        exact ih hes' (out ++ frameOnWire enc) (Nat.le_of_not_lt hover)

/-- When a batch can be sent, and as what. -/
theorem wireEncodeBlocksResponse_eq {bs : List Block} {es : Bytes}
    (hlen : bs.length ≤ maxBlocksPerBatch) (hes : writeAll batchEntry bs = some es) :
    wireEncodeBlocksResponse bs = some (if maxWireFrameBytes < 5 + es.length
      then .error batchTooLarge else .ok (opBlocks :: beBytes 4 bs.length ++ es)) := by
  have hhead : (opBlocks :: beBytes 4 bs.length).length = 5 := by
    rw [List.length_cons, beBytes_length]
  rw [wireEncodeBlocksResponse, Nat.min_eq_left hlen, List.take_length,
    pushBlocks_eq hes _ (by rw [hhead]; decide), List.length_append, hhead]

/-- What was pushed is the entries of the blocks. -/
theorem pushBlocks_ok {bs : List Block} {out w : Bytes} (h : pushBlocks out bs = some (.ok w)) :
    ∃ es, writeAll batchEntry bs = some es ∧ w = out ++ es := by
  induction bs generalizing out with
  | nil =>
      rw [pushBlocks, Option.some.injEq, Except.ok.injEq] at h
      exact ⟨[], rfl, by rw [List.append_nil, h]⟩
  | cons b bs ih =>
      rw [pushBlocks] at h
      cases henc : encodeBlock b with
      | none => simp only [henc, Option.bind_eq_bind, Option.bind_none, reduceCtorEq] at h
      | some enc =>
          rw [henc, Option.bind_eq_bind, Option.bind_some] at h
          by_cases hword : 2 ^ 32 ≤ enc.length
          · rw [if_pos hword] at h
            exact absurd h (by simp only [Option.some.injEq, reduceCtorEq, not_false_eq_true])
          rw [if_neg hword] at h
          change (if maxWireFrameBytes < (out ++ frameOnWire enc).length then _ else _) = _ at h
          by_cases hover : maxWireFrameBytes < (out ++ frameOnWire enc).length
          · rw [if_pos hover] at h
            exact absurd h (by simp only [Option.some.injEq, reduceCtorEq, not_false_eq_true])
          rw [if_neg hover] at h
          rcases ih h with ⟨es, hes, rfl⟩
          -- The block fits a frame, since all that is there so far does.
          have hfits : enc.length ≤ maxWireFrameBytes := by
            rw [frameOnWire, List.length_append, List.length_append] at hover
            omega
          exact ⟨frameOnWire enc ++ es, writeAll_cons_iff.mpr ⟨_, es,
            batchEntry_eq_some.mpr ⟨enc, henc, hfits, rfl⟩, hes, rfl⟩, List.append_assoc _ _ _⟩

/-- A batch that can be sent fits a frame and is read back. -/
theorem wireEncodeBlocksResponse_ok {bs : List Block} {w : Bytes}
    (hlen : bs.length ≤ maxBlocksPerBatch) (h : wireEncodeBlocksResponse bs = some (.ok w)) :
    w.length ≤ maxWireFrameBytes ∧ wireDecodeBlocksResponse w = .ok bs := by
  have hpush := h
  rw [wireEncodeBlocksResponse, Nat.min_eq_left hlen, List.take_length] at hpush
  rcases pushBlocks_ok hpush with ⟨es, hes, rfl⟩
  refine ⟨?_, wireDecodeBlocksResponse_ok_iff.mpr ⟨hlen, es, hes, rfl⟩⟩
  rw [wireEncodeBlocksResponse_eq hlen hes] at h
  by_cases hover : maxWireFrameBytes < 5 + es.length
  · rw [if_pos hover] at h
    exact absurd h (by simp only [Option.some.injEq, reduceCtorEq, not_false_eq_true])
  · rw [List.length_append, List.length_cons, beBytes_length]
    omega

/-- Only one frame can stand at the front of a stream. -/
theorem frameOnWire_append_inj {a b x y : Bytes} (ha : a.length ≤ maxWireFrameBytes)
    (hb : b.length ≤ maxWireFrameBytes) (h : frameOnWire a ++ x = frameOnWire b ++ y) :
    a = b ∧ x = y := by
  have hread : readFramed ⟨frameOnWire a ++ x, .other "", [], []⟩ =
      (.ok a, ⟨x, .other "", [], []⟩) :=
    readFramed_ok_iff.mpr ⟨ha, x, rfl, rfl⟩
  rw [h, readFramed_ok_iff.mpr ⟨hb, y, rfl, rfl⟩, Prod.mk.injEq, Except.ok.injEq,
    Stream.mk.injEq] at hread
  exact ⟨hread.1.symm, hread.2.1.symm⟩

end Trilogicon
