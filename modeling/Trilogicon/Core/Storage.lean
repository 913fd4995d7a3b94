import Trilogicon.Core.Blockchain
import Trilogicon.Core.Encoding
import Trilogicon.Lib.Frames
import Trilogicon.Lib.Io

/-!
# The Block File

`storage.rs`: the append-only file `chain.blocks`, how it is read at startup,
and how frames are appended to it.

A file is a byte string, and no file is `none`. It holds frames in one of two
formats. Legacy frames are a length and a payload; V2 frames add a checksum,
and a V2 file starts with a magic word. The four parsers of the source are two
scans at two formats. A scan sees a frame through `frameFront`, which reads the
length, refuses one that is too large, waits for the whole frame, checks what
follows the payload and decodes it, in that order.

Appending may fail at any of its system calls. What a call does is given to
the model: a write succeeds, or fails after some of its bytes have reached the
file. A failure anywhere between the first write and the last sync poisons the
store.

## Main definitions

* `StorageError`: What the file layer reports.
* `crc32Ieee`: The checksum.
* `frameFront`: What a scan of either format sees.
* `readAllBlocks`, `readAllBlocksRepairingTail`: The two readers of a file.
* `loadBlockchainFromDisk`: Read a file and replay its blocks.
* `AppendIo`: What the system calls of an append do.
* `BlockStore`: An open file.
* `BlockStore.openAppend`: Open a file for appending.
* `BlockStore.appendPayload`, `BlockStore.appendBlock`: Append a frame.
* `encodeFrame`: The frame of a block.

## Theorems

* `frontOf_framed`: The scans see exactly the frames that are written.
* `frontOf_part`: A part of a frame is seen as cut short.
-/

namespace Trilogicon

/-- `storage::StorageError`. -/
inductive StorageError where
  | io (e : IoError)
  | decode (msg : String)
  | replay (e : ProtocolError)
  | genesis (msg : String)
deriving DecidableEq, Repr

/-- `MAX_FRAME_BYTES`, 64 MiB. -/
def maxFrameBytes : Nat := 64 * 1024 * 1024

/-- `CHAIN_FILE_MAGIC_V2`. -/
def chainFileMagicV2 : Bytes :=
  utf8 "TRILBC01"

/-- `storage::ChainFileFormat`. -/
inductive ChainFileFormat where
  | legacy
  | v2
deriving DecidableEq, Repr

/-- One round of the bit loop of `crc32_ieee`. -/
def crcBit (c : UInt32) : UInt32 :=
  if c &&& 1 ≠ 0 then (c >>> 1) ^^^ 0xEDB88320 else c >>> 1

/-- `storage::crc32_ieee`. -/
def crc32Ieee (payload : Bytes) : UInt32 :=
  ~~~ (payload.foldl (fun c byte => crcBit^[8] (c ^^^ byte.toUInt32)) 0xFFFFFFFF)

/-- The text of a word under the format `#x`. -/
def hexWord (n : Nat) : String :=
  "0x" ++ String.ofList (Nat.toDigits 16 n)

/-! ### Reading frames -/

/-- What a scan sees at the front of its data: a length, a payload, and
    `trailer` bytes that are checked against the payload. -/
def frameFront (tooLarge : String) (trailer : Nat)
    (check : Bytes → Bytes → Except StorageError Unit) (data : Bytes) :
    Front UInt8 StorageError Block :=
  if data.length < 4 then .shortLength
  else
    let len := ofBe (data.take 4)
    if maxFrameBytes < len then .bad (.decode tooLarge)
    else if data.length < 4 + len + trailer then .shortBody
    else
      let payload := (data.drop 4).take len
      match check payload ((data.drop (4 + len)).take trailer) with
      | .error e => .bad e
      | .ok () =>
          match decodeBlock payload with
          | .error e => .bad (.decode e.msg)
          | .ok b => .item b (data.drop (4 + len + trailer))

/-- A legacy frame has nothing after its payload. -/
def legacyFront : Bytes → Front UInt8 StorageError Block :=
  frameFront "frame exceeds max size" 0 fun _ _ => .ok ()

/-- The check of the checksum after a V2 payload. -/
def checkCrc (payload stored : Bytes) : Except StorageError Unit :=
  if ofBe stored ≠ (crc32Ieee payload).toNat then
    .error (.decode ("v2 frame crc mismatch (stored " ++ hexWord (ofBe stored) ++
      " != expected " ++ hexWord (crc32Ieee payload).toNat ++ ")"))
  else .ok ()

/-- A V2 frame ends in the checksum of its payload. The overflow check of the
    source has no case here: positions are indices of a list. -/
def v2Front : Bytes → Front UInt8 StorageError Block :=
  frameFront "frame exceeds max size (v2)" 4 checkCrc

/-- `parse_legacy_block_frames_prefix`. -/
def parseLegacyBlockFramesPrefix (data : Bytes) : Except StorageError (List Block × Nat) :=
  scanPrefix legacyFront data.length data

/-- `parse_v2_block_frames_prefix`. -/
def parseV2BlockFramesPrefix (data : Bytes) : Except StorageError (List Block × Nat) :=
  scanPrefix v2Front data.length data

/-- `parse_legacy_block_frames`. -/
def parseLegacyBlockFrames (data : Bytes) : Except StorageError (List Block) :=
  scanStrict legacyFront (.decode "truncated frame length") (.decode "truncated frame body")
    data.length data

/-- `parse_v2_block_frames`. -/
def parseV2BlockFrames (data : Bytes) : Except StorageError (List Block) :=
  scanStrict v2Front (.decode "truncated frame length (v2)")
    (.decode "truncated v2 frame (crc or body)") data.length data

/-- The format of a file and where its frames start. -/
def detectFormat (data : Bytes) : ChainFileFormat × Nat :=
  if chainFileMagicV2.length ≤ data.length ∧
      data.take chainFileMagicV2.length = chainFileMagicV2 then
    (.v2, chainFileMagicV2.length)
  else (.legacy, 0)

/-- `BlockStore::read_all_blocks`. -/
def readAllBlocks (disk : Option Bytes) : Except StorageError (List Block) :=
  match disk with
  | none => .ok []
  | some data =>
      if data = [] then .ok []
      else
        match detectFormat data with
        | (.legacy, off) => parseLegacyBlockFrames (data.drop off)
        | (.v2, off) => parseV2BlockFrames (data.drop off)

/-- The parser of a format. -/
def parsePrefix : ChainFileFormat → Bytes → Except StorageError (List Block × Nat)
  | .legacy => parseLegacyBlockFramesPrefix
  | .v2 => parseV2BlockFramesPrefix

/-- What `read_all_blocks_repairing_tail` does once the frames are scanned:
    accept, repair a tail that is shorter than a length, or refuse. -/
def repairTail (data : Bytes) (blocks : List Block) (bodyOff consumedInBody : Nat) :
    Except StorageError (List Block × Bool) × Option Bytes :=
  let validEnd := bodyOff + consumedInBody
  if validEnd < data.length then
    if blocks = [] ∧ consumedInBody = 0 then
      (.error (.decode "chain.blocks corrupt or truncated (no complete block frame)"), some data)
    else if 4 ≤ data.length - validEnd then
      (.error (.decode "chain.blocks truncated after last complete block frame"), some data)
    else (.ok (blocks, true), some (data.take validEnd))
  else (.ok (blocks, false), some data)

/-- `BlockStore::read_all_blocks_repairing_tail`, with the file it leaves. -/
def readAllBlocksRepairingTail (disk : Option Bytes) :
    Except StorageError (List Block × Bool) × Option Bytes :=
  match disk with
  | none => (.ok ([], false), none)
  | some data =>
      if data = [] then (.ok ([], false), some data)
      else
        let (format, bodyOff) := detectFormat data
        match parsePrefix format (data.drop bodyOff) with
        | .error e => (.error e, some data)
        | .ok (blocks, consumedInBody) => repairTail data blocks bodyOff consumedInBody

section Load

variable [Primitives]

/-- `chain_from_genesis`. -/
def chainFromGenesis (g : Genesis) : Except StorageError Blockchain :=
  (Blockchain.fromGenesis g).mapError fun e =>
    match e with
    | .genesisError s => .genesis s
    | other => .replay other

/-- The loop of `load_blockchain_from_disk`. -/
def replayAll : Blockchain → List Block → Except StorageError Blockchain
  | c, [] => .ok c
  | c, b :: bs =>
      match c.appendBlock b with
      | (.ok (), c') => replayAll c' bs
      | (.error e, _) => .error (.replay e)

/-- `load_blockchain_from_disk`, with the file it leaves. -/
def loadBlockchainFromDisk (disk : Option Bytes) (g : Genesis) :
    Except StorageError (Blockchain × Bool) × Option Bytes :=
  match readAllBlocksRepairingTail disk with
  | (.error e, disk') => (.error e, disk')
  | (.ok (blocks, repaired), disk') =>
      match chainFromGenesis g with
      | .error e => (.error e, disk')
      | .ok chain =>
          match replayAll chain blocks with
          | .error e => (.error e, disk')
          | .ok chain => (.ok (chain, repaired), disk')

end Load

/-! ### Appending frames -/

/-- What the system calls of an append do: the write and sync of the magic
    word, if it is still to be written, and those of the frame. -/
structure AppendIo where
  magicWrite : WriteOutcome
  magicSync : Option IoError
  frameWrite : WriteOutcome
  frameSync : Option IoError
deriving DecidableEq, Repr

/-- Every call succeeds. -/
def AppendIo.succeeds : AppendIo :=
  { magicWrite := .complete, magicSync := none, frameWrite := .complete, frameSync := none }

/-- `storage::BlockStore`, with the content of its file. -/
structure BlockStore where
  file : Bytes
  poisoned : Bool
  format : ChainFileFormat
  v2MagicOnDisk : Bool
deriving DecidableEq, Repr

/-- The frame `append_payload` writes. -/
def frameBytes : ChainFileFormat → Bytes → Bytes
  | .legacy, payload => beBytes 4 payload.length ++ payload
  | .v2, payload => beBytes 4 payload.length ++ payload ++ beBytes 4 (crc32Ieee payload).toNat

namespace BlockStore

/-- `BlockStore::open_append`. A missing file is created empty. -/
def openAppend (disk : Option Bytes) : Except IoError BlockStore :=
  let file := disk.getD []
  if file.length = 0 then
    .ok { file := file, poisoned := false, format := .v2, v2MagicOnDisk := false }
  else if file.length < chainFileMagicV2.length then
    .error (.invalidData ("[storage] chain.blocks: file too short (" ++ file.length.repr ++
      " bytes) — truncated or corrupt"))
  else if file.take 8 = chainFileMagicV2 then
    .ok { file := file, poisoned := false, format := .v2, v2MagicOnDisk := true }
  else .ok { file := file, poisoned := false, format := .legacy, v2MagicOnDisk := false }

/-- Append bytes to the file by one write and one sync. -/
def writeSynced (s : BlockStore) (data : Bytes) (write : WriteOutcome)
    (sync : Option IoError) : Except IoError Unit × BlockStore :=
  match write, sync with
  | .fails n e, _ => (.error e, { s with file := s.file ++ data.take n })
  | .complete, some e => (.error e, { s with file := s.file ++ data })
  | .complete, none => (.ok (), { s with file := s.file ++ data })

/-- The magic word of a V2 file that does not have it yet. -/
def writeMagic (s : BlockStore) (calls : AppendIo) : Except IoError Unit × BlockStore :=
  if s.format = .v2 ∧ s.v2MagicOnDisk = false then
    match s.writeSynced chainFileMagicV2 calls.magicWrite calls.magicSync with
    | (.error e, s') => (.error e, s')
    | (.ok (), s') => (.ok (), { s' with v2MagicOnDisk := true })
  else (.ok (), s)

/-- The writes of `append_payload`. -/
def writeRecord (s : BlockStore) (payload : Bytes) (calls : AppendIo) :
    Except IoError Unit × BlockStore :=
  match s.writeMagic calls with
  | (.error e, s') => (.error e, s')
  | (.ok (), s') =>
      s'.writeSynced (frameBytes s'.format payload) calls.frameWrite calls.frameSync

/-- `BlockStore::append_payload`. -/
def appendPayload (s : BlockStore) (payload : Bytes) (calls : AppendIo) :
    Except IoError Unit × BlockStore :=
  if s.poisoned then
    (.error (.other ("[storage] fail-closed: refusing chain.blocks append after a prior " ++
      "write/sync failure (on-disk state may be inconsistent — stop and repair or restore " ++
      "chain.blocks)")), s)
  else if 2 ^ 32 ≤ payload.length then
    (.error (.invalidInput "encoded block exceeds u32 frame length"), s)
  else if maxFrameBytes < payload.length then
    (.error (.invalidInput "encoded block exceeds MAX_FRAME_BYTES"), s)
  else
    match s.writeRecord payload calls with
    | (.error e, s') => (.error e, { s' with poisoned := true })
    | (.ok (), s') => (.ok (), s')

/-- `BlockStore::append_block`; `none` when the encoder panics. -/
def appendBlock (s : BlockStore) (b : Block) (calls : AppendIo) :
    Option (Except IoError Unit × BlockStore) := do
  let payload ← encodeBlock b
  some (s.appendPayload payload calls)

end BlockStore

/-! ### The frames a scan sees -/

/-- The reader of a format. -/
def frontOf : ChainFileFormat → Bytes → Front UInt8 StorageError Block
  | .legacy => legacyFront
  | .v2 => v2Front

/-- What follows the payload in a frame of a format. -/
def trailerOf : ChainFileFormat → Bytes → Bytes
  | .legacy, _ => []
  | .v2, payload => beBytes 4 (crc32Ieee payload).toNat

/-- The frame of a block, if its payload is small enough to be written. -/
def encodeFrame (format : ChainFileFormat) (b : Block) : Option Bytes := do
  let payload ← encodeBlock b
  if payload.length ≤ maxFrameBytes then some (frameBytes format payload) else none

theorem frameBytes_eq (format : ChainFileFormat) (payload : Bytes) :
    frameBytes format payload =
      beBytes 4 payload.length ++ (payload ++ trailerOf format payload) := by
  cases format with
  | legacy => rw [frameBytes, trailerOf, List.append_nil]
  | v2 => rw [frameBytes, trailerOf, List.append_assoc]

theorem encodeFrame_eq_some {format : ChainFileFormat} {b : Block} {f : Bytes} :
    encodeFrame format b = some f ↔ ∃ payload, encodeBlock b = some payload ∧
      payload.length ≤ maxFrameBytes ∧ f = frameBytes format payload := by
  simp only [encodeFrame, Option.bind_eq_bind, Option.bind_eq_some_iff,
    Option.ite_none_right_eq_some, Option.some.injEq, eq_comm (a := f)]

/-- The payload of a frame, once it is whole: check what follows it, then
    decode it. -/
def readPayload (check : Bytes → Bytes → Except StorageError Unit) (payload t : Bytes) :
    Except StorageError Block :=
  match check payload t with
  | .error e => .error e
  | .ok () =>
      match decodeBlock payload with
      | .error e => .error (.decode e.msg)
      | .ok b => .ok b

theorem readPayload_ok_iff {check : Bytes → Bytes → Except StorageError Unit}
    {payload t : Bytes} {b : Block} :
    readPayload check payload t = .ok b ↔
      check payload t = .ok () ∧ encodeBlock b = some payload := by
  rw [readPayload, ← decodeBlock_ok_iff]
  cases check payload t with
  | error e => simp only [reduceCtorEq, false_and]
  | ok u =>
      cases decodeBlock payload with
      | error e => simp only [reduceCtorEq, and_false]
      | ok b' => simp only [Except.ok.injEq, true_and]

/-- Both formats are frames that start with their length. -/
theorem frameFront_eq (tooLarge : String) (trailer : Nat)
    (check : Bytes → Bytes → Except StorageError Unit) (data : Bytes) :
    frameFront tooLarge trailer check data =
      lengthFront maxFrameBytes trailer (.decode tooLarge) (readPayload check) data := by
  unfold frameFront lengthFront readPayload
  simp only
  cases check ((data.drop 4).take (ofBe (data.take 4)))
      ((data.drop (4 + ofBe (data.take 4))).take trailer) with
  | error e => rfl
  | ok u =>
      cases decodeBlock ((data.drop 4).take (ofBe (data.take 4))) with
      | error e => rfl
      | ok b => rfl

theorem maxFrameBytes_lt : maxFrameBytes < 2 ^ 32 := by
  unfold maxFrameBytes
  omega

/-- A scan sees a record exactly where its frame stands, if the check accepts
    exactly the trailer that is written. -/
theorem frameFront_item_iff {tooLarge : String} {trailer : Nat}
    {check : Bytes → Bytes → Except StorageError Unit} {trail : Bytes → Bytes}
    (htrail : ∀ payload, (trail payload).length = trailer)
    (hcheck : ∀ payload t, t.length = trailer → (check payload t = .ok () ↔ t = trail payload))
    (data : Bytes) (b : Block) (rest : Bytes) :
    frameFront tooLarge trailer check data = .item b rest ↔
      ∃ payload, encodeBlock b = some payload ∧ payload.length ≤ maxFrameBytes ∧
        data = beBytes 4 payload.length ++ (payload ++ trail payload) ++ rest := by
  rw [frameFront_eq, lengthFront_item_iff maxFrameBytes_lt]
  simp only [readPayload_ok_iff]
  constructor
  · rintro ⟨payload, t, hmax, ht, ⟨hc, he⟩, hd⟩
    exact ⟨payload, he, hmax, (hcheck payload t ht).mp hc ▸ hd⟩
  · rintro ⟨payload, he, hmax, hd⟩
    exact ⟨payload, _, hmax, htrail payload,
      ⟨(hcheck payload _ (htrail payload)).mpr rfl, he⟩, hd⟩

theorem checkCrc_ok_iff (payload t : Bytes) (ht : t.length = 4) :
    checkCrc payload t = .ok () ↔ t = beBytes 4 (crc32Ieee payload).toNat := by
  rw [checkCrc, ite_error_ok_iff, not_not]
  simp only [and_true]
  constructor
  · intro h
    rw [← h, ← ht, beBytes_ofBe]
  · rintro rfl
    exact ofBe_beBytes_of_lt (UInt32.toNat_lt _)

/-- Each reader sees exactly the frames that are written. -/
theorem frontOf_framed (format : ChainFileFormat) :
    Framed (frontOf format) (encodeFrame format) where
  item_iff := by
    intro data b rest
    have hmain : frontOf format data = .item b rest ↔
        ∃ payload, encodeBlock b = some payload ∧ payload.length ≤ maxFrameBytes ∧
          data = beBytes 4 payload.length ++ (payload ++ trailerOf format payload) ++ rest := by
      cases format with
      | legacy =>
          -- No trailer is written and none is checked.
          rw [frontOf, legacyFront]
          refine frameFront_item_iff ?_ ?_ data b rest
          · intro payload
            rfl
          · intro payload t ht
            rw [List.length_eq_zero_iff] at ht
            exact ⟨fun _ => ht, fun _ => rfl⟩
      | v2 =>
          rw [frontOf, v2Front]
          exact frameFront_item_iff (fun _ => beBytes_length 4 _) checkCrc_ok_iff data b rest
    simp only [hmain, encodeFrame_eq_some, frameBytes_eq]
    constructor
    · rintro ⟨payload, he, hmax, hd⟩
      exact ⟨_, ⟨payload, he, hmax, rfl⟩, hd⟩
    · rintro ⟨f, ⟨payload, he, hmax, rfl⟩, hd⟩
      exact ⟨payload, he, hmax, hd⟩
  ne_nil := by
    intro b f hf hnil
    rcases encodeFrame_eq_some.mp hf with ⟨payload, _, _, rfl⟩
    have hlen := congrArg List.length hnil
    rw [frameBytes_eq, List.length_append, beBytes_length, List.length_nil] at hlen
    omega

theorem frontOf_of_length_lt (format : ChainFileFormat) {data : Bytes} (h : data.length < 4) :
    frontOf format data = .shortLength := by
  cases format with
  | legacy => exact if_pos h
  | v2 => exact if_pos h

/-- A proper part of a frame is seen as cut short. -/
theorem frontOf_part {format : ChainFileFormat} {b : Block} {f t : Bytes}
    (hf : encodeFrame format b = some f) (ht : t <+: f) (hlt : t.length < f.length) :
    (frontOf format t).IsShort := by
  by_cases hfour : t.length < 4
  · exact Or.inl (frontOf_of_length_lt format hfour)
  · rcases encodeFrame_eq_some.mp hf with ⟨payload, _, hmax, rfl⟩
    rw [frameBytes_eq] at ht hlt
    -- The part holds the whole length, and less than what the length announces.
    rcases ht with ⟨u, hu⟩
    have hword : t.take 4 = beBytes 4 payload.length := by
      have h : (t ++ u).take 4 = beBytes 4 payload.length := by
        rw [hu, List.take_left' (beBytes_length 4 _)]
      rwa [List.take_append_of_le_length (by omega)] at h
    have hsplit : t = beBytes 4 payload.length ++ t.drop 4 := by
      rw [← hword, List.take_append_drop]
    rw [List.length_append, List.length_append, beBytes_length] at hlt
    have hbody : ∀ trailer, (trailerOf format payload).length = trailer →
        (t.drop 4).length < payload.length + trailer := by
      intro trailer htr
      rw [List.length_drop]
      omega
    rw [hsplit]
    refine Or.inr ?_
    cases format with
    | legacy =>
        rw [frontOf, legacyFront, frameFront_eq, lengthFront_length maxFrameBytes_lt hmax,
          if_pos (hbody 0 rfl)]
    | v2 =>
        rw [frontOf, v2Front, frameFront_eq, lengthFront_length maxFrameBytes_lt hmax,
          if_pos (hbody 4 (beBytes_length 4 _))]

end Trilogicon
