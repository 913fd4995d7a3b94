import Trilogicon.Core.Encoding
import Trilogicon.Core.Mempool
import Trilogicon.Lib.Frames
import Trilogicon.Lib.Io

/-!
# The Pending Queue

`pending_tx_file.rs`: the file `pending_tx.tril`, in which `send` leaves
transactions for `run`.

The file is a sequence of frames, a length and an encoded transaction each. An
append adds one frame. A drain reads the whole file, submits the transactions
to the pool in order, stops at the first that is refused for another reason than
being held already, and replaces the file by the frames of the rest. Both hold
the lock of the queue from beginning to end, so each is one step.

As in the block file, no file is `none`, and what the system calls do is given
to the model. The drain is there twice: with the replacement of the file as one
call, and with every call of it, which differ by platform.

## Main definitions

* `parsePendingFileBytes`: Read the whole file, or fail.
* `encodePendingPayload`: The frames of some transactions.
* `PendingAppendIo`, `PendingDrainIo`: What the system calls do.
* `appendPendingTransaction`: Add a transaction to the file.
* `drainPendingFile`: Move transactions from the file to the pool.
* `renameReplacePendingFile`, `writePendingAtomic`: Put another file in its place.
* `drainPendingFileOn`: The same drain, with every system call.

## Theorems

* `parsePendingFileBytes_ok_iff`: The files that are read with success.
* `encodePendingPayload_of_writeAll`: What was read can be written back.
* `appendPendingTransaction_ok`: What an append writes.
* `drainPendingFile_ok`: What a drain leaves in the file.
-/

namespace Trilogicon

/-- `MAX_PENDING_TX_FRAME`, 4 MiB. -/
def maxPendingTxFrame : Nat := 4 * 1024 * 1024

/-- What `parse_pending_file_bytes` sees at its position. -/
def pendingFront : Bytes → Front UInt8 String Transaction :=
  lengthFront maxPendingTxFrame 0 "pending_tx.tril: frame too large" fun payload _ =>
    (decodeTransaction payload).mapError fun e => e.msg

/-- `parse_pending_file_bytes`. -/
def parsePendingFileBytes (data : Bytes) : Except String (List Transaction) :=
  scanStrict pendingFront "pending_tx.tril: truncated length prefix"
    "pending_tx.tril: truncated frame body" data.length data

/-- The frame of an encoded transaction; `none` when its length is no 32-bit
    word. -/
def pendingFrame (payload : Bytes) : Option Bytes :=
  if payload.length < 2 ^ 32 then some (beBytes 4 payload.length ++ payload) else none

/-- `encode_pending_payload`; `none` when the encoder panics. -/
def encodePendingPayload : List Transaction → Option (Except String Bytes)
  | [] => some (.ok [])
  | tx :: txs =>
      match encodeTransaction tx with
      | none => none
      | some payload =>
          match pendingFrame payload with
          | none => some (.error "encoded transaction length exceeds u32")
          | some frame =>
              match encodePendingPayload txs with
              | none => none
              | some (.error e) => some (.error e)
              | some (.ok rest) => some (.ok (frame ++ rest))

/-- What the system calls of an append do: to open the file, to write the
    frame and to sync it. -/
structure PendingAppendIo where
  opened : Option IoError
  write : WriteOutcome
  sync : Option IoError
deriving DecidableEq, Repr

/-- Every call succeeds. -/
def PendingAppendIo.succeeds : PendingAppendIo :=
  { opened := none, write := .complete, sync := none }

/-- `append_pending_transaction`, with the lock held; `none` when the encoder
    panics. -/
def appendPendingTransaction (file : Option Bytes) (tx : Transaction) (calls : PendingAppendIo) :
    Option (Except IoError Unit × Option Bytes) :=
  match encodeTransaction tx with
  | none => none
  | some payload =>
      match pendingFrame payload, calls.opened, calls.write, calls.sync with
      | none, _, _, _ =>
          some (.error (.invalidInput "encoded transaction length exceeds u32"), file)
      | some _, some e, _, _ => some (.error e, file)
      | some frame, none, .fails n e, _ =>
          some (.error e, some (file.getD [] ++ frame.take n))
      | some frame, none, .complete, some e => some (.error e, some (file.getD [] ++ frame))
      | some frame, none, .complete, none => some (.ok (), some (file.getD [] ++ frame))

/-- What the system calls of a drain do: to read the file and to replace it.
    The replacement counts as one call here, and a failure leaves the file. -/
structure PendingDrainIo where
  read : Option String
  publish : Option String
deriving DecidableEq, Repr

/-- Every call succeeds. -/
def PendingDrainIo.succeeds : PendingDrainIo :=
  { read := none, publish := none }

section Drain

variable [Primitives]

/-- The loop of `drain_pending_file`: how many transactions are consumed, and
    the pool after it. -/
def drainLoop (pool : Mempool) : List Transaction → Nat × Mempool
  | [] => (0, pool)
  | tx :: txs =>
      match pool.trySubmitPendingDrain tx with
      | (.ok (), pool') =>
          let (i, pool'') := drainLoop pool' txs
          (i + 1, pool'')
      | (.error .duplicateTransaction, pool') =>
          let (i, pool'') := drainLoop pool' txs
          (i + 1, pool'')
      | (.error _, pool') => (0, pool')

/-- `drain_pending_file`, with the lock held; `none` when the encoder panics. -/
def drainPendingFile (file : Option Bytes) (pool : Mempool) (calls : PendingDrainIo) :
    Option (Except String Unit × Option Bytes × Mempool) :=
  match file with
  | none => some (.ok (), none, pool)
  | some data =>
      match calls.read, parsePendingFileBytes data with
      | some e, _ => some (.error e, file, pool)
      | none, .error e => some (.error e, file, pool)
      | none, .ok [] =>
          match calls.publish with
          | some e => some (.error e, file, pool.restoreFifo pool.cloneFifo)
          | none => some (.ok (), some [], pool)
      | none, .ok txs =>
          let (i, pool') := drainLoop pool txs
          match encodePendingPayload (txs.drop i), calls.publish with
          | none, _ => none
          | some (.error e), _ => some (.error e, file, pool')
          | some (.ok _), some e => some (.error e, file, pool'.restoreFifo pool.cloneFifo)
          | some (.ok encoded), none => some (.ok (), some encoded, pool')

end Drain

/-! ### A drain, call by call -/

/-- The targets that `rename_replace_pending_file` tells apart. -/
inductive Platform where
  | unix
  | windows
  | other
deriving DecidableEq, Repr

/-- `pending_tx.tril`, and the file next to it that is to replace it. -/
structure PendingDir where
  queue : Option Bytes
  tmp : Option Bytes
deriving DecidableEq, Repr

/-- A call of `fs::rename`, from the second file to the first. -/
def PendingDir.rename (dir : PendingDir) : Option IoError → Except IoError Unit × PendingDir
  | some e => (.error e, dir)
  | none => (.ok (), { queue := dir.tmp, tmp := none })

/-- What the system calls of `write_pending_atomic` do: to create, write, open
    and sync the second file, and to put it in the place of the first. -/
structure PublishIo where
  create : Option IoError
  write : WriteOutcome
  opened : Option IoError
  sync : Option IoError
  rename : Option IoError
  remove : Option IoError
  renameAgain : Option IoError
deriving DecidableEq, Repr

/-- `rename_replace_pending_file`. -/
def renameReplacePendingFile (platform : Platform) (dir : PendingDir) (calls : PublishIo) :
    Except IoError Unit × PendingDir :=
  match platform with
  | .unix => dir.rename calls.rename
  | .windows =>
      match dir.rename calls.rename with
      | (.ok (), dir') => (.ok (), dir')
      -- Whatever the error was, the destination is taken to be in the way.
      | (.error _, dir') =>
          if dir'.queue.isSome then
            match calls.remove with
            | some e => (.error e, dir')
            -- From here on there is no `pending_tx.tril`.
            | none => { dir' with queue := none }.rename calls.renameAgain
          else dir'.rename calls.renameAgain
  | .other => dir.rename calls.rename

/-- `write_pending_atomic`. The sync of the directory is left out: its failure
    is only reported. -/
def writePendingAtomic (platform : Platform) (dir : PendingDir) (payload : Bytes)
    (calls : PublishIo) : Except IoError Unit × PendingDir :=
  match calls.create, calls.write with
  | some e, _ => (.error e, dir)
  | none, .fails n e => (.error e, { dir with tmp := some (payload.take n) })
  | none, .complete =>
      let dir' := { dir with tmp := some payload }
      match calls.opened, calls.sync with
      | some e, _ => (.error e, dir')
      | none, some e => (.error e, dir')
      | none, none => renameReplacePendingFile platform dir' calls

/-- What all system calls of a drain do. -/
structure PendingDrainCalls where
  lock : Option IoError
  read : Option IoError
  publish : PublishIo
deriving DecidableEq, Repr

/-- `PFX_PENDING`. -/
def pfxPending : String := "[pending]"

section DrainCalls

variable [Primitives]

/-- `drain_pending_file` with its system calls one by one; `none` when the
    encoder panics. -/
def drainPendingFileOn (platform : Platform) (lockPath : String) (dir : PendingDir)
    (pool : Mempool) (calls : PendingDrainCalls) :
    Option (Except String Unit × PendingDir × Mempool) :=
  match calls.lock, dir.queue, calls.read with
  | some e, _, _ =>
      some (.error (pfxPending ++ " fail-closed: could not acquire queue lock " ++ lockPath ++
        " — " ++ e.msg), dir, pool)
  | none, none, _ => some (.ok (), dir, pool)
  | none, some _, some e => some (.error e.msg, dir, pool)
  | none, some data, none =>
      match parsePendingFileBytes data with
      | .error e => some (.error e, dir, pool)
      | .ok [] =>
          match writePendingAtomic platform dir [] calls.publish with
          | (.error e, dir') => some (.error e.msg, dir', pool.restoreFifo pool.cloneFifo)
          | (.ok (), dir') => some (.ok (), dir', pool)
      | .ok txs =>
          let (i, pool') := drainLoop pool txs
          match encodePendingPayload (txs.drop i) with
          | none => none
          -- This return leaves the pool as the loop left it.
          | some (.error e) => some (.error e, dir, pool')
          | some (.ok encoded) =>
              match writePendingAtomic platform dir encoded calls.publish with
              | (.error e, dir') => some (.error e.msg, dir', pool'.restoreFifo pool.cloneFifo)
              | (.ok (), dir') => some (.ok (), dir', pool')

end DrainCalls

/-! ### The frames of the queue -/

/-- The frame of a transaction, if a reader takes it. -/
def encodePendingFrame (tx : Transaction) : Option Bytes := do
  let payload ← encodeTransaction tx
  if payload.length ≤ maxPendingTxFrame then some (beBytes 4 payload.length ++ payload) else none

theorem encodePendingFrame_eq_some {tx : Transaction} {f : Bytes} :
    encodePendingFrame tx = some f ↔ ∃ payload, encodeTransaction tx = some payload ∧
      payload.length ≤ maxPendingTxFrame ∧ f = beBytes 4 payload.length ++ payload := by
  simp only [encodePendingFrame, Option.bind_eq_bind, Option.bind_eq_some_iff,
    Option.ite_none_right_eq_some, Option.some.injEq, eq_comm (a := f)]

theorem maxPendingTxFrame_lt : maxPendingTxFrame < 2 ^ 32 := by
  unfold maxPendingTxFrame
  omega

/-- The parser sees exactly the frames of transactions. -/
theorem pendingFront_framed : Framed pendingFront encodePendingFrame where
  item_iff := by
    intro data tx rest
    rw [pendingFront, lengthFront_item_iff maxPendingTxFrame_lt]
    simp only [mapError_ok_iff, decodeTransaction_ok_iff, List.length_eq_zero_iff]
    constructor
    · intro h
      rcases h with ⟨payload, t, hmax, rfl, he, hd⟩
      rw [List.append_nil] at hd
      exact ⟨_, encodePendingFrame_eq_some.mpr ⟨payload, he, hmax, rfl⟩, hd⟩
    · intro h
      rcases h with ⟨f, hf, hd⟩
      rcases encodePendingFrame_eq_some.mp hf with ⟨payload, he, hmax, rfl⟩
      exact ⟨payload, [], hmax, rfl, he, by rw [List.append_nil, hd]⟩
  ne_nil := by
    intro tx f hf hnil
    rcases encodePendingFrame_eq_some.mp hf with ⟨payload, _, _, rfl⟩
    have hlen := congrArg List.length hnil
    rw [List.length_append, beBytes_length, List.length_nil] at hlen
    omega

/-- The files that are read with success, and what they hold. -/
theorem parsePendingFileBytes_ok_iff {data : Bytes} {txs : List Transaction} :
    parsePendingFileBytes data = .ok txs ↔ writeAll encodePendingFrame txs = some data :=
  scanStrict_ok_iff pendingFront_framed _ _ _ _ le_rfl txs

/-- The frames of the last transactions of a file. -/
theorem writeAll_drop_of_parse {data : Bytes} {txs : List Transaction}
    (h : parsePendingFileBytes data = .ok txs) (n : Nat) :
    ∃ left, writeAll encodePendingFrame (txs.drop n) = some left := by
  have hwrite := parsePendingFileBytes_ok_iff.mp h
  rw [← List.take_append_drop n txs] at hwrite
  rcases writeAll_append_iff.mp hwrite with ⟨_, left, _, hleft, _⟩
  exact ⟨left, hleft⟩

/-- Whatever could be read can be written back. -/
theorem encodePendingPayload_of_writeAll {txs : List Transaction} {data : Bytes}
    (h : writeAll encodePendingFrame txs = some data) :
    encodePendingPayload txs = some (.ok data) := by
  induction txs generalizing data with
  | nil =>
      rw [writeAll, Option.some.injEq] at h
      rw [encodePendingPayload, h]
  | cons tx txs ih =>
      rcases writeAll_cons_iff.mp h with ⟨f, rest, hf, hrest, rfl⟩
      rcases encodePendingFrame_eq_some.mp hf with ⟨payload, he, hmax, rfl⟩
      have hword : payload.length < 2 ^ 32 := hmax.trans_lt maxPendingTxFrame_lt
      simp only [encodePendingPayload, he, pendingFrame, if_pos hword, ih hrest]

/-- The frame of a valid transaction is small enough for every reader. -/
theorem Transaction.Valid.pendingFrame [Primitives] {tx : Transaction} (h : tx.Valid) :
    ∃ f, encodePendingFrame tx = some f := by
  rcases h.encodes with ⟨payload, he, hlen⟩
  have hreceiver := h.receiver_length
  refine ⟨_, encodePendingFrame_eq_some.mpr ⟨payload, he, ?_, rfl⟩⟩
  unfold maxPendingTxFrame
  omega

/-- An append writes the frame that the readers look for. -/
theorem appendPendingTransaction_ok {tx : Transaction} {f : Bytes}
    (h : encodePendingFrame tx = some f) (file : Option Bytes) :
    appendPendingTransaction file tx .succeeds = some (.ok (), some (file.getD [] ++ f)) := by
  rcases encodePendingFrame_eq_some.mp h with ⟨payload, he, hmax, rfl⟩
  have hword : payload.length < 2 ^ 32 := hmax.trans_lt maxPendingTxFrame_lt
  simp only [appendPendingTransaction, he, Trilogicon.pendingFrame, if_pos hword,
    PendingAppendIo.succeeds]

section DrainTheorems

variable [Primitives]

/-- A drain of a file that can be read: what is consumed leaves the file, and
    the rest is written back. -/
theorem drainPendingFile_ok {data : Bytes} {txs : List Transaction}
    (h : parsePendingFileBytes data = .ok txs) (pool : Mempool) :
    ∃ left, writeAll encodePendingFrame (txs.drop (drainLoop pool txs).1) = some left ∧
      drainPendingFile (some data) pool .succeeds =
        some (.ok (), some left, (drainLoop pool txs).2) := by
  cases txs with
  | nil => exact ⟨[], rfl, by simp only [drainPendingFile, h, PendingDrainIo.succeeds, drainLoop]⟩
  | cons tx txs =>
      rcases writeAll_drop_of_parse h (drainLoop pool (tx :: txs)).1 with ⟨left, hleft⟩
      refine ⟨left, hleft, ?_⟩
      simp only [drainPendingFile, h, PendingDrainIo.succeeds,
        encodePendingPayload_of_writeAll hleft]

end DrainTheorems

end Trilogicon
