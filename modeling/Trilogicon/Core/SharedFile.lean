import Trilogicon.Core.Storage

/-!
# One File, Several Processes

`chain.blocks` while one `run` appends to it and any number of `send` load it.

`run` holds a lock that keeps out another `run`, but `send` does not take it.
An append is a `write_all`, which the system may carry out in several chunks;
the file is open for appending, so each chunk goes to the end of the file as it
then is. A load reads the whole file; if it decides to repair the tail, it later
replaces the whole file by the shorter bytes it decided on. Everything else a
`send` does leaves the file alone.

## Main definitions

* `BlockStore.bytesToWrite`: What an append has to write.
* `repairOf`: What a load that read the file will write, if anything.
* `SharedFile`: The file, the append in progress and the pending rewrites.
* `SharedFile.step`: One step of one of the processes.
* `SharedFile.run`: An interleaving.
-/

namespace Trilogicon

/-- The writes of `append_payload`: the magic word of a new file, then the
    frame. -/
def BlockStore.bytesToWrite (s : BlockStore) (payload : Bytes) : Bytes :=
  (if s.format = .v2 ∧ s.v2MagicOnDisk = false then chainFileMagicV2 else []) ++
    frameBytes s.format payload

/-- The rewrite that `read_all_blocks_repairing_tail` decides on. -/
def repairOf (file : Bytes) : Option Bytes :=
  match readAllBlocksRepairingTail (some file) with
  | (.ok (_, true), disk) => disk
  | _ => none

/-- An append in progress: its bytes that are written and those that are left. -/
structure PendingAppend where
  block : Block
  done : Bytes
  left : Bytes

/-- The processes that use the file: the store of `run` with the file, its
    append in progress, the blocks that were in the file when it was opened or
    whose append returned `Ok`, and the pending rewrite of each `send`. -/
structure SharedFile where
  store : BlockStore
  appending : Option PendingAppend
  committed : List Block
  rewrites : Nat → Option Bytes

/-- A step of `run`, or of the `send` with the given number. -/
inductive FileStep where
  | start (b : Block)
  | chunk (n : Nat)
  | finish
  | read (i : Nat)
  | rewrite (i : Nat)

namespace SharedFile

/-- The file as `run` opens it, holding some blocks. -/
def opened (s : BlockStore) (held : List Block) : SharedFile :=
  { store := s, appending := none, committed := held, rewrites := fun _ => none }

/-- One step; `none` if the process cannot take it. -/
def step (s : SharedFile) : FileStep → Option SharedFile
  | .start b =>
      match s.appending, encodeBlock b with
      | none, some payload =>
          -- Refused before anything is written.
          if s.store.poisoned ∨ maxFrameBytes < payload.length then some s
          else some { s with appending := some ⟨b, [], s.store.bytesToWrite payload⟩ }
      | _, _ => none
  | .chunk n =>
      match s.appending with
      | none => none
      | some a =>
          if a.left = [] then none
          else some { s with
            store := { s.store with file := s.store.file ++ a.left.take (n + 1) }
            appending := some ⟨a.block, a.done ++ a.left.take (n + 1), a.left.drop (n + 1)⟩ }
  | .finish =>
      match s.appending with
      | none => none
      | some a =>
          if a.left = [] then
            some { s with
              store := { s.store with v2MagicOnDisk := decide (s.store.format = .v2) }
              appending := none
              committed := s.committed ++ [a.block] }
          else none
  | .read i => some { s with rewrites := Function.update s.rewrites i (repairOf s.store.file) }
  | .rewrite i =>
      match s.rewrites i with
      | none => none
      | some data =>
          some { s with
            store := { s.store with file := data }
            rewrites := Function.update s.rewrites i none }

/-- An interleaving of steps. -/
def run (s : SharedFile) : List FileStep → Option SharedFile
  | [] => some s
  | e :: es => do
      let s' ← s.step e
      s'.run es

end SharedFile

end Trilogicon
