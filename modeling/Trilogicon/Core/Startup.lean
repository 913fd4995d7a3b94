import Trilogicon.Core.Commands
import Trilogicon.Core.PeerBook

/-!
# Starting a Node

`cmd_run` up to its peers: the lock of the data directory, the wallet, the genesis
document, the binding, the chain, the store and the peer book.

The order is the one of the source. Everything that can be refused without the
chain is checked before its file is read, and the file may be repaired by reading
it. The file of the chain is what is kept here; what the system answers, and the
files that are only read, are given. As for `send`, the binding enters with the
file that is there and what `ensure_binding_if_missing` returns.

## Main definitions

* `StartupWorld`: What the system does for `run` before its loop.
* `acquireRunLock`: The lock that one `run` has at a time.
* `startupChecks`: What is checked before the chain is read.
* `startup`: The node and the peer book that a run starts with.
-/

namespace Trilogicon

section Startup

variable [Primitives]

/-- What the system does for `run` before its loop, and the files it only reads.
    The lock is `false` if another process has it. -/
structure StartupWorld where
  created : Except String Unit
  lock : Except String Bool
  wallet : Option (Except IoError Bytes)
  genesis : Option (Except String String)
  bindFile : Option (Except String String)
  /-- What `ensure_binding_if_missing` returns. -/
  bound : Except String Unit
  book : Option (Except String PeerBookFile)

/-- The lock of `cmd_run`, from what `try_acquire_exclusive` returns. -/
def acquireRunLock (lockPath : String) : Except String Bool → Except String Unit
  | .ok true => .ok ()
  | .ok false => .error ("[startup] fail-closed: another `node run` already holds this data " ++
      "directory (lock file " ++ lockPath ++ "). Stop the other process or use a different " ++
      "--data-dir.")
  | .error e => .error ("[startup] fail-closed: could not acquire run lock " ++ lockPath ++
      " — " ++ e)

/-- `cmd_run` up to the chain: the lock, the wallet, the genesis document and the
    binding. -/
def startupChecks (toml : GenesisToml) (bindParse : BindParser) (paths : CommandPaths)
    (lockPath : String) (w : StartupWorld) : Except String (Wallet × Genesis) := do
  w.created
  acquireRunLock lockPath w.lock
  let wallet ← (loadWallet paths w.wallet).mapError IoError.msg
  let genesis ← loadGenesisForCmd toml paths w.genesis
  verifyBindingIfPresent bindParse paths.bind w.bindFile genesis
  .ok (wallet, genesis)

/-- The policy of a run: `--max-future-drift-secs` replaces the default. -/
def Blockchain.withDrift (c : Blockchain) : Option UInt64 → Blockchain
  | none => c
  | some d => { c with consensus := { c.consensus with maxFutureDriftSecs := d } }

/-- `cmd_run` before it uses its peers, with the file of the chain it leaves. Opening
    the store creates a file that is not there. -/
def startup (toml : GenesisToml) (bindParse : BindParser) (paths : CommandPaths)
    (lockPath : String) (drift : Option UInt64) (capacity : Nat) (disk : Option Bytes)
    (w : StartupWorld) : Except String (NodeInner × PeerBook) × Option Bytes :=
  match startupChecks toml bindParse paths lockPath w with
  | .error e => (.error e, disk)
  | .ok (_, genesis) =>
      match loadBlockchainFromDisk disk genesis with
      | (.error e, disk) =>
          (.error ("[startup] fail-closed: could not load chain " ++ paths.chain ++ " — " ++
            e.display ++ ". Repair or replace chain.blocks if corrupt or truncated. " ++
            "See docs/design_notes/v2_persistence_restart.md"), disk)
      | (.ok (chain, _), disk) =>
          match w.bound with
          | .error e => (.error e, disk)
          | .ok () =>
              match BlockStore.openAppend disk with
              | .error e => (.error e.msg, disk)
              | .ok store =>
                  match PeerBook.loadOrEmpty w.book with
                  | .error e => (.error e, some store.file)
                  | .ok book =>
                      let node : NodeInner :=
                        { genesis := genesis, chain := chain.withDrift drift
                          pool := .new capacity, store := store }
                      (.ok (node, book), some store.file)

end Startup

end Trilogicon
