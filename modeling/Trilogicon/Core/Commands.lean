import Trilogicon.Core.DataDirBind
import Trilogicon.Core.PendingTxFile
import Trilogicon.Core.Run

/-!
# Wallets, and the Commands That Use Them

`wallet.rs`, the text of a genesis document from `genesis.rs`, and `init` and
`send` of `main.rs`.

A wallet is a seed. Keys and signatures come from Ed25519, which is a parameter
like the rest of the primitives; here it has a law, that what a key signs is
verified by it.

`init` writes the seed and, if it is given a balance, a genesis document with it.
The seed is written first, and is there when the document is refused. `send` reads
the seed, the document and the chain, takes the nonce from the table and appends
a signed transaction to the queue. It does not look at the queue, nor at the
balance.

What the system answers is given to the model. The binding of the directory
enters with the file that is there and what `ensure_binding_if_missing` returns.
What is printed is left out, and `toml` is a parameter that reads back what it
wrote.

## Main definitions

* `Signing`: Ed25519 keys and signatures.
* `Wallet.signTransfer`: Build and sign a transfer.
* `Genesis.fromTomlStr`, `Genesis.tomlText`: A genesis document as text.
* `loadWallet`, `loadGenesisForCmd`: What a command reads.
* `cmdInit`, `cmdSend`: The commands.
* `queueTurn`, `queueTurns`: The loop of `run`, with the queue that `send` appends to.
-/

namespace Trilogicon

/-! ### Wallets -/

/-- Ed25519: the public key of a seed, and its signatures, which verify. -/
structure Signing [Primitives] where
  publicKey : ByteArr 32 → ByteArr 32
  sign : ByteArr 32 → Bytes → ByteArr 64
  decodes : ∀ seed, Primitives.verifyingKeyFromBytes (publicKey seed) = true
  verifies : ∀ seed message,
    Primitives.verify (publicKey seed) message (sign seed message) = true

/-- `wallet::Wallet`. -/
structure Wallet where
  seed : ByteArr 32

namespace Wallet

variable [Primitives]

/-- `Wallet::address`. -/
def address (w : Wallet) (keys : Signing) : Address :=
  ⟨Crypto.addressFromPublicKey (keys.publicKey w.seed).val⟩

/-- `Wallet::sign_transfer`. -/
def signTransfer (w : Wallet) (keys : Signing) (receiver : Address)
    (amount fee nonce timestampUnix : UInt64) : Except ProtocolError Transaction :=
  if amount = 0 then .error .invalidAmount
  else if !receiver.isValid then .error .invalidAddress
  else
    let vk := keys.publicKey w.seed
    let tx : Transaction :=
      { sender := ⟨Crypto.addressFromPublicKey vk.val⟩
        receiver, amount, fee, nonce, timestampUnix
        publicKey := vk.val
        signature := []
        txHash := "" }
    let payload := tx.unsignedPayloadBytes
    .ok { tx with
      signature := (keys.sign w.seed payload).val
      txHash := Crypto.hashBytes payload }

end Wallet

/-! ### Genesis documents as text -/

/-- The comment in front of a genesis document. -/
def genesisComment (hex : String) : String :=
  "# Trilogicon V1 genesis — allocations at height 0 (before first non-genesis block).\n" ++
    "# State commitment (compare across nodes): " ++ hex ++ "\n\n"

/-- `toml::to_string_pretty` and `toml::from_str` for `Genesis`. -/
structure GenesisToml where
  render : Genesis → Except String String
  parse : String → Except String Genesis
  /-- What was written is read back, with the comment in front of it. -/
  reads : ∀ g body hex, render g = .ok body → (∀ c ∈ hex.toList, isHexChar c = true) →
    parse (genesisComment hex ++ body) = .ok g

namespace Genesis

/-- `Genesis::from_toml_str`. -/
def fromTomlStr (toml : GenesisToml) (s : String) : Except String Genesis := do
  let g ← (toml.parse s).mapError fun e => "genesis TOML: " ++ e
  g.validateDecl.mapError ProtocolError.display
  .ok g

/-- The text that `Genesis::write_to_path` writes. -/
def tomlText [Primitives] (toml : GenesisToml) (g : Genesis) : Except String String := do
  g.validateDecl.mapError ProtocolError.display
  let body ← toml.render g
  let hex ← g.stateCommitmentHex.mapError ProtocolError.display
  .ok (genesisComment hex ++ body)

end Genesis

/-! ### What a command reads -/

/-- The names a command uses: those in the data directory, and that of the genesis
    document, which may be elsewhere. -/
structure CommandPaths where
  dataDir : String
  wallet : String
  genesis : String
  bind : String
  chain : String
  queueLock : String

/-- `load_wallet`; no file is `none`. -/
def loadWallet (paths : CommandPaths) :
    Option (Except IoError Bytes) → Except IoError Wallet
  | none => .error (.other (paths.wallet ++ ": no wallet here — run `init --data-dir " ++
      paths.dataDir ++ "` first"))
  | some (.error e) => .error e
  | some (.ok raw) =>
      match ByteArr.tryFrom 32 raw with
      | none => .error (.invalidData ("expected 32-byte " ++ paths.wallet ++ ", got " ++
          raw.length.repr ++ " bytes"))
      | some seed => .ok ⟨seed⟩

/-- `load_genesis_for_cmd`; no file is `none`. -/
def loadGenesisForCmd (toml : GenesisToml) (paths : CommandPaths) :
    Option (Except String String) → Except String Genesis
  | none => .error ("genesis file not found: " ++ paths.genesis ++
      " (use `init --genesis-balance N` or --genesis PATH)")
  | some raw => (raw.bind (Genesis.fromTomlStr toml)).mapError fun e => paths.genesis ++ ": " ++ e

/-- `Display` for `StorageError`. -/
def StorageError.display : StorageError → String
  | .io e => "storage I/O: " ++ e.msg
  | .decode s => "storage decode: " ++ s
  | .replay e => "chain replay: " ++ e.display
  | .genesis s => "genesis: " ++ s

/-! ### The commands -/

section Commands

variable [Primitives] (keys : Signing)

/-- The files of `init`. -/
structure InitDir where
  wallet : Option Bytes
  genesis : Option Bytes

/-- What the system does for `init`, and the seed that was drawn. -/
structure InitWorld where
  created : Except String Unit
  seed : ByteArr 32
  walletWrite : WriteOutcome
  genesisWrite : WriteOutcome

/-- `fs::write`: the file it leaves. -/
def writeFile (data : Bytes) : WriteOutcome → Except String Unit × Option Bytes
  | .complete => (.ok (), some data)
  | .fails n e => (.error e.msg, some (data.take n))

/-- `cmd_init`. -/
def cmdInit (toml : GenesisToml) (paths : CommandPaths) (dir : InitDir)
    (genesisBalance : Option UInt64) (w : InitWorld) : Except String Unit × InitDir :=
  match w.created with
  | .error e => (.error e, dir)
  | .ok () =>
      if dir.wallet.isSome then
        (.error (paths.wallet ++ " already exists; remove it first if you want a new wallet"), dir)
      else
        match writeFile w.seed.val w.walletWrite with
        | (.error e, wallet) => (.error e, { dir with wallet := wallet })
        | (.ok (), wallet) =>
            -- From here on the wallet is there.
            let dir := { dir with wallet := wallet }
            match genesisBalance with
            | none => (.ok (), dir)
            | some bal =>
                if dir.genesis.isSome then
                  (.error (paths.genesis ++
                    " already exists; remove it first or omit --genesis-balance"), dir)
                else
                  let g : Genesis :=
                    { allocations := [⟨((⟨w.seed⟩ : Wallet).address keys).value, bal⟩] }
                  match g.tomlText toml with
                  | .error e => (.error e, dir)
                  | .ok text =>
                      match writeFile (utf8 text) w.genesisWrite with
                      | (.error e, genesis) => (.error e, { dir with genesis := genesis })
                      | (.ok (), genesis) =>
                          match g.stateCommitmentHex with
                          | .error e => (.error e.display, { dir with genesis := genesis })
                          | .ok _ => (.ok (), { dir with genesis := genesis })

/-- The files that `send` may change. -/
structure SendDir where
  chain : Option Bytes
  queue : Option Bytes

/-- What the system does for `send`, and the files it only reads. -/
structure SendWorld where
  created : Except String Unit
  wallet : Option (Except IoError Bytes)
  genesis : Option (Except String String)
  bindFile : Option (Except String String)
  /-- What `ensure_binding_if_missing` returns. -/
  bound : Except String Unit
  nowUnix : UInt64
  queueLock : Except String Unit
  append : PendingAppendIo

/-- `append_pending_transaction`, with its lock. -/
def appendPendingLocked (paths : CommandPaths) (queue : Option Bytes) (tx : Transaction)
    (w : SendWorld) : Option (Except String Unit × Option Bytes) :=
  match w.queueLock with
  | .error e => some (.error ("[pending] fail-closed: could not acquire queue lock " ++
      paths.queueLock ++ " — " ++ e), queue)
  | .ok () =>
      (appendPendingTransaction queue tx w.append).map fun (r, queue) =>
        (r.mapError IoError.msg, queue)

/-- `cmd_send` up to the chain: the wallet, the genesis document and the binding. -/
def sendSetup (toml : GenesisToml) (bindParse : BindParser) (paths : CommandPaths)
    (w : SendWorld) : Except String (Wallet × Genesis) := do
  w.created
  let wallet ← (loadWallet paths w.wallet).mapError IoError.msg
  let genesis ← loadGenesisForCmd toml paths w.genesis
  verifyBindingIfPresent bindParse paths.bind w.bindFile genesis
  .ok (wallet, genesis)

/-- The transaction that `send` makes on a chain. -/
def sendTransaction (wallet : Wallet) (c : Blockchain) (receiver : String) (amount fee : UInt64)
    (nowUnix : UInt64) : Except String Transaction := do
  let nonce ← match c.state.getAccount (wallet.address keys) with
    | none => .error ("wallet address has no genesis allocation; add it to genesis.toml " ++
        "(same commitment as peers)")
    | some acc => .ok acc.nonce
  (wallet.signTransfer keys ⟨receiver⟩ amount fee nonce nowUnix).mapError ProtocolError.display

/-- `cmd_send`; `none` when the encoder panics. -/
def cmdSend (toml : GenesisToml) (bindParse : BindParser) (paths : CommandPaths) (dir : SendDir)
    (receiver : String) (amount fee : UInt64) (w : SendWorld) :
    Option (Except String Unit × SendDir) :=
  match sendSetup toml bindParse paths w with
  | .error e => some (.error e, dir)
  | .ok (wallet, genesis) =>
      match loadBlockchainFromDisk dir.chain genesis with
      | (.error e, disk) =>
          some (.error ("[startup] fail-closed: could not load chain " ++ paths.chain ++ " — " ++
            e.display ++ ". Repair or replace chain.blocks if corrupt or truncated. " ++
            "See docs/design_notes/v2_persistence_restart.md"), { dir with chain := disk })
      | (.ok (chain, _), disk) =>
          let dir := { dir with chain := disk }
          match w.bound with
          | .error e => some (.error e, dir)
          | .ok () =>
              match sendTransaction keys wallet chain receiver amount fee w.nowUnix with
              | .error e => some (.error e, dir)
              | .ok tx =>
                  (appendPendingLocked paths dir.queue tx w).map fun (r, queue) =>
                    (r, { dir with queue := queue })

end Commands

/-! ### The queue in a run -/

section Queue

variable [Primitives] (sync : SyncCall) (peers : List String)

/-- A turn of `cmd_run` with the queue file. It is drained after the check of the
    store, and a drain that fails is only reported. -/
def queueTurn (s : RunState) (queue : Option Bytes) (v : Interval) (io : PendingDrainIo) :
    Option (Except String RunState × Option Bytes) := do
  let n ← receiveAll s.node v.arrivals
  if n.store.poisoned then do
    let (_, out) ← runInterval sync peers s v
    some (out, queue)
  else do
    let (_, queue, pool) ← drainPendingFile queue n.pool io
    let (_, out) ← runInterval sync peers s { v with drained := fun _ => pool }
    some (out, queue)

/-- The loop with the queue file. -/
def queueTurns : RunState → Option Bytes → List (Interval × PendingDrainIo) →
    Option (Except String RunState × Option Bytes)
  | s, queue, [] => some (.ok s, queue)
  | s, queue, (v, io) :: vs => do
      match ← queueTurn sync peers s queue v io with
      | (.error e, queue) => some (.error e, queue)
      | (.ok s, queue) => queueTurns s queue vs

end Queue

end Trilogicon
