import Trilogicon.Core.Session
import Trilogicon.Lib.Options

/-!
# The Command Line

`parse_run_args`, `parse_init_args`, `parse_send_args` and `run_cli` of `main.rs`.

`run` and `init` take options only, each a flag and a value, in a loop that stops
at the first thing it cannot read. A branch of the loop reads the value and assigns
it, so a branch is a kind of option here, what it assigns is an option, and the
loop is that of `OptionTable`. `send` takes two options and keeps everything else
as its words.

The largest `usize` is a parameter. Paths are strings, and durations are numbers of
seconds. What `usage` prints is left out.

## Main definitions

* `PeerPolicy`: All limits for inbound peers.
* `RunArgs`, `InitArgs`, `SendArgs`: What the commands are given.
* `RunFlag.read`, `RunArgs.apply`: A branch of the loop of `parse_run_args`.
* `parseRunArgs`, `parseInitArgs`, `parseSendArgs`: The loops.
* `runCli`: The command that is run.
-/

namespace Trilogicon

/-! ### What is read -/

/-- `str::parse::<u64>`. -/
def parseU64 (v : String) : Option UInt64 :=
  (readUnsigned (2 ^ 64 - 1) v).map UInt64.ofNat

/-- `str::parse::<u32>`. -/
def parseU32 (v : String) : Option UInt32 :=
  (readUnsigned (2 ^ 32 - 1) v).map UInt32.ofNat

/-- The pieces of a value between commas, trimmed, without those that are empty. -/
def splitPeers (v : String) : List String :=
  ((v.toList.splitOn ',').map fun p => trim (String.ofList p)).filter fun p => p ≠ ""

/-! ### `run` -/

/-- `network::InboundPeerPolicy`. -/
structure PeerPolicy extends SessionPolicy where
  maxConcurrentSessions : Nat
  idleReadTimeout : UInt64
  writeTimeout : Option UInt64
deriving DecidableEq, Repr

/-- `InboundPeerPolicy::default`. -/
def PeerPolicy.default : PeerPolicy where
  maxConcurrentSessions := 128
  idleReadTimeout := 120
  writeTimeout := some 60
  maxProtocolErrorsPerSession := 32
  maxAppFramesPerSession := 100000
  maxInvalidNetworkBlocksPerSession := 24
  maxStaleDecodedBlocksPerSession := 8192
  maxInboundTxPerSession := 100000

/-- `DEFAULT_INTERVAL_SECS`. -/
def defaultIntervalSecs : UInt64 := 2

/-- `DEFAULT_MEMPOOL_CAPACITY`. -/
def defaultMempoolCapacity : Nat := 10000

/-- `MAX_MEMPOOL_CAPACITY`. -/
def maxMempoolCapacity : Nat := 1000000

/-- What `parse_run_args` returns. -/
structure RunArgs where
  dataDir : String
  genesisPath : Option String
  interval : UInt64
  listen : Option String
  peers : List String
  maxFutureDriftSecs : Option UInt64
  peerPolicy : PeerPolicy
  mempoolCapacity : Nat
deriving DecidableEq, Repr

/-- What it starts with. -/
def RunArgs.default : RunArgs where
  dataDir := "."
  genesisPath := none
  interval := defaultIntervalSecs
  listen := none
  peers := []
  maxFutureDriftSecs := none
  peerPolicy := .default
  mempoolCapacity := defaultMempoolCapacity

/-- The branches of its loop. -/
inductive RunFlag where
  | dataDir
  | genesis
  | intervalSecs
  | listen
  | peers
  | maxFutureDriftSecs
  | maxInboundPeers
  | peerIdleTimeoutSecs
  | peerWriteTimeoutSecs
  | peerMaxWireErrors
  | peerMaxFrames
  | peerMaxStaleBlocks
  | peerMaxInboundTx
  | mempoolCapacity
deriving DecidableEq, Repr

/-- What the branches assign. -/
inductive RunOption where
  | dataDir (v : String)
  | genesis (v : String)
  | intervalSecs (n : UInt64)
  | listen (v : String)
  | peers (ps : List String)
  | maxFutureDriftSecs (n : UInt64)
  | maxInboundPeers (n : Nat)
  | peerIdleTimeoutSecs (n : UInt64)
  | peerWriteTimeoutSecs (n : Option UInt64)
  | peerMaxWireErrors (n : UInt32)
  | peerMaxFrames (n : UInt32)
  | peerMaxStaleBlocks (n : UInt32)
  | peerMaxInboundTx (n : UInt32)
  | mempoolCapacity (n : Nat)
deriving DecidableEq, Repr

namespace RunFlag

/-- The flag as it is written. -/
def name : RunFlag → String
  | dataDir => "--data-dir"
  | genesis => "--genesis"
  | intervalSecs => "--interval-secs"
  | listen => "--listen"
  | peers => "--peers"
  | maxFutureDriftSecs => "--max-future-drift-secs"
  | maxInboundPeers => "--max-inbound-peers"
  | peerIdleTimeoutSecs => "--peer-idle-timeout-secs"
  | peerWriteTimeoutSecs => "--peer-write-timeout-secs"
  | peerMaxWireErrors => "--peer-max-wire-errors"
  | peerMaxFrames => "--peer-max-frames"
  | peerMaxStaleBlocks => "--peer-max-stale-blocks"
  | peerMaxInboundTx => "--peer-max-inbound-tx"
  | mempoolCapacity => "--mempool-capacity"

/-- All branches, in the order of the source. -/
def all : List RunFlag :=
  [dataDir, genesis, intervalSecs, listen, peers, maxFutureDriftSecs, maxInboundPeers,
    peerIdleTimeoutSecs, peerWriteTimeoutSecs, peerMaxWireErrors, peerMaxFrames,
    peerMaxStaleBlocks, peerMaxInboundTx, mempoolCapacity]

/-- The branch that is taken. -/
def ofArg (arg : String) : Option RunFlag :=
  all.find? fun k => k.name = arg

/-- What is reported when nothing follows. -/
def missing : RunFlag → String
  | genesis => "--genesis needs a file path"
  | listen => "--listen needs HOST:PORT"
  | peers => "--peers needs comma-separated HOST:PORT list"
  | k => k.name ++ " needs a value"

/-- A limit that is a `u32` and not zero. -/
def readLimit (k : RunFlag) (make : UInt32 → RunOption) (v : String) : Except String RunOption :=
  match parseU32 v with
  | none => .error (k.name ++ " must be a u32 >= 1")
  | some n => if n < 1 then .error (k.name ++ " must be >= 1") else .ok (make n)

/-- What a branch reads. -/
def read (usizeMax : Nat) : RunFlag → String → Except String RunOption
  | dataDir, v => .ok (.dataDir v)
  | genesis, v => .ok (.genesis v)
  | intervalSecs, v =>
      match parseU64 v with
      | none => .error "interval-secs must be a positive integer"
      | some n =>
          if n = 0 then .error "--interval-secs must be > 0" else .ok (.intervalSecs n)
  | listen, v => .ok (.listen v)
  | peers, v => .ok (.peers (splitPeers v))
  | maxFutureDriftSecs, v =>
      match parseU64 v with
      | none => .error "max-future-drift-secs must be a u64"
      | some n => .ok (.maxFutureDriftSecs n)
  | maxInboundPeers, v =>
      match parseU64 v with
      | none => .error "--max-inbound-peers must be a non-negative integer"
      | some n =>
          if usizeMax < n.toNat then .error "--max-inbound-peers too large"
          else .ok (.maxInboundPeers n.toNat)
  | peerIdleTimeoutSecs, v =>
      match parseU64 v with
      | none => .error "--peer-idle-timeout-secs must be a positive integer"
      | some n =>
          if n = 0 then .error "--peer-idle-timeout-secs must be >= 1"
          else .ok (.peerIdleTimeoutSecs n)
  | peerWriteTimeoutSecs, v =>
      match parseU64 v with
      | none => .error "--peer-write-timeout-secs must be a non-negative integer"
      | some n => .ok (.peerWriteTimeoutSecs (if n = 0 then none else some n))
  | peerMaxWireErrors, v => readLimit .peerMaxWireErrors .peerMaxWireErrors v
  | peerMaxFrames, v => readLimit .peerMaxFrames .peerMaxFrames v
  | peerMaxStaleBlocks, v => readLimit .peerMaxStaleBlocks .peerMaxStaleBlocks v
  | peerMaxInboundTx, v => readLimit .peerMaxInboundTx .peerMaxInboundTx v
  | mempoolCapacity, v =>
      match readUnsigned usizeMax v with
      | none => .error "--mempool-capacity must be a usize >= 1"
      | some n =>
          if n < 1 then .error "--mempool-capacity must be >= 1"
          else if maxMempoolCapacity < n then
            .error ("--mempool-capacity must be <= " ++ maxMempoolCapacity.repr ++
              " (local RAM bound)")
          else .ok (.mempoolCapacity n)

end RunFlag

/-- What a branch assigns. -/
def RunArgs.apply (a : RunArgs) : RunOption → RunArgs
  | .dataDir v => { a with dataDir := v }
  | .genesis v => { a with genesisPath := some v }
  | .intervalSecs n => { a with interval := n }
  | .listen v => { a with listen := some v }
  | .peers ps => { a with peers := ps }
  | .maxFutureDriftSecs n => { a with maxFutureDriftSecs := some n }
  | .maxInboundPeers n => { a with peerPolicy := { a.peerPolicy with maxConcurrentSessions := n } }
  | .peerIdleTimeoutSecs n => { a with peerPolicy := { a.peerPolicy with idleReadTimeout := n } }
  | .peerWriteTimeoutSecs n => { a with peerPolicy := { a.peerPolicy with writeTimeout := n } }
  | .peerMaxWireErrors n =>
      { a with peerPolicy := { a.peerPolicy with maxProtocolErrorsPerSession := n } }
  | .peerMaxFrames n => { a with peerPolicy := { a.peerPolicy with maxAppFramesPerSession := n } }
  | .peerMaxStaleBlocks n =>
      { a with peerPolicy := { a.peerPolicy with maxStaleDecodedBlocksPerSession := n } }
  | .peerMaxInboundTx n =>
      { a with peerPolicy := { a.peerPolicy with maxInboundTxPerSession := n } }
  | .mempoolCapacity n => { a with mempoolCapacity := n }

/-- The flags of `run`. -/
def runTable (usizeMax : Nat) : OptionTable RunFlag RunOption String where
  flag := RunFlag.ofArg
  missing := RunFlag.missing
  read := RunFlag.read usizeMax
  unknown arg := "unknown flag: " ++ arg

/-- `parse_run_args`. -/
def parseRunArgs (usizeMax : Nat) (args : List String) : Except String RunArgs :=
  (runTable usizeMax).parse RunArgs.apply .default args

/-! ### `init` -/

/-- What `parse_init_args` returns. -/
structure InitArgs where
  dataDir : String
  genesisBalance : Option UInt64
deriving DecidableEq, Repr

/-- What it starts with. -/
def InitArgs.default : InitArgs where
  dataDir := "."
  genesisBalance := none

/-- The branches of its loop. -/
inductive InitFlag where
  | dataDir
  | genesisBalance
deriving DecidableEq, Repr

/-- What the branches assign. -/
inductive InitOption where
  | dataDir (v : String)
  | genesisBalance (n : UInt64)
deriving DecidableEq, Repr

namespace InitFlag

/-- The branch that is taken. -/
def ofArg (arg : String) : Option InitFlag :=
  if arg = "--data-dir" then some dataDir
  else if arg = "--genesis-balance" then some genesisBalance
  else none

/-- What is reported when nothing follows. -/
def missing : InitFlag → String
  | dataDir => "--data-dir needs a value"
  | genesisBalance => "--genesis-balance needs a u64"

/-- What a branch reads. -/
def read : InitFlag → String → Except String InitOption
  | dataDir, v => .ok (.dataDir v)
  | genesisBalance, v =>
      match parseU64 v with
      | none => .error "--genesis-balance must be a u64"
      | some n =>
          if n = 0 then .error "--genesis-balance must be > 0" else .ok (.genesisBalance n)

end InitFlag

/-- What a branch assigns. -/
def InitArgs.apply (a : InitArgs) : InitOption → InitArgs
  | .dataDir v => { a with dataDir := v }
  | .genesisBalance n => { a with genesisBalance := some n }

/-- The flags of `init`. -/
def initTable : OptionTable InitFlag InitOption String where
  flag := InitFlag.ofArg
  missing := InitFlag.missing
  read := InitFlag.read
  unknown arg := "unknown flag: " ++ arg

/-- `parse_init_args`. -/
def parseInitArgs (args : List String) : Except String InitArgs :=
  initTable.parse InitArgs.apply .default args

/-! ### `send` -/

/-- What `parse_send_args` returns. -/
structure SendArgs where
  dataDir : String
  genesisPath : Option String
  rest : List String
deriving DecidableEq, Repr

/-- What it starts with. -/
def SendArgs.default : SendArgs where
  dataDir := "."
  genesisPath := none
  rest := []

/-- The loop of `parse_send_args`. What is not one of its two flags is a word. -/
def parseSendFrom : SendArgs → List String → Except String SendArgs
  | a, [] => .ok a
  | a, [arg] =>
      if arg = "--data-dir" then .error "--data-dir needs a value"
      else if arg = "--genesis" then .error "--genesis needs a file path"
      else .ok { a with rest := a.rest ++ [arg] }
  | a, arg :: v :: args =>
      if arg = "--data-dir" then parseSendFrom { a with dataDir := v } args
      else if arg = "--genesis" then parseSendFrom { a with genesisPath := some v } args
      else parseSendFrom { a with rest := a.rest ++ [arg] } (v :: args)

/-- `parse_send_args`. -/
def parseSendArgs (args : List String) : Except String SendArgs :=
  parseSendFrom .default args

/-! ### The command -/

/-- The calls that `run_cli` makes. -/
inductive Command where
  | init (a : InitArgs)
  | run (a : RunArgs)
  | send (dataDir : String) (genesisPath : Option String) (receiver : String)
      (amount fee : UInt64)
deriving DecidableEq, Repr

/-- The words of `send`. -/
def sendCommand (a : SendArgs) : Except String Command :=
  match a.rest with
  | receiver :: amount :: more =>
      match parseU64 amount with
      | none => .error "amount must be a u64"
      | some amount =>
          match more with
          | [] => .ok (.send a.dataDir a.genesisPath receiver amount 1)
          | fee :: _ =>
              match parseU64 fee with
              | none => .error "fee must be a u64"
              | some fee => .ok (.send a.dataDir a.genesisPath receiver amount fee)
  | _ => .error "send: need RECEIVER AMOUNT [FEE]"

/-- `run_cli`, up to the call. -/
def runCli (usizeMax : Nat) : List String → Except String Command
  | _ :: command :: args =>
      if command = "init" then (parseInitArgs args).map .init
      else if command = "run" then (parseRunArgs usizeMax args).map .run
      else if command = "send" then (parseSendArgs args).bind sendCommand
      else .error "unknown command"
  | _ => .error "missing command"

end Trilogicon
