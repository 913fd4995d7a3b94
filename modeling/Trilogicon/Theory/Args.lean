import Trilogicon.Core.Args

/-!
# What the Command Line Can Say

`run` can be given exactly the arguments that are in order: `run_args_range` says
what that means, and has a command line for each of them. Of several values for a
flag the last counts, and the order of the flags does not matter; that is a fact
about tables of options, and what is shown here is that each branch of the loop
assigns one field.

`send` can read every command line in which no value is missing: a flag that it
does not know is a word like any other.

## Main definitions

* `PeerName`: What can stand in a list of peers.
* `RunOption.kind`, `RunOption.Allowed`, `RunOption.value`: What branches read.
* `RunArgs.WellFormed`: The arguments that `run` can be given.
* `RunArgs.commandLine`: A command line for them.
* `SendItem`: What a command line of `send` consists of.

## Main results

* `RunFlag.read_ok`, `RunOption.read_value`: What a branch lets through.
* `runArgs_overwrites`: Each branch assigns one field.
* `run_args_range`: What `run` can be given.
* `run_args_last`: The last value of each flag is all that counts.
* `parseSendFrom_ok_iff`: What `send` can be given.
* `unknown_flags`: What becomes of flags that are not known.
-/

namespace Trilogicon

/-! ### Values -/

theorem parseU64_repr (n : UInt64) : parseU64 n.toNat.repr = some n := by
  have hn := n.toNat_lt
  unfold parseU64
  rw [readUnsigned_repr (by omega), Option.map_some, UInt64.ofNat_toNat]

theorem parseU32_repr (n : UInt32) : parseU32 n.toNat.repr = some n := by
  have hn := n.toNat_lt
  unfold parseU32
  rw [readUnsigned_repr (by omega), Option.map_some, UInt32.ofNat_toNat]

/-- The characters of a string that is trimmed. -/
theorem trim_toList (s : String) :
    (trim s).toList = (s.toList.dropWhile isWhitespace).rdropWhile isWhitespace := by
  rw [trim, String.toList_ofList]
  rfl

theorem trim_trim (s : String) : trim (trim s) = trim s := by
  rw [← String.toList_inj, trim_toList, trim_toList]
  have hfirst : ((s.toList.dropWhile isWhitespace).rdropWhile isWhitespace).dropWhile isWhitespace =
      (s.toList.dropWhile isWhitespace).rdropWhile isWhitespace := by
    -- What is left from the right starts as the whole does, and not with white space.
    rw [List.dropWhile_eq_self_iff]
    intro hlen
    have hpre := List.rdropWhile_prefix isWhitespace (s.toList.dropWhile isWhitespace)
    have hkeep := List.dropWhile_eq_self_iff.mp
      (List.dropWhile_idempotent isWhitespace s.toList) (hlen.trans_le hpre.length_le)
    rwa [hpre.getElem hlen]
  rw [hfirst, List.rdropWhile_idempotent]

/-- What can stand in a list of peers. -/
structure PeerName (p : String) : Prop where
  nonempty : p ≠ ""
  trimmed : trim p = p
  noComma : ',' ∉ p.toList

theorem splitPeers_names {v p : String} (h : p ∈ splitPeers v) : PeerName p := by
  unfold splitPeers at h
  rw [List.mem_filter, List.mem_map, decide_eq_true_eq] at h
  rcases h with ⟨⟨q, hq, rfl⟩, hne⟩
  refine ⟨hne, trim_trim _, fun hc => ?_⟩
  rw [trim_toList, String.toList_ofList] at hc
  exact notMem_of_mem_splitOn hq ((List.dropWhile_sublist _).subset
    ((List.rdropWhile_prefix _ _).subset hc))

/-- Names with commas between them are read back. -/
theorem splitPeers_intercalate {ps : List String} (h : ∀ p ∈ ps, PeerName p) :
    splitPeers (String.ofList ([','].intercalate (ps.map String.toList))) = ps := by
  unfold splitPeers
  rw [String.toList_ofList]
  rcases ps with _ | ⟨q, qs⟩
  · rfl
  rw [List.splitOn_intercalate, List.map_map]
  · -- Each name is as it was before, since there is nothing to trim.
    have hmap : (q :: qs).map ((fun p => trim (String.ofList p)) ∘ String.toList) = q :: qs := by
      refine (List.map_congr_left fun p hp => ?_).trans (List.map_id _)
      rw [Function.comp_apply, String.ofList_toList, (h p hp).trimmed]
      rfl
    rw [hmap, List.filter_eq_self]
    intro p hp
    exact decide_eq_true (h p hp).nonempty
  · intro l hl
    rcases List.mem_map.mp hl with ⟨p, hp, rfl⟩
    exact (h p hp).noComma
  · exact List.cons_ne_nil _ _

/-! ### Options of `run` -/

namespace RunFlag

theorem ofArg_name (k : RunFlag) : ofArg k.name = some k := by
  cases k <;> decide

theorem name_of_ofArg {arg : String} {k : RunFlag} (h : ofArg arg = some k) : k.name = arg := by
  have hfound := List.find?_some h
  exact of_decide_eq_true hfound

end RunFlag

namespace RunOption

/-- The branch an option belongs to. -/
def kind : RunOption → RunFlag
  | dataDir _ => .dataDir
  | genesis _ => .genesis
  | intervalSecs _ => .intervalSecs
  | listen _ => .listen
  | peers _ => .peers
  | maxFutureDriftSecs _ => .maxFutureDriftSecs
  | maxInboundPeers _ => .maxInboundPeers
  | peerIdleTimeoutSecs _ => .peerIdleTimeoutSecs
  | peerWriteTimeoutSecs _ => .peerWriteTimeoutSecs
  | peerMaxWireErrors _ => .peerMaxWireErrors
  | peerMaxFrames _ => .peerMaxFrames
  | peerMaxStaleBlocks _ => .peerMaxStaleBlocks
  | peerMaxInboundTx _ => .peerMaxInboundTx
  | mempoolCapacity _ => .mempoolCapacity

/-- What a branch lets through. -/
def Allowed (usizeMax : Nat) : RunOption → Prop
  | intervalSecs n | peerIdleTimeoutSecs n => n ≠ 0
  | peers ps => ∀ p ∈ ps, PeerName p
  | maxInboundPeers n => n ≤ usizeMax ∧ n < 2 ^ 64
  | peerWriteTimeoutSecs n => n ≠ some 0
  | peerMaxWireErrors n | peerMaxFrames n | peerMaxStaleBlocks n | peerMaxInboundTx n => n ≠ 0
  | mempoolCapacity n => 1 ≤ n ∧ n ≤ maxMempoolCapacity
  | _ => True

/-- A value that is read as the option. -/
def value : RunOption → String
  | dataDir v | genesis v | listen v => v
  | intervalSecs n | maxFutureDriftSecs n | peerIdleTimeoutSecs n => n.toNat.repr
  | peers ps => String.ofList ([','].intercalate (ps.map String.toList))
  | maxInboundPeers n | mempoolCapacity n => n.repr
  | peerWriteTimeoutSecs n => (n.getD 0).toNat.repr
  | peerMaxWireErrors n | peerMaxFrames n | peerMaxStaleBlocks n | peerMaxInboundTx n =>
      n.toNat.repr

end RunOption

/-- Each branch assigns one field, and nothing else does. -/
theorem runArgs_overwrites : Overwrites RunOption.kind RunArgs.apply where
  commute := by
    intro a w x h
    cases w <;> cases x <;> first | rfl | exact absurd rfl h
  absorb := by
    intro a w x h
    cases w <;> cases x <;> first | rfl | cases h

theorem readLimit_ok {k : RunFlag} {make : UInt32 → RunOption} {v : String} {w : RunOption}
    (h : k.readLimit make v = .ok w) : ∃ n, n ≠ 0 ∧ w = make n := by
  unfold RunFlag.readLimit at h
  rcases hn : parseU32 v with _ | n
  · simp only [hn, reduceCtorEq] at h
  · simp only [hn] at h
    rw [ite_error_ok_iff, Except.ok.injEq] at h
    refine ⟨n, fun hzero => h.1 ?_, h.2.symm⟩
    rw [hzero]
    decide

/-- What a branch reads is allowed, and belongs to it. -/
theorem RunFlag.read_ok {usizeMax : Nat} {k : RunFlag} {v : String} {w : RunOption}
    (h : k.read usizeMax v = .ok w) : w.kind = k ∧ w.Allowed usizeMax := by
  -- Branches that read alike are one case.
  cases k with
  | dataDir | genesis | listen =>
      rw [← Except.ok.inj h]
      exact ⟨rfl, trivial⟩
  | peers =>
      rw [← Except.ok.inj h]
      exact ⟨rfl, fun p hp => splitPeers_names hp⟩
  | peerMaxWireErrors | peerMaxFrames | peerMaxStaleBlocks | peerMaxInboundTx =>
      rcases readLimit_ok h with ⟨n, hn, rfl⟩
      exact ⟨rfl, hn⟩
  | intervalSecs | peerIdleTimeoutSecs =>
      unfold read at h
      rcases hn : parseU64 v with _ | n
      · simp only [hn, reduceCtorEq] at h
      · simp only [hn] at h
        rw [ite_error_ok_iff, Except.ok.injEq] at h
        rw [← h.2]
        exact ⟨rfl, h.1⟩
  | maxFutureDriftSecs =>
      unfold read at h
      rcases hn : parseU64 v with _ | n
      · simp only [hn, reduceCtorEq] at h
      · simp only [hn, Except.ok.injEq] at h
        rw [← h]
        exact ⟨rfl, trivial⟩
  | maxInboundPeers =>
      unfold read at h
      rcases hn : parseU64 v with _ | n
      · simp only [hn, reduceCtorEq] at h
      · simp only [hn] at h
        rw [ite_error_ok_iff, Except.ok.injEq] at h
        rw [← h.2]
        exact ⟨rfl, Nat.not_lt.mp h.1, n.toNat_lt⟩
  | peerWriteTimeoutSecs =>
      unfold read at h
      rcases hn : parseU64 v with _ | n
      · simp only [hn, reduceCtorEq] at h
      · simp only [hn, Except.ok.injEq] at h
        rw [← h]
        refine ⟨rfl, ?_⟩
        -- Zero stands for no timeout.
        by_cases hzero : n = 0
        · rw [if_pos hzero]
          exact (Option.some_ne_none _).symm
        · rw [if_neg hzero]
          exact fun hc => hzero (Option.some.inj hc)
  | mempoolCapacity =>
      unfold read at h
      rcases hn : readUnsigned usizeMax v with _ | n
      · simp only [hn, reduceCtorEq] at h
      · simp only [hn] at h
        rw [ite_error_ok_iff, ite_error_ok_iff, Except.ok.injEq] at h
        rw [← h.2.2]
        exact ⟨rfl, Nat.not_lt.mp h.1, Nat.not_lt.mp h.2.1⟩

theorem readLimit_repr (k : RunFlag) (make : UInt32 → RunOption) {n : UInt32} (hn : n ≠ 0) :
    k.readLimit make n.toNat.repr = .ok (make n) := by
  have hpos : ¬ n < 1 := by
    rw [UInt32.lt_iff_toNat_lt]
    intro hlt
    exact hn (UInt32.toNat_inj.mp (Nat.lt_one_iff.mp hlt))
  unfold RunFlag.readLimit
  rw [parseU32_repr]
  simp only [if_neg hpos]

/-- Every option that is allowed can be given. -/
theorem RunOption.read_value {usizeMax : Nat} (hmax : maxMempoolCapacity ≤ usizeMax)
    {w : RunOption} (hw : w.Allowed usizeMax) : w.kind.read usizeMax w.value = .ok w := by
  cases w with
  | dataDir | genesis | listen => rfl
  | peers ps =>
      unfold kind value RunFlag.read
      simp only [splitPeers_intercalate hw]
  | peerMaxWireErrors n | peerMaxFrames n | peerMaxStaleBlocks n | peerMaxInboundTx n =>
      exact readLimit_repr _ _ hw
  | intervalSecs n | peerIdleTimeoutSecs n =>
      unfold kind value RunFlag.read
      simp only [parseU64_repr]
      exact if_neg hw
  | maxFutureDriftSecs n =>
      unfold kind value RunFlag.read
      simp only [parseU64_repr]
  | maxInboundPeers n =>
      have hn : UInt64.toNat (UInt64.ofNat n) = n := UInt64.toNat_ofNat_of_lt' hw.2
      have hread : parseU64 n.repr = some (UInt64.ofNat n) := by
        rw [← hn, parseU64_repr, hn]
      unfold kind value RunFlag.read
      simp only [hread, hn, if_neg (Nat.not_lt.mpr hw.1)]
  | peerWriteTimeoutSecs n =>
      unfold kind value RunFlag.read
      rcases n with _ | n
      · rfl
      · simp only [Option.getD_some, parseU64_repr]
        rw [if_neg fun hc => hw (congrArg some hc)]
  | mempoolCapacity n =>
      unfold kind value RunFlag.read
      simp only [readUnsigned_repr (hw.2.trans hmax), if_neg (Nat.not_lt.mpr hw.1),
        if_neg (Nat.not_lt.mpr hw.2)]

/-! ### What `run` can be given -/

namespace RunArgs

/-- The arguments that `run` can be given. No flag sets the limit for invalid
    blocks. -/
structure WellFormed (usizeMax : Nat) (a : RunArgs) : Prop where
  interval : a.interval ≠ 0
  peers : ∀ p ∈ a.peers, PeerName p
  sessions : a.peerPolicy.maxConcurrentSessions ≤ usizeMax ∧
    a.peerPolicy.maxConcurrentSessions < 2 ^ 64
  idle : a.peerPolicy.idleReadTimeout ≠ 0
  write : a.peerPolicy.writeTimeout ≠ some 0
  wireErrors : a.peerPolicy.maxProtocolErrorsPerSession ≠ 0
  frames : a.peerPolicy.maxAppFramesPerSession ≠ 0
  staleBlocks : a.peerPolicy.maxStaleDecodedBlocksPerSession ≠ 0
  inboundTx : a.peerPolicy.maxInboundTxPerSession ≠ 0
  invalidBlocks : a.peerPolicy.maxInvalidNetworkBlocksPerSession = 24
  capacity : 1 ≤ a.mempoolCapacity ∧ a.mempoolCapacity ≤ maxMempoolCapacity

theorem wellFormed_default {usizeMax : Nat} (hmax : maxMempoolCapacity ≤ usizeMax) :
    default.WellFormed usizeMax where
  interval := by decide
  peers := fun p hp => absurd hp List.not_mem_nil
  sessions := ⟨le_trans (by decide) hmax, by decide⟩
  idle := by decide
  write := by decide
  wireErrors := by decide
  frames := by decide
  staleBlocks := by decide
  inboundTx := by decide
  invalidBlocks := rfl
  capacity := by decide

theorem WellFormed.apply {usizeMax : Nat} {a : RunArgs} (h : a.WellFormed usizeMax)
    {w : RunOption} (hw : w.Allowed usizeMax) : (a.apply w).WellFormed usizeMax := by
  cases w with
  | dataDir | genesis | listen | maxFutureDriftSecs => exact { h with }
  | intervalSecs => exact { h with interval := hw }
  | peers => exact { h with peers := hw }
  | maxInboundPeers => exact { h with sessions := hw }
  | peerIdleTimeoutSecs => exact { h with idle := hw }
  | peerWriteTimeoutSecs => exact { h with write := hw }
  | peerMaxWireErrors => exact { h with wireErrors := hw }
  | peerMaxFrames => exact { h with frames := hw }
  | peerMaxStaleBlocks => exact { h with staleBlocks := hw }
  | peerMaxInboundTx => exact { h with inboundTx := hw }
  | mempoolCapacity => exact { h with capacity := hw }

theorem WellFormed.foldl {usizeMax : Nat} {a : RunArgs} (h : a.WellFormed usizeMax)
    {ws : List RunOption} (hws : ∀ w ∈ ws, w.Allowed usizeMax) :
    (ws.foldl RunArgs.apply a).WellFormed usizeMax := by
  induction ws generalizing a with
  | nil => exact h
  | cons w ws ih =>
      rw [List.forall_mem_cons] at hws
      exact ih (h.apply hws.1) hws.2

/-- Options that give all of the arguments. -/
def options (a : RunArgs) : List RunOption :=
  [.dataDir a.dataDir, .intervalSecs a.interval, .peers a.peers,
    .maxInboundPeers a.peerPolicy.maxConcurrentSessions,
    .peerIdleTimeoutSecs a.peerPolicy.idleReadTimeout,
    .peerWriteTimeoutSecs a.peerPolicy.writeTimeout,
    .peerMaxWireErrors a.peerPolicy.maxProtocolErrorsPerSession,
    .peerMaxFrames a.peerPolicy.maxAppFramesPerSession,
    .peerMaxStaleBlocks a.peerPolicy.maxStaleDecodedBlocksPerSession,
    .peerMaxInboundTx a.peerPolicy.maxInboundTxPerSession,
    .mempoolCapacity a.mempoolCapacity] ++
    (a.genesisPath.toList.map .genesis ++ (a.listen.toList.map .listen ++
      a.maxFutureDriftSecs.toList.map .maxFutureDriftSecs))

/-- A command line with all of the arguments. -/
def commandLine (a : RunArgs) : List String :=
  OptionTable.line (a.options.map fun w => (w.kind.name, w.value))

theorem WellFormed.allowed {usizeMax : Nat} {a : RunArgs} (h : a.WellFormed usizeMax) :
    ∀ w ∈ a.options, w.Allowed usizeMax := by
  -- Those that may be left out are always allowed.
  have hfree : ∀ {β : Type} (make : β → RunOption) (o : Option β),
      (∀ x, (make x).Allowed usizeMax) → ∀ w ∈ o.toList.map make, w.Allowed usizeMax := by
    intro β make o hmake w hw
    rcases List.mem_map.mp hw with ⟨x, _, rfl⟩
    exact hmake x
  unfold options
  refine List.forall_mem_append.mpr ⟨?_, List.forall_mem_append.mpr ⟨hfree _ _ fun _ => trivial,
    List.forall_mem_append.mpr ⟨hfree _ _ fun _ => trivial, hfree _ _ fun _ => trivial⟩⟩⟩
  simp only [List.forall_mem_cons]
  exact ⟨trivial, h.interval, h.peers, h.sessions, h.idle, h.write, h.wireErrors, h.frames,
    h.staleBlocks, h.inboundTx, h.capacity, fun w hw => absurd hw List.not_mem_nil⟩

theorem WellFormed.foldl_options {usizeMax : Nat} {a : RunArgs} (h : a.WellFormed usizeMax) :
    a.options.foldl RunArgs.apply .default = a := by
  have hinvalid := h.invalidBlocks
  rcases a with ⟨dir, genesis, interval, listen, peers, drift, policy, capacity⟩
  rcases policy with ⟨⟨⟨invalid, stale⟩, errors, frames, txs⟩, sessions, idle, write⟩
  simp only at hinvalid
  rw [hinvalid]
  rcases genesis with _ | genesis <;> rcases listen with _ | listen <;>
    rcases drift with _ | drift <;> rfl

end RunArgs

/-- What `run` can be given. Everything that `parse_run_args` accepts is in order:
    the interval and the limits are not zero, the pool has room for one transaction
    and for no more than a million, and the peers are names without white space
    around them. And all arguments that are in order can be given, by a command line
    with all of them. -/
theorem run_args_range {usizeMax : Nat} (hmax : maxMempoolCapacity ≤ usizeMax) (a : RunArgs) :
    (∀ args, parseRunArgs usizeMax args = .ok a → a.WellFormed usizeMax) ∧
      (a.WellFormed usizeMax → parseRunArgs usizeMax a.commandLine = .ok a) := by
  constructor
  · intro args h
    rcases OptionTable.parse_ok_iff.mp h with ⟨ps, ws, _, hreads, rfl⟩
    refine (RunArgs.wellFormed_default hmax).foldl fun w hw => ?_
    rcases exists_of_forall₂ hreads.flip hw with ⟨p, _, k, _, hread⟩
    exact (RunFlag.read_ok hread).2
  · intro h
    have hread : List.Forall₂ (runTable usizeMax).Reads
        (a.options.map fun w => (w.kind.name, w.value)) a.options := by
      rw [List.forall₂_map_left_iff, List.forall₂_same]
      intro w hw
      exact ⟨w.kind, RunFlag.ofArg_name _, RunOption.read_value hmax (h.allowed w hw)⟩
    exact OptionTable.parse_ok_iff.mpr ⟨_, _, rfl, hread, h.foldl_options.symm⟩

namespace Sample

/-- Two peers, and a small pool. -/
def runArgs : RunArgs :=
  { RunArgs.default with peers := ["10.0.0.1:7000", "10.0.0.2:7000"], mempoolCapacity := 8 }

theorem wellFormed_runArgs : runArgs.WellFormed (2 ^ 64 - 1) := by
  have hpeers : ∀ p ∈ runArgs.peers, PeerName p := by
    intro p hp
    unfold runArgs at hp
    simp only [List.mem_cons, List.not_mem_nil, or_false] at hp
    rcases hp with rfl | rfl
    · exact ⟨by decide, by decide, by decide⟩
    · exact ⟨by decide, by decide, by decide⟩
  exact { RunArgs.wellFormed_default (by decide) with peers := hpeers, capacity := by decide }

/-- They can be given, and any line that gives them is in order. -/
theorem run_args_range_runArgs :
    runArgs.WellFormed (2 ^ 64 - 1) ∧
      parseRunArgs (2 ^ 64 - 1) runArgs.commandLine = .ok runArgs :=
  ⟨wellFormed_runArgs, (run_args_range (by decide) runArgs).2 wellFormed_runArgs⟩

end Sample

/-- The last value of each flag is all that counts. Two command lines of `run` that
    are accepted and have, for each flag, the same last value, give the same
    arguments, in whatever order the flags are and whatever else was given before. -/
theorem run_args_last {usizeMax : Nat} {ps qs : List (RunFlag × String)} {a b : RunArgs}
    (hlast : ∀ k, lastOf Prod.fst ps k = lastOf Prod.fst qs k)
    (hps : parseRunArgs usizeMax (OptionTable.line (ps.map fun p => (p.1.name, p.2))) = .ok a)
    (hqs : parseRunArgs usizeMax (OptionTable.line (qs.map fun p => (p.1.name, p.2))) = .ok b) :
    a = b :=
  OptionTable.parse_eq_of_last runArgs_overwrites RunFlag.ofArg_name
    (fun _ _ _ h => (RunFlag.read_ok h).1) hlast hps hqs

namespace Sample

/-- An interval that is given twice. -/
def intervalTwice : List (RunFlag × String) :=
  [(.intervalSecs, "5"), (.listen, "0.0.0.0:7000"), (.intervalSecs, "7")]

/-- The same, given once and first. -/
def intervalOnce : List (RunFlag × String) :=
  [(.intervalSecs, "7"), (.listen, "0.0.0.0:7000")]

/-- Both lines are accepted, and mean the same. -/
theorem run_args_last_interval :
    ∃ a, parseRunArgs (2 ^ 64 - 1)
        (OptionTable.line (intervalTwice.map fun p => (p.1.name, p.2))) = .ok a ∧
      parseRunArgs (2 ^ 64 - 1)
        (OptionTable.line (intervalOnce.map fun p => (p.1.name, p.2))) = .ok a := by
  have htwice : parseRunArgs (2 ^ 64 - 1)
      (OptionTable.line (intervalTwice.map fun p => (p.1.name, p.2))) =
        .ok { RunArgs.default with interval := 7, listen := some "0.0.0.0:7000" } := by
    decide
  have honce : ∃ b, parseRunArgs (2 ^ 64 - 1)
      (OptionTable.line (intervalOnce.map fun p => (p.1.name, p.2))) = .ok b :=
    ⟨{ RunArgs.default with interval := 7, listen := some "0.0.0.0:7000" }, by decide⟩
  rcases honce with ⟨b, honce⟩
  have hlast : ∀ k, lastOf Prod.fst intervalTwice k = lastOf Prod.fst intervalOnce k := by
    intro k
    cases k <;> rfl
  refine ⟨_, htwice, ?_⟩
  rw [run_args_last hlast htwice honce]
  exact honce

end Sample

/-! ### Words of `send` -/

/-- What a command line of `send` consists of. -/
inductive SendItem where
  | dataDir (v : String)
  | genesis (v : String)
  | word (w : String) (notDir : w ≠ "--data-dir") (notGenesis : w ≠ "--genesis")

namespace SendItem

/-- An item as it is written. -/
def written : SendItem → List String
  | dataDir v => ["--data-dir", v]
  | genesis v => ["--genesis", v]
  | word w _ _ => [w]

end SendItem

/-- What an item does. -/
def SendArgs.apply (a : SendArgs) : SendItem → SendArgs
  | .dataDir v => { a with dataDir := v }
  | .genesis v => { a with genesisPath := some v }
  | .word w _ _ => { a with rest := a.rest ++ [w] }

theorem parseSendFrom_written (a : SendArgs) (item : SendItem) (args : List String) :
    parseSendFrom a (item.written ++ args) = parseSendFrom (a.apply item) args := by
  cases item with
  | dataDir v =>
      change parseSendFrom a ("--data-dir" :: v :: args) = _
      rw [parseSendFrom, if_pos rfl]
      rfl
  | genesis v =>
      change parseSendFrom a ("--genesis" :: v :: args) = _
      rw [parseSendFrom, if_neg (by decide), if_pos rfl]
      rfl
  | word w notDir notGenesis =>
      -- The loop looks one ahead, and does not care here what it sees.
      rcases args with _ | ⟨v, args⟩
      · change parseSendFrom a [w] = .ok _
        rw [parseSendFrom, if_neg notDir, if_neg notGenesis]
        rfl
      · change parseSendFrom a (w :: v :: args) = _
        rw [parseSendFrom, if_neg notDir, if_neg notGenesis]
        rfl

/-- What `parse_send_args` accepts, and what it makes of it. -/
theorem parseSendFrom_ok_iff {a r : SendArgs} {args : List String} :
    parseSendFrom a args = .ok r ↔
      ∃ items : List SendItem, args = items.flatMap SendItem.written ∧
        r = items.foldl SendArgs.apply a := by
  constructor
  · intro h
    -- The cases are those of the loop: at the end of the list, and with one ahead.
    fun_induction parseSendFrom a args with
    | case1 a => exact ⟨[], rfl, (Except.ok.inj h).symm⟩
    | case2 a => cases h
    | case3 a => cases h
    | case4 a arg notDir notGenesis =>
        exact ⟨[.word arg notDir notGenesis], rfl, (Except.ok.inj h).symm⟩
    | case5 a v args ih =>
        rcases ih h with ⟨items, rfl, rfl⟩
        exact ⟨.dataDir v :: items, rfl, rfl⟩
    | case6 a v args _ ih =>
        rcases ih h with ⟨items, rfl, rfl⟩
        exact ⟨.genesis v :: items, rfl, rfl⟩
    | case7 a arg v args notDir notGenesis ih =>
        rcases ih h with ⟨items, hitems, rfl⟩
        exact ⟨.word arg notDir notGenesis :: items, by rw [hitems]; rfl, rfl⟩
  · intro h
    rcases h with ⟨items, rfl, rfl⟩
    induction items generalizing a with
    | nil => rfl
    | cons item items ih =>
        rw [List.flatMap_cons, parseSendFrom_written, ih, List.foldl_cons]

theorem InitFlag.name_of_ofArg {arg : String} {k : InitFlag} (h : InitFlag.ofArg arg = some k) :
    arg = "--data-dir" ∨ arg = "--genesis-balance" := by
  unfold InitFlag.ofArg at h
  split_ifs at h with hdir hbalance
  · exact .inl hdir
  · exact .inr hbalance

theorem runCli_send (usizeMax : Nat) (bin : String) (args : List String) :
    runCli usizeMax (bin :: "send" :: args) = (parseSendArgs args).bind sendCommand := by
  rw [runCli, if_neg (by decide), if_neg (by decide), if_pos rfl]

/-- Flags that are not known. `run` and `init` accept nothing but their own flags,
    each with a value. `send` accepts every argument: what is not one of its two
    flags is a word, and the first word is the receiver. So a flag that it does not
    know, with a number behind it, is an order to pay that number to the flag. -/
theorem unknown_flags (usizeMax : Nat) (bin : String) :
    (∀ args c, runCli usizeMax (bin :: "run" :: args) = .ok c →
      ∃ ps, args = OptionTable.line ps ∧ ∀ p ∈ ps, ∃ k : RunFlag, p.1 = k.name) ∧
    (∀ args c, runCli usizeMax (bin :: "init" :: args) = .ok c →
      ∃ ps, args = OptionTable.line ps ∧
        ∀ p ∈ ps, p.1 = "--data-dir" ∨ p.1 = "--genesis-balance") ∧
    (∀ args c, runCli usizeMax (bin :: "send" :: args) = .ok c ↔
      ∃ items : List SendItem, args = items.flatMap SendItem.written ∧
        sendCommand (items.foldl SendArgs.apply .default) = .ok c) ∧
    ∀ w, w ≠ "--data-dir" → w ≠ "--genesis" → ∀ amount : UInt64,
      runCli usizeMax [bin, "send", w, amount.toNat.repr] =
        .ok (.send "." none w amount 1) := by
  refine ⟨?_, ?_, ?_, ?_⟩
  · intro args c h
    rw [runCli, if_neg (by decide), if_pos rfl] at h
    rcases hparse : parseRunArgs usizeMax args with e | a
    · rw [hparse] at h
      cases h
    · rcases OptionTable.parse_ok_iff.mp hparse with ⟨ps, ws, rfl, hreads, _⟩
      refine ⟨ps, rfl, fun p hp => ?_⟩
      rcases exists_of_forall₂ hreads hp with ⟨w, _, k, hflag, _⟩
      exact ⟨k, (RunFlag.name_of_ofArg hflag).symm⟩
  · intro args c h
    rw [runCli, if_pos rfl] at h
    rcases hparse : parseInitArgs args with e | a
    · rw [hparse] at h
      cases h
    · rcases OptionTable.parse_ok_iff.mp hparse with ⟨ps, ws, rfl, hreads, _⟩
      refine ⟨ps, rfl, fun p hp => ?_⟩
      rcases exists_of_forall₂ hreads hp with ⟨w, _, k, hflag, _⟩
      exact InitFlag.name_of_ofArg hflag
  · intro args c
    rw [runCli_send]
    rcases hparse : parseSendArgs args with e | r
    · -- It was refused, so it is not made of items.
      constructor
      · intro h
        cases h
      · intro h
        rcases h with ⟨items, rfl, _⟩
        rw [parseSendArgs, parseSendFrom_ok_iff.mpr ⟨items, rfl, rfl⟩] at hparse
        cases hparse
    · rcases parseSendFrom_ok_iff.mp hparse with ⟨items, rfl, rfl⟩
      constructor
      · intro h
        exact ⟨items, rfl, h⟩
      · intro h
        rcases h with ⟨items', hitems, h⟩
        rw [hitems, parseSendArgs, parseSendFrom_ok_iff.mpr ⟨items', rfl, rfl⟩,
          Except.ok.injEq] at hparse
        rw [← hparse]
        exact h
  · intro w notDir notGenesis amount
    -- The amount has digits only, so it is a word and no flag.
    have hnumber : ∀ flag : String, '-' ∈ flag.toList → amount.toNat.repr ≠ flag := by
      intro flag hflag hc
      rw [← hc] at hflag
      exact notMem_repr _ (by decide) hflag
    have hparse : parseSendArgs [w, amount.toNat.repr] =
        .ok ⟨".", none, [w, amount.toNat.repr]⟩ :=
      parseSendFrom_ok_iff.mpr ⟨[.word w notDir notGenesis, .word amount.toNat.repr
        (hnumber _ (by decide)) (hnumber _ (by decide))], rfl, rfl⟩
    rw [runCli_send, hparse]
    unfold sendCommand
    simp only [Except.bind, parseU64_repr]

end Trilogicon
