import Trilogicon.Theory.SyncRun

/-!
# Memory, Replay and Disk

What holds of a node over every run: its chain in memory, the replay of that
chain and the file on disk agree.

A node starts by loading the file. From then on it handles messages of peers,
pulls blocks from peers and seals blocks of its own, in any order. Each of these
does the same two things to a node: the chain accepts some blocks, and some
operations run on the pool. So a property of the chain that is kept by blocks of
some kind holds as long as only such blocks come in, whichever way they come, and
a property of the pool holds that every operation keeps.

No step panics. Encoding a block may fail only for a block that cannot have
come in a frame and cannot have been sealed, and the invariant keeps such
blocks out of the chain.

## Main definitions

* `Keeping`: A property of chains that accepting blocks of some kind keeps.
* `NodeInner.Moves`: What an event does to a node.
* `NodeEvent`: What a node does.
* `NodeEvent.run`: One step of a node.
* `runEvents`: A run of a node.

## Theorems

* `NodeInner.Moves.keeps`: What accepting blocks keeps, events keep.
* `sync_moves`, `receive_moves`, `seal_moves`: Each event is such a move.
* `NodeEvent.run_moves`: Every step keeps the invariant, and no step panics.
* `runEvents_keeps`: What accepting blocks keeps, a run keeps.
* `memory_replay_disk_agree`: What holds after every run.
-/

namespace Trilogicon

section NodeRun

variable [Primitives]

/-- A property of chains that accepting a block of some kind keeps. -/
def Keeping (I : Blockchain → Prop) (B : Block → Prop) : Prop :=
  ∀ c c' b, I c → B b → c.appendBlock b = (.ok (), c') → I c'

/-- What an event does to a node: blocks of some kind are accepted, and operations
    run on the pool. -/
structure NodeInner.Moves (B : Block → Prop) (n n' : NodeInner) : Prop where
  accepts : ∃ new, Accepted n.chain new n'.chain ∧ ∀ b ∈ new, B b
  performs : ∃ ops, n'.pool = n.pool.performAll ops

namespace NodeInner.Moves

variable {B : Block → Prop} {n n' : NodeInner}

theorem of_chain_eq (ops : List Mempool.Op) (hchain : n'.chain = n.chain)
    (hpool : n'.pool = n.pool.performAll ops) : n.Moves B n' where
  accepts := ⟨[], hchain ▸ .nil _, fun _ hb => absurd hb List.not_mem_nil⟩
  performs := ⟨ops, hpool⟩

theorem of_append (ops : List Mempool.Op) {b : Block}
    (happ : n.chain.appendBlock b = (.ok (), n'.chain)) (hb : B b)
    (hpool : n'.pool = n.pool.performAll ops) : n.Moves B n' where
  accepts := ⟨[b], .cons happ (.nil _), List.forall_mem_singleton.mpr hb⟩
  performs := ⟨ops, hpool⟩

/-- What accepting blocks keeps, a move keeps. -/
theorem keeps (h : n.Moves B n') {I : Blockchain → Prop} (hI : Keeping I B) (hn : I n.chain) :
    I n'.chain := by
  rcases h.accepts with ⟨new, hacc, hnew⟩
  generalize n.chain = c at hacc hn
  generalize n'.chain = c' at hacc
  induction hacc with
  | nil c => exact hn
  | cons happ _ ih =>
      rw [List.forall_mem_cons] at hnew
      exact ih hnew.2 (hI _ _ _ hn hnew.1 happ)

/-- A move keeps the invariant of the pool. -/
theorem keeps_pool (h : n.Moves B n') (hp : n.pool.Sound) : n'.pool.Sound := by
  rcases h.performs with ⟨ops, hpool⟩
  rw [hpool]
  exact (hp.performAll ops).1

end NodeInner.Moves

/-! ### Catching up -/

/-- A call moves the node by blocks that the peer sent, whatever it answers. -/
theorem sync_moves {g : Genesis} {B : Block → Prop} {n : NodeInner} (h : n.Agrees g)
    {peer : String} (budget : SyncWorkBudget) {w : SyncWorld} (hw : PullsOnly B peer w) :
    ∃ r n', n.syncFromPeerWithClock peer budget w = some (r, n') ∧ n'.Agrees g ∧
      n.Moves B n' := by
  by_cases hruns : n.store.poisoned = false ∧ validateSyncWorkBudget budget = .ok ()
  · rcases exists_syncRun peer budget w budget.maxRoundsPerCall.toNat 0 h 0 0 with
      ⟨pulls, new, n', r, hrun⟩
    rcases hrun.appends h with ⟨h', hpool, hacc, hnew, _⟩
    rcases finishSync_eq n' new r with ⟨ops, hend⟩
    refine ⟨(finishSync n' new r).1, (finishSync n' new r).2, sync_ran hruns.1 hruns.2 hrun, ?_, ?_⟩
    · rw [hend]
      exact h'.with_pool _
    · rw [hend]
      exact ⟨⟨new, hacc, fun b hb => hrun.answered hw b (hnew.subset hb)⟩, ops, by rw [hpool]⟩
  · rcases sync_refused hruns peer w with ⟨e, he⟩
    exact ⟨_, n, he, h, .of_chain_eq [] rfl rfl⟩

theorem sync_agrees {g : Genesis} {n : NodeInner} (h : n.Agrees g) (peer : String)
    (budget : SyncWorkBudget) (w : SyncWorld) :
    ∃ r n', n.syncFromPeerWithClock peer budget w = some (r, n') ∧ n'.Agrees g := by
  have hany : PullsOnly (fun _ => True) peer w := fun _ _ _ _ _ _ _ _ _ => True.intro
  rcases sync_moves h budget hany with ⟨r, n', hr, hn', _⟩
  exact ⟨r, n', hr, hn'⟩

/-! ### Messages of peers -/

/-- A block from a peer is stale, refused or persisted. -/
theorem applyBlock_moves {g : Genesis} {B : Block → Prop} {n : NodeInner} (h : n.Agrees g)
    {b : Block} (henc : Encodes b) (hb : B b) (nowUnix : UInt64) (k : SessionCounters)
    (policy : InboundPeerPolicy) (calls : AppendIo) :
    ∃ r n' k', n.applyBlock b nowUnix k policy calls = some (r, n', k') ∧ n'.Agrees g ∧
      n.Moves B n' := by
  have hsame : n.Moves B n := .of_chain_eq [] rfl rfl
  unfold NodeInner.applyBlock
  by_cases hstale : b.height ≤ n.chain.height
  · -- A stale block may end the session, but it does not touch the node.
    rw [if_pos hstale]
    by_cases hquota : policy.maxStaleDecodedBlocksPerSession <
        saturatingSucc32 k.staleDecodedBlocks
    · simp only [if_pos hquota]
      exact ⟨_, n, _, rfl, h, hsame⟩
    · simp only [if_neg hquota]
      exact ⟨_, n, _, rfl, h, hsame⟩
  · rw [if_neg hstale]
    rcases persist_cases h henc nowUnix calls with ⟨r, n', hr, hn', hpool, hcases⟩
    simp only [hr, Option.bind_eq_bind, Option.bind_some]
    rcases hcases with ⟨f, rfl, hchain⟩ | ⟨rfl, happ⟩
    · -- The strikes decide whether the session ends, not what the node holds.
      have hkept : n.Moves B n' := .of_chain_eq [] hchain hpool
      by_cases hcounts : f.countsTowardInvalidBlockBudget = true
      · by_cases hstrikes : policy.maxInvalidNetworkBlocksPerSession ≤
            saturatingSucc32 k.invalidBlockStrikes
        · simp only [if_pos hcounts, if_pos hstrikes]
          exact ⟨_, n', _, rfl, hn', hkept⟩
        · simp only [if_pos hcounts, if_neg hstrikes]
          exact ⟨_, n', _, rfl, hn', hkept⟩
      · simp only [if_neg hcounts]
        exact ⟨_, n', k, rfl, hn', hkept⟩
    · -- The pool is cleaned after the block is in.
      refine ⟨_, _, k, rfl, hn'.hygiene,
        .of_append [.hygieneVsCommittedLedger n'.chain.state] happ hb ?_⟩
      rw [← hpool]
      rfl

theorem applyPredecoded_moves {g : Genesis} {B : Block → Prop} {n : NodeInner} (h : n.Agrees g)
    {decoded : PredecodedInbound} (hblock : ∀ b, decoded = .block b → Encodes b ∧ B b)
    (nowUnix : UInt64) (k : SessionCounters) (policy : InboundPeerPolicy) (calls : AppendIo) :
    ∃ r n' k', n.applyPredecoded decoded nowUnix k policy calls = some (r, n', k') ∧
      n'.Agrees g ∧ n.Moves B n' := by
  have hsame : n.Moves B n := .of_chain_eq [] rfl rfl
  unfold NodeInner.applyPredecoded
  by_cases hpois : n.store.poisoned = true
  · rw [if_pos hpois]
    exact ⟨_, n, k, rfl, h, hsame⟩
  rw [if_neg hpois]
  cases decoded with
  | tx tx =>
      exact ⟨_, _, k, rfl, h.with_pool _, .of_chain_eq [.trySubmit tx] rfl rfl⟩
  | getBlocks startHeight =>
      -- The encoder does not panic, since every block of the chain encodes.
      have hsome : ∃ r, wireEncodeBlocksResponse
          (n.chain.blocksFromHeightLimited startHeight maxBlocksPerBatch) = some r := by
        refine pushBlocks_isSome ?_ _
        intro b hb
        rw [Blockchain.blocksFromHeightLimited, if_neg (by decide)] at hb
        exact h.encodes b (List.mem_of_mem_filter (List.mem_of_mem_take (List.mem_of_mem_take hb)))
      rcases hsome with ⟨r, hr⟩
      simp only [hr, Option.bind_eq_bind, Option.bind_some]
      cases r with
      | error e => exact ⟨_, n, k, rfl, h, hsame⟩
      | ok w => exact ⟨_, n, k, rfl, h, hsame⟩
  | block b =>
      rcases hblock b rfl with ⟨henc, hb⟩
      exact applyBlock_moves h henc hb nowUnix k policy calls

/-- A message moves the node by its block at most. -/
theorem receive_moves {g : Genesis} {B : Block → Prop} {n : NodeInner} (h : n.Agrees g)
    {m : InboundMessage}
    (hm : ∀ b, predecodeInboundAppPayload m.payload = .ok (.block b) → B b) :
    ∃ n', n.receive m = some n' ∧ n'.Agrees g ∧ n.Moves B n' := by
  rw [NodeInner.receive]
  cases hd : predecodeInboundAppPayload m.payload with
  | error _ => exact ⟨n, rfl, h, .of_chain_eq [] rfl rfl⟩
  | ok decoded =>
      have hblock : ∀ b, decoded = .block b → Encodes b ∧ B b := by
        intro b hb
        rw [hb] at hd
        exact ⟨encodes_of_predecode hd, hm b hd⟩
      rcases applyPredecoded_moves h hblock m.nowUnix m.counters m.policy m.calls with
        ⟨r, n', k', hr, hn'⟩
      exact ⟨n', congrArg (Option.map fun r => r.2.1) hr, hn'⟩

theorem receive_agrees {g : Genesis} {n : NodeInner} (h : n.Agrees g) (m : InboundMessage) :
    ∃ n', n.receive m = some n' ∧ n'.Agrees g := by
  rcases receive_moves (B := fun _ => True) (m := m) h fun _ _ => True.intro with
    ⟨n', hn', hagrees, _⟩
  exact ⟨n', hn', hagrees⟩

/-! ### Sealing -/

theorem blockHash_length_le {blocks : List Block} (hl : Linked blocks) {b : Block}
    (hb : b ∈ blocks) : (utf8 b.blockHash).length ≤ 64 := by
  rw [hl.eq_cons, List.mem_cons] at hb
  rcases hb with rfl | hb
  · decide
  · rw [(hl.valid_of_mem hb).hash]
    exact Nat.le_of_eq (Crypto.hashBytes_byteLength _)

/-- An accepted block of few transactions has an encoding. -/
theorem encodes_of_append {g : Genesis} {c c' : Blockchain} {b : Block} (hs : c.Sound g)
    (happ : c.appendBlock b = (.ok (), c')) (hfew : b.transactions.length ≤ 64) : Encodes b := by
  rcases (Blockchain.appendBlock_ok_iff c c' b).mp happ with ⟨_, tip, htip, _, hprev, _⟩
  have hfol := Blockchain.follows_of_append hs.linked happ htip
  have htiplen := blockHash_length_le hs.linked (List.mem_of_getLast? htip)
  refine encodeBlock_exists hfol.valid.transactions_valid (by omega) ?_ ?_
  · rw [hprev]
    omega
  · rw [hfol.valid.hash]
    exact (Crypto.hashBytes_byteLength _).trans_lt (by decide)

/-- Sealing moves the node by the block it makes, when the file takes it. -/
theorem seal_moves {g : Genesis} {n : NodeInner} (h : n.Agrees g) (sealingAllowed : Bool)
    (nowUnix : UInt64) (calls : AppendIo) :
    ∃ r n', n.sealAndPersist sealingAllowed nowUnix calls = some (r, n') ∧ n'.Agrees g ∧
      n.Moves (fun _ => True) n' := by
  -- The pool is cleaned first, against the same chain.
  have hclean := h.hygiene
  have hchain : n.mempoolHygieneAfterLedgerAdvance.2.chain = n.chain := rfl
  have hpool : n.mempoolHygieneAfterLedgerAdvance.2.pool =
      n.pool.performAll [.hygieneVsCommittedLedger n.chain.state] := rfl
  rw [NodeInner.sealAndPersist]
  generalize n.mempoolHygieneAfterLedgerAdvance.2 = m at hclean hchain hpool
  have hkept : n.Moves (fun _ => True) m := .of_chain_eq _ hchain hpool
  cases sealingAllowed with
  | false => exact ⟨_, m, rfl, hclean, hkept⟩
  | true =>
      simp only [if_true]
      rcases m.chain.pendingRemoval_cases m.pool 64 nowUnix with
        ⟨e, hc⟩ | hc | ⟨b, c, happ, hfew, hc⟩
      · -- No selection: the pool is cleaned once more.
        simp only [hc]
        refine ⟨_, _, rfl, hclean.hygiene, .of_chain_eq [.hygieneVsCommittedLedger n.chain.state,
          .hygieneVsCommittedLedger m.chain.state] hchain ?_⟩
        rw [NodeInner.mempoolHygieneAfterLedgerAdvance, hpool]
        rfl
      · simp only [hc]
        exact ⟨_, _, rfl, hclean, hkept⟩
      · -- The block has few transactions, so it encodes and only the file can refuse it.
        have hlast : c.blocks.getLast? = some b := by
          rw [(Blockchain.appendBlock_ok_sound hclean.sound happ).2, List.getLast?_concat]
        have henc := encodes_of_append hclean.sound happ hfew
        rcases appendBlock_isSome henc m.store calls with ⟨r, s, hs⟩
        simp only [hc, hlast, hs, Option.bind_eq_bind, Option.bind_some]
        cases r with
        | ok _ =>
            refine ⟨_, _, rfl, hclean.appended happ henc hs _,
              .of_append [.hygieneVsCommittedLedger n.chain.state,
                .removeByTxHashes (b.transactions.map Transaction.txHash)] (hchain ▸ happ)
                True.intro ?_⟩
            rw [hpool]
            rfl
        | error e =>
            -- The block is taken back from the chain when the file refuses it.
            have hback := Blockchain.rollbackLastBlock_append hclean.sound happ
            rw [← hclean.genesis] at hback
            simp only [hback]
            exact ⟨_, _, rfl, hclean.refused hs, .of_chain_eq _ hchain hpool⟩

/-! ### Runs -/

/-- What a node does. -/
inductive NodeEvent where
  | inbound (m : InboundMessage)
  | sync (peer : String) (budget : SyncWorkBudget) (w : SyncWorld)
  | sealing (allowed : Bool) (nowUnix : UInt64) (calls : AppendIo)

/-- The node after an event, or `none` if the encoder panics. -/
def NodeEvent.run (n : NodeInner) : NodeEvent → Option NodeInner
  | .inbound m => n.receive m
  | .sync peer budget w => (n.syncFromPeerWithClock peer budget w).map Prod.snd
  | .sealing allowed nowUnix calls => (n.sealAndPersist allowed nowUnix calls).map Prod.snd

/-- The node after a run. -/
def runEvents : NodeInner → List NodeEvent → Option NodeInner
  | n, [] => some n
  | n, e :: es => do
      let n' ← e.run n
      runEvents n' es

/-- Every event is a move that keeps the invariant, and none panics. -/
theorem NodeEvent.run_moves {g : Genesis} {n : NodeInner} (h : n.Agrees g) (e : NodeEvent) :
    ∃ n', e.run n = some n' ∧ n'.Agrees g ∧ n.Moves (fun _ => True) n' := by
  cases e with
  | inbound m => exact receive_moves h fun _ _ => True.intro
  | sync peer budget w =>
      have hany : PullsOnly (fun _ => True) peer w := fun _ _ _ _ _ _ _ _ _ => True.intro
      rcases sync_moves h budget hany with ⟨r, n', hr, hn'⟩
      exact ⟨n', congrArg (Option.map Prod.snd) hr, hn'⟩
  | sealing allowed nowUnix calls =>
      rcases seal_moves h allowed nowUnix calls with ⟨r, n', hr, hn'⟩
      exact ⟨n', congrArg (Option.map Prod.snd) hr, hn'⟩

theorem runEvents_agrees {g : Genesis} {n : NodeInner} (h : n.Agrees g) (es : List NodeEvent) :
    ∃ n', runEvents n es = some n' ∧ n'.Agrees g := by
  induction es generalizing n with
  | nil => exact ⟨n, rfl, h⟩
  | cons e es ih =>
      rcases e.run_moves h with ⟨n₁, hn₁, hagrees, _⟩
      rcases ih hagrees with ⟨n', hn', hagrees'⟩
      exact ⟨n', by rw [runEvents, hn₁]; exact hn', hagrees'⟩

/-- What accepting a block keeps, a run keeps. -/
theorem runEvents_keeps {g : Genesis} {I : Blockchain → Prop} (hI : Keeping I fun _ => True)
    {n : NodeInner} (h : n.Agrees g) (hn : I n.chain) (es : List NodeEvent) :
    ∃ n', runEvents n es = some n' ∧ n'.Agrees g ∧ I n'.chain ∧
      (n.pool.Sound → n'.pool.Sound) := by
  induction es generalizing n with
  | nil => exact ⟨n, rfl, h, hn, id⟩
  | cons e es ih =>
      rcases e.run_moves h with ⟨n₁, hn₁, hagrees, hmoves⟩
      rcases ih hagrees (hmoves.keeps hI hn) with ⟨n', hrun, hagrees', hn', hpool⟩
      refine ⟨n', ?_, hagrees', hn', fun hp => hpool (hmoves.keeps_pool hp)⟩
      rw [runEvents, hn₁, Option.bind_eq_bind, Option.bind_some]
      exact hrun

/-- A node as it is started: the file is loaded, opened, and the policy and
    the size of the pool are set. -/
def Started (g : Genesis) (disk : Option Bytes) (n : NodeInner) : Prop :=
  ∃ c repaired disk' s params capacity,
    loadBlockchainFromDisk disk g = (.ok (c, repaired), disk') ∧
    BlockStore.openAppend disk' = .ok s ∧
    n = { genesis := g, chain := { c with consensus := params }, pool := .new capacity, store := s }

theorem Started.agrees {g : Genesis} {disk : Option Bytes} {n : NodeInner}
    (h : Started g disk n) : n.Agrees g := by
  rcases h with ⟨c, repaired, disk', s, params, capacity, hload, hopen, rfl⟩
  rcases load_found hload with ⟨bs, hread, hblocks, hsound, _⟩
  rcases open_of_read hread with ⟨s', hopen', hstores, _⟩
  rw [hopen, Except.ok.injEq] at hopen'
  rw [← hopen'] at hstores
  refine ⟨rfl, ⟨hsound.linked, hsound.replay⟩, ?_, ?_⟩
  · -- Behind genesis the blocks were read from frames.
    intro b hb
    change b ∈ c.blocks at hb
    rw [hblocks, List.mem_cons] at hb
    rcases hb with rfl | hb
    · exact Option.isSome_iff_exists.mp (by decide)
    · exact hstores.encodes b hb
  · intro _
    change s.Stores (c.blocks.drop 1)
    rw [hblocks, List.drop_one, List.tail_cons]
    exact hstores

/-- Memory, replay and disk agree. After every run of a node: the blocks form
    a chain from the genesis block; the account table is the one they produce;
    and unless a write to the file failed, a restart finds these blocks and this
    table, and leaves the file alone. -/
theorem memory_replay_disk_agree {g : Genesis} {disk : Option Bytes} {n : NodeInner}
    (hstart : Started g disk n) (es : List NodeEvent) :
    ∃ n', runEvents n es = some n' ∧
      (n'.chain.blocks.head? = some Block.genesis ∧
        ∀ i a b, n'.chain.blocks[i]? = some a → n'.chain.blocks[i + 1]? = some b →
          b.height.toNat = i + 1 ∧ b.previousHash = a.blockHash ∧
            b.blockHash = b.computeBlockHash) ∧
      recomputeStateFromBlocks n'.chain.blocks g = .ok n'.chain.state ∧
      (n'.store.poisoned = false → ∃ c,
        loadBlockchainFromDisk (some n'.store.file) g = (.ok (c, false), some n'.store.file) ∧
        c.blocks = n'.chain.blocks ∧ c.state = n'.chain.state) := by
  rcases runEvents_agrees hstart.agrees es with ⟨n', hn', hagrees⟩
  refine ⟨n', hn', ⟨hagrees.sound.linked.head, ?_⟩, hagrees.sound.replay, ?_⟩
  · intro i a b ha hb
    have hfol := hagrees.sound.linked.follows_getElem ha hb
    exact ⟨hagrees.sound.linked.height_eq hb, hfol.previous, hfol.valid.hash⟩
  · intro husable
    exact ⟨_, load_of_stores hagrees.sound (hagrees.stores husable), rfl, rfl⟩

end NodeRun

namespace Sample

/-- A node on a machine without a file. -/
def newNode : NodeInner :=
  { genesis := genesis, chain := start, pool := .new 8, store := freshStore }

/-- The block with the payment comes from a peer and the file takes it, then a
    block cannot be written. -/
def events : List NodeEvent :=
  [.inbound ⟨opBlock :: payload, 0, ⟨0, 0⟩, ⟨24, 8192⟩, .succeeds⟩,
   .sealing true 1 { AppendIo.succeeds with frameWrite := .fails 3 (.other "disk full") }]

theorem started_newNode : Started genesis none newNode :=
  ⟨start, false, none, freshStore, .default, 8,
    load_ok_iff.mpr ⟨[], start, rfl, fromGenesis_start, Accepted.nil start⟩, rfl, rfl⟩

/-- The run of that node. -/
theorem memory_replay_disk_agree_newNode :
    ∃ n', runEvents newNode events = some n' ∧
      recomputeStateFromBlocks n'.chain.blocks genesis = .ok n'.chain.state :=
  have ⟨n', hn', _, hreplay, _⟩ := memory_replay_disk_agree started_newNode events
  ⟨n', hn', hreplay⟩

end Sample

end Trilogicon
