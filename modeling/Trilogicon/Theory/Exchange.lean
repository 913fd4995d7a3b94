import Trilogicon.Theory.Connection
import Trilogicon.Theory.NodeRun

/-!
# Blocks Between Two Nodes

A node gets blocks in two ways: it pulls them from a peer, or a peer pushes one
that it has sealed. Both ends are real here. The peer runs its session on the
connection, and each end reads a first part of what the other end sent.

A pull that succeeds has exactly the window of the chain that the peer held
when it answered. A sealed block that is pushed to a node with the same blocks
leaves both with the same blocks and the same accounts again, unless the clock
of that node is so far behind that the block lies in its future; in that case the
node keeps its chain.

## Main definitions

* `pullExchange`: A pull, with the connection that it leaves.

## Theorems

* `pullBlocksFromPeer_ok_iff`: A pull is its exchange.
* `pull_from_session`: A pull brings what the peer held.
* `sealAndPersist_block`: What a seal did that returned a block.
* `appendBlock_twin`: Chains with the same blocks take the same block.
* `sealed_block_spreads`: A seal and a push.
-/

namespace Trilogicon

section Exchange

variable [Primitives]

/-- A message that is not a transaction is handed to the node as it is. -/
theorem Turn.handle_message {policy : SessionPolicy} {t : Turn} {decoded : PredecodedInbound}
    (hpay : predecodeInboundAppPayload t.payload = .ok decoded) (htx : ∀ tx, decoded ≠ .tx tx) :
    t.handle policy = (t.node.applyPredecoded decoded t.nowUnix t.counters.toSessionCounters
      policy.toInboundPeerPolicy t.calls).map fun r =>
        (r.1, r.2.1, { t.counters with toSessionCounters := r.2.2 }) := by
  have hscreen : t.screen policy = (.ok decoded, t.counters) := by
    unfold Turn.screen
    rw [hpay]
    rcases decoded with tx | b | startHeight
    · exact absurd rfl (htx tx)
    · rfl
    · rfl
  unfold Turn.handle
  simp only [hscreen]
  rcases t.node.applyPredecoded decoded t.nowUnix t.counters.toSessionCounters
    policy.toInboundPeerPolicy t.calls with _ | ⟨o, n', k⟩
  · rfl
  · rfl

/-! ### Pulls -/

/-- What `pull_blocks_from_peer` does on its connection, up to the answer. -/
def pullExchange (s : Stream) (startHeight : UInt64) (g : Genesis) (advisoryHeight : UInt64) :
    Except IoError Bytes × Stream :=
  andThen (handshakeInitiator s g advisoryHeight) fun _ s =>
  andThen (writeFramed s (wireEncodeGetBlocks startHeight)) fun _ s =>
  readFramed s

/-- A pull is its exchange and the batch that was read. -/
theorem pullBlocksFromPeer_ok_iff {peer : String} {s : Stream} {g : Genesis}
    {startHeight advisoryHeight nbytes : UInt64} {bs : List Block} :
    pullBlocksFromPeer peer (.ok s) startHeight g advisoryHeight = .ok (bs, nbytes) ↔
      ∃ resp, (pullExchange s startHeight g advisoryHeight).1 = .ok resp ∧
        wireDecodeBlocksResponse resp = .ok bs ∧ nbytes = UInt64.ofNat resp.length := by
  unfold pullBlocksFromPeer pullExchange
  -- Each step of the exchange succeeded, or the pull had ended there.
  rcases hshake : handshakeInitiator s g advisoryHeight with ⟨e | _, s₁⟩
  · simp only [hshake, andThen, reduceCtorEq, false_and, exists_false]
  rcases hwrite : writeFramed s₁ (wireEncodeGetBlocks startHeight) with ⟨e | _, s₂⟩
  · simp only [hshake, andThen, hwrite, reduceCtorEq, false_and, exists_false]
  rcases hread : readFramed s₂ with ⟨e | resp, s₃⟩
  · simp only [hshake, andThen, hwrite, hread, reduceCtorEq, false_and, exists_false]
  · simp only [hshake, andThen, hwrite, hread, bind_ok_iff, Except.ok.injEq, Prod.mk.injEq,
      exists_eq_left']
    constructor
    · intro h
      rcases h with ⟨bs', hdec, rfl, rfl⟩
      exact ⟨hdec, rfl⟩
    · intro h
      exact ⟨bs, h.1, rfl, h.2.symm⟩

omit [Primitives] in
/-- A request fits a frame. -/
theorem wireEncodeGetBlocks_fits (startHeight : UInt64) :
    (wireEncodeGetBlocks startHeight).length ≤ maxWireFrameBytes := by
  rw [wireEncodeGetBlocks, List.length_cons, beBytes_length]
  decide

omit [Primitives] in
/-- A request is read back. -/
theorem predecode_getBlocks (startHeight : UInt64) :
    predecodeInboundAppPayload (wireEncodeGetBlocks startHeight) =
      .ok (.getBlocks startHeight) := by
  rw [wireEncodeGetBlocks, predecodeInboundAppPayload, if_neg (by decide), if_neg (by decide),
    if_pos rfl, beBytes_length,
    if_neg (by simp only [ne_eq, not_true_eq_false, not_false_eq_true]),
    ofBe_beBytes_of_lt startHeight.toNat_lt, UInt64.ofNat_toNat]

/-- What an exchange that succeeds has sent and read. -/
theorem pullExchange_ok {s : Stream} {g : Genesis} {startHeight advisoryHeight : UInt64}
    {resp : Bytes} (h : (pullExchange s startHeight g advisoryHeight).1 = .ok resp) :
    ∃ hello ack rest, encodeSessionPayload opSessionHello g advisoryHeight = .ok hello ∧
      ack.length ≤ maxWireFrameBytes ∧ resp.length ≤ maxWireFrameBytes ∧
      s.incoming = [ack, resp].flatMap frameOnWire ++ rest ∧
      (pullExchange s startHeight g advisoryHeight).2.sent =
        s.sent ++ [hello, wireEncodeGetBlocks startHeight].flatMap frameOnWire := by
  unfold pullExchange at h ⊢
  rcases hshake : handshakeInitiator s g advisoryHeight with ⟨e | _, s₁⟩
  · simp only [hshake, andThen, reduceCtorEq] at h
  rcases hwrite : writeFramed s₁ (wireEncodeGetBlocks startHeight) with ⟨e | _, s₂⟩
  · simp only [hshake, andThen, hwrite, reduceCtorEq] at h
  rcases hread : readFramed s₂ with ⟨e | resp', s₃⟩
  · simp only [hshake, andThen, hwrite, hread, reduceCtorEq] at h
  simp only [hshake, andThen, hwrite, hread, Except.ok.injEq] at h ⊢
  subst h
  -- What each write sent and each read took, in order.
  rcases handshakeInitiator_ok_iff.mp hshake with ⟨hello, t, ack, hhello, hfirst, hack, _⟩
  rcases writeFramed_ok hfirst with ⟨_, hsent₁, hin₁, _⟩
  rcases readFramed_ok_iff.mp hack with ⟨hackmax, rest₁, hfront₁, rfl⟩
  rcases writeFramed_ok hwrite with ⟨_, hsent₂, hin₂, _⟩
  rcases readFramed_ok_iff.mp hread with ⟨hrespmax, rest, hfront₂, rfl⟩
  refine ⟨hello, ack, rest, hhello, hackmax, hrespmax, ?_, ?_⟩
  · -- The writes do not change what is there to be read.
    rw [← hin₁, hfront₁, List.flatMap_cons, List.flatMap_singleton, List.append_assoc, ← hfront₂,
      hin₂]
  · simp only
    rw [hsent₂, hsent₁, List.flatMap_cons, List.flatMap_singleton, List.append_assoc]

theorem sessionFrames_length_le (opcode : UInt8) (g : Genesis) (h : UInt64) :
    (sessionFrames opcode g h).length ≤ 1 := by
  unfold sessionFrames
  rcases encodeSessionPayload opcode g h with e | frame
  · exact Nat.zero_le 1
  · exact Nat.le_refl 1

theorem sessionFrames_fits (opcode : UInt8) (g : Genesis) (h : UInt64) :
    ∀ f ∈ sessionFrames opcode g h, f.length ≤ maxWireFrameBytes := by
  intro f hf
  unfold sessionFrames at hf
  rcases henc : encodeSessionPayload opcode g h with e | frame
  · simp only [henc, List.not_mem_nil] at hf
  · simp only [henc, List.mem_singleton] at hf
    rw [hf]
    exact encodeSessionPayload_fits henc

omit [Primitives] in
/-- The second of two frames is behind a list of at most one. -/
theorem second_of_prefix {x y : Bytes} {ps qs : List Bytes} (hps : ps.length ≤ 1)
    (h : [x, y] <+: ps ++ qs) : y ∈ qs := by
  rcases ps with _ | ⟨p, _ | ⟨p', ps⟩⟩
  · exact h.subset (List.mem_cons_of_mem x List.mem_cons_self)
  · exact (List.cons_prefix_cons.mp h).2.subset List.mem_cons_self
  · simp only [List.length_cons] at hps
    omega

/-- A pull brings what the peer held. Let a peer run a session on the other end,
    and let each end read a first part of what the other has sent. If the pull
    succeeds, the peer has the same commitment, and it has handled one frame, the
    request; the blocks are the window of its chain at that moment. -/
theorem pull_from_session (peer : String) (policy : SessionPolicy) (w : Surroundings)
    (n : NodeInner) (a b : Stream) (g : Genesis) (startHeight advisoryHeight nbytes : UInt64)
    (bs : List Block) (ha : a.sent = []) (hb : b.sent = [])
    (harrives : b.incoming <+: (pullExchange a startHeight g advisoryHeight).2.sent)
    (hback : a.incoming <+: (serveConnection policy w b n).2.sent)
    (hpull : pullBlocksFromPeer peer (.ok a) startHeight g advisoryHeight = .ok (bs, nbytes)) :
    n.genesis.stateCommitmentHex = g.stateCommitmentHex ∧
    ∃ t, (serveConnection policy w b n).1.turns = [t] ∧ t.node = w.others 0 n ∧
      t.payload = wireEncodeGetBlocks startHeight ∧
      bs = (w.others 0 n).chain.blocksFromHeightLimited startHeight maxBlocksPerBatch := by
  rcases pullBlocksFromPeer_ok_iff.mp hpull with ⟨resp, hresp, hdec, _⟩
  rcases pullExchange_ok hresp with ⟨hello, ack, rest, hhello, hackmax, hrespmax, hin, hsent⟩
  rw [hsent, ha, List.nil_append] at harrives
  have hboth : ∀ p ∈ [ack, resp], p.length ≤ maxWireFrameBytes :=
    List.forall_mem_cons.mpr ⟨hackmax, List.forall_mem_singleton.mpr hrespmax⟩
  have hpays := session_payloads_front (n := n) policy w (encodeSessionPayload_fits hhello)
    (fun m hm => List.mem_singleton.mp hm ▸ wireEncodeGetBlocks_fits startHeight) harrives
  -- The two frames that were read are the first two that the peer sent.
  have hgot : [ack, resp].flatMap frameOnWire <+: (serveConnection policy w b n).2.sent := by
    rw [hin] at hback
    exact (List.prefix_append _ _).trans hback
  unfold serveConnection at hpays hgot ⊢
  rcases hsetup : peerSessionSetup b n with ⟨e | _, b₁⟩
  · have hpart := (peerSessionSetup_sent b n).1
    simp only [hsetup] at hgot hpart
    rw [hb, List.nil_append] at hpart
    -- A session that does not start has sent one frame at most.
    have htwo := (frames_front hboth (sessionFrames_fits _ _ _)
      (hgot.trans hpart)).length_le
    have hone := sessionFrames_length_le opSessionHelloAck n.genesis n.chain.height
    simp only [List.length_cons, List.length_nil] at htwo
    omega
  refine ⟨setup_same_commitment hhello harrives hsetup, ?_⟩
  simp only [hsetup] at hpays hgot ⊢
  -- The frames that a session sends: its acknowledgement and the answers of its turns.
  have hserves := connectionLoop_serves policy w (maxFramesPerInboundSession.toNat + 1) 0 b₁ n
    .zero
  have hpart := hserves.sent
  rw [(peerSessionSetup_ok hsetup).2.1, hb, List.nil_append, ← List.flatMap_append] at hpart
  have hfront : [ack, resp] <+: sessionFrames opSessionHelloAck n.genesis n.chain.height ++
      (connectionLoop policy w (maxFramesPerInboundSession.toNat + 1) 0 b₁ n
        .zero).1.turns.flatMap (Turn.answers policy) := by
    refine frames_front hboth (fun q hq => ?_) (hgot.trans hpart)
    rcases List.mem_append.mp hq with hq | hq
    · exact sessionFrames_fits _ _ _ q hq
    · rcases List.mem_flatMap.mp hq with ⟨t, _, hq⟩
      exact (Turn.answers_batch hq).1
  -- The first of them is the acknowledgement, so the second answers a turn.
  have hanswer := second_of_prefix (sessionFrames_length_le _ _ _) hfront
  rcases List.mem_flatMap.mp hanswer with ⟨t, ht, hanswer⟩
  rcases Turn.answers_batch hanswer with ⟨_, start', hasked, hbatch⟩
  -- There is one turn, since one request was sent.
  rcases List.exists_cons_of_ne_nil (List.ne_nil_of_mem ht) with ⟨u, later, hturns⟩
  rw [hturns, List.map_cons, List.cons_prefix_cons, List.prefix_nil, List.map_eq_nil_iff] at hpays
  rcases hpays with ⟨hpay, rfl⟩
  rw [hturns, List.mem_singleton] at ht
  subst ht
  have hnode := (connectionLoop_head hturns).1
  rw [hpay, predecode_getBlocks, Except.ok.injEq, PredecodedInbound.getBlocks.injEq] at hasked
  rw [hdec, Except.ok.injEq, ← hasked, hnode] at hbatch
  exact ⟨t, hturns, hnode, hpay, hbatch⟩

/-! ### Pushes of sealed blocks -/

/-- A seal that returns hashes has appended a block with the time it was given. -/
theorem pendingRemoval_some {c c' : Blockchain} {m : Mempool} {max : Nat} {ts : UInt64}
    {hashes : List String}
    (h : c.appendBlockFromMempoolPendingRemoval m max ts = (.ok (some hashes), c')) :
    ∃ b, b.timestampUnix = ts ∧ c.appendBlock b = (.ok (), c') := by
  unfold Blockchain.appendBlockFromMempoolPendingRemoval at h
  rcases attempt_ok_iff.mp h with ⟨txs, _, h⟩
  by_cases hempty : txs = []
  · simp only [if_pos hempty, Prod.mk.injEq, Except.ok.injEq, reduceCtorEq, false_and] at h
  rw [if_neg hempty] at h
  rcases okOr_ok_iff.mp h with ⟨tip, _, h⟩
  refine ⟨Blockchain.sealedBlock tip ts txs, rfl, ?_⟩
  rcases happ : c.appendBlock (Blockchain.sealedBlock tip ts txs) with ⟨e | _, c₁⟩
  · simp only [happ, Prod.mk.injEq, reduceCtorEq, false_and] at h
  · simp only [happ, Prod.mk.injEq] at h
    rw [h.2]

/-- What a seal did that returned a block. -/
theorem sealAndPersist_block {g : Genesis} {n n' : NodeInner} (h : n.Agrees g) {allowed : Bool}
    {nowUnix : UInt64} {calls : AppendIo} {b : Block}
    (hseal : n.sealAndPersist allowed nowUnix calls = some (.ok (some b), n')) :
    b.timestampUnix = nowUnix ∧ n.chain.appendBlock b = (.ok (), n'.chain) ∧
      ∃ s, n.store.appendBlock b calls = some (.ok (), s) := by
  -- The pool is cleaned first, against the same chain.
  have hclean := h.hygiene
  have hchain : n.mempoolHygieneAfterLedgerAdvance.2.chain = n.chain := rfl
  have hstore : n.mempoolHygieneAfterLedgerAdvance.2.store = n.store := rfl
  unfold NodeInner.sealAndPersist at hseal
  generalize n.mempoolHygieneAfterLedgerAdvance.2 = m at hclean hchain hstore hseal
  rw [← hchain, ← hstore]
  cases allowed with
  | false =>
      simp only [Bool.false_eq_true, if_false, Option.some.injEq, Prod.mk.injEq, Except.ok.injEq,
        reduceCtorEq, false_and] at hseal
  | true =>
      simp only [if_true] at hseal
      rcases hpend : m.chain.appendBlockFromMempoolPendingRemoval m.pool 64 nowUnix with
        ⟨e | _ | hashes, c⟩
      · simp only [hpend, Option.some.injEq, Prod.mk.injEq, Except.ok.injEq, reduceCtorEq,
          false_and] at hseal
      · simp only [hpend, Option.some.injEq, Prod.mk.injEq, Except.ok.injEq, reduceCtorEq,
          false_and] at hseal
      -- A block was made from the pool and stands on top of the chain.
      rcases pendingRemoval_some hpend with ⟨b', htime, happ⟩
      have hlast : c.blocks.getLast? = some b' := by
        rw [(Blockchain.appendBlock_ok_sound hclean.sound happ).2, List.getLast?_concat]
      simp only [hpend, hlast, Option.bind_eq_bind, Option.bind_some,
        Option.bind_eq_some_iff] at hseal
      rcases hseal with ⟨⟨e | _, s⟩, hs, hseal⟩
      · -- The file refused the block, so none is returned.
        rcases hback : c.rollbackLastBlock m.genesis with ⟨r | _, c₁⟩
        · simp only [hback, Option.some.injEq, Prod.mk.injEq, reduceCtorEq, false_and] at hseal
        · simp only [hback, Option.some.injEq, Prod.mk.injEq, reduceCtorEq, false_and] at hseal
      · simp only [Option.some.injEq, Prod.mk.injEq, Except.ok.injEq] at hseal
        rcases hseal with ⟨rfl, rfl⟩
        exact ⟨htime, happ, s, hs⟩

/-- Chains with the same blocks, accounts and interval take the same block and
    have the same blocks and accounts after it. -/
theorem appendBlock_twin {c c' d : Blockchain} {b : Block} (hblocks : d.blocks = c.blocks)
    (hstate : d.state = c.state)
    (hinterval : d.consensus.minBlockIntervalSecs = c.consensus.minBlockIntervalSecs)
    (happ : c.appendBlock b = (.ok (), c')) :
    ∃ d', d.appendBlock b = (.ok (), d') ∧ d'.blocks = c'.blocks ∧ d'.state = c'.state := by
  rcases (Blockchain.appendBlock_ok_iff c c' b).mp happ with
    ⟨hvalid, tip, htip, hheight, hprev, htime, next, hnext, rfl⟩
  refine ⟨{ d with state := next, blocks := d.blocks ++ [b] },
    (Blockchain.appendBlock_ok_iff d _ b).mpr
      ⟨hvalid, tip, hblocks ▸ htip, hheight, hprev, ?_, next,
      hstate ▸ hnext, rfl⟩, ?_, rfl⟩
  · unfold validateBlockTimestampsVsParent at htime ⊢
    rw [hinterval]
    exact htime
  · rw [hblocks]

omit [Primitives] in
/-- A block as a message is read back. -/
theorem predecode_blockMessage {b : Block} {payload : Bytes} (h : blockMessage b = some payload) :
    predecodeInboundAppPayload payload = .ok (.block b) := by
  simp only [blockMessage, Option.bind_eq_bind, Option.bind_eq_some_iff, Option.some.injEq] at h
  rcases h with ⟨enc, henc, rfl⟩
  rw [predecodeInboundAppPayload, if_neg (by decide), if_pos rfl, decodeBlock_ok_iff.mpr henc]

/-- A block that a chain takes is above it. -/
theorem above_of_append {c c' : Blockchain} {b : Block} (hl : Linked c.blocks)
    (happ : c.appendBlock b = (.ok (), c')) : ¬ b.height ≤ c.height := by
  rcases (Blockchain.appendBlock_ok_iff c c' b).mp happ with ⟨_, tip, htip, _⟩
  have hfol := (Blockchain.follows_of_append hl happ htip).height
  unfold Blockchain.height
  rw [htip, Option.map_some, Option.getD_some, UInt64.le_iff_toNat_le]
  omega

/-- What becomes of a new block is what becomes of it in the chain and the file,
    up to the pool. -/
theorem applyBlock_of_persist {n n₁ : NodeInner} {b : Block} {nowUnix : UInt64}
    {calls : AppendIo} {r : Except NetworkBlockPersistFailure Unit}
    (hnew : ¬ b.height ≤ n.chain.height)
    (hp : n.appendNetworkBlockPersist b nowUnix calls = some (r, n₁)) (k : SessionCounters)
    (policy : InboundPeerPolicy) :
    ∃ o k' pool,
      n.applyBlock b nowUnix k policy calls = some (o, { n₁ with pool := pool }, k') := by
  unfold NodeInner.applyBlock
  simp only [if_neg hnew, hp, Option.bind_eq_bind, Option.bind_some]
  rcases r with f | _
  · by_cases hcounts : f.countsTowardInvalidBlockBudget = true
    · by_cases hstrikes : policy.maxInvalidNetworkBlocksPerSession ≤
          saturatingSucc32 k.invalidBlockStrikes
      · simp only [if_pos hcounts, if_pos hstrikes]
        exact ⟨_, _, n₁.pool, rfl⟩
      · simp only [if_pos hcounts, if_neg hstrikes]
        exact ⟨_, _, n₁.pool, rfl⟩
    · simp only [if_neg hcounts]
      exact ⟨_, k, n₁.pool, rfl⟩
  · exact ⟨_, k, _, rfl⟩

/-- A block that chain and file take. -/
theorem persist_takes {n : NodeInner} {b : Block} {d : Blockchain} {s : BlockStore}
    {nowUnix : UInt64} {calls : AppendIo} (husable : n.store.poisoned = false)
    (happ : n.chain.appendBlock b = (.ok (), d))
    (htime : b.timestampUnix ≤ saturatingAdd nowUnix n.chain.consensus.maxFutureDriftSecs)
    (hs : n.store.appendBlock b calls = some (.ok (), s)) :
    n.appendNetworkBlockPersist b nowUnix calls =
      some (.ok (), { n with chain := d, store := s }) := by
  have htry : n.chain.tryAppendNetworkBlock b nowUnix = (.ok (), d) := by
    rw [Blockchain.tryAppendNetworkBlock, validateBlockVsLocalTime,
      if_neg (UInt64.not_lt.mpr htime)]
    exact happ
  have hlast : d.blocks.getLast? = some b := by
    rcases (Blockchain.appendBlock_ok_iff _ d b).mp happ with ⟨_, _, _, _, _, _, _, _, rfl⟩
    exact List.getLast?_concat
  unfold NodeInner.appendNetworkBlockPersist
  simp only [husable, Bool.false_eq_true, if_false, htry, hlast, hs, Option.bind_eq_bind,
    Option.bind_some]

/-- A block from the future is not taken. -/
theorem persist_future {n : NodeInner} {b : Block} {nowUnix : UInt64} (calls : AppendIo)
    (husable : n.store.poisoned = false)
    (htime : ¬ b.timestampUnix ≤ saturatingAdd nowUnix n.chain.consensus.maxFutureDriftSecs) :
    ∃ f, n.appendNetworkBlockPersist b nowUnix calls = some (.error f, n) := by
  unfold NodeInner.appendNetworkBlockPersist Blockchain.tryAppendNetworkBlock
    validateBlockVsLocalTime
  rw [husable, if_neg Bool.false_ne_true, if_pos (UInt64.not_le.mp htime)]
  exact ⟨_, rfl⟩

/-- A sealed block spreads. A node seals a block and pushes it to a peer that
    holds the same blocks; everything arrives and the file of the peer takes it.
    Then the push is handled once, and the peer has the blocks and the accounts of
    the node again, if the block is not in the future by its clock; otherwise it
    keeps its chain. -/
theorem sealed_block_spreads (g : Genesis) (n n' m : NodeInner) (nowUnix : UInt64)
    (calls : AppendIo) (b : Block) (peer : String) (policy : SessionPolicy) (w : Surroundings)
    (x x' y : Stream) (height : UInt64) (hn : n.Agrees g)
    (hseal : n.sealAndPersist true nowUnix calls = some (.ok (some b), n'))
    (hpush : pushBlockToPeer peer (.ok x) n.genesis height b = (some (.ok ()), .ok x'))
    (hx : x.sent = []) (hy : y.sent = []) (hw : y.writes = []) (harrives : y.incoming = x'.sent)
    (hback : x.incoming <+: (serveConnection policy w y m).2.sent)
    (happ : 0 < policy.maxAppFramesPerSession) (hm : (w.others 0 m).Agrees g)
    (husable : (w.others 0 m).store.poisoned = false) (hfile : w.calls 0 = .succeeds)
    (hblocks : (w.others 0 m).chain.blocks = n.chain.blocks)
    (hinterval : (w.others 0 m).chain.consensus.minBlockIntervalSecs =
      n.chain.consensus.minBlockIntervalSecs) :
    ∃ t o m' k, (serveConnection policy w y m).1.turns = [t] ∧ t.handle policy = some (o, m', k) ∧
      m'.Agrees g ∧
      (nowUnix ≤ saturatingAdd (w.clock 0) (w.others 0 m).chain.consensus.maxFutureDriftSecs →
        m'.chain.blocks = n'.chain.blocks ∧ m'.chain.state = n'.chain.state) ∧
      (¬ nowUnix ≤ saturatingAdd (w.clock 0) (w.others 0 m).chain.consensus.maxFutureDriftSecs →
        m'.chain = (w.others 0 m).chain) := by
  rcases sealAndPersist_block hn hseal with ⟨htime, hsealed, s, hs⟩
  rcases (push_handled hpush hx (harrives ▸ List.prefix_refl _) hy hw hback).2.2 harrives happ with
    ⟨t, hturns, hpay, hnode, hnow, hcalls, _⟩
  have hd := predecode_blockMessage hpay
  have henc := encodes_of_predecode hd
  rw [← hnode] at hm husable hblocks hinterval ⊢
  rw [← hnow]
  rw [← hcalls] at hfile
  -- The same blocks replay to the same table, so the block fits both chains.
  have hstate : t.node.chain.state = n.chain.state := by
    have hreplay := hm.sound.replay
    rw [hblocks, hn.sound.replay, Except.ok.injEq] at hreplay
    exact hreplay.symm
  rcases appendBlock_twin hblocks hstate hinterval hsealed with ⟨d, happend, hdblocks, hdstate⟩
  have hnew := above_of_append hm.sound.linked happend
  -- What the peer makes of the block is what storing it made of it.
  rcases persist_cases hm henc t.nowUnix t.calls with ⟨r, m₁, hp, hagrees, _, _⟩
  rcases applyBlock_of_persist hnew hp t.counters.toSessionCounters policy.toInboundPeerPolicy with
    ⟨o, k, pool, happly⟩
  refine ⟨t, o, { m₁ with pool := pool }, { t.counters with toSessionCounters := k }, hturns, ?_,
    hagrees.with_pool pool, ?_, ?_⟩
  · rw [Turn.handle_message hd (fun tx hc => by cases hc), NodeInner.applyPredecoded, husable,
      if_neg Bool.false_ne_true]
    simp only [happly, Option.map_some]
  · intro hclock
    -- The file of the node took the block, so that of the peer has room for it.
    rcases BlockStore.appendBlock_ok hs with ⟨enc, he, hmax, _⟩
    have hwritten := BlockStore.appendBlock_succeeds husable he hmax
    rw [← hfile] at hwritten
    rw [persist_takes husable happend (htime ▸ hclock) hwritten, Option.some.injEq,
      Prod.mk.injEq] at hp
    rw [← hp.2]
    exact ⟨hdblocks, hdstate⟩
  · intro hclock
    rcases persist_future t.calls husable (htime ▸ hclock) with ⟨f, hf⟩
    rw [hf, Option.some.injEq, Prod.mk.injEq] at hp
    rw [← hp.2]

end Exchange

/-! ### A sample pull and a sample push -/

namespace Sample

/-- Behind the handshake, the node has the block with the payment. -/
def growing : Surroundings :=
  { calm with others := fun _ n => { n with chain := chain } }

/-- What the node answers then to a request for all blocks. -/
def allBlocks : Bytes :=
  ((wireEncodeBlocksResponse [Block.genesis, block]).bind Except.toOption).getD []

theorem encode_allBlocks :
    wireEncodeBlocksResponse [Block.genesis, block] = some (.ok allBlocks) := by
  decide +kernel

/-- The turn in which the node answers. -/
theorem answers_allBlocks {t : Turn} (hnode : t.node = growing.others 0 listener)
    (hpay : t.payload = wireEncodeGetBlocks 0) : t.answers onlyOne = [allBlocks] := by
  have hchain : t.node.chain = chain := by rw [hnode]; rfl
  have hblocks : window chain 0 = [Block.genesis, block] := by rw [window, blocks_chain]; rfl
  have happly : t.node.applyPredecoded (.getBlocks 0) t.nowUnix t.counters.toSessionCounters
      onlyOne.toInboundPeerPolicy t.calls = _ :=
    getBlocks_of_encodes (by rw [hchain]; exact reachable_chain.sound.linked)
      (by rw [hnode]; rfl) (by rw [hchain, hblocks]; exact encode_allBlocks) t.nowUnix
      t.counters.toSessionCounters onlyOne.toInboundPeerPolicy t.calls
  have hhandle : t.handle onlyOne = _ :=
    Turn.handle_message (by rw [hpay]; exact predecode_getBlocks 0) (fun tx hc => by cases hc)
  rw [happly] at hhandle
  exact Turn.answers_of_handle hhandle

/-- The pull brings both blocks that the other node has when it is asked, though it
    had one when the session started. -/
theorem pull_from_listener :
    ∃ x y t nbytes, pullBlocksFromPeer "peer" (.ok x) 0 genesis 0 =
        .ok ([Block.genesis, block], nbytes) ∧
      (serveConnection onlyOne growing y listener).1.turns = [t] ∧
      listener.chain.blocks = [Block.genesis] ∧
      [Block.genesis, block] = chain.blocksFromHeightLimited 0 maxBlocksPerBatch := by
  rcases exists_session with ⟨hello, ack, hhello, hack⟩
  rcases wireEncodeBlocksResponse_ok (by decide) encode_allBlocks with ⟨hfits, hdec⟩
  -- The side that asks, with the answers it will read.
  have hexchange : pullExchange (endpoint ack (frameOnWire allBlocks)) 0 genesis 0 =
      (.ok allBlocks, ⟨[], .other "", [],
        frameOnWire hello ++ frameOnWire (wireEncodeGetBlocks 0)⟩) := by
    have hwrite : writeFramed ⟨frameOnWire allBlocks, .other "", [], frameOnWire hello⟩
        (wireEncodeGetBlocks 0) = _ :=
      writeFramed_of_writes_nil (wireEncodeGetBlocks_fits 0) rfl
    unfold pullExchange
    simp only [handshakeInitiator_endpoint hhello hack, andThen, hwrite]
    exact readFramed_ok_iff.mpr ⟨hfits, [], (List.append_nil _).symm, rfl⟩
  have hpull : pullBlocksFromPeer "peer" (.ok (endpoint ack (frameOnWire allBlocks))) 0 genesis 0 =
      .ok ([Block.genesis, block], _) :=
    pullBlocksFromPeer_ok_iff.mpr ⟨allBlocks, by rw [hexchange], hdec, rfl⟩
  -- The side that answers: the node has grown when the request is handled.
  have hback : (endpoint ack (frameOnWire allBlocks)).incoming <+: (serveConnection onlyOne growing
      (endpoint hello (frameOnWire (wireEncodeGetBlocks 0))) listener).2.sent := by
    unfold serveConnection
    simp only [peerSessionSetup_endpoint hhello hack]
    have hread : readFramed ⟨frameOnWire (wireEncodeGetBlocks 0), .other "", [], frameOnWire ack⟩ =
        (.ok (wireEncodeGetBlocks 0), ⟨[], .other "", [], frameOnWire ack⟩) :=
      readFramed_ok_iff.mpr ⟨wireEncodeGetBlocks_fits 0, [], (List.append_nil _).symm, rfl⟩
    have hserves := connectionLoop_serves onlyOne growing (maxFramesPerInboundSession.toNat + 1) 0
      ⟨frameOnWire (wireEncodeGetBlocks 0), .other "", [], frameOnWire ack⟩ listener .zero
    have hone : 0 < onlyOne.maxAppFramesPerSession := by decide
    rcases connectionLoop_handles growing maxFramesPerInboundSession.toNat listener hread hone with
      ⟨t, later, hturns, hpay⟩
    have hanswer := answers_allBlocks (connectionLoop_head hturns).1 hpay
    rw [hserves.sent_all rfl, hturns, List.flatMap_cons, hanswer, List.flatMap_append,
      List.flatMap_singleton, ← List.append_assoc]
    exact List.prefix_append _ _
  rcases pull_from_session "peer" onlyOne growing listener (endpoint ack (frameOnWire allBlocks))
    (endpoint hello (frameOnWire (wireEncodeGetBlocks 0))) genesis 0 0 _ _ rfl rfl
    (by rw [hexchange]; exact List.prefix_refl _) hback hpull with ⟨_, t, hturns, _, _, hblocks⟩
  exact ⟨_, _, t, _, hpull, hturns, rfl, hblocks⟩

/-- The node that will seal the payment. -/
def sealer : NodeInner :=
  { listener with pool := ((Mempool.new 8).trySubmit payment).2 }

theorem agrees_listener : listener.Agrees genesis :=
  started_newNode.agrees

/-- The node seals the block with its payment. -/
theorem seal_sealer : ∃ n, sealer.sealAndPersist true 0 .succeeds = some (.ok (some block), n) := by
  have hseal : (sealer.sealAndPersist true 0 .succeeds).map Prod.fst = some (.ok (some block)) := by
    decide +kernel
  rcases Option.map_eq_some_iff.mp hseal with ⟨⟨_, n⟩, hn, rfl⟩
  exact ⟨n, hn⟩

/-- The block with the payment is sealed and reaches the other node. -/
theorem sealed_payment_spreads :
    ∃ y t o m' k, (serveConnection onlyOne calm y listener).1.turns = [t] ∧
      t.handle onlyOne = some (o, m', k) ∧ m'.chain.blocks = [Block.genesis, block] := by
  rcases exists_session with ⟨hello, ack, hhello, hack⟩
  rcases seal_sealer with ⟨sealed, hsealed⟩
  have hfits : (opBlock :: payload).length ≤ maxWireFrameBytes := by
    rw [List.length_cons, payload_length]
    decide
  have hpush := pushMessage_endpoint hhello hack "gossip" hfits
  rw [show some (opBlock :: payload) = blockMessage block by
    rw [blockMessage, encodeBlock_block]; rfl] at hpush
  rcases sealed_block_spreads genesis sealer sealed listener 0 .succeeds block "peer" onlyOne
    calm (endpoint ack []) _ (endpoint hello (frameOnWire (opBlock :: payload))) 0
    (agrees_listener.with_pool _) hsealed hpush rfl rfl rfl rfl (ack_sent hhello hack _)
    (by decide) agrees_listener rfl rfl rfl rfl with ⟨t, o, m', k, hturns, hhandle, _, htaken, _⟩
  refine ⟨_, t, o, m', k, hturns, hhandle, ?_⟩
  have hchain := (sealAndPersist_block (agrees_listener.with_pool _) hsealed).2.1
  rw [(htaken (by decide)).1, ← blocks_chain]
  exact congrArg (fun r => r.2.blocks) (hchain.symm.trans appendBlock_chain)

end Sample

end Trilogicon
