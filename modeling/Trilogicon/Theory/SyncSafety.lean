import Trilogicon.Theory.Authority
import Trilogicon.Theory.NodeRun
import Trilogicon.Theory.Selection
import Trilogicon.Theory.SyncFault

/-!
# Catching Up With Any Peer

What a call of `sync_from_peer_with_clock` does to a node, whatever the peer
answers.

A peer may refuse the connection, break it, answer with anything, and answer
differently in each round. The node checks that a batch continues its chain
before it looks at the blocks, and appends the blocks one by one. So the chain
only grows, by blocks the peer sent and in the order it sent them, and both
limits of the budget hold at every step of the loop.

The pool is cleaned behind the loop. A call that leaves the loop with an error
does not get there, also when it has appended blocks before. Then the pool is as it
was, and a transaction whose nonce the new blocks use stays in it. So what decides
is the outside of the call: the fault that breaks it off, and the blocks that came
before.

## Main definitions

* `NodeReached`: A node that can be met.
* `NodeInner.Syncs`: The pulls and the new blocks of a call.
* `Mempool.Spares`: A block uses no nonce of a pool.

## Theorems

* `NodeReached.sound`: The invariants of a node that can be met.
* `sync_safe`: What holds of a call with any peer.
* `Mempool.fresh_iff_spares`: When blocks leave a pool clean.
* `sync_cleans_iff`: When a call leaves a clean pool.
-/

namespace Trilogicon

section SyncSafety

variable [Primitives]

/-! ### Nodes that can be met -/

/-- A node that can be met: it was started from a file, and events and operations
    on its pool followed in any order. -/
inductive NodeReached (g : Genesis) : NodeInner → Prop where
  | start {disk : Option Bytes} {n : NodeInner} (h : Started g disk n) : NodeReached g n
  | event {n n' : NodeInner} (hn : NodeReached g n) (e : NodeEvent) (h : e.run n = some n') :
      NodeReached g n'
  | pool {n : NodeInner} (hn : NodeReached g n) (op : Mempool.Op) :
      NodeReached g { n with pool := (n.pool.perform op).2 }

/-- The invariants of a node that can be met. -/
theorem NodeReached.sound {g : Genesis} {n : NodeInner} (h : NodeReached g n) :
    n.Agrees g ∧ n.pool.Sound := by
  induction h with
  | start h =>
      refine ⟨h.agrees, ?_⟩
      rcases h with ⟨_, _, _, _, _, capacity, _, _, rfl⟩
      exact Mempool.sound_new capacity
  | event _ e h ih =>
      rcases e.run_moves ih.1 with ⟨n₁, hn₁, hagrees, hmoves⟩
      rw [h, Option.some.injEq] at hn₁
      rw [hn₁]
      exact ⟨hagrees, hmoves.keeps_pool ih.2⟩
  | pool _ op ih => exact ⟨ih.1.with_pool _, ih.2.perform op⟩

/-! ### Safety -/

/-- The pulls of a call and the blocks it appends: none on a poisoned store, else
    those of the run of its loop. -/
def NodeInner.Syncs (n : NodeInner) (peer : String) (budget : SyncWorkBudget) (w : SyncWorld)
    (pulls : List Answer) (new : List Block) : Prop :=
  if n.store.poisoned then pulls = [] ∧ new = []
  else ∃ n' r, SyncRun peer budget w budget.maxRoundsPerCall.toNat 0 n 0 0 pulls new n' r

/-- Catching up is safe against any peer. The call returns. It makes at most as
    many pulls and appends at most as many blocks as its budget allows. The chain
    grows by blocks the peer sent, from the first on and in order. On success the
    number of new blocks is reported; a call that was stopped has appended one, and
    another one got an empty batch last. There is no pull after the bytes reach
    their limit. -/
theorem sync_safe {g : Genesis} {n : NodeInner} (hn : NodeReached g n) (peer : String)
    {budget : SyncWorkBudget} (hbudget : validateSyncWorkBudget budget = .ok ())
    (w : SyncWorld) :
    ∃ r n', n.syncFromPeerWithClock peer budget w = some (r, n') ∧
      (∃ pulls new, n.Syncs peer budget w pulls new) ∧
      ∀ pulls new, n.Syncs peer budget w pulls new →
        pulls.length ≤ budget.maxRoundsPerCall.toNat ∧
        new.length ≤ budget.maxBlocksPerCall.toNat ∧
        n'.chain.blocks = n.chain.blocks ++ new ∧ new <+: answeredBlocks pulls ∧
        (∀ outcome, r = .ok outcome → outcome.blocksAppended = new.length ∧
          (outcome.stoppedDueToBudget = true → 1 ≤ outcome.blocksAppended) ∧
          (outcome.stoppedDueToBudget = false →
            ∃ nbytes, pulls.getLast? = some (.ok ([], nbytes)))) ∧
        ∀ pre p post, pulls = pre ++ p :: post →
          answeredBytes pre < budget.maxWireBytesPerCall.toNat := by
  have h := hn.sound.1
  unfold NodeInner.Syncs
  by_cases hpois : n.store.poisoned = true
  · -- A poisoned store refuses the call before the first pull.
    have hrefused : ¬ (n.store.poisoned = false ∧ validateSyncWorkBudget budget = .ok ()) :=
      fun hc => absurd (hc.1.symm.trans hpois) Bool.false_ne_true
    rcases sync_refused hrefused peer w with ⟨e, he⟩
    refine ⟨_, _, he, ?_⟩
    simp only [if_pos hpois]
    refine ⟨⟨[], [], rfl, rfl⟩, ?_⟩
    intro pulls new hsyncs
    rw [hsyncs.1, hsyncs.2]
    refine ⟨Nat.zero_le _, Nat.zero_le _, (List.append_nil _).symm, List.nil_prefix, ?_, ?_⟩
    · exact fun _ hc => absurd hc (by simp only [reduceCtorEq, not_false_eq_true])
    · intro pre p post hc
      exact absurd hc.symm (List.append_ne_nil_of_right_ne_nil pre (List.cons_ne_nil p post))
  · simp only [if_neg hpois]
    have husable := Bool.eq_false_iff.mpr hpois
    rcases exists_syncRun peer budget w budget.maxRoundsPerCall.toNat 0 h 0 0 with
      ⟨pulls₁, new₁, n₁, r₁, hrun₁⟩
    refine ⟨(finishSync n₁ new₁ r₁).1, (finishSync n₁ new₁ r₁).2,
      sync_ran husable hbudget hrun₁, ⟨pulls₁, new₁, n₁, r₁, hrun₁⟩, ?_⟩
    intro pulls new hsyncs
    rcases hsyncs with ⟨n', r, hrun⟩
    -- The call has one result, whichever of its runs is taken.
    have hsame := (sync_ran husable hbudget hrun₁).symm.trans (sync_ran husable hbudget hrun)
    rw [Option.some.inj hsame]
    rcases hrun.appends h with ⟨_, _, hacc, hnew, hle⟩
    rcases finishSync_eq n' new r with ⟨ops, hend⟩
    rcases validateSyncWorkBudget_ok hbudget with ⟨hrounds, hmax, hwire⟩
    refine ⟨hrun.length_pulls, ?_, ?_, hnew, ?_, ?_⟩
    · have := hle (Nat.zero_le _)
      omega
    · rw [hend]
      exact (hacc.sound h.sound).2.1
    · intro outcome hok
      rcases finishSync_ok hok with ⟨hcount, hr⟩
      refine ⟨hcount, ?_, ?_⟩
      · intro hstopped
        rw [hstopped] at hr
        have hne := hrun.ne_nil_of_stopped h hr hrounds ⟨hmax, hwire⟩
        rw [hcount]
        exact List.length_pos_iff.mpr hne
      · intro hstopped
        rw [hstopped] at hr
        exact hrun.last_empty hr
    · intro pre p post hpulls
      have := hrun.bytes_below hpulls
      rw [UInt64.toNat_zero] at this
      omega

/-! ### The pool behind a call -/

/-- The block uses no nonce that a transaction of the pool has. -/
def Mempool.Spares (m : Mempool) (b : Block) : Prop :=
  ∀ h tx, m.txs.lookup h = some tx → ∀ t ∈ b.transactions,
    (t.sender, t.nonce) ≠ (tx.sender, tx.nonce)

/-- The nonces that blocks use count up from those of the table. So they overtake
    a transaction of a clean pool only by using its nonce. -/
theorem Mempool.fresh_iff_spares {m : Mempool} {s s' : State} {new : List Block}
    (h : applyBlocks s new = .ok s') :
    m.Fresh s' ↔ m.Fresh s ∧ ∀ b ∈ new, m.Spares b := by
  have happ := (applyBlocks_ok_iff s s' new).mp h
  rcases State.applyAll_ok happ with ⟨_, hadm, hpost⟩
  -- The nonces that the blocks use are those between the two tables.
  have hused : ∀ a k, (∃ b ∈ new, ∃ t ∈ b.transactions, t.sender = a ∧ t.nonce.toNat = k) ↔
      s.nonce a ≤ k ∧ k < s'.nonce a := by
    intro a k
    have hiff := Book.admitsAll_used_iff s.book _ hadm a k
    rw [← hpost] at hiff
    refine Iff.trans ?_ hiff
    simp only [List.mem_map, List.mem_flatMap]
    constructor
    · rintro ⟨b, hb, t, ht, hsame⟩
      exact ⟨t.transfer, ⟨t, ⟨b, hb, ht⟩, rfl⟩, hsame⟩
    · rintro ⟨_, ⟨t, ⟨b, hb, ht⟩, rfl⟩, hsame⟩
      exact ⟨b, hb, t, ht, hsame⟩
  constructor
  · intro hfresh
    refine ⟨fun k tx hin => ?_, fun b hb k tx hin t ht hsame => ?_⟩
    · exact (applyAll_nonce_le happ tx.sender).trans (hfresh k tx hin)
    · rw [Prod.mk.injEq] at hsame
      have hlt := ((hused tx.sender tx.nonce.toNat).mp ⟨b, hb, t, ht, hsame.1, by rw [hsame.2]⟩).2
      have hle := hfresh k tx hin
      omega
  · rintro ⟨hfresh, hspares⟩ k tx hin
    -- A nonce that was overtaken was used by one of the blocks.
    by_contra hover
    rcases (hused tx.sender tx.nonce.toNat).mpr ⟨hfresh k tx hin, Nat.lt_of_not_le hover⟩ with
      ⟨b, hb, t, ht, hsender, hnonce⟩
    exact hspares b hb k tx hin t ht (Prod.ext hsender (UInt64.toNat_inj.mp hnonce))

/-- The pool is clean behind a call if it is cleaned, and else if it is clean at the
    end of the loop. -/
theorem finishSync_fresh {n : NodeInner} (hp : n.pool.Sound) {new : List Block}
    {r : Except String Bool}
    (h : (∀ stopped, r = .ok stopped → new = []) → n.pool.Fresh n.chain.state) :
    (finishSync n new r).2.pool.Fresh (finishSync n new r).2.chain.state := by
  cases r with
  | error e => exact h fun _ hc => absurd hc (by simp only [reduceCtorEq, not_false_eq_true])
  | ok stopped =>
      rw [finishSync]
      by_cases hsome : 0 < new.length
      · rw [if_pos hsome]
        exact (hp.hygiene_drops n.chain.state).2
      · rw [if_neg hsome]
        exact h fun _ _ => List.length_eq_zero_iff.mp (Nat.eq_zero_of_not_pos hsome)

/-- When a call that appended a block leaves a clean pool. It does not exactly if
    the peer or the file breaks it off after blocks, and these blocks use a nonce of
    a transaction of the pool, or the pool was not clean before. So with a clean pool
    it is enough that no block the connections bring uses such a nonce. -/
theorem sync_cleans_iff {g : Genesis} {n : NodeInner} (hn : NodeReached g n) (peer : String)
    (budget : SyncWorkBudget) (w : SyncWorld) :
    ((∀ r n', n.syncFromPeerWithClock peer budget w = some (r, n') →
      n.chain.blocks.length < n'.chain.blocks.length → n'.pool.Fresh n'.chain.state) ↔
    (n.store.poisoned = false → validateSyncWorkBudget budget = .ok () →
      ∀ new, BreaksOff peer budget w budget.maxRoundsPerCall.toNat 0 0 0 n new → new ≠ [] →
        n.pool.Fresh n.chain.state ∧ ∀ b ∈ new, n.pool.Spares b)) ∧
    (n.pool.Fresh n.chain.state → PullsOnly n.pool.Spares peer w →
      ∀ r n', n.syncFromPeerWithClock peer budget w = some (r, n') →
        n'.pool.Fresh n'.chain.state) := by
  rcases hn.sound with ⟨h, hp⟩
  -- The table at the end of a run is made by its blocks, and the pool is not touched.
  have hmade : ∀ {pulls new n₁ r},
      SyncRun peer budget w budget.maxRoundsPerCall.toNat 0 n 0 0 pulls new n₁ r →
      n₁.chain.blocks = n.chain.blocks ++ new ∧ n₁.pool = n.pool ∧
        applyBlocks n.chain.state new = .ok n₁.chain.state := by
    intro pulls new n₁ r hrun
    rcases hrun.appends h with ⟨h₁, hpool, hacc, _, _⟩
    have hblocks := (hacc.sound h.sound).2.1
    exact ⟨hblocks, hpool, h.sound.applyBlocks_new h₁.sound hblocks⟩
  refine ⟨⟨?_, ?_⟩, ?_⟩
  · intro hclean husable hbudget new hbreaks hne
    have hbroken : BreaksOff peer budget w _ 0 0 (0 : UInt64).toNat n new := hbreaks
    rcases hbroken.syncRun husable with ⟨pulls, n₁, e, hrun⟩
    rcases hmade hrun with ⟨hblocks, hpool, hstate⟩
    have hgrew : n.chain.blocks.length < n₁.chain.blocks.length := by
      have := List.length_pos_iff.mpr hne
      rw [hblocks, List.length_append]
      omega
    have hfresh := hclean _ _ (sync_ran husable hbudget hrun) hgrew
    rw [hpool] at hfresh
    exact (Mempool.fresh_iff_spares hstate).mp hfresh
  · intro hspared r n' hsync hgrew
    by_cases hruns : n.store.poisoned = false ∧ validateSyncWorkBudget budget = .ok ()
    · rcases exists_syncRun peer budget w budget.maxRoundsPerCall.toNat 0 h 0 0 with
        ⟨pulls, new, n₁, r₁, hrun⟩
      rcases hmade hrun with ⟨hblocks, hpool, hstate⟩
      rw [sync_ran hruns.1 hruns.2 hrun, Option.some.injEq] at hsync
      have hn' : (finishSync n₁ new r₁).2 = n' := by rw [hsync]
      rw [← hn'] at hgrew ⊢
      have hsome : new ≠ [] := by
        rintro rfl
        rcases finishSync_eq n₁ [] r₁ with ⟨ops, hend⟩
        rw [hend, hblocks, List.append_nil] at hgrew
        exact absurd hgrew (Nat.lt_irrefl _)
      -- A call that ends well has cleaned the pool, so it was broken off.
      refine finishSync_fresh (hpool ▸ hp) fun hnot => ?_
      cases r₁ with
      | ok stopped => exact absurd (hnot stopped rfl) hsome
      | error e =>
          rw [hpool]
          exact (Mempool.fresh_iff_spares hstate).mpr
            (hspared hruns.1 hruns.2 new (hrun.breaksOff hruns.1 rfl) hsome)
    · rcases sync_refused hruns peer w with ⟨e, he⟩
      rw [he, Option.some.injEq, Prod.mk.injEq] at hsync
      rw [← hsync.2] at hgrew
      exact absurd hgrew (Nat.lt_irrefl _)
  · intro hfresh hpulls r n' hsync
    by_cases hruns : n.store.poisoned = false ∧ validateSyncWorkBudget budget = .ok ()
    · rcases exists_syncRun peer budget w budget.maxRoundsPerCall.toNat 0 h 0 0 with
        ⟨pulls, new, n₁, r₁, hrun⟩
      rcases hmade hrun with ⟨_, hpool, hstate⟩
      have hnew := (hrun.appends h).2.2.2.1
      rw [sync_ran hruns.1 hruns.2 hrun, Option.some.injEq] at hsync
      have hn' : (finishSync n₁ new r₁).2 = n' := by rw [hsync]
      rw [← hn']
      -- It ends well or is broken off, and the blocks spare the pool.
      refine finishSync_fresh (hpool ▸ hp) fun _ => ?_
      rw [hpool]
      exact (Mempool.fresh_iff_spares hstate).mpr
        ⟨hfresh, fun b hb => hrun.answered hpulls b (hnew.subset hb)⟩
    · rcases sync_refused hruns peer w with ⟨e, he⟩
      rw [he, Option.some.injEq, Prod.mk.injEq] at hsync
      rwa [← hsync.2]

end SyncSafety

/-! ### A peer that goes away -/

namespace Sample

/-- The answer with the block of the payment. -/
def paymentResponse : Bytes :=
  opBlocks :: beBytes 4 1 ++ (beBytes 4 payload.length ++ payload)

/-- A peer that answers once and is gone. -/
def vanishingPeer : SyncWorld :=
  { connection := fun
      | 0 => .ok ⟨frameOnWire peerAck ++ (frameOnWire paymentResponse ++ []), .other "", [], []⟩
      | _ + 1 => .error (.other "connection refused"),
    clock := fun _ => 0, calls := fun _ => .succeeds }

/-- The new node, with another pool. -/
def holding (m : Mempool) : NodeInner :=
  ⟨genesis, start, m, freshStore⟩

/-- That node when it has taken the block. -/
def advanced (m : Mempool) : NodeInner :=
  ⟨genesis, chain, m, freshStore.written payload⟩

/-- The pool of the new node after the payment was submitted. -/
def oneWaiting : Mempool :=
  (newNode.pool.perform (.trySubmit payment)).2

theorem reached_newNode : NodeReached genesis newNode :=
  .start started_newNode

theorem reached_holding : NodeReached genesis (holding oneWaiting) :=
  .pool reached_newNode (.trySubmit payment)

theorem paymentResponse_length : paymentResponse.length = 411 := by
  rw [paymentResponse]
  simp only [List.length_append, List.length_cons, beBytes_length, payload_length]

theorem decode_paymentResponse : wireDecodeBlocksResponse paymentResponse = .ok [block] := by
  have hentry : batchEntry block = some (beBytes 4 payload.length ++ payload) :=
    batchEntry_eq_some.mpr ⟨payload, encodeBlock_block, by rw [payload_length]; decide, rfl⟩
  refine wireDecodeBlocksResponse_ok_iff.mpr ⟨by rw [List.length_singleton]; decide, _, ?_, rfl⟩
  exact writeAll_cons_iff.mpr ⟨_, [], hentry, rfl, (List.append_nil _).symm⟩

theorem persist_holding (m : Mempool) :
    (holding m).appendNetworkBlockPersist block 0 .succeeds = some (.ok (), advanced m) := by
  have happ : start.tryAppendNetworkBlock block 0 = (.ok (), chain) := by
    rw [Blockchain.tryAppendNetworkBlock_default rfl]
    exact appendBlock_chain
  have hlast : chain.blocks.getLast? = some block := by
    rw [blocks_chain]
    rfl
  exact persist_of_ok rfl happ hlast
    (BlockStore.appendBlock_succeeds rfl encodeBlock_block payload_small)

/-- With any pool, the node takes the block in the first round, and in the second
    it finds nobody. -/
theorem run_vanishingPeer (m : Mempool) :
    ∃ pulls e, SyncRun "peer" .default vanishingPeer
      SyncWorkBudget.default.maxRoundsPerCall.toNat 0 (holding m) 0 0 pulls [block] (advanced m)
        (.error e) := by
  have hanswer : answerOf "peer" vanishingPeer 0 (holding m) =
      .ok ([block], UInt64.ofNat paymentResponse.length) :=
    pull_of_answer encode_peerAck rfl rfl rfl (by rw [paymentResponse_length]; decide)
      decode_paymentResponse _ _
  rw [paymentResponse_length] at hanswer
  have hlinked := (Blockchain.appendBlock_ok_sound
    (Blockchain.fromGenesis_sound fromGenesis_start) appendBlock_chain).1.linked.chain
  rw [blocks_chain] at hlinked
  have hlinear := validateLinearSyncBatch_of_isChain (c := start) rfl hlinked
  have hbatch : appendTaken .default vanishingPeer (holding m) 0 [block] =
      some (advanced m, 1, .ok false) := by
    have htake : [block].take (min [block].length
        (SyncWorkBudget.default.maxBlocksPerCall.toNat - 0)) = [block] := rfl
    unfold appendTaken
    rw [htake, NodeInner.appendBatch]
    simp only [vanishingPeer, persist_holding, Option.bind_eq_bind, Option.bind_some]
    rfl
  exact ⟨_, _, .next ⟨⟨by decide, by decide⟩, hanswer, List.cons_ne_nil _ _, hlinear⟩ hbatch
    (by decide) (by decide) (.unanswered ⟨by decide, by decide⟩ rfl)⟩

theorem sync_vanishingPeer (m : Mempool) :
    ∃ e, (holding m).syncFromPeerWithClock "peer" .default vanishingPeer =
      some (.error e, advanced m) := by
  rcases run_vanishingPeer m with ⟨pulls, e, hrun⟩
  exact ⟨e, sync_ran rfl (by decide) hrun⟩

/-- The payment is in the block that was appended, and it is in the pool behind
    the call. -/
theorem sync_leaves_payment :
    NodeReached genesis (holding oneWaiting) ∧
      ∃ e, (holding oneWaiting).syncFromPeerWithClock "peer" .default vanishingPeer =
          some (.error e, advanced oneWaiting) ∧
        (holding oneWaiting).chain.blocks.length < (advanced oneWaiting).chain.blocks.length ∧
        ¬ (advanced oneWaiting).pool.Fresh (advanced oneWaiting).chain.state := by
  rcases sync_vanishingPeer oneWaiting with ⟨e, he⟩
  refine ⟨reached_holding, e, he, ?_, ?_⟩
  · exact Nat.lt_of_lt_of_eq Nat.one_lt_two (congrArg List.length blocks_chain).symm
  intro hfresh
  have hin : oneWaiting.txs.lookup payment.txHash = some payment := by decide +kernel
  have hused : ¬ chain.state.nonce payment.sender ≤ payment.nonce.toNat := by decide +kernel
  exact hused (hfresh _ _ hin)

/-- The pool of the new node with the payment that comes after the one in the
    block. -/
def nextWaiting : Mempool :=
  (newNode.pool.perform (.trySubmit (paymentOf key 1))).2

/-- All that the peer brings is the block. -/
theorem pulls_vanishingPeer : PullsOnly (· = block) "peer" vanishingPeer := by
  intro round first g advisory bs nbytes hpull b hb
  cases round with
  | zero =>
      rcases pull_incoming hpull with ⟨ack, resp, rest, hack, hresp, hin, hdec⟩
      have hfits : paymentResponse.length ≤ maxWireFrameBytes := by
        rw [paymentResponse_length]
        decide
      -- The frames that were read are the two that the peer had sent.
      have hrest := (frameOnWire_append_inj (encodeSessionPayload_fits encode_peerAck) hack hin).2
      rw [← (frameOnWire_append_inj hfits hresp hrest).1, decode_paymentResponse,
        Except.ok.injEq] at hdec
      rw [← hdec] at hb
      exact List.mem_singleton.mp hb
  | succ round =>
      exact absurd hpull (by simp only [vanishingPeer, pullBlocksFromPeer, reduceCtorEq,
        not_false_eq_true])

/-- A payment with the next nonce may stay when the peer goes away. -/
theorem sync_cleans_nextWaiting :
    ∃ e, (holding nextWaiting).syncFromPeerWithClock "peer" .default vanishingPeer =
        some (.error e, advanced nextWaiting) ∧
      nextWaiting.cloneFifo = [paymentOf key 1] ∧
      (advanced nextWaiting).pool.Fresh (advanced nextWaiting).chain.state := by
  rcases sync_vanishingPeer nextWaiting with ⟨e, he⟩
  have hqueue : nextWaiting.cloneFifo = [paymentOf key 1] := by decide +kernel
  have hreached : NodeReached genesis (holding nextWaiting) :=
    .pool reached_newNode (.trySubmit (paymentOf key 1))
  have hmem : ∀ h tx, nextWaiting.txs.lookup h = some tx → tx = paymentOf key 1 := by
    intro h tx hin
    have hsound : nextWaiting.Sound := hreached.sound.2
    rw [← List.mem_singleton, ← hqueue, hsound.mem_cloneFifo, hsound.keyed h tx hin]
    exact hin
  refine ⟨e, he, hqueue, (sync_cleans_iff hreached "peer" .default vanishingPeer).2 ?_ ?_ _ _ he⟩
  · intro h tx hin
    rw [hmem h tx hin]
    decide
  · intro round first g advisory bs nbytes hpull b hb h tx hin t ht hsame
    rw [pulls_vanishingPeer round first g advisory bs nbytes hpull b hb] at ht
    rw [List.mem_singleton.mp ht, hmem h tx hin, Prod.mk.injEq] at hsame
    exact absurd hsame.2 (by decide)

/-- The call of that node keeps its budget. -/
theorem sync_safe_newNode :
    ∃ r n' new, newNode.syncFromPeerWithClock "peer" .default vanishingPeer = some (r, n') ∧
      n'.chain.blocks = newNode.chain.blocks ++ new ∧
      new.length ≤ SyncWorkBudget.default.maxBlocksPerCall.toNat := by
  have hbudget : validateSyncWorkBudget .default = .ok () := by decide
  rcases sync_safe reached_newNode "peer" hbudget vanishingPeer with
    ⟨r, n', hr, ⟨pulls, new, hsyncs⟩, hsafe⟩
  rcases hsafe pulls new hsyncs with ⟨_, hle, hblocks, _⟩
  exact ⟨r, n', new, hr, hblocks, hle⟩

end Sample

end Trilogicon
