import Mathlib.Logic.Function.Basic
import Trilogicon.Theory.NodeRun
import Trilogicon.Theory.Serve
import Trilogicon.Theory.Sync

/-!
# One Producer, Many Nodes

Any number of nodes start from a genesis and hear of the blocks of one chain,
the producer's. Blocks reach them as messages, in any order, lost or repeated,
or by catching up with the producer or with each other, and writes to their
files may fail. No node seals.

The nodes do not fork. Heights are positions in a chain, so of all blocks of the
producer only the one right after its own tip can be accepted by a node. What a
node has is a prefix of the producer's chain, and then all that it serves to
others are blocks of the producer.

A pull is answered by a node as it was when it was asked, so a call that takes
several rounds may see several states of its peer. These are states of systems
that can be reached; the same call may even see different peers.

## Main definitions

* `AnsweredBy`: All that a connection brings comes from a node.
* `Reached`: The systems that can be reached.

## Theorems

* `keeping_part`: Accepting a block of the producer keeps a prefix of its chain.
* `AnsweredBy.blocks`: A pull brings blocks of the node that answers.
* `Reached.follows`: In every reachable system each node has a prefix.
-/

namespace Trilogicon

section Agreement

variable [Primitives]

/-- Of the blocks of a chain, only the next one can be accepted by a chain that
    has a prefix of it. -/
theorem keeping_part {g : Genesis} {producer : Blockchain} (hp : Linked producer.blocks) :
    Keeping (fun c => c.Sound g ∧ c.blocks <+: producer.blocks) (· ∈ producer.blocks) := by
  intro c c' b hc hb happ
  rcases hc with ⟨hsound, hpart⟩
  rcases Blockchain.appendBlock_ok_sound hsound happ with ⟨hsound', hblocks⟩
  refine ⟨hsound', ?_⟩
  -- The new block is at the height of the first position the chain lacks.
  have hheight : b.height.toNat = c.blocks.length := by
    refine hsound'.linked.height_eq ?_
    rw [hblocks, List.getElem?_append_right (Nat.le_refl _), Nat.sub_self]
    rfl
  rcases List.getElem?_of_mem hb with ⟨i, hi⟩
  have hpos : i = c.blocks.length := (hp.height_eq hi).symm.trans hheight
  rw [hblocks]
  rcases hpart with ⟨rest, hrest⟩
  rw [hpos, ← hrest, List.getElem?_append_right (Nat.le_refl _), Nat.sub_self] at hi
  cases rest with
  | nil => exact absurd hi (by simp only [List.getElem?_nil, reduceCtorEq, not_false_eq_true])
  | cons b' rest =>
      rw [List.getElem?_cons_zero, Option.some.injEq] at hi
      exact ⟨rest, by rw [← hrest, hi, List.append_assoc, List.singleton_append]⟩

/-! ### Pulls -/

/-- All that a connection brings was sent by a node: at most a frame for the
    handshake and an answer to one request, and maybe less. -/
def AnsweredBy (server : NodeInner) (connection : Except IoError Stream) : Prop :=
  ∀ s, connection = .ok s → ∃ ack, ack.length ≤ maxWireFrameBytes ∧
    (s.incoming <+: frameOnWire ack ∨
      ∃ resp startHeight nowUnix k policy calls n' k',
        server.applyPredecoded (.getBlocks startHeight) nowUnix k policy calls =
          some (.ok (some resp), n', k') ∧
        s.incoming <+: frameOnWire ack ++ frameOnWire resp)

/-- A pull brings blocks of the node that answers. -/
theorem AnsweredBy.blocks {server : NodeInner} {connection : Except IoError Stream}
    (h : AnsweredBy server connection) {peer : String} {start advisory nbytes : UInt64}
    {g : Genesis} {bs : List Block}
    (hpull : pullBlocksFromPeer peer connection start g advisory = .ok (bs, nbytes)) :
    ∀ b ∈ bs, b ∈ server.chain.blocks := by
  rcases connection with e | s
  · rw [pullBlocksFromPeer] at hpull
    exact absurd hpull (by simp only [reduceCtorEq, not_false_eq_true])
  rcases pull_incoming hpull with ⟨ack', resp', rest, hack', hresp', hin, hdec⟩
  rcases h s rfl with ⟨ack, hack, ⟨more, hmore⟩ | ⟨resp, _, _, _, _, _, _, _, hans, more, hmore⟩⟩
  · -- There is nothing after the handshake.
    rw [hin, List.append_assoc, ← List.append_nil (frameOnWire ack)] at hmore
    have hrest := (frameOnWire_append_inj hack' hack hmore).2
    have hlen := congrArg List.length hrest
    rw [frameOnWire] at hlen
    simp only [List.length_append, beBytes_length, List.length_nil] at hlen
    omega
  · rcases getBlocks_answer hans with ⟨hresp, hblocks⟩
    rw [hin, List.append_assoc, List.append_assoc, ← List.append_nil (frameOnWire resp)] at hmore
    -- The frames are cut apart in one way, so this is the answer of the node.
    have hrest := (frameOnWire_append_inj hack' hack hmore).2
    rw [(frameOnWire_append_inj hresp' hresp hrest).1, hblocks, Except.ok.injEq] at hdec
    intro b hb
    rw [← hdec, Blockchain.blocksFromHeightLimited, if_neg (by decide)] at hb
    exact List.mem_of_mem_filter (List.mem_of_mem_take hb)

/-! ### Systems of nodes -/

variable {ι : Type} [DecidableEq ι]

/-- The systems that can be reached by nodes that start from a genesis, with the
    policy of the producer except for the limit on future drift, and then hear
    of its blocks. -/
inductive Reached (g : Genesis) (producer : Blockchain) : (ι → NodeInner) → Prop where
  | start {nodes : ι → NodeInner}
      (h : ∀ i, Started g none (nodes i) ∧ (nodes i).chain.consensus.minBlockIntervalSecs =
        producer.consensus.minBlockIntervalSecs) :
      Reached g producer nodes
  | message {nodes : ι → NodeInner} {i : ι} {n' : NodeInner} {m : InboundMessage}
      (h : Reached g producer nodes)
      (hm : ∀ b, predecodeInboundAppPayload m.payload = .ok (.block b) → b ∈ producer.blocks)
      (hrun : (nodes i).receive m = some n') :
      Reached g producer (Function.update nodes i n')
  | sync {nodes : ι → NodeInner} {i : ι} {n' : NodeInner} {peer : String}
      {budget : SyncWorkBudget} {w : SyncWorld} {r : Except String SyncFromPeerOutcome}
      {servers : Nat → NodeInner} {systems : Nat → ι → NodeInner}
      (h : Reached g producer nodes) (hsys : ∀ round, Reached g producer (systems round))
      (hserver : ∀ round, (servers round).chain = producer ∨
        ∃ j, servers round = systems round j)
      (hconn : ∀ round, AnsweredBy (servers round) (w.connection round))
      (hrun : (nodes i).syncFromPeerWithClock peer budget w = some (r, n')) :
      Reached g producer (Function.update nodes i n')

omit [DecidableEq ι] in
theorem Started.blocks_of_none {g : Genesis} {n : NodeInner} (h : Started g none n) :
    n.chain.blocks = [Block.genesis] := by
  rcases h with ⟨c, repaired, disk', s, params, capacity, hload, _, rfl⟩
  rcases load_found hload with ⟨bs, hread, hblocks, _⟩
  have hnil : readAllBlocksRepairingTail none = (.ok ([], false), none) := rfl
  rw [hnil, Prod.mk.injEq, Except.ok.injEq, Prod.mk.injEq] at hread
  rw [hblocks, ← hread.1.1]

/-- In every reachable system each node has a prefix of the producer's chain. -/
theorem Reached.follows {g : Genesis} {producer : Blockchain} (hp : producer.Sound g)
    {nodes : ι → NodeInner} (h : Reached g producer nodes) (i : ι) :
    (nodes i).Agrees g ∧ (nodes i).chain.Sound g ∧
      (nodes i).chain.blocks <+: producer.blocks := by
  induction h generalizing i with
  | start h =>
      have hagrees := (h i).1.agrees
      refine ⟨hagrees, hagrees.sound, ?_⟩
      -- At the start each node has the genesis block, which every chain begins with.
      rw [(h i).1.blocks_of_none, hp.linked.eq_cons]
      exact ⟨_, rfl⟩
  | @message nodes j n' m _ hm hrun ih =>
      rcases ih j with ⟨hagrees, hkept⟩
      rcases receive_moves hagrees hm with ⟨n₁, hn₁, hn', hmoves⟩
      rw [hrun, Option.some.injEq] at hn₁
      -- Only the node that received it can have moved.
      by_cases hi : i = j
      · rw [hi, Function.update_self, hn₁]
        exact ⟨hn', hmoves.keeps (keeping_part hp.linked) hkept⟩
      · rw [Function.update_of_ne hi]
        exact ih i
  | @sync nodes j n' peer budget w r servers systems _ _ hserver hconn hrun ih ihsys =>
      rcases ih j with ⟨hagrees, hkept⟩
      -- Whoever answers has only blocks of the producer.
      have hpulls : PullsOnly (· ∈ producer.blocks) peer w := by
        intro round start g' advisory bs nbytes hpull b hb
        have hmem := (hconn round).blocks hpull b hb
        rcases hserver round with heq | ⟨k, heq⟩
        · exact heq ▸ hmem
        · rw [heq] at hmem
          exact (ihsys round k).2.2.subset hmem
      rcases sync_moves hagrees budget hpulls with ⟨r₁, n₁, hn₁, hn', hmoves⟩
      rw [hrun, Option.some.injEq, Prod.mk.injEq] at hn₁
      by_cases hi : i = j
      · rw [hi, Function.update_self, hn₁.2]
        exact ⟨hn', hmoves.keeps (keeping_part hp.linked) hkept⟩
      · rw [Function.update_of_ne hi]
        exact ih i

/-- Nodes that hear of one producer agree. In every reachable system the blocks
    of each node are a prefix of the producer's, and its accounts are what these
    blocks produce; so of any two nodes one has a prefix of the other's chain. -/
theorem single_producer_agreement {g : Genesis} {params : ConsensusParams}
    {c₀ producer : Blockchain} {bs : List Block}
    (hgen : Blockchain.fromGenesisWithConsensus g params = .ok c₀)
    (hacc : Accepted c₀ bs producer) {nodes : ι → NodeInner} (h : Reached g producer nodes) :
    (∀ i, (nodes i).chain.blocks <+: producer.blocks ∧
      recomputeStateFromBlocks (nodes i).chain.blocks g = .ok (nodes i).chain.state) ∧
    ∀ i j, (nodes i).chain.blocks <+: (nodes j).chain.blocks ∨
      (nodes j).chain.blocks <+: (nodes i).chain.blocks := by
  have hp := (hacc.sound (Blockchain.fromGenesisWithConsensus_sound hgen)).1
  constructor
  · intro i
    rcases h.follows hp i with ⟨_, hsound, hpart⟩
    exact ⟨hpart, hsound.replay⟩
  · intro i j
    exact List.prefix_or_prefix_of_prefix (h.follows hp i).2.2 (h.follows hp j).2.2

end Agreement

namespace Sample

/-- The block with the payment, as a message. -/
def delivery : InboundMessage :=
  ⟨opBlock :: payload, 0, ⟨0, 0⟩, ⟨24, 8192⟩, .succeeds⟩

/-- Of two nodes one gets the block, and they agree. -/
theorem agreement_after_delivery :
    ∃ n', newNode.receive delivery = some n' ∧
      ∀ i j : Bool, (Function.update (fun _ => newNode) true n' i).chain.blocks <+:
          (Function.update (fun _ => newNode) true n' j).chain.blocks ∨
        (Function.update (fun _ => newNode) true n' j).chain.blocks <+:
          (Function.update (fun _ => newNode) true n' i).chain.blocks := by
  have hacc : Accepted start [block] chain := .cons appendBlock_chain (.nil chain)
  have hdecode : predecodeInboundAppPayload delivery.payload = .ok (.block block) := by
    simp only [delivery, predecodeInboundAppPayload, decodeBlock_ok_iff.mpr encodeBlock_block]
    rfl
  rcases receive_agrees started_newNode.agrees delivery with ⟨n', hn', _⟩
  refine ⟨n', hn', (single_producer_agreement fromGenesisWithConsensus_start hacc
    (Reached.message (.start fun _ => ⟨started_newNode, ?_⟩) ?_ hn')).2⟩
  · rw [consensus_chain]
    rfl
  · intro b hb
    rw [hdecode, Except.ok.injEq, PredecodedInbound.block.injEq] at hb
    rw [← hb, blocks_chain]
    exact List.mem_cons_of_mem _ List.mem_cons_self

end Sample

end Trilogicon
