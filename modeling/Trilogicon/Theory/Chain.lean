import Mathlib.Data.List.Chain
import Trilogicon.Core.Blockchain

/-!
# What Holds of Every Chain

The invariant of `Blockchain`, kept by every operation.

A chain is linked: it starts with the genesis block, and each later block
names its predecessor's hash, stands one height above it and passes its own
checks. A chain is also replayed: its account table is the one its blocks
produce from genesis. Both hold at the start, survive each operation whether
it succeeds or fails, and so hold of every chain that is ever built.

Heights count as natural numbers here. The word after the largest height is
zero, and a block of height zero has to name the hash `GENESIS`, which is no
block's hash.

## Main definitions

* `Follows`: One block extends another.
* `Linked`: A list of blocks is a chain from the genesis block.
* `Blockchain.Sound`: Linked, with the table its blocks produce.
* `ChainOp`: The operations on a chain.
* `Reachable`: Built from a genesis by operations.

## Theorems

* `Linked.height_eq`: A block's height is its index.
* `Linked.of_prefix`: Cutting a chain back leaves a chain.
* `appendBlock_sound`: Appending keeps the invariant.
* `ChainOp.run_sound`: Every operation keeps the invariant.
* `Reachable.sound`: Every reachable chain satisfies it.
-/

namespace Trilogicon

section Invariant

variable [Primitives]

/-- Block `b` extends block `a`. -/
structure Follows (a b : Block) : Prop where
  height : b.height.toNat = a.height.toNat + 1
  previous : b.previousHash = a.blockHash
  time : a.timestampUnix ≤ b.timestampUnix
  valid : b.Valid

/-- The blocks form a chain from the genesis block. -/
structure Linked (blocks : List Block) : Prop where
  head : blocks.head? = some Block.genesis
  chain : blocks.IsChain Follows

namespace Linked

theorem genesis : Linked [Block.genesis] :=
  ⟨rfl, List.IsChain.singleton _⟩

theorem ne_nil {blocks : List Block} (h : Linked blocks) : blocks ≠ [] := by
  intro hnil
  have hhead := h.head
  rw [hnil] at hhead
  exact absurd hhead (by simp only [List.head?_nil, reduceCtorEq, not_false_eq_true])

theorem eq_cons {blocks : List Block} (h : Linked blocks) :
    blocks = Block.genesis :: blocks.drop 1 := by
  cases blocks with
  | nil => exact absurd rfl h.ne_nil
  | cons b rest =>
      have hhead := h.head
      rw [List.head?_cons, Option.some.injEq] at hhead
      rw [hhead, List.drop_one, List.tail_cons]

/-- Cutting a chain back leaves a chain. -/
theorem of_prefix {blocks pre : List Block} (h : Linked blocks) (hp : pre <+: blocks)
    (hne : pre ≠ []) : Linked pre := by
  refine ⟨?_, h.chain.prefix hp⟩
  rcases hp with ⟨post, rfl⟩
  rw [← h.head, List.head?_append_of_ne_nil _ hne]

theorem snoc {blocks : List Block} (h : Linked blocks) {tip b : Block}
    (htip : blocks.getLast? = some tip) (hb : Follows tip b) : Linked (blocks ++ [b]) := by
  refine ⟨?_, ?_⟩
  · rw [List.head?_append_of_ne_nil _ h.ne_nil, h.head]
  · refine h.chain.append (List.IsChain.singleton b) ?_
    intro x hx y hy
    rw [htip, Option.mem_some_iff] at hx
    rw [List.head?_cons, Option.mem_some_iff] at hy
    rw [← hx, ← hy]
    exact hb

theorem follows_getElem {blocks : List Block} (h : Linked blocks) {i : Nat} {a b : Block}
    (ha : blocks[i]? = some a) (hb : blocks[i + 1]? = some b) : Follows a b := by
  rcases List.getElem?_eq_some_iff.mp ha with ⟨hi, rfl⟩
  rcases List.getElem?_eq_some_iff.mp hb with ⟨hi', rfl⟩
  exact List.isChain_iff_getElem.mp h.chain i hi'

/-- A chain that is more than the genesis block ends in a block that follows
    the tip of the rest. -/
theorem last_follows {pre : List Block} {b : Block} (h : Linked (pre ++ [b]))
    (hne : pre ≠ []) : ∃ tip, pre.getLast? = some tip ∧ Follows tip b := by
  refine ⟨pre.getLast hne, List.getLast?_eq_some_getLast hne, ?_⟩
  refine (List.isChain_append.mp h.chain).2.2 _ ?_ b rfl
  rw [List.getLast?_eq_some_getLast hne]
  rfl

/-- What comes after a part of a chain extends its tip. -/
theorem chain_after {pre rest : List Block} (h : Linked (pre ++ rest)) {tip : Block}
    (htip : pre.getLast? = some tip) : (tip :: rest).IsChain Follows := by
  rcases List.getLast?_eq_some_iff.mp htip with ⟨init, rfl⟩
  have hchain := h.chain
  rw [List.append_assoc, List.singleton_append] at hchain
  exact hchain.right_of_append

/-- A block's height is its index. -/
theorem height_eq {blocks : List Block} (h : Linked blocks) {i : Nat} {b : Block}
    (hb : blocks[i]? = some b) : b.height.toNat = i := by
  induction i generalizing b with
  | zero =>
      rw [← List.head?_eq_getElem?, h.head, Option.some.injEq] at hb
      rw [← hb]
      rfl
  | succ i ih =>
      have hlt : i < blocks.length := by
        have := (List.getElem?_eq_some_iff.mp hb).1
        omega
      have ha : blocks[i]? = some blocks[i] := List.getElem?_eq_getElem hlt
      rw [(h.follows_getElem ha hb).height, ih ha]

/-- A block above the genesis block passed its checks. -/
theorem valid_of_mem {blocks : List Block} (h : Linked blocks) {b : Block}
    (hb : b ∈ blocks.drop 1) : b.Valid := by
  rcases List.getElem?_of_mem hb with ⟨i, hi⟩
  rw [List.getElem?_drop, Nat.add_comm] at hi
  have hlt : i < blocks.length := by
    have := (List.getElem?_eq_some_iff.mp hi).1
    omega
  exact (h.follows_getElem (List.getElem?_eq_getElem hlt) hi).valid

theorem hash_ne {blocks : List Block} (h : Linked blocks) {b : Block} (hb : b ∈ blocks) :
    b.blockHash ≠ "GENESIS" := by
  rw [h.eq_cons, List.mem_cons] at hb
  rcases hb with rfl | hb
  · decide
  · intro hc
    have hlen := Crypto.hashBytes_length b.headerPreimageBytes
    rw [← Block.computeBlockHash, ← (h.valid_of_mem hb).hash, hc] at hlen
    exact absurd hlen (by decide)

theorem hash_not_blank {blocks : List Block} (h : Linked blocks) {b : Block} (hb : b ∈ blocks) :
    trim b.blockHash ≠ "" := by
  rw [h.eq_cons, List.mem_cons] at hb
  rcases hb with rfl | hb
  · decide
  · rw [(h.valid_of_mem hb).hash]
    exact Crypto.hashBytes_not_blank _

end Linked

namespace Blockchain

/-- The chain is linked, and its table is the one its blocks produce. -/
structure Sound (g : Genesis) (c : Blockchain) : Prop where
  linked : Linked c.blocks
  replay : recomputeStateFromBlocks c.blocks g = .ok c.state

/-- The blocks and the policy determine a sound chain. -/
theorem Sound.ext {g : Genesis} {c c' : Blockchain} (h : c.Sound g) (h' : c'.Sound g)
    (hblocks : c.blocks = c'.blocks) (hpolicy : c.consensus = c'.consensus) : c = c' := by
  have hstate : c.state = c'.state := by
    have hreplay := h.replay
    rw [hblocks, h'.replay, Except.ok.injEq] at hreplay
    exact hreplay.symm
  cases c
  cases c'
  simp only at hblocks hstate hpolicy
  rw [hblocks, hstate, hpolicy]

/-- Heights are positions, so the height of the chain is that of its last
    block. -/
theorem height_eq_length {c : Blockchain} (hl : Linked c.blocks) :
    c.height.toNat + 1 = c.blocks.length := by
  have hpos := List.length_pos_iff.mpr hl.ne_nil
  have hlt : c.blocks.length - 1 < c.blocks.length := by omega
  have htip := List.getElem?_eq_getElem hlt
  rw [height, List.getLast?_eq_getElem?, htip, Option.map_some, Option.getD_some,
    hl.height_eq htip]
  omega

/-- An accepted block extends the tip. Its height cannot be the wrapped one:
    at height zero it would have to name `GENESIS` as its predecessor. -/
theorem follows_of_append {c c' : Blockchain} {b tip : Block} (hl : Linked c.blocks)
    (h : c.appendBlock b = (.ok (), c')) (htip : c.blocks.getLast? = some tip) :
    Follows tip b := by
  rcases (appendBlock_ok_iff c c' b).mp h with ⟨hv, tip', htip', hheight, hprev, htime, _⟩
  rw [htip, Option.some.injEq] at htip'
  rw [← htip'] at hheight hprev htime
  -- The hash of the tip is not the name that a block at height zero gives.
  have hzero : b.height ≠ 0 := by
    intro hz
    have hname := (Block.basicValidate_ok_of_height_zero b hz hv).1
    exact hl.hash_ne (List.mem_of_getLast? htip) (hprev.symm.trans hname)
  refine ⟨?_, hprev, validateBlockTimestampsVsParent_le htime,
    (Block.basicValidate_ok_iff_of_height b hzero).mp hv⟩
  -- A height that is not zero did not wrap.
  have hlt := tip.height.toNat_lt
  have hnat : b.height.toNat ≠ 0 := by
    intro hc
    exact hzero (UInt64.toNat_inj.mp hc)
  rw [hheight, UInt64.toNat_add, UInt64.toNat_one] at hnat ⊢
  omega

/-- A block that follows the tip is accepted under the default policy. -/
theorem appendBlock_of_follows {c : Blockchain} {tip b : Block} {next : State}
    (htip : c.blocks.getLast? = some tip) (hfol : Follows tip b)
    (hpolicy : c.consensus = .default) (hnext : c.state.applyAll b.transactions = .ok next) :
    c.appendBlock b = (.ok (), { c with state := next, blocks := c.blocks ++ [b] }) := by
  have hheight := hfol.height
  have hlt := b.height.toNat_lt
  have hzero : b.height ≠ 0 := by
    intro hc
    rw [hc] at hheight
    exact absurd hheight (Nat.succ_ne_zero _).symm
  refine (appendBlock_ok_iff _ _ _).mpr
    ⟨(Block.basicValidate_ok_iff_of_height b hzero).mpr hfol.valid, tip, htip, ?_, hfol.previous,
      ?_, next, hnext, rfl⟩
  · rw [← UInt64.toNat_inj, UInt64.toNat_add, UInt64.toNat_one]
    omega
  · rw [hpolicy]
    exact validateBlockTimestampsVsParent_default hfol.time

theorem recompute_snoc {blocks : List Block} {g : Genesis} {s s' : State} {b : Block}
    (hne : blocks ≠ []) (hs : recomputeStateFromBlocks blocks g = .ok s)
    (hb : s.applyAll b.transactions = .ok s') :
    recomputeStateFromBlocks (blocks ++ [b]) g = .ok s' := by
  rcases bind_ok_iff.mp hs with ⟨s₀, hg, hblocks⟩
  refine bind_ok_iff.mpr ⟨s₀, hg, ?_⟩
  rw [List.drop_append_of_le_length (List.length_pos_iff.mpr hne), applyBlocks_append_ok_iff]
  exact ⟨s, hblocks, by rw [applyBlocks_singleton, hb]⟩

theorem recompute_prefix {blocks pre : List Block} {g : Genesis} {s : State}
    (hs : recomputeStateFromBlocks blocks g = .ok s) (hp : pre <+: blocks) (hne : pre ≠ []) :
    ∃ t, recomputeStateFromBlocks pre g = .ok t := by
  rcases hp with ⟨post, rfl⟩
  rcases bind_ok_iff.mp hs with ⟨s₀, hg, hblocks⟩
  rw [List.drop_append_of_le_length (List.length_pos_iff.mpr hne), applyBlocks_append_ok_iff]
    at hblocks
  rcases hblocks with ⟨t, ht, _⟩
  exact ⟨t, bind_ok_iff.mpr ⟨s₀, hg, ht⟩⟩

/-- The table of a longer chain is the one that the new blocks make. -/
theorem Sound.applyBlocks_new {g : Genesis} {c c' : Blockchain} (h : c.Sound g) (h' : c'.Sound g)
    {new : List Block} (hblocks : c'.blocks = c.blocks ++ new) :
    applyBlocks c.state new = .ok c'.state := by
  rcases bind_ok_iff.mp h.replay with ⟨s₀, hg, hs⟩
  rcases bind_ok_iff.mp h'.replay with ⟨s₀', hg', hs'⟩
  rw [hg, Except.ok.injEq] at hg'
  -- The replay of the longer chain comes through the table of the shorter one.
  rw [← hg', hblocks, List.drop_append_of_le_length (List.length_pos_iff.mpr h.linked.ne_nil),
    applyBlocks_append_ok_iff] at hs'
  rcases hs' with ⟨t, ht, hnew⟩
  rw [hs, Except.ok.injEq] at ht
  rw [ht]
  exact hnew

theorem fromGenesis_sound {g : Genesis} {c : Blockchain} (h : fromGenesis g = .ok c) :
    Sound g c := by
  rcases bind_ok_iff.mp h with ⟨s, hs, heq⟩
  rw [← Except.ok.inj heq]
  exact ⟨Linked.genesis, bind_ok_iff.mpr ⟨s, hs, rfl⟩⟩

theorem fromGenesisWithConsensus_sound {g : Genesis} {params : ConsensusParams} {c : Blockchain}
    (h : fromGenesisWithConsensus g params = .ok c) : Sound g c := by
  rcases bind_ok_iff.mp h with ⟨c₀, hc₀, heq⟩
  rw [← Except.ok.inj heq]
  exact ⟨(fromGenesis_sound hc₀).linked, (fromGenesis_sound hc₀).replay⟩

theorem appendBlock_ok_sound {g : Genesis} {c c' : Blockchain} {b : Block} (hs : Sound g c)
    (h : c.appendBlock b = (.ok (), c')) : Sound g c' ∧ c'.blocks = c.blocks ++ [b] := by
  rcases (appendBlock_ok_iff c c' b).mp h with ⟨_, tip, htip, _, _, _, next, hnext, rfl⟩
  exact ⟨⟨hs.linked.snoc htip (follows_of_append hs.linked h htip),
    recompute_snoc hs.linked.ne_nil hs.replay hnext⟩, rfl⟩

/-- Appending keeps the invariant, whether the block is accepted or not. -/
theorem appendBlock_sound {g : Genesis} {c : Blockchain} (hs : Sound g c) (b : Block) :
    Sound g (c.appendBlock b).2 := by
  rcases (appendBlock_keeps c b).cases with ⟨e, h⟩ | ⟨_, c', h⟩
  · rw [h]
    exact hs
  · rw [h]
    exact (appendBlock_ok_sound hs h).1

theorem tryAppendNetworkBlock_cases (c : Blockchain) (b : Block) (now : UInt64) :
    (∃ e, c.tryAppendNetworkBlock b now = (.error e, c)) ∨
      ∃ c', c.appendBlock b = (.ok (), c') ∧ c.tryAppendNetworkBlock b now = (.ok (), c') := by
  rw [tryAppendNetworkBlock]
  cases validateBlockVsLocalTime b.timestampUnix now c.consensus.maxFutureDriftSecs with
  | error e => exact Or.inl ⟨e, rfl⟩
  | ok _ =>
      rcases (appendBlock_keeps c b).cases with ⟨e, h⟩ | ⟨_, c', h⟩
      · exact Or.inl ⟨e, h⟩
      · exact Or.inr ⟨c', h, h⟩

/-- Under the default policy the clock decides nothing. -/
theorem tryAppendNetworkBlock_default {c : Blockchain} (h : c.consensus = .default) (b : Block)
    (now : UInt64) : c.tryAppendNetworkBlock b now = c.appendBlock b := by
  rw [tryAppendNetworkBlock, h, validateBlockVsLocalTime_default]
  rfl

/-- A seal does nothing, or appends a block of at most as many transactions
    as it was allowed. -/
theorem pendingRemoval_cases (c : Blockchain) (m : Mempool) (max : Nat) (ts : UInt64) :
    (∃ e, c.appendBlockFromMempoolPendingRemoval m max ts = (.error e, c)) ∨
      c.appendBlockFromMempoolPendingRemoval m max ts = (.ok none, c) ∨
      ∃ b c', c.appendBlock b = (.ok (), c') ∧ b.transactions.length ≤ max ∧
        c.appendBlockFromMempoolPendingRemoval m max ts =
          (.ok (some (b.transactions.map Transaction.txHash)), c') := by
  rw [appendBlockFromMempoolPendingRemoval]
  cases hsel : m.orderedCandidatesForSeal c.state max with
  | error e => exact Or.inl ⟨e, rfl⟩
  | ok txs =>
      rw [attempt]
      by_cases hempty : txs = []
      · rw [if_pos hempty]
        exact Or.inr (Or.inl rfl)
      · rw [if_neg hempty]
        cases c.blocks.getLast? with
        | none => exact Or.inl ⟨_, rfl⟩
        | some tip =>
            -- The block was built from the tip, but it may still be refused.
            rw [okOr]
            rcases (appendBlock_keeps c (sealedBlock tip ts txs)).cases with ⟨e, h⟩ | ⟨_, c', h⟩
            · exact Or.inl ⟨e, by rw [h]⟩
            · exact Or.inr (Or.inr ⟨_, c', h, (Mempool.orderedCandidatesForSeal_ok hsel).2,
                by rw [h]; rfl⟩)

theorem rollbackLastBlock_sound {g : Genesis} {c : Blockchain} (hs : Sound g c) :
    Sound g (c.rollbackLastBlock g).2 := by
  rw [rollbackLastBlock]
  by_cases hshort : c.blocks.length ≤ 1
  · rw [if_pos hshort]
    exact hs
  · rw [if_neg hshort, rebuildStateFromGenesis]
    have hne : c.blocks.dropLast ≠ [] := by
      rw [← List.length_pos_iff, List.length_dropLast]
      omega
    rcases recompute_prefix hs.replay (List.dropLast_prefix _) hne with ⟨t, ht⟩
    simp only [ht, attempt]
    exact ⟨hs.linked.of_prefix (List.dropLast_prefix _) hne, ht⟩

/-- Rolling back the block just appended gives back the chain. -/
theorem rollbackLastBlock_append {g : Genesis} {c c' : Blockchain} {b : Block} (hs : Sound g c)
    (h : c.appendBlock b = (.ok (), c')) : c'.rollbackLastBlock g = (.ok (), c) := by
  rcases (appendBlock_ok_iff c c' b).mp h with ⟨_, _, _, _, _, _, next, _, rfl⟩
  have hlen : ¬ (c.blocks ++ [b]).length ≤ 1 := by
    have := List.length_pos_iff.mpr hs.linked.ne_nil
    rw [List.length_append, List.length_singleton]
    omega
  rw [rollbackLastBlock, if_neg hlen, rebuildStateFromGenesis]
  simp only [List.dropLast_concat, hs.replay, attempt]

theorem rollbackToHeight_sound {g : Genesis} {c : Blockchain} (hs : Sound g c)
    (target : UInt64) : Sound g (c.rollbackToHeight target g).2 := by
  rw [rollbackToHeight]
  by_cases habove : c.height < target
  · rw [if_pos habove]
    exact hs
  · rw [if_neg habove]
    have hpre : (c.blocks.rdropWhile fun b => target < b.height) <+: c.blocks :=
      List.rdropWhile_prefix _ _
    -- The genesis block has height zero and is never dropped.
    have hne : (c.blocks.rdropWhile fun b => target < b.height) ≠ [] := by
      intro hnil
      rw [List.rdropWhile_eq_nil_iff] at hnil
      have hg := hnil Block.genesis (by rw [hs.linked.eq_cons]; exact List.mem_cons_self)
      rw [decide_eq_true_eq, UInt64.lt_iff_toNat_lt] at hg
      exact absurd hg (Nat.not_lt_zero _)
    rcases recompute_prefix hs.replay hpre hne with ⟨t, ht⟩
    simp only [ht, attempt]
    exact ⟨hs.linked.of_prefix hpre hne, ht⟩

end Blockchain

/-- The operations on a chain. A pool is given anew for each seal. -/
inductive ChainOp where
  | append (b : Block)
  | network (b : Block) (nowUnix : UInt64)
  | mempool (m : Mempool) (maxTransactions : Nat) (timestampUnix : UInt64)
  | rollbackLast
  | rollbackTo (targetHeight : UInt64)

/-- The chain an operation leaves, whether it succeeds or fails. -/
def ChainOp.run (g : Genesis) (c : Blockchain) : ChainOp → Blockchain
  | .append b => (c.appendBlock b).2
  | .network b nowUnix => (c.tryAppendNetworkBlock b nowUnix).2
  | .mempool m maxTransactions timestampUnix =>
      (c.appendBlockFromMempool m maxTransactions timestampUnix).2.1
  | .rollbackLast => (c.rollbackLastBlock g).2
  | .rollbackTo targetHeight => (c.rollbackToHeight targetHeight g).2

theorem Blockchain.appendBlockFromMempool_chain (c : Blockchain) (m : Mempool) (max : Nat)
    (ts : UInt64) : (c.appendBlockFromMempool m max ts).2.1 =
      (c.appendBlockFromMempoolPendingRemoval m max ts).2 := by
  rw [appendBlockFromMempool]
  rcases c.appendBlockFromMempoolPendingRemoval m max ts with ⟨e | (_ | hashes), c'⟩
  · rfl
  · rfl
  · rfl

/-- Every operation keeps the invariant. -/
theorem ChainOp.run_sound {g : Genesis} {c : Blockchain} (hs : c.Sound g) (op : ChainOp) :
    (op.run g c).Sound g := by
  cases op with
  | append b => exact Blockchain.appendBlock_sound hs b
  | network b now =>
      rcases c.tryAppendNetworkBlock_cases b now with ⟨e, h⟩ | ⟨c', happ, h⟩
      · rw [run, h]
        exact hs
      · rw [run, h]
        exact (Blockchain.appendBlock_ok_sound hs happ).1
  | mempool m max ts =>
      rw [run, Blockchain.appendBlockFromMempool_chain]
      -- A seal is an append of the block that it made, or nothing.
      rcases c.pendingRemoval_cases m max ts with ⟨e, h⟩ | h | ⟨b, c', happ, _, h⟩
      · rw [h]
        exact hs
      · rw [h]
        exact hs
      · rw [h]
        exact (Blockchain.appendBlock_ok_sound hs happ).1
  | rollbackLast => exact Blockchain.rollbackLastBlock_sound hs
  | rollbackTo target => exact Blockchain.rollbackToHeight_sound hs target

/-- The chain is built from the genesis by operations, under some timestamp
    policy. -/
def Reachable (g : Genesis) (c : Blockchain) : Prop :=
  ∃ params c₀ ops, Blockchain.fromGenesisWithConsensus g params = .ok c₀ ∧
    c = List.foldl (ChainOp.run g) c₀ ops

/-- Every reachable chain satisfies the invariant. -/
theorem Reachable.sound {g : Genesis} {c : Blockchain} (h : Reachable g c) : c.Sound g := by
  rcases h with ⟨params, c₀, ops, h₀, rfl⟩
  exact List.foldlRecOn ops _ (Blockchain.fromGenesisWithConsensus_sound h₀)
    fun _ hs op _ => ChainOp.run_sound hs op

end Invariant

/-! ### A sample chain

A chain of one payment, under stand-ins for the primitives. It shows that the
hypotheses of the theorems about reachable chains can be met. -/

namespace Sample

/-- The digest is the end of the payload, and every signature verifies. -/
scoped instance primitives : Primitives where
  sha256 p := ⟨(p.reverse ++ List.replicate 32 0).take 32, by
    rw [List.length_take, List.length_append, List.length_replicate]
    omega⟩
  verifyingKeyFromBytes _ := true
  verify _ _ _ := true

/-- The key of the only account. -/
def key : Bytes :=
  List.replicate 32 7

/-- The only account. -/
def payer : Address :=
  ⟨Crypto.addressFromPublicKey key⟩

/-- The account starts with a thousand units. -/
def genesis : Genesis :=
  { allocations := [⟨payer.value, 1000⟩] }

/-- A payment of five units, with a fee of one. -/
def payment : Transaction :=
  let tx : Transaction :=
    { sender := payer, receiver := ⟨"receiver"⟩, amount := 5, fee := 1, nonce := 0,
      timestampUnix := 0, publicKey := key, signature := List.replicate 64 0, txHash := "" }
  { tx with txHash := tx.computeTxHash }

/-- The block with that payment. -/
def block : Block :=
  Blockchain.sealedBlock Block.genesis 0 [payment]

/-- The chain before the payment. -/
def start : Blockchain :=
  { blocks := [Block.genesis], state := State.new.insertPairs genesis.pairs,
    consensus := .default }

/-- The chain with the payment. -/
def chain : Blockchain :=
  (start.appendBlock block).2

theorem sortedPairs_genesis : genesis.sortedPairs = .ok genesis.pairs := by
  decide

theorem fromGenesis_start : Blockchain.fromGenesis genesis = .ok start := by
  rw [Blockchain.fromGenesis, State.fromGenesis, sortedPairs_genesis]
  rfl

theorem appendBlock_chain : start.appendBlock block = (.ok (), chain) := by
  have hok : (start.appendBlock block).1 = .ok () := by decide +kernel
  rw [← Prod.mk.eta (p := start.appendBlock block), hok, chain]

theorem blocks_chain : chain.blocks = [Block.genesis, block] := by
  rcases (Blockchain.appendBlock_ok_iff start chain block).mp appendBlock_chain with
    ⟨_, _, _, _, _, _, _, _, hchain⟩
  rw [hchain]
  rfl

theorem consensus_chain : chain.consensus = .default := by
  rcases (Blockchain.appendBlock_ok_iff start chain block).mp appendBlock_chain with
    ⟨_, _, _, _, _, _, _, _, hchain⟩
  rw [hchain]
  rfl

theorem fromGenesisWithConsensus_start :
    Blockchain.fromGenesisWithConsensus genesis .default = .ok start := by
  rw [Blockchain.fromGenesisWithConsensus, fromGenesis_start]
  rfl

theorem reachable_chain : Reachable genesis chain := by
  refine ⟨.default, start, [.append block], fromGenesisWithConsensus_start, ?_⟩
  rw [List.foldl_cons, List.foldl_nil, ChainOp.run, chain]

/-- The key of a second account. -/
def otherKey : Bytes :=
  List.replicate 32 9

/-- A ledger with both accounts. -/
def sharedGenesis : Genesis :=
  { allocations := [⟨payer.value, 1000⟩, ⟨Crypto.addressFromPublicKey otherKey, 1000⟩] }

/-- The payment of the account with a key that has a nonce. -/
def paymentOf (key : Bytes) (nonce : UInt64) : Transaction :=
  let tx : Transaction :=
    { payment with sender := ⟨Crypto.addressFromPublicKey key⟩, publicKey := key, nonce := nonce }
  { tx with txHash := tx.computeTxHash }

/-- The chain of that ledger with the genesis block only. -/
def sharedStart : Blockchain :=
  { blocks := [Block.genesis], state := State.new.insertPairs sharedGenesis.pairs,
    consensus := .default }

theorem fromGenesis_sharedStart : Blockchain.fromGenesis sharedGenesis = .ok sharedStart := by
  have hsorted : sharedGenesis.sortedPairs = .ok sharedGenesis.pairs := by decide
  rw [Blockchain.fromGenesis, State.fromGenesis, hsorted]
  rfl

theorem fromGenesisWithConsensus_sharedStart :
    Blockchain.fromGenesisWithConsensus sharedGenesis .default = .ok sharedStart := by
  rw [Blockchain.fromGenesisWithConsensus, fromGenesis_sharedStart]
  rfl

theorem reachable_sharedStart : Reachable sharedGenesis sharedStart :=
  ⟨.default, sharedStart, [], fromGenesisWithConsensus_sharedStart, rfl⟩

end Sample

end Trilogicon
