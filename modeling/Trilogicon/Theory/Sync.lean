import Trilogicon.Core.Node
import Trilogicon.Theory.Binding

/-!
# Rounds of Catching Up

What one round of `sync_from_peer` comes to when nothing goes wrong: the
handshake, the question and the answer are a pull of the blocks in the answer,
and a round that brings blocks is a step of the node.

## Theorems

* `validateSyncWorkBudget_ok`: What an accepted budget leaves room for.
* `pull_of_answer`: A pull from a peer that answers.
* `pull_incoming`: What a successful pull has read.
* `checkLinear_of_isChain`: Blocks that extend the tip are linear.
* `syncRounds_empty`: A round that brings nothing.
* `syncRounds_batch`: A round that brings blocks.
* `syncRounds_single`: A round that brings one block.
-/

namespace Trilogicon

/-- An accepted budget leaves room for a round and a block. -/
theorem validateSyncWorkBudget_ok {budget : SyncWorkBudget}
    (h : validateSyncWorkBudget budget = .ok ()) :
    0 < budget.maxRoundsPerCall.toNat ∧ 0 < budget.maxBlocksPerCall.toNat ∧
      0 < budget.maxWireBytesPerCall := by
  simp only [validateSyncWorkBudget, ite_error_ok_iff, and_true] at h
  rcases h with ⟨hrounds, hblocks, hwire⟩
  refine ⟨?_, ?_, ?_⟩
  · exact Nat.pos_of_ne_zero fun hc => hrounds (UInt32.toNat_inj.mp hc)
  · exact Nat.pos_of_ne_zero fun hc => hblocks (UInt32.toNat_inj.mp hc)
  · rw [UInt64.lt_iff_toNat_lt]
    exact Nat.pos_of_ne_zero fun hc => hwire (UInt64.toNat_inj.mp hc)

section Sync

variable [Primitives]

/-- A pull from a peer with the same commitment that answers with blocks. -/
theorem pull_of_answer {peer : String} {s : Stream} {g g' : Genesis} {h' : UInt64}
    {ack resp rest : Bytes} {bs : List Block}
    (hack : encodeSessionPayload opSessionHelloAck g' h' = .ok ack)
    (hsame : g.stateCommitmentHex = g'.stateCommitmentHex) (hw : s.writes = [])
    (hin : s.incoming = frameOnWire ack ++ (frameOnWire resp ++ rest))
    (hfits : resp.length ≤ maxWireFrameBytes) (hresp : wireDecodeBlocksResponse resp = .ok bs)
    (startHeight h : UInt64) :
    pullBlocksFromPeer peer (.ok s) startHeight g h = .ok (bs, UInt64.ofNat resp.length) := by
  rcases handshakeInitiator_of_ack hack hsame hw hin h with ⟨sent, hshake⟩
  have hask : (wireEncodeGetBlocks startHeight).length ≤ maxWireFrameBytes := by
    rw [wireEncodeGetBlocks, List.length_cons, beBytes_length]
    decide
  have hwrite := writeFramed_of_writes_nil
    (s := { s with incoming := frameOnWire resp ++ rest, sent := sent }) hask hw
  have hread : readFramed { s with
      incoming := frameOnWire resp ++ rest
      sent := sent ++ frameOnWire (wireEncodeGetBlocks startHeight) } = (.ok resp, _) :=
    readFramed_ok_iff.mpr ⟨hfits, rest, rfl, rfl⟩
  simp only [pullBlocksFromPeer, hshake, hwrite, hread, hresp]
  rfl

/-- What a successful pull has read: a frame in the handshake, and the answer. -/
theorem pull_incoming {peer : String} {s : Stream} {g : Genesis} {startHeight h nbytes : UInt64}
    {bs : List Block}
    (hpull : pullBlocksFromPeer peer (.ok s) startHeight g h = .ok (bs, nbytes)) :
    ∃ ack resp rest, ack.length ≤ maxWireFrameBytes ∧ resp.length ≤ maxWireFrameBytes ∧
      s.incoming = frameOnWire ack ++ (frameOnWire resp ++ rest) ∧
      wireDecodeBlocksResponse resp = .ok bs := by
  rw [pullBlocksFromPeer] at hpull
  -- Each step of the pull succeeded.
  rcases hshake : handshakeInitiator s g h with ⟨e | _, s₂⟩
  · simp only [hshake, reduceCtorEq] at hpull
  rcases hwrite : writeFramed s₂ (wireEncodeGetBlocks startHeight) with ⟨e | _, s₃⟩
  · simp only [hshake, hwrite, reduceCtorEq] at hpull
  rcases hread : readFramed s₃ with ⟨e | resp, s₄⟩
  · simp only [hshake, hwrite, hread, reduceCtorEq] at hpull
  simp only [hshake, hwrite, hread, bind_ok_iff, Except.ok.injEq, Prod.mk.injEq] at hpull
  rcases hpull with ⟨_, hdec, rfl, _⟩
  rcases handshakeInitiator_ok_iff.mp hshake with ⟨_, s₁, ack, _, hhello, hack, _⟩
  rcases readFramed_ok_iff.mp hack with ⟨hackmax, rest₁, hin₁, rfl⟩
  rcases readFramed_ok_iff.mp hread with ⟨hrespmax, rest, hin₃, _⟩
  refine ⟨ack, resp, rest, hackmax, hrespmax, ?_, hdec⟩
  -- The writes do not change what is there to be read.
  rw [← (writeFramed_ok hhello).2.2.1, hin₁, ← hin₃, (writeFramed_ok hwrite).2.2.1]

/-- Blocks that extend each other from the tip on are linear. -/
theorem checkLinear_of_isChain {tip : Block} {bs : List Block}
    (h : (tip :: bs).IsChain Follows) (i : Nat) :
    checkLinear i (saturatingSucc tip.height) tip.blockHash bs = .ok () := by
  induction bs generalizing tip i with
  | nil => rfl
  | cons b bs ih =>
      rw [List.isChain_cons_cons] at h
      rcases h with ⟨hb, hrest⟩
      -- A height that is one more than another is not zero, and the sum is not cut off.
      have hlt := b.height.toNat_lt
      have hheight := hb.height
      have hzero : b.height ≠ 0 := by
        intro hc
        rw [hc, UInt64.toNat_zero] at hheight
        omega
      have hnext : b.height = saturatingSucc tip.height := by
        rw [← UInt64.toNat_inj, saturatingSucc, saturatingAdd_toNat, hheight, UInt64.toNat_one]
        omega
      have hvalid := (b.basicValidate_ok_iff_of_height hzero).mpr hb.valid
      simp only [checkLinear, then_ok_iff, mapError_ok_iff, hvalid, true_and]
      rw [if_neg (not_not.mpr hnext), if_neg (not_not.mpr hb.previous), ← hnext]
      exact ih hrest (i + 1)

theorem validateLinearSyncBatch_of_isChain {c : Blockchain} {tip : Block} {bs : List Block}
    (htip : c.blocks.getLast? = some tip) (h : (tip :: bs).IsChain Follows) :
    validateLinearSyncBatch c bs = .ok () := by
  rw [validateLinearSyncBatch]
  by_cases hnil : bs = []
  · rw [if_pos hnil]
  · rw [if_neg hnil, htip]
    exact checkLinear_of_isChain h 0

/-- A block that memory and file take. -/
theorem persist_of_ok {n : NodeInner} {b : Block} {c : Blockchain} {s : BlockStore}
    {nowUnix : UInt64} {calls : AppendIo} (husable : n.store.poisoned = false)
    (happ : n.chain.tryAppendNetworkBlock b nowUnix = (.ok (), c))
    (htip : c.blocks.getLast? = some b) (hs : n.store.appendBlock b calls = some (.ok (), s)) :
    n.appendNetworkBlockPersist b nowUnix calls =
      some (.ok (), { n with chain := c, store := s }) := by
  simp only [NodeInner.appendNetworkBlockPersist, husable, Bool.false_eq_true, if_false, happ,
    htip, hs, Option.bind_eq_bind, Option.bind_some]

/-- A round that brings nothing ends the call. -/
theorem syncRounds_empty {peer : String} {budget : SyncWorkBudget} {w : SyncWorld}
    {left round total : Nat} {n : NodeInner} {wire nbytes : UInt64}
    (htotal : total < budget.maxBlocksPerCall.toNat) (hwire : wire < budget.maxWireBytesPerCall)
    (hpull : pullBlocksFromPeer peer (w.connection round) (saturatingSucc n.chain.height) n.genesis
      n.chain.height = .ok ([], nbytes)) :
    NodeInner.syncRounds peer budget w (left + 1) round n total wire =
      some (n, total, .ok false) := by
  rw [NodeInner.syncRounds]
  simp only [hpull, if_true]
  rw [if_neg (Nat.not_le.mpr htotal), if_neg (UInt64.not_le.mpr hwire)]

/-- A round that brings blocks. The call goes on with the next round unless
    the blocks used up the budget, did not all have room, or took too many
    bytes. -/
theorem syncRounds_batch {peer : String} {budget : SyncWorkBudget} {w : SyncWorld}
    {left round total total' : Nat} {n n' : NodeInner} {wire nbytes : UInt64} {bs : List Block}
    {full : Bool}
    (htotal : total < budget.maxBlocksPerCall.toNat) (hwire : wire < budget.maxWireBytesPerCall)
    (hpull : pullBlocksFromPeer peer (w.connection round) (saturatingSucc n.chain.height) n.genesis
      n.chain.height = .ok (bs, nbytes)) (hne : bs ≠ [])
    (hlinear : validateLinearSyncBatch n.chain bs = .ok ())
    (hbatch : NodeInner.appendBatch w budget.maxBlocksPerCall.toNat n total
      (bs.take (min bs.length (budget.maxBlocksPerCall.toNat - total))) =
        some (n', total', .ok full)) :
    NodeInner.syncRounds peer budget w (left + 1) round n total wire =
      if full = true ∨ budget.maxBlocksPerCall.toNat - total < bs.length ∨
          budget.maxWireBytesPerCall < saturatingAdd wire nbytes then
        some (n', total', .ok true)
      else NodeInner.syncRounds peer budget w left (round + 1) n' total'
        (saturatingAdd wire nbytes) := by
  -- The round is made, since there is room for blocks and for bytes.
  have hroom : ¬ budget.maxBlocksPerCall.toNat - total = 0 := by omega
  rw [NodeInner.syncRounds]
  simp only [hpull, hlinear, if_neg hne, if_neg hroom, hbatch, Option.bind_eq_bind,
    Option.bind_some]
  rw [if_neg (Nat.not_le.mpr htotal), if_neg (UInt64.not_le.mpr hwire)]
  cases full with
  | true => simp only [true_or, if_true]
  | false =>
      have hcut : min bs.length (budget.maxBlocksPerCall.toNat - total) < bs.length ↔
          budget.maxBlocksPerCall.toNat - total < bs.length := by omega
      simp only [hcut, Bool.false_eq_true, false_or]
      by_cases hlong : budget.maxBlocksPerCall.toNat - total < bs.length
      · rw [if_pos hlong, if_pos (Or.inl hlong)]
      by_cases hsoft : budget.maxWireBytesPerCall < saturatingAdd wire nbytes
      · rw [if_neg hlong, if_pos hsoft, if_pos (Or.inr hsoft)]
      · rw [if_neg hlong, if_neg hsoft, if_neg (not_or.mpr ⟨hlong, hsoft⟩)]

/-- A round that brings one block, which does not use up the budget. -/
theorem syncRounds_single {peer : String} {budget : SyncWorkBudget} {w : SyncWorld}
    {left round total : Nat} {n n' : NodeInner} {wire nbytes : UInt64} {tip b : Block}
    (hblocks : total + 1 < budget.maxBlocksPerCall.toNat)
    (hwire : wire < budget.maxWireBytesPerCall)
    (hnext : saturatingAdd wire nbytes ≤ budget.maxWireBytesPerCall)
    (hpull : pullBlocksFromPeer peer (w.connection round) (saturatingSucc n.chain.height) n.genesis
      n.chain.height = .ok ([b], nbytes))
    (htip : n.chain.blocks.getLast? = some tip) (hb : Follows tip b)
    (hpersist : n.appendNetworkBlockPersist b (w.clock total) (w.calls total) =
      some (.ok (), n')) :
    NodeInner.syncRounds peer budget w (left + 1) round n total wire =
      NodeInner.syncRounds peer budget w left (round + 1) n' (total + 1)
        (saturatingAdd wire nbytes) := by
  have hroom : min [b].length (budget.maxBlocksPerCall.toNat - total) = 1 := by
    rw [List.length_singleton]
    omega
  have hbatch : NodeInner.appendBatch w budget.maxBlocksPerCall.toNat n total
      ([b].take (min [b].length (budget.maxBlocksPerCall.toNat - total))) =
        some (n', total + 1, .ok false) := by
    rw [hroom, List.take_succ_cons, List.take_zero]
    simp only [NodeInner.appendBatch, hpersist, Option.bind_eq_bind, Option.bind_some]
    rw [if_neg (by omega)]
  have hlinear := validateLinearSyncBatch_of_isChain htip (List.isChain_pair.mpr hb)
  rw [syncRounds_batch (by omega) hwire hpull (List.cons_ne_nil _ _) hlinear hbatch, if_neg]
  rw [List.length_singleton, ← UInt64.not_le, not_or, not_or, not_not]
  exact ⟨Bool.false_ne_true, by omega, hnext⟩

end Sync

namespace Sample

/-- The ACK of the peer. -/
def peerAck : Bytes :=
  ((encodeSessionPayload opSessionHelloAck genesis 0).toOption).getD []

theorem encode_peerAck : encodeSessionPayload opSessionHelloAck genesis 0 = .ok peerAck := by
  rcases (Genesis.stateCommitmentHex_ok_iff genesis _).mpr ⟨_, sortedPairs_genesis, rfl⟩ with hhex
  have hack : encodeSessionPayload opSessionHelloAck genesis 0 = .ok _ :=
    encodeSessionPayload_ok_iff.mpr ⟨_, hhex, rfl⟩
  rw [peerAck, hack]
  rfl

end Sample

end Trilogicon
