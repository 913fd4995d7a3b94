import Trilogicon.Core.PendingTxFile
import Trilogicon.Theory.Formats
import Trilogicon.Theory.NodeRun
import Trilogicon.Theory.Pool

/-!
# What a Node Produces Fits

Every limit of the formats is met by what a node makes itself.

A limit is checked where something is written, and the bound comes from
elsewhere: the length of an address from its check, those of a key and a
signature from the check of the signature, that of a hash from the way it is
printed, the number of transactions from the selection. Together a transaction
takes at most 409 bytes, a sealed block at most 26593, and a batch of sealed
blocks less than two million. The smallest limit on a transaction is four
million bytes and the smallest on a block sixty-seven million.

Blocks from the network have only the limit of the frame they came in, so
nothing here is about them.

## Main definitions

* `Sealed`: A block a node sealed from its pool.

## Theorems

* `encodeBlock_of_append`: The size of an accepted block of few transactions.
* `Sealed.encodes`: The size of a sealed block.
* `sealed_batch`: A batch of sealed blocks can be sent.
* `produced_fits`: What a node produces fits every limit.
-/

namespace Trilogicon

section Limits

variable [Primitives]

/-- The block was sealed on a reachable chain, from some pool and with the
    limit the node gives. -/
def Sealed (b : Block) : Prop :=
  ∃ g c m ts hashes c', Reachable g c ∧
    c.appendBlockFromMempoolPendingRemoval m 64 ts = (.ok (some hashes), c') ∧
    c'.blocks.getLast? = some b

theorem Transaction.Valid.encodes_le {tx : Transaction} (h : tx.Valid) :
    ∃ d, encodeTransaction tx = some d ∧ d.length ≤ 409 := by
  have hreceiver := h.receiver_length
  rcases h.encodes with ⟨d, hd, hlen⟩
  exact ⟨d, hd, by omega⟩

/-- The size of an accepted block of few transactions. -/
theorem encodeBlock_of_append {g : Genesis} {c c' : Blockchain} {b : Block} (hs : c.Sound g)
    (happ : c.appendBlock b = (.ok (), c')) (hfew : b.transactions.length ≤ 64) :
    ∃ payload, encodeBlock b = some payload ∧ payload.length ≤ 26593 := by
  rcases encodes_of_append hs happ hfew with ⟨payload, henc⟩
  rcases (Blockchain.appendBlock_ok_iff c c' b).mp happ with ⟨_, tip, htip, _, hprev, _⟩
  have hvalid := (Blockchain.follows_of_append hs.linked happ htip).valid
  rcases encodeBlock_eq_some.mp henc with ⟨_, txs, _, _, _, htxs, _, _⟩
  refine ⟨payload, henc, ?_⟩
  -- Each transaction stands behind a length of four bytes.
  have hone : ∀ tx ∈ b.transactions, ∀ e, pushNested tx = some e → e.length ≤ 413 := by
    intro tx htx e he
    have hreceiver := (hvalid.transactions_valid tx htx).receiver_length
    rcases (hvalid.transactions_valid tx htx).pushes with ⟨e', he', hlen⟩
    rw [he, Option.some.injEq] at he'
    rw [he']
    omega
  have hall := writeAll_length_le hone htxs
  have hprevious : (utf8 b.previousHash).length ≤ 64 := by
    rw [hprev]
    exact blockHash_length_le hs.linked (List.mem_of_getLast? htip)
  have hhash : (utf8 b.blockHash).length = 64 := by
    rw [hvalid.hash]
    exact Crypto.hashBytes_byteLength _
  -- The fields besides the transactions take at most 161 bytes.
  rw [encodeBlock_length henc htxs]
  omega

/-- The size of a sealed block. -/
theorem Sealed.encodes {b : Block} (h : Sealed b) :
    ∃ payload, encodeBlock b = some payload ∧ payload.length ≤ 26593 := by
  rcases h with ⟨g, c, m, ts, hashes, c', hreach, hseal, hlast⟩
  have hs := hreach.sound
  rcases c.pendingRemoval_cases m 64 ts with ⟨e, hc⟩ | hc | ⟨b', c₁, happ, hfew, hc⟩
  · rw [hc, Prod.mk.injEq] at hseal
    exact absurd hseal.1 (by simp only [reduceCtorEq, not_false_eq_true])
  · rw [hc, Prod.mk.injEq] at hseal
    exact absurd hseal.1 (by simp only [Except.ok.injEq, reduceCtorEq, not_false_eq_true])
  · rw [hc, Prod.mk.injEq] at hseal
    rw [← hseal.2, (Blockchain.appendBlock_ok_sound hs happ).2, List.getLast?_concat,
      Option.some.injEq] at hlast
    rw [← hlast]
    exact encodeBlock_of_append hs happ hfew

/-- A batch of sealed blocks can be sent. -/
theorem sealed_batch {bs : List Block} (h : ∀ b ∈ bs, Sealed b) :
    ∃ w, wireEncodeBlocksResponse bs = some (.ok w) ∧ w.length ≤ maxWireFrameBytes := by
  have hfew : (bs.take maxBlocksPerBatch).length ≤ maxBlocksPerBatch := by
    rw [List.length_take]
    omega
  have hentry : ∀ b ∈ bs.take maxBlocksPerBatch, ∃ e, batchEntry b = some e := by
    intro b hb
    rcases (h b (List.mem_of_mem_take hb)).encodes with ⟨payload, henc, hlen⟩
    exact ⟨_, batchEntry_eq_some.mpr ⟨payload, henc, by unfold maxWireFrameBytes; omega, rfl⟩⟩
  have hsize : ∀ b ∈ bs.take maxBlocksPerBatch, ∀ e, batchEntry b = some e →
      e.length ≤ 26597 := by
    intro b hb e he
    rcases (h b (List.mem_of_mem_take hb)).encodes with ⟨payload, henc, hlen⟩
    rcases batchEntry_eq_some.mp he with ⟨payload', henc', _, rfl⟩
    rw [henc, Option.some.injEq] at henc'
    rw [← henc', frameOnWire, List.length_append, beBytes_length]
    omega
  rcases writeAll_exists hentry with ⟨es, hes⟩
  have hlen := writeAll_length_le hsize hes
  -- 64 entries of this size are less than two million bytes.
  have hroom : ¬ maxWireFrameBytes < 5 + es.length := by
    unfold maxBlocksPerBatch at hfew hlen
    unfold maxWireFrameBytes
    omega
  have hsend := wireEncodeBlocksResponse_eq hfew hes
  rw [← wireEncodeBlocksResponse_take, if_neg hroom] at hsend
  refine ⟨_, hsend, ?_⟩
  rw [List.length_append, List.length_cons, beBytes_length]
  omega

/-- What a node produces fits every limit. The encoder of a transaction that
    passed its checks does not panic and writes at most 409 bytes, so what is in a
    pool fits the queue file. A sealed block is taken by the block file and fits a
    frame of its own, and sealed blocks can be sent as a batch. -/
theorem produced_fits :
    (∀ payload, (utf8 (Crypto.hashBytes payload)).length = 64 ∧
      ∀ c ∈ (Crypto.hashBytes payload).toList, isHexChar c = true) ∧
    (∀ tx : Transaction, tx.basicValidate = .ok () →
      ∃ d, encodeTransaction tx = some d ∧ d.length ≤ 409) ∧
    (∀ m : Mempool, m.Reached → ∀ h tx, m.txs.lookup h = some tx →
      ∃ d, encodeTransaction tx = some d ∧ d.length ≤ maxPendingTxFrame) ∧
    (∀ b, Sealed b → ∃ payload, encodeBlock b = some payload ∧
      (∀ s : BlockStore, s.poisoned = false →
        s.appendPayload payload .succeeds = (.ok (), s.written payload)) ∧
      validateOutboundFramedPayloadLen (opBlock :: payload).length =
        .ok (opBlock :: payload).length) ∧
    ∀ bs : List Block, (∀ b ∈ bs, Sealed b) →
      ∃ w, wireEncodeBlocksResponse bs = some (.ok w) ∧ w.length ≤ maxWireFrameBytes := by
  refine ⟨?_, ?_, ?_, ?_, fun bs h => sealed_batch h⟩
  · intro payload
    exact ⟨Crypto.hashBytes_byteLength payload, Crypto.hashBytes_isHex payload⟩
  · intro tx h
    exact ((Transaction.basicValidate_ok_iff tx).mp h).encodes_le
  · intro m hm h tx hl
    have hvalid := (Transaction.basicValidate_ok_iff tx).mp (hm.sound.valid h tx hl)
    rcases hvalid.encodes_le with ⟨d, hd, hlen⟩
    exact ⟨d, hd, by unfold maxPendingTxFrame; omega⟩
  · intro b hb
    rcases hb.encodes with ⟨payload, henc, hlen⟩
    refine ⟨payload, henc, ?_, ?_⟩
    · intro s hs
      have happ := BlockStore.appendBlock_succeeds hs henc (by unfold maxFrameBytes; omega)
      rw [BlockStore.appendBlock, henc] at happ
      exact Option.some.inj happ
    · refine validateOutboundFramedPayloadLen_ok_iff.mpr ⟨?_, rfl⟩
      rw [List.length_cons]
      unfold maxWireFrameBytes
      omega

end Limits

namespace Sample

/-- The sample node seals its payment. -/
example : ∃ b, Sealed b := by
  have hseal : (start.appendBlockFromMempoolPendingRemoval
      ((Mempool.new 8).trySubmit payment).2 64 0).1 = .ok (some [payment.txHash]) := by
    decide +kernel
  have hreach : Reachable genesis start :=
    ⟨.default, start, [], fromGenesisWithConsensus_start, rfl⟩
  rcases start.pendingRemoval_cases ((Mempool.new 8).trySubmit payment).2 64 0 with
    ⟨e, hc⟩ | hc | ⟨b, c', happ, _, hc⟩
  · rw [hc] at hseal
    exact absurd hseal (by simp only [reduceCtorEq, not_false_eq_true])
  · rw [hc] at hseal
    exact absurd hseal (by simp only [Except.ok.injEq, reduceCtorEq, not_false_eq_true])
  · refine ⟨b, genesis, start, _, 0, _, c', hreach, hc, ?_⟩
    rw [(Blockchain.appendBlock_ok_sound hreach.sound happ).2, List.getLast?_concat]

end Sample

end Trilogicon
