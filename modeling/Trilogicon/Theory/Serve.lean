import Trilogicon.Core.Node
import Trilogicon.Theory.Restart

/-!
# Serving Catch-up

What a node answers when a peer asks for the blocks from some height on.

The answer holds the next blocks of the chain, at most a batch of them, and
goes out as one frame. Four limits meet here: what a block may hold, what a
frame may hold, how many blocks a batch may have, and what the frame of a batch
may hold. The first three do not imply the last, and a batch is never cut
short to fit. So a node answers exactly when the whole window fits a frame, and
reports a protocol error otherwise.

The sample at the end is a chain of two blocks that each fit a frame and that
cannot be served from height one.

## Main definitions

* `NetworkBuilt`: A chain built from blocks that came in frames.
* `window`: The blocks an answer is made of.
* `batchSize`: The size of the frame of a batch.

## Theorems

* `blocksFromHeightLimited_eq`: The blocks that are selected are the window.
* `getBlocks_eq`: What a node answers.
* `getBlocks_served_iff_fits`: A request is served exactly if the window fits.
-/

namespace Trilogicon

/-- The block fits the frame it came in. -/
def FitsFrame (b : Block) : Prop :=
  ∃ enc, encodeBlock b = some enc ∧ 1 + enc.length ≤ maxWireFrameBytes

/-- The blocks an answer is made of: the next blocks from a height on, at most
    a batch of them. -/
def window (c : Blockchain) (startHeight : UInt64) : List Block :=
  (c.blocks.drop startHeight.toNat).take maxBlocksPerBatch

/-- How many bytes a block takes. -/
def encodedLength (b : Block) : Nat :=
  ((encodeBlock b).getD []).length

/-- The size of the frame of a batch: opcode and count, and the blocks, each
    after its length. -/
def batchSize (bs : List Block) : Nat :=
  5 + (bs.map fun b => 4 + encodedLength b).sum

theorem writeAll_batchEntry {bs : List Block} (h : ∀ b ∈ bs, FitsFrame b) :
    ∃ es, writeAll batchEntry bs = some es ∧ 5 + es.length = batchSize bs := by
  rw [batchSize]
  simp only [Nat.add_right_inj]
  induction bs with
  | nil => exact ⟨[], rfl, rfl⟩
  | cons b bs ih =>
      rcases ih fun b' hb' => h b' (List.mem_cons_of_mem b hb') with ⟨es, hes, hlen⟩
      rcases h b List.mem_cons_self with ⟨enc, he, hfit⟩
      refine ⟨frameOnWire enc ++ es, writeAll_cons_iff.mpr ⟨_, es,
        batchEntry_eq_some.mpr ⟨enc, he, by omega, rfl⟩, hes, rfl⟩, ?_⟩
      rw [List.map_cons, List.sum_cons, encodedLength, he, Option.getD_some, List.length_append,
        frameOnWire, List.length_append, beBytes_length, hlen]

section Serve

variable [Primitives]

/-- The chain was built from the genesis by blocks from the network, each of
    which fits a frame. -/
inductive NetworkBuilt (g : Genesis) : Blockchain → Prop where
  | start {params : ConsensusParams} {c : Blockchain}
      (h : Blockchain.fromGenesisWithConsensus g params = .ok c) : NetworkBuilt g c
  | step {c c' : Blockchain} {b : Block} {enc : Bytes} (nowUnix : UInt64)
      (hc : NetworkBuilt g c) (h : c.tryAppendNetworkBlock b nowUnix = (.ok (), c'))
      (he : encodeBlock b = some enc) (hfit : 1 + enc.length ≤ maxWireFrameBytes) :
      NetworkBuilt g c'

theorem NetworkBuilt.sound {g : Genesis} {c : Blockchain} (h : NetworkBuilt g c) :
    c.Sound g ∧ ∀ b ∈ c.blocks.drop 1, FitsFrame b := by
  induction h with
  | start h =>
      refine ⟨Blockchain.fromGenesisWithConsensus_sound h, ?_⟩
      rcases bind_ok_iff.mp h with ⟨c₀, hc₀, heq⟩
      rcases bind_ok_iff.mp hc₀ with ⟨_, _, heq₀⟩
      rw [← Except.ok.inj heq, ← Except.ok.inj heq₀]
      exact fun b hb => absurd hb List.not_mem_nil
  | @step c c' b enc now _ h he hfit ih =>
      rcases c.tryAppendNetworkBlock_cases b now with ⟨e, hc⟩ | ⟨c₁, happ, hc⟩
      · rw [hc] at h
        exact absurd h (by simp only [Prod.mk.injEq, reduceCtorEq, false_and, not_false_eq_true])
      · rw [hc, Prod.mk.injEq] at h
        rw [← h.2]
        rcases Blockchain.appendBlock_ok_sound ih.1 happ with ⟨hs, hblocks⟩
        refine ⟨hs, ?_⟩
        -- Only the new block needs an argument, and it came in a frame.
        rw [hblocks, List.drop_append_of_le_length (List.length_pos_iff.mpr ih.1.linked.ne_nil)]
        intro b' hb'
        rcases List.mem_append.mp hb' with hold | hnew
        · exact ih.2 b' hold
        · rw [List.mem_singleton.mp hnew]
          exact ⟨enc, he, hfit⟩

/-- On a linked chain the selection by height is a selection by index. -/
theorem blocksFromHeightLimited_eq {c : Blockchain} (hl : Linked c.blocks)
    (startHeight : UInt64) :
    c.blocksFromHeightLimited startHeight maxBlocksPerBatch = window c startHeight := by
  have hsplit : c.blocks.filter (fun b => startHeight ≤ b.height) =
      c.blocks.drop startHeight.toNat := by
    rw [← List.take_append_drop startHeight.toNat c.blocks, List.filter_append,
      List.take_append_drop]
    -- Blocks below the index are too low, and the others are not.
    have hlow : (c.blocks.take startHeight.toNat).filter
        (fun b => startHeight ≤ b.height) = [] := by
      rw [List.filter_eq_nil_iff]
      intro b hb
      rcases List.getElem?_of_mem hb with ⟨i, hi⟩
      rw [List.getElem?_take] at hi
      by_cases hlt : i < startHeight.toNat
      · rw [if_pos hlt] at hi
        rw [decide_eq_true_eq, UInt64.le_iff_toNat_le, hl.height_eq hi]
        omega
      · rw [if_neg hlt] at hi
        exact absurd hi (by simp only [reduceCtorEq, not_false_eq_true])
    have hhigh : (c.blocks.drop startHeight.toNat).filter (fun b => startHeight ≤ b.height) =
        c.blocks.drop startHeight.toNat := by
      rw [List.filter_eq_self]
      intro b hb
      rcases List.getElem?_of_mem hb with ⟨i, hi⟩
      rw [List.getElem?_drop] at hi
      rw [decide_eq_true_eq, UInt64.le_iff_toNat_le, hl.height_eq hi]
      omega
    rw [hlow, hhigh, List.nil_append]
  rw [Blockchain.blocksFromHeightLimited, if_neg (by decide), hsplit, window]

theorem window_fits {g : Genesis} {c : Blockchain} (h : NetworkBuilt g c) {startHeight : UInt64}
    (hstart : 1 ≤ startHeight.toNat) : ∀ b ∈ window c startHeight, FitsFrame b := by
  intro b hb
  refine h.sound.2 b ?_
  have hdrop : c.blocks.drop startHeight.toNat =
      (c.blocks.drop 1).drop (startHeight.toNat - 1) := by
    rw [List.drop_drop]
    congr 1
    omega
  have hmem := List.mem_of_mem_take hb
  rw [hdrop] at hmem
  exact List.mem_of_mem_drop hmem

/-- What a node with a usable store answers. -/
theorem getBlocks_eq {g : Genesis} {n : NodeInner} (h : NetworkBuilt g n.chain)
    (hstore : n.store.poisoned = false) {startHeight : UInt64} (hstart : 1 ≤ startHeight.toNat)
    (nowUnix : UInt64) (k : SessionCounters) (policy : InboundPeerPolicy) (calls : AppendIo) :
    ∃ resp, resp.length = batchSize (window n.chain startHeight) ∧
      wireDecodeBlocksResponse resp = .ok (window n.chain startHeight) ∧
      n.applyPredecoded (.getBlocks startHeight) nowUnix k policy calls =
        some (if maxWireFrameBytes < batchSize (window n.chain startHeight)
          then .error (.malformed batchTooLarge) else .ok (some resp), n, k) := by
  rcases writeAll_batchEntry (window_fits h hstart) with ⟨es, hes, hsize⟩
  have hlen : (window n.chain startHeight).length ≤ maxBlocksPerBatch := by
    rw [window, List.length_take]
    exact Nat.min_le_left _ _
  refine ⟨opBlocks :: beBytes 4 (window n.chain startHeight).length ++ es, ?_,
    wireDecodeBlocksResponse_ok_iff.mpr ⟨hlen, es, hes, rfl⟩, ?_⟩
  · rw [List.length_append, List.length_cons, beBytes_length, ← hsize]
  · rw [NodeInner.applyPredecoded, hstore, if_neg Bool.false_ne_true]
    simp only [blocksFromHeightLimited_eq h.sound.1.linked, wireEncodeBlocksResponse_eq hlen hes,
      hsize, Option.bind_eq_bind, Option.bind_some]
    by_cases hover : maxWireFrameBytes < batchSize (window n.chain startHeight)
    · simp only [if_pos hover]
    · simp only [if_neg hover]

/-- An answer holds the blocks of the chain from some height on. -/
theorem getBlocks_answer {n n' : NodeInner} {startHeight nowUnix : UInt64}
    {k k' : SessionCounters} {policy : InboundPeerPolicy} {calls : AppendIo} {resp : Bytes}
    (h : n.applyPredecoded (.getBlocks startHeight) nowUnix k policy calls =
      some (.ok (some resp), n', k')) :
    resp.length ≤ maxWireFrameBytes ∧ wireDecodeBlocksResponse resp =
      .ok (n.chain.blocksFromHeightLimited startHeight maxBlocksPerBatch) := by
  unfold NodeInner.applyPredecoded at h
  -- A poisoned store answers nothing.
  by_cases hpois : n.store.poisoned = true
  · simp only [hpois, if_true, Option.some.injEq, Prod.mk.injEq, reduceCtorEq, false_and] at h
  rw [if_neg hpois] at h
  have hlen : (n.chain.blocksFromHeightLimited startHeight maxBlocksPerBatch).length ≤
      maxBlocksPerBatch := by
    rw [Blockchain.blocksFromHeightLimited, if_neg (by decide), List.length_take]
    exact Nat.min_le_left _ _
  refine wireEncodeBlocksResponse_ok hlen ?_
  rcases hw : wireEncodeBlocksResponse
      (n.chain.blocksFromHeightLimited startHeight maxBlocksPerBatch) with _ | e | w
  · simp only [hw, Option.bind_eq_bind, Option.bind_none, reduceCtorEq] at h
  · simp only [hw, Option.bind_eq_bind, Option.bind_some, Option.some.injEq, Prod.mk.injEq,
      reduceCtorEq, false_and] at h
  · simp only [hw, Option.bind_eq_bind, Option.bind_some, Option.some.injEq, Prod.mk.injEq,
      Except.ok.injEq] at h
    rw [h.1]

/-- A node with a usable store answers with the window if that can be encoded. -/
theorem getBlocks_of_encodes {n : NodeInner} (hl : Linked n.chain.blocks)
    (hstore : n.store.poisoned = false) {startHeight : UInt64} {resp : Bytes}
    (h : wireEncodeBlocksResponse (window n.chain startHeight) = some (.ok resp))
    (nowUnix : UInt64) (k : SessionCounters) (policy : InboundPeerPolicy) (calls : AppendIo) :
    n.applyPredecoded (.getBlocks startHeight) nowUnix k policy calls =
      some (.ok (some resp), n, k) := by
  rw [NodeInner.applyPredecoded, hstore, if_neg Bool.false_ne_true]
  simp only [blocksFromHeightLimited_eq hl, h, Option.bind_eq_bind, Option.bind_some]

/-- The window starts with the block that was asked for and is a run of the
    chain. -/
theorem window_starts {c : Blockchain} (hl : Linked c.blocks) {startHeight : UInt64}
    (htip : startHeight ≤ c.height) :
    ∃ b rest, window c startHeight = b :: rest ∧ b.height = startHeight ∧
      window c startHeight <+: c.blocks.drop startHeight.toNat := by
  have hidx : startHeight.toNat < c.blocks.length := by
    have hlast := Blockchain.height_eq_length hl
    rw [UInt64.le_iff_toNat_le] at htip
    omega
  refine ⟨c.blocks.get ⟨startHeight.toNat, hidx⟩,
    (c.blocks.drop (startHeight.toNat + 1)).take 63, ?_, ?_, List.take_prefix _ _⟩
  · rw [window, List.drop_eq_getElem_cons hidx, maxBlocksPerBatch, List.take_succ_cons]
    rfl
  · rw [← UInt64.toNat_inj]
    exact hl.height_eq (List.getElem?_eq_getElem hidx)

/-- A request for blocks the chain has is served exactly if the whole window
    fits a frame. The answer then decodes to the window, which is a run of the
    chain from the height that was asked for. Otherwise the request ends in a
    protocol error. Nothing changes either way. -/
theorem getBlocks_served_iff_fits {g : Genesis} {n : NodeInner} (h : NetworkBuilt g n.chain)
    (hstore : n.store.poisoned = false) {startHeight : UInt64} (hstart : 1 ≤ startHeight)
    (htip : startHeight ≤ n.chain.height) (nowUnix : UInt64) (k : SessionCounters)
    (policy : InboundPeerPolicy) (calls : AppendIo) :
    (batchSize (window n.chain startHeight) ≤ maxWireFrameBytes →
      ∃ resp b rest,
        n.applyPredecoded (.getBlocks startHeight) nowUnix k policy calls =
          some (.ok (some resp), n, k) ∧
        resp.length ≤ maxWireFrameBytes ∧
        wireDecodeBlocksResponse resp = .ok (b :: rest) ∧ b.height = startHeight ∧
        b :: rest = window n.chain startHeight ∧
        b :: rest <+: n.chain.blocks.drop startHeight.toNat) ∧
    (maxWireFrameBytes < batchSize (window n.chain startHeight) →
      n.applyPredecoded (.getBlocks startHeight) nowUnix k policy calls =
        some (.error (.malformed batchTooLarge), n, k)) := by
  have hone : 1 ≤ startHeight.toNat := by
    rw [UInt64.le_iff_toNat_le, UInt64.toNat_one] at hstart
    exact hstart
  rcases getBlocks_eq h hstore hone nowUnix k policy calls with ⟨resp, hlen, hdec, hans⟩
  rcases window_starts h.sound.1.linked htip with ⟨b, rest, hwin, hheight, hrun⟩
  constructor
  · intro hfits
    rw [if_neg (Nat.not_lt.mpr hfits)] at hans
    refine ⟨resp, b, rest, hans, hlen ▸ hfits, ?_, hheight, hwin.symm, ?_⟩
    · rw [hdec, hwin]
    · rw [← hwin]
      exact hrun
  · intro hover
    rw [hans, if_pos hover]

end Serve

namespace Sample

/-- The limits of a session. -/
def policy : InboundPeerPolicy :=
  { maxInvalidNetworkBlocksPerSession := 24, maxStaleDecodedBlocksPerSession := 8192 }

/-- A node with the chain of one payment. -/
def node : NodeInner :=
  { genesis := genesis, chain := chain, pool := .new 8, store := freshStore }

theorem networkBuilt_chain : NetworkBuilt genesis chain := by
  refine .step 0 (.start fromGenesisWithConsensus_start) ?_ encodeBlock_block ?_
  · rw [Blockchain.tryAppendNetworkBlock_default rfl]
    exact appendBlock_chain
  · decide +kernel

/-- The block with the payment is served. -/
theorem getBlocks_served_block : ∃ resp b rest,
    node.applyPredecoded (.getBlocks 1) 0 ⟨0, 0⟩ policy .succeeds =
      some (.ok (some resp), node, ⟨0, 0⟩) ∧
    resp.length ≤ maxWireFrameBytes ∧ wireDecodeBlocksResponse resp = .ok (b :: rest) ∧
    b.height = 1 ∧ b :: rest = window node.chain 1 ∧
    b :: rest <+: node.chain.blocks.drop (1 : UInt64).toNat := by
  refine (getBlocks_served_iff_fits (n := node) networkBuilt_chain rfl (by decide) ?_ 0 ⟨0, 0⟩
    policy .succeeds).1 ?_
  · rw [Blockchain.height, node, blocks_chain]
    decide
  · rw [window, node, blocks_chain]
    decide +kernel

/-! ### Two large blocks

Blocks of payments of the payer to itself. The payments differ in nonce and
time, and all take the same number of bytes. -/

/-- The payment with a nonce, before it has an id. -/
def selfTransfer (i : Nat) : Transaction :=
  { sender := payer, receiver := payer, amount := 1, fee := 0, nonce := UInt64.ofNat i,
    timestampUnix := UInt64.ofNat i, publicKey := key, signature := List.replicate 64 0,
    txHash := "" }

/-- The payment with a nonce. -/
def selfPayment (i : Nat) : Transaction :=
  { selfTransfer i with txHash := (selfTransfer i).computeTxHash }

/-- The payments with `m` nonces from `i` on. -/
def selfPayments (i m : Nat) : List Transaction :=
  (List.range' i m).map selfPayment

/-- The table after `i` of them. -/
def selfState (i : Nat) : State :=
  State.new.put { address := payer, balance := 1000, nonce := UInt64.ofNat i }

theorem payer_valid : payer.isValid = true := by
  decide

theorem selfPayment_payload (i : Nat) :
    (selfPayment i).unsignedPayloadBytes = (selfTransfer i).unsignedPayloadBytes := by
  unfold Transaction.unsignedPayloadBytes Transaction.unsignedPayload
  rfl

theorem selfPayment_valid (i : Nat) : (selfPayment i).Valid where
  sender_valid := payer_valid
  receiver_valid := payer_valid
  amount_pos := by
    change (1 : UInt64) ≠ 0
    decide
  hash := by
    rw [selfPayment_payload]
    rfl
  signed := by
    unfold Crypto.verifySignature
    rfl
  bound := by
    change payer.value = Crypto.addressFromPublicKey key
    rfl

theorem ofNat_toNat {i : Nat} (h : i < 2 ^ 64) : (UInt64.ofNat i).toNat = i := by
  rw [UInt64.toNat_ofNat', Nat.mod_eq_of_lt h]

theorem selfState_step {i : Nat} (h : i + 1 < 2 ^ 64) :
    (selfState i).applyTransaction (selfPayment i) = (.ok (), selfState (i + 1)) := by
  have hsender : (selfPayment i).sender = payer := rfl
  have hreceiver : (selfPayment i).receiver = payer := rfl
  have hamount : (selfPayment i).amount.toNat = 1 := rfl
  have hfee : (selfPayment i).fee.toNat = 0 := rfl
  refine (State.applyTransaction_ok_iff _ _ _).mpr ⟨selfPayment_valid i, ?_, ?_⟩
  · refine (State.admits_iff _ _).mpr ⟨⟨payer, 1000, UInt64.ofNat i⟩, ?_, rfl, ?_⟩
    · rw [selfState, State.getAccount_put, if_pos hsender]
    · rw [hamount, hfee]
      change 1 + 0 ≤ 1000
      omega
  -- A payment to oneself without a fee moves only the nonce.
  · apply Book.ext
    · rw [State.known_post, selfState, selfState, State.known_put, State.known_put, hreceiver]
      exact (Finset.insert_idem payer _).symm
    · funext a
      rw [State.balance_post, selfState, selfState, State.balance_put, State.balance_put,
        hsender, hreceiver, hamount, hfee]
      by_cases ha : a = payer
      · simp only [if_pos ha]
        rfl
      · simp only [if_neg ha, Nat.sub_zero, Nat.add_zero]
    · funext a
      rw [State.nonce_post, selfState, selfState, State.nonce_put, State.nonce_put, hsender]
      by_cases ha : a = payer
      · rw [if_pos ha, if_pos ha, if_pos ha, ofNat_toNat h, ofNat_toNat (by omega)]
      · rw [if_neg ha, if_neg ha, if_neg ha]
        rfl

theorem selfState_run {i m : Nat} (h : i + m < 2 ^ 64) :
    (selfState i).applyAll (selfPayments i m) = .ok (selfState (i + m)) := by
  induction m generalizing i with
  | zero => rfl
  | succ m ih =>
      rw [selfPayments, List.range'_succ, List.map_cons, State.applyAll_cons_ok_iff]
      refine ⟨selfState (i + 1), selfState_step (by omega), ?_⟩
      have hrest := ih (i := i + 1) (by omega)
      rw [Nat.add_right_comm, Nat.add_assoc] at hrest
      exact hrest

/-- The characters of a numeral. -/
theorem mem_digits {n : Nat} {c : Char} (h : c ∈ n.repr.toList) : c ∈ "0123456789".toList := by
  rw [Nat.toList_repr] at h
  have hdigit := Nat.isDigit_of_mem_toDigits (by decide) (by decide) h
  have hall : ∀ k < 10, Char.ofNat (48 + k) ∈ "0123456789".toList := by decide
  rw [Char.isDigit, Bool.and_eq_true, decide_eq_true_eq, decide_eq_true_eq] at hdigit
  have hlow : 48 ≤ c.toNat := hdigit.1
  have hhigh : c.toNat ≤ 57 := hdigit.2
  have hc := hall (c.toNat - 48) (by omega)
  rwa [Nat.add_sub_cancel' hlow, Char.ofNat_toNat] at hc

/-- No byte of a numeral is a bar. -/
theorem bar_notMem_digits (n : Nat) : 124 ∉ utf8 n.repr := by
  rw [utf8_eq_flatMap, List.mem_flatMap]
  rintro ⟨c, hc, hbar⟩
  have hall : "0123456789".toList.all (fun d => decide (124 ∉ String.utf8EncodeChar d)) = true := by
    decide
  exact of_decide_eq_true (List.all_eq_true.mp hall c (mem_digits hc)) hbar

theorem digits_length {n : Nat} (h : n < 2 ^ 64) : (utf8 n.repr).length < 32 := by
  rw [utf8_length_of_ascii]
  · have hlen := (Nat.length_repr_le_iff (n := n) (k := 20) (by decide)).mpr (by omega)
    rw [← String.length_toList] at hlen
    omega
  · intro c hc
    have hall : "0123456789".toList.all (fun d => d.utf8Size == 1) = true := by decide
    exact eq_of_beq (List.all_eq_true.mp hall c (mem_digits hc))

/-- What stands in front of the first bar is found again in enough of the
    bytes. -/
theorem takeWhile_take_bar {a r : Bytes} (ha : 124 ∉ a) (hlen : a.length < 32) :
    ((a ++ 124 :: r).take 32).takeWhile (fun x => x ≠ 124) = a := by
  have hsucc : 32 - a.length = (31 - a.length) + 1 := by omega
  rw [List.take_append, List.take_of_length_le (by omega), hsucc, List.take_succ_cons,
    List.takeWhile_append_of_pos, List.takeWhile_cons_of_neg, List.append_nil]
  · simp only [ne_eq, not_true_eq_false, decide_false, Bool.false_eq_true, not_false_eq_true]
  · intro x hx
    rw [decide_eq_true_eq]
    rintro rfl
    exact ha hx

theorem digest_eq (p : Bytes) :
    (Primitives.sha256 p).val = (p.reverse ++ List.replicate 32 0).take 32 :=
  rfl

/-- The stand-in for the digest shows the end of the payload, which is the
    time. -/
theorem selfPayment_hash_inj {i j : Nat} (hi : i < 2 ^ 64) (hj : j < 2 ^ 64)
    (h : (selfPayment i).txHash = (selfPayment j).txHash) : i = j := by
  have hdigest : ∀ k, ∃ r, (Primitives.sha256 (selfTransfer k).unsignedPayloadBytes).val =
      ((utf8 (UInt64.ofNat k).toNat.repr).reverse ++ 124 :: r).take 32 := by
    intro k
    have hbar : utf8 "|" = [124] := by decide
    have hend : ∃ front, (selfTransfer k).unsignedPayloadBytes =
        front ++ 124 :: utf8 (UInt64.ofNat k).toNat.repr := by
      rw [Transaction.unsignedPayloadBytes, Transaction.unsignedPayload, utf8_append, utf8_append,
        hbar, List.append_assoc]
      exact ⟨_, rfl⟩
    rcases hend with ⟨front, hfront⟩
    refine ⟨front.reverse ++ List.replicate 32 0, ?_⟩
    rw [digest_eq, hfront, List.reverse_append, List.reverse_cons, List.append_assoc,
      List.append_assoc, List.singleton_append]
  rw [(selfPayment_valid i).hash, (selfPayment_valid j).hash, selfPayment_payload,
    selfPayment_payload, Crypto.hashBytes, Crypto.hashBytes] at h
  have hbytes := hexEncode_inj h
  rcases hdigest i with ⟨r, hr⟩
  rcases hdigest j with ⟨r', hr'⟩
  rw [ofNat_toNat hi] at hr
  rw [ofNat_toNat hj] at hr'
  -- The digits of the time stand before the first bar of the digest.
  have hnum : (utf8 i.repr).reverse = (utf8 j.repr).reverse := by
    have hbar : ∀ n : Nat, 124 ∉ (utf8 n.repr).reverse := by
      intro n
      rw [List.mem_reverse]
      exact bar_notMem_digits n
    rw [← takeWhile_take_bar (r := r) (hbar i)
        (by rw [List.length_reverse]; exact digits_length hi),
      ← hr, hbytes, hr',
      takeWhile_take_bar (hbar j) (by rw [List.length_reverse]; exact digits_length hj)]
  have hrepr := utf8_inj.mp (List.reverse_injective hnum)
  exact repr_toList_inj (congrArg String.toList hrepr)

/-- A block of `m` of the payments. -/
def bulkBlock (tip : Block) (i m : Nat) : Block :=
  Blockchain.sealedBlock tip 0 (selfPayments i m)

theorem bulkBlock_hash (tip : Block) (i m : Nat) :
    (bulkBlock tip i m).blockHash = (bulkBlock tip i m).computeBlockHash :=
  Blockchain.sealedBlock_hash tip 0 (selfPayments i m)

theorem bulkBlock_fields (tip : Block) (i m : Nat) :
    (bulkBlock tip i m).height = tip.height + 1 ∧
      (bulkBlock tip i m).previousHash = tip.blockHash ∧
      (bulkBlock tip i m).timestampUnix = 0 ∧
      (bulkBlock tip i m).transactions = selfPayments i m :=
  ⟨rfl, rfl, rfl, rfl⟩

theorem selfPayments_valid {i m : Nat} : ∀ tx ∈ selfPayments i m, tx.Valid := by
  intro tx htx
  rcases List.mem_map.mp htx with ⟨j, _, rfl⟩
  exact selfPayment_valid j

theorem selfPayments_distinct {i m : Nat} (hn : i + m < 2 ^ 64) :
    ((selfPayments i m).map Transaction.txHash).Nodup := by
  rw [selfPayments, List.map_map]
  refine List.Nodup.map_on ?_ List.nodup_range'
  intro x hx y hy h
  have hx' := List.mem_range'_1.mp hx
  have hy' := List.mem_range'_1.mp hy
  exact selfPayment_hash_inj (by omega) (by omega) h

theorem bulkBlock_follows {tip : Block} {i m : Nat} (hheight : tip.height.toNat + 1 < 2 ^ 64)
    (htime : tip.timestampUnix = 0) (hprev : trim tip.blockHash ≠ "") (hn : i + m < 2 ^ 64) :
    Follows tip (bulkBlock tip i m) := by
  rcases bulkBlock_fields tip i m with ⟨hh, hp, ht, htxs⟩
  refine ⟨?_, hp, ?_, ⟨?_, ?_, ?_, bulkBlock_hash tip i m⟩⟩
  · rw [hh, UInt64.toNat_add, UInt64.toNat_one, Nat.mod_eq_of_lt hheight]
  · rw [htime, ht]
    exact UInt64.le_refl 0
  · rw [hp]
    exact hprev
  · rw [htxs]
    exact selfPayments_distinct hn
  · rw [htxs]
    exact selfPayments_valid

/-- A payment takes 345 bytes, and its length four. -/
theorem selfPayments_push (i m : Nat) :
    ∃ t, writeAll pushNested (selfPayments i m) = some t ∧ t.length = 349 * m := by
  have haddress : (utf8 payer.value).length = 64 := Crypto.hashBytes_byteLength key
  induction m generalizing i with
  | zero => exact ⟨[], rfl, rfl⟩
  | succ m ih =>
      rcases (selfPayment_valid i).pushes with ⟨e, he, hlen⟩
      rcases ih (i + 1) with ⟨t, ht, hlen'⟩
      have hreceiver : (selfPayment i).receiver = payer := rfl
      rw [hreceiver, haddress] at hlen
      refine ⟨e ++ t, ?_, ?_⟩
      · rw [selfPayments, List.range'_succ, List.map_cons]
        exact writeAll_cons_iff.mpr ⟨e, t, he, ht, rfl⟩
      · rw [List.length_append, hlen, hlen']
        omega

theorem bulkBlock_encodes (tip : Block) (i : Nat) {m : Nat} (hm : m < 2 ^ 32)
    (htip : (utf8 tip.blockHash).length < 2 ^ 32) :
    ∃ enc, encodeBlock (bulkBlock tip i m) = some enc ∧
      enc.length = 97 + (utf8 tip.blockHash).length + 349 * m := by
  rcases bulkBlock_fields tip i m with ⟨_, hp, _, htxs⟩
  have hhash : (utf8 (bulkBlock tip i m).blockHash).length = 64 := by
    rw [bulkBlock_hash]
    exact Crypto.hashBytes_byteLength _
  have hcount : (selfPayments i m).length = m := by
    rw [selfPayments, List.length_map, List.length_range']
  -- From here on only the fields of the block count, not how it was built.
  rcases selfPayments_push i m with ⟨t, ht, htlen⟩
  generalize bulkBlock tip i m = b at hp htxs hhash
  rw [← htxs] at hcount ht
  rw [← hp] at htip ⊢
  have hvalid : ∀ tx ∈ b.transactions, tx.Valid := by
    rw [htxs]
    exact selfPayments_valid
  rcases encodeBlock_exists hvalid (by omega) htip (by omega) with ⟨enc, henc⟩
  have hlen := encodeBlock_length henc ht
  exact ⟨enc, henc, by omega⟩

/-- The first of the two large blocks. -/
def bulkFirst (m : Nat) : Block :=
  bulkBlock Block.genesis 0 m

/-- The second one. -/
def bulkSecond (m : Nat) : Block :=
  bulkBlock (bulkFirst m) m m

/-- The chain of the two blocks. -/
def bulkChain (m : Nat) : Blockchain :=
  { blocks := [Block.genesis, bulkFirst m, bulkSecond m], state := selfState (m + m),
    consensus := .default }

theorem bulkFirst_hash_length (m : Nat) : (utf8 (bulkFirst m).blockHash).length = 64 := by
  rw [bulkFirst, bulkBlock_hash]
  exact Crypto.hashBytes_byteLength _

theorem networkBuilt_bulk {m : Nat} (hm : 349 * m + 200 ≤ maxWireFrameBytes) :
    NetworkBuilt genesis (bulkChain m) := by
  unfold maxWireFrameBytes at hm
  -- Both blocks are encoded within a frame.
  have hgenesis : (utf8 Block.genesis.blockHash).length = 12 := by decide
  have hlen := bulkFirst_hash_length m
  rcases bulkBlock_encodes Block.genesis 0 (m := m) (by omega) (by omega) with
    ⟨enc, henc, hsize⟩
  rcases bulkBlock_encodes (bulkFirst m) m (m := m) (by omega) (by omega) with
    ⟨enc', henc', hsize'⟩
  -- Each follows the one before it, and its payments run from where that one ended.
  have hfirst : start.appendBlock (bulkFirst m) =
      (.ok (), ⟨[Block.genesis, bulkFirst m], selfState (0 + m), .default⟩) :=
    Blockchain.appendBlock_of_follows rfl
      (bulkBlock_follows (by decide) rfl (by decide) (by omega)) rfl
      (selfState_run (i := 0) (m := m) (by omega))
  have hsecond :
      (Blockchain.mk [Block.genesis, bulkFirst m] (selfState (0 + m)) .default).appendBlock
      (bulkSecond m) = (.ok (), bulkChain m) := by
    have hfollows : Follows (bulkFirst m) (bulkSecond m) := by
      refine bulkBlock_follows ?_ rfl ?_ (by omega)
      · rw [bulkFirst, (bulkBlock_fields _ _ _).1]
        decide
      rw [bulkFirst, bulkBlock_hash]
      exact Crypto.hashBytes_not_blank _
    rw [Nat.zero_add]
    exact Blockchain.appendBlock_of_follows rfl hfollows rfl
      (selfState_run (i := m) (m := m) (by omega))
  rw [← Blockchain.tryAppendNetworkBlock_default rfl _ 0] at hfirst hsecond
  have hfit : 1 + enc.length ≤ maxWireFrameBytes ∧ 1 + enc'.length ≤ maxWireFrameBytes := by
    unfold maxWireFrameBytes
    omega
  exact .step 0 (.step 0 (.start fromGenesisWithConsensus_start) hfirst henc hfit.1) hsecond henc'
    hfit.2

/-- A node with the two large blocks. -/
def bulkNode (m : Nat) : NodeInner :=
  { genesis := genesis, chain := bulkChain m, pool := .new 8, store := freshStore }

theorem bulkWindow_size {m : Nat} (hm : m < 2 ^ 32) :
    batchSize (window (bulkChain m) 1) = 283 + 698 * m := by
  have hgenesis : (utf8 Block.genesis.blockHash).length = 12 := by decide
  have hlen := bulkFirst_hash_length m
  rcases bulkBlock_encodes Block.genesis 0 (m := m) hm (by omega) with
    ⟨enc, henc, hsize⟩
  rcases bulkBlock_encodes (bulkFirst m) m (m := m) hm (by omega) with
    ⟨enc', henc', hsize'⟩
  have hwindow : window (bulkChain m) 1 = [bulkFirst m, bulkSecond m] := rfl
  have hfirst : encodedLength (bulkFirst m) = enc.length := by
    rw [encodedLength, bulkFirst, henc, Option.getD_some]
  have hsecond : encodedLength (bulkSecond m) = enc'.length := by
    rw [encodedLength, bulkSecond, henc', Option.getD_some]
  rw [hwindow, batchSize, List.map_cons, List.map_cons, List.map_nil, List.sum_cons,
    List.sum_cons, List.sum_nil, hfirst, hsecond]
  omega

/-- Two blocks of a hundred thousand payments each came in frames and are
    refused as a batch. -/
theorem bulk_not_served : NetworkBuilt genesis (bulkNode 100000).chain ∧
    (bulkNode 100000).store.poisoned = false ∧
    (1 : UInt64) ≤ (bulkNode 100000).chain.height ∧
    (bulkNode 100000).applyPredecoded (.getBlocks 1) 0 ⟨0, 0⟩ policy .succeeds =
      some (.error (.malformed batchTooLarge), bulkNode 100000, ⟨0, 0⟩) := by
  have hbuilt : NetworkBuilt genesis (bulkNode 100000).chain :=
    networkBuilt_bulk (m := 100000) (by decide)
  have hheight : (bulkNode 100000).chain.height = 2 := rfl
  have hover : maxWireFrameBytes < batchSize (window (bulkNode 100000).chain 1) := by
    rw [bulkNode, bulkWindow_size (by decide)]
    decide
  rcases getBlocks_eq hbuilt rfl (by decide : 1 ≤ (1 : UInt64).toNat) 0 ⟨0, 0⟩ policy .succeeds with
    ⟨resp, _, _, hans⟩
  rw [if_pos hover] at hans
  refine ⟨hbuilt, rfl, ?_, hans⟩
  rw [hheight]
  decide

end Sample

end Trilogicon
