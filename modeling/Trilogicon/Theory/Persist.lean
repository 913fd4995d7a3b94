import Trilogicon.Core.Node
import Trilogicon.Theory.Restart
import Trilogicon.Theory.Sync

/-!
# A Block in Memory and on Disk

The invariant of a node, and what becomes of one block from the network.

Every write to the file may fail after any number of bytes. A block that the
file refused is taken back in memory, and the store is poisoned unless nothing
was written; a poisoned store takes no more blocks. So the invariant says
nothing about a poisoned file, and otherwise ties the file to the chain.

Encoding a block panics only for a block that cannot have come in a frame. The
invariant keeps such blocks out of the chain.

## Main definitions

* `Encodes`: The block has an encoding.
* `NodeInner.Agrees`: The invariant of a node.

## Theorems

* `encodes_of_predecode`: A block from a message has an encoding.
* `pull_encodes`: So do the blocks of a pull.
* `persist_cases`: What becomes of a block from the network.
-/

namespace Trilogicon

/-- The block has an encoding. -/
def Encodes (b : Block) : Prop :=
  ∃ enc, encodeBlock b = some enc

theorem appendBlock_isSome {b : Block} (h : Encodes b) (s : BlockStore) (calls : AppendIo) :
    ∃ r s', s.appendBlock b calls = some (r, s') := by
  rcases h with ⟨enc, henc⟩
  exact ⟨(s.appendPayload enc calls).1, (s.appendPayload enc calls).2, by
    rw [BlockStore.appendBlock, henc]
    rfl⟩

/-- The blocks of a batch have encodings: they came with them. -/
theorem encodes_of_response {w : Bytes} {bs : List Block}
    (h : wireDecodeBlocksResponse w = .ok bs) : ∀ b ∈ bs, Encodes b := by
  rcases wireDecodeBlocksResponse_ok_iff.mp h with ⟨_, es, hes, _⟩
  intro b hb
  rcases exists_of_writeAll hes b hb with ⟨e, he⟩
  rcases batchEntry_eq_some.mp he with ⟨enc, henc, _⟩
  exact ⟨enc, henc⟩

theorem pushBlocks_isSome {bs : List Block} (h : ∀ b ∈ bs, Encodes b) (out : Bytes) :
    ∃ r, pushBlocks out bs = some r := by
  induction bs generalizing out with
  | nil => exact ⟨_, rfl⟩
  | cons b bs ih =>
      rcases h b List.mem_cons_self with ⟨enc, henc⟩
      rw [pushBlocks, henc, Option.bind_eq_bind, Option.bind_some]
      by_cases hword : 2 ^ 32 ≤ enc.length
      · rw [if_pos hword]
        exact ⟨_, rfl⟩
      by_cases hover : maxWireFrameBytes < (out ++ (beBytes 4 enc.length ++ enc)).length
      · simp only [if_neg hword, if_pos hover]
        exact ⟨_, rfl⟩
      · simp only [if_neg hword, if_neg hover]
        exact ih (fun b' hb' => h b' (List.mem_cons_of_mem b hb')) _

theorem encodes_of_predecode {payload : Bytes} {b : Block}
    (h : predecodeInboundAppPayload payload = .ok (.block b)) : Encodes b := by
  rcases payload with _ | ⟨op, body⟩
  · exact absurd h (by simp only [predecodeInboundAppPayload, reduceCtorEq, not_false_eq_true])
  · rw [predecodeInboundAppPayload] at h
    by_cases htx : op = opTx
    · rw [if_pos htx] at h
      cases hd : decodeTransaction body with
      | error e => simp only [hd, reduceCtorEq] at h
      | ok tx => simp only [hd, Except.ok.injEq, reduceCtorEq] at h
    -- Only the branch for blocks returns one, and its body decodes.
    by_cases hb : op = opBlock
    · rw [if_neg htx, if_pos hb] at h
      cases hd : decodeBlock body with
      | error e => simp only [hd, reduceCtorEq] at h
      | ok b' =>
          simp only [hd, Except.ok.injEq, PredecodedInbound.block.injEq] at h
          exact ⟨body, h ▸ decodeBlock_ok_iff.mp hd⟩
    by_cases hg : op = opGetBlocks
    · rw [if_neg htx, if_neg hb, if_pos hg, ite_error_ok_iff] at h
      exact absurd h.2 (by simp only [Except.ok.injEq, reduceCtorEq, not_false_eq_true])
    by_cases hs : op = opSessionHello ∨ op = opSessionHelloAck
    · rw [if_neg htx, if_neg hb, if_neg hg, if_pos hs] at h
      exact absurd h (by simp only [reduceCtorEq, not_false_eq_true])
    · rw [if_neg htx, if_neg hb, if_neg hg, if_neg hs] at h
      exact absurd h (by simp only [reduceCtorEq, not_false_eq_true])

section Persist

variable [Primitives]

/-- The chain is sound, its blocks have encodings, and unless the store is
    poisoned the file holds exactly them. -/
structure NodeInner.Agrees (g : Genesis) (n : NodeInner) : Prop where
  genesis : n.genesis = g
  sound : n.chain.Sound g
  encodes : ∀ b ∈ n.chain.blocks, Encodes b
  stores : n.store.poisoned = false → n.store.Stores (n.chain.blocks.drop 1)

namespace NodeInner.Agrees

theorem with_pool {g : Genesis} {n : NodeInner} (h : n.Agrees g) (pool : Mempool) :
    ({ n with pool := pool } : NodeInner).Agrees g :=
  ⟨h.genesis, h.sound, h.encodes, h.stores⟩

theorem hygiene {g : Genesis} {n : NodeInner} (h : n.Agrees g) :
    (n.mempoolHygieneAfterLedgerAdvance.2).Agrees g :=
  h.with_pool _

/-- A block that was appended in memory and on disk. -/
theorem appended {g : Genesis} {n : NodeInner} (h : n.Agrees g) {b : Block} {c : Blockchain}
    {s : BlockStore} {calls : AppendIo} (happ : n.chain.appendBlock b = (.ok (), c))
    (henc : Encodes b) (hs : n.store.appendBlock b calls = some (.ok (), s)) (pool : Mempool) :
    ({ n with chain := c, store := s, pool := pool } : NodeInner).Agrees g := by
  rcases Blockchain.appendBlock_ok_sound h.sound happ with ⟨hsound, hblocks⟩
  refine ⟨h.genesis, hsound, ?_, ?_⟩
  · intro b' hb'
    change b' ∈ c.blocks at hb'
    rw [hblocks] at hb'
    rcases List.mem_append.mp hb' with hold | hnew
    · exact h.encodes b' hold
    · rw [List.mem_singleton.mp hnew]
      exact henc
  · intro _
    -- A successful append shows that the store was not poisoned before.
    have husable := (BlockStore.appendBlock_ok_usable hs).1
    change s.Stores (c.blocks.drop 1)
    rw [hblocks, List.drop_append_of_le_length (List.length_pos_iff.mpr h.sound.linked.ne_nil)]
    exact (h.stores husable).append hs

/-- A block that the file refused and memory took back. -/
theorem refused {g : Genesis} {n : NodeInner} (h : n.Agrees g) {b : Block} {s : BlockStore}
    {calls : AppendIo} {e : IoError} (hs : n.store.appendBlock b calls = some (.error e, s)) :
    ({ n with store := s } : NodeInner).Agrees g := by
  refine ⟨h.genesis, h.sound, h.encodes, ?_⟩
  intro husable
  rcases BlockStore.appendBlock_error hs with rfl | hpois
  · exact h.stores husable
  · exact absurd (husable.symm.trans hpois) Bool.false_ne_true

end NodeInner.Agrees

/-- What becomes of a block from the network. It is refused, and the chain is as
    it was, also when memory took it and the file did not; or both take it. -/
theorem persist_cases {g : Genesis} {n : NodeInner} (h : n.Agrees g) {b : Block}
    (henc : Encodes b) (nowUnix : UInt64) (calls : AppendIo) :
    ∃ r n', n.appendNetworkBlockPersist b nowUnix calls = some (r, n') ∧ n'.Agrees g ∧
      n'.pool = n.pool ∧ ((∃ f, r = .error f ∧ n'.chain = n.chain) ∨
        r = .ok () ∧ n.chain.appendBlock b = (.ok (), n'.chain)) := by
  rw [NodeInner.appendNetworkBlockPersist]
  by_cases hpois : n.store.poisoned = true
  · rw [if_pos hpois]
    exact ⟨_, n, rfl, h, rfl, Or.inl ⟨_, rfl, rfl⟩⟩
  rw [if_neg hpois]
  -- The checks on the chain come first, and the file is only written after them.
  rcases n.chain.tryAppendNetworkBlock_cases b nowUnix with ⟨e, hc⟩ | ⟨c, happ, hc⟩
  · rw [hc]
    exact ⟨_, n, rfl, h, rfl, Or.inl ⟨_, rfl, rfl⟩⟩
  · have hlast : c.blocks.getLast? = some b := by
      rw [(Blockchain.appendBlock_ok_sound h.sound happ).2, List.getLast?_concat]
    simp only [hc, hlast]
    rcases appendBlock_isSome henc n.store calls with ⟨r, s, hs⟩
    rw [hs, Option.bind_eq_bind, Option.bind_some]
    cases r with
    | ok _ => exact ⟨_, _, rfl, h.appended happ henc hs n.pool, rfl, Or.inr ⟨rfl, happ⟩⟩
    | error e =>
        -- The rollback gives back the chain as it was.
        have hback := Blockchain.rollbackLastBlock_append h.sound happ
        rw [← h.genesis] at hback
        simp only [hback]
        exact ⟨_, _, rfl, h.refused hs, rfl, Or.inl ⟨_, rfl, rfl⟩⟩

theorem pull_encodes {peer : String} {connection : Except IoError Stream} {start adv : UInt64}
    {g : Genesis} {bs : List Block} {nbytes : UInt64}
    (h : pullBlocksFromPeer peer connection start g adv = .ok (bs, nbytes)) :
    ∀ b ∈ bs, Encodes b := by
  rcases connection with e | s
  · rw [pullBlocksFromPeer] at h
    exact absurd h (by simp only [reduceCtorEq, not_false_eq_true])
  · rcases pull_incoming h with ⟨_, _, _, _, _, _, hdec⟩
    exact encodes_of_response hdec

end Persist

end Trilogicon
