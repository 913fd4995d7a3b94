import Trilogicon.Theory.Restart

/-!
# Only the Key Holder Spends

A block is accepted on four paths: appended as it is, taken from the network
after a clock check, sealed from the pool, or replayed from the file. All four
end in `append_block`, so what follows holds on each of them.

An account that loses balance or whose nonce moves sent a transaction of the
block. The transaction carries a key whose address is the account, a signature
that verifies under that key, and the nonce the account had when the
transaction was applied. What counts as a verifying signature is left open.

## Main definitions

* `AcceptedBy`: A block is accepted on one of the four paths.
* `Authorises`: A transaction of an account, with its key, signature and nonce.

## Theorems

* `AcceptedBy.append`: Every path appends the block.
* `applyAll_authorised`: A loss has a transaction that authorises it.
* `spending_authorised`: The same for every accepted block.
-/

namespace Trilogicon

section Authority

variable [Primitives]

/-- The block is accepted on top of the chain. A replay is the replay of the
    blocks of a file, seen at one of its blocks. -/
inductive AcceptedBy (g : Genesis) (c : Blockchain) (b : Block) (c' : Blockchain) : Prop where
  | append (h : c.appendBlock b = (.ok (), c'))
  | network (nowUnix : UInt64) (h : c.tryAppendNetworkBlock b nowUnix = (.ok (), c'))
  | sealed (m : Mempool) (max : Nat) (ts : UInt64) (hashes : Option (List String))
      (h : c.appendBlockFromMempoolPendingRemoval m max ts = (.ok hashes, c'))
      (hb : c'.blocks = c.blocks ++ [b])
  | mempool (m m' : Mempool) (max n : Nat) (ts : UInt64)
      (h : c.appendBlockFromMempool m max ts = (.ok n, c', m'))
      (hb : c'.blocks = c.blocks ++ [b])
  | replay (disk : Option Bytes) (pre post : List Block) (repaired : Bool) (c₀ : Blockchain)
      (hread : (readAllBlocksRepairingTail disk).1 = .ok (pre ++ b :: post, repaired))
      (hgen : chainFromGenesis g = .ok c₀) (hpre : replayAll c₀ pre = .ok c)
      (h : replayAll c₀ (pre ++ [b]) = .ok c')

/-- A seal that extended the chain appended the block it shows. -/
theorem append_of_sealed {c c' : Blockchain} {m : Mempool} {max : Nat} {ts : UInt64} {b : Block}
    (h : (c.appendBlockFromMempoolPendingRemoval m max ts).2 = c')
    (hb : c'.blocks = c.blocks ++ [b]) : c.appendBlock b = (.ok (), c') := by
  have hgrown : c ≠ c' := by
    rintro rfl
    have hlen := congrArg List.length hb
    rw [List.length_append, List.length_singleton] at hlen
    omega
  rcases c.pendingRemoval_cases m max ts with ⟨e, hc⟩ | hc | ⟨b', c₁, happ, _, hc⟩
  · exact absurd (by rw [← h, hc]) hgrown
  · exact absurd (by rw [← h, hc]) hgrown
  · rw [hc] at h
    rcases (Blockchain.appendBlock_ok_iff c c₁ b').mp happ with ⟨_, _, _, _, _, _, _, _, hc₁⟩
    rw [← h, hc₁, List.append_cancel_left_eq, List.singleton_inj] at hb
    rw [← hb, ← h]
    exact happ

/-- Every path appends the block. -/
theorem AcceptedBy.append_ok {g : Genesis} {c c' : Blockchain} {b : Block}
    (h : AcceptedBy g c b c') : c.appendBlock b = (.ok (), c') := by
  cases h with
  | append h => exact h
  | network now h =>
      rcases c.tryAppendNetworkBlock_cases b now with ⟨e, hc⟩ | ⟨c₁, happ, hc⟩
      · rw [hc] at h
        exact absurd h (by simp only [Prod.mk.injEq, reduceCtorEq, false_and, not_false_eq_true])
      · rw [hc, Prod.mk.injEq] at h
        rw [happ, h.2]
  | sealed m max ts hashes h hb => exact append_of_sealed (by rw [h]) hb
  | mempool m m' max n ts h hb =>
      have hsame := c.appendBlockFromMempool_chain m max ts
      rw [h] at hsame
      exact append_of_sealed hsame.symm hb
  | replay disk pre post repaired c₀ _ _ hpre h =>
      exact (replayAll_ok_iff.mp hpre).snoc_inv (replayAll_ok_iff.mp h)

/-- The transaction stands in the list after `pre`, and the account signed it
    with its own key at the nonce it had there. -/
structure Authorises (s : State) (txs pre : List Transaction) (tx : Transaction) (a : Address) :
    Prop where
  mem : ∃ post, txs = pre ++ tx :: post
  sender : tx.sender = a
  key : Crypto.addressFromPublicKey tx.publicKey = a.value
  signed : Crypto.verifySignature tx.unsignedPayloadBytes tx.signature tx.publicKey = true
  nonce : ∃ mid, s.applyAll pre = .ok mid ∧ ∃ acc, mid.getAccount a = some acc ∧
    acc.nonce = tx.nonce

theorem Authorises.cons {s t : State} {txs pre : List Transaction} {tx first : Transaction}
    {a : Address} (hfirst : s.applyTransaction first = (.ok (), t))
    (h : Authorises t txs pre tx a) : Authorises s (first :: txs) (first :: pre) tx a where
  mem := by
    rcases h.mem with ⟨post, rfl⟩
    exact ⟨post, rfl⟩
  sender := h.sender
  key := h.key
  signed := h.signed
  nonce := by
    rcases h.nonce with ⟨mid, hmid, hacc⟩
    exact ⟨mid, (State.applyAll_cons_ok_iff s mid first pre).mpr ⟨t, hfirst, hmid⟩, hacc⟩

/-- A transaction that was applied is authorised by its sender. -/
theorem authorises_head {s t : State} {tx : Transaction} {txs : List Transaction}
    (h : s.applyTransaction tx = (.ok (), t)) : Authorises s (tx :: txs) [] tx tx.sender := by
  rcases (State.applyTransaction_ok_iff s t tx).mp h with ⟨hvalid, hadmits, _⟩
  rcases (State.admits_iff s tx).mp hadmits with ⟨acc, hacc, hnonce, _⟩
  exact ⟨⟨txs, rfl⟩, rfl, hvalid.bound.symm, hvalid.signed, s, rfl, acc, hacc, hnonce⟩

/-- A loss of balance or a move of the nonce has a transaction that authorises
    it. -/
theorem applyAll_authorised {s s' : State} {txs : List Transaction} {a : Address}
    (h : s.applyAll txs = .ok s')
    (hloss : s'.balance a < s.balance a ∨ s'.nonce a ≠ s.nonce a) :
    ∃ pre tx, Authorises s txs pre tx a := by
  induction txs generalizing s with
  | nil =>
      rw [State.applyAll, Except.ok.injEq] at h
      subst h
      rcases hloss with hlt | hne
      · exact absurd hlt (Nat.lt_irrefl _)
      · exact absurd rfl hne
  | cons tx txs ih =>
      rcases (State.applyAll_cons_ok_iff s s' tx txs).mp h with ⟨t, htx, hrest⟩
      by_cases hsender : a = tx.sender
      · exact ⟨[], tx, hsender ▸ authorises_head htx⟩
      · -- Another sender's transaction costs the account nothing, so the loss
        -- comes later in the list.
        rcases (State.applyTransaction_ok_iff s t tx).mp htx with ⟨_, _, hbook⟩
        have hkeep := s.book.post_balance_of_ne_sender tx.transfer a hsender
        rw [← hbook] at hkeep
        have hlater : s'.balance a < t.balance a ∨ s'.nonce a ≠ t.nonce a :=
          hloss.imp (fun hlt => Nat.lt_of_lt_of_le hlt hkeep.1) fun hne heq =>
            hne (heq.trans hkeep.2)
        rcases ih hrest hlater with ⟨pre, tx', hauth⟩
        exact ⟨tx :: pre, tx', hauth.cons htx⟩

/-- Nonces do not decrease. -/
theorem applyAll_nonce_le {s s' : State} {txs : List Transaction} (h : s.applyAll txs = .ok s')
    (a : Address) : s.nonce a ≤ s'.nonce a := by
  induction txs generalizing s with
  | nil =>
      rw [State.applyAll, Except.ok.injEq] at h
      rw [h]
  | cons tx txs ih =>
      rcases (State.applyAll_cons_ok_iff s s' tx txs).mp h with ⟨t, htx, hrest⟩
      rcases (State.applyTransaction_ok_iff s t tx).mp htx with ⟨_, _, hbook⟩
      have hstep : s.nonce a ≤ t.nonce a := by
        change s.book.nonce a ≤ t.book.nonce a
        rw [hbook, State.nonce_post]
        exact Nat.le_add_right _ _
      exact hstep.trans (ih hrest)

/-- Only the key holder can spend. Whatever path a block is accepted on, an
    account that loses balance or whose nonce moves authorised a transaction of
    the block, and no nonce decreases. -/
theorem spending_authorised {g : Genesis} {c c' : Blockchain} {b : Block}
    (h : AcceptedBy g c b c') (a : Address) :
    (c'.state.balance a < c.state.balance a ∨ c'.state.nonce a ≠ c.state.nonce a →
      ∃ pre tx, Authorises c.state b.transactions pre tx a) ∧
      c.state.nonce a ≤ c'.state.nonce a := by
  rcases (Blockchain.appendBlock_ok_iff c c' b).mp h.append_ok with
    ⟨_, _, _, _, _, _, next, hnext, rfl⟩
  exact ⟨applyAll_authorised hnext, applyAll_nonce_le hnext a⟩

end Authority

namespace Sample

/-- The payment costs the payer six units, and the payer signed it. -/
theorem spending_authorised_payer : chain.state.balance payer < start.state.balance payer ∧
    ∃ pre tx, Authorises start.state block.transactions pre tx payer := by
  have hloss : chain.state.balance payer < start.state.balance payer := by decide +kernel
  exact ⟨hloss, (spending_authorised (g := genesis) (.append appendBlock_chain) payer).1
    (Or.inl hloss)⟩

end Sample

end Trilogicon
