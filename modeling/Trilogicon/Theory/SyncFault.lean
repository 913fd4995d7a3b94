import Trilogicon.Theory.SyncRun

/-!
# What Stops a Catch-up Call

The error exits of the loop of `sync_from_peer_with_clock`, said of the outside
alone.

The outside of a call is the answer of the peer in each round, and the clock and
the file at each block. A round is served when the peer answers with a batch that
continues the chain and every block of it is taken: it is valid where it comes,
and the file writes it. Some rounds are served, and then one thing goes wrong.
The peer does not answer. Its batch does not continue the chain. Or one of its
blocks is refused, because it is not valid or because it could not be written.

Nothing of this mentions the loop. The loop leaves with an error exactly when its
outside has such a fault within the limits of the budget.

## Main definitions

* `SyncWorld.Takes`: Blocks are valid where they come, and are written.
* `SyncWorld.Refuses`: A block is not valid, or cannot be written.
* `ServesRounds`: Rounds in which all goes well.
* `Fault`: A round in which something goes wrong.
* `BreaksOff`: The outside of a call has a fault.

## Theorems

* `persist_outside`: A block is taken or refused.
* `SyncRun.breaksOff`: An error of the loop comes from a fault.
* `BreaksOff.syncRun`: A fault ends the loop with an error.
-/

namespace Trilogicon

/-- The blocks of some batches. -/
def sentBlocks (sent : List (List Block × UInt64)) : List Block :=
  sent.flatMap Prod.fst

/-- The bytes of some batches. -/
def sentBytes (sent : List (List Block × UInt64)) : Nat :=
  (sent.map fun p => p.2.toNat).sum

@[simp] theorem sentBlocks_cons (bs : List Block) (nbytes : UInt64)
    (sent : List (List Block × UInt64)) :
    sentBlocks ((bs, nbytes) :: sent) = bs ++ sentBlocks sent :=
  rfl

@[simp] theorem sentBytes_cons (bs : List Block) (nbytes : UInt64)
    (sent : List (List Block × UInt64)) :
    sentBytes ((bs, nbytes) :: sent) = nbytes.toNat + sentBytes sent := by
  rw [sentBytes, List.map_cons, List.sum_cons, sentBytes]

section SyncFault

variable [Primitives]

/-! ### Faults -/

/-- Memory and the file take the blocks one after the other. The first of them is
    the `k`-th of its call. -/
inductive SyncWorld.Takes (w : SyncWorld) : Nat → NodeInner → List Block → NodeInner → Prop where
  | nil (k : Nat) (n : NodeInner) : w.Takes k n [] n
  | cons {k : Nat} {n n' : NodeInner} {b : Block} {bs : List Block} {c : Blockchain}
      {s : BlockStore} (happ : n.chain.tryAppendNetworkBlock b (w.clock k) = (.ok (), c))
      (hs : n.store.appendBlock b (w.calls k) = some (.ok (), s))
      (hrest : w.Takes (k + 1) { n with chain := c, store := s } bs n') : w.Takes k n (b :: bs) n'

/-- The `k`-th block of a call is refused: it is not valid, or it is and the file
    does not write it. -/
inductive SyncWorld.Refuses (w : SyncWorld) (k : Nat) (n : NodeInner) (b : Block) : Prop where
  | invalid {e : ProtocolError} {c : Blockchain}
      (h : n.chain.tryAppendNetworkBlock b (w.clock k) = (.error e, c))
  | unwritten {c : Blockchain} {e : IoError} {s : BlockStore}
      (happ : n.chain.tryAppendNetworkBlock b (w.clock k) = (.ok (), c))
      (hs : n.store.appendBlock b (w.calls k) = some (.error e, s))

/-- From a round on, the peer sends batches that continue the chain, and all their
    blocks are taken. The first of them is the `total`-th of the call. -/
inductive ServesRounds (peer : String) (w : SyncWorld) :
    Nat → Nat → NodeInner → List (List Block × UInt64) → NodeInner → Prop where
  | nil (round total : Nat) (n : NodeInner) : ServesRounds peer w round total n [] n
  | cons {round total : Nat} {n n' n'' : NodeInner} {bs : List Block} {nbytes : UInt64}
      {sent : List (List Block × UInt64)} (answer : answerOf peer w round n = .ok (bs, nbytes))
      (ne_nil : bs ≠ []) (linear : validateLinearSyncBatch n.chain bs = .ok ())
      (taken : w.Takes total n bs n')
      (rest : ServesRounds peer w (round + 1) (total + bs.length) n' sent n'') :
      ServesRounds peer w round total n ((bs, nbytes) :: sent) n''

/-- Something goes wrong in a round, after these blocks of it. -/
inductive Fault (peer : String) (w : SyncWorld) (round total : Nat) (n : NodeInner) :
    List Block → Prop where
  | unanswered {e : String} (h : answerOf peer w round n = .error e) :
      Fault peer w round total n []
  | notLinear {bs : List Block} {nbytes : UInt64} {e : String}
      (h : answerOf peer w round n = .ok (bs, nbytes)) (hne : bs ≠ [])
      (hlinear : validateLinearSyncBatch n.chain bs = .error e) : Fault peer w round total n []
  | refused {front rest : List Block} {b : Block} {nbytes : UInt64} {n' : NodeInner}
      (h : answerOf peer w round n = .ok (front ++ b :: rest, nbytes))
      (hlinear : validateLinearSyncBatch n.chain (front ++ b :: rest) = .ok ())
      (htaken : w.Takes total n front n') (hbad : w.Refuses (total + front.length) n' b) :
      Fault peer w round total n front

/-- The outside breaks the rest of a call off after some blocks. Some rounds are
    served, and in the next one something goes wrong; and the rounds, blocks and
    bytes before that are within the limits of the budget. -/
def BreaksOff (peer : String) (budget : SyncWorkBudget) (w : SyncWorld)
    (left round total wire : Nat) (n : NodeInner) (new : List Block) : Prop :=
  ∃ sent n₁ front, ServesRounds peer w round total n sent n₁ ∧
    Fault peer w (round + sent.length) (total + (sentBlocks sent).length) n₁ front ∧
    new = sentBlocks sent ++ front ∧ sent.length < left ∧
    total + new.length < budget.maxBlocksPerCall.toNat ∧
    wire + sentBytes sent < budget.maxWireBytesPerCall.toNat

/-! ### A block -/

/-- A block is taken or refused, and the node appends it or reports a failure. -/
theorem persist_outside {n : NodeInner} {b : Block} (husable : n.store.poisoned = false)
    (henc : Encodes b) (w : SyncWorld) (k : Nat) :
    (∃ c s, n.chain.tryAppendNetworkBlock b (w.clock k) = (.ok (), c) ∧
      n.store.appendBlock b (w.calls k) = some (.ok (), s) ∧
      n.appendNetworkBlockPersist b (w.clock k) (w.calls k) =
        some (.ok (), { n with chain := c, store := s })) ∨
    w.Refuses k n b ∧
      ∃ f n', n.appendNetworkBlockPersist b (w.clock k) (w.calls k) = some (.error f, n') := by
  rcases hc : n.chain.tryAppendNetworkBlock b (w.clock k) with ⟨e | _, c⟩
  · refine Or.inr ⟨.invalid hc, ?_⟩
    rw [NodeInner.appendNetworkBlockPersist, husable, if_neg Bool.false_ne_true, hc]
    exact ⟨_, _, rfl⟩
  have hlast : c.blocks.getLast? = some b := by
    rcases n.chain.tryAppendNetworkBlock_cases b (w.clock k) with ⟨e, hc'⟩ | ⟨c₁, happ, hc'⟩
    · rw [hc] at hc'
      exact absurd hc' (by simp only [Prod.mk.injEq, reduceCtorEq, false_and, not_false_eq_true])
    · rw [hc, Prod.mk.injEq] at hc'
      rcases (Blockchain.appendBlock_ok_iff n.chain c₁ b).mp happ with
        ⟨_, _, _, _, _, _, _, _, hc₁⟩
      rw [hc'.2, hc₁]
      exact List.getLast?_concat
  rcases appendBlock_isSome henc n.store (w.calls k) with ⟨e | _, s, hs⟩
  · refine Or.inr ⟨.unwritten hc hs, ?_⟩
    rw [NodeInner.appendNetworkBlockPersist, husable, if_neg Bool.false_ne_true, hc]
    simp only [hlast, hs, Option.bind_eq_bind, Option.bind_some]
    -- Whether memory can go back or not, a failure is reported.
    rcases c.rollbackLastBlock n.genesis with ⟨r | _, c'⟩
    · exact ⟨_, _, rfl⟩
    · exact ⟨_, _, rfl⟩
  · exact Or.inl ⟨c, s, rfl, hs, persist_of_ok husable hc hlast hs⟩

namespace SyncWorld

variable {w : SyncWorld} {n n' : NodeInner} {bs : List Block} {maxBlocks total : Nat}

/-- What is taken is not refused. -/
theorem Refuses.not_taken {k : Nat} {b : Block} {c : Blockchain} {s : BlockStore}
    (h : w.Refuses k n b) (hc : n.chain.tryAppendNetworkBlock b (w.clock k) = (.ok (), c))
    (hs : n.store.appendBlock b (w.calls k) = some (.ok (), s)) : False := by
  cases h with
  | invalid hbad =>
      rw [hc] at hbad
      exact absurd hbad (by simp only [Prod.mk.injEq, reduceCtorEq, false_and, not_false_eq_true])
  | unwritten _ hbad =>
      rw [hs] at hbad
      exact absurd hbad (by simp only [Option.some.injEq, Prod.mk.injEq, reduceCtorEq, false_and,
        not_false_eq_true])

theorem Takes.usable (h : w.Takes total n bs n') (husable : n.store.poisoned = false) :
    n'.store.poisoned = false := by
  induction h with
  | nil => exact husable
  | cons _ hs _ ih => exact ih (BlockStore.appendBlock_ok_usable hs).2

/-! ### A batch -/

/-- A batch whose blocks are all in was taken. -/
theorem takes_of_appendBatch (hbs : ∀ b ∈ bs, Encodes b) (husable : n.store.poisoned = false)
    {total' : Nat}
    (h : NodeInner.appendBatch w maxBlocks n total bs = some (n', total', .ok false)) :
    w.Takes total n bs n' := by
  induction bs generalizing n total with
  | nil =>
      rw [NodeInner.appendBatch, Option.some.injEq, Prod.mk.injEq] at h
      rw [← h.1]
      exact .nil _ _
  | cons b bs ih =>
      rw [List.forall_mem_cons] at hbs
      rw [NodeInner.appendBatch] at h
      -- The first block was appended, so the loop went on with the others.
      rcases persist_outside husable hbs.1 w total with ⟨c, s, hc, hs, hb⟩ | ⟨_, f, n₁, hb⟩
      · simp only [hb, Option.bind_eq_bind, Option.bind_some] at h
        by_cases hfull : maxBlocks ≤ total + 1
        · simp only [if_pos hfull, Option.some.injEq, Prod.mk.injEq, Except.ok.injEq,
            Bool.true_eq_false, and_false] at h
        · rw [if_neg hfull] at h
          exact .cons hc hs (ih hbs.2 (BlockStore.appendBlock_ok_usable hs).2 h)
      · simp only [hb, Option.bind_eq_bind, Option.bind_some, Option.some.injEq, Prod.mk.injEq,
          reduceCtorEq, and_false] at h

/-- In a batch that fails, a block is refused and those before it were taken. -/
theorem refuses_of_appendBatch (hbs : ∀ b ∈ bs, Encodes b) (husable : n.store.poisoned = false)
    {total' : Nat} {e : String} (hmax : total < maxBlocks)
    (h : NodeInner.appendBatch w maxBlocks n total bs = some (n', total', .error e)) :
    ∃ front b rest n₁, bs = front ++ b :: rest ∧ w.Takes total n front n₁ ∧
      w.Refuses (total + front.length) n₁ b ∧ total' = total + front.length ∧
      total + front.length < maxBlocks := by
  induction bs generalizing n total with
  | nil =>
      simp only [NodeInner.appendBatch, Option.some.injEq, Prod.mk.injEq, reduceCtorEq,
        and_false] at h
  | cons b bs ih =>
      rw [List.forall_mem_cons] at hbs
      rw [NodeInner.appendBatch] at h
      rcases persist_outside husable hbs.1 w total with ⟨c, s, hc, hs, hb⟩ | ⟨hbad, f, n₁, hb⟩
      · simp only [hb, Option.bind_eq_bind, Option.bind_some] at h
        by_cases hfull : maxBlocks ≤ total + 1
        · simp only [if_pos hfull, Option.some.injEq, Prod.mk.injEq, reduceCtorEq, and_false] at h
        · rw [if_neg hfull] at h
          rcases ih hbs.2 (BlockStore.appendBlock_ok_usable hs).2 (Nat.lt_of_not_le hfull) h with
            ⟨front, b', rest, n₁, rfl, htaken, hbad, rfl, hroom⟩
          have hshift : total + 1 + front.length = total + (b :: front).length := by
            rw [List.length_cons]
            omega
          rw [hshift] at hbad hroom ⊢
          exact ⟨b :: front, b', rest, n₁, rfl, .cons hc hs htaken, hbad, rfl, hroom⟩
      · simp only [hb, Option.bind_eq_bind, Option.bind_some, Option.some.injEq,
          Prod.mk.injEq] at h
        exact ⟨[], b, bs, n, rfl, .nil _ _, hbad, h.2.1.symm, hmax⟩

/-- While there is room, the inner loop passes over the blocks that are taken. -/
theorem Takes.appendBatch (h : w.Takes total n bs n') (hbs : ∀ b ∈ bs, Encodes b)
    (husable : n.store.poisoned = false) (hroom : total + bs.length < maxBlocks)
    (rest : List Block) :
    NodeInner.appendBatch w maxBlocks n total (bs ++ rest) =
      NodeInner.appendBatch w maxBlocks n' (total + bs.length) rest := by
  induction h with
  | nil => rfl
  | @cons k n _ b bs c s happ hs _ ih =>
      rw [List.forall_mem_cons] at hbs
      rw [List.length_cons] at hroom
      rw [List.cons_append, NodeInner.appendBatch]
      rcases persist_outside husable hbs.1 w k with ⟨c₁, s₁, hc, hs₁, hb⟩ | ⟨hbad, _⟩
      · -- Taking a block has one result, so the loop is where the rest is taken.
        rw [happ, Prod.mk.injEq] at hc
        rw [hs, Option.some.injEq, Prod.mk.injEq] at hs₁
        rw [← hc.2, ← hs₁.2] at hb
        have hmore : ¬ maxBlocks ≤ k + 1 := by omega
        simp only [hb, Option.bind_eq_bind, Option.bind_some, if_neg hmore]
        rw [ih hbs.2 (BlockStore.appendBlock_ok_usable hs).2 (by omega), List.length_cons,
          Nat.add_assoc, Nat.add_comm 1]
      · exact absurd hs (hbad.not_taken happ)

end SyncWorld

/-! ### The loop -/

variable {peer : String} {budget : SyncWorkBudget} {w : SyncWorld}

/-- A fault ends the loop with an error, in the round it is in. -/
theorem Fault.syncRun {round total : Nat} {n : NodeInner} {front : List Block}
    (h : Fault peer w round total n front) (husable : n.store.poisoned = false) (left : Nat)
    {wire : UInt64} (hroom : HasRoom budget total wire)
    (hfits : total + front.length < budget.maxBlocksPerCall.toNat) :
    ∃ pulls n' e,
      SyncRun peer budget w (left + 1) round n total wire pulls front n' (.error e) := by
  cases h with
  | unanswered h => exact ⟨_, _, _, .unanswered hroom h⟩
  | notLinear h hne hlinear => exact ⟨_, _, _, .notLinear hroom h hne hlinear⟩
  | @refused _ rest b nbytes n₁ h hlinear htaken hbad =>
      have henc := pull_encodes h
      rw [List.forall_mem_append, List.forall_mem_cons] at henc
      have hbrings : Brings peer budget w round n total wire (front ++ b :: rest) nbytes :=
        ⟨hroom, h, List.append_ne_nil_of_right_ne_nil _ (List.cons_ne_nil _ _), hlinear⟩
      -- There is room for the block that is refused, so the loop comes to it.
      have htake : ∃ more, (front ++ b :: rest).take (min (front ++ b :: rest).length
          (budget.maxBlocksPerCall.toNat - total)) = front ++ b :: more := by
        rw [List.length_append, List.length_cons]
        obtain ⟨j, hj⟩ : ∃ j, min (front.length + (rest.length + 1))
            (budget.maxBlocksPerCall.toNat - total) = front.length + (j + 1) :=
          ⟨min (front.length + (rest.length + 1)) (budget.maxBlocksPerCall.toNat - total) -
            front.length - 1, by omega⟩
        rw [hj, List.take_length_add_append, List.take_succ_cons]
        exact ⟨_, rfl⟩
      rcases htake with ⟨more, hmore⟩
      rcases persist_outside (htaken.usable husable) henc.2.1 w (total + front.length) with
        ⟨c, s, hc, hs, _⟩ | ⟨_, f, n', hb⟩
      · exact absurd hs (hbad.not_taken hc)
      · refine ⟨_, n', f.display, .refused hbrings (List.prefix_append front _) ?_⟩
        rw [appendTaken, hmore, htaken.appendBatch henc.1 husable hfits, NodeInner.appendBatch, hb]
        rfl

/-- An error of the loop comes from a fault of its outside. -/
theorem SyncRun.breaksOff {left round total : Nat} {wire : UInt64} {n n' : NodeInner}
    {pulls : List Answer} {new : List Block} {r : Except String Bool}
    (h : SyncRun peer budget w left round n total wire pulls new n' r)
    (husable : n.store.poisoned = false) {e : String} (hr : r = .error e) :
    BreaksOff peer budget w left round total wire.toNat n new := by
  -- Three kinds of errors are faults of the round they are in.
  have hhere : ∀ {left round total : Nat} {wire : UInt64} {n : NodeInner} {front : List Block},
      Fault peer w round total n front → HasRoom budget total wire →
      total + front.length < budget.maxBlocksPerCall.toNat →
      BreaksOff peer budget w (left + 1) round total wire.toNat n front := by
    intro left round total wire n front hfault hroom hfits
    exact ⟨[], n, front, .nil _ _ _, hfault, rfl, Nat.succ_pos _, hfits,
      UInt64.lt_iff_toNat_lt.mp hroom.2⟩
  induction h with
  | usedUp _ => exact absurd hr (by simp only [reduceCtorEq, not_false_eq_true])
  | unanswered hroom h => exact hhere (.unanswered h) hroom hroom.1
  | upToDate _ _ => exact absurd hr (by simp only [reduceCtorEq, not_false_eq_true])
  | notLinear hroom h hne hlinear => exact hhere (.notLinear h hne hlinear) hroom hroom.1
  | @refused _ _ n _ total _ _ bs new _ h hnew hbatch =>
      have henc : ∀ b ∈ bs.take (min bs.length (budget.maxBlocksPerCall.toNat - total)),
          Encodes b := fun b hb => pull_encodes h.answer b (List.mem_of_mem_take hb)
      rcases SyncWorld.refuses_of_appendBatch henc husable h.room.1 hbatch with
        ⟨front, b, more, n₁, hsplit, hfront, hbad, hlen, hfits⟩
      -- Both are the part of the batch of one length.
      have hpre : front ++ b :: more <+: bs := hsplit ▸ List.take_prefix _ _
      have hsame : new = front :=
        (List.prefix_of_prefix_length_le hnew ((List.prefix_append front _).trans hpre)
          (by omega)).eq_of_length (by omega)
      rcases hpre with ⟨rest, rfl⟩
      have hanswer := h.answer
      have hlinear := h.linear
      rw [List.append_assoc, List.cons_append] at hanswer hlinear
      rw [hsame]
      exact hhere (.refused hanswer hlinear hfront hbad) h.room hfits
  | lastBatch _ _ _ _ => exact absurd hr (by simp only [reduceCtorEq, not_false_eq_true])
  | @next _ round n _ _ total wire nbytes bs _ _ _ h hbatch hall hsoft _ ih =>
      rw [appendTaken, Nat.min_eq_left hall, List.take_length] at hbatch
      have htaken := SyncWorld.takes_of_appendBatch (pull_encodes h.answer) husable hbatch
      rcases ih (htaken.usable husable) hr with
        ⟨sent, n₁, front, hserves, hfault, rfl, hleft, hfits, hbytes⟩
      refine ⟨(bs, nbytes) :: sent, n₁, front,
        .cons h.answer h.ne_nil h.linear htaken hserves, ?_, ?_, ?_, ?_, ?_⟩
      · rw [sentBlocks_cons, List.length_append, List.length_cons, ← Nat.add_assoc total,
          Nat.add_comm sent.length, ← Nat.add_assoc round]
        exact hfault
      · rw [sentBlocks_cons, List.append_assoc]
      · exact Nat.succ_lt_succ hleft
      · rw [List.length_append]
        omega
      · -- A sum that was cut off is the largest word, which is not below a budget.
        have hword := budget.maxWireBytesPerCall.toNat_lt
        rw [saturatingAdd_toNat] at hbytes
        rw [sentBytes_cons]
        omega

/-- A fault of its outside ends the loop with an error. -/
theorem BreaksOff.syncRun {left round total : Nat} {wire : UInt64} {n : NodeInner}
    {new : List Block} (h : BreaksOff peer budget w left round total wire.toNat n new)
    (husable : n.store.poisoned = false) :
    ∃ pulls n' e, SyncRun peer budget w left round n total wire pulls new n' (.error e) := by
  rcases h with ⟨sent, n₁, front, hserves, hfault, rfl, hleft, hfits, hbytes⟩
  induction hserves generalizing left wire with
  | nil round total n =>
      obtain ⟨j, rfl⟩ : ∃ j, left = j + 1 := ⟨left - 1, (Nat.succ_pred_eq_of_pos hleft).symm⟩
      refine hfault.syncRun husable j ⟨?_, UInt64.lt_iff_toNat_lt.mpr hbytes⟩ hfits
      exact Nat.lt_of_le_of_lt (Nat.le_add_right _ _) hfits
  | @cons round total n n' _ bs nbytes sent answer ne_nil linear taken _ ih =>
      obtain ⟨j, rfl⟩ : ∃ j, left = j + 1 :=
        ⟨left - 1, (Nat.succ_pred_eq_of_pos (Nat.zero_lt_of_lt hleft)).symm⟩
      rw [sentBytes_cons] at hbytes
      rw [sentBlocks_cons, List.length_append, List.length_cons, ← Nat.add_assoc total,
        Nat.add_comm sent.length, ← Nat.add_assoc round] at hfault
      rw [sentBlocks_cons, List.append_assoc, List.length_append] at hfits
      -- The bytes do not reach the budget, so their sum is not cut off.
      have hword := budget.maxWireBytesPerCall.toNat_lt
      have hsum : (saturatingAdd wire nbytes).toNat = wire.toNat + nbytes.toNat := by
        rw [saturatingAdd_toNat]
        omega
      have hwire : wire < budget.maxWireBytesPerCall := UInt64.lt_iff_toNat_lt.mpr (by omega)
      have hsoft : saturatingAdd wire nbytes ≤ budget.maxWireBytesPerCall := by
        rw [UInt64.le_iff_toNat_le, hsum]
        omega
      have hall : bs.length ≤ budget.maxBlocksPerCall.toNat - total := by omega
      have hbatch : appendTaken budget w n total bs = some (n', total + bs.length, .ok false) := by
        have hroom : total + bs.length < budget.maxBlocksPerCall.toNat := by omega
        have hpass := taken.appendBatch (pull_encodes answer) husable hroom []
        rw [List.append_nil] at hpass
        rw [appendTaken, Nat.min_eq_left hall, List.take_length, hpass]
        rfl
      have hbytes' : (saturatingAdd wire nbytes).toNat + sentBytes sent <
          budget.maxWireBytesPerCall.toNat := by
        rw [hsum]
        omega
      rcases ih (taken.usable husable) hfault (Nat.lt_of_succ_lt_succ hleft) (by omega) hbytes' with
        ⟨pulls, n'', e, hrun⟩
      rw [sentBlocks_cons, List.append_assoc]
      exact ⟨_, n'', e, .next ⟨⟨by omega, hwire⟩, answer, ne_nil, linear⟩ hbatch hall hsoft hrun⟩

end SyncFault

end Trilogicon
