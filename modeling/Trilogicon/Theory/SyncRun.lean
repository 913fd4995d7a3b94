import Trilogicon.Theory.Persist
import Trilogicon.Theory.Pool

/-!
# Runs of a Catch-up Call

The loop of `sync_from_peer_with_clock` as a relation, with the answers it got
and the blocks it appended.

A round asks the peer and gets an answer. The call ends there when the answer is
an error or an empty batch, when the batch does not continue the chain, when a
block of it is refused, or when the budget is used up. Otherwise the whole batch
was appended and the next round begins. `SyncRun` has one case for each of these
ends and one for a round that is followed by another. It lists the answers in
order and the blocks that were appended, so that what a call does can be said
about these lists.

The relation is the loop: from a node in agreement the loop has a run, and a run
is what the loop returns. The call adds two checks in front of the loop and the
cleaning of the pool behind it.

## Main definitions

* `Answer`: What a pull returns.
* `Brings`: A round brings a batch that continues the chain.
* `SyncRun`: A run of the loop.
* `finishSync`: What a call makes of the end of its loop.
* `PullsOnly`: All blocks that connections bring are of some kind.

## Theorems

* `appendBatch_cases`: What becomes of a batch.
* `exists_syncRun`: The loop has a run.
* `SyncRun.syncRounds`: A run is what the loop returns.
* `SyncRun.appends`: What a run does to the node.
* `SyncRun.bytes_below`: When a run asks again.
* `sync_ran`: A call in terms of its run.
-/

namespace Trilogicon

/-- What a pull returns: blocks and the size of the response, or an error. -/
abbrev Answer := Except String (List Block × UInt64)

section SyncRun

variable [Primitives]

/-- The answer a node gets in a round. -/
def answerOf (peer : String) (w : SyncWorld) (round : Nat) (n : NodeInner) : Answer :=
  pullBlocksFromPeer peer (w.connection round) (saturatingSucc n.chain.height) n.genesis
    n.chain.height

/-- The budget leaves room for a pull. -/
def HasRoom (budget : SyncWorkBudget) (total : Nat) (wire : UInt64) : Prop :=
  total < budget.maxBlocksPerCall.toNat ∧ wire < budget.maxWireBytesPerCall

/-- The round brings a batch that continues the chain. -/
structure Brings (peer : String) (budget : SyncWorkBudget) (w : SyncWorld) (round : Nat)
    (n : NodeInner) (total : Nat) (wire : UInt64) (bs : List Block) (nbytes : UInt64) : Prop where
  room : HasRoom budget total wire
  answer : answerOf peer w round n = .ok (bs, nbytes)
  ne_nil : bs ≠ []
  linear : validateLinearSyncBatch n.chain bs = .ok ()

/-- What the inner loop does with a batch: append the blocks there is room for. -/
def appendTaken (budget : SyncWorkBudget) (w : SyncWorld) (n : NodeInner) (total : Nat)
    (bs : List Block) : Option (NodeInner × Nat × Except String Bool) :=
  NodeInner.appendBatch w budget.maxBlocksPerCall.toNat n total
    (bs.take (min bs.length (budget.maxBlocksPerCall.toNat - total)))

/-- A run of the loop, from the rounds that are left, the number of the next
    round, the node, the blocks appended and the bytes received so far. It has the
    answers of the peer, the blocks that are appended, and the node and the
    result at the end. -/
inductive SyncRun (peer : String) (budget : SyncWorkBudget) (w : SyncWorld) :
    Nat → Nat → NodeInner → Nat → UInt64 →
      List Answer → List Block → NodeInner → Except String Bool → Prop where
  | usedUp {left round : Nat} {n : NodeInner} {total : Nat} {wire : UInt64}
      (h : left = 0 ∨ ¬ HasRoom budget total wire) :
      SyncRun peer budget w left round n total wire [] [] n (.ok true)
  | unanswered {left round : Nat} {n : NodeInner} {total : Nat} {wire : UInt64} {e : String}
      (hroom : HasRoom budget total wire) (h : answerOf peer w round n = .error e) :
      SyncRun peer budget w (left + 1) round n total wire [.error e] [] n (.error e)
  | upToDate {left round : Nat} {n : NodeInner} {total : Nat} {wire nbytes : UInt64}
      (hroom : HasRoom budget total wire) (h : answerOf peer w round n = .ok ([], nbytes)) :
      SyncRun peer budget w (left + 1) round n total wire [.ok ([], nbytes)] [] n (.ok false)
  | notLinear {left round : Nat} {n : NodeInner} {total : Nat} {wire nbytes : UInt64}
      {bs : List Block} {e : String} (hroom : HasRoom budget total wire)
      (h : answerOf peer w round n = .ok (bs, nbytes)) (hne : bs ≠ [])
      (hlinear : validateLinearSyncBatch n.chain bs = .error e) :
      SyncRun peer budget w (left + 1) round n total wire [.ok (bs, nbytes)] [] n (.error e)
  | refused {left round : Nat} {n n' : NodeInner} {total : Nat} {wire nbytes : UInt64}
      {bs new : List Block} {e : String}
      (h : Brings peer budget w round n total wire bs nbytes) (hnew : new <+: bs)
      (hbatch : appendTaken budget w n total bs = some (n', total + new.length, .error e)) :
      SyncRun peer budget w (left + 1) round n total wire [.ok (bs, nbytes)] new n' (.error e)
  | lastBatch {left round : Nat} {n n' : NodeInner} {total : Nat} {wire nbytes : UInt64}
      {bs new : List Block} {full : Bool}
      (h : Brings peer budget w round n total wire bs nbytes) (hnew : new <+: bs)
      (hbatch : appendTaken budget w n total bs = some (n', total + new.length, .ok full))
      (hend : full = true ∨ budget.maxBlocksPerCall.toNat - total < bs.length ∨
        budget.maxWireBytesPerCall < saturatingAdd wire nbytes) :
      SyncRun peer budget w (left + 1) round n total wire [.ok (bs, nbytes)] new n' (.ok true)
  | next {left round : Nat} {n n' n'' : NodeInner} {total : Nat} {wire nbytes : UInt64}
      {bs new : List Block} {pulls : List Answer} {r : Except String Bool}
      (h : Brings peer budget w round n total wire bs nbytes)
      (hbatch : appendTaken budget w n total bs = some (n', total + bs.length, .ok false))
      (hall : bs.length ≤ budget.maxBlocksPerCall.toNat - total)
      (hsoft : saturatingAdd wire nbytes ≤ budget.maxWireBytesPerCall)
      (hrest : SyncRun peer budget w left (round + 1) n' (total + bs.length)
        (saturatingAdd wire nbytes) pulls new n'' r) :
      SyncRun peer budget w (left + 1) round n total wire (.ok (bs, nbytes) :: pulls) (bs ++ new)
        n'' r

/-! ### A batch -/

/-- What becomes of a batch. Its first blocks are appended: all of them, or as many
    as the budget allows, or those in front of one that is refused. -/
theorem appendBatch_cases {g : Genesis} (w : SyncWorld) (maxBlocks : Nat) {bs : List Block}
    (hbs : ∀ b ∈ bs, Encodes b) {n : NodeInner} (h : n.Agrees g) (total : Nat) :
    ∃ n' new r, NodeInner.appendBatch w maxBlocks n total bs =
        some (n', total + new.length, r) ∧ n'.Agrees g ∧ n'.pool = n.pool ∧ new <+: bs ∧
      Accepted n.chain new n'.chain ∧
      (total < maxBlocks → total + new.length ≤ maxBlocks) ∧
      (∀ full, r = .ok full → bs ≠ [] → new ≠ []) ∧ (r = .ok false → new = bs) := by
  induction bs generalizing n total with
  | nil =>
      refine ⟨n, [], .ok false, rfl, h, rfl, List.prefix_rfl, .nil _, ?_, ?_, ?_⟩
      · exact fun hlt => Nat.le_of_lt hlt
      · exact fun _ _ hne => absurd rfl hne
      · exact fun _ => rfl
  | cons b bs ih =>
      rw [List.forall_mem_cons] at hbs
      rcases persist_cases h hbs.1 (w.clock total) (w.calls total) with
        ⟨r, n₁, hr, hn₁, hpool, hcases⟩
      rw [NodeInner.appendBatch, hr, Option.bind_eq_bind, Option.bind_some]
      rcases hcases with ⟨f, rfl, hchain⟩ | ⟨rfl, happ⟩
      · -- The block is refused, and nothing of the batch is in from here on.
        refine ⟨n₁, [], .error f.display, rfl, hn₁, hpool, List.nil_prefix, ?_, ?_, ?_, ?_⟩
        · exact hchain ▸ .nil _
        · exact fun hlt => Nat.le_of_lt hlt
        · exact fun _ hc => absurd hc (by simp only [reduceCtorEq, not_false_eq_true])
        · exact fun hc => absurd hc (by simp only [reduceCtorEq, not_false_eq_true])
      · -- The block is in; either it was the last that the budget allows, or the batch goes on.
        by_cases hfull : maxBlocks ≤ total + 1
        · simp only [if_pos hfull]
          refine ⟨n₁, [b], .ok true, rfl, hn₁, hpool, ⟨bs, rfl⟩, .cons happ (.nil _), ?_, ?_, ?_⟩
          · intro hlt
            rw [List.length_singleton]
            omega
          · exact fun _ _ _ => List.cons_ne_nil b []
          · exact fun hc => absurd hc (by simp only [Except.ok.injEq, Bool.true_eq_false,
              not_false_eq_true])
        · simp only [if_neg hfull]
          rcases ih hbs.2 hn₁ (total + 1) with
            ⟨n', new, r, hrun, hn', hpool', hnew, hacc, hle, _, hall⟩
          refine ⟨n', b :: new, r, ?_, hn', hpool'.trans hpool, ?_, .cons happ hacc, ?_, ?_, ?_⟩
          · rw [hrun, List.length_cons, Nat.add_assoc, Nat.add_comm 1]
          · exact List.cons_prefix_cons.mpr ⟨rfl, hnew⟩
          · intro _
            have := hle (by omega)
            rw [List.length_cons]
            omega
          · exact fun _ _ _ => List.cons_ne_nil b new
          · intro hc
            rw [hall hc]

/-- What becomes of the batch of a round. -/
theorem appendTaken_cases {g : Genesis} (budget : SyncWorkBudget) (w : SyncWorld)
    {bs : List Block} (hbs : ∀ b ∈ bs, Encodes b) {n : NodeInner} (h : n.Agrees g) (total : Nat) :
    ∃ n' new r, appendTaken budget w n total bs = some (n', total + new.length, r) ∧
      n'.Agrees g ∧ n'.pool = n.pool ∧ new <+: bs ∧ Accepted n.chain new n'.chain ∧
      (total < budget.maxBlocksPerCall.toNat →
        total + new.length ≤ budget.maxBlocksPerCall.toNat) ∧
      (∀ full, r = .ok full → bs ≠ [] → total < budget.maxBlocksPerCall.toNat → new ≠ []) ∧
      (r = .ok false → bs.length ≤ budget.maxBlocksPerCall.toNat - total → new = bs) := by
  have htaken : ∀ b ∈ bs.take (min bs.length (budget.maxBlocksPerCall.toNat - total)),
      Encodes b := fun b hb => hbs b (List.mem_of_mem_take hb)
  rcases appendBatch_cases w budget.maxBlocksPerCall.toNat htaken h total with
    ⟨n', new, r, hrun, hn', hpool, hnew, hacc, hle, hsome, hall⟩
  refine ⟨n', new, r, hrun, hn', hpool, hnew.trans (List.take_prefix _ _), hacc, hle, ?_, ?_⟩
  · intro full hr hne hlt
    -- There was room for at least one block of the batch.
    refine hsome full hr ?_
    rw [ne_eq, List.take_eq_nil_iff, not_or]
    have := List.length_pos_iff.mpr hne
    exact ⟨by omega, hne⟩
  · intro hr hfits
    rw [hall hr, Nat.min_eq_left hfits, List.take_length]

/-- What is known of the batch of a round from its result: how many blocks were
    appended says which. -/
theorem appendTaken_spec {g : Genesis} {budget : SyncWorkBudget} {w : SyncWorld}
    {bs new : List Block} (hbs : ∀ b ∈ bs, Encodes b) {n n' : NodeInner} (h : n.Agrees g)
    {total : Nat} {r : Except String Bool} (hnew : new <+: bs)
    (hbatch : appendTaken budget w n total bs = some (n', total + new.length, r)) :
    n'.Agrees g ∧ n'.pool = n.pool ∧ Accepted n.chain new n'.chain ∧
      (total < budget.maxBlocksPerCall.toNat →
        total + new.length ≤ budget.maxBlocksPerCall.toNat) ∧
      ∀ full, r = .ok full → bs ≠ [] → total < budget.maxBlocksPerCall.toNat → new ≠ [] := by
  rcases appendTaken_cases budget w hbs h total with
    ⟨n₁, new₁, r₁, hrun, hn₁, hpool, hnew₁, hacc, hle, hsome, _⟩
  rw [hbatch, Option.some.injEq, Prod.mk.injEq, Prod.mk.injEq] at hrun
  rcases hrun with ⟨rfl, hlen, rfl⟩
  -- Both are the part of the batch of that length.
  have hsame : new = new₁ :=
    (List.prefix_of_prefix_length_le hnew hnew₁ (by omega)).eq_of_length (by omega)
  rw [hsame]
  exact ⟨hn₁, hpool, hacc, hle, hsome⟩

/-! ### The loop -/

theorem syncRounds_usedUp {peer : String} {budget : SyncWorkBudget} {w : SyncWorld}
    {left round : Nat} {n : NodeInner} {total : Nat} {wire : UInt64}
    (h : left = 0 ∨ ¬ HasRoom budget total wire) :
    NodeInner.syncRounds peer budget w left round n total wire = some (n, total, .ok true) := by
  cases left with
  | zero => rfl
  | succ left =>
      have hroom := h.resolve_left (Nat.succ_ne_zero left)
      rw [NodeInner.syncRounds]
      by_cases hblocks : budget.maxBlocksPerCall.toNat ≤ total
      · simp only [if_pos hblocks]
      · have hbytes : budget.maxWireBytesPerCall ≤ wire := by
          by_contra hc
          exact hroom ⟨Nat.not_le.mp hblocks, UInt64.not_le.mp hc⟩
        simp only [if_neg hblocks, if_pos hbytes]

theorem syncRounds_unanswered {peer : String} {budget : SyncWorkBudget} {w : SyncWorld}
    {left round : Nat} {n : NodeInner} {total : Nat} {wire : UInt64} {e : String}
    (hroom : HasRoom budget total wire) (h : answerOf peer w round n = .error e) :
    NodeInner.syncRounds peer budget w (left + 1) round n total wire =
      some (n, total, .error e) := by
  unfold answerOf at h
  rw [NodeInner.syncRounds]
  simp only [h, if_neg (Nat.not_le.mpr hroom.1), if_neg (UInt64.not_le.mpr hroom.2)]

theorem syncRounds_notLinear {peer : String} {budget : SyncWorkBudget} {w : SyncWorld}
    {left round : Nat} {n : NodeInner} {total : Nat} {wire nbytes : UInt64} {bs : List Block}
    {e : String} (hroom : HasRoom budget total wire)
    (h : answerOf peer w round n = .ok (bs, nbytes)) (hne : bs ≠ [])
    (hlinear : validateLinearSyncBatch n.chain bs = .error e) :
    NodeInner.syncRounds peer budget w (left + 1) round n total wire =
      some (n, total, .error e) := by
  unfold answerOf at h
  rw [NodeInner.syncRounds]
  simp only [h, hlinear, if_neg (Nat.not_le.mpr hroom.1), if_neg (UInt64.not_le.mpr hroom.2),
    if_neg hne]

theorem syncRounds_refused {peer : String} {budget : SyncWorkBudget} {w : SyncWorld}
    {left round : Nat} {n n' : NodeInner} {total total' : Nat} {wire nbytes : UInt64}
    {bs : List Block} {e : String} (h : Brings peer budget w round n total wire bs nbytes)
    (hbatch : appendTaken budget w n total bs = some (n', total', .error e)) :
    NodeInner.syncRounds peer budget w (left + 1) round n total wire =
      some (n', total', .error e) := by
  have hanswer := h.answer
  have htotal := h.room.1
  have hroom : ¬ budget.maxBlocksPerCall.toNat - total = 0 := by omega
  unfold answerOf at hanswer
  unfold appendTaken at hbatch
  rw [NodeInner.syncRounds]
  simp only [hanswer, h.linear, hbatch, if_neg (Nat.not_le.mpr htotal),
    if_neg (UInt64.not_le.mpr h.room.2), if_neg h.ne_nil, if_neg hroom, Option.bind_eq_bind,
    Option.bind_some]

/-- A run is what the loop returns. -/
theorem SyncRun.syncRounds {peer : String} {budget : SyncWorkBudget} {w : SyncWorld}
    {left round : Nat} {n : NodeInner} {total : Nat} {wire : UInt64} {pulls : List Answer}
    {new : List Block} {n' : NodeInner} {r : Except String Bool}
    (h : SyncRun peer budget w left round n total wire pulls new n' r) :
    NodeInner.syncRounds peer budget w left round n total wire =
      some (n', total + new.length, r) := by
  induction h with
  | usedUp h => exact syncRounds_usedUp h
  | unanswered hroom h => exact syncRounds_unanswered hroom h
  | upToDate hroom h => exact syncRounds_empty hroom.1 hroom.2 h
  | notLinear hroom h hne hlinear => exact syncRounds_notLinear hroom h hne hlinear
  | refused h _ hbatch => exact syncRounds_refused h hbatch
  | lastBatch h _ hbatch hend =>
      rw [syncRounds_batch h.room.1 h.room.2 h.answer h.ne_nil h.linear hbatch, if_pos hend]
  | next h hbatch hall hsoft _ ih =>
      have hgoes : ¬ (false = true ∨ budget.maxBlocksPerCall.toNat - _ < List.length _ ∨
          budget.maxWireBytesPerCall < saturatingAdd _ _) :=
        not_or.mpr ⟨Bool.false_ne_true, not_or.mpr ⟨Nat.not_lt.mpr hall, UInt64.not_lt.mpr hsoft⟩⟩
      rw [syncRounds_batch h.room.1 h.room.2 h.answer h.ne_nil h.linear hbatch, if_neg hgoes, ih,
        List.length_append, Nat.add_assoc]

/-- From a node in agreement the loop has a run. -/
theorem exists_syncRun {g : Genesis} (peer : String) (budget : SyncWorkBudget) (w : SyncWorld)
    (left round : Nat) {n : NodeInner} (hn : n.Agrees g) (total : Nat) (wire : UInt64) :
    ∃ pulls new n' r, SyncRun peer budget w left round n total wire pulls new n' r := by
  induction left generalizing round n total wire with
  | zero => exact ⟨_, _, _, _, .usedUp (Or.inl rfl)⟩
  | succ left ih =>
      by_cases hroom : HasRoom budget total wire
      · -- The ends of a round in the order of the source.
        cases hanswer : answerOf peer w round n with
        | error e => exact ⟨_, _, _, _, .unanswered hroom hanswer⟩
        | ok p =>
            rcases p with ⟨bs, nbytes⟩
            by_cases hne : bs = []
            · exact ⟨_, _, _, _, .upToDate hroom (hne ▸ hanswer)⟩
            cases hlinear : validateLinearSyncBatch n.chain bs with
            | error e => exact ⟨_, _, _, _, .notLinear hroom hanswer hne hlinear⟩
            | ok _ =>
                have hbrings : Brings peer budget w round n total wire bs nbytes :=
                  ⟨hroom, hanswer, hne, hlinear⟩
                rcases appendTaken_cases budget w (pull_encodes hanswer) hn total with
                  ⟨n', new, r, hbatch, hn', _, hnew, _, _, _, hall⟩
                cases r with
                | error e => exact ⟨_, _, _, _, .refused hbrings hnew hbatch⟩
                | ok full =>
                    by_cases hend : full = true ∨
                        budget.maxBlocksPerCall.toNat - total < bs.length ∨
                        budget.maxWireBytesPerCall < saturatingAdd wire nbytes
                    · exact ⟨_, _, _, _, .lastBatch hbrings hnew hbatch hend⟩
                    · -- The whole batch is in, and the next round starts from there.
                      rw [not_or, not_or, Bool.not_eq_true, Nat.not_lt, UInt64.not_lt] at hend
                      rcases hend with ⟨rfl, hfits, hsoft⟩
                      rw [hall rfl hfits] at hbatch
                      rcases ih (round + 1) hn' (total + bs.length) (saturatingAdd wire nbytes)
                        with ⟨pulls, rest, n'', r, hrest⟩
                      exact ⟨_, _, _, _, .next hbrings hbatch hfits hsoft hrest⟩
      · exact ⟨_, _, _, _, .usedUp (Or.inr hroom)⟩

/-! ### What holds of every run -/

/-- All that is pulled on some connections is of some kind. -/
def PullsOnly (B : Block → Prop) (peer : String) (w : SyncWorld) : Prop :=
  ∀ round start g advisory bs nbytes,
    pullBlocksFromPeer peer (w.connection round) start g advisory = .ok (bs, nbytes) →
      ∀ b ∈ bs, B b

/-- The blocks of the answers, in order. -/
def answeredBlocks (pulls : List Answer) : List Block :=
  pulls.flatMap fun
    | .error _ => []
    | .ok (bs, _) => bs

/-- The bytes of the answers. -/
def answeredBytes (pulls : List Answer) : Nat :=
  (pulls.map fun
    | .error _ => 0
    | .ok (_, nbytes) => nbytes.toNat).sum

namespace SyncRun

variable {peer : String} {budget : SyncWorkBudget} {w : SyncWorld} {left round : Nat}
  {n n' : NodeInner} {total : Nat} {wire : UInt64} {pulls : List Answer} {new : List Block}
  {r : Except String Bool}

/-- There is at most one pull for each round that was left. -/
theorem length_pulls (h : SyncRun peer budget w left round n total wire pulls new n' r) :
    pulls.length ≤ left := by
  induction h with
  | usedUp _ => exact Nat.zero_le _
  | unanswered _ _ => exact Nat.succ_le_succ (Nat.zero_le _)
  | upToDate _ _ => exact Nat.succ_le_succ (Nat.zero_le _)
  | notLinear _ _ _ _ => exact Nat.succ_le_succ (Nat.zero_le _)
  | refused _ _ _ => exact Nat.succ_le_succ (Nat.zero_le _)
  | lastBatch _ _ _ _ => exact Nat.succ_le_succ (Nat.zero_le _)
  | next _ _ _ _ _ ih => exact Nat.succ_le_succ ih

/-- What a run got in its pulls are answers. -/
theorem mem_pulls (h : SyncRun peer budget w left round n total wire pulls new n' r) :
    ∀ p ∈ pulls, ∃ k m, answerOf peer w k m = p := by
  induction h with
  | usedUp _ => exact fun p hp => absurd hp List.not_mem_nil
  | unanswered _ h => exact List.forall_mem_singleton.mpr ⟨_, _, h⟩
  | upToDate _ h => exact List.forall_mem_singleton.mpr ⟨_, _, h⟩
  | notLinear _ h _ _ => exact List.forall_mem_singleton.mpr ⟨_, _, h⟩
  | refused h _ _ => exact List.forall_mem_singleton.mpr ⟨_, _, h.answer⟩
  | lastBatch h _ _ _ => exact List.forall_mem_singleton.mpr ⟨_, _, h.answer⟩
  | next h _ _ _ _ ih => exact List.forall_mem_cons.mpr ⟨⟨_, _, h.answer⟩, ih⟩

/-- What is known of all blocks that the connections bring holds of those a run
    received. -/
theorem answered (h : SyncRun peer budget w left round n total wire pulls new n' r)
    {B : Block → Prop} (hw : PullsOnly B peer w) : ∀ b ∈ answeredBlocks pulls, B b := by
  intro b hb
  rcases List.mem_flatMap.mp hb with ⟨p, hp, hbp⟩
  rcases h.mem_pulls p hp with ⟨k, m, hanswer⟩
  cases p with
  | error e => exact absurd hbp List.not_mem_nil
  | ok batch => exact hw _ _ _ _ _ _ hanswer b hbp

/-- A run appends the blocks it lists and keeps the pool. It takes them off the
    front of what it received, within the budget. -/
theorem appends {g : Genesis} (hn : n.Agrees g)
    (h : SyncRun peer budget w left round n total wire pulls new n' r) :
    n'.Agrees g ∧ n'.pool = n.pool ∧ Accepted n.chain new n'.chain ∧
      new <+: answeredBlocks pulls ∧ (total ≤ budget.maxBlocksPerCall.toNat →
        total + new.length ≤ budget.maxBlocksPerCall.toNat) := by
  -- Four of the ends come before any block of their round.
  have hnone : ∀ {n : NodeInner} {total : Nat} {pulls : List Answer}, n.Agrees g →
      n.Agrees g ∧ n.pool = n.pool ∧ Accepted n.chain [] n.chain ∧
        [] <+: answeredBlocks pulls ∧ (total ≤ budget.maxBlocksPerCall.toNat →
          total + ([] : List Block).length ≤ budget.maxBlocksPerCall.toNat) := by
    intro n total pulls hn
    exact ⟨hn, rfl, .nil _, List.nil_prefix, id⟩
  induction h with
  | usedUp _ => exact hnone hn
  | unanswered _ _ => exact hnone hn
  | upToDate _ _ => exact hnone hn
  | notLinear _ _ _ _ => exact hnone hn
  | @refused _ _ _ _ _ _ nbytes bs new _ h hnew hbatch =>
      rcases appendTaken_spec (pull_encodes h.answer) hn hnew hbatch with
        ⟨hn', hpool, hacc, hle, _⟩
      refine ⟨hn', hpool, hacc, ?_, fun _ => hle h.room.1⟩
      change new <+: bs ++ []
      rwa [List.append_nil]
  | @lastBatch _ _ _ _ _ _ nbytes bs new _ h hnew hbatch _ =>
      rcases appendTaken_spec (pull_encodes h.answer) hn hnew hbatch with
        ⟨hn', hpool, hacc, hle, _⟩
      refine ⟨hn', hpool, hacc, ?_, fun _ => hle h.room.1⟩
      change new <+: bs ++ []
      rwa [List.append_nil]
  | @next _ _ _ _ _ total _ _ bs new pulls _ h hbatch _ _ _ ih =>
      -- The batch is in as a whole, and the later rounds bring what follows it.
      rcases appendTaken_spec (pull_encodes h.answer) hn List.prefix_rfl hbatch with
        ⟨hn', hpool, hacc, hle, _⟩
      rcases ih hn' with ⟨hn'', hpool', hacc', hnew, hle'⟩
      refine ⟨hn'', hpool'.trans hpool, Accepted.append_iff.mpr ⟨_, hacc, hacc'⟩, ?_, ?_⟩
      · change bs ++ new <+: bs ++ answeredBlocks pulls
        exact (List.prefix_append_right_inj bs).mpr hnew
      · intro _
        have hroom := hle' (hle h.room.1)
        rw [List.length_append]
        omega

/-- Before each pull the bytes received so far are below the budget. The sum in
    the code stops at the largest word, and no budget is larger. -/
theorem bytes_below (h : SyncRun peer budget w left round n total wire pulls new n' r)
    {pre post : List Answer} {p : Answer} (hpulls : pulls = pre ++ p :: post) :
    wire.toNat + answeredBytes pre < budget.maxWireBytesPerCall.toNat := by
  -- Nothing was received before the first pull, and it is made only with room.
  have hnil : ∀ {wire : UInt64}, wire < budget.maxWireBytesPerCall →
      wire.toNat + answeredBytes [] < budget.maxWireBytesPerCall.toNat := by
    intro wire hwire
    exact UInt64.lt_iff_toNat_lt.mp hwire
  -- A run that ends in its first round has one pull.
  have hone : ∀ {a p : Answer} {pre post : List Answer}, [a] = pre ++ p :: post → pre = [] := by
    intro a p pre post heq
    have hlen := congrArg List.length heq
    rw [List.length_singleton, List.length_append, List.length_cons] at hlen
    exact List.length_eq_zero_iff.mp (by omega)
  induction h generalizing pre with
  | usedUp _ =>
      exact absurd hpulls.symm (List.append_ne_nil_of_right_ne_nil pre (List.cons_ne_nil p post))
  | unanswered hroom _ =>
      rw [hone hpulls]
      exact hnil hroom.2
  | upToDate hroom _ =>
      rw [hone hpulls]
      exact hnil hroom.2
  | notLinear hroom _ _ _ =>
      rw [hone hpulls]
      exact hnil hroom.2
  | refused h _ _ =>
      rw [hone hpulls]
      exact hnil h.room.2
  | lastBatch h _ _ _ =>
      rw [hone hpulls]
      exact hnil h.room.2
  | @next _ _ _ _ _ _ wire nbytes bs _ _ _ h _ _ _ _ ih =>
      cases pre with
      | nil => exact hnil h.room.2
      | cons a pre =>
          rw [List.cons_append, List.cons.injEq] at hpulls
          have hrest := ih hpulls.2
          -- A sum that was cut off is the largest word, which is not below a budget.
          have hmax := budget.maxWireBytesPerCall.toNat_lt
          have hsum : answeredBytes (a :: pre) = nbytes.toNat + answeredBytes pre := by
            rw [← hpulls.1]
            rfl
          rw [saturatingAdd_toNat] at hrest
          rw [hsum]
          omega

/-- A run that was not stopped by the budget got an empty batch last. -/
theorem last_empty (h : SyncRun peer budget w left round n total wire pulls new n' r)
    (hr : r = .ok false) : ∃ nbytes, pulls.getLast? = some (.ok ([], nbytes)) := by
  induction h with
  | usedUp _ => exact absurd hr (by simp only [Except.ok.injEq, Bool.true_eq_false,
      not_false_eq_true])
  | unanswered _ _ => exact absurd hr (by simp only [reduceCtorEq, not_false_eq_true])
  | upToDate _ _ => exact ⟨_, rfl⟩
  | notLinear _ _ _ _ => exact absurd hr (by simp only [reduceCtorEq, not_false_eq_true])
  | refused _ _ _ => exact absurd hr (by simp only [reduceCtorEq, not_false_eq_true])
  | lastBatch _ _ _ _ => exact absurd hr (by simp only [Except.ok.injEq, Bool.true_eq_false,
      not_false_eq_true])
  | next _ _ _ _ _ ih =>
      rcases ih hr with ⟨nbytes, hlast⟩
      exact ⟨nbytes, by rw [List.getLast?_cons, hlast, Option.getD_some]⟩

/-- A run that began with room and was stopped by the budget appended a block. -/
theorem ne_nil_of_stopped {g : Genesis} (hn : n.Agrees g)
    (h : SyncRun peer budget w left round n total wire pulls new n' r) (hr : r = .ok true)
    (hleft : 0 < left) (hroom : HasRoom budget total wire) : new ≠ [] := by
  cases h with
  | usedUp h => exact absurd hroom (h.resolve_left (Nat.ne_of_gt hleft))
  | unanswered _ _ => exact absurd hr (by simp only [reduceCtorEq, not_false_eq_true])
  | upToDate _ _ => exact absurd hr (by simp only [Except.ok.injEq, Bool.false_eq_true,
      not_false_eq_true])
  | notLinear _ _ _ _ => exact absurd hr (by simp only [reduceCtorEq, not_false_eq_true])
  | refused _ _ _ => exact absurd hr (by simp only [reduceCtorEq, not_false_eq_true])
  | lastBatch h hnew hbatch _ =>
      exact (appendTaken_spec (pull_encodes h.answer) hn hnew hbatch).2.2.2.2 _ rfl h.ne_nil
        h.room.1
  | next h _ _ _ _ => exact List.append_ne_nil_of_left_ne_nil h.ne_nil _

end SyncRun

/-! ### A call and its run -/

/-- What a call makes of the end of its loop. -/
def finishSync (n : NodeInner) (new : List Block) :
    Except String Bool → Except String SyncFromPeerOutcome × NodeInner
  | .error e => (.error e, n)
  | .ok stopped =>
      (.ok { blocksAppended := new.length, stoppedDueToBudget := stopped },
        if 0 < new.length then n.mempoolHygieneAfterLedgerAdvance.2 else n)

/-- A call in terms of its run. -/
theorem sync_ran {n n' : NodeInner} {peer : String} {budget : SyncWorkBudget} {w : SyncWorld}
    (husable : n.store.poisoned = false) (hbudget : validateSyncWorkBudget budget = .ok ())
    {pulls : List Answer} {new : List Block} {r : Except String Bool}
    (hrun : SyncRun peer budget w budget.maxRoundsPerCall.toNat 0 n 0 0 pulls new n' r) :
    n.syncFromPeerWithClock peer budget w = some (finishSync n' new r) := by
  have hloop := hrun.syncRounds
  rw [Nat.zero_add] at hloop
  unfold NodeInner.syncFromPeerWithClock
  rw [if_neg (Bool.eq_false_iff.mp husable), hbudget]
  simp only [hloop, Option.bind_eq_bind, Option.bind_some]
  cases r with
  | error e => rfl
  | ok stopped => rfl

/-- A call that is refused does nothing. -/
theorem sync_refused {n : NodeInner} {budget : SyncWorkBudget}
    (h : ¬ (n.store.poisoned = false ∧ validateSyncWorkBudget budget = .ok ())) (peer : String)
    (w : SyncWorld) :
    ∃ e, n.syncFromPeerWithClock peer budget w = some (.error e, n) := by
  unfold NodeInner.syncFromPeerWithClock
  by_cases hpois : n.store.poisoned = true
  · rw [if_pos hpois]
    exact ⟨_, rfl⟩
  · rw [if_neg hpois]
    cases hbudget : validateSyncWorkBudget budget with
    | error e => exact ⟨e, rfl⟩
    | ok _ => exact absurd ⟨Bool.eq_false_iff.mpr hpois, hbudget⟩ h

/-- What a call reports: the new blocks are counted, and the loop says whether the
    budget stopped it. -/
theorem finishSync_ok {n : NodeInner} {new : List Block} {r : Except String Bool}
    {outcome : SyncFromPeerOutcome} (h : (finishSync n new r).1 = .ok outcome) :
    outcome.blocksAppended = new.length ∧ r = .ok outcome.stoppedDueToBudget := by
  cases r with
  | error e => exact absurd h (by simp only [finishSync, reduceCtorEq, not_false_eq_true])
  | ok stopped =>
      simp only [finishSync, Except.ok.injEq] at h
      rw [← h]
      exact ⟨rfl, rfl⟩

/-- Behind the loop only the pool changes, by operations of its own. -/
theorem finishSync_eq (n : NodeInner) (new : List Block) (r : Except String Bool) :
    ∃ ops, (finishSync n new r).2 = { n with pool := n.pool.performAll ops } := by
  unfold finishSync
  cases r with
  | error e => exact ⟨[], rfl⟩
  | ok stopped =>
      by_cases hsome : 0 < new.length
      · simp only [if_pos hsome]
        exact ⟨[.hygieneVsCommittedLedger n.chain.state], rfl⟩
      · simp only [if_neg hsome]
        exact ⟨[], rfl⟩

end SyncRun

end Trilogicon
