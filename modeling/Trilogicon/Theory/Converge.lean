import Trilogicon.Lib.Meter
import Trilogicon.Theory.NodeRun
import Trilogicon.Theory.Serve
import Trilogicon.Theory.Sync

/-!
# Catching Up Converges

A node that is behind another one, and pulls from it call after call, gets all
of its blocks.

Three budgets may end a call early: its rounds, its blocks and its bytes. What
makes the calls converge is that none of them can end a call before its first
batch. A budget that is accepted leaves room for one round and one block, the
bytes are looked at only after a batch was taken, and a batch that does not fit
is cut and not refused. So a call that a budget ends has brought at least one
block, and a call that no budget ends has seen an empty answer, which the
server gives only to a node at its own tip.

That no call fails rests on the server: its blocks were accepted one after the
other from the same genesis under the same policy, so a node that has some of
them accepts the next one. The outside is assumed to be kind. Clocks do not put
the blocks in the future, the file takes them, and each connection brings the
answer of the server to what the node asks for.

The height of a node with `2 ^ 64` blocks has no successor, and the node would
ask for its own tip. No vector is that long.

## Main definitions

* `Server`: A node that can serve all of its chain.
* `Behind`: A node that has a part of the chain.
* `Cooperates`: What the outside does in a call.
* `afterCalls`: The node after a number of calls.

## Theorems

* `Server.next`: A node that is behind accepts the next block.
* `Behind.pull`: A pull brings the next blocks.
* `Behind.round`: One round.
* `Behind.syncRounds`: The rounds of a call.
* `Behind.sync`: One call.
* `linear_sync_converges`: What holds of every sequence of calls.
-/

namespace Trilogicon

section Converge

variable [Primitives]

/-- A node whose chain was accepted from the genesis block by block, and that
    can answer for every part of it. -/
structure Server (g : Genesis) (server : NodeInner) : Prop where
  genesis : server.genesis = g
  built : ∃ params c₀ bs, Blockchain.fromGenesisWithConsensus g params = .ok c₀ ∧
    Accepted c₀ bs server.chain
  bounded : server.chain.blocks.length < 2 ^ 64
  usable : server.store.poisoned = false
  encodes : ∀ k, 1 ≤ k → ∃ resp, wireEncodeBlocksResponse
    ((server.chain.blocks.drop k).take maxBlocksPerBatch) = some (.ok resp)

/-- A node with the genesis and the policy of a chain that has some of its
    blocks and can take more. -/
structure Behind (g : Genesis) (c : Blockchain) (n : NodeInner) : Prop where
  genesis : n.genesis = g
  sound : n.chain.Sound g
  policy : n.chain.consensus = c.consensus
  usable : n.store.poisoned = false
  blocks : n.chain.blocks <+: c.blocks

/-- A connection that brings the answer of the server to a request, after its
    part of the handshake. -/
def Answers (server : NodeInner) (startHeight : UInt64) (connection : Except IoError Stream) :
    Prop :=
  ∀ resp nowUnix k policy calls n' k',
    server.applyPredecoded (.getBlocks startHeight) nowUnix k policy calls =
      some (.ok (some resp), n', k') →
    ∃ s ack advisory rest, connection = .ok s ∧ s.writes = [] ∧
      encodeSessionPayload opSessionHelloAck server.genesis advisory = .ok ack ∧
      s.incoming = frameOnWire ack ++ (frameOnWire resp ++ rest)

/-- Wherever some rounds of a call leave the node, the next connection answers
    what it asks for there. -/
def AnswersRounds (server : NodeInner) (peer : String) (budget : SyncWorkBudget) (w : SyncWorld)
    (left round : Nat) (n : NodeInner) (total : Nat) (wireBytes : UInt64) : Prop :=
  ∀ r < left, ∀ n' total',
    NodeInner.syncRounds peer budget w r round n total wireBytes = some (n', total', .ok true) →
      Answers server (saturatingSucc n'.chain.height) (w.connection (round + r))

/-- Clocks and file let the blocks of a chain pass. -/
structure LetsPass (c : Blockchain) (w : SyncWorld) : Prop where
  clock : ∀ k, ∀ b ∈ c.blocks,
    validateBlockVsLocalTime b.timestampUnix (w.clock k) c.consensus.maxFutureDriftSecs = .ok ()
  store : ∀ k, ∀ b ∈ c.blocks.drop 1, ∀ s : BlockStore, s.poisoned = false →
    ∃ s', s.appendBlock b (w.calls k) = some (.ok (), s')

/-! ### The next block -/

/-- A node that has a part of the server's chain accepts the block after it. -/
theorem Server.next {g : Genesis} {server : NodeInner} (hS : Server g server) {c : Blockchain}
    (hc : c.Sound g) (hpolicy : c.consensus = server.chain.consensus) {b : Block}
    (hb : c.blocks ++ [b] <+: server.chain.blocks) : ∃ c', c.appendBlock b = (.ok (), c') := by
  rcases hS.built with ⟨params, c₀, bs, hgen, hacc⟩
  have hsound₀ := Blockchain.fromGenesisWithConsensus_sound hgen
  rcases hacc.sound hsound₀ with ⟨_, hblocks, hcons⟩
  have hstart := fromGenesisWithConsensus_blocks hgen
  -- The server's blocks are those of the node, the next one and some more.
  rcases hb with ⟨post, hpost⟩
  rw [hblocks, hstart, hc.linked.eq_cons, List.append_assoc, List.cons_append,
    List.singleton_append, List.singleton_append, List.cons_inj_right] at hpost
  have hpre : bs.take (c.blocks.drop 1).length = c.blocks.drop 1 := by
    rw [← hpost, List.take_left]
  have hpre' : bs.take ((c.blocks.drop 1).length + 1) = c.blocks.drop 1 ++ [b] := by
    rw [← hpost, List.take_length_add_append, List.take_succ_cons, List.take_zero]
  rcases hacc.take (c.blocks.drop 1).length with ⟨c₁, hc₁⟩
  rcases hacc.take ((c.blocks.drop 1).length + 1) with ⟨c₂, hc₂⟩
  rw [hpre] at hc₁
  rw [hpre'] at hc₂
  rcases hc₁.sound hsound₀ with ⟨hsound₁, hblocks₁, hcons₁⟩
  -- When the server had these blocks, its chain was the one the node has now.
  have hsame : c = c₁ := by
    refine hc.ext hsound₁ ?_ (by rw [hpolicy, hcons, hcons₁])
    rw [hblocks₁, hstart, List.singleton_append]
    exact hc.linked.eq_cons
  rw [hsame]
  exact ⟨c₂, hc₁.snoc_inv hc₂⟩

theorem Server.sound {g : Genesis} {server : NodeInner} (hS : Server g server) :
    server.chain.Sound g := by
  rcases hS.built with ⟨params, c₀, bs, hgen, hacc⟩
  exact (hacc.sound (Blockchain.fromGenesisWithConsensus_sound hgen)).1

namespace Behind

variable {g : Genesis} {server n : NodeInner} {w : SyncWorld}

/-- The next block goes into memory and into the file. -/
theorem persist (hS : Server g server) (hw : LetsPass server.chain w)
    (h : Behind g server.chain n) {b : Block}
    (hb : n.chain.blocks ++ [b] <+: server.chain.blocks) (k : Nat) :
    ∃ n', n.appendNetworkBlockPersist b (w.clock k) (w.calls k) = some (.ok (), n') ∧
      Behind g server.chain n' ∧ n'.chain.blocks = n.chain.blocks ++ [b] := by
  rcases hS.next h.sound h.policy hb with ⟨c, happ⟩
  rcases Blockchain.appendBlock_ok_sound h.sound happ with ⟨hsound, hblocks⟩
  have hpolicy : c.consensus = n.chain.consensus := by
    rcases (Blockchain.appendBlock_ok_iff _ _ _).mp happ with ⟨_, _, _, _, _, _, _, _, hc⟩
    rw [hc]
  have hmem : b ∈ server.chain.blocks :=
    hb.subset (List.mem_append_right _ List.mem_cons_self)
  have htime := hw.clock k b hmem
  rw [← h.policy] at htime
  have htry : n.chain.tryAppendNetworkBlock b (w.clock k) = (.ok (), c) := by
    rw [Blockchain.tryAppendNetworkBlock, htime]
    exact happ
  -- The node has the genesis block already, so the next one is another.
  have hlater : b ∈ server.chain.blocks.drop 1 := by
    rcases hb with ⟨post, hpost⟩
    rw [← hpost, List.append_assoc,
      List.drop_append_of_le_length (List.length_pos_iff.mpr h.sound.linked.ne_nil)]
    exact List.mem_append_right _ List.mem_cons_self
  rcases hw.store k b hlater n.store h.usable with ⟨s, hs⟩
  refine ⟨_, persist_of_ok h.usable htry (by rw [hblocks, List.getLast?_concat]) hs, ?_, hblocks⟩
  exact ⟨h.genesis, hsound, hpolicy.trans h.policy, (BlockStore.appendBlock_ok_usable hs).2,
    hblocks ▸ hb⟩

/-- All blocks of a batch go in as long as there is room for them. -/
theorem appendBatch (hS : Server g server) (hw : LetsPass server.chain w)
    (h : Behind g server.chain n) {bs : List Block}
    (hbs : n.chain.blocks ++ bs <+: server.chain.blocks) {maxBlocks : Nat} (total : Nat)
    (hroom : total + bs.length ≤ maxBlocks) :
    ∃ n' full, NodeInner.appendBatch w maxBlocks n total bs =
        some (n', total + bs.length, .ok full) ∧
      Behind g server.chain n' ∧ n'.chain.blocks = n.chain.blocks ++ bs := by
  induction bs generalizing n total with
  | nil => exact ⟨n, false, rfl, h, (List.append_nil _).symm⟩
  | cons b bs ih =>
      rw [List.length_cons] at hroom
      have hsplit : n.chain.blocks ++ b :: bs = n.chain.blocks ++ [b] ++ bs := by
        rw [List.append_assoc, List.singleton_append]
      rw [hsplit] at hbs
      rcases h.persist hS hw ((List.prefix_append _ bs).trans hbs) total with
        ⟨n₁, hpersist, h₁, hblocks₁⟩
      rw [NodeInner.appendBatch, hpersist, Option.bind_eq_bind, Option.bind_some]
      by_cases hfull : maxBlocks ≤ total + 1
      · -- There was room for all, so this block was the last.
        have hnil : bs = [] := List.eq_nil_of_length_eq_zero (by omega)
        simp only [if_pos hfull]
        exact ⟨n₁, true, by rw [hnil]; rfl, h₁, by rw [hblocks₁, hnil]⟩
      · simp only [if_neg hfull]
        rcases ih h₁ (hblocks₁ ▸ hbs) (total + 1) (by omega) with ⟨n', full, hrun, h', hblocks'⟩
        refine ⟨n', full, ?_, h', by rw [hblocks', hblocks₁, hsplit]⟩
        rw [hrun, List.length_cons, Nat.add_assoc, Nat.add_comm 1]

/-! ### Rounds -/

/-- The node asks for the first height it does not have. -/
theorem asks (hS : Server g server) (h : Behind g server.chain n) :
    (saturatingSucc n.chain.height).toNat = n.chain.blocks.length := by
  have hheight := Blockchain.height_eq_length h.sound.linked
  have hle := h.blocks.length_le
  have hbound := hS.bounded
  rw [saturatingSucc, saturatingAdd_toNat, UInt64.toNat_one]
  omega

/-- A pull brings the next blocks of the server, at most a batch of them. -/
theorem pull (hS : Server g server) (h : Behind g server.chain n) (peer : String)
    {connection : Except IoError Stream}
    (hans : Answers server (saturatingSucc n.chain.height) connection) :
    ∃ nbytes, pullBlocksFromPeer peer connection (saturatingSucc n.chain.height) n.genesis
      n.chain.height = .ok ((server.chain.blocks.drop n.chain.blocks.length).take
        maxBlocksPerBatch, nbytes) := by
  have hl := hS.sound.linked
  have hpos := List.length_pos_iff.mpr h.sound.linked.ne_nil
  have hwindow : window server.chain (saturatingSucc n.chain.height) =
      (server.chain.blocks.drop n.chain.blocks.length).take maxBlocksPerBatch := by
    rw [window, h.asks hS]
  -- The window can be encoded, so the server does answer, and the connection
  -- brings that answer.
  rcases hS.encodes n.chain.blocks.length hpos with ⟨resp, hresp⟩
  rw [← hwindow] at hresp
  have hserved := getBlocks_of_encodes hl hS.usable hresp 0 ⟨0, 0⟩ ⟨0, 0⟩ .succeeds
  rcases hans _ _ _ _ _ _ _ hserved with ⟨s, ack, advisory, rest, rfl, hwrites, hack, hin⟩
  rcases getBlocks_answer hserved with ⟨hfits, hdec⟩
  rw [blocksFromHeightLimited_eq hl, hwindow] at hdec
  have hsame : n.genesis.stateCommitmentHex = server.genesis.stateCommitmentHex := by
    rw [h.genesis, hS.genesis]
  exact ⟨_, pull_of_answer hack hsame hwrites hin hfits hdec _ _⟩

/-- The next blocks of the server extend the tip of the node. -/
theorem linear (hS : Server g server) (h : Behind g server.chain n) {bs : List Block}
    (hbs : n.chain.blocks ++ bs <+: server.chain.blocks) :
    validateLinearSyncBatch n.chain bs = .ok () := by
  have hne := h.sound.linked.ne_nil
  have hlinked := hS.sound.linked.of_prefix hbs
    (fun hc => hne (List.append_eq_nil_iff.mp hc).1)
  have htip := List.getLast?_eq_some_getLast hne
  exact validateLinearSyncBatch_of_isChain htip (hlinked.chain_after htip)

/-- One round finds the node at the tip of the server, or brings blocks. Then
    the call ends, or goes on with the next round. -/
theorem round (hS : Server g server) (hw : LetsPass server.chain w)
    (h : Behind g server.chain n) {peer : String} {budget : SyncWorkBudget} {round total : Nat}
    {wire : UInt64} (htotal : total < budget.maxBlocksPerCall.toNat)
    (hwire : wire < budget.maxWireBytesPerCall)
    (hans : Answers server (saturatingSucc n.chain.height) (w.connection round)) :
    (n.chain.blocks = server.chain.blocks ∧ ∀ left,
      NodeInner.syncRounds peer budget w (left + 1) round n total wire =
        some (n, total, .ok false)) ∨
    ∃ n' total', Behind g server.chain n' ∧ total < total' ∧
      n'.chain.blocks.length + total = n.chain.blocks.length + total' ∧
      ((∀ left, NodeInner.syncRounds peer budget w (left + 1) round n total wire =
          some (n', total', .ok true)) ∨
        ∃ wire', ∀ left, NodeInner.syncRounds peer budget w (left + 1) round n total wire =
          NodeInner.syncRounds peer budget w left (round + 1) n' total' wire') := by
  rcases h.pull hS peer hans with ⟨nbytes, hpull⟩
  rcases h.blocks with ⟨rest, hrest⟩
  rw [← hrest, List.drop_left] at hpull
  -- What the server has beyond the node decides whether the answer is empty.
  cases rest with
  | nil =>
      rw [List.append_nil] at hrest
      rw [List.take_nil] at hpull
      exact Or.inl ⟨hrest, fun left => syncRounds_empty htotal hwire hpull⟩
  | cons b rest =>
      right
      have hne : (b :: rest).take maxBlocksPerBatch ≠ [] := by
        rw [maxBlocksPerBatch, List.take_succ_cons]
        exact List.cons_ne_nil _ _
      generalize hbs : (b :: rest).take maxBlocksPerBatch = bs at hpull hne
      have hnext : n.chain.blocks ++ bs <+: server.chain.blocks := by
        rw [← hrest, ← hbs]
        exact List.prefix_append_right_inj _ |>.mpr (List.take_prefix _ _)
      -- As many blocks are taken as the budget has room for, at least one.
      have hpos := List.length_pos_iff.mpr hne
      have hlen : (bs.take (min bs.length (budget.maxBlocksPerCall.toNat - total))).length =
          min bs.length (budget.maxBlocksPerCall.toNat - total) := by
        rw [List.length_take]
        omega
      have htaken : n.chain.blocks ++
          bs.take (min bs.length (budget.maxBlocksPerCall.toNat - total)) <+:
            server.chain.blocks :=
        ((List.prefix_append_right_inj _).mpr (List.take_prefix _ _)).trans hnext
      have hroom : total + (bs.take (min bs.length
          (budget.maxBlocksPerCall.toNat - total))).length ≤ budget.maxBlocksPerCall.toNat := by
        rw [hlen]
        omega
      rcases h.appendBatch hS hw htaken total hroom with
        ⟨n', full, hbatch, h', hblocks'⟩
      rw [hlen] at hbatch
      refine ⟨n', total + min bs.length (budget.maxBlocksPerCall.toNat - total), h', by omega,
        ?_, ?_⟩
      · rw [hblocks', List.length_append, hlen]
        omega
      · have hlinear := h.linear hS hnext
        by_cases hstop : full = true ∨ budget.maxBlocksPerCall.toNat - total < bs.length ∨
            budget.maxWireBytesPerCall < saturatingAdd wire nbytes
        · refine Or.inl fun left => ?_
          rw [syncRounds_batch htotal hwire hpull hne hlinear hbatch, if_pos hstop]
        · refine Or.inr ⟨saturatingAdd wire nbytes, fun left => ?_⟩
          rw [syncRounds_batch htotal hwire hpull hne hlinear hbatch, if_neg hstop]

/-- The rounds of a call do not fail. They end at the tip of the server, or a
    budget ends them; and if the first round could start, there was a block. -/
theorem syncRounds (hS : Server g server) (hw : LetsPass server.chain w)
    (h : Behind g server.chain n) {peer : String} {budget : SyncWorkBudget}
    {left round total : Nat} {wire : UInt64}
    (hans : AnswersRounds server peer budget w left round n total wire) :
    ∃ n' total' stopped, NodeInner.syncRounds peer budget w left round n total wire =
        some (n', total', .ok stopped) ∧
      Behind g server.chain n' ∧ total ≤ total' ∧
      n'.chain.blocks.length + total = n.chain.blocks.length + total' ∧
      (stopped = false → n'.chain.blocks = server.chain.blocks) ∧
      (stopped = true → 0 < left → total < budget.maxBlocksPerCall.toNat →
        wire < budget.maxWireBytesPerCall → total < total') := by
  -- On the rounds that are left. Only the first of them has to bring a block:
  -- the others cannot take it back.
  induction left generalizing round n total wire with
  | zero =>
      refine ⟨n, total, true, rfl, h, Nat.le_refl _, rfl, ?_, ?_⟩
      · exact fun hc => absurd hc (by decide)
      · exact fun _ hc => absurd hc (Nat.lt_irrefl 0)
  | succ left ih =>
      by_cases htotal : total < budget.maxBlocksPerCall.toNat
      case neg =>
        rw [NodeInner.syncRounds]
        simp only [if_pos (Nat.not_lt.mp htotal)]
        refine ⟨n, total, true, rfl, h, Nat.le_refl _, rfl, ?_, ?_⟩
        · exact fun hc => absurd hc (by decide)
        · exact fun _ _ hc => absurd hc htotal
      by_cases hwire : wire < budget.maxWireBytesPerCall
      case neg =>
        rw [NodeInner.syncRounds]
        simp only [if_neg (Nat.not_le.mpr htotal), if_pos (UInt64.not_lt.mp hwire)]
        refine ⟨n, total, true, rfl, h, Nat.le_refl _, rfl, ?_, ?_⟩
        · exact fun hc => absurd hc (by decide)
        · exact fun _ _ _ hc => absurd hc hwire
      have hfirst := hans 0 (Nat.succ_pos left) n total rfl
      rcases h.round hS hw htotal hwire hfirst with
        ⟨hsame, hround⟩ | ⟨n₁, total₁, h₁, hlt, hlen, hround | ⟨wire₁, hround⟩⟩
      · refine ⟨n, total, false, hround left, h, Nat.le_refl _, rfl, fun _ => hsame, ?_⟩
        exact fun hc => absurd hc (by decide)
      · refine ⟨n₁, total₁, true, hround left, h₁, Nat.le_of_lt hlt, hlen, ?_, ?_⟩
        · exact fun hc => absurd hc (by decide)
        · exact fun _ _ _ _ => hlt
      · -- What the rounds after this one meet is what the rounds of the call meet.
        have hans₁ : AnswersRounds server peer budget w left (round + 1) n₁ total₁ wire₁ := by
          intro r hr n' total' hrun
          rw [← hround r] at hrun
          have hans' := hans (r + 1) (Nat.succ_lt_succ hr) n' total' hrun
          rwa [← Nat.add_assoc, Nat.add_right_comm] at hans'
        rcases ih h₁ hans₁ with ⟨n', total', stopped, hrun, h', hle, hlen', hend, _⟩
        refine ⟨n', total', stopped, (hround left).trans hrun, h', by omega, by omega, hend, ?_⟩
        exact fun _ _ _ _ => Nat.lt_of_lt_of_le hlt hle

end Behind

/-! ### Calls -/

/-- One call of `sync_from_peer`. -/
structure BudgetedCall where
  budget : SyncWorkBudget
  world : SyncWorld

/-- What the outside does in a call: the budget is accepted, clocks and file
    let the blocks of the server pass, and the server answers. -/
structure Cooperates (server : NodeInner) (peer : String) (call : BudgetedCall) (n : NodeInner) :
    Prop where
  budget : validateSyncWorkBudget call.budget = .ok ()
  passes : LetsPass server.chain call.world
  answers : AnswersRounds server peer call.budget call.world
    call.budget.maxRoundsPerCall.toNat 0 n 0 0

/-- One call does not fail. It brings the node to the tip of the server, or a
    budget ends it after at least one block. -/
theorem Behind.sync {g : Genesis} {server n : NodeInner} (hS : Server g server)
    (h : Behind g server.chain n) {peer : String} {call : BudgetedCall}
    (hcall : Cooperates server peer call n) :
    ∃ out n', n.syncFromPeerWithClock peer call.budget call.world = some (.ok out, n') ∧
      Behind g server.chain n' ∧
      n'.chain.blocks.length = n.chain.blocks.length + out.blocksAppended ∧
      (out.stoppedDueToBudget = true → 1 ≤ out.blocksAppended) ∧
      (out.stoppedDueToBudget = false → n'.chain.blocks = server.chain.blocks) := by
  rcases validateSyncWorkBudget_ok hcall.budget with ⟨hrounds, hblocks, hwire⟩
  rcases h.syncRounds hS hcall.passes hcall.answers with
    ⟨n', total, stopped, hrun, h', _, hlen, hend, hsome⟩
  rw [NodeInner.syncFromPeerWithClock, h.usable, if_neg Bool.false_ne_true, hcall.budget]
  simp only [hrun, Option.bind_eq_bind, Option.bind_some]
  refine ⟨_, _, rfl, ?_⟩
  -- Cleaning the pool leaves chain and store alone.
  by_cases hpos : 0 < total
  · rw [if_pos hpos]
    exact ⟨⟨h'.genesis, h'.sound, h'.policy, h'.usable, h'.blocks⟩, hlen,
      fun hc => hsome hc hrounds hblocks hwire, hend⟩
  · rw [if_neg hpos]
    exact ⟨h', hlen, fun hc => hsome hc hrounds hblocks hwire, hend⟩

/-- The node after a number of calls. -/
def afterCalls (peer : String) (calls : Nat → BudgetedCall) (n : NodeInner) : Nat → NodeInner
  | 0 => n
  | i + 1 =>
      let n' := afterCalls peer calls n i
      (n'.syncFromPeerWithClock peer (calls i).budget (calls i).world).elim n' Prod.snd

theorem afterCalls_succ {peer : String} {calls : Nat → BudgetedCall} {n n' : NodeInner} {i : Nat}
    {r : Except String SyncFromPeerOutcome}
    (h : (afterCalls peer calls n i).syncFromPeerWithClock peer (calls i).budget
      (calls i).world = some (r, n')) : afterCalls peer calls n (i + 1) = n' := by
  rw [afterCalls, h]
  rfl

theorem Behind.kept {g : Genesis} {server n : NodeInner} (hS : Server g server)
    (h : Behind g server.chain n) {peer : String} {calls : Nat → BudgetedCall}
    (hcalls : ∀ i, Cooperates server peer (calls i) (afterCalls peer calls n i)) (i : Nat) :
    Behind g server.chain (afterCalls peer calls n i) := by
  induction i with
  | zero => exact h
  | succ i ih =>
      rcases ih.sync hS (hcalls i) with ⟨out, n', hrun, h', _⟩
      rw [afterCalls_succ hrun]
      exact h'

/-- Every call, from wherever the calls before it have left the node. -/
theorem Behind.call {g : Genesis} {server n : NodeInner} (hS : Server g server)
    (h : Behind g server.chain n) {peer : String} {calls : Nat → BudgetedCall}
    (hcalls : ∀ i, Cooperates server peer (calls i) (afterCalls peer calls n i))
    (i : Nat) :
    ∃ out, (afterCalls peer calls n i).syncFromPeerWithClock peer (calls i).budget
        (calls i).world = some (.ok out, afterCalls peer calls n (i + 1)) ∧
      Behind g server.chain (afterCalls peer calls n (i + 1)) ∧
      (afterCalls peer calls n (i + 1)).chain.blocks.length =
        (afterCalls peer calls n i).chain.blocks.length + out.blocksAppended ∧
      (out.stoppedDueToBudget = true → 1 ≤ out.blocksAppended) ∧
      (out.stoppedDueToBudget = false →
        (afterCalls peer calls n (i + 1)).chain.blocks = server.chain.blocks) := by
  rcases (h.kept hS hcalls i).sync hS (hcalls i) with ⟨out, n', hrun, hn'⟩
  rw [afterCalls_succ hrun]
  exact ⟨out, hrun, hn'⟩

/-- Catching up converges. Whatever budgets the calls of a node have, no call
    fails, and the node keeps a part of the server's chain. A call that a budget
    ends has brought a block, and a call that no budget ends leaves the node
    with the blocks and the accounts of the server. Such a call comes, at the
    latest when there were as many calls as blocks were missing. -/
theorem linear_sync_converges {g : Genesis} {server follower : NodeInner}
    (hS : Server g server) (hF : Behind g server.chain follower) {peer : String}
    {calls : Nat → BudgetedCall}
    (hcalls : ∀ i, Cooperates server peer (calls i) (afterCalls peer calls follower i)) :
    (∀ i, ∃ out, (afterCalls peer calls follower i).syncFromPeerWithClock peer (calls i).budget
          (calls i).world = some (.ok out, afterCalls peer calls follower (i + 1)) ∧
        (afterCalls peer calls follower (i + 1)).chain.blocks <+: server.chain.blocks ∧
        (afterCalls peer calls follower (i + 1)).chain.blocks.length =
          (afterCalls peer calls follower i).chain.blocks.length + out.blocksAppended ∧
        (out.stoppedDueToBudget = true → 1 ≤ out.blocksAppended) ∧
        (out.stoppedDueToBudget = false →
          (afterCalls peer calls follower (i + 1)).chain.blocks = server.chain.blocks ∧
          (afterCalls peer calls follower (i + 1)).chain.state = server.chain.state)) ∧
    ∃ i ≤ server.chain.blocks.length - follower.chain.blocks.length, ∃ out,
      (afterCalls peer calls follower i).syncFromPeerWithClock peer (calls i).budget
        (calls i).world = some (.ok out, afterCalls peer calls follower (i + 1)) ∧
      out.stoppedDueToBudget = false := by
  constructor
  · intro i
    rcases hF.call hS hcalls i with ⟨out, hrun, hnext, hlen, hsome, hend⟩
    refine ⟨out, hrun, hnext.blocks, hlen, hsome, fun hc => ⟨hend hc, ?_⟩⟩
    rw [hnext.sound.ext hS.sound (hend hc) hnext.policy]
  · -- As long as budgets end the calls, each of them brings a block.
    refine exists_of_grows (f := fun i => (afterCalls peer calls follower i).chain.blocks.length)
      ?_ fun i => (hF.kept hS hcalls i).blocks.length_le
    intro i hnone
    rcases hF.call hS hcalls i with ⟨out, hrun, _, hlen, hsome, _⟩
    have hstopped : out.stoppedDueToBudget = true := by
      by_contra hc
      exact hnone ⟨out, hrun, Bool.not_eq_true _ ▸ hc⟩
    have hone := hsome hstopped
    omega

end Converge

namespace Sample

/-- What a node with the block with the payment answers. -/
def answer (startHeight : UInt64) : Bytes :=
  opBlocks :: beBytes 4 (window chain startHeight).length ++
    (writeAll batchEntry (window chain startHeight)).getD []

/-- The calls of a node that starts without a block. Their budgets are as tight
    as can be, and the node with the block answers. -/
def tightCalls (i : Nat) : BudgetedCall :=
  { budget := ⟨1, 1, 1⟩,
    world :=
      { connection := fun _ => .ok ⟨frameOnWire peerAck ++
          (frameOnWire (answer (UInt64.ofNat (min (i + 1) 2))) ++ []), .other "", [], []⟩,
        clock := fun _ => 0, calls := fun _ => .succeeds } }

/-- Above the genesis block there is one block, and it fits a frame. -/
theorem batchSize_window {startHeight : UInt64} (h : 1 ≤ startHeight.toNat) :
    batchSize (window chain startHeight) ≤ maxWireFrameBytes := by
  rw [window, blocks_chain]
  by_cases hone : startHeight.toNat = 1
  · rw [hone]
    decide +kernel
  · rw [List.drop_of_length_le (Nat.lt_of_le_of_ne h (Ne.symm hone)), List.take_nil]
    decide

theorem encode_answer {startHeight : UInt64} (h : 1 ≤ startHeight.toNat) :
    wireEncodeBlocksResponse (window chain startHeight) = some (.ok (answer startHeight)) := by
  rcases writeAll_batchEntry (window_fits networkBuilt_chain h) with ⟨es, hes, hsize⟩
  have hlen : (window chain startHeight).length ≤ maxBlocksPerBatch := by
    rw [window, List.length_take]
    exact Nat.min_le_left _ _
  rw [wireEncodeBlocksResponse_eq hlen hes, hsize, if_neg (Nat.not_lt.mpr (batchSize_window h)),
    answer, hes]
  rfl

theorem server_node : Server genesis node where
  genesis := rfl
  built := ⟨.default, start, [block], fromGenesisWithConsensus_start,
    .cons appendBlock_chain (.nil chain)⟩
  bounded := by
    rw [node, blocks_chain]
    decide
  usable := rfl
  encodes k hk := by
    -- From the second block on every window is empty.
    have hbound : (UInt64.ofNat (min k 2)).toNat = min k 2 := by
      rw [UInt64.toNat_ofNat', Nat.mod_eq_of_lt (by omega)]
    have hwindow : (node.chain.blocks.drop k).take maxBlocksPerBatch =
        window chain (UInt64.ofNat (min k 2)) := by
      rw [window, hbound, node, blocks_chain]
      by_cases htwo : 2 ≤ k
      · rw [Nat.min_eq_right htwo, List.drop_of_length_le htwo]
        rfl
      · rw [Nat.min_eq_left (by omega)]
    rw [hwindow]
    exact ⟨_, encode_answer (by omega)⟩

theorem behind_newNode : Behind genesis chain newNode where
  genesis := rfl
  sound := Blockchain.fromGenesisWithConsensus_sound fromGenesisWithConsensus_start
  policy := consensus_chain.symm
  usable := rfl
  blocks := by
    rw [blocks_chain]
    exact ⟨[block], rfl⟩

theorem cooperates_tightCalls {i : Nat} {n : NodeInner} (h : Behind genesis chain n)
    (hlen : n.chain.blocks.length = min (i + 1) 2) : Cooperates node "peer" (tightCalls i) n where
  budget := rfl
  passes := by
    constructor
    · intro k b _
      rw [show node.chain.consensus = .default from consensus_chain]
      exact validateBlockVsLocalTime_default _ _
    · intro k b hb s hs
      rw [node, blocks_chain, List.drop_succ_cons, List.drop_zero, List.mem_singleton] at hb
      exact ⟨_, hb ▸ BlockStore.appendBlock_succeeds hs encodeBlock_block payload_small⟩
  answers := by
    intro r hr n' total' hrun
    -- There is only one round, which starts where the call does.
    have hr0 : r = 0 := Nat.lt_one_iff.mp hr
    rw [hr0, NodeInner.syncRounds, Option.some.injEq, Prod.mk.injEq] at hrun
    rw [← hrun.1]
    have hstart : saturatingSucc n.chain.height = UInt64.ofNat (min (i + 1) 2) := by
      rw [← UInt64.toNat_inj, h.asks server_node, hlen, UInt64.toNat_ofNat',
        Nat.mod_eq_of_lt (by omega)]
    have hone : 1 ≤ (saturatingSucc n.chain.height).toNat := by
      rw [h.asks server_node, hlen]
      omega
    intro resp now k policy calls n₁ k₁ hserved
    have hanswer := getBlocks_of_encodes server_node.sound.linked server_node.usable
      (encode_answer hone) now k policy calls
    rw [hanswer, Option.some.injEq, Prod.mk.injEq, Except.ok.injEq, Option.some.injEq] at hserved
    exact ⟨_, peerAck, 0, [], rfl, rfl, encode_peerAck, by rw [← hserved.1, hstart]⟩

/-- The first call brings the block. -/
theorem behind_tightCalls (i : Nat) :
    Behind genesis chain (afterCalls "peer" tightCalls newNode i) ∧
      (afterCalls "peer" tightCalls newNode i).chain.blocks.length = min (i + 1) 2 := by
  induction i with
  | zero => exact ⟨behind_newNode, rfl⟩
  | succ i ih =>
      rcases ih with ⟨h, hlen⟩
      rcases h.sync server_node (cooperates_tightCalls h hlen) with
        ⟨out, n', hrun, h', hgrown, hsome, hend⟩
      rw [afterCalls_succ hrun]
      refine ⟨h', ?_⟩
      have htwo : node.chain.blocks.length = 2 := by
        rw [node, blocks_chain]
        rfl
      have hle := h'.blocks.length_le
      cases hstopped : out.stoppedDueToBudget with
      | true =>
          have hone := hsome hstopped
          omega
      | false =>
          rw [hend hstopped]
          omega

/-- With the tightest budgets, a call that no budget ends comes after the one
    that brings the block. -/
theorem tightCalls_converge :
    ∃ i ≤ 1, ∃ out, (afterCalls "peer" tightCalls newNode i).syncFromPeerWithClock "peer"
        (tightCalls i).budget (tightCalls i).world =
          some (.ok out, afterCalls "peer" tightCalls newNode (i + 1)) ∧
      out.stoppedDueToBudget = false := by
  have hmissing : node.chain.blocks.length - newNode.chain.blocks.length = 1 := by
    rw [node, blocks_chain]
    rfl
  have hconverges := linear_sync_converges server_node behind_newNode fun i =>
    cooperates_tightCalls (behind_tightCalls i).1 (behind_tightCalls i).2
  rw [hmissing] at hconverges
  exact hconverges.2

end Sample

end Trilogicon
