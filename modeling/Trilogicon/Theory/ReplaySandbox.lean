import Trilogicon.Core.ReplaySandbox
import Trilogicon.Theory.ReorgPlan
import Trilogicon.Theory.Restart

/-!
# The Sandbox and the Live Chain

Two validators look at the same blocks. The live one compares a block with the
tip; the sandbox compares it with the index, whose links the plan has been
checked against, and takes the parent for the timestamp rule from the caller.

Along a checked branch the index says what the tip says: a block that the index
describes and that is valid by itself is not a root, so its neighbour in the
plan is its sound parent, one lower. What is left of the two validators is the
same, except for the parent of the timestamp rule. The sandbox uses whatever
header is supplied under the parent's hash, and the live chain uses the body it
has just appended.

So an accepted replay says that the live chain would accept the blocks exactly
if their own timestamps are in order. If every header that is supplied is the
block itself, the two decide alike.

## Main definitions

* `Stands`: The index has the tip at its height.
* `TimestampsFollow`: The timestamp rule between a block and the next.
* `ReplaySandboxMaterial.Coherent`: Blocks under their own hashes, the same in both maps.

## Theorems

* `Describes.link`: Where the index and the plan give a sound parent.
* `live_step`: What the live chain asks of a block of the plan.
* `replay_accepted_iff`: A replayed branch on the live chain.
* `coherent_replay_iff`: The same, with headers that are the blocks.
-/

namespace Trilogicon

section Sandbox

variable [Primitives] {material : ReplaySandboxMaterial} {index : BlockIndex}

/-- The index has the tip at its height. -/
def Stands (index : BlockIndex) (tip : Block) : Prop :=
  ∃ e, index.get tip.blockHash = some e ∧ tip.height = e.height

/-- The timestamp rule between a block and the next. -/
def TimestampsFollow (params : ConsensusParams) (a b : Block) : Prop :=
  validateBlockTimestampsVsParent a b params = .ok ()

omit [Primitives] in
theorem BlockIndex.Describes.stands {h : String} {b : Block} (hd : index.Describes h b) :
    Stands index b := by
  rcases hd with ⟨hh, e, he, hheight, _⟩
  exact ⟨e, hh ▸ he, hheight⟩

/-- A valid block with sound ancestry is linked to its parent. A root would
    need the empty hash as its parent, and genesis has another. -/
theorem BlockIndex.Describes.link {h k : String} {b : Block} (hd : index.Describes h b)
    (hv : b.basicValidate = .ok ()) (hr : index.Rooted h) (hp : index.ParentIs h k) :
    index.Link h k := by
  refine hr.link ?_ hp
  intro hroot
  rcases hroot with ⟨e, he, hzero⟩
  rcases hd with ⟨_, e', he', hheight, hprev⟩
  rw [he, Option.some.injEq] at he'
  subst he'
  -- At height zero the block has genesis as its parent, and the root of the index has none.
  have hgenesis := (Block.basicValidate_ok_of_height_zero b (hheight.trans hzero) hv).1
  rcases hr with ⟨l, r, e', hl, he', _, hempty⟩
  cases hl with
  | here =>
      rw [he, Option.some.injEq] at he'
      rw [hprev, he', hempty] at hgenesis
      exact absurd hgenesis (by decide)
  | step hstep _ => exact BlockIndex.Root.not_link ⟨e, he, hzero⟩ _ hstep

omit [Primitives] in
/-- A linked block is the next one on the tip. -/
theorem BlockIndex.Describes.follows {h : String} {b tip : Block} (hd : index.Describes h b)
    (hlink : index.Link h tip.blockHash) (htip : Stands index tip) :
    b.height = tip.height + 1 ∧ b.previousHash = tip.blockHash ∧ b.height ≠ 0 := by
  rcases hd with ⟨_, e, he, hheight, hprev⟩
  rcases hlink with ⟨e', pe, he', hpe, hparent, _, hlow⟩
  rcases htip with ⟨te, hte, htop⟩
  rw [he, Option.some.injEq] at he'
  rw [hpe, Option.some.injEq] at hte
  subst he'
  subst hte
  have hlt := e.height.toNat_lt
  refine ⟨?_, hprev.trans hparent, ?_⟩
  -- The link compares the heights in `Nat`, and the height of the block does not wrap.
  · rw [hheight, htop, ← UInt64.toNat_inj, UInt64.toNat_add]
    change _ = (pe.height.toNat + 1) % _
    rw [Nat.mod_eq_of_lt (by omega), hlow]
  · intro hzero
    rw [hheight, ← UInt64.toNat_inj] at hzero
    change _ = 0 at hzero
    omega

/-- What the live chain asks of a block that is linked to its tip. -/
theorem live_step {c c' : Blockchain} {h : String} {b tip : Block}
    (htip : c.blocks.getLast? = some tip) (hst : Stands index tip) (hd : index.Describes h b)
    (hlink : index.Link h tip.blockHash) :
    c.appendBlock b = (.ok (), c') ↔ b.basicValidate = .ok () ∧
      TimestampsFollow c.consensus tip b ∧ ∃ next, c.state.applyAll b.transactions = .ok next ∧
        c' = { c with state := next, blocks := c.blocks ++ [b] } := by
  rcases hd.follows hlink hst with ⟨hheight, hprev, _⟩
  rw [Blockchain.appendBlock_ok_iff]
  refine and_congr_right fun _ => ?_
  constructor
  · intro hc
    rcases hc with ⟨tip', htip', _, _, hts, hrest⟩
    rw [htip, Option.some.injEq] at htip'
    exact ⟨htip' ▸ hts, hrest⟩
  · intro hc
    exact ⟨tip, htip, hheight, hprev, hc.1, hc.2⟩

/-- A block that the sandbox accepts: with which parent it did, and when the
    live chain accepts it too. -/
theorem sandbox_step {c : Blockchain} {h : String} {b tip : Block} {s' : State}
    (htip : c.blocks.getLast? = some tip) (hst : Stands index tip) (hr : index.Rooted h)
    (hp : index.ParentIs h tip.blockHash)
    (hok : applyBlockToState material index c.state b h = .ok s') :
    Stands index b ∧ b.blockHash = h ∧
    (∃ parent, resolveParentBlock material tip.blockHash = .ok parent ∧
      TimestampsFollow material.consensus parent b) ∧
    ∀ c', c.appendBlock b = (.ok (), c') ↔ TimestampsFollow c.consensus tip b ∧
      c' = { c with state := s', blocks := c.blocks ++ [b] } := by
  rcases applyBlockToState_ok_iff.mp hok with ⟨hd, hparent, hvalid, hstate⟩
  have hlink := hd.link hvalid hr hp
  rcases hd.follows hlink hst with ⟨_, hprev, hpos⟩
  refine ⟨hd.stands, hd.1, hprev ▸ hparent hpos, ?_⟩
  intro c'
  rw [live_step htip hst hd hlink, hstate]
  constructor
  · intro hc
    rcases hc with ⟨_, hts, next, hnext, rfl⟩
    rw [Except.ok.inj hnext]
    exact ⟨hts, rfl⟩
  · intro hc
    exact ⟨hvalid, hc.1, s', rfl, hc.2⟩

/-! ### Branches -/

/-- Accepting blocks one after the other starts with the first. -/
theorem accepted_cons_iff {c c' : Blockchain} {b : Block} {bs : List Block} :
    Accepted c (b :: bs) c' ↔ ∃ c₁, c.appendBlock b = (.ok (), c₁) ∧ Accepted c₁ bs c' := by
  constructor
  · intro h
    cases h with
    | cons h hs => exact ⟨_, h, hs⟩
  · intro h
    rcases h with ⟨c₁, h, hs⟩
    exact .cons h hs

/-- A branch that was replayed, on the live chain: it is accepted exactly if
    the timestamps of its own blocks follow each other, and then it leads to the
    state of the replay. -/
theorem replay_accepted_iff {c : Blockchain} {tip : Block} {s' : State} {top : String}
    {pairs : List (String × Block)} (htip : c.blocks.getLast? = some tip)
    (hst : Stands index tip) (hcons : c.consensus = material.consensus)
    (hrooted : ∀ p ∈ pairs, index.Rooted p.1)
    (hleads : Leads index.ParentIs top (pairs.map Prod.fst).reverse tip.blockHash)
    (hok : replayBranch material index c.state pairs = .ok s') :
    ((∃ c', Accepted c (pairs.map Prod.snd) c') ↔
      (tip :: pairs.map Prod.snd).IsChain (TimestampsFollow material.consensus)) ∧
    ∀ c', Accepted c (pairs.map Prod.snd) c' → c'.state = s' := by
  induction pairs generalizing c tip with
  | nil =>
      rw [replayBranch, Except.ok.injEq] at hok
      refine ⟨⟨fun _ => List.isChain_singleton tip, fun _ => ⟨c, .nil c⟩⟩, ?_⟩
      intro c' hacc
      cases hacc
      exact hok
  | cons p rest ih =>
      rcases p with ⟨h, b⟩
      rw [List.map_cons, List.reverse_cons, leads_concat_iff] at hleads
      rw [replayBranch, bind_ok_iff] at hok
      -- The first block is replayed before the rest.
      rcases hok with ⟨s₁, hfirst, hrest⟩
      rcases sandbox_step htip hst (hrooted (h, b) List.mem_cons_self) hleads.2 hfirst with
        ⟨hstands, hhash, _, hlive⟩
      -- The chain with the first block, should it be accepted.
      have hnext := ih (c := { c with state := s₁, blocks := c.blocks ++ [b] })
        List.getLast?_concat hstands hcons (fun p hp => hrooted p (List.mem_cons_of_mem _ hp))
        (hhash ▸ hleads.1) hrest
      simp only [List.map_cons, accepted_cons_iff, hlive]
      rw [List.isChain_cons_cons, ← hnext.1, ← hcons]
      constructor
      · constructor
        · intro hc
          rcases hc with ⟨c', c₁, ⟨hts, rfl⟩, hacc⟩
          exact ⟨hts, c', hacc⟩
        · intro hc
          rcases hc with ⟨hts, c', hacc⟩
          exact ⟨c', _, ⟨hts, rfl⟩, hacc⟩
      · intro c' hc
        rcases hc with ⟨c₁, ⟨_, rfl⟩, hacc⟩
        exact hnext.2 c' hacc

/-- The first block of a replayed branch follows the tip, if the tip is what
    is supplied for the fork. -/
theorem replay_first_follows {c : Blockchain} {tip : Block} {s' : State} {top : String}
    {pairs : List (String × Block)} (htip : c.blocks.getLast? = some tip)
    (hst : Stands index tip) (hrooted : ∀ p ∈ pairs, index.Rooted p.1)
    (hleads : Leads index.ParentIs top (pairs.map Prod.fst).reverse tip.blockHash)
    (hresolve : resolveParentBlock material tip.blockHash = .ok tip)
    (hok : replayBranch material index c.state pairs = .ok s') :
    (tip :: pairs.map Prod.snd).IsChain (TimestampsFollow material.consensus) ↔
      (pairs.map Prod.snd).IsChain (TimestampsFollow material.consensus) := by
  cases pairs with
  | nil => exact ⟨fun _ => List.isChain_nil, fun _ => List.isChain_singleton tip⟩
  | cons p rest =>
      rcases p with ⟨h, b⟩
      rw [List.map_cons, List.reverse_cons, leads_concat_iff] at hleads
      rw [replayBranch, bind_ok_iff] at hok
      rcases hok with ⟨s₁, hfirst, _⟩
      rcases sandbox_step htip hst (hrooted (h, b) List.mem_cons_self) hleads.2 hfirst with
        ⟨_, _, ⟨parent, hparent, hts⟩, _⟩
      rw [hresolve, Except.ok.injEq] at hparent
      rw [List.map_cons, List.isChain_cons_cons]
      exact ⟨And.right, fun hc => ⟨hparent ▸ hts, hc⟩⟩

omit [Primitives] in
theorem ReplaySandboxMaterial.bodies_reverse (material : ReplaySandboxMaterial)
    (hs : List String) : material.bodies hs.reverse = (material.bodies hs).reverse :=
  List.filterMap_reverse

omit [Primitives] in
/-- The planned hashes with their bodies. -/
theorem zip_bodies {hs : List String}
    (hall : ∀ h ∈ hs, ∃ b, material.blocksByHash.lookup h = some b) :
    (hs.zip (material.bodies hs)).map Prod.fst = hs ∧
      (hs.zip (material.bodies hs)).map Prod.snd = material.bodies hs ∧
      ∀ p ∈ hs.zip (material.bodies hs), material.blocksByHash.lookup p.1 = some p.2 := by
  induction hs with
  | nil => exact ⟨rfl, rfl, fun p hp => absurd hp List.not_mem_nil⟩
  | cons h hs ih =>
      rw [List.forall_mem_cons] at hall
      rcases hall with ⟨⟨b, hb⟩, hall⟩
      rcases ih hall with ⟨hfst, hsnd, hmem⟩
      -- Every planned block has a body, so no position shifts.
      have hcons : material.bodies (h :: hs) = b :: material.bodies hs := by
        simp only [ReplaySandboxMaterial.bodies, List.filterMap_cons, hb]
      rw [hcons, List.zip_cons_cons]
      refine ⟨by rw [List.map_cons, hfst], by rw [List.map_cons, hsnd], ?_⟩
      intro p hp
      rcases List.mem_cons.mp hp with rfl | hin
      · exact hb
      · exact hmem p hin

omit [Primitives] in
theorem zip_bodies_reverse {hs : List String}
    (hall : ∀ h ∈ hs, ∃ b, material.blocksByHash.lookup h = some b) :
    (hs.zip (material.bodies hs)).reverse = hs.reverse.zip (material.bodies hs.reverse) := by
  rcases zip_bodies hall with ⟨hfst, hsnd, _⟩
  refine List.zip_of_prod ?_ ?_
  · rw [List.map_reverse, hfst]
  · rw [List.map_reverse, hsnd, material.bodies_reverse]

/-- What an accepted replay says about the live chain: it accepts the planned
    blocks, and reaches the state of the replay, exactly if the timestamps of
    these blocks follow each other. The sandbox compared each with the header
    supplied for its parent, which need not be the block of the plan. -/
theorem sandbox_ok_live_iff (plan : ReorgPlan) (index : BlockIndex)
    (policy : ReorgPreflightPolicy) (material : ReplaySandboxMaterial) (c : Blockchain)
    (tip : Block) (r : ReplaySandboxReplayOk) (htip : c.blocks.getLast? = some tip)
    (hhash : tip.blockHash = plan.forkHash)
    (hheight : ∃ e, index.get plan.forkHash = some e ∧ tip.height = e.height)
    (hstate : c.state = material.stateAtFork) (hcons : c.consensus = material.consensus)
    (hresolve : resolveParentBlock material plan.forkHash = .ok tip)
    (hr : (ReplaySandbox.runReport plan index policy material).replay = .completed (.ok r)) :
    (∃ c', Accepted c (material.bodies plan.applyOrdered) c' ∧
      sandboxStateFingerprint c'.state = r.finalStateFingerprint) ↔
    (material.bodies plan.applyOrdered).IsChain (TimestampsFollow material.consensus) := by
  rcases runReport_completed_iff.mp hr with ⟨hvalid, _, hreplay⟩
  rcases runReplayOnClones_ok_iff.mp hreplay with ⟨hall, _, s, total, hbranch, _, rfl⟩
  have hchained := ReorgPlan.validateAgainstIndex_ok_iff.mp hvalid
  rcases zip_bodies fun h hh => hall h (List.mem_append_right _ hh) with ⟨hfst, hsnd, _⟩
  -- The plan starts at the fork, where the live chain stands.
  have hst : Stands index tip := by
    rw [Stands, hhash]
    exact hheight
  have hrooted : ∀ p ∈ plan.applyOrdered.zip (material.bodies plan.applyOrdered),
      index.Rooted p.1 := by
    intro p hp
    exact hchained.rooted_of (List.mem_cons_of_mem _
      (List.mem_append_right _ (List.of_mem_zip hp).1))
  have hleads : Leads index.ParentIs plan.newTip
      ((plan.applyOrdered.zip (material.bodies plan.applyOrdered)).map Prod.fst).reverse
      tip.blockHash := by
    rw [hfst, hhash]
    exact hchained.apply
  rw [← hstate] at hbranch
  rcases replay_accepted_iff htip hst hcons hrooted hleads hbranch with ⟨hiff, hreached⟩
  -- The first block follows the tip already, since the tip is what was supplied.
  have hfirst := replay_first_follows htip hst hrooted hleads (hhash ▸ hresolve) hbranch
  rw [hsnd] at hiff hreached hfirst
  rw [← hfirst, ← hiff]
  constructor
  · intro h
    rcases h with ⟨c', hacc, _⟩
    exact ⟨c', hacc⟩
  · intro h
    rcases h with ⟨c', hacc⟩
    exact ⟨c', hacc, by rw [hreached c' hacc]⟩

/-! ### Coherent material -/

/-- Material whose blocks stand under their own hashes, the same in both maps. -/
structure ReplaySandboxMaterial.Coherent (material : ReplaySandboxMaterial) : Prop where
  body_hash : ∀ k b, material.blocksByHash.lookup k = some b → b.blockHash = k
  header_hash : ∀ k b, material.parentBlocksByHash.lookup k = some b → b.blockHash = k
  agree : ∀ k a b, material.blocksByHash.lookup k = some a →
    material.parentBlocksByHash.lookup k = some b → a = b

omit [Primitives] in
theorem ReplaySandboxMaterial.Coherent.hash {k : String} {b : Block} (hc : material.Coherent)
    (hb : material.blocksByHash.lookup k = some b ∨
      material.parentBlocksByHash.lookup k = some b) : b.blockHash = k := by
  rcases hb with hb | hb
  · exact hc.body_hash k b hb
  · exact hc.header_hash k b hb

omit [Primitives] in
/-- Which map is looked at first does not matter for coherent material. -/
theorem ReplaySandboxMaterial.Coherent.resolve {k : String} {b : Block}
    (hc : material.Coherent)
    (hb : material.blocksByHash.lookup k = some b ∨
      material.parentBlocksByHash.lookup k = some b) :
    resolveParentBlock material k = .ok b := by
  refine resolveParentBlock_ok_iff.mpr ⟨?_, hc.hash hb⟩
  cases hheader : material.parentBlocksByHash.lookup k with
  | none =>
      rcases hb with hb | hb
      · rw [Option.none_or]
        exact hb
      · rw [hheader] at hb
        exact absurd hb (by simp only [reduceCtorEq, not_false_eq_true])
  | some p =>
      rw [Option.some_or]
      rcases hb with hb | hb
      · rw [hc.agree k b p hb hheader]
      · rw [← hheader]
        exact hb

/-- With the tip itself supplied as its header, the two validators decide alike
    about a block that the index describes. -/
theorem coherent_step {c : Blockchain} {h : String} {b tip : Block} {s' : State}
    (htip : c.blocks.getLast? = some tip) (hst : Stands index tip)
    (hcons : c.consensus = material.consensus)
    (hresolve : resolveParentBlock material tip.blockHash = .ok tip) (hr : index.Rooted h)
    (hd : index.Describes h b) (hp : index.ParentIs h tip.blockHash) :
    applyBlockToState material index c.state b h = .ok s' ↔
      c.appendBlock b = (.ok (), { c with state := s', blocks := c.blocks ++ [b] }) := by
  constructor
  · intro hok
    -- The header that the sandbox looked at is the tip.
    rcases sandbox_step htip hst hr hp hok with ⟨_, _, ⟨parent, hparent, hts⟩, hlive⟩
    rw [hresolve, Except.ok.injEq] at hparent
    refine (hlive _).mpr ⟨?_, rfl⟩
    rw [hcons, hparent]
    exact hts
  · intro hok
    have hvalid := ((Blockchain.appendBlock_ok_iff _ _ _).mp hok).1
    -- The live validator does not look at the index, but what it checks implies the link.
    have hlink := hd.link hvalid hr hp
    rcases (live_step htip hst hd hlink).mp hok with ⟨_, hts, next, hnext, heq⟩
    have hstate : s' = next := congrArg Blockchain.state heq
    rw [hcons] at hts
    refine applyBlockToState_ok_iff.mpr ⟨hd, fun _ => ⟨tip, ?_, hts⟩, hvalid, hstate ▸ hnext⟩
    rw [(hd.follows hlink hst).2.1]
    exact hresolve

/-- With every block of a branch supplied as its own header, the sandbox
    replays the branch exactly if the live chain accepts it. -/
theorem coherent_replay_iff {c : Blockchain} {tip : Block} {s' : State} {top : String}
    {pairs : List (String × Block)} (htip : c.blocks.getLast? = some tip)
    (hst : Stands index tip) (hcons : c.consensus = material.consensus)
    (hresolve : resolveParentBlock material tip.blockHash = .ok tip)
    (hpairs : ∀ p ∈ pairs, index.Rooted p.1 ∧ index.Describes p.1 p.2 ∧
      resolveParentBlock material p.1 = .ok p.2)
    (hleads : Leads index.ParentIs top (pairs.map Prod.fst).reverse tip.blockHash) :
    replayBranch material index c.state pairs = .ok s' ↔
      ∃ c', Accepted c (pairs.map Prod.snd) c' ∧ c'.state = s' := by
  induction pairs generalizing c tip with
  | nil =>
      rw [replayBranch, Except.ok.injEq]
      constructor
      · intro h
        exact ⟨c, .nil c, h⟩
      · intro h
        rcases h with ⟨c', hacc, hs⟩
        cases hacc
        exact hs
  | cons p rest ih =>
      rcases p with ⟨h, b⟩
      rcases hpairs (h, b) List.mem_cons_self with ⟨hr, hd, hself⟩
      rw [List.map_cons, List.reverse_cons, leads_concat_iff] at hleads
      have hstep : ∀ s₁, applyBlockToState material index c.state b h = .ok s₁ ↔
          c.appendBlock b = (.ok (), { c with state := s₁, blocks := c.blocks ++ [b] }) :=
        fun _ => coherent_step htip hst hcons hresolve hr hd hleads.2
      -- The next block stands on this one, which is its own header.
      have hnext := fun s₁ => ih (c := { c with state := s₁, blocks := c.blocks ++ [b] })
        List.getLast?_concat hd.stands hcons (hd.1.symm ▸ hself)
        (fun p hp => hpairs p (List.mem_cons_of_mem _ hp)) (hd.1.symm ▸ hleads.1)
      simp only [replayBranch, bind_ok_iff, hstep, List.map_cons, accepted_cons_iff]
      constructor
      · intro hc
        rcases hc with ⟨s₁, hfirst, hrest⟩
        rcases (hnext s₁).mp hrest with ⟨c', hacc, hs⟩
        exact ⟨c', ⟨_, hfirst, hacc⟩, hs⟩
      · intro hc
        rcases hc with ⟨c', ⟨c₁, hfirst, hacc⟩, hs⟩
        -- An accepted block leaves the chain with its state and itself on top.
        rcases (Blockchain.appendBlock_ok_iff _ _ _).mp hfirst with ⟨_, _, _, _, _, _, s₁, _, rfl⟩
        exact ⟨s₁, hfirst, (hnext s₁).mpr ⟨c', hacc, hs⟩⟩

/-- The same for a branch that is given by its hashes. -/
theorem coherent_branch_iff {c : Blockchain} {tip : Block} {s' : State} {top : String}
    {hs : List String} (htip : c.blocks.getLast? = some tip) (hst : Stands index tip)
    (hcons : c.consensus = material.consensus)
    (hresolve : resolveParentBlock material tip.blockHash = .ok tip)
    (hblock : ∀ h ∈ hs, ∃ b, material.blocksByHash.lookup h = some b ∧ index.Rooted h ∧
      index.Describes h b ∧ resolveParentBlock material h = .ok b)
    (hleads : Leads index.ParentIs top hs.reverse tip.blockHash) :
    replayBranch material index c.state (hs.zip (material.bodies hs)) = .ok s' ↔
      ∃ c', Accepted c (material.bodies hs) c' ∧ c'.state = s' := by
  have hpresent : ∀ h ∈ hs, ∃ b, material.blocksByHash.lookup h = some b := by
    intro h hh
    rcases hblock h hh with ⟨b, hb, _⟩
    exact ⟨b, hb⟩
  rcases zip_bodies hpresent with ⟨hfst, hsnd, hmem⟩
  rw [coherent_replay_iff htip hst hcons hresolve, hsnd]
  · intro p hp
    rcases hblock p.1 (List.of_mem_zip hp).1 with ⟨b, hb, hrest⟩
    rw [hmem p hp, Option.some.injEq] at hb
    rw [hb]
    exact hrest
  · rw [hfst]
    exact hleads

/-- On coherent material the sandbox decides what the live validator decides:
    the replay succeeds exactly if the live chain accepts the old branch and ends
    in the expected state, accepts the new branch, and the balances then sum to a
    machine word. The report is about the state that the live chain reaches. -/
theorem coherent_sandbox_iff (plan : ReorgPlan) (index : BlockIndex)
    (policy : ReorgPreflightPolicy) (material : ReplaySandboxMaterial) (c : Blockchain)
    (tip : Block) (hvalid : plan.validateAgainstIndex index = .ok ())
    (hpolicy : (ReorgPreflight.evaluate plan index policy).verdict ≠ .rejected)
    (hcoherent : material.Coherent)
    (hplanned : ∀ h ∈ plan.rollbackOrdered ++ plan.applyOrdered, ∃ b e,
      material.blocksByHash.lookup h = some b ∧ index.get h = some e ∧ b.height = e.height ∧
        b.previousHash = e.parentHash)
    (hfork : material.blocksByHash.lookup plan.forkHash = some tip ∨
      material.parentBlocksByHash.lookup plan.forkHash = some tip)
    (hheight : ∃ e, index.get plan.forkHash = some e ∧ tip.height = e.height)
    (htip : c.blocks.getLast? = some tip) (hstate : c.state = material.stateAtFork)
    (hcons : c.consensus = material.consensus) :
    ((∃ r, (ReplaySandbox.runReport plan index policy material).replay = .completed (.ok r)) ↔
      (plan.rollbackOrdered ≠ [] → ∃ expected c',
        material.expectedStateAtOldTip = some expected ∧
        Accepted c (material.bodies plan.rollbackOrdered.reverse) c' ∧
        sandboxStateFingerprint c'.state = sandboxStateFingerprint expected) ∧
      ∃ c', Accepted c (material.bodies plan.applyOrdered) c' ∧
        c'.state.book.supply ≤ 2 ^ 64 - 1) ∧
    ∀ r, (ReplaySandbox.runReport plan index policy material).replay = .completed (.ok r) →
      ∃ c', Accepted c (material.bodies plan.applyOrdered) c' ∧
        r.finalStateFingerprint = sandboxStateFingerprint c'.state ∧
        r.finalSupplyTotal.toNat = c'.state.book.supply := by
  have hchained := ReorgPlan.validateAgainstIndex_ok_iff.mp hvalid
  -- What the plan and the coherence say about each planned block.
  have hpresent : ∀ h ∈ plan.rollbackOrdered ++ plan.applyOrdered,
      ∃ b, material.blocksByHash.lookup h = some b := by
    intro h hh
    rcases hplanned h hh with ⟨b, _, hb, _⟩
    exact ⟨b, hb⟩
  have hhash := hcoherent.hash hfork
  have hst : Stands index tip := by
    rw [Stands, hhash]
    exact hheight
  have hself : resolveParentBlock material tip.blockHash = .ok tip := by
    rw [hhash]
    exact hcoherent.resolve hfork
  have hblock : ∀ h ∈ plan.rollbackOrdered ++ plan.applyOrdered, ∃ b,
      material.blocksByHash.lookup h = some b ∧ index.Rooted h ∧ index.Describes h b ∧
        resolveParentBlock material h = .ok b := by
    intro h hh
    rcases hplanned h hh with ⟨b, e, hb, he, hbh, hbp⟩
    exact ⟨b, hb, hchained.rooted_of (List.mem_cons_of_mem _ hh),
      ⟨hcoherent.hash (Or.inl hb), e, he, hbh, hbp⟩, hcoherent.resolve (Or.inl hb)⟩
  -- Either branch is replayed on the state of the fork as the live chain accepts it.
  have hold : ∀ s, replayBranch material index c.state
      (plan.rollbackOrdered.zip (material.bodies plan.rollbackOrdered)).reverse = .ok s ↔
      ∃ c', Accepted c (material.bodies plan.rollbackOrdered.reverse) c' ∧ c'.state = s := by
    rw [zip_bodies_reverse fun h hh => hpresent h (List.mem_append_left _ hh)]
    have hleads := hchained.rollback
    rw [← hhash, ← List.reverse_reverse plan.rollbackOrdered] at hleads
    refine fun _ => coherent_branch_iff htip hst hcons hself ?_ hleads
    exact fun h hh => hblock h (List.mem_append_left _ (List.mem_reverse.mp hh))
  have hnew : ∀ s, replayBranch material index c.state
      (plan.applyOrdered.zip (material.bodies plan.applyOrdered)) = .ok s ↔
      ∃ c', Accepted c (material.bodies plan.applyOrdered) c' ∧ c'.state = s := by
    refine fun _ => coherent_branch_iff htip hst hcons hself ?_ (hhash ▸ hchained.apply)
    exact fun h hh => hblock h (List.mem_append_right _ hh)
  simp only [runReport_completed_iff, runReplayOnClones_ok_iff, ← hstate, hold, hnew,
    State.totalBalanceSum_ok_iff]
  constructor
  · constructor
    · intro h
      rcases h with ⟨r, _, _, _, hback, _, total, ⟨c', hacc, rfl⟩, hsum, _⟩
      refine ⟨?_, c', hacc, ?_⟩
      · intro hne
        rcases hback hne with ⟨expected, _, hexp, ⟨c₁, hacc₁, rfl⟩, hfp⟩
        exact ⟨expected, c₁, hexp, hacc₁, hfp⟩
      · have := total.toNat_lt
        omega
    · intro h
      rcases h with ⟨hback, c', hacc, hsum⟩
      refine ⟨_, hvalid, hpolicy, hpresent, ?_, c'.state, UInt64.ofNat c'.state.book.supply,
        ⟨c', hacc, rfl⟩, ?_, rfl⟩
      · intro hne
        rcases hback hne with ⟨expected, c₁, hexp, hacc₁, hfp⟩
        exact ⟨expected, c₁.state, hexp, ⟨c₁, hacc₁, rfl⟩, hfp⟩
      · -- The supply is a word, so the sum over the rows is found.
        rw [UInt64.toNat_ofNat', Nat.mod_eq_of_lt (by omega)]
  · intro r h
    rcases h with ⟨_, _, _, _, _, total, ⟨c', hacc, rfl⟩, hsum, rfl⟩
    exact ⟨c', hacc, rfl, hsum.symm⟩

end Sandbox

namespace Sample

/-- A block on genesis. -/
def first : Block :=
  Blockchain.sealedBlock Block.genesis 100 []

/-- A block on that one, with a time of its own. -/
def second (time : UInt64) : Block :=
  Blockchain.sealedBlock first time []

/-- The index of both. -/
def twoBlocks (time : UInt64) : BlockIndex :=
  ⟨(((∅ : Finmap fun _ : String => BlockIndexEntry).insert "GENESIS_HASH" ⟨"", 0⟩).insert
    first.blockHash ⟨"GENESIS_HASH", 1⟩).insert (second time).blockHash ⟨first.blockHash, 2⟩⟩

/-- Apply both to genesis. -/
def applyBoth (time : UInt64) : ReorgPlan :=
  { forkHash := "GENESIS_HASH", rollbackOrdered := [],
    applyOrdered := [first.blockHash, (second time).blockHash] }

/-- Both bodies, and a header that is to stand for the first. -/
def bothWith (header : Block) (time : UInt64) : ReplaySandboxMaterial :=
  { stateAtFork := start.state
    blocksByHash := ((∅ : Finmap fun _ : String => Block).insert first.blockHash first).insert
      (second time).blockHash (second time)
    expectedStateAtOldTip := none
    consensus := .default
    parentBlocksByHash := ((∅ : Finmap fun _ : String => Block).insert "GENESIS_HASH"
      Block.genesis).insert first.blockHash header }

/-- The first block, under its hash but with an earlier time. -/
def forged : Block :=
  { first with timestampUnix := 0 }

theorem totalBalanceSum_start : start.state.totalBalanceSum = .ok 1000 := by
  decide

/-- The sandbox accepts a second block that is older than the first, since it
    compares it with the header that is supplied. -/
theorem runReport_forged :
    ∃ r, (ReplaySandbox.runReport (applyBoth 50) (twoBlocks 50) ⟨0⟩ (bothWith forged 50)).replay =
      .completed (.ok r) := by
  have hbranch : replayBranch (bothWith forged 50) (twoBlocks 50) start.state
      ((applyBoth 50).applyOrdered.zip ((bothWith forged 50).bodies (applyBoth 50).applyOrdered)) =
      .ok start.state := by
    decide +kernel
  refine ⟨_, runReport_completed_iff.mpr ⟨by decide, by decide,
    runReplayOnClones_ok_iff.mpr
      ⟨?_, fun h => absurd rfl h, _, _, hbranch, totalBalanceSum_start, rfl⟩⟩⟩
  intro h hh
  exact Option.isSome_iff_exists.mp ((by decide : ∀ h ∈ (applyBoth 50).rollbackOrdered ++
    (applyBoth 50).applyOrdered, ((bothWith forged 50).blocksByHash.lookup h).isSome) h hh)

/-- The live chain does not accept the same blocks. -/
theorem forged_header_accepted :
    start.blocks.getLast? = some Block.genesis ∧
    Block.genesis.blockHash = (applyBoth 50).forkHash ∧
    (∃ e, (twoBlocks 50).get (applyBoth 50).forkHash = some e ∧
      Block.genesis.height = e.height) ∧
    start.state = (bothWith forged 50).stateAtFork ∧
    start.consensus = (bothWith forged 50).consensus ∧
    resolveParentBlock (bothWith forged 50) (applyBoth 50).forkHash = .ok Block.genesis ∧
    (∃ r, (ReplaySandbox.runReport (applyBoth 50) (twoBlocks 50) ⟨0⟩ (bothWith forged 50)).replay =
      .completed (.ok r)) ∧
    ¬ ∃ c', Accepted start ((bothWith forged 50).bodies (applyBoth 50).applyOrdered) c' := by
  refine ⟨rfl, rfl, ⟨⟨"", 0⟩, by decide, rfl⟩, rfl, rfl, by decide,
    runReport_forged, fun h => ?_⟩
  rcases h with ⟨c', hacc⟩
  have hnone : (replayAll start
      ((bothWith forged 50).bodies (applyBoth 50).applyOrdered)).toOption.isNone := by
    decide +kernel
  rw [replayAll_ok_iff.mpr hacc] at hnone
  exact absurd hnone (by simp only [Except.toOption, Option.isNone_some, Bool.false_eq_true,
    not_false_eq_true])

/-- The timestamps of the two blocks decide about that replay. -/
theorem forged_header_live_iff :
    ∃ r, (ReplaySandbox.runReport (applyBoth 50) (twoBlocks 50) ⟨0⟩ (bothWith forged 50)).replay =
        .completed (.ok r) ∧
      ((∃ c', Accepted start ((bothWith forged 50).bodies (applyBoth 50).applyOrdered) c' ∧
        sandboxStateFingerprint c'.state = r.finalStateFingerprint) ↔
      ((bothWith forged 50).bodies (applyBoth 50).applyOrdered).IsChain
        (TimestampsFollow (bothWith forged 50).consensus)) := by
  rcases runReport_forged with ⟨r, hr⟩
  exact ⟨r, hr, sandbox_ok_live_iff (applyBoth 50) (twoBlocks 50) ⟨0⟩ (bothWith forged 50) start
    Block.genesis r rfl rfl ⟨⟨"", 0⟩, by decide, rfl⟩ rfl rfl (by decide) hr⟩

theorem coherent_both : (bothWith first 100).Coherent where
  body_hash k b h :=
    (by decide : ∀ e ∈ (bothWith first 100).blocksByHash.entries, e.2.blockHash = e.1)
      ⟨k, b⟩ (Finmap.lookup_eq_some_iff.mp h)
  header_hash k b h :=
    (by decide :
      ∀ e ∈ (bothWith first 100).parentBlocksByHash.entries, e.2.blockHash = e.1)
      ⟨k, b⟩ (Finmap.lookup_eq_some_iff.mp h)
  agree k a b ha hb :=
    (by decide : ∀ e ∈ (bothWith first 100).blocksByHash.entries,
      ∀ f ∈ (bothWith first 100).parentBlocksByHash.entries, e.1 = f.1 → e.2 = f.2)
      ⟨k, a⟩ (Finmap.lookup_eq_some_iff.mp ha) ⟨k, b⟩ (Finmap.lookup_eq_some_iff.mp hb) rfl

/-- The blocks in order, with themselves as headers, are replayed. -/
theorem coherent_both_replayed :
    ∃ r, (ReplaySandbox.runReport (applyBoth 100) (twoBlocks 100) ⟨0⟩
      (bothWith first 100)).replay = .completed (.ok r) := by
  have hreplay : (do
      let c ← replayAll start ((bothWith first 100).bodies (applyBoth 100).applyOrdered)
      Except.ok c.state) = .ok start.state := by
    decide +kernel
  rcases bind_ok_iff.mp hreplay with ⟨c', hrun, hstate⟩
  have hacc := replayAll_ok_iff.mp hrun
  have hsupply := State.totalBalanceSum_ok_iff.mp totalBalanceSum_start
  refine (coherent_sandbox_iff (applyBoth 100) (twoBlocks 100) ⟨0⟩ (bothWith first 100) start
    Block.genesis (by decide) (by decide) coherent_both ?_ (Or.inr ?_)
    ⟨⟨"", 0⟩, by decide, rfl⟩ rfl rfl rfl).1.mpr ⟨fun h => absurd rfl h, c', hacc, ?_⟩
  · intro h hh
    rcases List.mem_pair.mp hh with rfl | rfl
    · exact ⟨first, ⟨"GENESIS_HASH", 1⟩, by decide, by decide, rfl, rfl⟩
    · exact ⟨second 100, ⟨first.blockHash, 2⟩, by decide, by decide, rfl, rfl⟩
  · decide
  · rw [Except.ok.inj hstate, hsupply]
    decide

end Sample

end Trilogicon
