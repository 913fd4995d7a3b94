import Trilogicon.Theory.Restart

/-!
# Rolling Back

Rolling back is the inverse of appending.

A rollback does not undo anything. It drops blocks from the end of the list and
computes the table again from the genesis document, by one of two replay
routines. That this gives back the table of the shorter chain is the replay
half of the invariant: the table of every chain is the one its own blocks
produce. That the loop of `rollback_to_height` stops at the right block is the
other half: heights are positions, so the blocks above a height are a suffix.

## Theorems

* `Linked.height_lt_after`: Later blocks are higher.
* `Linked.rdropWhile_after`: Dropping what is above a block leaves the blocks
  up to it.
* `rollbackToHeight_extended`: Rolling a chain back to one that it extends.
* `rollback_inverts_append`: Both rollbacks, at every target.
-/

namespace Trilogicon

section Rollback

variable [Primitives]

/-- The blocks after a part of a chain are higher than its tip. -/
theorem Linked.height_lt_after {pre rest : List Block} {b tip : Block}
    (h : Linked (pre ++ rest ++ [b])) (htip : pre.getLast? = some tip) :
    tip.height < b.height := by
  have hpos := List.length_pos_of_mem (List.mem_of_getLast? htip)
  -- Heights are positions, and the tip stands before the last block.
  have hlow : tip.height.toNat = pre.length - 1 := by
    refine h.height_eq ?_
    rw [List.append_assoc, List.getElem?_append_left (by omega), ← List.getLast?_eq_getElem?]
    exact htip
  have hhigh : b.height.toNat = (pre ++ rest).length := h.height_eq List.getElem?_concat_length
  rw [List.length_append] at hhigh
  rw [UInt64.lt_iff_toNat_lt]
  omega

/-- Dropping what is above the tip of a part of a chain leaves that part. -/
theorem Linked.rdropWhile_after {pre rest : List Block} {tip : Block}
    (h : Linked (pre ++ rest)) (htip : pre.getLast? = some tip) :
    (pre ++ rest).rdropWhile (fun b => tip.height < b.height) = pre := by
  induction rest using List.reverseRecOn with
  | nil =>
      rw [List.append_nil, List.rdropWhile_eq_self_iff]
      intro hne
      rw [List.getLast?_eq_some_getLast hne, Option.some.injEq] at htip
      rw [htip, decide_eq_true_eq]
      exact UInt64.lt_irrefl _
  | append_singleton rest b ih =>
      rw [← List.append_assoc] at h ⊢
      have hne : pre ++ rest ≠ [] :=
        List.ne_nil_of_mem (List.mem_append_left rest (List.mem_of_getLast? htip))
      rw [List.rdropWhile_concat, if_pos (decide_eq_true (h.height_lt_after htip))]
      exact ih (h.of_prefix (List.prefix_append _ _) hne)

/-- Rolling a chain back to the height of a chain that it extends gives that
    chain: the blocks above are dropped, and the replay of the others is its
    table. -/
theorem rollbackToHeight_extended {g : Genesis} {c mid : Blockchain} {rest : List Block}
    (hmid : mid.Sound g) (hc : c.Sound g) (hblocks : c.blocks = mid.blocks ++ rest)
    (hpolicy : c.consensus = mid.consensus) {t : UInt64} (ht : mid.height = t) :
    c.rollbackToHeight t g = (.ok (), mid) := by
  -- The height is that of the shorter chain, so it is not above the tip.
  have hlong := Blockchain.height_eq_length hc.linked
  have hshort := Blockchain.height_eq_length hmid.linked
  rw [hblocks, List.length_append, ← hshort] at hlong
  have hbelow : ¬ c.height < t := by
    rw [UInt64.lt_iff_toNat_lt, ← ht]
    omega
  rcases Option.ne_none_iff_exists'.mp (mt List.getLast?_eq_none_iff.mp hmid.linked.ne_nil) with
    ⟨tip, htip⟩
  have htipHeight : tip.height = t := by
    rw [← ht]
    unfold Blockchain.height
    rw [htip]
    rfl
  -- What is dropped from the top are the blocks above that tip.
  have hcut : c.blocks.rdropWhile (fun b => t < b.height) = mid.blocks := by
    have hlinked := hc.linked
    rw [hblocks] at hlinked ⊢
    rw [← htipHeight]
    exact hlinked.rdropWhile_after htip
  unfold Blockchain.rollbackToHeight
  rw [if_neg hbelow]
  simp only [hcut, hmid.replay, attempt, hpolicy]

/-- Rolling back is the inverse of appending. Let blocks be accepted one after
    the other from a genesis document, under any timestamp policy. Rolling back to
    a height gives the chain of the blocks up to it, and the other blocks are
    accepted again from there; rolling back the last block gives the chain
    without it; a block that is accepted and rolled back leaves no trace. A
    height above the tip is refused, and so is the genesis block, and then
    nothing changes. -/
theorem rollback_inverts_append {g : Genesis} {params : ConsensusParams} {c₀ c : Blockchain}
    {bs : List Block} (hg : Blockchain.fromGenesisWithConsensus g params = .ok c₀)
    (h : Accepted c₀ bs c) :
    (∀ t : UInt64, t.toNat ≤ bs.length → ∃ mid, Accepted c₀ (bs.take t.toNat) mid ∧
      c.rollbackToHeight t g = (.ok (), mid) ∧ Accepted mid (bs.drop t.toNat) c) ∧
    (bs ≠ [] → ∃ mid, Accepted c₀ bs.dropLast mid ∧ c.rollbackLastBlock g = (.ok (), mid)) ∧
    (∀ b c', c.appendBlock b = (.ok (), c') → c'.rollbackLastBlock g = (.ok (), c)) ∧
    (∀ t : UInt64, bs.length < t.toNat → ∃ e, c.rollbackToHeight t g = (.error e, c)) ∧
    (bs = [] → ∃ e, c.rollbackLastBlock g = (.error e, c)) := by
  have hs₀ := Blockchain.fromGenesisWithConsensus_sound hg
  have hgenesis := fromGenesisWithConsensus_blocks hg
  rcases h.sound hs₀ with ⟨hs, hblocks, hpolicy⟩
  rw [hgenesis, List.singleton_append] at hblocks
  refine ⟨?_, ?_, ?_, ?_, ?_⟩
  · intro t ht
    have hsplit := h
    -- The blocks up to the height were accepted before the others.
    rw [← List.take_append_drop t.toNat bs, Accepted.append_iff] at hsplit
    rcases hsplit with ⟨mid, hlow, hhigh⟩
    rcases hlow.sound hs₀ with ⟨hsmid, hmid, hpmid⟩
    have hheight := Blockchain.height_eq_length hsmid.linked
    rw [hmid, hgenesis, List.length_append, List.length_take, List.length_singleton,
      Nat.min_eq_left ht] at hheight
    refine ⟨mid, hlow, ?_, hhigh⟩
    exact rollbackToHeight_extended hsmid hs (hhigh.sound hsmid).2.1 (hpolicy.trans hpmid.symm)
      (UInt64.toNat_inj.mp (by omega))
  · intro hne
    have hsplit := h
    rw [← List.dropLast_append_getLast hne, Accepted.append_iff] at hsplit
    rcases hsplit with ⟨mid, hlow, hlast⟩
    -- The last block alone is one append.
    cases hlast with
    | cons hb hnil =>
        cases hnil
        exact ⟨mid, hlow, Blockchain.rollbackLastBlock_append (hlow.sound hs₀).1 hb⟩
  · intro b c' hb
    exact Blockchain.rollbackLastBlock_append hs hb
  · intro t ht
    have hheight := Blockchain.height_eq_length hs.linked
    rw [hblocks, List.length_cons] at hheight
    have habove : c.height < t := by
      rw [UInt64.lt_iff_toNat_lt]
      omega
    unfold Blockchain.rollbackToHeight
    rw [if_pos habove]
    exact ⟨_, rfl⟩
  · intro hnil
    have hshort : c.blocks.length ≤ 1 := by
      rw [hblocks, hnil]
      exact Nat.le_refl 1
    unfold Blockchain.rollbackLastBlock
    rw [if_pos hshort]
    exact ⟨_, rfl⟩

end Rollback

namespace Sample

/-- The chain with the payment is rolled back to the genesis block. -/
theorem rollback_payment :
    ∃ mid, Accepted start [] mid ∧ chain.rollbackToHeight 0 genesis = (.ok (), mid) ∧
      Accepted mid [block] chain :=
  (rollback_inverts_append fromGenesisWithConsensus_start
    (.cons appendBlock_chain (.nil chain))).1 0 (Nat.zero_le _)

end Sample

end Trilogicon
