import Trilogicon.Core.BlockIndex

/-!
# The Deepest Common Ancestor

What `fork_slices_between_tips` computes, in terms of the paths that
`path_from_tip_toward_genesis` returns.

The three loops treat the two tips differently: the old tip is walked down to
height zero first, then the new tip down to a block of that path, then the old
tip again down to the same block. Only the outcome is symmetric. It is stated
here by paths alone: both tips have a path, the paths end in one block, and the
fork is where they join.

Nothing is assumed of the index. Heights fall by one along every link that is
followed, which is why no block below the fork can come before it on either
path, and why the fork is the highest of the common blocks.

## Theorems

* `path_append`: The path of a block continues the walk to it.
* `forkSlices_paths`: The suffixes and the path of the fork make up the paths.
* `forkSlices_exists_iff`: When two tips have a fork.
* `forkSlices_symm`: The two tips may be exchanged.
* `fork_is_deepest_common_ancestor`: All of it.
-/

namespace Trilogicon

namespace BlockIndex

variable {index : BlockIndex} {a b f : String} {l p : List String}

/-- The path of a block continues every walk that arrives there. -/
theorem path_append (hl : Leads index.Link a l f)
    (hp : index.pathFromTipTowardGenesis f = .ok p) :
    index.pathFromTipTowardGenesis a = .ok (l ++ p) := by
  rcases pathFromTipTowardGenesis_ok_iff.mp hp with ⟨l', r, rfl, hl', hroot⟩
  exact pathFromTipTowardGenesis_ok_iff.mpr
    ⟨l ++ l', r, (List.append_assoc l l' [r]).symm, hl.append hl', hroot⟩

/-- A path starts at its tip. -/
theorem head_path (hp : index.pathFromTipTowardGenesis f = .ok p) : p.head? = some f := by
  rcases pathFromTipTowardGenesis_ok_iff.mp hp with ⟨l, r, rfl, hl, _⟩
  cases hl with
  | here => rfl
  | step => rfl

/-- Everything after the tip of a path is lower. -/
theorem path_heights (hp : index.pathFromTipTowardGenesis f = .ok p) {h : String} (hh : h ∈ p) :
    h = f ∨ index.heightOf h < index.heightOf f := by
  rcases pathFromTipTowardGenesis_ok_iff.mp hp with ⟨l, r, rfl, hl, _⟩
  by_cases heq : h = f
  · exact Or.inl heq
  · -- A block on the path that is not its tip was reached by at least one step.
    have hbelow : ∃ l', Leads index.Link f l' h := by
      rcases List.mem_append.mp hh with hin | hlast
      · rcases hl.split_at hin with ⟨l₁, _, _, h₁, _⟩
        exact ⟨l₁, h₁⟩
      · rw [List.mem_singleton.mp hlast]
        exact ⟨l, hl⟩
    rcases hbelow with ⟨l', hl'⟩
    cases hl' with
    | here => exact absurd rfl heq
    | step hab hrest =>
        exact Or.inr ((Leads.step hab hrest).rank_lt index.link_lowers List.mem_cons_self)

/-- The suffixes and the path of the fork make up the two paths, and the
    suffixes have nothing in common. -/
theorem forkSlices_paths {s : ForkSlices} :
    index.forkSlicesBetweenTips a b = .ok s ↔
      ∃ p, index.pathFromTipTowardGenesis s.forkHash = .ok p ∧
        Leads index.Link a s.oldSuffix s.forkHash ∧ Leads index.Link b s.newSuffix s.forkHash ∧
        s.oldSuffix.Disjoint s.newSuffix := by
  rcases s with ⟨fork, old, new⟩
  rw [forkSlicesBetweenTips_ok_iff]
  constructor
  · intro h
    rcases h with ⟨hold, hnew, hdisj, l, r, hl, hroot⟩
    exact ⟨l ++ [r], pathFromTipTowardGenesis_ok_iff.mpr ⟨l, r, rfl, hl, hroot⟩, hold, hnew,
      fun x hx hx' => hdisj x hx' hx⟩
  · intro h
    rcases h with ⟨p, hp, hold, hnew, hdisj⟩
    rcases pathFromTipTowardGenesis_ok_iff.mp hp with ⟨l, r, _, hl, hroot⟩
    exact ⟨hold, hnew, fun x hx hx' => hdisj hx' hx, l, r, hl, hroot⟩

/-- Two tips have a fork when both have a path and the paths end in one
    block. -/
theorem forkSlices_exists_iff :
    (∃ s, index.forkSlicesBetweenTips a b = .ok s) ↔
      ∃ pa pb root, index.pathFromTipTowardGenesis a = .ok pa ∧
        index.pathFromTipTowardGenesis b = .ok pb ∧
        pa.getLast? = some root ∧ pb.getLast? = some root := by
  constructor
  · intro h
    rcases h with ⟨s, hs⟩
    rcases forkSlices_paths.mp hs with ⟨p, hp, hold, hnew, _⟩
    rcases pathFromTipTowardGenesis_ok_iff.mp hp with ⟨l, r, rfl, _⟩
    refine ⟨_, _, r, path_append hold hp, path_append hnew hp, ?_, ?_⟩
    · rw [← List.append_assoc, List.getLast?_concat]
    · rw [← List.append_assoc, List.getLast?_concat]
  · intro h
    rcases h with ⟨pa, pb, root, hpa, hpb, hra, hrb⟩
    rcases pathFromTipTowardGenesis_ok_iff.mp hpa with ⟨la, ra, rfl, hla, hroot⟩
    rcases pathFromTipTowardGenesis_ok_iff.mp hpb with ⟨lb, rb, rfl, hlb, _⟩
    rw [List.getLast?_concat, Option.some.injEq] at hra hrb
    -- Both walks end at the root, so they meet at it or before.
    rw [hra] at hla hroot
    rw [hrb] at hlb
    rcases hla.exists_meet hlb with ⟨fork, old, new, rest, _, hold, hnew, hrest, hdisj⟩
    exact ⟨⟨fork, old, new⟩, forkSlicesBetweenTips_ok_iff.mpr
      ⟨hold, hnew, hdisj, rest, root, hrest, hroot⟩⟩

/-- The two tips may be exchanged. -/
theorem forkSlices_symm {old new : List String} :
    index.forkSlicesBetweenTips a b = .ok ⟨f, old, new⟩ ↔
      index.forkSlicesBetweenTips b a = .ok ⟨f, new, old⟩ := by
  rw [forkSlices_paths, forkSlices_paths]
  refine exists_congr fun p => and_congr_right fun _ => ?_
  constructor
  · intro h
    exact ⟨h.2.1, h.1, h.2.2.symm⟩
  · intro h
    exact ⟨h.2.1, h.1, h.2.2.symm⟩

/-- `fork_slices_between_tips` computes the deepest common ancestor. It
    succeeds exactly when both tips have a path and the paths end in the same
    block of height zero; then each path is its suffix followed by the path of the
    fork, which starts at the fork; the suffixes share no hash, and every other
    block on both paths is lower than the fork. Exchanging the tips exchanges the
    suffixes. -/
theorem fork_is_deepest_common_ancestor (index : BlockIndex) (a b : String) :
    ((∃ s, index.forkSlicesBetweenTips a b = .ok s) ↔
      ∃ pa pb root e, index.pathFromTipTowardGenesis a = .ok pa ∧
        index.pathFromTipTowardGenesis b = .ok pb ∧ pa.getLast? = some root ∧
        pb.getLast? = some root ∧ index.get root = some e ∧ e.height = 0) ∧
    (∀ s, index.forkSlicesBetweenTips a b = .ok s →
      ∃ p, index.pathFromTipTowardGenesis s.forkHash = .ok p ∧ p.head? = some s.forkHash ∧
        index.pathFromTipTowardGenesis a = .ok (s.oldSuffix ++ p) ∧
        index.pathFromTipTowardGenesis b = .ok (s.newSuffix ++ p) ∧
        s.oldSuffix.Disjoint s.newSuffix ∧
        ∀ h ∈ s.oldSuffix ++ p, h ∈ s.newSuffix ++ p →
          h = s.forkHash ∨ index.heightOf h < index.heightOf s.forkHash) ∧
    ∀ s, index.forkSlicesBetweenTips a b = .ok s ↔
      index.forkSlicesBetweenTips b a = .ok ⟨s.forkHash, s.newSuffix, s.oldSuffix⟩ := by
  refine ⟨?_, ?_, fun s => forkSlices_symm⟩
  · rw [forkSlices_exists_iff]
    constructor
    · intro h
      rcases h with ⟨pa, pb, root, hpa, hpb, hra, hrb⟩
      -- A path that is returned ends at height zero.
      rcases pathFromTipTowardGenesis_ok_iff.mp hpa with ⟨l, r, rfl, _, e, he, hzero⟩
      have hr := hra
      rw [List.getLast?_concat, Option.some.injEq] at hr
      exact ⟨_, pb, root, e, hpa, hpb, hra, hrb, hr ▸ he, hzero⟩
    · intro h
      rcases h with ⟨pa, pb, root, _, hpa, hpb, hra, hrb, _⟩
      exact ⟨pa, pb, root, hpa, hpb, hra, hrb⟩
  · intro s hs
    rcases forkSlices_paths.mp hs with ⟨p, hp, hold, hnew, hdisj⟩
    refine ⟨p, hp, head_path hp, path_append hold hp, path_append hnew hp, hdisj, ?_⟩
    intro h ha hb
    -- A common block is not above the fork on both sides.
    rcases List.mem_append.mp ha with hao | hin
    · rcases List.mem_append.mp hb with hbn | hin
      · exact absurd hbn (hdisj hao)
      · exact path_heights hp hin
    · exact path_heights hp hin

end BlockIndex

end Trilogicon
