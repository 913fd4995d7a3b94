import Trilogicon.Core.ReorgPlan

/-!
# Checked Plans and Generated Plans

A plan that passes the check was made by hand, or was generated from two tips.
The two should be the same plans: the generated ones, over a root without a
parent.

The generator walks and the check compares neighbours, so the proof goes through
walks: where every listed block is above height zero, a neighbour that is named
as the parent is a sound link, the two segments are walks to the fork, and the
fork is the highest block they share because everything below it is lower.

A listed block of height zero breaks this. It has sound ancestry when its parent
is the empty hash, and the check then accepts the empty hash as its neighbour;
no walk goes there. So the two agree for all plans exactly when the index has no
such neighbour to offer: the empty hash is not indexed with sound ancestry, or
there is no root beside it.

## Main definitions

* `ReorgPlan.Generated`: The plan between its own tips, over a proper root.
* `ReorgPlan.ListsRoot`: A block of height zero is to be rolled back or applied.

## Theorems

* `Rooted.link`: Where a neighbour is a link.
* `generated_iff`: The generated plans among the chained ones.
* `validated_iff_generated`: When the check accepts the generated plans.
-/

namespace Trilogicon

namespace BlockIndex

variable {index : BlockIndex} {a b h : String} {l : List String}

theorem Link.parentIs (hl : index.Link a b) : index.ParentIs a b := by
  rcases hl with ⟨e, _, he, _, hparent, _⟩
  exact ⟨e, he, hparent⟩

/-- The parent of a block with sound ancestry is linked, unless the block is
    at height zero. -/
theorem Rooted.link (hr : index.Rooted a) (ha : ¬ index.Root a) (hp : index.ParentIs a b) :
    index.Link a b := by
  rcases hr with ⟨l, r, e, hl, he, hzero, _⟩
  cases hl with
  | here => exact absurd ⟨e, he, hzero⟩ ha
  | @step _ c _ _ hac _ =>
      rcases hac.parentIs with ⟨e₁, he₁, hc⟩
      rcases hp with ⟨e₂, he₂, hb⟩
      rw [he₁, Option.some.injEq] at he₂
      rwa [← hb, ← he₂, hc]

theorem Rooted.of_leads (hl : Leads index.Link a l b) (hb : index.Rooted b) :
    index.Rooted a := by
  rcases hb with ⟨l', r, e, hl', he⟩
  exact ⟨l ++ l', r, e, hl.append hl', he⟩

theorem Rooted.of_mem (hl : Leads index.Link a l b) (hb : index.Rooted b) (hh : h ∈ l) :
    index.Rooted h := by
  rcases hl.split_at hh with ⟨_, l₂, _, _, h₂⟩
  exact hb.of_leads h₂

/-- A walk over links leaves no block of height zero. -/
theorem not_root_of_mem (hl : Leads index.Link a l b) (hh : h ∈ l) : ¬ index.Root h := by
  intro hroot
  rcases hl.exists_step hh with ⟨c, hc⟩
  exact hroot.not_link c hc

end BlockIndex

namespace ReorgPlan

variable {p : ReorgPlan} {index : BlockIndex}

/-- The plan is the one between its own tips, and the path from the old tip
    ends at a block without a parent. -/
def Generated (p : ReorgPlan) (index : BlockIndex) : Prop :=
  tryFromTips index p.oldTip p.newTip = .ok p ∧
    ∃ path root e, index.pathFromTipTowardGenesis p.oldTip = .ok path ∧
      path.getLast? = some root ∧ index.get root = some e ∧ e.parentHash = ""

/-- A block of height zero is to be rolled back or applied. -/
def ListsRoot (p : ReorgPlan) (index : BlockIndex) : Prop :=
  ∃ h ∈ p.rollbackOrdered ++ p.applyOrdered, index.Root h

theorem Chained.rooted_of (hp : p.Chained index) {h : String}
    (hh : h ∈ p.forkHash :: (p.rollbackOrdered ++ p.applyOrdered)) : index.Rooted h :=
  BlockIndex.validateBlockAncestry_ok_iff.mp (hp.rooted h hh)

/-- A chained plan without a root in its lists is two walks to the fork. -/
theorem Chained.walks (hp : p.Chained index) (hroot : ¬ p.ListsRoot index) :
    Leads index.Link p.oldTip p.rollbackOrdered p.forkHash ∧
      Leads index.Link p.newTip p.applyOrdered.reverse p.forkHash := by
  have hlink : ∀ h ∈ p.rollbackOrdered ++ p.applyOrdered, ∀ q, index.ParentIs h q →
      index.Link h q := by
    intro h hh q hq
    exact (hp.rooted_of (List.mem_cons_of_mem _ hh)).link (fun hc => hroot ⟨h, hh, hc⟩) hq
  refine ⟨hp.rollback.mono ?_, hp.apply.mono ?_⟩
  · intro h hh q hq
    exact hlink h (List.mem_append_left _ hh) q hq
  · intro h hh q hq
    exact hlink h (List.mem_append_right _ (List.mem_reverse.mp hh)) q hq

theorem Chained.generated (hp : p.Chained index) (hroot : ¬ p.ListsRoot index) :
    p.Generated index := by
  rcases hp.walks hroot with ⟨hold, hnew⟩
  rcases hp.rooted_of List.mem_cons_self with ⟨l, r, e, hl, he, hzero, hempty⟩
  rcases List.nodup_append.mp (List.nodup_cons.mp hp.nodup).2 with ⟨_, _, hdisj⟩
  refine ⟨tryFromTips_ok_iff.mpr ⟨hold, hnew, ?_, l, r, hl, e, he, hzero⟩,
    p.rollbackOrdered ++ l ++ [r], r, e, ?_, ?_, he, hempty⟩
  · intro h hh hc
    exact hdisj h hc h hh rfl
  · exact BlockIndex.pathFromTipTowardGenesis_ok_iff.mpr
      ⟨_, r, rfl, hold.append hl, e, he, hzero⟩
  · rw [List.getLast?_append, List.getLast?_singleton, Option.some_or]

theorem Generated.chained (hp : p.Generated index) :
    p.Chained index ∧ ¬ p.ListsRoot index := by
  rcases hp with ⟨hgen, path, root, e, hpath, hlast, he, hempty⟩
  rcases tryFromTips_ok_iff.mp hgen with ⟨hold, hnew, hdisj, _⟩
  rcases BlockIndex.pathFromTipTowardGenesis_ok_iff.mp hpath with ⟨l, r, rfl, hl, hroot⟩
  rw [List.getLast?_append, List.getLast?_singleton, Option.some_or, Option.some.injEq] at hlast
  subst hlast
  -- The path from the old tip passes through the fork, so the fork has the same root.
  have hfork : index.Rooted p.forkHash := by
    rcases hold.extends (R := index.Link) (fun _ _ _ => BlockIndex.Link.unique) hroot.not_link
      hl with ⟨l₂, _, hl₂⟩
    rcases hroot with ⟨e', he', hzero⟩
    rw [he, Option.some.injEq] at he'
    exact ⟨l₂, r, e, hl₂, he, he' ▸ hzero, hempty⟩
  -- Every link goes down in height, so no branch has a block twice.
  have hnodupOld := List.nodup_append.mp (hold.nodup index.link_lowers)
  have hnodupNew := List.nodup_append.mp (hnew.nodup index.link_lowers)
  refine ⟨⟨?_, ?_, hold.mono fun h _ q => BlockIndex.Link.parentIs,
    hnew.mono fun h _ q => BlockIndex.Link.parentIs⟩, ?_⟩
  · intro h hh
    rw [List.mem_cons, List.mem_append] at hh
    refine BlockIndex.validateBlockAncestry_ok_iff.mpr ?_
    rcases hh with rfl | hin | hin
    · exact hfork
    · exact hfork.of_mem hold hin
    · exact hfork.of_mem hnew (List.mem_reverse.mpr hin)
  · refine List.nodup_cons.mpr ⟨?_, List.nodup_append.mpr
      ⟨hnodupOld.1, List.nodup_reverse.mp hnodupNew.1, ?_⟩⟩
    · intro hin
      rcases List.mem_append.mp hin with hroll | happ
      · exact hnodupOld.2.2 _ hroll _ (List.mem_singleton_self _) rfl
      · exact hnodupNew.2.2 _ (List.mem_reverse.mpr happ) _ (List.mem_singleton_self _) rfl
    · intro h hh k hk heq
      exact hdisj k hk (heq ▸ hh)
  · intro hlists
    rcases hlists with ⟨h, hh, hzero⟩
    rcases List.mem_append.mp hh with hroll | happ
    · exact BlockIndex.not_root_of_mem hold hroll hzero
    · exact BlockIndex.not_root_of_mem hnew (List.mem_reverse.mpr happ) hzero

/-- The generated plans are the chained ones that list no root. -/
theorem generated_iff : p.Generated index ↔ p.Chained index ∧ ¬ p.ListsRoot index :=
  ⟨Generated.chained, fun h => h.1.generated h.2⟩

/-- A root that a chained plan lists has the empty hash as its neighbour. -/
theorem Chained.empty_rooted (hp : p.Chained index) (hlists : p.ListsRoot index) :
    index.validateBlockAncestry "" = .ok () ∧
      ∃ g e, g ≠ "" ∧ index.get g = some e ∧ e.height = 0 ∧ e.parentHash = "" := by
  rcases hlists with ⟨g, hg, hroot⟩
  -- The ancestry of a root is the root itself, so its parent is the empty hash.
  rcases hp.rooted_of (List.mem_cons_of_mem _ hg) with ⟨l, r, e, hl, he, hzero, hempty⟩
  have hgr : g = r := by
    cases hl with
    | here => rfl
    | step hgb _ => exact absurd hgb (hroot.not_link _)
  subst hgr
  have hparent : ∀ q, index.ParentIs g q → q = "" := by
    intro q hq
    rcases hq with ⟨e', he', hq⟩
    rw [he, Option.some.injEq] at he'
    rw [← hq, ← he', hempty]
  -- The neighbour is named by the plan, and the plan names nothing twice.
  have hnext : ∃ h, h ∈ p.forkHash :: (p.rollbackOrdered ++ p.applyOrdered) ∧ h ≠ g ∧
      index.ParentIs g h := by
    rcases List.nodup_cons.mp hp.nodup with ⟨hfork, hlists⟩
    rcases List.nodup_append.mp hlists with ⟨hroll, happ, _⟩
    have hsegment : ∀ {tip : String} {l : List String}, Leads index.ParentIs tip l p.forkHash →
        l.Nodup → (∀ h ∈ l, h ∈ p.rollbackOrdered ++ p.applyOrdered) → g ∈ l →
        ∃ h, h ∈ p.forkHash :: (p.rollbackOrdered ++ p.applyOrdered) ∧ h ≠ g ∧
          index.ParentIs g h := by
      intro tip l hl hnodup hsub hgl
      have hnodup' : (l ++ [p.forkHash]).Nodup := by
        refine List.nodup_append.mpr ⟨hnodup, List.nodup_singleton _, ?_⟩
        intro h hh k hk heq
        rw [heq, List.mem_singleton.mp hk] at hh
        exact hfork (hsub _ hh)
      rcases hl.exists_next hnodup' hgl with ⟨h, hh, hne, hgh⟩
      refine ⟨h, ?_, hne, hgh⟩
      rcases List.mem_append.mp hh with hin | hlast
      · exact List.mem_cons_of_mem _ (hsub h hin)
      · rw [List.mem_singleton.mp hlast]
        exact List.mem_cons_self
    rcases List.mem_append.mp hg with hin | hin
    · exact hsegment hp.rollback hroll (fun h hh => List.mem_append_left _ hh) hin
    · exact hsegment hp.apply (List.nodup_reverse.mpr happ)
        (fun h hh => List.mem_append_right _ (List.mem_reverse.mp hh)) (List.mem_reverse.mpr hin)
  rcases hnext with ⟨h, hh, hne, hgh⟩
  rw [hparent h hgh] at hh hne
  exact ⟨hp.rooted "" hh, g, e, hne.symm, he, hzero, hempty⟩

/-- The plan to roll a root back onto the empty hash is chained. -/
theorem chained_onto_empty (hempty : index.validateBlockAncestry "" = .ok ()) {g : String}
    {e : BlockIndexEntry} (hg : g ≠ "") (he : index.get g = some e) (hzero : e.height = 0)
    (hparent : e.parentHash = "") :
    Chained ⟨"", [g], []⟩ index ∧ ListsRoot ⟨"", [g], []⟩ index := by
  have hroot : index.validateBlockAncestry g = .ok () :=
    BlockIndex.validateBlockAncestry_ok_iff.mpr ⟨[], g, e, .here g, he, hzero, hparent⟩
  refine ⟨⟨?_, ?_, ?_, ?_⟩, g, List.mem_singleton_self g, e, he, hzero⟩
  · intro h hh
    simp only [List.cons_append, List.nil_append, List.mem_cons, List.not_mem_nil, or_false] at hh
    rcases hh with rfl | rfl
    · exact hempty
    · exact hroot
  · simp only [List.cons_append, List.nil_append, List.nodup_cons, List.mem_singleton,
      List.not_mem_nil, not_false_eq_true, List.nodup_nil, and_self, and_true]
    exact fun hc => hg hc.symm
  · exact .step ⟨e, he, hparent⟩ (.here "")
  · exact .here ""

/-- When the check and the generator agree. On a plan they disagree exactly if
    it is chained and lists a root; on an index they agree for all plans exactly
    if the empty hash does not have sound ancestry beside another root. -/
theorem validated_iff_generated (index : BlockIndex) :
    (∀ p : ReorgPlan, (p.validateAgainstIndex index = .ok () ↔ p.Generated index) ↔
      ¬ (p.Chained index ∧ p.ListsRoot index)) ∧
    ((∀ p : ReorgPlan, p.validateAgainstIndex index = .ok () ↔ p.Generated index) ↔
      ¬ (index.validateBlockAncestry "" = .ok () ∧
        ∃ g e, g ≠ "" ∧ index.get g = some e ∧ e.height = 0 ∧ e.parentHash = "")) := by
  have hplan : ∀ p : ReorgPlan, (p.validateAgainstIndex index = .ok () ↔ p.Generated index) ↔
      ¬ (p.Chained index ∧ p.ListsRoot index) := by
    intro p
    rw [validateAgainstIndex_ok_iff, generated_iff]
    constructor
    · intro h hboth
      exact (h.mp hboth.1).2 hboth.2
    · intro h
      exact ⟨fun hc => ⟨hc, fun hl => h ⟨hc, hl⟩⟩, And.left⟩
  refine ⟨hplan, ?_⟩
  simp only [hplan]
  constructor
  · intro h hindex
    rcases hindex with ⟨hempty, g, e, hg, he, hzero, hparent⟩
    exact h _ (chained_onto_empty hempty hg he hzero hparent)
  · intro h p hboth
    exact h (hboth.1.empty_rooted hboth.2)

end ReorgPlan

namespace Sample

/-- Two roots, one of them under the empty hash. -/
def twoRoots : BlockIndex :=
  ⟨((∅ : Finmap fun _ : String => BlockIndexEntry).insert "" ⟨"", 0⟩).insert "g" ⟨"", 0⟩⟩

/-- Roll one root back onto the other. -/
def rollRootBack : ReorgPlan :=
  { forkHash := "", rollbackOrdered := ["g"], applyOrdered := [] }

/-- The check accepts that plan, and the generator finds no common ancestor of
    its tips. -/
theorem root_rolled_back :
    rollRootBack.validateAgainstIndex twoRoots = .ok () ∧
      ReorgPlan.tryFromTips twoRoots rollRootBack.oldTip rollRootBack.newTip =
        .error .noCommonAncestor ∧
      ¬ rollRootBack.Generated twoRoots := by
  have hgen : ReorgPlan.tryFromTips twoRoots rollRootBack.oldTip rollRootBack.newTip =
      .error .noCommonAncestor := by
    decide
  refine ⟨by decide, hgen, fun h => ?_⟩
  have hok := h.1
  rw [hgen] at hok
  exact absurd hok (by simp only [reduceCtorEq, not_false_eq_true])

end Sample

end Trilogicon
