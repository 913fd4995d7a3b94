import Trilogicon.Core.BlockIndex

/-!
# Reorg Plans

`v3/reorg_plan.rs` and `v3/reorg_preflight.rs`: a plan to leave one branch for
another, its structural check, and the local policy on top of it.

A plan lists the blocks to roll back from the old tip down to the fork, and the
blocks to apply from the fork up to the new tip. Plans are generated from the
index, or made by hand and checked against it. The check is local: every listed
block has sound ancestry, no block is listed twice, and each block's parent is
its neighbour in the list.

## Main definitions

* `ReorgPlan`: The fork and the two lists.
* `ReorgPlan.tryFromTips`: The plan between two tips.
* `ReorgPlan.validateAgainstIndex`: The structural check.
* `ReorgPlan.Chained`: What the check establishes.
* `ReorgPreflight.evaluate`: The check, and then the policy.

## Theorems

* `validateAgainstIndex_ok_iff`: The check passes exactly on chained plans.
* `tryFromTips_ok_iff`: The plans that are generated.
-/

namespace Trilogicon

/-- `reorg_plan::ReorgPlanValidationError`. -/
inductive ReorgPlanValidationError where
  | blockPath (e : BlockPathError)
  | brokenRollbackChain (block detail : String)
  | brokenApplyChain (block detail : String)
  | duplicateBlock (block side : String)
  | duplicateAcrossSegments (block : String)
  | forkInsideSegments (block : String)
deriving DecidableEq, Repr

/-- `reorg_plan::ReorgPlan`. -/
structure ReorgPlan where
  forkHash : String
  rollbackOrdered : List String
  applyOrdered : List String
deriving DecidableEq, Repr

/-- The loop of `ensure_unique_hashes`. -/
def uniqueLoop (side : String) : List String → Finset String →
    Except ReorgPlanValidationError Unit
  | [], _ => .ok ()
  | h :: hs, seen =>
      if h ∈ seen then .error (.duplicateBlock h side) else uniqueLoop side hs (insert h seen)

/-- `ensure_unique_hashes`. -/
def ensureUniqueHashes (hashes : List String) (side : String) :
    Except ReorgPlanValidationError Unit :=
  uniqueLoop side hashes ∅

/-- `ensure_no_duplicate_across_segments`. -/
def ensureNoDuplicateAcrossSegments : List String → List String →
    Except ReorgPlanValidationError Unit
  | [], _ => .ok ()
  | h :: rollbackOrdered, applyOrdered =>
      if h ∈ applyOrdered then .error (.duplicateAcrossSegments h)
      else ensureNoDuplicateAcrossSegments rollbackOrdered applyOrdered

/-- The two loops that look for the fork in a segment. -/
def ensureForkOutside (forkHash : String) : List String → Except ReorgPlanValidationError Unit
  | [] => .ok ()
  | h :: hs =>
      if h = forkHash then .error (.forkInsideSegments h) else ensureForkOutside forkHash hs

/-- What both segments check of a listed block. -/
def checkListed (index : BlockIndex) (h wantParent : String)
    (broken : ReorgPlanValidationError) : Except ReorgPlanValidationError Unit := do
  (index.validateBlockAncestry h).mapError .blockPath
  match index.get h with
  | none => .error (.blockPath (.unknownBlock h))
  | some e => if e.parentHash ≠ wantParent then .error broken else .ok ()

/-- The loop over `rollback_ordered`. -/
def rollbackLoop (index : BlockIndex) (forkHash : String) :
    List String → Except ReorgPlanValidationError Unit
  | [] => .ok ()
  | h :: rest => do
      let wantParent := rest.head?.getD forkHash
      checkListed index h wantParent
        (.brokenRollbackChain h "parent must equal next rollback entry or fork_hash")
      rollbackLoop index forkHash rest

/-- The loop over `apply_ordered`, with the fork or the entry before. -/
def applyLoop (index : BlockIndex) (wantParent : String) :
    List String → Except ReorgPlanValidationError Unit
  | [] => .ok ()
  | h :: rest => do
      checkListed index h wantParent
        (.brokenApplyChain h "parent must equal fork_hash or previous apply entry")
      applyLoop index h rest

namespace ReorgPlan

/-- `ReorgPlan::from_fork_slices`. -/
def fromForkSlices (slices : ForkSlices) : ReorgPlan :=
  { forkHash := slices.forkHash
    rollbackOrdered := slices.oldSuffix
    applyOrdered := slices.newSuffix.reverse }

/-- `ReorgPlan::try_from_tips`. -/
def tryFromTips (index : BlockIndex) (oldTip newTip : String) :
    Except BlockPathError ReorgPlan := do
  let slices ← index.forkSlicesBetweenTips oldTip newTip
  return fromForkSlices slices

/-- `ReorgPlan::is_noop`. -/
def isNoop (p : ReorgPlan) : Bool :=
  p.rollbackOrdered.isEmpty && p.applyOrdered.isEmpty

/-- `ReorgPlan::validate_against_index`. -/
def validateAgainstIndex (p : ReorgPlan) (index : BlockIndex) :
    Except ReorgPlanValidationError Unit := do
  (index.validateBlockAncestry p.forkHash).mapError .blockPath
  ensureUniqueHashes p.rollbackOrdered "rollback"
  ensureUniqueHashes p.applyOrdered "apply"
  ensureNoDuplicateAcrossSegments p.rollbackOrdered p.applyOrdered
  ensureForkOutside p.forkHash p.rollbackOrdered
  ensureForkOutside p.forkHash p.applyOrdered
  rollbackLoop index p.forkHash p.rollbackOrdered
  applyLoop index p.forkHash p.applyOrdered

end ReorgPlan

/-! ### Preflight -/

/-- `reorg_preflight::ReorgPreflightPolicy`. -/
structure ReorgPreflightPolicy where
  maxReorgDepth : Nat
deriving DecidableEq, Repr

/-- `reorg_preflight::ReorgPreflightPolicyError`. -/
inductive ReorgPreflightPolicyError where
  | maxReorgDepthExceeded (rollbackDepth maxAllowed : Nat)
deriving DecidableEq, Repr

/-- `reorg_preflight::ReorgPreflightVerdict`. -/
inductive ReorgPreflightVerdict where
  | noOp
  | acceptable
  | rejected
deriving DecidableEq, Repr

/-- `reorg_preflight::ReorgPreflightPolicyPhase`. -/
inductive ReorgPreflightPolicyPhase where
  | notEvaluated
  | ok
  | failed (e : ReorgPreflightPolicyError)
deriving DecidableEq, Repr

/-- `reorg_preflight::ReorgPreflightReport`. -/
structure ReorgPreflightReport where
  rollbackDepth : Nat
  applyDepth : Nat
  structural : Except ReorgPlanValidationError Unit
  policy : ReorgPreflightPolicyPhase
  verdict : ReorgPreflightVerdict

/-- `check_policy`. -/
def checkPolicy (rollbackDepth : Nat) (policy : ReorgPreflightPolicy) :
    Except ReorgPreflightPolicyError Unit :=
  if policy.maxReorgDepth < rollbackDepth then
    .error (.maxReorgDepthExceeded rollbackDepth policy.maxReorgDepth)
  else .ok ()

/-- `ReorgPreflight::evaluate`. -/
def ReorgPreflight.evaluate (plan : ReorgPlan) (index : BlockIndex)
    (policy : ReorgPreflightPolicy) : ReorgPreflightReport :=
  let rollbackDepth := plan.rollbackOrdered.length
  let structural := plan.validateAgainstIndex index
  let (policyPhase, verdict) : ReorgPreflightPolicyPhase × ReorgPreflightVerdict :=
    match structural with
    | .error _ => (.notEvaluated, .rejected)
    | .ok () =>
        if plan.isNoop then (.ok, .noOp)
        else
          match checkPolicy rollbackDepth policy with
          | .ok () => (.ok, .acceptable)
          | .error e => (.failed e, .rejected)
  { rollbackDepth := rollbackDepth
    applyDepth := plan.applyOrdered.length
    structural := structural
    policy := policyPhase
    verdict := verdict }

/-! ### What the check establishes -/

theorem uniqueLoop_ok_iff {side : String} {hashes : List String} {seen : Finset String} :
    uniqueLoop side hashes seen = .ok () ↔ hashes.Nodup ∧ ∀ h ∈ hashes, h ∉ seen := by
  induction hashes generalizing seen with
  | nil =>
      simp only [uniqueLoop, List.nodup_nil, List.not_mem_nil, false_implies, implies_true,
        and_self]
  | cons h hashes ih =>
      rw [uniqueLoop, ite_error_ok_iff, ih, List.nodup_cons]
      simp only [List.mem_cons, Finset.mem_insert, not_or]
      constructor
      · intro hc
        rcases hc with ⟨hh, hnodup, hrest⟩
        refine ⟨⟨fun hin => (hrest h hin).1 rfl, hnodup⟩, ?_⟩
        intro k hk
        rcases hk with rfl | hin
        · exact hh
        · exact (hrest k hin).2
      · intro hc
        rcases hc with ⟨⟨hout, hnodup⟩, hrest⟩
        refine ⟨hrest h (Or.inl rfl), hnodup, ?_⟩
        intro k hk
        exact ⟨fun heq => hout (heq ▸ hk), hrest k (Or.inr hk)⟩

theorem ensureUniqueHashes_ok_iff {hashes : List String} {side : String} :
    ensureUniqueHashes hashes side = .ok () ↔ hashes.Nodup := by
  rw [ensureUniqueHashes, uniqueLoop_ok_iff]
  exact ⟨And.left, fun h => ⟨h, fun k _ => Finset.notMem_empty k⟩⟩

theorem ensureNoDuplicateAcrossSegments_ok_iff {rollbackOrdered applyOrdered : List String} :
    ensureNoDuplicateAcrossSegments rollbackOrdered applyOrdered = .ok () ↔
      ∀ h ∈ rollbackOrdered, h ∉ applyOrdered := by
  induction rollbackOrdered with
  | nil => simp only [ensureNoDuplicateAcrossSegments, List.not_mem_nil, false_implies,
      implies_true]
  | cons h rest ih =>
      rw [ensureNoDuplicateAcrossSegments, ite_error_ok_iff, ih, List.forall_mem_cons]

theorem ensureForkOutside_ok_iff {forkHash : String} {hashes : List String} :
    ensureForkOutside forkHash hashes = .ok () ↔ forkHash ∉ hashes := by
  induction hashes with
  | nil => simp only [ensureForkOutside, List.not_mem_nil, not_false_eq_true]
  | cons h hashes ih =>
      rw [ensureForkOutside, ite_error_ok_iff, ih, List.mem_cons, not_or, eq_comm (a := h)]

/-- The index gives a block this parent, whether or not the link is sound. -/
def BlockIndex.ParentIs (index : BlockIndex) (block parent : String) : Prop :=
  ∃ e, index.get block = some e ∧ e.parentHash = parent

theorem checkListed_ok_iff {index : BlockIndex} {h wantParent : String}
    {broken : ReorgPlanValidationError} :
    checkListed index h wantParent broken = .ok () ↔
      index.Rooted h ∧ index.ParentIs h wantParent := by
  rw [checkListed, then_ok_iff, mapError_ok_iff, BlockIndex.validateBlockAncestry_ok_iff]
  refine and_congr_right fun _ => ?_
  rw [BlockIndex.ParentIs]
  cases index.get h with
  | none => simp only [reduceCtorEq, false_and, exists_false]
  | some e => simp only [ite_error_ok_iff, not_not, and_true, Option.some.injEq, exists_eq_left']

theorem rollbackLoop_ok_iff {index : BlockIndex} {forkHash : String} {l : List String} :
    rollbackLoop index forkHash l = .ok () ↔ (∀ h ∈ l, index.Rooted h) ∧
      Leads index.ParentIs (l.head?.getD forkHash) l forkHash := by
  induction l with
  | nil =>
      simp only [rollbackLoop, List.not_mem_nil, false_implies, implies_true, List.head?_nil,
        Option.getD_none, true_and, true_iff]
      exact .here forkHash
  | cons h rest ih =>
      rw [rollbackLoop, then_ok_iff, checkListed_ok_iff, ih, List.forall_mem_cons,
        List.head?_cons, Option.getD_some, leads_cons_iff]
      constructor
      · intro hc
        rcases hc with ⟨⟨hroot, hparent⟩, hrest, hlead⟩
        exact ⟨⟨hroot, hrest⟩, rfl, _, hparent, hlead⟩
      · intro hc
        rcases hc with ⟨⟨hroot, hrest⟩, _, b, hparent, hlead⟩
        -- The next entry, or the fork if there is none, is where the rest starts.
        have hb : rest.head?.getD forkHash = b := by
          cases hlead with
          | here => rfl
          | step => rfl
        rw [hb]
        exact ⟨⟨hroot, hparent⟩, hrest, hlead⟩

theorem applyLoop_ok_iff {index : BlockIndex} {wantParent : String} {l : List String} :
    applyLoop index wantParent l = .ok () ↔ (∀ h ∈ l, index.Rooted h) ∧
      Leads index.ParentIs (l.getLast?.getD wantParent) l.reverse wantParent := by
  induction l generalizing wantParent with
  | nil =>
      simp only [applyLoop, List.not_mem_nil, false_implies, implies_true, List.getLast?_nil,
        Option.getD_none, List.reverse_nil, true_and, true_iff]
      exact .here wantParent
  | cons h rest ih =>
      have hlast : (h :: rest).getLast?.getD wantParent = rest.getLast?.getD h := by
        rw [List.getLast?_cons, Option.getD_some]
      rw [applyLoop, then_ok_iff, checkListed_ok_iff, ih, List.forall_mem_cons, hlast,
        List.reverse_cons, leads_concat_iff]
      constructor
      · intro hc
        rcases hc with ⟨⟨hroot, hparent⟩, hrest, hlead⟩
        exact ⟨⟨hroot, hrest⟩, hlead, hparent⟩
      · intro hc
        rcases hc with ⟨⟨hroot, hrest⟩, hlead, hparent⟩
        exact ⟨⟨hroot, hparent⟩, hrest, hlead⟩

namespace ReorgPlan

/-- The tip that a plan rolls back from. -/
def oldTip (p : ReorgPlan) : String :=
  p.rollbackOrdered.head?.getD p.forkHash

/-- The tip that a plan applies up to. -/
def newTip (p : ReorgPlan) : String :=
  p.applyOrdered.getLast?.getD p.forkHash

/-- Every block of the plan has sound ancestry, none is named twice, and each
    listed block's parent is its neighbour. -/
structure Chained (p : ReorgPlan) (index : BlockIndex) : Prop where
  rooted : ∀ h ∈ p.forkHash :: (p.rollbackOrdered ++ p.applyOrdered),
    index.validateBlockAncestry h = .ok ()
  nodup : (p.forkHash :: (p.rollbackOrdered ++ p.applyOrdered)).Nodup
  rollback : Leads index.ParentIs p.oldTip p.rollbackOrdered p.forkHash
  apply : Leads index.ParentIs p.newTip p.applyOrdered.reverse p.forkHash

/-- The check passes exactly on chained plans. -/
theorem validateAgainstIndex_ok_iff {p : ReorgPlan} {index : BlockIndex} :
    p.validateAgainstIndex index = .ok () ↔ p.Chained index := by
  simp only [validateAgainstIndex, then_ok_iff, mapError_ok_iff, ensureUniqueHashes_ok_iff,
    ensureNoDuplicateAcrossSegments_ok_iff, ensureForkOutside_ok_iff, rollbackLoop_ok_iff,
    applyLoop_ok_iff, ← BlockIndex.validateBlockAncestry_ok_iff]
  constructor
  · intro h
    rcases h with ⟨hfork, hroll, happ, hdisj, hforkRoll, hforkApp, ⟨hrootRoll, hleadRoll⟩,
      hrootApp, hleadApp⟩
    refine ⟨?_, ?_, hleadRoll, hleadApp⟩
    · intro h hh
      rw [List.mem_cons, List.mem_append] at hh
      rcases hh with rfl | hin | hin
      · exact hfork
      · exact hrootRoll h hin
      · exact hrootApp h hin
    · refine List.nodup_cons.mpr ⟨?_, List.nodup_append.mpr ⟨hroll, happ, ?_⟩⟩
      · intro hin
        exact (List.mem_append.mp hin).elim hforkRoll hforkApp
      · intro h hh k hk heq
        exact hdisj h hh (heq ▸ hk)
  · intro h
    rcases h with ⟨hrooted, hnodup, hleadRoll, hleadApp⟩
    rcases List.nodup_cons.mp hnodup with ⟨hfork, hlists⟩
    rcases List.nodup_append.mp hlists with ⟨hroll, happ, hdisj⟩
    refine ⟨hrooted _ List.mem_cons_self, hroll, happ, fun h hh hk => hdisj h hh h hk rfl,
      fun hin => hfork (List.mem_append_left _ hin), fun hin => hfork (List.mem_append_right _ hin),
      ⟨fun h hh => hrooted h ?_, hleadRoll⟩, fun h hh => hrooted h ?_, hleadApp⟩
    · exact List.mem_cons_of_mem _ (List.mem_append_left _ hh)
    · exact List.mem_cons_of_mem _ (List.mem_append_right _ hh)

/-- The plans that are generated: two walks to one block with sound ancestry,
    with nothing in common above it. -/
theorem tryFromTips_ok_iff {p : ReorgPlan} {index : BlockIndex} {oldTip newTip : String} :
    tryFromTips index oldTip newTip = .ok p ↔
      Leads index.Link oldTip p.rollbackOrdered p.forkHash ∧
      Leads index.Link newTip p.applyOrdered.reverse p.forkHash ∧
      (∀ h ∈ p.applyOrdered, h ∉ p.rollbackOrdered) ∧
      ∃ l r, Leads index.Link p.forkHash l r ∧ index.Root r := by
  have hslices : tryFromTips index oldTip newTip = .ok p ↔
      index.forkSlicesBetweenTips oldTip newTip =
        .ok ⟨p.forkHash, p.rollbackOrdered, p.applyOrdered.reverse⟩ := by
    rw [tryFromTips, bind_ok_iff]
    constructor
    · intro h
      rcases h with ⟨slices, hs, hp⟩
      rw [← Except.ok.inj hp, hs, fromForkSlices, List.reverse_reverse]
    · intro h
      refine ⟨_, h, ?_⟩
      rw [fromForkSlices, List.reverse_reverse]
      rfl
  rw [hslices, BlockIndex.forkSlicesBetweenTips_ok_iff]
  simp only [List.mem_reverse]

end ReorgPlan

end Trilogicon
