import Trilogicon.Core.Blockchain
import Trilogicon.Core.ReorgPlan

/-!
# The Replay Sandbox

`v3/replay_sandbox.rs`: a plan is tried out on copies of a state, with blocks
that the caller supplies.

The sandbox has its own validator. Where the live one compares a block with the
tip, the sandbox compares it with its row of the index, and looks the parent up
in two maps of the caller's: headers first, then bodies. A header counts as the
parent if it declares the right hash; nothing recomputes that hash.

The bodies of all planned blocks are looked up before anything is replayed, so
the loops of the model run over the bodies themselves.

## Main definitions

* `ReplaySandboxMaterial`: What the caller supplies.
* `sandboxStateFingerprint`: The digest of a table of accounts.
* `ReplaySandboxReplayError`, `IndexLinkMismatch`: What a replay reports.
* `resolveParentBlock`: The parent that is used for the timestamp rule.
* `applyBlockToState`: The validator of the sandbox.
* `runReplayOnClones`: Replay the old branch, then the new one.
* `ReplaySandbox.runReport`: The structural check, the policy, the replay.

## Theorems

* `applyBlockToState_ok_iff`: What the validator of the sandbox asks for.
* `runReplayOnClones_ok_iff`: When a replay succeeds, and with what.
* `runReport_completed_iff`: When a report has a successful replay.
-/

namespace Trilogicon

/-- `replay_sandbox::ReplaySandboxMaterial`. -/
structure ReplaySandboxMaterial where
  stateAtFork : State
  blocksByHash : Finmap (fun _ : String => Block)
  expectedStateAtOldTip : Option State
  consensus : ConsensusParams
  parentBlocksByHash : Finmap (fun _ : String => Block)

/-- The bytes of one account in `sandbox_state_fingerprint_preimage`. The
    length is cast to 32 bits. -/
def fingerprintAccount (a : Address × Account) : Bytes :=
  beBytes 4 (utf8 a.1.value).length ++ utf8 a.1.value ++ beBytes 8 a.2.balance.toNat ++
    beBytes 8 a.2.nonce.toNat

/-- `sandbox_state_fingerprint_preimage`. -/
def sandboxStateFingerprintPreimage (s : State) : Bytes :=
  beBytes 8 s.accountsSorted.length ++ s.accountsSorted.flatMap fingerprintAccount

/-- `replay_sandbox::IndexLinkMismatch`. -/
inductive IndexLinkMismatch where
  | blockHashKey (mapKey blockDeclaredHash : String)
  | missingIndexEntry (blockHash : String)
  | height (blockHash : String) (indexHeight blockHeight : UInt64)
  | parentHash (blockHash indexParentHash blockPreviousHash : String)
  | parentBlockHash (parentKey parentDeclaredHash : String)
deriving DecidableEq, Repr

/-- `replay_sandbox::ReplaySandboxReplayError`. -/
inductive ReplaySandboxReplayError where
  | missingExpectedOldTipState
  | missingBlockBody (blockHash : String)
  | indexLinkMismatch (e : IndexLinkMismatch)
  | oldTipStateMismatch (expectedFingerprint replayedFingerprint : String)
  | basicValidation (blockHash : String) (error : ProtocolError)
  | stateTransition (blockHash : String) (error : ProtocolError)
  | supplyAudit (error : ProtocolError)
  | missingParentBlock (parentHash : String)
  | timestampPolicy (blockHash : String) (error : ProtocolError)
deriving DecidableEq, Repr

/-- `replay_sandbox::ReplaySandboxReplayOk`. -/
structure ReplaySandboxReplayOk where
  rollbackBlocksVerified : Nat
  applyBlocksSimulated : Nat
  finalStateFingerprint : String
  finalSupplyTotal : UInt64
deriving DecidableEq, Repr

/-- `replay_sandbox::ReplaySandboxReplayPhase`. -/
inductive ReplaySandboxReplayPhase where
  | skippedDueToStructuralInvalid
  | skippedDueToPolicy
  | completed (result : Except ReplaySandboxReplayError ReplaySandboxReplayOk)

/-- `replay_sandbox::ReplaySandboxReport`. -/
structure ReplaySandboxReport where
  structural : Except ReorgPlanValidationError Unit
  preflight : ReorgPreflightReport
  replay : ReplaySandboxReplayPhase

/-- `validate_block_against_index`. -/
def validateBlockAgainstIndex (block : Block) (index : BlockIndex) (expectedHash : String) :
    Except ReplaySandboxReplayError Unit :=
  if block.blockHash ≠ expectedHash then
    .error (.indexLinkMismatch (.blockHashKey expectedHash block.blockHash))
  else
    match index.get expectedHash with
    | none => .error (.indexLinkMismatch (.missingIndexEntry expectedHash))
    | some entry =>
        if block.height ≠ entry.height then
          .error (.indexLinkMismatch (.height expectedHash entry.height block.height))
        else if block.previousHash ≠ entry.parentHash then
          .error (.indexLinkMismatch
            (.parentHash expectedHash entry.parentHash block.previousHash))
        else .ok ()

/-- `resolve_parent_block`. -/
def resolveParentBlock (material : ReplaySandboxMaterial) (parentKey : String) :
    Except ReplaySandboxReplayError Block :=
  match (material.parentBlocksByHash.lookup parentKey).or
      (material.blocksByHash.lookup parentKey) with
  | none => .error (.missingParentBlock parentKey)
  | some parent =>
      if parent.blockHash ≠ parentKey then
        .error (.indexLinkMismatch (.parentBlockHash parentKey parent.blockHash))
      else .ok parent

/-- `validate_timestamp_vs_parent`. -/
def validateTimestampVsParent (material : ReplaySandboxMaterial) (child : Block)
    (childHash : String) : Except ReplaySandboxReplayError Unit :=
  if child.isGenesis then .ok ()
  else do
    let parent ← resolveParentBlock material child.previousHash
    (validateBlockTimestampsVsParent parent child material.consensus).mapError
      (.timestampPolicy childHash)

/-- Look up the bodies of planned blocks; the first that is missing is an
    error. -/
def plannedBodies (material : ReplaySandboxMaterial) :
    List String → Except ReplaySandboxReplayError (List Block)
  | [] => .ok []
  | h :: hs =>
      match material.blocksByHash.lookup h with
      | none => .error (.missingBlockBody h)
      | some b => do
          let bs ← plannedBodies material hs
          return b :: bs

section Replay

variable [Primitives]

/-- `sandbox_state_fingerprint`. -/
def sandboxStateFingerprint (s : State) : String :=
  Crypto.hashBytes (sandboxStateFingerprintPreimage s)

/-- `apply_block_to_state`. A state that a failed block has changed is not used
    again. -/
def applyBlockToState (material : ReplaySandboxMaterial) (index : BlockIndex) (state : State)
    (block : Block) (blockHash : String) : Except ReplaySandboxReplayError State := do
  validateBlockAgainstIndex block index blockHash
  validateTimestampVsParent material block blockHash
  block.basicValidate.mapError (.basicValidation blockHash)
  (state.applyAll block.transactions).mapError (.stateTransition blockHash)

/-- The loops over a branch, with the hash and the body of each block. -/
def replayBranch (material : ReplaySandboxMaterial) (index : BlockIndex) :
    State → List (String × Block) → Except ReplaySandboxReplayError State
  | state, [] => .ok state
  | state, (h, b) :: rest => do
      let state' ← applyBlockToState material index state b h
      replayBranch material index state' rest

/-- The part of `run_replay_on_clones` that verifies the old branch. That the
    expected state is given has been checked before. -/
def verifyOldBranch (plan : ReorgPlan) (index : BlockIndex) (material : ReplaySandboxMaterial)
    (bodies : List Block) : Except ReplaySandboxReplayError Unit :=
  match plan.rollbackOrdered, material.expectedStateAtOldTip with
  | [], _ => .ok ()
  | _ :: _, none => .error .missingExpectedOldTipState
  | _ :: _, some expected => do
      let walked ← replayBranch material index material.stateAtFork
        (plan.rollbackOrdered.zip bodies).reverse
      if sandboxStateFingerprint walked ≠ sandboxStateFingerprint expected then
        .error (.oldTipStateMismatch (sandboxStateFingerprint expected)
          (sandboxStateFingerprint walked))
      else .ok ()

/-- `run_replay_on_clones`. -/
def runReplayOnClones (plan : ReorgPlan) (index : BlockIndex)
    (material : ReplaySandboxMaterial) :
    Except ReplaySandboxReplayError ReplaySandboxReplayOk :=
  if plan.rollbackOrdered ≠ [] ∧ material.expectedStateAtOldTip = none then
    .error .missingExpectedOldTipState
  else do
    let oldBodies ← plannedBodies material plan.rollbackOrdered
    let newBodies ← plannedBodies material plan.applyOrdered
    verifyOldBranch plan index material oldBodies
    let sandbox ← replayBranch material index material.stateAtFork
      (plan.applyOrdered.zip newBodies)
    let total ← sandbox.totalBalanceSum.mapError .supplyAudit
    return { rollbackBlocksVerified := plan.rollbackOrdered.length
             applyBlocksSimulated := plan.applyOrdered.length
             finalStateFingerprint := sandboxStateFingerprint sandbox
             finalSupplyTotal := total }

/-- `ReplaySandbox::run_report`. -/
def ReplaySandbox.runReport (plan : ReorgPlan) (index : BlockIndex)
    (policy : ReorgPreflightPolicy) (material : ReplaySandboxMaterial) : ReplaySandboxReport :=
  let structural := plan.validateAgainstIndex index
  let preflight := ReorgPreflight.evaluate plan index policy
  let replay : ReplaySandboxReplayPhase :=
    match structural, preflight.verdict with
    | .error _, _ => .skippedDueToStructuralInvalid
    | .ok _, .rejected => .skippedDueToPolicy
    | .ok _, .noOp => .completed (runReplayOnClones plan index material)
    | .ok _, .acceptable => .completed (runReplayOnClones plan index material)
  { structural := structural, preflight := preflight, replay := replay }

/-! ### What the sandbox asks for -/

omit [Primitives]

/-- The bodies that are supplied for some hashes. -/
def ReplaySandboxMaterial.bodies (material : ReplaySandboxMaterial) (hs : List String) :
    List Block :=
  hs.filterMap fun h => material.blocksByHash.lookup h

theorem plannedBodies_ok_iff {material : ReplaySandboxMaterial} {hs : List String}
    {bs : List Block} :
    plannedBodies material hs = .ok bs ↔
      (∀ h ∈ hs, ∃ b, material.blocksByHash.lookup h = some b) ∧ bs = material.bodies hs := by
  induction hs generalizing bs with
  | nil =>
      simp only [plannedBodies, Except.ok.injEq, ReplaySandboxMaterial.bodies,
        List.filterMap_nil, List.not_mem_nil, false_implies, implies_true, true_and]
      exact eq_comm
  | cons h hs ih =>
      rw [plannedBodies, List.forall_mem_cons]
      cases hb : material.blocksByHash.lookup h with
      | none => simp only [reduceCtorEq, exists_false, false_and]
      | some b =>
          simp only [bind_ok_iff, ih, Option.some.injEq, exists_eq', true_and,
            ReplaySandboxMaterial.bodies, List.filterMap_cons, hb]
          constructor
          · intro h
            rcases h with ⟨bs', ⟨hall, rfl⟩, hbs⟩
            exact ⟨hall, (Except.ok.inj hbs).symm⟩
          · intro h
            rcases h with ⟨hall, rfl⟩
            exact ⟨_, ⟨hall, rfl⟩, rfl⟩

/-- A body is the block that the index has under a hash. -/
def BlockIndex.Describes (index : BlockIndex) (h : String) (b : Block) : Prop :=
  b.blockHash = h ∧ ∃ e, index.get h = some e ∧ b.height = e.height ∧
    b.previousHash = e.parentHash

theorem validateBlockAgainstIndex_ok_iff {b : Block} {index : BlockIndex} {h : String} :
    validateBlockAgainstIndex b index h = .ok () ↔ index.Describes h b := by
  rw [validateBlockAgainstIndex, ite_error_ok_iff, not_not, BlockIndex.Describes]
  refine and_congr_right fun _ => ?_
  cases index.get h with
  | none => simp only [reduceCtorEq, false_and, exists_false]
  | some e =>
      simp only [ite_error_ok_iff, not_not, and_true, Option.some.injEq, exists_eq_left']

theorem resolveParentBlock_ok_iff {material : ReplaySandboxMaterial} {k : String} {b : Block} :
    resolveParentBlock material k = .ok b ↔
      (material.parentBlocksByHash.lookup k).or (material.blocksByHash.lookup k) = some b ∧
        b.blockHash = k := by
  rw [resolveParentBlock]
  cases (material.parentBlocksByHash.lookup k).or (material.blocksByHash.lookup k) with
  | none => simp only [reduceCtorEq, false_and]
  | some p =>
      simp only [ite_error_ok_iff, not_not, Except.ok.injEq, Option.some.injEq]
      constructor
      · intro h
        exact ⟨h.2, h.2 ▸ h.1⟩
      · intro h
        exact ⟨h.1.symm ▸ h.2, h.1⟩

/-- What the sandbox asks of a block. -/
theorem applyBlockToState_ok_iff [Primitives] {material : ReplaySandboxMaterial}
    {index : BlockIndex} {s s' : State} {b : Block} {h : String} :
    applyBlockToState material index s b h = .ok s' ↔
      index.Describes h b ∧
      (b.height ≠ 0 → ∃ parent, resolveParentBlock material b.previousHash = .ok parent ∧
        validateBlockTimestampsVsParent parent b material.consensus = .ok ()) ∧
      b.basicValidate = .ok () ∧ s.applyAll b.transactions = .ok s' := by
  rw [applyBlockToState, then_ok_iff, then_ok_iff, then_ok_iff, validateBlockAgainstIndex_ok_iff,
    validateTimestampVsParent, Block.isGenesis]
  simp only [mapError_ok_iff, beq_iff_eq]
  by_cases hb : b.height = 0
  · simp only [hb, if_true, ne_eq, not_true_eq_false, false_implies]
  · simp only [hb, if_false, ne_eq, not_false_eq_true, forall_const, bind_ok_iff, mapError_ok_iff]

/-- When a report has a replay, and which. -/
theorem runReport_completed_iff [Primitives] {plan : ReorgPlan} {index : BlockIndex}
    {policy : ReorgPreflightPolicy} {material : ReplaySandboxMaterial}
    {x : Except ReplaySandboxReplayError ReplaySandboxReplayOk} :
    (ReplaySandbox.runReport plan index policy material).replay = .completed x ↔
      plan.validateAgainstIndex index = .ok () ∧
      (ReorgPreflight.evaluate plan index policy).verdict ≠ .rejected ∧
      runReplayOnClones plan index material = x := by
  simp only [ReplaySandbox.runReport]
  cases plan.validateAgainstIndex index with
  | error e => simp only [reduceCtorEq, false_and]
  | ok u =>
      cases (ReorgPreflight.evaluate plan index policy).verdict with
      | noOp => simp only [ReplaySandboxReplayPhase.completed.injEq, ne_eq, reduceCtorEq,
          not_false_eq_true, true_and]
      | acceptable => simp only [ReplaySandboxReplayPhase.completed.injEq, ne_eq, reduceCtorEq,
          not_false_eq_true, true_and]
      | rejected => simp only [reduceCtorEq, ne_eq, not_true_eq_false, false_and, and_false]

theorem verifyOldBranch_ok_iff [Primitives] {plan : ReorgPlan} {index : BlockIndex}
    {material : ReplaySandboxMaterial} {bs : List Block} :
    verifyOldBranch plan index material bs = .ok () ↔
      (plan.rollbackOrdered ≠ [] → ∃ expected walked,
        material.expectedStateAtOldTip = some expected ∧
        replayBranch material index material.stateAtFork (plan.rollbackOrdered.zip bs).reverse =
          .ok walked ∧
        sandboxStateFingerprint walked = sandboxStateFingerprint expected) := by
  rw [verifyOldBranch]
  cases plan.rollbackOrdered with
  | nil => simp only [ne_eq, not_true_eq_false, false_implies]
  | cons h hs =>
      cases material.expectedStateAtOldTip with
      | none => simp only [reduceCtorEq, ne_eq, not_false_eq_true, false_and, exists_false,
          forall_const]
      | some expected =>
          simp only [bind_ok_iff, ite_error_ok_iff, not_not, ne_eq, and_true, reduceCtorEq,
            not_false_eq_true, Option.some.injEq, exists_and_left, exists_eq_left', forall_const]

/-- When a replay succeeds, and with what. -/
theorem runReplayOnClones_ok_iff [Primitives] {plan : ReorgPlan} {index : BlockIndex}
    {material : ReplaySandboxMaterial} {r : ReplaySandboxReplayOk} :
    runReplayOnClones plan index material = .ok r ↔
      (∀ h ∈ plan.rollbackOrdered ++ plan.applyOrdered,
        ∃ b, material.blocksByHash.lookup h = some b) ∧
      (plan.rollbackOrdered ≠ [] → ∃ expected walked,
        material.expectedStateAtOldTip = some expected ∧
        replayBranch material index material.stateAtFork
          (plan.rollbackOrdered.zip (material.bodies plan.rollbackOrdered)).reverse = .ok walked ∧
        sandboxStateFingerprint walked = sandboxStateFingerprint expected) ∧
      ∃ s total, replayBranch material index material.stateAtFork
          (plan.applyOrdered.zip (material.bodies plan.applyOrdered)) = .ok s ∧
        s.totalBalanceSum = .ok total ∧
        r = ⟨plan.rollbackOrdered.length, plan.applyOrdered.length, sandboxStateFingerprint s,
          total⟩ := by
  rw [runReplayOnClones, ite_error_ok_iff]
  simp only [bind_ok_iff, plannedBodies_ok_iff, mapError_ok_iff, List.forall_mem_append]
  constructor
  · intro h
    rcases h with ⟨_, _, ⟨hold, rfl⟩, _, ⟨hnew, rfl⟩, ⟨⟩, hverify, s, hs, total, htotal, hr⟩
    exact ⟨⟨hold, hnew⟩, verifyOldBranch_ok_iff.mp hverify, s, total, hs, htotal,
      (Except.ok.inj hr).symm⟩
  · intro h
    rcases h with ⟨⟨hold, hnew⟩, hverify, s, total, hs, htotal, rfl⟩
    refine ⟨?_, _, ⟨hold, rfl⟩, _, ⟨hnew, rfl⟩, ⟨⟩, verifyOldBranch_ok_iff.mpr hverify, s, hs,
      total, htotal, rfl⟩
    intro hmissing
    rcases hverify hmissing.1 with ⟨expected, _, hsome, _⟩
    rw [hmissing.2] at hsome
    exact absurd hsome (by simp only [reduceCtorEq, not_false_eq_true])

end Replay

end Trilogicon
