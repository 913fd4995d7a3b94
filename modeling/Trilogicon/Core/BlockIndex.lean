import Mathlib.Data.Finmap
import Trilogicon.Lib.Descent
import Trilogicon.Lib.Results
import Trilogicon.Lib.Words

/-!
# The Block Index

`v3/block_index.rs`: what is known of blocks by hash, and the walks over it.

The index is any map from hashes to parents and heights. Nothing says that its
links are consistent, so every walk checks them: a link is followed only if the
parent is indexed, is one lower, and has a hash that is not empty. The three
loops of the source are three instances of `walk`, with their rounds written as
the bodies of the loops.

The deprecated `ancestors_to_height_zero` checks nothing and may run for ever. It
is modelled with a number of rounds.

## Main definitions

* `BlockIndex`: Parents and heights by hash.
* `BlockPathError`: What a walk reports.
* `BlockIndex.validatedParentHash`: Check a link and follow it.
* `BlockIndex.pathFromTipTowardGenesis`: All ancestors of a block.
* `BlockIndex.forkSlicesBetweenTips`: The two branches above a fork.
* `BlockIndex.validateBlockAncestry`: Check every link below a block.
* `BlockIndex.ancestorsToHeightZero`: The walk without checks.
* `BlockIndex.Link`, `BlockIndex.Root`: What the walks follow, and where they end.

## Theorems

* `validatedParentHash_ok_iff`: The links that pass the check.
* `pathFromTipTowardGenesis_ok_iff`: The paths that are returned.
* `forkSlicesBetweenTips_ok_iff`: The branches that are returned.
* `validateBlockAncestry_ok_iff`: The blocks with sound ancestry.
-/

namespace Trilogicon

/-- `block_index::BlockIndexEntry`. -/
structure BlockIndexEntry where
  parentHash : String
  height : UInt64
deriving DecidableEq, Repr

/-- `block_index::BlockPathError`. -/
inductive BlockPathError where
  | unknownBlock (block : String)
  | missingParentLink (block : String)
  | cycle (block : String)
  | noCommonAncestor
  | malformedAncestry (block detail : String)
deriving DecidableEq, Repr

/-- `block_index::ForkSlices`. The suffixes start at the tips. -/
structure ForkSlices where
  forkHash : String
  oldSuffix : List String
  newSuffix : List String
deriving DecidableEq, Repr

/-- `block_index::BlockIndex`. -/
structure BlockIndex where
  byHash : Finmap (fun _ : String => BlockIndexEntry)

namespace BlockIndex

/-- `BlockIndex::get`. -/
def get (index : BlockIndex) (blockHash : String) : Option BlockIndexEntry :=
  index.byHash.lookup blockHash

/-- `BlockIndex::len`. -/
def len (index : BlockIndex) : Nat :=
  index.byHash.keys.card

/-- `BlockIndex::validated_parent_hash`. -/
def validatedParentHash (index : BlockIndex) (block : String) (e : BlockIndexEntry) :
    Except BlockPathError String :=
  if e.parentHash = block then .error (.cycle block)
  else if e.parentHash = "" then .error (.missingParentLink block)
  else
    match index.get e.parentHash with
    | none => .error (.missingParentLink block)
    | some pe =>
        match checkedAdd pe.height 1 with
        | none => .error (.malformedAncestry block "parent.height + 1 overflows u64")
        | some expectedChildHeight =>
            if expectedChildHeight ≠ e.height then
              .error (.malformedAncestry block "parent.height + 1 must equal child.height")
            else .ok e.parentHash

/-- The end of a round in all three loops: look the block up, and go to its
    parent unless it is at height zero. -/
def leave (index : BlockIndex) (cur : String) (atRoot : Round String BlockPathError) :
    Round String BlockPathError :=
  match index.get cur with
  | none => .fail (.unknownBlock cur)
  | some e =>
      if e.height = 0 then atRoot
      else
        match index.validatedParentHash cur e with
        | .error err => .fail err
        | .ok p => .go p

/-- A round of the loop of `path_from_tip_toward_genesis`. -/
def pathRound (index : BlockIndex) (cur : String) (visited : Finset String) :
    Round String BlockPathError :=
  if cur ∈ visited then .fail (.cycle cur)
  else index.leave cur .stop

/-- `BlockIndex::path_from_tip_toward_genesis`. The last round pushes the root. -/
def pathFromTipTowardGenesis (index : BlockIndex) (tip : String) :
    Except BlockPathError (List String) :=
  match walk index.pathRound (fun cur => .error (.cycle cur)) (index.len + 2) tip ∅ with
  | .error e => .error e
  | .ok (chain, root) => .ok (chain ++ [root])

/-- A round of the loop over the new branch in `fork_slices_between_tips`. -/
def newRound (index : BlockIndex) (oldSet : List String) (cur : String)
    (visited : Finset String) : Round String BlockPathError :=
  if cur ∈ visited then .fail (.cycle cur)
  else if cur ∈ oldSet then .stop
  else index.leave cur (.fail .noCommonAncestor)

/-- A round of the loop over the old branch in `fork_slices_between_tips`. -/
def oldRound (index : BlockIndex) (forkHash : String) (cur : String)
    (visited : Finset String) : Round String BlockPathError :=
  if cur = forkHash then .stop
  else if cur ∈ visited then .fail (.cycle cur)
  else index.leave cur (.fail .noCommonAncestor)

/-- `BlockIndex::fork_slices_between_tips`. -/
def forkSlicesBetweenTips (index : BlockIndex) (oldTip newTip : String) :
    Except BlockPathError ForkSlices :=
  match index.pathFromTipTowardGenesis oldTip with
  | .error e => .error e
  | .ok pathOld =>
      match walk (index.newRound pathOld) (fun cur => .error (.cycle cur)) (index.len + 2)
          newTip ∅ with
      | .error e => .error e
      | .ok (newSuffix, forkHash) =>
          match walk (index.oldRound forkHash)
              (fun cur => if cur ≠ forkHash then .error .noCommonAncestor else .ok cur)
              (index.len + 2) oldTip ∅ with
          | .error e => .error e
          | .ok (oldSuffix, _) => .ok ⟨forkHash, oldSuffix, newSuffix⟩

/-- `BlockIndex::validate_block_ancestry`. -/
def validateBlockAncestry (index : BlockIndex) (block : String) : Except BlockPathError Unit :=
  match index.pathFromTipTowardGenesis block with
  | .error e => .error e
  | .ok path =>
      match path.getLast? with
      | none => .error (.unknownBlock block)
      | some genesisHash =>
          match index.get genesisHash with
          | none => .error (.unknownBlock genesisHash)
          | some ge =>
              if ge.height ≠ 0 then
                .error (.malformedAncestry genesisHash "path ended without reaching height-0 root")
              else if ge.parentHash ≠ "" then
                .error (.malformedAncestry genesisHash
                  "height-0 block must use empty parent_hash (genesis/root)")
              else .ok ()

/-- `BlockIndex::ancestors_to_height_zero`, for a number of rounds; `none` when it
    is still running. -/
def ancestorsToHeightZero (index : BlockIndex) : Nat → String → Option (List String)
  | 0, _ => none
  | rounds + 1, cur =>
      match index.get cur with
      | none => some [cur]
      | some e =>
          if e.height = 0 then some [cur]
          else (index.ancestorsToHeightZero rounds e.parentHash).map fun out => cur :: out

/-! ### Links -/

/-- A walk goes from a block to its parent. -/
def Link (index : BlockIndex) (block parent : String) : Prop :=
  ∃ e pe, index.get block = some e ∧ index.get parent = some pe ∧ e.parentHash = parent ∧
    parent ≠ "" ∧ pe.height.toNat + 1 = e.height.toNat

/-- A walk ends at a block of height zero. -/
def Root (index : BlockIndex) (block : String) : Prop :=
  ∃ e, index.get block = some e ∧ e.height = 0

/-- The height of a block, for comparing. -/
def heightOf (index : BlockIndex) (block : String) : Nat :=
  (index.get block).elim 0 fun e => e.height.toNat

theorem link_lowers (index : BlockIndex) : Lowers index.Link index.heightOf := by
  intro block parent h
  rcases h with ⟨e, pe, he, hpe, _, _, hheight⟩
  simp only [heightOf, he, hpe, Option.elim_some]
  omega

theorem Link.unique {index : BlockIndex} {block p q : String} (hp : index.Link block p)
    (hq : index.Link block q) : p = q := by
  rcases hp with ⟨e, _, he, _, hp, _⟩
  rcases hq with ⟨e', _, he', _, hq, _⟩
  rw [he, Option.some.injEq] at he'
  rw [← hp, ← hq, he']

theorem Link.mem_keys {index : BlockIndex} {block parent : String}
    (h : index.Link block parent) : block ∈ index.byHash.keys := by
  rcases h with ⟨e, _, he, _⟩
  exact Finmap.mem_keys.mpr (Finmap.mem_of_lookup_eq_some he)

theorem Root.not_link {index : BlockIndex} {block : String} (h : index.Root block)
    (parent : String) : ¬ index.Link block parent := by
  intro hlink
  rcases h with ⟨e, he, hzero⟩
  rcases hlink with ⟨e', pe, he', _, _, _, hheight⟩
  rw [he, Option.some.injEq] at he'
  rw [← he', hzero] at hheight
  exact absurd hheight (Nat.succ_ne_zero _)

/-- The links that pass the check. A block above height zero is no parent of
    itself, and its height leaves room for no overflow. -/
theorem validatedParentHash_ok_iff {index : BlockIndex} {block p : String} {e : BlockIndexEntry}
    (he : index.get block = some e) :
    index.validatedParentHash block e = .ok p ↔ index.Link block p := by
  rw [validatedParentHash]
  constructor
  · intro h
    rw [ite_error_ok_iff, ite_error_ok_iff] at h
    rcases h with ⟨_, hne, h⟩
    cases hpe : index.get e.parentHash with
    | none => simp only [hpe, reduceCtorEq] at h
    | some pe =>
        cases hadd : checkedAdd pe.height 1 with
        | none => simp only [hpe, hadd, reduceCtorEq] at h
        | some child =>
            simp only [hpe, hadd] at h
            rw [ite_error_ok_iff, not_not, Except.ok.injEq] at h
            rcases h with ⟨hchild, hp⟩
            rw [← hp]
            refine ⟨e, pe, he, hpe, rfl, hne, ?_⟩
            rw [← hchild]
            exact checkedAdd_eq_some.mp hadd
  · intro h
    rcases h with ⟨e', pe, he', hpe, hparent, hne, hheight⟩
    rw [he, Option.some.injEq] at he'
    subst he'
    subst hparent
    have hself : e.parentHash ≠ block := by
      intro hc
      rw [hc, he, Option.some.injEq] at hpe
      rw [hpe] at hheight
      omega
    have hadd : checkedAdd pe.height 1 = some e.height := checkedAdd_eq_some.mpr hheight
    rw [if_neg hself, if_neg hne]
    simp only [hpe, hadd, ne_eq, not_true_eq_false, if_false]

theorem leave_eq_go_iff {index : BlockIndex} {cur next : String}
    {atRoot : Round String BlockPathError} (hroot : atRoot ≠ .go next) :
    index.leave cur atRoot = .go next ↔ index.Link cur next := by
  rw [leave]
  cases he : index.get cur with
  | none =>
      simp only [reduceCtorEq, false_iff]
      intro h
      rcases h with ⟨e, _, he', _⟩
      rw [he] at he'
      exact absurd he' (by simp only [reduceCtorEq, not_false_eq_true])
  | some e =>
      simp only
      by_cases hzero : e.height = 0
      · rw [if_pos hzero]
        exact ⟨fun hc => absurd hc hroot, fun hc => absurd hc (Root.not_link ⟨e, he, hzero⟩ next)⟩
      · rw [if_neg hzero, ← validatedParentHash_ok_iff he]
        cases index.validatedParentHash cur e with
        | error err => simp only [reduceCtorEq]
        | ok p => simp only [Round.go.injEq, Except.ok.injEq]

theorem leave_eq_stop_iff {index : BlockIndex} {cur : String}
    {atRoot : Round String BlockPathError} :
    index.leave cur atRoot = .stop ↔ index.Root cur ∧ atRoot = .stop := by
  rw [leave]
  cases he : index.get cur with
  | none => simp only [Root, he, reduceCtorEq, false_and, exists_false]
  | some e =>
      simp only [Root, he, Option.some.injEq, exists_eq_left']
      by_cases hzero : e.height = 0
      · simp only [hzero, if_true, true_and]
      · rw [if_neg hzero]
        cases index.validatedParentHash cur e with
        | error err => simp only [reduceCtorEq, hzero, false_and]
        | ok p => simp only [reduceCtorEq, hzero, false_and]

theorem pathRound_guides (index : BlockIndex) :
    Guides index.pathRound index.Link index.Root where
  stop_iff := by
    intro cur visited hcur
    rw [pathRound, if_neg hcur, leave_eq_stop_iff]
    exact ⟨And.left, fun h => ⟨h, rfl⟩⟩
  go_iff := by
    intro cur visited next hcur
    rw [pathRound, if_neg hcur,
      leave_eq_go_iff (by simp only [ne_eq, reduceCtorEq, not_false_eq_true])]
    exact ⟨fun h => ⟨fun hroot => hroot.not_link next h, h⟩, And.right⟩

/-- The two loops of `fork_slices_between_tips` differ in where they stop. -/
theorem fork_guides {index : BlockIndex}
    {round : String → Finset String → Round String BlockPathError}
    {Stop : String → Prop} [DecidablePred Stop]
    (hround : ∀ cur visited, cur ∉ visited → round cur visited =
      if Stop cur then .stop else index.leave cur (.fail .noCommonAncestor)) :
    Guides round index.Link Stop where
  stop_iff := by
    intro cur visited hcur
    rw [hround cur visited hcur]
    by_cases hstop : Stop cur
    · rw [if_pos hstop]
      exact ⟨fun _ => hstop, fun _ => rfl⟩
    · rw [if_neg hstop, leave_eq_stop_iff]
      simp only [reduceCtorEq, and_false, hstop]
  go_iff := by
    intro cur visited next hcur
    rw [hround cur visited hcur]
    by_cases hstop : Stop cur
    · simp only [hstop, if_true, reduceCtorEq, not_true_eq_false, false_and]
    · rw [if_neg hstop, leave_eq_go_iff (by simp only [ne_eq, reduceCtorEq, not_false_eq_true])]
      exact ⟨fun h => ⟨hstop, h⟩, And.right⟩

theorem newRound_guides (index : BlockIndex) (oldSet : List String) :
    Guides (index.newRound oldSet) index.Link (· ∈ oldSet) :=
  fork_guides fun cur visited hcur => by rw [newRound, if_neg hcur]

theorem oldRound_guides (index : BlockIndex) (forkHash : String) :
    Guides (index.oldRound forkHash) index.Link (· = forkHash) :=
  fork_guides fun cur visited hcur => by rw [oldRound, if_neg hcur]

/-! ### What the walks return -/

/-- The loops have more rounds than there are blocks. -/
theorem ahead (index : BlockIndex) (tip : String) :
    Ahead index.heightOf index.byHash.keys (index.len + 2) tip ∅ := by
  refine .start ?_
  change index.len < index.len + 2
  omega

theorem walk_index_iff {index : BlockIndex}
    {round : String → Finset String → Round String BlockPathError} {Stop : String → Prop}
    (hg : Guides round index.Link Stop) {exhausted : String → Except BlockPathError String}
    {tip r : String} {l : List String} :
    walk round exhausted (index.len + 2) tip ∅ = .ok (l, r) ↔
      Leads index.Link tip l r ∧ Stop r ∧ ∀ x ∈ l, ¬ Stop x :=
  walk_ok_iff index.link_lowers (fun _ _ => Link.mem_keys) hg (index.ahead tip)

/-- The path is all of the walk, down to a block of height zero. -/
theorem pathFromTipTowardGenesis_ok_iff {index : BlockIndex} {tip : String}
    {path : List String} :
    index.pathFromTipTowardGenesis tip = .ok path ↔
      ∃ l r, path = l ++ [r] ∧ Leads index.Link tip l r ∧ index.Root r := by
  have hwalk : ∀ l r, walk index.pathRound (fun cur => .error (.cycle cur)) (index.len + 2) tip ∅ =
      .ok (l, r) ↔ Leads index.Link tip l r ∧ index.Root r := by
    intro l r
    rw [walk_index_iff index.pathRound_guides]
    constructor
    · intro h
      exact ⟨h.1, h.2.1⟩
    · intro h
      refine ⟨h.1, h.2, fun x hx hroot => ?_⟩
      rcases h.1.exists_step hx with ⟨p, hp⟩
      exact hroot.not_link p hp
  rw [pathFromTipTowardGenesis]
  constructor
  · intro h
    cases hw : walk index.pathRound (fun cur => .error (.cycle cur)) (index.len + 2) tip ∅ with
    | error e =>
        rw [hw] at h
        exact absurd h (by simp only [reduceCtorEq, not_false_eq_true])
    | ok p =>
        rcases p with ⟨l, r⟩
        simp only [hw, Except.ok.injEq] at h
        exact ⟨l, r, h.symm, (hwalk l r).mp hw⟩
  · intro h
    rcases h with ⟨l, r, rfl, hl⟩
    simp only [(hwalk l r).mpr hl]

/-- The ancestry of a block is sound down to a root without a parent. -/
def Rooted (index : BlockIndex) (block : String) : Prop :=
  ∃ l r e, Leads index.Link block l r ∧ index.get r = some e ∧ e.height = 0 ∧ e.parentHash = ""

theorem validateBlockAncestry_ok_iff {index : BlockIndex} {block : String} :
    index.validateBlockAncestry block = .ok () ↔ index.Rooted block := by
  rw [validateBlockAncestry]
  constructor
  · intro h
    cases hp : index.pathFromTipTowardGenesis block with
    | error e =>
        rw [hp] at h
        exact absurd h (by simp only [reduceCtorEq, not_false_eq_true])
    | ok path =>
        rcases pathFromTipTowardGenesis_ok_iff.mp hp with ⟨l, r, rfl, hl, e, he, hzero⟩
        simp only [hp, List.getLast?_append, List.getLast?_singleton, Option.some_or, he,
          ite_error_ok_iff, not_not] at h
        exact ⟨l, r, e, hl, he, hzero, h.2.1⟩
  · intro h
    rcases h with ⟨l, r, e, hl, he, hzero, hparent⟩
    have hp := pathFromTipTowardGenesis_ok_iff.mpr ⟨l, r, rfl, hl, e, he, hzero⟩
    simp only [hp, List.getLast?_append, List.getLast?_singleton, Option.some_or, he, hzero,
      hparent, ne_eq, not_true_eq_false, if_false]

/-- The three loops of `fork_slices_between_tips`. -/
theorem forkSlicesBetweenTips_loops_iff {index : BlockIndex} {oldTip newTip fork : String}
    {old new : List String} :
    index.forkSlicesBetweenTips oldTip newTip = .ok ⟨fork, old, new⟩ ↔
      ∃ path last, index.pathFromTipTowardGenesis oldTip = .ok path ∧
        walk (index.newRound path) (fun cur => .error (.cycle cur)) (index.len + 2) newTip ∅ =
          .ok (new, fork) ∧
        walk (index.oldRound fork)
          (fun cur => if cur ≠ fork then .error .noCommonAncestor else .ok cur)
          (index.len + 2) oldTip ∅ = .ok (old, last) := by
  rw [forkSlicesBetweenTips]
  constructor
  · intro h
    rcases hp : index.pathFromTipTowardGenesis oldTip with e | path
    · simp only [hp, reduceCtorEq] at h
    rcases hn : walk (index.newRound path) (fun cur => .error (.cycle cur)) (index.len + 2)
        newTip ∅ with e | ⟨new', fork'⟩
    · simp only [hp, hn, reduceCtorEq] at h
    rcases ho : walk (index.oldRound fork')
        (fun cur => if cur ≠ fork' then .error .noCommonAncestor else .ok cur)
        (index.len + 2) oldTip ∅ with e | ⟨old', last⟩
    · simp only [hp, hn, ho, reduceCtorEq] at h
    simp only [hp, hn, ho, Except.ok.injEq, ForkSlices.mk.injEq] at h
    rcases h with ⟨rfl, rfl, rfl⟩
    exact ⟨path, last, rfl, hn, ho⟩
  · intro h
    rcases h with ⟨path, last, hp, hn, ho⟩
    simp only [hp, hn, ho]

/-- The branches that are returned: two walks to one block with sound ancestry,
    with nothing in common above it. -/
theorem forkSlicesBetweenTips_ok_iff {index : BlockIndex} {oldTip newTip fork : String}
    {old new : List String} :
    index.forkSlicesBetweenTips oldTip newTip = .ok ⟨fork, old, new⟩ ↔
      Leads index.Link oldTip old fork ∧ Leads index.Link newTip new fork ∧
      (∀ x ∈ new, x ∉ old) ∧ ∃ l r, Leads index.Link fork l r ∧ index.Root r := by
  simp only [forkSlicesBetweenTips_loops_iff, pathFromTipTowardGenesis_ok_iff,
    walk_index_iff (index.newRound_guides _), walk_index_iff (index.oldRound_guides _)]
  constructor
  · intro h
    rcases h with ⟨_, _, ⟨l, r, rfl, hl, hroot⟩, ⟨hnew, _, hout⟩, hold, rfl, _⟩
    rcases hold.extends (R := index.Link) (fun _ _ _ => Link.unique) hroot.not_link hl with
      ⟨l₂, rfl, hl₂⟩
    refine ⟨hold, hnew, ?_, l₂, r, hl₂, hroot⟩
    intro x hx hc
    exact hout x hx (List.mem_append_left _ (List.mem_append_left _ hc))
  · intro h
    rcases h with ⟨hold, hnew, hdisj, l, r, hl, hroot⟩
    refine ⟨_, fork, ⟨old ++ l, r, rfl, hold.append hl, hroot⟩, ⟨hnew, ?_, ?_⟩, hold, rfl, ?_⟩
    · rw [List.append_assoc]
      refine List.mem_append_right _ ?_
      cases hl with
      | here => exact List.mem_singleton_self _
      | step => exact List.mem_cons_self
    · -- The blocks of the new branch are higher than the fork, its ancestors are not.
      intro x hx hc
      have habove := hnew.rank_lt index.link_lowers hx
      rw [List.append_assoc] at hc
      rcases List.mem_append.mp hc with hin | hlow
      · exact hdisj x hx hin
      rcases List.mem_append.mp hlow with hin | hlast
      · rcases hl.split_at hin with ⟨_, _, _, h₁, _⟩
        have hbelow := h₁.rank_le index.link_lowers
        omega
      · have hbelow := hl.rank_le index.link_lowers
        rw [← List.mem_singleton.mp hlast] at hbelow
        omega
    · intro x hx hc
      have habove := hold.rank_lt index.link_lowers hx
      rw [hc] at habove
      omega

end BlockIndex

end Trilogicon
