import Trilogicon.Core.BlockIndex

/-!
# Well-Founded Ancestry

Which tips `path_from_tip_toward_genesis` has a path for, and how it fails for
the others.

A tip has a path when its ancestry is numbered: a sequence of indexed blocks,
each the parent of the one before, whose heights count down to zero. `Ancestry`
says that about the entries of the index alone. Neither the check of a link nor
the loop is mentioned in it.

The loop has two guards against running forever, the set of blocks it has seen
and the number of its rounds. Both report `Cycle`, and so does the check of a
link when a block is its own parent. To tell the three apart, `pathGuarded` is
the loop with the errors of its two guards left open: whatever they are, the
outcome is the same. A longer cycle is found out by its heights, which cannot
fall all the way around.

The deprecated `ancestors_to_height_zero` has no guard. It returns the same path
where there is one, but goes round for ever in an index with a cycle.

## Main definitions

* `BlockIndex.Ancestry`: A numbered sequence of ancestors.
* `BlockIndex.guardedRound`, `BlockIndex.pathGuarded`: The loop with any errors at
  its guards.
* `BlockIndex.Names`: What the walk without checks follows.

## Theorems

* `leads_ancestry`, `Ancestry.leads`: Numbered sequences are walks to a root.
* `pathGuarded_eq`: The guards never report.
* `path_cycle_iff`: When a cycle is reported.
* `path_accepts_ancestry`: All of it.
* `ancestors_eq_some_iff`, `ancestors_none_iff`: What the walk without checks returns.
* `unchecked_walk`: How it compares.
-/

namespace Trilogicon

namespace BlockIndex

/-- The blocks `h 0`, …, `h k` are the ancestry of a tip: each but the last names
    the next as its parent, and the heights count down from `k` to zero. -/
structure Ancestry (index : BlockIndex) (tip : String) (k : Nat) (h : Nat → String) : Prop where
  start : h 0 = tip
  parent : ∀ i < k, ∃ e, index.get (h i) = some e ∧ e.parentHash ≠ "" ∧
    e.parentHash = h (i + 1) ∧ e.height.toNat = k - i
  root : ∃ e, index.get (h k) = some e ∧ e.height = 0

/-- A round of the loop with another error where it comes back to a block. -/
def guardedRound (index : BlockIndex) (repeated : String → BlockPathError) (cur : String)
    (visited : Finset String) : Round String BlockPathError :=
  if cur ∈ visited then .fail (repeated cur)
  else index.leave cur .stop

/-- `BlockIndex::path_from_tip_toward_genesis` with other errors where it comes
    back to a block and where its rounds run out. -/
def pathGuarded (index : BlockIndex) (repeated exhausted : String → BlockPathError)
    (tip : String) : Except BlockPathError (List String) :=
  match walk (index.guardedRound repeated) (fun cur => .error (exhausted cur)) (index.len + 2)
      tip ∅ with
  | .error e => .error e
  | .ok (chain, root) => .ok (chain ++ [root])

/-- The source reports a cycle at both guards. -/
theorem pathGuarded_cycle (index : BlockIndex) (tip : String) :
    index.pathGuarded .cycle .cycle tip = index.pathFromTipTowardGenesis tip := rfl

/-- A sequence with a block in front. -/
def prepend (a : String) (h : Nat → String) : Nat → String
  | 0 => a
  | i + 1 => h i

theorem map_range_succ (k : Nat) (h : Nat → String) :
    (List.range (k + 1)).map h = h 0 :: (List.range k).map fun i => h (i + 1) := by
  rw [List.range_succ_eq_map, List.map_cons, List.map_map]
  rfl

section Sequences

variable {index : BlockIndex} {tip a b r : String} {k : Nat} {h : Nat → String}
  {l : List String}

/-- The length of an ancestry is the height of its tip. -/
theorem Ancestry.height (hanc : index.Ancestry tip k h) :
    ∃ e, index.get tip = some e ∧ e.height.toNat = k := by
  rw [← hanc.start]
  cases k with
  | zero =>
      rcases hanc.root with ⟨e, he, hzero⟩
      exact ⟨e, he, by rw [hzero]; rfl⟩
  | succ k =>
      rcases hanc.parent 0 (Nat.succ_pos k) with ⟨e, he, _, _, hheight⟩
      exact ⟨e, he, hheight⟩

/-- The parent of a tip has the rest of the ancestry. -/
theorem Ancestry.tail (hanc : index.Ancestry tip (k + 1) h) :
    index.Ancestry (h 1) k fun i => h (i + 1) where
  start := rfl
  parent := by
    intro i hi
    rcases hanc.parent (i + 1) (Nat.succ_lt_succ hi) with ⟨e, he, hne, hparent, hheight⟩
    exact ⟨e, he, hne, hparent, by omega⟩
  root := hanc.root

/-- The first step of an ancestry passes the check of a link. -/
theorem Ancestry.link (hanc : index.Ancestry tip (k + 1) h) : index.Link tip (h 1) := by
  rcases hanc.parent 0 (Nat.succ_pos k) with ⟨e, he, hne, hparent, hheight⟩
  rcases hanc.tail.height with ⟨pe, hpe, hbelow⟩
  rw [hanc.start] at he
  rw [hparent] at hne
  exact ⟨e, pe, he, hpe, hparent, hne, by omega⟩

/-- A link to a block with an ancestry gives one that is longer by one. -/
theorem Ancestry.cons (hab : index.Link a b) (hanc : index.Ancestry b k h) :
    index.Ancestry a (k + 1) (prepend a h) where
  start := rfl
  parent := by
    intro i hi
    -- The new first step is the link, and the others move up by one.
    cases i with
    | zero =>
        rcases hab with ⟨e, pe, he, hpe, hparent, hne, hheight⟩
        rcases hanc.height with ⟨pe', hpe', hk⟩
        rw [hpe, Option.some.injEq] at hpe'
        rw [← hpe'] at hk
        refine ⟨e, he, hparent ▸ hne, ?_, by omega⟩
        rw [hparent]
        exact hanc.start.symm
    | succ i =>
        rcases hanc.parent i (Nat.lt_of_succ_lt_succ hi) with ⟨e, he, hne, hparent, hheight⟩
        exact ⟨e, he, hne, hparent, by omega⟩
  root := hanc.root

/-- A walk to a root is an ancestry. -/
theorem leads_ancestry (hl : Leads index.Link tip l r) (hr : index.Root r) :
    ∃ k h, index.Ancestry tip k h ∧ l ++ [r] = (List.range (k + 1)).map h := by
  induction hl with
  | here r => exact ⟨0, fun _ => r, ⟨rfl, fun i hi => absurd hi (Nat.not_lt_zero i), hr⟩, rfl⟩
  | @step a b r l hab _ ih =>
      rcases ih hr with ⟨k, h, hanc, hpath⟩
      refine ⟨k + 1, prepend a h, .cons hab hanc, ?_⟩
      rw [map_range_succ, List.cons_append, hpath]
      rfl

/-- An ancestry is a walk to a root. -/
theorem Ancestry.leads (hanc : index.Ancestry tip k h) :
    ∃ l r, (List.range (k + 1)).map h = l ++ [r] ∧ Leads index.Link tip l r ∧ index.Root r := by
  induction k generalizing tip h with
  | zero =>
      refine ⟨[], tip, ?_, .here tip, hanc.start ▸ hanc.root⟩
      rw [← hanc.start]
      rfl
  | succ k ih =>
      rcases ih hanc.tail with ⟨l, r, hpath, hl, hr⟩
      refine ⟨tip :: l, r, ?_, .step hanc.link hl, hr⟩
      rw [map_range_succ, hpath, hanc.start]
      rfl

/-- The tips with a path are those with an ancestry, and the path is the
    ancestry. -/
theorem path_ok_iff_ancestry {path : List String} :
    index.pathFromTipTowardGenesis tip = .ok path ↔
      ∃ k h, index.Ancestry tip k h ∧ path = (List.range (k + 1)).map h := by
  rw [pathFromTipTowardGenesis_ok_iff]
  constructor
  · intro hpath
    rcases hpath with ⟨l, r, rfl, hl, hr⟩
    exact leads_ancestry hl hr
  · intro hpath
    rcases hpath with ⟨k, h, hanc, rfl⟩
    exact hanc.leads

/-- No block is its own ancestor. -/
theorem Ancestry.nodup (hanc : index.Ancestry tip k h) : ((List.range (k + 1)).map h).Nodup := by
  rcases hanc.leads with ⟨l, r, hpath, hl, _⟩
  rw [hpath]
  exact hl.nodup index.link_lowers

end Sequences

/-! ### How the loop fails -/

theorem leave_stop_eq_go_iff (index : BlockIndex) (cur next : String) :
    index.leave cur .stop = .go next ↔ index.Link cur next :=
  leave_eq_go_iff (by simp only [ne_eq, reduceCtorEq, not_false_eq_true])

theorem guardedRound_decides (index : BlockIndex) (repeated : String → BlockPathError) :
    DecidesBy (index.guardedRound repeated) fun cur => index.leave cur .stop :=
  fun _ _ hcur => if_neg hcur

/-- Whatever the guards of the loop would report, it is never reported. -/
theorem pathGuarded_eq (index : BlockIndex) (repeated exhausted : String → BlockPathError)
    (tip : String) :
    index.pathGuarded repeated exhausted tip = index.pathFromTipTowardGenesis tip := by
  rw [← pathGuarded_cycle, pathGuarded, pathGuarded,
    walk_congr index.link_lowers (fun _ _ => Link.mem_keys) (index.guardedRound_decides repeated)
      (index.guardedRound_decides .cycle) index.leave_stop_eq_go_iff (index.ahead tip)]

/-- The check of a link reports a cycle for a block that is its own parent. -/
theorem validatedParentHash_cycle_iff (index : BlockIndex) {block b : String}
    {e : BlockIndexEntry} :
    index.validatedParentHash block e = .error (.cycle b) ↔ e.parentHash = block ∧ block = b := by
  rw [validatedParentHash]
  by_cases hself : e.parentHash = block
  · simp only [hself, if_true, Except.error.injEq, BlockPathError.cycle.injEq, true_and]
  · rw [if_neg hself]
    -- Every error after the first test is another one.
    constructor
    · intro h
      split at h
      · simp only [Except.error.injEq, reduceCtorEq] at h
      · split at h
        · simp only [Except.error.injEq, reduceCtorEq] at h
        · split at h
          · simp only [Except.error.injEq, reduceCtorEq] at h
          · split at h
            · simp only [Except.error.injEq, reduceCtorEq] at h
            · simp only [reduceCtorEq] at h
    · intro h
      exact absurd h.1 hself

theorem leave_cycle_iff {index : BlockIndex} {cur b : String} :
    index.leave cur .stop = .fail (.cycle b) ↔
      cur = b ∧ ∃ e, index.get b = some e ∧ e.height ≠ 0 ∧ e.parentHash = b := by
  rw [leave]
  cases he : index.get cur with
  | none =>
      simp only [Round.fail.injEq, reduceCtorEq, false_iff]
      intro h
      rcases h with ⟨rfl, e, he', _⟩
      rw [he] at he'
      exact absurd he' (by simp only [reduceCtorEq, not_false_eq_true])
  | some e =>
      -- The block has one entry, so what is said of any is said of this one.
      have hentry : (cur = b ∧ ∃ e, index.get b = some e ∧ e.height ≠ 0 ∧ e.parentHash = b) ↔
          e.height ≠ 0 ∧ e.parentHash = cur ∧ cur = b := by
        constructor
        · intro h
          rcases h with ⟨rfl, e', he', hzero, hself⟩
          rw [he, Option.some.injEq] at he'
          subst he'
          exact ⟨hzero, hself, rfl⟩
        · intro h
          rcases h with ⟨hzero, hself, rfl⟩
          exact ⟨rfl, e, he, hzero, hself⟩
      rw [hentry, ← index.validatedParentHash_cycle_iff]
      simp only
      by_cases hzero : e.height = 0
      · simp only [hzero, if_true, reduceCtorEq, ne_eq, not_true_eq_false, false_and]
      · rw [if_neg hzero]
        cases index.validatedParentHash cur e with
        | error err => simp only [Round.fail.injEq, Except.error.injEq, ne_eq, hzero,
            not_false_eq_true, true_and]
        | ok p => simp only [reduceCtorEq, and_false]

/-- A path fails where a walk leads to a block that cannot be left. -/
theorem path_error_iff {index : BlockIndex} {tip : String} {err : BlockPathError} :
    index.pathFromTipTowardGenesis tip = .error err ↔
      ∃ l b, Leads index.Link tip l b ∧ index.leave b .stop = .fail err := by
  have hwalk : walk index.pathRound (fun cur => .error (.cycle cur)) (index.len + 2) tip ∅ =
      .error err ↔ ∃ l b, Leads index.Link tip l b ∧ index.leave b .stop = .fail err :=
    walk_error_iff index.link_lowers (fun _ _ => Link.mem_keys)
      (index.guardedRound_decides .cycle) index.leave_stop_eq_go_iff (index.ahead tip)
  rw [← hwalk, pathFromTipTowardGenesis]
  cases walk index.pathRound (fun cur => .error (.cycle cur)) (index.len + 2) tip ∅ with
  | error e => simp only [Except.error.injEq]
  | ok p => simp only [reduceCtorEq]

/-- A cycle is reported for a block above height zero that is its own parent. -/
theorem path_cycle_iff {index : BlockIndex} {tip b : String} :
    index.pathFromTipTowardGenesis tip = .error (.cycle b) ↔
      (∃ l, Leads index.Link tip l b) ∧
        ∃ e, index.get b = some e ∧ e.height ≠ 0 ∧ e.parentHash = b := by
  rw [path_error_iff]
  constructor
  · intro h
    rcases h with ⟨l, c, hl, hc⟩
    rcases leave_cycle_iff.mp hc with ⟨rfl, he⟩
    exact ⟨⟨l, hl⟩, he⟩
  · intro h
    rcases h with ⟨⟨l, hl⟩, he⟩
    exact ⟨l, b, hl, leave_cycle_iff.mpr ⟨rfl, he⟩⟩

/-- A tip has a path exactly when it has an ancestry, which is then the path,
    repeats no block and is as long as the tip is high. Neither guard of the loop
    ever reports, and a cycle is reported for a block that is its own parent. -/
theorem path_accepts_ancestry (index : BlockIndex) (tip : String) :
    (∀ path, index.pathFromTipTowardGenesis tip = .ok path ↔
      ∃ k h, index.Ancestry tip k h ∧ path = (List.range (k + 1)).map h) ∧
    (∀ k h, index.Ancestry tip k h → ((List.range (k + 1)).map h).Nodup ∧
      ∃ e, index.get tip = some e ∧ e.height.toNat = k) ∧
    (∀ repeated exhausted, index.pathGuarded repeated exhausted tip =
      index.pathFromTipTowardGenesis tip) ∧
    ∀ b, index.pathFromTipTowardGenesis tip = .error (.cycle b) ↔
      (∃ l, Leads index.Link tip l b) ∧
        ∃ e, index.get b = some e ∧ e.height ≠ 0 ∧ e.parentHash = b :=
  ⟨fun _ => path_ok_iff_ancestry, fun _ _ hanc => ⟨hanc.nodup, hanc.height⟩,
    fun repeated exhausted => index.pathGuarded_eq repeated exhausted tip,
    fun _ => path_cycle_iff⟩

/-- Two blocks that name each other as parents are no cycle to the loop. -/
example : (BlockIndex.mk (((∅ : Finmap fun _ : String => BlockIndexEntry).insert "a"
      ⟨"b", 2⟩).insert "b" ⟨"a", 1⟩)).pathFromTipTowardGenesis "a" =
    .error (.malformedAncestry "b" "parent.height + 1 must equal child.height") := by
  decide

/-! ### The walk without checks -/

/-- What the walk without checks follows. -/
def Names (index : BlockIndex) (block parent : String) : Prop :=
  ∃ e, index.get block = some e ∧ e.height ≠ 0 ∧ e.parentHash = parent

theorem Names.unique {index : BlockIndex} (a b c : String) (hb : index.Names a b)
    (hc : index.Names a c) : b = c := by
  rcases hb with ⟨e, he, _, rfl⟩
  rcases hc with ⟨e', he', _, rfl⟩
  rw [he, Option.some.injEq] at he'
  rw [he']

theorem Names.mem_keys {index : BlockIndex} {a b : String} (h : index.Names a b) :
    a ∈ index.byHash.keys := by
  rcases h with ⟨e, he, _⟩
  exact Finmap.mem_keys.mpr (Finmap.mem_of_lookup_eq_some he)

theorem Link.names {index : BlockIndex} {a b : String} (h : index.Link a b) :
    index.Names a b := by
  rcases h with ⟨e, pe, he, _, hparent, _, hheight⟩
  refine ⟨e, he, fun hzero => ?_, hparent⟩
  rw [hzero] at hheight
  exact absurd hheight (Nat.succ_ne_zero _)

theorem ancestors_of_names {index : BlockIndex} {a b : String} (h : index.Names a b)
    (rounds : Nat) : index.ancestorsToHeightZero (rounds + 1) a =
      (index.ancestorsToHeightZero rounds b).map fun out => a :: out := by
  rcases h with ⟨e, he, hzero, rfl⟩
  rw [ancestorsToHeightZero, he]
  simp only [if_neg hzero]

theorem ancestors_of_end {index : BlockIndex} {a : String} (h : ∀ b, ¬ index.Names a b)
    (rounds : Nat) : index.ancestorsToHeightZero (rounds + 1) a = some [a] := by
  rw [ancestorsToHeightZero]
  rcases he : index.get a with _ | e
  · rfl
  · have hzero : e.height = 0 := by
      by_contra hc
      exact h e.parentHash ⟨e, he, hc, rfl⟩
    simp only [if_pos hzero]

/-- What the walk without checks returns, and after how many rounds. -/
theorem ancestors_eq_some_iff {index : BlockIndex} {rounds : Nat} {tip : String}
    {out : List String} :
    index.ancestorsToHeightZero rounds tip = some out ↔
      ∃ l r, Leads index.Names tip l r ∧ (∀ b, ¬ index.Names r b) ∧ out = l ++ [r] ∧
        l.length < rounds := by
  induction rounds generalizing tip out with
  | zero =>
      rw [ancestorsToHeightZero]
      refine ⟨fun h => absurd h (Option.some_ne_none _).symm, fun h => ?_⟩
      rcases h with ⟨_, _, _, _, _, hlt⟩
      exact absurd hlt (Nat.not_lt_zero _)
  | succ rounds ih =>
      by_cases hstep : ∃ b, index.Names tip b
      · rcases hstep with ⟨b, hb⟩
        rw [ancestors_of_names hb]
        simp only [Option.map_eq_some_iff, ih]
        constructor
        · intro h
          rcases h with ⟨_, ⟨l, r, hl, hend, rfl, hlt⟩, rfl⟩
          exact ⟨tip :: l, r, .step hb hl, hend, rfl, Nat.succ_lt_succ hlt⟩
        · intro h
          rcases h with ⟨l, r, hl, hend, rfl, hlt⟩
          cases hl with
          | here => exact absurd hb (hend b)
          | @step _ c _ l hc hl =>
              -- A block names one parent, so the walk goes the same way.
              rw [Names.unique _ _ _ hc hb] at hl
              exact ⟨l ++ [r], ⟨l, r, hl, hend, rfl, Nat.lt_of_succ_lt_succ hlt⟩, rfl⟩
      · have hend : ∀ b, ¬ index.Names tip b := fun b hb => hstep ⟨b, hb⟩
        rw [ancestors_of_end hend, Option.some.injEq]
        constructor
        · intro h
          exact ⟨[], tip, .here tip, hend, h.symm, Nat.succ_pos _⟩
        · intro h
          rcases h with ⟨l, r, hl, _, rfl, _⟩
          cases hl with
          | here => rfl
          | step hc _ => exact absurd hc (hend _)

/-- It returns within one round more than there are blocks, if at all. -/
theorem ancestors_of_leads {index : BlockIndex} {tip r : String} {l : List String}
    (h : Leads index.Names tip l r) (hend : ∀ b, ¬ index.Names r b) :
    index.ancestorsToHeightZero (index.len + 1) tip = some (l ++ [r]) := by
  refine ancestors_eq_some_iff.mpr ⟨l, r, h, hend, rfl, ?_⟩
  -- The walk leaves each of its blocks once, and they are all indexed.
  have hsub : l.toFinset ⊆ index.byHash.keys := by
    intro x hx
    rcases h.exists_step (List.mem_toFinset.mp hx) with ⟨b, hxb⟩
    exact hxb.mem_keys
  have hcard := Finset.card_le_card hsub
  rw [List.toFinset_card_of_nodup (h.nodup_of_end Names.unique hend)] at hcard
  exact Nat.lt_succ_of_le hcard

theorem ancestors_none_iff {index : BlockIndex} {tip : String} :
    (∀ rounds, index.ancestorsToHeightZero rounds tip = none) ↔
      ∃ l x l', Leads index.Names tip l x ∧ Leads index.Names x l' x ∧ l' ≠ [] := by
  rw [← no_end_iff Names.unique fun _ _ h => h.mem_keys]
  constructor
  · intro hnone hend
    rcases hend with ⟨l, r, h, hend⟩
    have hout := ancestors_of_leads h hend
    rw [hnone] at hout
    cases hout
  · intro hnone rounds
    rcases hout : index.ancestorsToHeightZero rounds tip with _ | out
    · rfl
    · rcases ancestors_eq_some_iff.mp hout with ⟨l, r, h, hend, _⟩
      exact absurd ⟨l, r, h, hend⟩ hnone

/-- The walk without checks. Where the checked walk returns a path, it returns the
    same. It returns within one round more than there are blocks, or never; and it
    never returns exactly when it comes back to some block. That is the case
    wherever the checked walk reports a cycle. -/
theorem unchecked_walk (index : BlockIndex) (tip : String) :
    (∀ path, index.pathFromTipTowardGenesis tip = .ok path →
      index.ancestorsToHeightZero (index.len + 1) tip = some path) ∧
    (∀ rounds out, index.ancestorsToHeightZero rounds tip = some out →
      index.ancestorsToHeightZero (index.len + 1) tip = some out) ∧
    ((∀ rounds, index.ancestorsToHeightZero rounds tip = none) ↔
      ∃ l x l', Leads index.Names tip l x ∧ Leads index.Names x l' x ∧ l' ≠ []) ∧
    ∀ b, index.pathFromTipTowardGenesis tip = .error (.cycle b) →
      ∀ rounds, index.ancestorsToHeightZero rounds tip = none := by
  refine ⟨?_, ?_, ancestors_none_iff, ?_⟩
  · intro path hpath
    rcases pathFromTipTowardGenesis_ok_iff.mp hpath with ⟨l, r, rfl, hl, hroot⟩
    refine ancestors_of_leads (hl.mono fun _ _ _ hxy => hxy.names) fun b hb => ?_
    rcases hroot with ⟨e, he, hzero⟩
    rcases hb with ⟨e', he', hpos, _⟩
    rw [he, Option.some.injEq] at he'
    exact hpos (he' ▸ hzero)
  · intro rounds out hout
    rcases ancestors_eq_some_iff.mp hout with ⟨l, r, h, hend, rfl, _⟩
    exact ancestors_of_leads h hend
  · intro b hcycle
    -- The block that is reported names itself.
    rcases path_cycle_iff.mp hcycle with ⟨⟨l, hl⟩, e, he, hpos, hself⟩
    have hb : index.Names b b := ⟨e, he, hpos, hself⟩
    exact ancestors_none_iff.mpr ⟨l, b, [b], hl.mono fun _ _ _ hxy => hxy.names,
      .step hb (.here b), List.cons_ne_nil _ _⟩

/-- From two blocks that name each other as parents it never returns. -/
example : ∀ rounds, (BlockIndex.mk (((∅ : Finmap fun _ : String => BlockIndexEntry).insert "a"
      ⟨"b", 2⟩).insert "b" ⟨"a", 1⟩)).ancestorsToHeightZero rounds "a" = none := by
  refine ancestors_none_iff.mpr ⟨[], "a", ["a", "b"], .here "a", ?_, List.cons_ne_nil _ _⟩
  have ha : (BlockIndex.mk (((∅ : Finmap fun _ : String => BlockIndexEntry).insert "a"
      ⟨"b", 2⟩).insert "b" ⟨"a", 1⟩)).Names "a" "b" := ⟨⟨"b", 2⟩, rfl, by decide, rfl⟩
  have hb : (BlockIndex.mk (((∅ : Finmap fun _ : String => BlockIndexEntry).insert "a"
      ⟨"b", 2⟩).insert "b" ⟨"a", 1⟩)).Names "b" "a" := ⟨⟨"a", 1⟩, rfl, by decide, rfl⟩
  exact .step ha (.step hb (.here "a"))

end BlockIndex

end Trilogicon
