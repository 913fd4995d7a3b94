import Trilogicon.Core.Run
import Trilogicon.Theory.NodeRun
import Trilogicon.Theory.Serve
import Trilogicon.Theory.Sync

/-!
# The Seal Gate

When a run with peers starts to seal.

The record of a run is read by an automaton with one bit, the flag of
`cmd_run`. While the flag is down, rounds in which some call failed may follow
each other; the first round in which no call failed raises it; from then on
there are only seals. So there is one round that opens the gate, and every seal
comes after it.

A round opens the gate if every call returned `Ok`. That is less than it says
when it opens it, "all configured peers completed catch-up": a call that was
stopped by its own budget returns `Ok` too, with blocks left to fetch. The gate
keeps its promise in a run exactly if that does not happen in the round that
opens it.

## Main definitions

* `Responded`: Every call of a round returned `Ok`.
* `Complete`: Every call of a round came to the end of the peer's chain.
* `Gated`: The automaton that reads a record.
* `SealsAfterCatchUp`: Every seal comes after a complete round.

## Theorems

* `cmdRun_gated`: The record of every run is read by the automaton.
* `cmdRun_agrees`: A run keeps memory, replay and disk in agreement.
* `seals_after_catchUp_iff`: When the gate keeps its promise.
-/

namespace Trilogicon

/-- Every call of the round returned `Ok`. -/
def Responded (results : List (String × SyncResult)) : Prop :=
  ∀ r ∈ results, ∃ out, r.2 = .ok out

/-- Every call of the round returned `Ok` and was not stopped by its budget. -/
def Complete (results : List (String × SyncResult)) : Prop :=
  ∀ r ∈ results, ∃ k, r.2 = .ok { blocksAppended := k, stoppedDueToBudget := false }

theorem Complete.responded {results : List (String × SyncResult)} (h : Complete results) :
    Responded results := by
  intro r hr
  rcases h r hr with ⟨k, hk⟩
  exact ⟨_, hk⟩

theorem foldl_stillOk_iff {results : List (String × SyncResult)} {ok : Bool} :
    results.foldl stillOk ok = true ↔ ok = true ∧ Responded results := by
  induction results generalizing ok with
  | nil => simp only [List.foldl_nil, Responded, List.not_mem_nil, false_implies, implies_true,
      and_true]
  | cons r results ih =>
      rw [List.foldl_cons, ih, stillOk]
      unfold Responded
      rw [List.forall_mem_cons]
      cases r.2 with
      | ok out => simp only [Except.ok.injEq, exists_eq', true_and]
      | error e => simp only [Bool.false_eq_true, reduceCtorEq, exists_false, false_and, and_false]

theorem allOk_iff {results : List (String × SyncResult)} :
    allOk results = true ↔ Responded results := by
  rw [allOk, foldl_stillOk_iff, eq_self_iff_true, true_and]

/-- The automaton: it reads a record, starting with one value of the flag and
    ending with another. -/
inductive Gated (peers : List String) : Bool → List RunRecord → Bool → Prop
  | nil (allowed : Bool) : Gated peers allowed [] allowed
  | failed {results : List (String × SyncResult)} {log : List RunRecord} {allowed : Bool}
      (hpeers : results.map Prod.fst = peers) (h : ¬Responded results)
      (rest : Gated peers false log allowed) : Gated peers false (.catchUp results :: log) allowed
  | opened {results : List (String × SyncResult)} {log : List RunRecord} {allowed : Bool}
      (hpeers : results.map Prod.fst = peers) (h : Responded results)
      (rest : Gated peers true log allowed) : Gated peers false (.catchUp results :: log) allowed
  | sealing {log : List RunRecord} {allowed : Bool}
      (rest : Gated peers true log allowed) : Gated peers true (.sealAttempt :: log) allowed

theorem Gated.append {peers : List String} {a b c : Bool} {log rest : List RunRecord}
    (h : Gated peers a log b) (h' : Gated peers b rest c) : Gated peers a (log ++ rest) c := by
  induction h with
  | nil => exact h'
  | failed hpeers hr _ ih => exact .failed hpeers hr (ih h')
  | opened hpeers hr _ ih => exact .opened hpeers hr (ih h')
  | sealing _ ih => exact .sealing (ih h')

theorem Gated.catchUp_notMem {peers : List String} {log : List RunRecord} {allowed : Bool}
    (h : Gated peers true log allowed) (results : List (String × SyncResult)) :
    RunRecord.catchUp results ∉ log := by
  generalize hopen : true = up at h
  induction h with
  | nil => exact List.not_mem_nil
  | failed => exact absurd hopen (by decide)
  | opened => exact absurd hopen (by decide)
  | sealing _ ih =>
      rw [List.mem_cons, not_or]
      exact ⟨by simp only [reduceCtorEq, not_false_eq_true], ih hopen⟩

/-- Only one round opens the gate. -/
theorem Gated.responded_unique {peers : List String} {log : List RunRecord} {allowed : Bool}
    (h : Gated peers false log allowed) {results results' : List (String × SyncResult)}
    (hmem : .catchUp results ∈ log) (hr : Responded results)
    (hmem' : .catchUp results' ∈ log) (hr' : Responded results') : results = results' := by
  generalize hclosed : false = up at h
  induction h with
  | nil => exact absurd hmem List.not_mem_nil
  | failed _ hfail _ ih =>
      -- The failed round is neither of the two.
      rw [List.mem_cons, RunRecord.catchUp.injEq] at hmem hmem'
      refine ih (hmem.resolve_left ?_) (hmem'.resolve_left ?_) hclosed
      · rintro rfl
        exact hfail hr
      · rintro rfl
        exact hfail hr'
  | opened _ _ rest =>
      -- Once the gate is open there is no further round.
      rw [List.mem_cons, RunRecord.catchUp.injEq] at hmem hmem'
      rw [hmem.resolve_right (rest.catchUp_notMem _), hmem'.resolve_right (rest.catchUp_notMem _)]
  | sealing => exact absurd hclosed (by decide)

/-- Every seal comes after the round that opened the gate. -/
theorem Gated.seal_after {peers : List String} {log before after : List RunRecord}
    {allowed : Bool} (h : Gated peers false log allowed)
    (hlog : log = before ++ .sealAttempt :: after) :
    ∃ results, .catchUp results ∈ before ∧ results.map Prod.fst = peers ∧ Responded results := by
  generalize hclosed : false = up at h
  induction h generalizing before with
  | nil => exact absurd hlog (by simp only [List.nil_eq, List.append_eq_nil_iff, reduceCtorEq,
      and_false, not_false_eq_true])
  | failed _ _ _ ih =>
      -- The gate is still closed after this round, so the seal is further on.
      cases before with
      | nil => exact absurd (List.cons.inj hlog).1 (by simp only [reduceCtorEq, not_false_eq_true])
      | cons r before =>
          rcases ih (List.cons.inj hlog).2 hclosed with ⟨results, hmem, h⟩
          exact ⟨results, List.mem_cons_of_mem _ hmem, h⟩
  | opened hpeers hr _ =>
      cases before with
      | nil => exact absurd (List.cons.inj hlog).1 (by simp only [reduceCtorEq, not_false_eq_true])
      | cons r before =>
          refine ⟨_, ?_, hpeers, hr⟩
          rw [(List.cons.inj hlog).1]
          exact List.mem_cons_self
  | sealing => exact absurd hclosed (by decide)

section Rounds

variable {sync : SyncCall}

/-- A round asks every peer, in order. -/
theorem catchUpRound_peers {n n' : NodeInner} {peers : List String} {worlds : Nat → SyncWorld}
    {results : List (String × SyncResult)}
    (h : catchUpRound sync n peers worlds = some (results, n')) :
    results.map Prod.fst = peers := by
  induction peers generalizing n n' worlds results with
  | nil =>
      simp only [catchUpRound, Option.some.injEq, Prod.mk.injEq] at h
      rw [← h.1, List.map_nil]
  | cons p peers ih =>
      simp only [catchUpRound, Option.bind_eq_bind, Option.bind_eq_some_iff, Option.some.injEq,
        Prod.mk.injEq, Prod.exists] at h
      rcases h with ⟨r, n₁, _, rs, n₂, hrs, rfl, _⟩
      rw [List.map_cons, ih hrs]

/-- One round, as the automaton reads it. -/
theorem gated_round {n n' : NodeInner} {peers : List String} {worlds : Nat → SyncWorld}
    {results : List (String × SyncResult)}
    (h : catchUpRound sync n peers worlds = some (results, n')) :
    Gated peers false [.catchUp results] (allOk results) := by
  have hpeers := catchUpRound_peers h
  by_cases hr : Responded results
  · rw [allOk_iff.mpr hr]
    exact .opened hpeers hr (.nil true)
  · rw [Bool.eq_false_iff.mpr fun hok => hr (allOk_iff.mp hok)]
    exact .failed hpeers hr (.nil false)

theorem retryRound_gated {n n' : NodeInner} {peers : List String} {allowed allowed' : Bool}
    {worlds : Nat → SyncWorld} {log : List RunRecord}
    (h : retryRound sync peers n allowed worlds = some (log, allowed', n')) :
    Gated peers allowed log allowed' := by
  rw [retryRound] at h
  -- An open gate needs no round.
  split_ifs at h with hskip
  · simp only [Option.some.injEq, Prod.mk.injEq] at h
    rw [← h.1, ← h.2.1]
    exact .nil allowed
  · simp only [Option.bind_eq_bind, Option.bind_eq_some_iff, Option.some.injEq, Prod.mk.injEq,
      Prod.exists] at h
    rcases h with ⟨results, n₁, hround, rfl, rfl, _⟩
    have hclosed : allowed = false := by
      cases allowed with
      | false => rfl
      | true => exact absurd rfl hskip
    rw [hclosed]
    exact gated_round hround

end Rounds

section Gate

variable [Primitives] {sync : SyncCall}

theorem sealAndFollow_allowed {peers : List String} {n : NodeInner} {allowed : Bool}
    {v : Interval} {s : RunState} (h : sealAndFollow sync peers n allowed v = some (.ok s)) :
    s.sealingAllowed = allowed := by
  simp only [sealAndFollow, Option.bind_eq_bind, Option.bind_eq_some_iff] at h
  rcases h with ⟨⟨e | b, n₁⟩, _, h⟩
  · simp only [Option.some.injEq, reduceCtorEq] at h
  · simp only at h
    split_ifs at h with hpeers
    · simp only [Option.some.injEq, Except.ok.injEq] at h
      rw [← h]
    · rcases Option.bind_eq_some_iff.mp h with ⟨⟨e | u, n₂⟩, _, h⟩
      · simp only [Option.some.injEq, reduceCtorEq] at h
      · cases hb : v.bookSaved with
        | error e => simp only [hb, Except.map, Option.some.injEq, reduceCtorEq] at h
        | ok _ =>
            simp only [hb, Except.map, Option.some.injEq, Except.ok.injEq] at h
            rw [← h]

/-- One turn of the loop, as the automaton reads it. -/
theorem runInterval_gated {peers : List String} {s : RunState} {v : Interval}
    {log : List RunRecord} {out : Except String RunState}
    (h : runInterval sync peers s v = some (log, out)) :
    ∃ allowed, Gated peers s.sealingAllowed log allowed ∧
      ∀ s', out = .ok s' → s'.sealingAllowed = allowed := by
  rw [runInterval, Option.bind_eq_bind, Option.bind_eq_some_iff] at h
  rcases h with ⟨n, _, h⟩
  split_ifs at h with hpoisoned
  · simp only [Option.some.injEq, Prod.mk.injEq] at h
    rw [← h.1, ← h.2]
    exact ⟨_, .nil _, fun s' hs => absurd hs (by simp only [reduceCtorEq, not_false_eq_true])⟩
  · simp only [Option.bind_eq_bind, Option.bind_eq_some_iff, Option.some.injEq, Prod.mk.injEq,
      Prod.exists] at h
    rcases h with ⟨log₁, allowed, n₁, hretry, out', hseal, rfl, rfl⟩
    -- The retry moves the gate, and the seal is only tried if it is open.
    refine ⟨allowed, (retryRound_gated hretry).append ?_, ?_⟩
    · cases allowed with
      | false => exact .nil false
      | true => exact .sealing (.nil true)
    · rintro s' rfl
      exact sealAndFollow_allowed hseal

theorem runIntervals_gated {peers : List String} {s : RunState} {vs : List Interval}
    {log : List RunRecord} {out : Except String RunState}
    (h : runIntervals sync peers s vs = some (log, out)) :
    ∃ allowed, Gated peers s.sealingAllowed log allowed := by
  induction vs generalizing s log out with
  | nil =>
      simp only [runIntervals, Option.some.injEq, Prod.mk.injEq] at h
      rw [← h.1]
      exact ⟨_, .nil _⟩
  | cons v vs ih =>
      rw [runIntervals, Option.bind_eq_bind, Option.bind_eq_some_iff] at h
      rcases h with ⟨⟨log₁, e | s₁⟩, hv, h⟩
      · simp only [Option.some.injEq, Prod.mk.injEq] at h
        rw [← h.1]
        rcases runInterval_gated hv with ⟨allowed, hgated, _⟩
        exact ⟨allowed, hgated⟩
      · simp only [Option.bind_eq_some_iff, Option.some.injEq, Prod.mk.injEq, Prod.exists] at h
        rcases h with ⟨rest, out', hrest, rfl, _⟩
        -- The next turn starts with the gate as this one left it.
        rcases runInterval_gated hv with ⟨allowed, hgated, hnext⟩
        rcases ih hrest with ⟨allowed', hgated'⟩
        rw [hnext s₁ rfl] at hgated'
        exact ⟨allowed', hgated.append hgated'⟩

/-- The record of a run with peers, as the automaton reads it. -/
theorem cmdRun_gated {peers : List String} {n : NodeInner} {first : Nat → SyncWorld}
    {setup : Except String Unit} {vs : List Interval} {log : List RunRecord}
    {out : Except String RunState} (hpeers : peers ≠ [])
    (h : cmdRun sync peers n first setup vs = some (log, out)) :
    ∃ allowed, Gated peers false log allowed := by
  rw [cmdRun, startRun, if_neg hpeers] at h
  simp only [Option.bind_eq_bind, Option.bind_eq_some_iff, Option.some.injEq, Prod.exists] at h
  rcases h with ⟨log₁, out₁, ⟨results, n₁, hround, hstart⟩, h⟩
  rw [Prod.mk.injEq] at hstart
  rcases hstart with ⟨rfl, rfl⟩
  cases setup with
  | error e =>
      simp only [Except.map, Option.some.injEq, Prod.mk.injEq] at h
      rw [← h.1]
      exact ⟨_, gated_round hround⟩
  | ok _ =>
      simp only [Except.map, Option.bind_eq_some_iff, Option.some.injEq, Prod.mk.injEq,
        Prod.exists] at h
      rcases h with ⟨rest, out', hrest, rfl, _⟩
      rcases runIntervals_gated hrest with ⟨allowed, hgated⟩
      exact ⟨allowed, (gated_round hround).append hgated⟩

/-- A call that keeps the invariant and does not panic. -/
def SyncCall.Keeps (sync : SyncCall) (g : Genesis) : Prop :=
  ∀ n peer w, n.Agrees g → ∃ r n', sync n peer w = some (r, n') ∧ n'.Agrees g

theorem syncFromPeer_keeps (g : Genesis) : syncFromPeer.Keeps g :=
  fun _ peer w h => sync_agrees h peer .default w

theorem catchUpRound_agrees {g : Genesis} (hsync : sync.Keeps g) {n : NodeInner}
    (h : n.Agrees g) (peers : List String) (worlds : Nat → SyncWorld) :
    ∃ results n', catchUpRound sync n peers worlds = some (results, n') ∧ n'.Agrees g := by
  induction peers generalizing n worlds with
  | nil => exact ⟨[], n, rfl, h⟩
  | cons p peers ih =>
      rcases hsync n p (worlds 0) h with ⟨r, n₁, hr, h₁⟩
      rcases ih h₁ fun i => worlds (i + 1) with ⟨rs, n₂, hrs, h₂⟩
      refine ⟨(p, r) :: rs, n₂, ?_, h₂⟩
      simp only [catchUpRound, hr, hrs, Option.bind_eq_bind, Option.bind_some]

theorem followPeers_agrees {g : Genesis} (hsync : sync.Keeps g) {n : NodeInner}
    (h : n.Agrees g) (targets : List (String × SyncWorld)) :
    ∃ r n', followPeers sync n targets = some (r, n') ∧ n'.Agrees g := by
  induction targets generalizing n with
  | nil => exact ⟨_, n, rfl, h⟩
  | cons t targets ih =>
      rcases hsync n t.1 t.2 h with ⟨r, n₁, hr, h₁⟩
      simp only [followPeers, hr, Option.bind_eq_bind, Option.bind_some]
      cases r with
      | ok _ => exact ih h₁
      | error e =>
          simp only
          split_ifs with hfatal
          · exact ⟨_, n₁, rfl, h₁⟩
          · exact ih h₁

theorem receiveAll_agrees {g : Genesis} {n : NodeInner} (h : n.Agrees g)
    (ms : List InboundMessage) : ∃ n', receiveAll n ms = some n' ∧ n'.Agrees g := by
  induction ms generalizing n with
  | nil => exact ⟨n, rfl, h⟩
  | cons m ms ih =>
      rcases receive_agrees h m with ⟨n₁, hn₁, h₁⟩
      rcases ih h₁ with ⟨n₂, hn₂, h₂⟩
      refine ⟨n₂, ?_, h₂⟩
      simp only [receiveAll, hn₁, Option.bind_eq_bind, Option.bind_some, hn₂]

theorem retryRound_agrees {g : Genesis} (hsync : sync.Keeps g) {n : NodeInner}
    (h : n.Agrees g) (peers : List String) (allowed : Bool) (worlds : Nat → SyncWorld) :
    ∃ log allowed' n', retryRound sync peers n allowed worlds = some (log, allowed', n') ∧
      n'.Agrees g := by
  rw [retryRound]
  split_ifs with hskip
  · exact ⟨_, _, n, rfl, h⟩
  · rcases catchUpRound_agrees hsync h peers worlds with ⟨results, n₁, hround, h₁⟩
    simp only [hround, Option.bind_eq_bind, Option.bind_some]
    exact ⟨_, _, n₁, rfl, h₁⟩

/-- The two ways a step of the run may end. -/
theorem agrees_of_map {g : Genesis} {n : NodeInner} (h : n.Agrees g) (r : Except String Unit)
    (allowed : Bool) (s : RunState)
    (hs : r.map (fun _ => { node := n, sealingAllowed := allowed }) = .ok s) :
    s.node.Agrees g := by
  cases r with
  | error e => exact absurd hs (by simp only [Except.map, reduceCtorEq, not_false_eq_true])
  | ok _ =>
      cases hs
      exact h

theorem sealAndFollow_agrees {g : Genesis} (hsync : sync.Keeps g) {n : NodeInner}
    (h : n.Agrees g) (peers : List String) (allowed : Bool) (v : Interval) :
    ∃ out, sealAndFollow sync peers n allowed v = some out ∧
      ∀ s, out = .ok s → s.node.Agrees g := by
  have hstop : ∀ (e : String) (s : RunState),
      (Except.error e : Except String RunState) = .ok s → s.node.Agrees g :=
    fun e s hs => absurd hs (by simp only [reduceCtorEq, not_false_eq_true])
  -- The seal and the follow-up both keep the agreement, and an error ends the run.
  rcases seal_moves h allowed v.nowUnix v.calls with ⟨r, n₁, hseal, h₁, _⟩
  simp only [sealAndFollow, hseal, Option.bind_eq_bind, Option.bind_some]
  cases r with
  | error e => exact ⟨_, rfl, hstop e⟩
  | ok b =>
      simp only
      split_ifs with hpeers
      · refine ⟨_, rfl, ?_⟩
        rintro s ⟨⟩
        exact h₁
      · rcases followPeers_agrees hsync h₁ v.targets with ⟨r₂, n₂, hfollow, h₂⟩
        simp only [hfollow, Option.bind_some]
        cases r₂ with
        | error e => exact ⟨_, rfl, hstop e⟩
        | ok _ => exact ⟨_, rfl, agrees_of_map h₂ v.bookSaved allowed⟩

theorem runInterval_agrees {g : Genesis} (hsync : sync.Keeps g) {s : RunState}
    (h : s.node.Agrees g) (peers : List String) (v : Interval) :
    ∃ log out, runInterval sync peers s v = some (log, out) ∧
      ∀ s', out = .ok s' → s'.node.Agrees g := by
  rcases receiveAll_agrees h v.arrivals with ⟨n₁, hn₁, h₁⟩
  simp only [runInterval, hn₁, Option.bind_eq_bind, Option.bind_some]
  split_ifs with hpoisoned
  · exact ⟨_, _, rfl, fun s' hs => absurd hs (by simp only [reduceCtorEq, not_false_eq_true])⟩
  · rcases retryRound_agrees hsync (h₁.with_pool (v.drained n₁.pool)) peers s.sealingAllowed
      v.round with ⟨log, allowed, n₂, hn₂, h₂⟩
    rcases sealAndFollow_agrees hsync h₂ peers allowed v with ⟨out, hout, h₃⟩
    simp only [hn₂, hout, Option.bind_some]
    exact ⟨_, out, rfl, h₃⟩

theorem runIntervals_agrees {g : Genesis} (hsync : sync.Keeps g) {s : RunState}
    (h : s.node.Agrees g) (peers : List String) (vs : List Interval) :
    ∃ log out, runIntervals sync peers s vs = some (log, out) ∧
      ∀ s', out = .ok s' → s'.node.Agrees g := by
  induction vs generalizing s with
  | nil =>
      refine ⟨_, _, rfl, ?_⟩
      rintro s' ⟨⟩
      exact h
  | cons v vs ih =>
      rcases runInterval_agrees hsync h peers v with ⟨log, out, hv, hout⟩
      simp only [runIntervals, hv, Option.bind_eq_bind, Option.bind_some]
      cases out with
      | error e => exact ⟨_, _, rfl, hout⟩
      | ok s₁ =>
          rcases ih (hout s₁ rfl) with ⟨rest, out', hrest, hout'⟩
          simp only [hrest, Option.bind_some]
          exact ⟨_, out', rfl, hout'⟩

/-- No run panics, and a run that was not stopped by an error leaves memory,
    replay and disk in agreement. -/
theorem cmdRun_agrees {g : Genesis} (hsync : sync.Keeps g) {n : NodeInner} (h : n.Agrees g)
    (peers : List String) (first : Nat → SyncWorld) (setup : Except String Unit)
    (vs : List Interval) :
    ∃ log out, cmdRun sync peers n first setup vs = some (log, out) ∧
      ∀ s, out = .ok s → s.node.Agrees g := by
  -- The first round, if there are peers, is the start of the run.
  have hstart : ∃ log out, startRun sync peers n first setup = some (log, out) ∧
      ∀ s, out = .ok s → s.node.Agrees g := by
    rcases catchUpRound_agrees hsync h peers first with ⟨results, n₁, hround, h₁⟩
    simp only [startRun, hround, Option.bind_eq_bind, Option.bind_some]
    split_ifs with hpeers
    · exact ⟨_, _, rfl, agrees_of_map h setup true⟩
    · exact ⟨_, _, rfl, agrees_of_map h₁ setup _⟩
  rcases hstart with ⟨log, out, hs, hout⟩
  simp only [cmdRun, hs, Option.bind_eq_bind, Option.bind_some]
  cases out with
  | error e => exact ⟨_, _, rfl, hout⟩
  | ok s =>
      rcases runIntervals_agrees hsync (hout s rfl) peers vs with ⟨rest, out', hrest, hout'⟩
      simp only [hrest, Option.bind_some]
      exact ⟨_, out', rfl, hout'⟩

/-- Every seal of the record comes after a round in which every configured peer
    was asked and none of the calls was stopped by its budget. -/
def SealsAfterCatchUp (peers : List String) (log : List RunRecord) : Prop :=
  ∀ before after, log = before ++ .sealAttempt :: after →
    ∃ results, .catchUp results ∈ before ∧ results.map Prod.fst = peers ∧ Complete results

/-- In a run with peers, every seal comes after a complete round if and only if
    no round without an error had a call that was stopped by its budget, or the
    run does not get to a seal. -/
theorem seals_after_catchUp_iff {peers : List String} {n : NodeInner} {first : Nat → SyncWorld}
    {setup : Except String Unit} {vs : List Interval} {log : List RunRecord}
    {out : Except String RunState} (hpeers : peers ≠ [])
    (h : cmdRun sync peers n first setup vs = some (log, out)) :
    SealsAfterCatchUp peers log ↔
      (.sealAttempt ∈ log →
        ∀ results, .catchUp results ∈ log → Responded results → Complete results) := by
  rcases cmdRun_gated hpeers h with ⟨allowed, hgated⟩
  constructor
  · intro hafter hseal results hmem hr
    rcases List.append_of_mem hseal with ⟨before, after, hlog⟩
    rcases hafter before after hlog with ⟨results', hmem', _, hcomplete⟩
    have hmem'' : RunRecord.catchUp results' ∈ log := by
      rw [hlog]
      exact List.mem_append_left _ hmem'
    -- The complete round is the one that opened the gate.
    rw [hgated.responded_unique hmem hr hmem'' hcomplete.responded]
    exact hcomplete
  · intro hrounds before after hlog
    rcases hgated.seal_after hlog with ⟨results, hmem, hcover, hr⟩
    refine ⟨results, hmem, hcover, hrounds ?_ results ?_ hr⟩
    · rw [hlog]
      exact List.mem_append_right _ List.mem_cons_self
    · rw [hlog]
      exact List.mem_append_left _ hmem

end Gate

namespace Sample

/-- A turn of the loop in which nothing comes in. -/
def quiet : Interval :=
  { arrivals := [], drained := id, round := fun _ => ⟨fun _ => .error (.other ""), fun _ => 0,
      fun _ => .succeeds⟩,
    nowUnix := 1, calls := .succeeds, targets := [], bookSaved := .ok () }

/-- One peer, every call returns the same. -/
def sameResult (r : SyncResult) : SyncCall :=
  fun n _ _ => some (r, n)

theorem cmdRun_sameResult (out : SyncFromPeerOutcome) :
    cmdRun (sameResult (.ok out)) ["peer"] newNode quiet.round (.ok ()) [quiet] =
      some ([.catchUp [("peer", .ok out)], .sealAttempt],
        .ok { node := newNode, sealingAllowed := true }) := by
  rfl

/-- The gate after a call that came to the end of the peer's chain. -/
theorem seals_after_catchUp_sameResult :
    SealsAfterCatchUp ["peer"] [.catchUp [("peer", .ok ⟨3, false⟩)], .sealAttempt] := by
  refine (seals_after_catchUp_iff (by decide) (cmdRun_sameResult ⟨3, false⟩)).mpr ?_
  intro _ results hmem _
  simp only [List.mem_cons, RunRecord.catchUp.injEq, reduceCtorEq, List.not_mem_nil, or_false]
    at hmem
  rw [hmem]
  intro r hr
  rw [List.mem_singleton.mp hr]
  exact ⟨3, rfl⟩

/-- The blocks of a chain without transactions. -/
def tipAt : Nat → Block
  | 0 => Block.genesis
  | k + 1 => bulkBlock (tipAt k) 0 0

theorem tipAt_hash_length (k : Nat) : (utf8 (tipAt k).blockHash).length ≤ 64 := by
  cases k with
  | zero => decide
  | succ k =>
      rw [tipAt, bulkBlock_hash]
      exact (Crypto.hashBytes_byteLength _).le

theorem tipAt_hash_not_blank (k : Nat) : trim (tipAt k).blockHash ≠ "" := by
  cases k with
  | zero => decide
  | succ k =>
      rw [tipAt, bulkBlock_hash]
      exact Crypto.hashBytes_not_blank _

theorem tipAt_time (k : Nat) : (tipAt k).timestampUnix = 0 := by
  cases k with
  | zero => rfl
  | succ k => exact (bulkBlock_fields _ 0 0).2.2.1

theorem tipAt_height {k : Nat} (hk : k < 2 ^ 64) : (tipAt k).height.toNat = k := by
  induction k with
  | zero => rfl
  | succ k ih =>
      rw [tipAt, (bulkBlock_fields _ 0 0).1, UInt64.toNat_add, ih (by omega), UInt64.toNat_one,
        Nat.mod_eq_of_lt hk]

theorem tipAt_follows {k : Nat} (hk : k + 1 < 2 ^ 64) : Follows (tipAt k) (tipAt (k + 1)) := by
  have hheight := tipAt_height (k := k) (by omega)
  exact bulkBlock_follows (by omega) (tipAt_time k) (tipAt_hash_not_blank k) (by decide)

theorem tipAt_encodes (k : Nat) :
    ∃ enc, encodeBlock (tipAt (k + 1)) = some enc ∧ enc.length ≤ 161 := by
  have hlen := tipAt_hash_length k
  rcases bulkBlock_encodes (tipAt k) 0 (m := 0) (by decide) (by omega) with ⟨enc, henc, hsize⟩
  exact ⟨enc, henc, by omega⟩

/-- The answer with one block. -/
def oneBlockResponse (k : Nat) : Bytes :=
  opBlocks :: beBytes 4 1 ++ (batchEntry (tipAt (k + 1))).getD []

/-- A peer with a chain without transactions, which gives out one block for
    each question. -/
def steadyPeer : SyncWorld :=
  { connection := fun k => .ok ⟨frameOnWire peerAck ++ (frameOnWire (oneBlockResponse k) ++ []),
      .other "", [], []⟩,
    clock := fun _ => 0, calls := fun _ => .succeeds }

theorem tipAt_entry (k : Nat) :
    ∃ enc, batchEntry (tipAt (k + 1)) = some (beBytes 4 enc.length ++ enc) ∧
      enc.length ≤ 161 := by
  rcases tipAt_encodes k with ⟨enc, henc, hsize⟩
  refine ⟨enc, batchEntry_eq_some.mpr ⟨enc, henc, ?_, rfl⟩, hsize⟩
  unfold maxWireFrameBytes
  omega

theorem oneBlockResponse_length (k : Nat) : (oneBlockResponse k).length ≤ 170 := by
  rcases tipAt_entry k with ⟨enc, hentry, hsize⟩
  rw [oneBlockResponse, hentry, Option.getD_some]
  simp only [List.length_append, List.length_cons, beBytes_length]
  omega

theorem decode_oneBlockResponse (k : Nat) :
    wireDecodeBlocksResponse (oneBlockResponse k) = .ok [tipAt (k + 1)] := by
  rcases tipAt_entry k with ⟨enc, hentry, _⟩
  refine wireDecodeBlocksResponse_ok_iff.mpr ⟨?_, _, ?_, rfl⟩
  · rw [List.length_singleton]
    decide
  rw [hentry, Option.getD_some]
  exact writeAll_cons_iff.mpr ⟨_, [], hentry, rfl, (List.append_nil _).symm⟩

theorem pull_steadyPeer (k : Nat) (startHeight h : UInt64) :
    pullBlocksFromPeer "peer" (steadyPeer.connection k) startHeight genesis h =
      .ok ([tipAt (k + 1)], UInt64.ofNat (oneBlockResponse k).length) := by
  have hfits : (oneBlockResponse k).length ≤ maxWireFrameBytes := by
    have := oneBlockResponse_length k
    unfold maxWireFrameBytes
    omega
  exact pull_of_answer encode_peerAck rfl rfl rfl hfits (decode_oneBlockResponse k) startHeight h

/-- The node has taken the first `k` blocks of the peer. -/
structure Following (k : Nat) (n : NodeInner) : Prop where
  genesis : n.genesis = Sample.genesis
  tip : n.chain.blocks.getLast? = some (tipAt k)
  policy : n.chain.consensus = .default
  usable : n.store.poisoned = false

theorem Following.persist {k : Nat} {n : NodeInner} (h : Following k n) (hk : k + 1 < 2 ^ 64)
    (nowUnix : UInt64) :
    ∃ n', n.appendNetworkBlockPersist (tipAt (k + 1)) nowUnix .succeeds = some (.ok (), n') ∧
      Following (k + 1) n' := by
  rcases tipAt_encodes k with ⟨enc, henc, hsize⟩
  have happ : n.chain.tryAppendNetworkBlock (tipAt (k + 1)) nowUnix =
      (.ok (), { n.chain with blocks := n.chain.blocks ++ [tipAt (k + 1)] }) := by
    rw [Blockchain.tryAppendNetworkBlock_default h.policy]
    exact Blockchain.appendBlock_of_follows h.tip (tipAt_follows hk) h.policy rfl
  have hstore := BlockStore.appendBlock_succeeds h.usable henc (by unfold maxFrameBytes; omega)
  have hkept : (n.store.written enc).poisoned = false := by
    rw [BlockStore.written_poisoned, h.usable]
  exact ⟨_, persist_of_ok h.usable happ List.getLast?_concat hstore, h.genesis,
    List.getLast?_concat, h.policy, hkept⟩

/-- The rounds go on until they are used up. -/
theorem syncRounds_steadyPeer (left : Nat) {k : Nat} {n : NodeInner} (wire : UInt64)
    (h : Following k n) (hk : k + left ≤ 8192) (hwire : wire.toNat ≤ 170 * k) :
    ∃ n', NodeInner.syncRounds "peer" .default steadyPeer left k n k wire =
      some (n', k + left, .ok true) ∧ n'.store.poisoned = false := by
  induction left generalizing k n wire with
  | zero => exact ⟨n, rfl, h.usable⟩
  | succ left ih =>
      have hlen := oneBlockResponse_length k
      rcases h.persist (by omega) 0 with ⟨n', hpersist, h'⟩
      have hbytes : (UInt64.ofNat (oneBlockResponse k).length).toNat =
          (oneBlockResponse k).length := by
        rw [UInt64.toNat_ofNat', Nat.mod_eq_of_lt (by omega)]
      have hsum : (saturatingAdd wire (UInt64.ofNat (oneBlockResponse k).length)).toNat ≤
          170 * (k + 1) := by
        rw [saturatingAdd_toNat, hbytes]
        omega
      -- Neither the bytes nor the blocks use up their budgets before the rounds do.
      have hmax : SyncWorkBudget.default.maxWireBytesPerCall.toNat = 536870912 := by decide
      have hblocks : SyncWorkBudget.default.maxBlocksPerCall.toNat = 500000 := by decide
      have hpull := pull_steadyPeer k (saturatingSucc n.chain.height) n.chain.height
      rw [← h.genesis] at hpull
      rw [syncRounds_single (by omega) (UInt64.lt_iff_toNat_lt.mpr (by omega))
        (UInt64.le_iff_toNat_le.mpr (by omega)) hpull h.tip (tipAt_follows (by omega)) hpersist]
      rcases ih _ h' (by omega) hsum with ⟨n'', hrun, husable⟩
      exact ⟨n'', by rw [hrun]; congr 3; omega, husable⟩

theorem following_newNode : Following 0 newNode :=
  ⟨rfl, rfl, rfl, rfl⟩

/-- The call ends because its rounds are used up, and the peer has more. -/
theorem syncFromPeer_steadyPeer :
    ∃ n', syncFromPeer newNode "peer" steadyPeer = some (.ok ⟨8192, true⟩, n') ∧
      n'.store.poisoned = false := by
  rcases syncRounds_steadyPeer 8192 0 following_newNode (by omega) (by decide) with
    ⟨n', hrun, husable⟩
  have hrounds : SyncWorkBudget.default.maxRoundsPerCall.toNat = 8192 := by decide
  have hbudget : validateSyncWorkBudget .default = .ok () := by decide
  refine ⟨n'.mempoolHygieneAfterLedgerAdvance.2, ?_, husable⟩
  rw [syncFromPeer, NodeInner.syncFromPeerWithClock, if_neg (by decide), hbudget, hrounds]
  simp only [hrun, Option.bind_eq_bind, Option.bind_some]
  rfl

/-- A run with that peer seals after the first round, although the peer was
    not at its end. -/
theorem cmdRun_steadyPeer :
    ∃ out, cmdRun syncFromPeer ["peer"] newNode (fun _ => steadyPeer) (.ok ()) [quiet] =
      some ([.catchUp [("peer", .ok ⟨8192, true⟩)], .sealAttempt], out) := by
  rcases syncFromPeer_steadyPeer with ⟨n, hsync, husable⟩
  -- The node agrees with its file after the call, so the seal does not panic.
  rcases syncFromPeer_keeps genesis newNode "peer" steadyPeer started_newNode.agrees with
    ⟨r, n', hr, hagrees⟩
  rw [hsync, Option.some.injEq, Prod.mk.injEq] at hr
  rw [← hr.2] at hagrees
  rcases sealAndFollow_agrees (syncFromPeer_keeps genesis) hagrees ["peer"] true quiet with
    ⟨out, hout, _⟩
  -- A round that was stopped by the budget counts as one that went well.
  have hround : catchUpRound syncFromPeer newNode ["peer"] (fun _ => steadyPeer) =
      some ([("peer", .ok ⟨8192, true⟩)], n) := by
    simp only [catchUpRound, hsync, Option.bind_eq_bind, Option.bind_some]
  have hopens : allOk [("peer", .ok ⟨8192, true⟩)] = true := rfl
  have hinterval : runInterval syncFromPeer ["peer"] { node := n, sealingAllowed := true } quiet =
      some ([.sealAttempt], out) := by
    have hnone : receiveAll n quiet.arrivals = some n := rfl
    have hskip : retryRound syncFromPeer ["peer"] { n with pool := quiet.drained n.pool } true
        quiet.round = some ([], true, n) := rfl
    simp only [runInterval, hnone, husable, hskip, hout, Bool.false_eq_true, if_false, if_true,
      Option.bind_eq_bind, Option.bind_some, List.nil_append]
  refine ⟨out, ?_⟩
  simp only [cmdRun, startRun, if_neg (List.cons_ne_nil "peer" []), hround, hopens, Except.map,
    runIntervals, hinterval, Option.bind_eq_bind, Option.bind_some]
  cases out with
  | error e => rfl
  | ok s => rfl

/-- The gate opens after a call that was stopped by its budget. -/
theorem seals_before_catchUp :
    ∃ log out, cmdRun syncFromPeer ["peer"] newNode (fun _ => steadyPeer) (.ok ()) [quiet] =
      some (log, out) ∧ ¬SealsAfterCatchUp ["peer"] log := by
  rcases cmdRun_steadyPeer with ⟨out, hrun⟩
  refine ⟨_, out, hrun, ?_⟩
  intro h
  rcases h [.catchUp [("peer", .ok ⟨8192, true⟩)]] [] rfl with ⟨results, hmem, _, hcomplete⟩
  rw [List.mem_singleton, RunRecord.catchUp.injEq] at hmem
  rcases hcomplete _ (hmem ▸ List.mem_singleton_self _) with ⟨k, hk⟩
  simp only [Except.ok.injEq, SyncFromPeerOutcome.mk.injEq, Bool.true_eq_false, and_false] at hk

end Sample

end Trilogicon
