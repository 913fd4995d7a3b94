import Trilogicon.Core.PendingTxFile
import Trilogicon.Theory.Chain
import Trilogicon.Theory.Pool

/-!
# Nothing Is Lost in the Queue

Any number of `send` append to the queue while one `run` drains it, and the pool
that the drains fill changes in between. The lock makes each append and each
drain one step, so an interleaving is a list of steps.

A transaction leaves the file in one way only: a drain consumes it. So what was
consumed, followed by what the file still holds, is always what was appended, in
the same order. `QueueState.Conserves` is that invariant, stated on the bytes:
the file is the frames of the appended transactions from some position on. A
drain reads them, moves the position, and writes the rest back byte for byte.

A drain that fails is as if it had not been tried, on every platform where one
call replaces the file. On Windows it may take three, and if the last of them
fails the file is gone; that is the one exception, and `PublishIo.Torn` says
which calls make it.

Consuming is not losing: a consumed transaction was queued in the pool, or the
pool held it already, and a drain takes nothing out of the pool.

## Main definitions

* `PublishIo.Torn`: The calls by which the file is lost.
* `consumedBy`: The transactions a drain takes out of the file.
* `QueueEvent`: A step of one of the processes.
* `QueueState.run`: An interleaving.
* `QueueState.Conserves`: Consumed and left is all that was appended.

## Theorems

* `drainLoop_holds`: What a drain does to the pool.
* `Conserves.step`: One step keeps the invariant.
* `drainPendingFile_cases`: A drain that fails changes nothing.
* `failed_drain_keeps_iff`: When a drain that fails, by any of its calls, changes nothing.
* `pending_conserved`: The queue over every interleaving.
-/

namespace Trilogicon

/-! ### Replacing the file -/

/-- The calls by which Windows loses the file: the second file is ready and
    cannot be moved over the first, the first is removed, and the second cannot
    be moved even then. -/
structure PublishIo.Torn (calls : PublishIo) (platform : Platform) : Prop where
  windows : platform = .windows
  create : calls.create = none
  write : calls.write = .complete
  opened : calls.opened = none
  sync : calls.sync = none
  rename : calls.rename ≠ none
  remove : calls.remove = none
  renameAgain : calls.renameAgain ≠ none

theorem PendingDir.rename_error (dir : PendingDir) {outcome : Option IoError}
    (h : outcome ≠ none) : ∃ e, dir.rename outcome = (.error e, dir) := by
  cases outcome with
  | none => exact absurd rfl h
  | some e => exact ⟨e, rfl⟩

/-- The file is gone, and what should replace it is not in its place. -/
theorem PublishIo.Torn.writePendingAtomic {calls : PublishIo} {platform : Platform}
    (h : calls.Torn platform) (data : Bytes) (tmp : Option Bytes) (payload : Bytes) :
    ∃ e, writePendingAtomic platform ⟨some data, tmp⟩ payload calls =
      (.error e, ⟨none, some payload⟩) := by
  rcases PendingDir.rename_error ⟨some data, some payload⟩ h.rename with ⟨e₁, h₁⟩
  rcases PendingDir.rename_error ⟨none, some payload⟩ h.renameAgain with ⟨e₂, h₂⟩
  refine ⟨e₂, ?_⟩
  simp only [Trilogicon.writePendingAtomic, h.windows, h.create, h.write, h.opened, h.sync,
    renameReplacePendingFile, h₁, Option.isSome_some, if_true, h.remove, h₂]

/-- Moving the second file over the first, if the first is not left removed. -/
theorem renameReplacePendingFile_whole {calls : PublishIo} {platform : Platform}
    (h : platform = .windows → calls.rename ≠ none → calls.remove = none →
      calls.renameAgain = none) (data : Bytes) :
    (∀ payload, renameReplacePendingFile platform ⟨some data, some payload⟩ calls =
      (.ok (), ⟨some payload, none⟩)) ∨
    ∃ e, ∀ payload, renameReplacePendingFile platform ⟨some data, some payload⟩ calls =
      (.error e, ⟨some data, some payload⟩) := by
  -- If the first move works, the platforms do not differ.
  cases hrename : calls.rename with
  | none =>
      refine Or.inl fun payload => ?_
      cases platform with
      | unix => simp only [renameReplacePendingFile, hrename, PendingDir.rename]
      | windows => simp only [renameReplacePendingFile, hrename, PendingDir.rename]
      | other => simp only [renameReplacePendingFile, hrename, PendingDir.rename]
  | some e =>
      cases platform with
      | unix =>
          refine Or.inr ⟨e, fun payload => ?_⟩
          simp only [renameReplacePendingFile, hrename, PendingDir.rename]
      | other =>
          refine Or.inr ⟨e, fun payload => ?_⟩
          simp only [renameReplacePendingFile, hrename, PendingDir.rename]
      | windows =>
          cases hremove : calls.remove with
          | some e' =>
              refine Or.inr ⟨e', fun payload => ?_⟩
              simp only [renameReplacePendingFile, hrename, PendingDir.rename, hremove,
                Option.isSome_some, if_true]
          | none =>
              -- The first file is gone, so the second move must have worked.
              have hagain := h rfl (by rw [hrename]; exact nofun) hremove
              refine Or.inl fun payload => ?_
              simp only [renameReplacePendingFile, hrename, PendingDir.rename, hremove,
                Option.isSome_some, if_true, hagain]

/-- Otherwise the replacement is one call: it fails and leaves the file, or puts
    the payload in its place. -/
theorem writePendingAtomic_whole {calls : PublishIo} {platform : Platform}
    (h : ¬ calls.Torn platform) (data : Bytes) (tmp : Option Bytes) :
    (∀ payload, ∃ tmp', writePendingAtomic platform ⟨some data, tmp⟩ payload calls =
      (.ok (), ⟨some payload, tmp'⟩)) ∨
    ∃ e, ∀ payload, ∃ tmp', writePendingAtomic platform ⟨some data, tmp⟩ payload calls =
      (.error e, ⟨some data, tmp'⟩) := by
  -- The calls in their order; what failed before the move leaves the queue alone.
  cases hcreate : calls.create with
  | some e => exact Or.inr ⟨e, fun payload => ⟨tmp, by simp only [writePendingAtomic, hcreate]⟩⟩
  | none =>
  cases hwrite : calls.write with
  | fails n e =>
      exact Or.inr ⟨e, fun payload => ⟨some (payload.take n),
        by simp only [writePendingAtomic, hcreate, hwrite]⟩⟩
  | complete =>
  cases hopened : calls.opened with
  | some e =>
      exact Or.inr ⟨e, fun payload => ⟨some payload,
        by simp only [writePendingAtomic, hcreate, hwrite, hopened]⟩⟩
  | none =>
  cases hsync : calls.sync with
  | some e =>
      exact Or.inr ⟨e, fun payload => ⟨some payload,
        by simp only [writePendingAtomic, hcreate, hwrite, hopened, hsync]⟩⟩
  | none =>
  -- The second file is ready, so only the move is left.
  have hready : ∀ payload, writePendingAtomic platform ⟨some data, tmp⟩ payload calls =
      renameReplacePendingFile platform ⟨some data, some payload⟩ calls := by
    intro payload
    simp only [writePendingAtomic, hcreate, hwrite, hopened, hsync]
  have hmove : platform = .windows → calls.rename ≠ none → calls.remove = none →
      calls.renameAgain = none := by
    intro hwindows hrename hremove
    by_contra hagain
    exact h ⟨hwindows, hcreate, hwrite, hopened, hsync, hrename, hremove, hagain⟩
  rcases renameReplacePendingFile_whole hmove data with hok | ⟨e, herror⟩
  · exact Or.inl fun payload => ⟨none, (hready payload).trans (hok payload)⟩
  · exact Or.inr ⟨e, fun payload => ⟨some payload, (hready payload).trans (herror payload)⟩⟩

section Queue

variable [Primitives]

/-- The transactions that a drain takes out of the file. -/
def consumedBy (file : Option Bytes) (pool : Mempool) : List Transaction :=
  match file.map parsePendingFileBytes with
  | some (.ok txs) => txs.take (drainLoop pool txs).1
  | _ => []

/-- A drain keeps what the pool holds, and ends with the pool holding what it
    consumed. -/
theorem drainLoop_holds (pool : Mempool) (txs : List Transaction) :
    (∀ h tx, pool.txs.lookup h = some tx → (drainLoop pool txs).2.txs.lookup h = some tx) ∧
      ∀ tx ∈ txs.take (drainLoop pool txs).1, tx.txHash ∈ (drainLoop pool txs).2.txs := by
  induction txs generalizing pool with
  | nil =>
      refine ⟨fun h tx hl => hl, ?_⟩
      intro tx htx
      rw [List.take_nil] at htx
      exact absurd htx List.not_mem_nil
  | cons tx txs ih =>
      -- Once the first is held, the induction hypothesis covers the rest.
      have hcons : ∀ pool' : Mempool,
          (∀ h old, pool.txs.lookup h = some old → pool'.txs.lookup h = some old) →
          tx.txHash ∈ pool'.txs →
          (∀ h old, pool.txs.lookup h = some old →
            (drainLoop pool' txs).2.txs.lookup h = some old) ∧
          ∀ old ∈ (tx :: txs).take ((drainLoop pool' txs).1 + 1),
            old.txHash ∈ (drainLoop pool' txs).2.txs := by
        intro pool' hkeep hheld
        rcases ih pool' with ⟨hrest, htaken⟩
        refine ⟨fun h old hl => hrest h old (hkeep h old hl), ?_⟩
        intro old hold
        rw [List.take_succ_cons, List.mem_cons] at hold
        rcases hold with heq | hin
        · rcases Finmap.mem_iff.mp hheld with ⟨held, hl⟩
          rw [heq]
          exact Finmap.mem_of_lookup_eq_some (hrest _ _ hl)
        · exact htaken old hin
      rcases pool.trySubmitPendingDrain_cases tx with ⟨e, heq, hdup⟩ | ⟨_, hnew, _, _, heq⟩
      · by_cases he : e = .duplicateTransaction
        · rw [he] at heq
          simp only [drainLoop, heq]
          exact hcons pool (fun _ _ hl => hl) (hdup he)
        · -- The drain stops here and has consumed nothing.
          have hstop : drainLoop pool (tx :: txs) = (0, pool) := by
            simp only [drainLoop, heq]
          rw [hstop]
          refine ⟨fun _ _ hl => hl, ?_⟩
          intro old hold
          rw [List.take_zero] at hold
          exact absurd hold List.not_mem_nil
      · simp only [drainLoop, heq]
        refine hcons (pool.push tx) ?_ ?_
        · intro h old hl
          have hne : h ≠ tx.txHash := fun hc => hnew (hc ▸ Finmap.mem_of_lookup_eq_some hl)
          rw [Mempool.lookup_push, if_neg hne, hl]
        · exact Finmap.mem_insert.mpr (Or.inl rfl)

theorem drainLoop_capacity (pool : Mempool) (txs : List Transaction) :
    (drainLoop pool txs).2.capacity = pool.capacity := by
  induction txs generalizing pool with
  | nil => rfl
  | cons tx txs ih =>
      -- A submission of the drain evicts nothing, so the three outcomes are alike.
      have hsubmit : (pool.trySubmitPendingDrain tx).2.capacity = pool.capacity := by
        rcases pool.trySubmitPendingDrain_cases tx with ⟨e, heq, _⟩ | ⟨_, _, _, _, heq⟩
        · rw [heq]
        · rw [heq]
          rfl
      rw [drainLoop]
      split
      · rename_i heq
        rw [heq] at hsubmit
        exact (ih _).trans hsubmit
      · rename_i heq
        rw [heq] at hsubmit
        exact (ih _).trans hsubmit
      · rename_i heq
        rw [heq] at hsubmit
        exact hsubmit

/-- The copy that was made before a drain brings the pool back. -/
theorem Mempool.Sound.restoreFifo_drainLoop {pool : Mempool} (hpool : pool.Sound)
    (txs : List Transaction) : (drainLoop pool txs).2.restoreFifo pool.cloneFifo = pool := by
  rw [Mempool.restoreFifo, drainLoop_capacity]
  exact hpool.restoreFifo_cloneFifo

/-- A drain returns; if it fails, whichever of its calls did, it leaves the file
    and a sound pool as they were: the pool is restored from the copy. -/
theorem drainPendingFile_cases (file : Option Bytes) {pool : Mempool} (hpool : pool.Sound)
    (calls : PendingDrainIo) :
    (∃ file' pool', drainPendingFile file pool calls = some (.ok (), file', pool')) ∨
      ∃ e, drainPendingFile file pool calls = some (.error e, file, pool) := by
  cases file with
  | none => exact Or.inl ⟨none, pool, rfl⟩
  | some data =>
  cases hread : calls.read with
  | some e => exact Or.inr ⟨e, by simp only [drainPendingFile, hread]⟩
  | none =>
  cases hparse : parsePendingFileBytes data with
  | error e => exact Or.inr ⟨e, by simp only [drainPendingFile, hread, hparse]⟩
  | ok txs =>
      -- The remainder always encodes, so only the rewrite can fail.
      rcases writeAll_drop_of_parse hparse (drainLoop pool txs).1 with ⟨left, hleft⟩
      have hencoded := encodePendingPayload_of_writeAll hleft
      cases hpublish : calls.publish with
      | none =>
          left
          cases txs with
          | nil => exact ⟨some [], pool, by simp only [drainPendingFile, hread, hparse, hpublish]⟩
          | cons tx txs =>
              exact ⟨some left, (drainLoop pool (tx :: txs)).2, by
                simp only [drainPendingFile, hread, hparse, hencoded, hpublish]⟩
      | some e =>
          refine Or.inr ⟨e, ?_⟩
          cases txs with
          | nil =>
              simp only [drainPendingFile, hread, hparse, hpublish, hpool.restoreFifo_cloneFifo]
          | cons tx txs =>
              simp only [drainPendingFile, hread, hparse, hencoded, hpublish,
                hpool.restoreFifo_drainLoop]

/-! ### A drain, call by call -/

/-- With the lock held and unless the file is lost, the replacement is one call:
    the drain does what the drain with one call does. -/
theorem drainPendingFileOn_whole {platform : Platform} {calls : PendingDrainCalls}
    (hlock : calls.lock = none) (h : ¬ calls.publish.Torn platform) (lockPath : String)
    (dir : PendingDir) (pool : Mempool) :
    ∃ io tmp, drainPendingFileOn platform lockPath dir pool calls =
      (drainPendingFile dir.queue pool io).map fun r => (r.1, ⟨r.2.1, tmp⟩, r.2.2) := by
  rcases dir with ⟨queue, tmp⟩
  cases queue with
  | none => exact ⟨.succeeds, tmp, by simp only [drainPendingFileOn, hlock, drainPendingFile,
      Option.map_some]⟩
  | some data =>
  cases hread : calls.read with
  | some e =>
      exact ⟨⟨some e.msg, none⟩, tmp, by simp only [drainPendingFileOn, hlock, hread,
        drainPendingFile, Option.map_some]⟩
  | none =>
  cases hparse : parsePendingFileBytes data with
  | error e =>
      exact ⟨.succeeds, tmp, by simp only [drainPendingFileOn, hlock, hread, hparse,
        drainPendingFile, PendingDrainIo.succeeds, Option.map_some]⟩
  | ok txs =>
      -- The remainder always encodes; it is what the second file gets.
      rcases writeAll_drop_of_parse hparse (drainLoop pool txs).1 with ⟨left, hleft⟩
      have hencoded := encodePendingPayload_of_writeAll hleft
      rcases writePendingAtomic_whole h data tmp with hok | ⟨e, herror⟩
      · cases txs with
        | nil =>
            rcases hok [] with ⟨tmp', heq⟩
            exact ⟨.succeeds, tmp', by simp only [drainPendingFileOn, hlock, hread, hparse, heq,
              drainPendingFile, PendingDrainIo.succeeds, Option.map_some]⟩
        | cons tx txs =>
            rcases hok left with ⟨tmp', heq⟩
            exact ⟨.succeeds, tmp', by simp only [drainPendingFileOn, hlock, hread, hparse,
              hencoded, heq, drainPendingFile, PendingDrainIo.succeeds, Option.map_some]⟩
      · cases txs with
        | nil =>
            rcases herror [] with ⟨tmp', heq⟩
            exact ⟨⟨none, some e.msg⟩, tmp', by simp only [drainPendingFileOn, hlock, hread, hparse,
              heq, drainPendingFile, Option.map_some]⟩
        | cons tx txs =>
            rcases herror left with ⟨tmp', heq⟩
            exact ⟨⟨none, some e.msg⟩, tmp', by simp only [drainPendingFileOn, hlock, hread, hparse,
              hencoded, heq, drainPendingFile, Option.map_some]⟩

/-- A drain of a file that can be read, when the file is lost: the pool is
    restored, and only the remainder is left, under another name. -/
theorem drainPendingFileOn_torn {platform : Platform} {calls : PendingDrainCalls}
    (hlock : calls.lock = none) (hread : calls.read = none) (h : calls.publish.Torn platform)
    (lockPath : String) {data : Bytes} {txs : List Transaction}
    (hparse : parsePendingFileBytes data = .ok txs) (tmp : Option Bytes) {pool : Mempool}
    (hpool : pool.Sound) :
    ∃ e left, writeAll encodePendingFrame (txs.drop (drainLoop pool txs).1) = some left ∧
      drainPendingFileOn platform lockPath ⟨some data, tmp⟩ pool calls =
        some (.error e, ⟨none, some left⟩, pool) := by
  rcases writeAll_drop_of_parse hparse (drainLoop pool txs).1 with ⟨left, hleft⟩
  have hencoded := encodePendingPayload_of_writeAll hleft
  rcases h.writePendingAtomic data tmp left with ⟨e, heq⟩
  refine ⟨e.msg, left, hleft, ?_⟩
  cases txs with
  | nil =>
      rw [List.drop_nil, writeAll, Option.some.injEq] at hleft
      rw [← hleft] at heq ⊢
      simp only [drainPendingFileOn, hlock, hread, hparse, heq, hpool.restoreFifo_cloneFifo]
  | cons tx txs =>
      simp only [drainPendingFileOn, hlock, hread, hparse, hencoded, heq,
        hpool.restoreFifo_drainLoop]

/-- The lock and the content are there, the content can be read, and the
    replacement loses the file. -/
structure PendingDrainCalls.Lose (calls : PendingDrainCalls) (platform : Platform)
    (dir : PendingDir) : Prop where
  lock : calls.lock = none
  read : calls.read = none
  publish : calls.publish.Torn platform
  parses : ∃ data txs, dir.queue = some data ∧ parsePendingFileBytes data = .ok txs

/-- A drain loses the file, returns, or fails without a change. -/
theorem drainPendingFileOn_cases (platform : Platform) (lockPath : String) (dir : PendingDir)
    {pool : Mempool} (hpool : pool.Sound) (calls : PendingDrainCalls) :
    (calls.Lose platform dir ∧ ∃ e left, drainPendingFileOn platform lockPath dir pool calls =
      some (.error e, ⟨none, some left⟩, pool)) ∨
    ¬ calls.Lose platform dir ∧
      ((∃ dir' pool', drainPendingFileOn platform lockPath dir pool calls =
        some (.ok (), dir', pool')) ∨
      ∃ e tmp, drainPendingFileOn platform lockPath dir pool calls =
        some (.error e, ⟨dir.queue, tmp⟩, pool)) := by
  -- The refusals in their order: the lock, no file, the read, the content.
  cases hlock : calls.lock with
  | some e =>
      refine Or.inr ⟨fun h => ?_, Or.inr ⟨pfxPending ++
        " fail-closed: could not acquire queue lock " ++ lockPath ++ " — " ++ e.msg, dir.tmp, by
          simp only [drainPendingFileOn, hlock]⟩⟩
      rw [h.lock] at hlock
      exact absurd hlock (by simp only [reduceCtorEq, not_false_eq_true])
  | none =>
  rcases dir with ⟨_ | data, tmp⟩
  · refine Or.inr ⟨fun h => ?_, Or.inl ⟨⟨none, tmp⟩, pool, by
      simp only [drainPendingFileOn, hlock]⟩⟩
    rcases h.parses with ⟨data, txs, hqueue, _⟩
    exact absurd hqueue (by simp only [reduceCtorEq, not_false_eq_true])
  cases hread : calls.read with
  | some e =>
      refine Or.inr ⟨fun h => ?_, Or.inr ⟨e.msg, tmp, by
        simp only [drainPendingFileOn, hlock, hread]⟩⟩
      rw [h.read] at hread
      exact absurd hread (by simp only [reduceCtorEq, not_false_eq_true])
  | none =>
  cases hparse : parsePendingFileBytes data with
  | error e =>
      refine Or.inr ⟨fun h => ?_, Or.inr ⟨e, tmp, by
        simp only [drainPendingFileOn, hlock, hread, hparse]⟩⟩
      rcases h.parses with ⟨data', txs, hqueue, hparse'⟩
      rw [Option.some.injEq] at hqueue
      rw [← hqueue, hparse] at hparse'
      exact absurd hparse' (by simp only [reduceCtorEq, not_false_eq_true])
  | ok txs =>
      -- The content could be read, so the queue is only lost in the move.
      by_cases htorn : calls.publish.Torn platform
      · rcases drainPendingFileOn_torn hlock hread htorn lockPath hparse tmp hpool with
          ⟨e, left, _, heq⟩
        exact Or.inl ⟨⟨hlock, hread, htorn, data, txs, rfl, hparse⟩, e, left, heq⟩
      · refine Or.inr ⟨fun h => htorn h.publish, ?_⟩
        rcases drainPendingFileOn_whole hlock htorn lockPath ⟨some data, tmp⟩ pool with
          ⟨io, tmp', heq⟩
        rw [heq]
        rcases drainPendingFile_cases (some data) hpool io with ⟨file', pool', hok⟩ | ⟨e, herror⟩
        · exact Or.inl ⟨⟨file', tmp'⟩, pool', by rw [hok, Option.map_some]⟩
        · exact Or.inr ⟨e, tmp', by rw [herror, Option.map_some]⟩

/-- A drain always returns. If it reports an error, the pool is what it was; and
    the file is what it was for every outcome of the calls, except when Windows
    loses the file, after a content that could be read. -/
theorem failed_drain_keeps_iff (platform : Platform) (lockPath : String) (dir : PendingDir)
    (pool : Mempool) (hpool : pool.Reached) (calls : PendingDrainCalls) :
    ((∀ e dir' pool', drainPendingFileOn platform lockPath dir pool calls =
        some (.error e, dir', pool') → dir'.queue = dir.queue ∧ pool' = pool) ↔
      ¬ calls.Lose platform dir) ∧
    (∃ r, drainPendingFileOn platform lockPath dir pool calls = some r) ∧
    ∀ e dir' pool', drainPendingFileOn platform lockPath dir pool calls =
      some (.error e, dir', pool') →
      pool' = pool ∧ (dir'.queue = dir.queue ∨ calls.Lose platform dir ∧ dir'.queue = none) := by
  rcases drainPendingFileOn_cases platform lockPath dir hpool.sound calls with
    ⟨hlose, e, left, heq⟩ | ⟨hkeep, ⟨dir', pool', heq⟩ | ⟨e, tmp, heq⟩⟩
  · -- There was a file with a content, and there is none now.
    have hlost : (⟨none, some left⟩ : PendingDir).queue ≠ dir.queue := by
      rcases hlose.parses with ⟨data, txs, hqueue, _⟩
      rw [hqueue]
      exact nofun
    refine ⟨⟨fun h => absurd (h _ _ _ heq).1 hlost, fun h => absurd hlose h⟩, ⟨_, heq⟩, ?_⟩
    intro e' dir' pool' h
    rw [heq, Option.some.injEq, Prod.mk.injEq, Prod.mk.injEq] at h
    rw [← h.2.1, ← h.2.2]
    exact ⟨rfl, Or.inr ⟨hlose, rfl⟩⟩
  · -- A drain that succeeded reports no error.
    refine ⟨⟨fun _ => hkeep, fun _ e₁ dir₁ pool₁ h => ?_⟩, ⟨_, heq⟩, fun e₁ dir₁ pool₁ h => ?_⟩
    · rw [heq, Option.some.injEq, Prod.mk.injEq] at h
      exact absurd h.1 (by simp only [reduceCtorEq, not_false_eq_true])
    · rw [heq, Option.some.injEq, Prod.mk.injEq] at h
      exact absurd h.1 (by simp only [reduceCtorEq, not_false_eq_true])
  · have hsame : ∀ e₁ dir₁ pool₁, drainPendingFileOn platform lockPath dir pool calls =
        some (.error e₁, dir₁, pool₁) → dir₁.queue = dir.queue ∧ pool₁ = pool := by
      intro e₁ dir₁ pool₁ h
      rw [heq, Option.some.injEq, Prod.mk.injEq, Prod.mk.injEq] at h
      rw [← h.2.1, ← h.2.2]
      exact ⟨rfl, rfl⟩
    refine ⟨⟨fun _ => hkeep, fun _ => hsame⟩, ⟨_, heq⟩, ?_⟩
    intro e₁ dir₁ pool₁ h
    exact ⟨(hsame e₁ dir₁ pool₁ h).2, Or.inl (hsame e₁ dir₁ pool₁ h).1⟩

/-! ### Interleavings -/

/-- A step of one of the processes: a `send` appends, `run` drains, or something
    else happens to the pool of `run`. -/
inductive QueueEvent where
  | append (tx : Transaction)
  | drain
  | pool (m : Mempool)

/-- The transaction that a step appends. -/
def QueueEvent.appended : QueueEvent → Option Transaction
  | .append tx => some tx
  | .drain => none
  | .pool _ => none

/-- The file, the pool, and all that drains have consumed so far. -/
structure QueueState where
  file : Option Bytes
  pool : Mempool
  consumed : List Transaction

namespace QueueState

/-- Before the first append there is no file. -/
def start (pool : Mempool) : QueueState :=
  { file := none, pool := pool, consumed := [] }

/-- One step; `none` if the call panics or reports an error. -/
def step (q : QueueState) : QueueEvent → Option QueueState
  | .append tx =>
      match appendPendingTransaction q.file tx .succeeds with
      | some (.ok (), file') => some { q with file := file' }
      | _ => none
  | .drain =>
      match drainPendingFile q.file q.pool .succeeds with
      | some (.ok (), file', pool') =>
          some { file := file', pool := pool',
                 consumed := q.consumed ++ consumedBy q.file q.pool }
      | _ => none
  | .pool m => some { q with pool := m }

/-- An interleaving of steps. -/
def run (q : QueueState) : List QueueEvent → Option QueueState
  | [] => some q
  | e :: es =>
      match q.step e with
      | none => none
      | some q' => q'.run es

/-- The file holds what was appended and not consumed. -/
def Conserves (q : QueueState) (appended : List Transaction) : Prop :=
  ∃ left, q.consumed ++ left = appended ∧
    writeAll encodePendingFrame left = some (q.file.getD [])

/-- A drain of a queue in order: it returns, and what it consumed is what was
    appended next. -/
theorem Conserves.drain {q : QueueState} {appended : List Transaction}
    (h : q.Conserves appended) :
    ∃ file' pool', drainPendingFile q.file q.pool .succeeds = some (.ok (), file', pool') ∧
      Conserves ⟨file', pool', q.consumed ++ consumedBy q.file q.pool⟩ appended ∧
      (∀ tx ∈ consumedBy q.file q.pool, tx.txHash ∈ pool'.txs) ∧
      ∀ k tx, q.pool.txs.lookup k = some tx → pool'.txs.lookup k = some tx := by
  rcases h with ⟨left, happ, hleft⟩
  cases hfile : q.file with
  | none =>
      -- Nothing was appended yet, so there is nothing to drain.
      rw [hfile] at hleft
      refine ⟨none, q.pool, rfl, ⟨left, ?_, hleft⟩, ?_, fun _ _ hl => hl⟩
      · change q.consumed ++ [] ++ left = appended
        rw [List.append_nil, happ]
      · intro tx htx
        exact absurd htx List.not_mem_nil
  | some data =>
      rw [hfile] at hleft
      have hparse := parsePendingFileBytes_ok_iff.mpr hleft
      change parsePendingFileBytes data = .ok left at hparse
      have hconsumed : consumedBy (some data) q.pool = left.take (drainLoop q.pool left).1 := by
        simp only [consumedBy, Option.map_some, hparse]
      -- What the loop consumed is cut off at the front, and the rest is written back.
      rcases drainPendingFile_ok hparse q.pool with ⟨left', hleft', hdrain⟩
      rcases drainLoop_holds q.pool left with ⟨hkeep, hheld⟩
      rw [hconsumed]
      refine ⟨some left', _, hdrain, ⟨left.drop (drainLoop q.pool left).1, ?_, hleft'⟩, hheld,
        hkeep⟩
      rw [List.append_assoc, List.take_append_drop, happ]

/-- One step keeps the invariant, and no call fails. -/
theorem Conserves.step {q : QueueState} {appended : List Transaction}
    (h : q.Conserves appended) (e : QueueEvent)
    (hvalid : ∀ tx, e.appended = some tx → tx.basicValidate = .ok ()) :
    ∃ q', q.step e = some q' ∧ q'.Conserves (appended ++ e.appended.toList) := by
  cases e with
  | append tx =>
      rcases h with ⟨left, happ, hleft⟩
      have htx := (Transaction.basicValidate_ok_iff tx).mp (hvalid tx rfl)
      -- The frame of a valid transaction is within the limit, so it is appended.
      rcases htx.pendingFrame with ⟨f, hf⟩
      refine ⟨{ q with file := some (q.file.getD [] ++ f) }, ?_, left ++ [tx], ?_, ?_⟩
      · simp only [QueueState.step, appendPendingTransaction_ok hf]
      · rw [← List.append_assoc, happ]
        rfl
      · exact writeAll_append_iff.mpr ⟨_, f, hleft,
          writeAll_cons_iff.mpr ⟨f, [], hf, rfl, (List.append_nil f).symm⟩, rfl⟩
  | drain =>
      rcases h.drain with ⟨file', pool', hdrain, hcons, _, _⟩
      refine ⟨⟨file', pool', q.consumed ++ consumedBy q.file q.pool⟩,
        by simp only [QueueState.step, hdrain], ?_⟩
      change Conserves _ (appended ++ [])
      rw [List.append_nil]
      exact hcons
  | pool m =>
      rcases h with ⟨left, happ, hleft⟩
      refine ⟨_, rfl, left, ?_, hleft⟩
      change q.consumed ++ left = appended ++ []
      rw [List.append_nil, happ]

/-- An interleaving keeps the invariant, and no call fails. -/
theorem Conserves.run {q : QueueState} {appended : List Transaction}
    (h : q.Conserves appended) (es : List QueueEvent)
    (hvalid : ∀ tx, QueueEvent.append tx ∈ es → tx.basicValidate = .ok ()) :
    ∃ q', q.run es = some q' ∧ q'.Conserves (appended ++ es.filterMap QueueEvent.appended) := by
  induction es generalizing q appended with
  | nil => exact ⟨q, rfl, by rwa [List.filterMap_nil, List.append_nil]⟩
  | cons e es ih =>
      have hfirst : ∀ tx, e.appended = some tx → tx.basicValidate = .ok () := by
        intro tx htx
        cases e with
        | append tx' =>
            rw [QueueEvent.appended, Option.some.injEq] at htx
            exact hvalid tx (htx ▸ List.mem_cons_self)
        | drain => exact absurd htx (by simp only [QueueEvent.appended, reduceCtorEq,
            not_false_eq_true])
        | pool m => exact absurd htx (by simp only [QueueEvent.appended, reduceCtorEq,
            not_false_eq_true])
      rcases h.step e hfirst with ⟨q₁, hstep, hq₁⟩
      rcases ih hq₁ fun tx htx => hvalid tx (List.mem_cons_of_mem _ htx) with ⟨q₂, hrun, hq₂⟩
      refine ⟨q₂, by simp only [QueueState.run, hstep, hrun], ?_⟩
      rw [List.append_assoc] at hq₂
      rw [List.filterMap_cons]
      cases he : e.appended with
      | none => rwa [he] at hq₂
      | some tx => rwa [he] at hq₂

end QueueState

/-- Over every interleaving of appends of valid transactions, drains, and
    changes of the pool: no call fails; what drains consumed, followed by what
    the file holds, is what was appended; and a drain keeps what the pool holds
    and leaves the pool holding what it consumed. -/
theorem pending_conserved (pool : Mempool) (events : List QueueEvent)
    (hvalid : ∀ tx, QueueEvent.append tx ∈ events → tx.basicValidate = .ok ()) :
    ∃ q, (QueueState.start pool).run events = some q ∧
      (∃ left, parsePendingFileBytes (q.file.getD []) = .ok left ∧
        q.consumed ++ left = events.filterMap QueueEvent.appended) ∧
      ∃ file' pool', drainPendingFile q.file q.pool .succeeds = some (.ok (), file', pool') ∧
        (∀ tx ∈ consumedBy q.file q.pool, tx.txHash ∈ pool'.txs) ∧
        ∀ h tx, q.pool.txs.lookup h = some tx → pool'.txs.lookup h = some tx := by
  have hstart : (QueueState.start pool).Conserves [] := ⟨[], rfl, rfl⟩
  rcases hstart.run events hvalid with ⟨q, hrun, hcons⟩
  rw [List.nil_append] at hcons
  rcases hcons.drain with ⟨file', pool', hdrain, _, hheld, hkeep⟩
  rcases hcons with ⟨left, happ, hleft⟩
  exact ⟨q, hrun, ⟨left, parsePendingFileBytes_ok_iff.mpr hleft, happ⟩, file', pool', hdrain,
    hheld, hkeep⟩

end Queue

namespace Sample

/-- A payment is appended, and drained into a pool with room for it. -/
theorem pending_conserved_payment :
    ∃ q, (QueueState.start (Mempool.new 1)).run [.append payment, .drain] = some q ∧
      (∃ left, parsePendingFileBytes (q.file.getD []) = .ok left ∧
        q.consumed ++ left = [payment]) ∧
      ∃ file' pool', drainPendingFile q.file q.pool .succeeds = some (.ok (), file', pool') ∧
        (∀ tx ∈ consumedBy q.file q.pool, tx.txHash ∈ pool'.txs) ∧
        ∀ h tx, q.pool.txs.lookup h = some tx → pool'.txs.lookup h = some tx := by
  refine pending_conserved (Mempool.new 1) [.append payment, .drain] ?_
  intro tx htx
  have heq : tx = payment := by
    simpa only [List.mem_cons, QueueEvent.append.injEq, reduceCtorEq, List.not_mem_nil,
      or_false] using htx
  rw [heq]
  decide +kernel

/-- A queue file with the payment. -/
def queued : Bytes :=
  (encodePendingFrame payment).getD []

/-- Every call succeeds, except that the second file cannot be moved. -/
def stuck : PendingDrainCalls where
  lock := none
  read := none
  publish :=
    { create := none, write := .complete, opened := none, sync := none,
      rename := some (.other "Access is denied. (os error 5)"), remove := none,
      renameAgain := some (.other "Access is denied. (os error 5)") }

theorem torn_stuck : stuck.publish.Torn .windows where
  windows := rfl
  create := rfl
  write := rfl
  opened := rfl
  sync := rfl
  rename := nofun
  remove := rfl
  renameAgain := nofun

theorem parse_queued : parsePendingFileBytes queued = .ok [payment] := by
  decide +kernel

/-- The drain queues the payment, fails to replace the file and restores the
    pool. The payment is then neither in the file, which is gone, nor in the
    pool, nor in the file that was to replace it. -/
theorem drain_loses_payment :
    ∃ e, drainPendingFileOn .windows ".pending_tx.lock" ⟨some queued, none⟩ (Mempool.new 1) stuck =
      some (.error e, ⟨none, some []⟩, Mempool.new 1) := by
  rcases drainPendingFileOn_torn rfl rfl torn_stuck ".pending_tx.lock" parse_queued none
    (Mempool.sound_new 1) with ⟨e, left, hleft, heq⟩
  have hconsumed : (drainLoop (Mempool.new 1) [payment]).1 = 1 := by decide +kernel
  rw [hconsumed, List.drop_one, List.tail_cons, writeAll, Option.some.injEq] at hleft
  rw [← hleft] at heq
  exact ⟨e, heq⟩

/-- On Unix the same failure changes nothing. -/
theorem drain_keeps_payment :
    (Mempool.new 1).Reached ∧ ∀ e dir' pool', drainPendingFileOn .unix ".pending_tx.lock"
      ⟨some queued, none⟩ (Mempool.new 1) stuck = some (.error e, dir', pool') →
        dir'.queue = some queued ∧ pool' = Mempool.new 1 := by
  have hreached : (Mempool.new 1).Reached := ⟨1, [], rfl⟩
  refine ⟨hreached, (failed_drain_keeps_iff .unix ".pending_tx.lock" ⟨some queued, none⟩
    (Mempool.new 1) hreached stuck).1.mpr ?_⟩
  intro hlose
  exact absurd hlose.publish.windows (by simp only [reduceCtorEq, not_false_eq_true])

end Sample

end Trilogicon
