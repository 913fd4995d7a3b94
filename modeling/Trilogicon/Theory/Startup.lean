import Mathlib.Logic.Relation
import Trilogicon.Core.Startup
import Trilogicon.Theory.Payments

/-!
# Starts and Runs in One Data Directory

A data directory outlives the processes that use it. Each of them is started with
arguments and a genesis document of its own, is refused or runs, and stops. What
stays is the file of the chain.

`DirectoryStep` is what one process does to that file, and a history of a directory
is any number of steps. `directory_history` says that a history only adds blocks,
that a run shows the blocks that were there before it, and that the next start with
its document goes on exactly where it stopped, unless a check before the chain
refuses it. A run that ended on a failed write is left out.

## Main definitions

* `ReadsAs`: A file that is read as some blocks, without a repair.
* `DirectoryStep`: What one process does to the file of the chain.

## Theorems

* `startup_cases`: What a start can do.
* `startup_ok`: What a node is that was started.
* `startup_refused`: A refused start leaves the blocks in the file.
* `runEvents_extends`: A run only adds blocks.
* `DirectoryStep.grows`, `DirectoryStep.history_grows`: So do a step and a history.
* `directory_history`: What a run finds and what it leaves.
-/

namespace Trilogicon

section Startup

variable [Primitives]

/-- A file that is read as some blocks, without a repair. -/
def ReadsAs (disk : Option Bytes) (bs : List Block) : Prop :=
  readAllBlocksRepairingTail disk = (.ok (bs, false), disk)

/-- The same blocks are loaded from it, if they can be. -/
theorem ReadsAs.load {disk disk' : Option Bytes} {bs : List Block} (h : ReadsAs disk bs)
    {g : Genesis} {r : Except StorageError (Blockchain × Bool)}
    (hload : loadBlockchainFromDisk disk g = (r, disk')) :
    disk' = disk ∧ ∀ c repaired, r = .ok (c, repaired) → c.blocks = Block.genesis :: bs := by
  have hread := h
  unfold ReadsAs at hread
  constructor
  · -- There is nothing to repair, so whatever comes after reading leaves the file.
    unfold loadBlockchainFromDisk at hload
    simp only [hread] at hload
    rcases hgen : chainFromGenesis g with e | c₀
    · simp only [hgen, Prod.mk.injEq] at hload
      exact hload.2.symm
    · simp only [hgen] at hload
      rcases hreplay : replayAll c₀ bs with e | c
      · simp only [hreplay, Prod.mk.injEq] at hload
        exact hload.2.symm
      · simp only [hreplay, Prod.mk.injEq] at hload
        exact hload.2.symm
  · intro c repaired hr
    rw [hr] at hload
    rcases load_found hload with ⟨bs', hread', hblocks, _⟩
    rw [hread, Prod.mk.injEq, Except.ok.injEq, Prod.mk.injEq] at hread'
    rw [hblocks, hread'.1.1]

omit [Primitives] in
/-- A store that was opened on it has the same blocks. -/
theorem ReadsAs.opened {disk : Option Bytes} {bs : List Block} (h : ReadsAs disk bs)
    {s : BlockStore} (hopen : BlockStore.openAppend disk = .ok s) :
    ReadsAs (some s.file) bs := by
  rcases open_of_read h with ⟨s', hopen', hstores, _⟩
  rw [hopen, Except.ok.injEq] at hopen'
  rw [hopen']
  exact read_of_stores hstores

omit [Primitives] in
theorem Blockchain.withDrift_eq (c : Blockchain) (drift : Option UInt64) :
    ∃ params, c.withDrift drift = { c with consensus := params } := by
  cases drift with
  | none => exact ⟨c.consensus, rfl⟩
  | some d => exact ⟨_, rfl⟩

variable {toml : GenesisToml} {bindParse : BindParser} {paths : CommandPaths} {lockPath : String}
  {drift : Option UInt64} {capacity : Nat} {disk disk' : Option Bytes} {w : StartupWorld}

/-- What a start can do. It is refused before the chain is read, or with the file as
    reading it left it, or after the store was opened; or it returns a node. -/
theorem startup_cases (toml : GenesisToml) (bindParse : BindParser) (paths : CommandPaths)
    (lockPath : String) (drift : Option UInt64) (capacity : Nat) (disk : Option Bytes)
    (w : StartupWorld) :
    (∃ e, startup toml bindParse paths lockPath drift capacity disk w = (.error e, disk)) ∨
    ∃ wallet g r disk₁, startupChecks toml bindParse paths lockPath w = .ok (wallet, g) ∧
      loadBlockchainFromDisk disk g = (r, disk₁) ∧
      ((∃ e, startup toml bindParse paths lockPath drift capacity disk w = (.error e, disk₁)) ∨
        ∃ s, BlockStore.openAppend disk₁ = .ok s ∧
          ((∃ e, startup toml bindParse paths lockPath drift capacity disk w =
              (.error e, some s.file)) ∨
            ∃ c repaired params book, r = .ok (c, repaired) ∧
              startup toml bindParse paths lockPath drift capacity disk w =
                (.ok (⟨g, { c with consensus := params }, .new capacity, s⟩, book),
                  some s.file))) := by
  unfold startup
  rcases hchecks : startupChecks toml bindParse paths lockPath w with e | ⟨wallet, g⟩
  · exact Or.inl ⟨e, rfl⟩
  rcases hload : loadBlockchainFromDisk disk g with ⟨r, disk₁⟩
  refine Or.inr ⟨wallet, g, r, disk₁, rfl, hload, ?_⟩
  rcases r with e | ⟨c, repaired⟩
  · simp only [hload]
    exact Or.inl ⟨_, rfl⟩
  simp only [hload]
  rcases hbound : w.bound with e | _
  · exact Or.inl ⟨e, rfl⟩
  rcases hopen : BlockStore.openAppend disk₁ with e | s
  · exact Or.inl ⟨_, rfl⟩
  -- The store is open, so the file is there from now on.
  refine Or.inr ⟨s, rfl, ?_⟩
  rcases hbook : PeerBook.loadOrEmpty w.book with e | book
  · exact Or.inl ⟨e, rfl⟩
  · rcases c.withDrift_eq drift with ⟨params, hparams⟩
    rw [hparams]
    exact Or.inr ⟨c, repaired, params, book, rfl, rfl⟩

/-- What a node is that was started. -/
theorem startup_ok {n : NodeInner} {book : PeerBook}
    (h : startup toml bindParse paths lockPath drift capacity disk w = (.ok (n, book), disk')) :
    ∃ wallet g, startupChecks toml bindParse paths lockPath w = .ok (wallet, g) ∧
      Started g disk n := by
  have hno : ∀ {e : String} {d : Option Bytes},
      startup toml bindParse paths lockPath drift capacity disk w ≠ (.error e, d) := by
    intro e d hc
    rw [h, Prod.mk.injEq] at hc
    exact absurd hc.1 (by simp only [reduceCtorEq, not_false_eq_true])
  rcases startup_cases toml bindParse paths lockPath drift capacity disk w with
    ⟨e, hc⟩ | ⟨wallet, g, r, disk₁, hchecks, hload, ⟨e, hc⟩ | ⟨s, hopen, ⟨e, hc⟩ |
      ⟨c, repaired, params, book', rfl, hc⟩⟩⟩
  · exact absurd hc hno
  · exact absurd hc hno
  · exact absurd hc hno
  · rw [h, Prod.mk.injEq, Except.ok.injEq, Prod.mk.injEq] at hc
    exact ⟨wallet, g, hchecks, c, repaired, disk₁, s, params, capacity, hload, hopen, hc.1.1⟩

/-- A refused start leaves the blocks in the file. -/
theorem startup_refused {bs : List Block} (hread : ReadsAs disk bs) {e : String}
    (h : startup toml bindParse paths lockPath drift capacity disk w = (.error e, disk')) :
    ReadsAs disk' bs := by
  rcases startup_cases toml bindParse paths lockPath drift capacity disk w with
    ⟨e', hc⟩ | ⟨wallet, g, r, disk₁, _, hload, ⟨e', hc⟩ | ⟨s, hopen, ⟨e', hc⟩ |
      ⟨c, repaired, params, book, _, hc⟩⟩⟩
  · rw [h, Prod.mk.injEq] at hc
    rw [hc.2]
    exact hread
  · rw [h, Prod.mk.injEq] at hc
    rw [hc.2, (hread.load hload).1]
    exact hread
  · -- Opening the store may have created the file.
    rw [h, Prod.mk.injEq] at hc
    rw [(hread.load hload).1] at hopen
    rw [hc.2]
    exact hread.opened hopen
  · rw [h, Prod.mk.injEq] at hc
    exact absurd hc.1 (by simp only [reduceCtorEq, not_false_eq_true])

/-- A run only adds blocks. -/
theorem runEvents_extends {g : Genesis} {n n' : NodeInner} (hn : n.Agrees g)
    {es : List NodeEvent} (hrun : runEvents n es = some n') :
    n'.Agrees g ∧ n.chain.blocks <+: n'.chain.blocks := by
  have hkeeps : Keeping (fun c => n.chain.blocks <+: c.blocks) fun _ => True := by
    intro c c' b hpre _ happ
    rcases (Blockchain.appendBlock_ok_iff c c' b).mp happ with ⟨_, _, _, _, _, _, _, _, rfl⟩
    exact hpre.trans (List.prefix_append _ _)
  rcases runEvents_keeps hkeeps hn List.prefix_rfl es with ⟨n₁, hrun₁, hagrees, hpre, _⟩
  rw [hrun, Option.some.injEq] at hrun₁
  rw [hrun₁]
  exact ⟨hagrees, hpre⟩

/-! ### Histories -/

variable (toml bindParse paths lockPath) in
/-- What one process does to the file of the chain: it is refused at the start, or
    it runs and stops between two events, without a failed write. -/
inductive DirectoryStep : Option Bytes → Option Bytes → Prop where
  | refused {drift : Option UInt64} {capacity : Nat} {w : StartupWorld} {disk disk' : Option Bytes}
      {e : String}
      (h : startup toml bindParse paths lockPath drift capacity disk w = (.error e, disk')) :
      DirectoryStep disk disk'
  | ran {drift : Option UInt64} {capacity : Nat} {w : StartupWorld} {disk disk' : Option Bytes}
      {n n' : NodeInner} {book : PeerBook} {es : List NodeEvent}
      (h : startup toml bindParse paths lockPath drift capacity disk w = (.ok (n, book), disk'))
      (hrun : runEvents n es = some n') (husable : n'.store.poisoned = false) :
      DirectoryStep disk (some n'.store.file)

/-- What a run finds, and what it leaves. -/
theorem ran_grows {bs : List Block} (hread : ReadsAs disk bs) {n n' : NodeInner} {book : PeerBook}
    {es : List NodeEvent}
    (h : startup toml bindParse paths lockPath drift capacity disk w = (.ok (n, book), disk'))
    (hrun : runEvents n es = some n') (husable : n'.store.poisoned = false) :
    ∃ new, n'.chain.blocks = Block.genesis :: (bs ++ new) ∧
      ReadsAs (some n'.store.file) (bs ++ new) := by
  rcases startup_ok h with ⟨wallet, g, _, hstarted⟩
  rcases runEvents_extends hstarted.agrees hrun with ⟨hn', hpre⟩
  rcases hstarted with ⟨c, repaired, disk₁, s, params, capacity', hload, _, rfl⟩
  have hblocks := (hread.load hload).2 c repaired rfl
  change c.blocks <+: n'.chain.blocks at hpre
  rw [hblocks] at hpre
  rcases hpre with ⟨new, hnew⟩
  rw [List.cons_append] at hnew
  refine ⟨new, hnew.symm, ?_⟩
  -- The file holds what is above the genesis block.
  have hstores := hn'.stores husable
  rw [← hnew, List.drop_one, List.tail_cons] at hstores
  exact read_of_stores hstores

theorem DirectoryStep.grows (h : DirectoryStep toml bindParse paths lockPath disk disk')
    {bs : List Block} (hread : ReadsAs disk bs) : ∃ new, ReadsAs disk' (bs ++ new) := by
  cases h with
  | refused h =>
      refine ⟨[], ?_⟩
      rw [List.append_nil]
      exact startup_refused hread h
  | ran h hrun husable =>
      rcases ran_grows hread h hrun husable with ⟨new, _, hnew⟩
      exact ⟨new, hnew⟩

/-- A history only adds blocks. -/
theorem DirectoryStep.history_grows
    (h : Relation.ReflTransGen (DirectoryStep toml bindParse paths lockPath) disk disk')
    {bs : List Block} (hread : ReadsAs disk bs) : ∃ new, ReadsAs disk' (bs ++ new) := by
  induction h with
  | refl => exact ⟨[], by rwa [List.append_nil]⟩
  | tail _ hlast ih =>
      rcases ih with ⟨new, hnew⟩
      rcases hlast.grows hnew with ⟨more, hmore⟩
      refine ⟨new ++ more, ?_⟩
      rwa [List.append_assoc] at hmore

/-- A start on what a run left goes on where it stopped. -/
theorem startup_resumes {g : Genesis} {n : NodeInner} (hn : n.Agrees g)
    (husable : n.store.poisoned = false) {wallet : Wallet} {book : PeerBook}
    (hchecks : startupChecks toml bindParse paths lockPath w = .ok (wallet, g))
    (hbound : w.bound = .ok ()) (hbook : PeerBook.loadOrEmpty w.book = .ok book) :
    ∃ n', startup toml bindParse paths lockPath drift capacity (some n.store.file) w =
        (.ok (n', book), some n.store.file) ∧ n'.chain.blocks = n.chain.blocks ∧
      n'.chain.state = n.chain.state ∧ n'.pool = .new capacity := by
  have hload := load_of_stores hn.sound (hn.stores husable)
  rcases open_of_read (read_of_stores (hn.stores husable)) with ⟨s, hopen, _, hfile⟩
  rw [Option.getD_some] at hfile
  unfold startup
  simp only [hchecks, hload, hbound, hopen, hbook, hfile]
  cases drift with
  | none => exact ⟨_, rfl, rfl, rfl, rfl⟩
  | some d => exact ⟨_, rfl, rfl, rfl, rfl⟩

/-- A directory over any number of starts and runs. If the file of the chain was
    readable at first, then whatever was started in the directory, was refused, ran
    and stopped there since, the file still has the blocks of the start and only
    blocks behind them were added. A run shows all of them and adds to them. The
    next start with its document that passes the checks before the chain, and that
    can read the peer book, has its blocks and its accounts; only the pool is lost. -/
theorem directory_history {bs : List Block} {first : Option Bytes} (hread : ReadsAs first bs)
    (hhistory : Relation.ReflTransGen (DirectoryStep toml bindParse paths lockPath) first disk) :
    ∃ added, ReadsAs disk (bs ++ added) ∧
      ∀ (drift : Option UInt64) (capacity : Nat) (w : StartupWorld) disk' n book es n',
        startup toml bindParse paths lockPath drift capacity disk w = (.ok (n, book), disk') →
        runEvents n es = some n' → n'.store.poisoned = false →
        (∃ new, n'.chain.blocks = Block.genesis :: (bs ++ added ++ new) ∧
          ReadsAs (some n'.store.file) (bs ++ added ++ new)) ∧
        ∃ wallet g, startupChecks toml bindParse paths lockPath w = .ok (wallet, g) ∧
          ∀ (drift' : Option UInt64) (capacity' : Nat) (w' : StartupWorld) wallet' book',
            startupChecks toml bindParse paths lockPath w' = .ok (wallet', g) →
            w'.bound = .ok () → PeerBook.loadOrEmpty w'.book = .ok book' →
            ∃ n'', startup toml bindParse paths lockPath drift' capacity' (some n'.store.file) w' =
                (.ok (n'', book'), some n'.store.file) ∧ n''.chain.blocks = n'.chain.blocks ∧
              n''.chain.state = n'.chain.state ∧ n''.pool = .new capacity' := by
  rcases DirectoryStep.history_grows hhistory hread with ⟨added, hadded⟩
  refine ⟨added, hadded, ?_⟩
  intro drift capacity w disk' n book es n' hstart hrun husable
  refine ⟨ran_grows hadded hstart hrun husable, ?_⟩
  -- The document of the run is the one that its checks returned.
  rcases startup_ok hstart with ⟨wallet, g, hchecks, hstarted⟩
  have hn' := (runEvents_extends hstarted.agrees hrun).1
  refine ⟨wallet, g, hchecks, ?_⟩
  intro drift' capacity' w' wallet' book' hchecks' hbound' hbook'
  exact startup_resumes hn' husable hchecks' hbound' hbook'

end Startup

namespace Sample

/-- Every call of a start succeeds, and nothing was bound or saved before. -/
def firstStart : StartupWorld :=
  { created := .ok (), lock := .ok true, wallet := some (.ok (List.replicate 32 1)),
    genesis := some (.ok ""), bindFile := none, bound := .ok (), book := none }

theorem startupChecks_firstStart :
    startupChecks onlyGenesis .ok commandPaths "run.lock" firstStart = .ok (wallet, genesis) := by
  unfold startupChecks firstStart
  simp only [loadGenesis_onlyGenesis]
  rfl

theorem startup_firstStart :
    startup onlyGenesis .ok commandPaths "run.lock" none 8 none firstStart =
      (.ok (newNode, .empty), some []) := by
  have hload : loadBlockchainFromDisk none genesis = (.ok (start, false), none) :=
    load_ok_iff.mpr ⟨[], start, rfl, fromGenesis_start, Accepted.nil start⟩
  unfold startup
  simp only [startupChecks_firstStart, hload]
  rfl

/-- The block with the payment comes from a peer. -/
def received : List NodeEvent :=
  [.inbound ⟨opBlock :: payload, 0, ⟨0, 0⟩, ⟨24, 8192⟩, .succeeds⟩]

/-- A start while another process has the lock, a run, and a start after it. -/
theorem directory_history_restarted :
    ∃ n' n'', runEvents newNode received = some n' ∧
      startup onlyGenesis .ok commandPaths "run.lock" none 8 (some n'.store.file) firstStart =
        (.ok (n'', .empty), some n'.store.file) ∧ n''.chain.blocks = n'.chain.blocks := by
  rcases runEvents_agrees started_newNode.agrees received with ⟨n', hrun, _⟩
  have husable : n'.store.poisoned = false := by
    have hfile : (runEvents newNode received).map (fun n => n.store.poisoned) = some false := by
      decide +kernel
    rw [hrun, Option.map_some, Option.some.injEq] at hfile
    exact hfile
  have hlocked : startup onlyGenesis .ok commandPaths "run.lock" none 8 none
      { firstStart with lock := .ok false } = (.error _, none) := rfl
  have hfirst : ReadsAs none [] := rfl
  rcases directory_history hfirst (Relation.ReflTransGen.single (.refused hlocked)) with
    ⟨_, _, hlater⟩
  rcases hlater _ _ _ _ _ _ _ _ startup_firstStart hrun husable with ⟨_, wallet', g, hchecks, hnext⟩
  rw [startupChecks_firstStart, Except.ok.injEq, Prod.mk.injEq] at hchecks
  rcases hchecks with ⟨_, rfl⟩
  rcases hnext none 8 firstStart _ _ startupChecks_firstStart rfl rfl with
    ⟨n'', hstart, hblocks, _⟩
  exact ⟨n', n'', hrun, hstart, hblocks⟩

end Sample

end Trilogicon
