import Trilogicon.Theory.FullRun

/-!
# The Life of a Node

The run loop with its peer book and gossip does to the node what the loop does
that is given its targets from outside. So everything that was shown about that
loop, over all targets, holds of a real run: `fullRun_refines` finds the targets.
A run does not panic either, because a block that was sealed can be encoded.

The second part is about the addresses. Over any number of runs on one data
directory, a node only calls addresses that one of these runs was configured
with: nothing that a peer says or does puts an address into the book.

## Main definitions

* `FullState.runState`: The part of the state the loop with given targets has.
* `TurnWorld.interval`: A turn with its targets given.
* `OnDisk`: The books that may be in the data directory, after runs with given
  peers.

## Theorems

* `fullRun_refines`: A run is a run of the loop with given targets.
* `fullRun_agrees`: A run does not panic and keeps the invariant of the node.
* `contacts_configured`: The addresses a node calls.
-/

namespace Trilogicon

/-! ### Refinement -/

/-- The part of the state that the loop with given targets has. -/
def FullState.runState (s : FullState) : RunState :=
  ⟨s.node, s.sealingAllowed⟩

/-- A turn with its targets given. -/
def TurnWorld.interval (w : TurnWorld) (peers : List String) (book : PeerBook) : Interval where
  arrivals := w.arrivals
  drained := w.drained
  round := w.round
  nowUnix := w.nowUnix
  calls := w.calls
  targets := (targetsOf peers book w.nowSync).mapIdx fun i p => (p, w.worlds i)
  bookSaved := w.bookSaved

section Refines

variable [Primitives] {sync : SyncCall} {peers : List String}

omit [Primitives] in
/-- The calls after the seal are those of the loop with given targets. -/
theorem followBook_refines {n n' : NodeInner} {book book' : PeerBook} {w : TurnWorld}
    {asks : List Ask} {r : Except String Unit}
    (h : followBook sync peers n book w = some (asks, r, n', book')) :
    (peers = [] ∧ r = .ok () ∧ n' = n) ∨ (peers ≠ [] ∧ ∃ r₀,
      followPeers sync n (w.interval peers book).targets = some (r₀, n') ∧
        r = r₀.bind fun _ => w.bookSaved) := by
  unfold followBook at h
  by_cases hpeers : peers = []
  · rw [if_pos hpeers, Option.some.injEq, Prod.mk.injEq, Prod.mk.injEq, Prod.mk.injEq] at h
    rcases h with ⟨_, rfl, rfl, _⟩
    exact .inl ⟨hpeers, rfl, rfl⟩
  · rw [if_neg hpeers] at h
    simp only [Option.bind_eq_bind, Option.bind_eq_some_iff] at h
    rcases h with ⟨⟨asks', r₀, n₁, book₁⟩, hfollow, h⟩
    -- The two loops go over the same targets with the same calls; only the book is new.
    have hpeers' := followTargets_refines hfollow
    refine .inr ⟨hpeers, r₀, ?_, ?_⟩
    · unfold TurnWorld.interval targetsOf
      simp only [if_neg hpeers]
      rcases r₀ with e | _
      · simp only [Option.some.injEq, Prod.mk.injEq] at h
        rw [← h.2.2.1]
        exact hpeers'
      · simp only [Option.some.injEq, Prod.mk.injEq] at h
        rw [← h.2.2.1]
        exact hpeers'
    · rcases r₀ with e | _
      · simp only [Option.some.injEq, Prod.mk.injEq] at h
        exact h.2.1.symm
      · simp only [Option.some.injEq, Prod.mk.injEq] at h
        exact h.2.1.symm

/-- A turn is a turn of the loop with given targets. -/
theorem runTurn_refines {g : Genesis} {s : FullState} {w : TurnWorld} {log : TurnLog}
    {out : Except String FullState} (h : runTurn sync g peers s w = some (log, out)) :
    runInterval sync peers s.runState (w.interval peers s.peerBook) =
      some (log.records, out.map FullState.runState) := by
  rw [runTurn, Option.bind_eq_bind, Option.bind_eq_some_iff] at h
  rcases h with ⟨n, hn, h⟩
  -- The phases agree one after the other: the arrivals, the retry, the seal.
  have hn' : receiveAll s.runState.node (w.interval peers s.peerBook).arrivals = some n := hn
  simp only [runInterval, hn', Option.bind_eq_bind, Option.bind_some]
  split_ifs at h ⊢ with hpoisoned
  · rw [Option.some.injEq, Prod.mk.injEq] at h
    rcases h with ⟨rfl, rfl⟩
    rfl
  simp only [Option.bind_eq_bind, Option.bind_eq_some_iff, Prod.exists] at h
  rcases h with ⟨recs, allowed, n₁, hretry, sealing, n₂, hseal, h⟩
  have hretry' : retryRound sync peers
      { n with pool := (w.interval peers s.peerBook).drained n.pool } s.runState.sealingAllowed
      (w.interval peers s.peerBook).round = some (recs, allowed, n₁) :=
    hretry
  have hseal' : n₁.sealAndPersist allowed (w.interval peers s.peerBook).nowUnix
      (w.interval peers s.peerBook).calls = some (sealing, n₂) := hseal
  simp only [hretry', Option.bind_some, sealAndFollow, hseal', Option.bind_eq_bind]
  rcases sealing with e | sealed
  · simp only [Option.some.injEq, Prod.mk.injEq] at h
    rcases h with ⟨rfl, rfl⟩
    rfl
  simp only [Option.bind_eq_some_iff, Prod.exists] at h
  rcases h with ⟨asks, r, n₃, book, hfollow, h⟩
  -- The gossip is at the end, adds no record and does not change the node.
  have hend : log.records = recs ++ (if allowed then [.sealAttempt] else []) ∧
      out.map FullState.runState = r.map fun _ => (⟨n₃, allowed⟩ : RunState) := by
    rcases r with e | _
    · simp only [Option.some.injEq, Prod.mk.injEq] at h
      rcases h with ⟨rfl, rfl⟩
      exact ⟨rfl, rfl⟩
    · simp only [Option.bind_eq_some_iff, Option.some.injEq, Prod.mk.injEq, Prod.exists] at h
      rcases h with ⟨pushes, gossip, _, rfl, rfl⟩
      exact ⟨rfl, rfl⟩
  rw [hend.1, hend.2]
  rcases followBook_refines hfollow with ⟨hpeers, rfl, rfl⟩ | ⟨hpeers, r₀, htargets, rfl⟩
  · simp only [if_pos hpeers]
    rfl
  · simp only [if_neg hpeers, htargets, Option.bind_some]
    rcases r₀ with e | _
    · rfl
    · rfl

/-- The turns of a run are turns of the loop with given targets. -/
theorem runTurns_refines {g : Genesis} {s : FullState} {ws : List TurnWorld}
    {logs : List TurnLog} {out : Except String FullState}
    (h : runTurns sync g peers s ws = some (logs, out)) :
    ∃ vs : List Interval, vs.length = logs.length ∧ runIntervals sync peers s.runState vs =
      some (logs.flatMap TurnLog.records, out.map FullState.runState) := by
  induction ws generalizing s logs with
  | nil =>
      rw [runTurns, Option.some.injEq, Prod.mk.injEq] at h
      rcases h with ⟨rfl, rfl⟩
      exact ⟨[], rfl, rfl⟩
  | cons w ws ih =>
      rcases runTurns_cons h with ⟨log, e, hturn, rfl, rfl⟩ | ⟨log, s₁, rest, hturn, hrest, rfl⟩
      · -- A turn that fails is the last of both runs.
        refine ⟨[w.interval peers s.peerBook], rfl, ?_⟩
        simp only [runIntervals, runTurn_refines hturn, Option.bind_eq_bind, Option.bind_some,
          Except.map, List.flatMap_cons, List.flatMap_nil, List.append_nil]
      · rcases ih hrest with ⟨vs, hlen, hvs⟩
        refine ⟨w.interval peers s.peerBook :: vs, by rw [List.length_cons, hlen, List.length_cons],
          ?_⟩
        have hfirst := runTurn_refines hturn
        simp only [Except.map] at hfirst
        simp only [runIntervals, hfirst, hvs, Option.bind_eq_bind, Option.bind_some,
          List.flatMap_cons]

omit [Primitives] in
/-- So is what is done before the loop. -/
theorem fullStart_refines {n : NodeInner} {book : PeerBook} {w : StartWorld}
    {start : List RunRecord} {out : Except String FullState}
    (h : fullStart sync peers n book w = some (start, out)) (hsaved : w.bookSaved = .ok ()) :
    ∃ setup, startRun sync peers n w.first setup = some (start, out.map FullState.runState) := by
  simp only [fullStart, hsaved] at h
  unfold startRun
  split_ifs at h ⊢ with hpeers
  · rw [Option.some.injEq, Prod.mk.injEq] at h
    rcases h with ⟨rfl, rfl⟩
    refine ⟨w.listening, ?_⟩
    rcases w.listening with e | _
    · rfl
    · rfl
  · simp only [Option.bind_eq_bind, Option.bind_eq_some_iff, Option.some.injEq, Prod.mk.injEq,
      Prod.exists] at h
    rcases h with ⟨results, n₁, hround, rfl, rfl⟩
    -- Saving the book again and opening the listener are one setup of the other loop.
    refine ⟨do w.bookSavedAgain; w.listening, ?_⟩
    simp only [hround, Option.bind_eq_bind, Option.bind_some]
    generalize (do w.bookSavedAgain; w.listening : Except String Unit) = setup
    rcases setup with e | _
    · rfl
    · rfl

/-- A run that gets past the first saving of its book is a run of the loop with
    given targets. -/
theorem fullRun_refines {n : NodeInner} {book : PeerBook} {w : StartWorld} {ws : List TurnWorld}
    {start : List RunRecord} {logs : List TurnLog} {out : Except String FullState}
    (h : fullRun sync peers n book w ws = some (start, logs, out)) (hsaved : w.bookSaved = .ok ()) :
    ∃ setup vs, vs.length = logs.length ∧ cmdRun sync peers n w.first setup vs =
      some (start ++ logs.flatMap TurnLog.records, out.map FullState.runState) := by
  rw [fullRun, Option.bind_eq_bind, Option.bind_eq_some_iff] at h
  rcases h with ⟨⟨start', e | s⟩, hstart, h⟩
  · simp only [Option.some.injEq, Prod.mk.injEq] at h
    rcases h with ⟨rfl, rfl, rfl⟩
    rcases fullStart_refines hstart hsaved with ⟨setup, hsetup⟩
    refine ⟨setup, [], rfl, ?_⟩
    simp only [cmdRun, hsetup, Option.bind_eq_bind, Option.bind_some, Except.map,
      List.flatMap_nil, List.append_nil]
  · simp only [Option.bind_eq_bind, Option.bind_eq_some_iff, Option.some.injEq, Prod.mk.injEq,
      Prod.exists] at h
    rcases h with ⟨logs', out', hturns, rfl, rfl, rfl⟩
    rcases fullStart_refines hstart hsaved with ⟨setup, hsetup⟩
    rcases runTurns_refines hturns with ⟨vs, hlen, hvs⟩
    refine ⟨setup, vs, hlen, ?_⟩
    simp only [Except.map] at hsetup
    simp only [cmdRun, hsetup, hvs, Option.bind_eq_bind, Option.bind_some]

end Refines

/-! ### No panic -/

section Agrees

variable [Primitives] {sync : SyncCall} {g : Genesis}

theorem followTargets_agrees (hsync : sync.Keeps g) {n : NodeInner} (h : n.Agrees g)
    (nowSync : UInt64) (book : PeerBook) (targets : List String) (worlds : Nat → SyncWorld)
    (clock : Nat → UInt64) :
    ∃ asks r n' book', followTargets sync nowSync n book targets worlds clock =
      some (asks, r, n', book') ∧ n'.Agrees g := by
  induction targets generalizing n book worlds clock with
  | nil => exact ⟨_, _, n, book, rfl, h⟩
  | cons p targets ih =>
      -- Whatever the call reported, the node after it keeps the invariant.
      rcases hsync n p (worlds 0) h with ⟨r, n₁, hr, h₁⟩
      simp only [followTargets, hr, Option.bind_eq_bind, Option.bind_some]
      rcases r with e | out
      · simp only
        split_ifs with hfatal
        · exact ⟨_, _, n₁, book, rfl, h₁⟩
        · rcases ih h₁ (book.recordFail p (clock 0)) (fun i => worlds (i + 1))
            (fun i => clock (i + 1)) with ⟨asks, r, n', book', hrest, h'⟩
          simp only [hrest, Option.bind_some]
          exact ⟨_, _, n', book', rfl, h'⟩
      · rcases ih h₁ (book.recordOk p (clock 0)) (fun i => worlds (i + 1))
          (fun i => clock (i + 1)) with ⟨asks, r, n', book', hrest, h'⟩
        simp only [hrest, Option.bind_some]
        exact ⟨_, _, n', book', rfl, h'⟩

theorem followBook_agrees (hsync : sync.Keeps g) {n : NodeInner} (h : n.Agrees g)
    (peers : List String) (book : PeerBook) (w : TurnWorld) :
    ∃ asks r n' book', followBook sync peers n book w = some (asks, r, n', book') ∧
      n'.Agrees g := by
  unfold followBook
  split_ifs with hpeers
  · exact ⟨_, _, n, book, rfl, h⟩
  · rcases followTargets_agrees hsync h w.nowSync book
      (book.filterAvailable (book.syncCandidates peers) w.nowSync) w.worlds w.recordClock with
      ⟨asks, r, n', book', hfollow, h'⟩
    simp only [hfollow, Option.bind_eq_bind, Option.bind_some]
    rcases r with e | _
    · exact ⟨_, _, n', book', rfl, h'⟩
    · exact ⟨_, _, n', book', rfl, h'⟩

/-- A push of a block that can be encoded returns. -/
theorem pushBlockToPeer_returns {b : Block} {msg : Bytes} (h : blockMessage b = some msg)
    (peer : String) (connection : Except IoError Stream) (height : UInt64) :
    ∃ r, (pushBlockToPeer peer connection g height b).1 = some r := by
  unfold pushBlockToPeer pushMessage
  rcases connection with e | s
  · exact ⟨_, rfl⟩
  · simp only
    rcases handshakeInitiator s g height with ⟨e | _, s₁⟩
    · exact ⟨_, rfl⟩
    · simp only [h]
      exact ⟨_, rfl⟩

theorem gossipPeers_returns {b : Block} {msg : Bytes} (h : blockMessage b = some msg)
    (now : UInt64) (s : GossipState) (peers : List String)
    (connections : Nat → Except IoError Stream) :
    ∃ pushes s', gossipPeers g b now s peers connections = some (pushes, s') := by
  induction peers generalizing s connections with
  | nil => exact ⟨_, _, rfl⟩
  | cons p peers ih =>
      unfold gossipPeers
      split_ifs with hcool
      · exact ih s fun i => connections (i + 1)
      · rcases pushBlockToPeer_returns (g := g) h p (connections 0) b.height with ⟨r, hr⟩
        rcases ih (s.settle ⟨p, now, r⟩) fun i => connections (i + 1) with ⟨pushes, s', hrest⟩
        simp only [hr, hrest, Option.bind_eq_bind, Option.bind_some]
        exact ⟨_, _, rfl⟩

/-- A block that was sealed can be pushed. -/
theorem gossipSealed_returns {n n' : NodeInner} (h : n.Agrees g) {allowed : Bool}
    {nowUnix : UInt64} {calls : AppendIo} {sealed : Option Block}
    (hseal : n.sealAndPersist allowed nowUnix calls = some (.ok sealed, n')) (g' : Genesis)
    (peers : List String) (s : GossipState) (w : TurnWorld) :
    ∃ pushes s', gossipSealed g' peers sealed s w = some (pushes, s') := by
  rcases sealed with _ | b
  · exact ⟨_, _, rfl⟩
  · rcases sealAndPersist_block h hseal with ⟨_, _, _, hstore⟩
    rw [BlockStore.appendBlock, Option.bind_eq_bind, Option.bind_eq_some_iff] at hstore
    rcases hstore with ⟨payload, henc, _⟩
    have hmsg : blockMessage b = some (opBlock :: payload) := by
      rw [blockMessage, henc]
      rfl
    exact gossipPeers_returns hmsg w.nowGossip s peers w.connections

theorem runTurn_agrees (hsync : sync.Keeps g) {s : FullState} (h : s.node.Agrees g) (g' : Genesis)
    (peers : List String) (w : TurnWorld) :
    ∃ log out, runTurn sync g' peers s w = some (log, out) ∧
      ∀ s', out = .ok s' → s'.node.Agrees g := by
  have hstop : ∀ (e : String) (s' : FullState),
      (Except.error e : Except String FullState) = .ok s' → s'.node.Agrees g :=
    fun e s' hs => absurd hs (by simp only [reduceCtorEq, not_false_eq_true])
  rcases receiveAll_agrees h w.arrivals with ⟨n₁, hn₁, h₁⟩
  simp only [runTurn, hn₁, Option.bind_eq_bind, Option.bind_some]
  split_ifs with hpoisoned
  · exact ⟨_, _, rfl, hstop _⟩
  -- Each phase starts with the invariant that the phase before it left.
  rcases retryRound_agrees hsync (h₁.with_pool (w.drained n₁.pool)) peers s.sealingAllowed
    w.round with ⟨log, allowed, n₂, hn₂, h₂⟩
  rcases seal_moves h₂ allowed w.nowUnix w.calls with ⟨r, n₃, hseal, h₃, _⟩
  simp only [hn₂, hseal, Option.bind_some]
  rcases r with e | sealed
  · exact ⟨_, _, rfl, hstop e⟩
  rcases followBook_agrees hsync h₃ peers s.peerBook w with ⟨asks, r, n₄, book, hfollow, h₄⟩
  simp only [hfollow, Option.bind_some]
  rcases r with e | _
  · exact ⟨_, _, rfl, hstop e⟩
  -- The gossip only reads the chain.
  rcases gossipSealed_returns h₂ hseal g' peers s.gossip w with ⟨pushes, gossip, hgossip⟩
  simp only [hgossip, Option.bind_some]
  refine ⟨_, _, rfl, fun s' hs => ?_⟩
  rw [Except.ok.injEq] at hs
  rw [← hs]
  exact h₄

theorem runTurns_agrees (hsync : sync.Keeps g) {s : FullState} (h : s.node.Agrees g)
    (g' : Genesis) (peers : List String) (ws : List TurnWorld) :
    ∃ logs out, runTurns sync g' peers s ws = some (logs, out) ∧
      ∀ s', out = .ok s' → s'.node.Agrees g := by
  induction ws generalizing s with
  | nil =>
      refine ⟨_, _, rfl, fun s' hs => ?_⟩
      rw [Except.ok.injEq] at hs
      rw [← hs]
      exact h
  | cons w ws ih =>
      rcases runTurn_agrees hsync h g' peers w with ⟨log, out, hturn, hout⟩
      simp only [runTurns, hturn, Option.bind_eq_bind, Option.bind_some]
      rcases out with e | s₁
      · exact ⟨_, _, rfl, hout⟩
      · rcases ih (hout s₁ rfl) with ⟨logs, out', hrest, hout'⟩
        simp only [hrest, Option.bind_some]
        exact ⟨_, out', rfl, hout'⟩

/-- A run does not panic, and it keeps the invariant of the node. -/
theorem fullRun_agrees (hsync : sync.Keeps g) {n : NodeInner} (h : n.Agrees g)
    (peers : List String) (book : PeerBook) (w : StartWorld) (ws : List TurnWorld) :
    ∃ start logs out, fullRun sync peers n book w ws = some (start, logs, out) ∧
      ∀ s, out = .ok s → s.node.Agrees g := by
  -- An error before the loop leaves no state to speak of.
  have hstart : ∃ start out, fullStart sync peers n book w = some (start, out) ∧
      ∀ s, out = .ok s → s.node.Agrees g := by
    unfold fullStart
    rcases w.bookSaved with e | _
    · exact ⟨_, _, rfl, fun s hs => absurd hs (by simp only [reduceCtorEq, not_false_eq_true])⟩
    · simp only
      split_ifs with hpeers
      · refine ⟨_, _, rfl, fun s hs => ?_⟩
        generalize w.listening = setup at hs
        rcases setup with e | _
        · exact absurd hs (by simp only [Except.map, reduceCtorEq, not_false_eq_true])
        · cases hs
          exact h
      · rcases catchUpRound_agrees hsync h peers w.first with ⟨results, n₁, hround, h₁⟩
        simp only [hround, Option.bind_eq_bind, Option.bind_some]
        refine ⟨_, _, rfl, fun s hs => ?_⟩
        generalize (do w.bookSavedAgain; w.listening : Except String Unit) = setup at hs
        rcases setup with e | _
        · exact absurd hs (by simp only [Except.map, reduceCtorEq, not_false_eq_true])
        · cases hs
          exact h₁
  rcases hstart with ⟨start, out, hs, hout⟩
  simp only [fullRun, hs, Option.bind_eq_bind, Option.bind_some]
  rcases out with e | s
  · exact ⟨_, _, _, rfl, hout⟩
  · rcases runTurns_agrees hsync (hout s rfl) n.genesis peers ws with ⟨logs, out', hrest, hout'⟩
    simp only [hrest, Option.bind_some]
    exact ⟨_, _, out', rfl, hout'⟩

/-- `cmd_run` on a node in agreement with its file does not panic and keeps it so,
    and unless the peer book cannot be saved at the start, what it does to the
    node is done by the loop that is given its targets from outside. -/
theorem full_run_refines {n : NodeInner} (h : n.Agrees g) (peers : List String) (book : PeerBook)
    (w : StartWorld) (ws : List TurnWorld) :
    ∃ start logs out, fullRun syncFromPeer peers n book w ws = some (start, logs, out) ∧
      (∀ s, out = .ok s → s.node.Agrees g) ∧
      (w.bookSaved = .ok () → ∃ setup vs, vs.length = logs.length ∧
        cmdRun syncFromPeer peers n w.first setup vs =
          some (start ++ logs.flatMap TurnLog.records, out.map FullState.runState)) := by
  rcases fullRun_agrees (syncFromPeer_keeps g) h peers book w ws with ⟨start, logs, out, hrun, hout⟩
  exact ⟨start, logs, out, hrun, hout, fullRun_refines hrun⟩

end Agrees

/-! ### The addresses -/

section Contacts

variable [Primitives] {sync : SyncCall}

/-- The books that may be in the data directory, after runs that were configured
    with these peers: the book is saved once the peers are merged, and again at the
    end of each turn, and its file lists the entries in any order. -/
inductive OnDisk (sync : SyncCall) : List String → PeerBook → Prop
  | absent : OnDisk sync [] .empty
  | merged {configured : List String} {book : PeerBook} (peers : List String) :
      OnDisk sync configured book →
      OnDisk sync (configured ++ peers) (peers.foldl PeerBook.mergeSeed book)
  | ran {configured peers : List String} {book : PeerBook} {n : NodeInner} {w : StartWorld}
      {ws : List TurnWorld} {start : List RunRecord} {logs : List TurnLog} {s : FullState} :
      OnDisk sync configured book →
      fullRun sync peers n book w ws = some (start, logs, .ok s) →
      OnDisk sync (configured ++ peers) s.peerBook
  | reread {configured : List String} {book book' : PeerBook} {file : PeerBookFile} :
      OnDisk sync configured book → file.peers.Perm book.toFile.peers →
      PeerBook.loadOrEmpty (some (.ok file)) = .ok book' → OnDisk sync configured book'

/-- An address of a list, or one without its white space. -/
def Configured (configured : List String) (p : String) : Prop :=
  p ∈ configured ∨ p ∈ configured.map trim

omit [Primitives] in
theorem Configured.append_left {configured peers : List String} {p : String}
    (h : Configured configured p) : Configured (configured ++ peers) p := by
  unfold Configured at *
  rw [List.map_append, List.mem_append, List.mem_append]
  exact h.imp .inl .inl

omit [Primitives] in
theorem Configured.append_right {configured peers : List String} {p : String}
    (h : Configured peers p) : Configured (configured ++ peers) p := by
  unfold Configured at *
  rw [List.map_append, List.mem_append, List.mem_append]
  exact h.imp .inr .inr

omit [Primitives] in
/-- Merging the peers and recording calls to known addresses makes only these
    known. -/
theorem advertised_opsSoFar {P : String → Prop} {peers : List String} {book : PeerBook}
    (hbook : ∀ p ∈ book.advertised, P p) (hpeers : ∀ p ∈ peers, P p) {asks : List Ask}
    (hasks : ∀ a ∈ asks, P a.peer) :
    ∀ p ∈ (book.applyOps (opsSoFar peers asks)).advertised, P p := by
  intro p hp
  rcases (book.mem_advertised_applyOps p _).mp hp with hold | ⟨_, hseed⟩ | ⟨_, op, hop, hrecord⟩
  · exact hbook p hold
  · rcases List.mem_append.mp hseed with hin | hin
    · rcases List.mem_map.mp hin with ⟨_, hp', heq⟩
      cases heq
      exact hpeers p hp'
    · -- A call is not a merge.
      rcases List.mem_map.mp hin with ⟨a, _, heq⟩
      unfold Ask.op at heq
      rcases hres : a.result with e | _
      · simp only [hres, reduceCtorEq] at heq
      · simp only [hres, reduceCtorEq] at heq
  · -- A record that made the address known is a call to it.
    have hin := List.mem_of_mem_head? (Option.mem_def.mpr hop)
    rw [List.mem_filter] at hin
    rcases List.mem_append.mp hin.1 with hmerge | hcall
    · rcases List.mem_map.mp hmerge with ⟨_, _, rfl⟩
      exact absurd hrecord Bool.false_ne_true
    · rcases List.mem_map.mp hcall with ⟨a, ha, rfl⟩
      have hmentions := hin.2
      unfold BookOp.mentions at hmentions
      rw [Ask.op_addr, Bool.and_eq_true, decide_eq_true_eq] at hmentions
      rw [← hmentions.1]
      exact hasks a ha

/-- The targets of a turn come from the book at its start, so the calls of a run
    stay among the addresses it began with. -/
theorem asks_configured {P : String → Prop} {peers : List String} {n : NodeInner}
    {book : PeerBook} {w : StartWorld} {ws : List TurnWorld} {start : List RunRecord}
    {logs : List TurnLog} {out : Except String FullState}
    (h : fullRun sync peers n book w ws = some (start, logs, out))
    (hbook : ∀ p ∈ book.advertised, P p) (hpeers : ∀ p, Configured peers p → P p) :
    ∀ a ∈ logs.flatMap TurnLog.asks, P a.peer := by
  -- By induction over the calls in their order: the calls so far made the book.
  have hprefix : ∀ before after, logs.flatMap TurnLog.asks = before ++ after →
      ∀ a ∈ before, P a.peer := by
    intro before
    induction before using List.reverseRecOn with
    | nil => exact fun _ _ a ha => absurd ha List.not_mem_nil
    | append_singleton before a ih =>
        intro after hsplit
        rw [List.append_assoc, List.singleton_append] at hsplit
        have hbefore := ih _ hsplit
        intro a' ha'
        rcases List.mem_append.mp ha' with ha' | ha'
        · exact hbefore a' ha'
        rw [List.mem_singleton.mp ha']
        rcases flatMap_eq_append_cons hsplit with ⟨turns, log, later, pre, post, rfl, hasks, rfl, _⟩
        rcases fullRun_at h with ⟨s, w', out', hs, _, _, hcalls, _⟩
        have hin : a.peer ∈ targetsOf peers s.peerBook w'.nowSync :=
          hcalls.asked.subset (List.mem_map_of_mem (by rw [hasks]; simp))
        -- The call is to a target, so to a peer of the run or to a known address.
        have hcandidate := (((targetsOf_spec peers s.peerBook w'.nowSync).2 a.peer).mp hin).2.1
        rcases ((s.peerBook.syncCandidates_spec peers).2 a.peer).mp hcandidate with hseed | hknown
        · exact hpeers _ (.inr hseed.2)
        · rw [hs] at hknown
          exact advertised_opsSoFar hbook (fun p hp => hpeers p (.inl hp))
            (fun a ha => hbefore a (List.mem_append_left _ ha)) _ hknown
  exact hprefix _ [] (List.append_nil _).symm

/-- The book in the data directory names only addresses that were configured. -/
theorem OnDisk.advertised {configured : List String} {book : PeerBook}
    (h : OnDisk sync configured book) : ∀ p ∈ book.advertised, Configured configured p := by
  induction h with
  | absent =>
      intro p hp
      rcases PeerBook.mem_advertised.mp hp with ⟨e, he, _⟩
      exact absurd he (by simp [PeerBook.empty, PeerBook.get])
  | @merged configured book peers _ ih =>
      have hops : peers.foldl PeerBook.mergeSeed book = book.applyOps (opsSoFar peers []) := by
        rw [opsSoFar, List.map_nil, List.append_nil, PeerBook.applyOps, List.foldl_map]
        rfl
      rw [hops]
      exact advertised_opsSoFar (fun p hp => (ih p hp).append_left)
        (fun p hp => Configured.append_right (.inl hp)) (fun a ha => absurd ha List.not_mem_nil)
  | @ran configured peers book n w ws start logs s _ hrun ih =>
      have hasks := asks_configured hrun (fun p hp => (ih p hp).append_left)
        fun p hp => hp.append_right
      rcases fullRun_cases hrun with ⟨_, e, hout⟩ | ⟨s₀, _, hbook, _, hturns⟩
      · exact absurd hout (by simp only [reduceCtorEq, not_false_eq_true])
      -- The book of the run is the merged one after the calls.
      · rw [(runTurns_after hturns).1, hbook, ← PeerBook.applyOps_append]
        exact advertised_opsSoFar (fun p hp => (ih p hp).append_left)
          (fun p hp => Configured.append_right (.inl hp)) hasks
  | @reread configured book book' file _ hperm hload ih =>
      rw [PeerBook.loadOrEmpty_of_perm book hperm, Except.ok.injEq] at hload
      rw [← hload]
      exact ih

omit [Primitives] in
theorem Gated.round_peers {peers : List String} {a b : Bool} {log : List RunRecord}
    (h : Gated peers a log b) {results : List (String × SyncResult)}
    (hin : .catchUp results ∈ log) : results.map Prod.fst = peers := by
  induction h with
  | nil => exact absurd hin List.not_mem_nil
  | failed hpeers _ _ ih =>
      rcases List.mem_cons.mp hin with heq | hin
      · cases heq
        exact hpeers
      · exact ih hin
  | opened hpeers _ _ ih =>
      rcases List.mem_cons.mp hin with heq | hin
      · cases heq
        exact hpeers
      · exact ih hin
  | sealing _ ih =>
      rcases List.mem_cons.mp hin with heq | hin
      · cases heq
      · exact ih hin

/-- The rounds of catching up ask the configured peers. -/
theorem cmdRun_round_peers {peers : List String} {n : NodeInner} {first : Nat → SyncWorld}
    {setup : Except String Unit} {vs : List Interval} {log : List RunRecord}
    {out : Except String RunState} (h : cmdRun sync peers n first setup vs = some (log, out))
    {results : List (String × SyncResult)} (hin : .catchUp results ∈ log) :
    results.map Prod.fst = peers := by
  by_cases hpeers : peers = []
  · -- Without peers there is no round.
    rw [cmdRun, startRun, if_pos hpeers] at h
    rcases setup with e | _
    · simp only [Option.bind_eq_bind, Option.bind_some, Except.map, Option.some.injEq,
        Prod.mk.injEq] at h
      rw [← h.1] at hin
      exact absurd hin List.not_mem_nil
    · simp only [Option.bind_eq_bind, Option.bind_some, Except.map, Option.bind_eq_some_iff,
        Option.some.injEq, Prod.mk.injEq, Prod.exists, List.nil_append] at h
      rcases h with ⟨rest, out', hrest, rfl, _⟩
      rcases runIntervals_gated hrest with ⟨allowed, hgated⟩
      exact hgated.round_peers hin
  · rcases cmdRun_gated hpeers h with ⟨allowed, hgated⟩
    exact hgated.round_peers hin

/-- Over any number of runs in one data directory, a node calls only addresses
    that one of these runs was configured with: every round asks the peers of the
    run, a sealed block is pushed to some of them, and the peers that are asked
    after a seal were configured for this run or an earlier one. -/
theorem contacts_configured {configured peers : List String} {book : PeerBook} {n : NodeInner}
    {w : StartWorld} {ws : List TurnWorld} {start : List RunRecord} {logs : List TurnLog}
    {out : Except String FullState} (hdisk : OnDisk sync configured book)
    (h : fullRun sync peers n book w ws = some (start, logs, out)) :
    (∀ results, .catchUp results ∈ start ++ logs.flatMap TurnLog.records →
      results.map Prod.fst = peers) ∧
    (∀ e ∈ logs.flatMap TurnLog.pushes, e.peer ∈ peers) ∧
    ∀ a ∈ logs.flatMap TurnLog.asks, Configured (configured ++ peers) a.peer := by
  refine ⟨fun results hin => ?_, fun e he => ?_, ?_⟩
  · rcases hsaved : w.bookSaved with e | _
    · -- The run ends before it asks anyone.
      have hnone : start = [] ∧ logs = [] := by
        simp only [fullRun, fullStart, hsaved, Option.bind_eq_bind, Option.bind_some,
          Option.some.injEq, Prod.mk.injEq] at h
        exact ⟨h.1.symm, h.2.1.symm⟩
      rw [hnone.1, hnone.2] at hin
      exact absurd hin List.not_mem_nil
    · rcases fullRun_refines h hsaved with ⟨setup, vs, _, hcmd⟩
      exact cmdRun_round_peers hcmd hin
  · -- A push is in one of the turns, and each turn pushes to peers of the run.
    rcases List.mem_flatMap.mp he with ⟨log, hlog, hpush⟩
    rcases List.append_of_mem hlog with ⟨before, after, rfl⟩
    rcases fullRun_at h with ⟨s, w', out', _, _, _, hcalls, _⟩
    exact hcalls.pushed.subset (List.mem_map_of_mem hpush)
  · exact asks_configured h (fun p hp => (hdisk.advertised p hp).append_left)
      fun p hp => hp.append_right

end Contacts

/-! ### A sample -/

namespace Sample

/-- A run on a new node with a peer that answers nothing. -/
theorem full_run_refines_newNode : ∃ start logs out,
    fullRun syncFromPeer ["peer"] newNode shunned opening [turn] = some (start, logs, out) ∧
      ∀ s, out = .ok s → s.node.Agrees genesis := by
  rcases full_run_refines started_newNode.agrees ["peer"] shunned opening [turn] with
    ⟨start, logs, out, hrun, hagrees, _⟩
  exact ⟨start, logs, out, hrun, hagrees⟩

/-- The book of a run with a peer, once the next run merged another. -/
def bothPeers : PeerBook :=
  (PeerBook.empty.mergeSeed "peer").mergeSeed "other"

theorem targetsOf_bothPeers : targetsOf ["other"] bothPeers 1000 = ["other", "peer"] := by
  have hseeds : PeerBook.seedCandidates ∅ ["other"] = (["other"], {"other"}) := by decide
  have hrest : (bothPeers.advertised.filter fun k => k ∉ ({"other"} : Finset String)) =
      {"peer"} := by
    decide
  have havailable : bothPeers.isAvailable "other" 1000 = true ∧
      bothPeers.isAvailable "peer" 1000 = true := by
    decide
  rw [targetsOf, if_neg (by decide), PeerBook.syncCandidates, hseeds]
  simp only [hrest, Finset.sort_singleton, PeerBook.filterAvailable, List.cons_append,
    List.nil_append, List.filter_cons, List.filter_nil, havailable.1, havailable.2, if_true]

/-- A second run in a data directory, with another peer. It asks both after the
    seal: the book of the first run is read back. -/
theorem contacts_configured_second : ∃ start logs s,
    fullRun (sameResult (.error "down")) ["other"] newNode (PeerBook.empty.mergeSeed "peer")
      opening [turn] = some (start, logs, .ok s) ∧
    (logs.flatMap TurnLog.asks).map Ask.peer = ["other", "peer"] ∧
    ∀ a ∈ logs.flatMap TurnLog.asks, Configured ["peer", "other"] a.peer := by
  have hfirst : fullRun (sameResult (.error "down")) ["peer"] newNode .empty opening [] =
      some ([.catchUp [("peer", .error "down")]], [],
        .ok ⟨newNode, PeerBook.empty.mergeSeed "peer", false, .empty⟩) := rfl
  have hdisk : OnDisk (sameResult (.error "down")) ["peer"] (PeerBook.empty.mergeSeed "peer") :=
    .reread (.ran .absent hfirst) (.refl _) (PeerBook.loadOrEmpty_of_perm _ (.refl _))
  have hseal : newNode.sealAndPersist (allOk [("other", .error "down")]) 0 .succeeds =
      some (.ok none, newNode) := rfl
  rcases fullRun_sameResult (.error "down") targetsOf_bothPeers rfl (by decide) hseal rfl with
    ⟨start, records, s, hrun⟩
  exact ⟨start, _, s, hrun, rfl, (contacts_configured hdisk hrun).2.2⟩

end Sample

end Trilogicon
