import Trilogicon.Core.FullRun
import Trilogicon.Theory.Exchange
import Trilogicon.Theory.PeerBook
import Trilogicon.Theory.SealGate

/-!
# Runs With Peer Book and Gossip

How often a run calls the peers it is configured with.

After each seal the run asks some peers for blocks, and it pushes a block that it
sealed. Both are held back by failures in a row, but by different rules. The book
makes a peer wait for thirty seconds for each of its failures, from the fifth to
the eighth, after every further one. The gossip starts to count anew after five
failures and makes the peer wait for 45 seconds then.

The book and the two maps of the gossip are read off the calls that were made so
far: the book by `PeerBook.applyOps`, the maps by `mapsAfter`. A turn is
described by what it calls in the state it starts in (`TurnCalls`), and a turn of
a run starts in the state that the calls before it led to (`fullRun_at`). What a
peer has to wait for is then said about the calls only.

## Main definitions

* `Asked`, `Gossiped`: What the two loops over the peers do.
* `TurnCalls`: The calls of a turn.
* `pushFailures`, `Trips`: The pushes that failed in a row, and the fifth of them.
* `MapsAfter`: What the maps say after some pushes.
* `opsSoFar`: What was done to the book up to a call.
* `RunRecord.asked`: The peers that were asked in a round.

## Theorems

* `runTurn_calls`, `runTurns_after`: A turn and a run, by their calls.
* `mapsAfter`: The maps are determined by the pushes.
* `ask_backoff`: When a peer is asked.
* `gossip_cooldown`: When a peer is passed over.
* `dead_peer_load`: How often a peer that never answers is called.
-/

namespace Trilogicon

/-! ### The calls of a turn -/

namespace Ask

/-- Whether a call failed. -/
def failed (a : Ask) : Bool :=
  match a.result with
  | .ok _ => false
  | .error _ => true

/-- Whether a call ended the run. -/
def fatal (a : Ask) : Bool :=
  match a.result with
  | .ok _ => false
  | .error e => fatalSyncPrefix.toList.isPrefixOf e.toList

/-- What is recorded of a call. -/
def op (a : Ask) : BookOp :=
  match a.result with
  | .ok _ => .recordOk a.peer a.recordedAt
  | .error _ => .recordFail a.peer a.recordedAt

theorem op_addr (a : Ask) : a.op.addr = a.peer := by
  unfold op
  rcases a.result with _ | _
  · rfl
  · rfl

end Ask

section Follow

variable {sync : SyncCall} {nowSync : UInt64}

/-- A turn of the loop over the targets. The first call ends the run, or it is
    recorded and the others follow. -/
theorem followTargets_cons {n n' : NodeInner} {book book' : PeerBook} {p : String}
    {targets : List String} {worlds : Nat → SyncWorld} {clock : Nat → UInt64} {asks : List Ask}
    {r : Except String Unit}
    (h : followTargets sync nowSync n book (p :: targets) worlds clock =
      some (asks, r, n', book')) :
    ∃ a : Ask, a.peer = p ∧ a.nowSync = nowSync ∧
      ((∃ e, sync n p (worlds 0) = some (.error e, n') ∧ a.result = .error e ∧ a.fatal = true ∧
          asks = [a] ∧ r = .error e) ∨
        ∃ n₁ rest, sync n p (worlds 0) = some (a.result, n₁) ∧ a.fatal = false ∧
          asks = a :: rest ∧ followTargets sync nowSync n₁ (a.op.apply book) targets
            (fun i => worlds (i + 1)) (fun i => clock (i + 1)) = some (rest, r, n', book')) := by
  rw [followTargets, Option.bind_eq_bind, Option.bind_eq_some_iff] at h
  rcases h with ⟨⟨e | out, n₁⟩, hsync, h⟩
  · -- Of the calls that fail, only one with a fatal error ends the run.
    refine ⟨⟨p, nowSync, .error e, clock 0⟩, rfl, rfl, ?_⟩
    simp only at h
    by_cases hfatal : fatalSyncPrefix.toList.isPrefixOf e.toList = true
    · rw [if_pos hfatal, Option.some.injEq, Prod.mk.injEq, Prod.mk.injEq, Prod.mk.injEq] at h
      rcases h with ⟨rfl, rfl, rfl, rfl⟩
      exact .inl ⟨e, hsync, rfl, hfatal, rfl, rfl⟩
    · simp only [if_neg hfatal, Option.bind_eq_bind, Option.bind_eq_some_iff, Option.some.injEq,
        Prod.mk.injEq, Prod.exists] at h
      rcases h with ⟨rest, r', n₂, book₂, hrest, rfl, rfl, rfl, rfl⟩
      exact .inr ⟨n₁, rest, hsync, Bool.eq_false_iff.mpr hfatal, rfl, hrest⟩
  · simp only [Option.bind_eq_bind, Option.bind_eq_some_iff, Option.some.injEq, Prod.mk.injEq,
      Prod.exists] at h
    rcases h with ⟨rest, r', n₂, book₂, hrest, rfl, rfl, rfl, rfl⟩
    exact ⟨⟨p, nowSync, .ok out, clock 0⟩, rfl, rfl, .inr ⟨n₁, rest, hsync, rfl, rfl, hrest⟩⟩

/-- What the loop over the targets does: it asks them in order, each once, until
    an error ends the run, and every call that does not is recorded. -/
structure Asked (nowSync : UInt64) (targets : List String) (book : PeerBook) (asks : List Ask)
    (r : Except String Unit) (book' : PeerBook) : Prop where
  asked : asks.map Ask.peer <+: targets
  clock : ∀ a ∈ asks, a.nowSync = nowSync
  all : r = .ok () → asks.map Ask.peer = targets ∧ ∀ a ∈ asks, a.fatal = false
  recorded : r = .ok () → book' = book.applyOps (asks.map Ask.op)

theorem followTargets_asked {n n' : NodeInner} {book book' : PeerBook} {targets : List String}
    {worlds : Nat → SyncWorld} {clock : Nat → UInt64} {asks : List Ask} {r : Except String Unit}
    (h : followTargets sync nowSync n book targets worlds clock = some (asks, r, n', book')) :
    Asked nowSync targets book asks r book' := by
  induction targets generalizing n book worlds clock asks with
  | nil =>
      simp only [followTargets, Option.some.injEq, Prod.mk.injEq] at h
      rcases h with ⟨rfl, rfl, rfl, rfl⟩
      exact ⟨List.prefix_refl _, by simp, fun _ => ⟨rfl, by simp⟩, fun _ => rfl⟩
  | cons p targets ih =>
      rcases followTargets_cons h with ⟨a, rfl, rfl, ⟨e, _, _, _, rfl, rfl⟩ | hmore⟩
      · -- A fatal call is the last one. The other targets stay unasked.
        refine ⟨⟨targets, rfl⟩, by simp, fun hr => ?_, fun hr => ?_⟩
        · exact absurd hr (by simp only [reduceCtorEq, not_false_eq_true])
        · exact absurd hr (by simp only [reduceCtorEq, not_false_eq_true])
      · rcases hmore with ⟨n₁, rest, _, hfatal, rfl, hrest⟩
        have hih := ih hrest
        refine ⟨?_, ?_, fun hr => ⟨?_, ?_⟩, fun hr => ?_⟩
        · rw [List.map_cons]
          exact List.cons_prefix_cons.mpr ⟨rfl, hih.asked⟩
        · intro b hb
          rcases List.mem_cons.mp hb with rfl | hb
          · rfl
          · exact hih.clock b hb
        · rw [List.map_cons, (hih.all hr).1]
        · intro b hb
          rcases List.mem_cons.mp hb with rfl | hb
          · exact hfatal
          · exact (hih.all hr).2 b hb
        · exact hih.recorded hr

/-- The same calls, made by the loop that is given its targets. -/
theorem followTargets_refines {n n' : NodeInner} {book book' : PeerBook} {targets : List String}
    {worlds : Nat → SyncWorld} {clock : Nat → UInt64} {asks : List Ask} {r : Except String Unit}
    (h : followTargets sync nowSync n book targets worlds clock = some (asks, r, n', book')) :
    followPeers sync n (targets.mapIdx fun i p => (p, worlds i)) = some (r, n') := by
  induction targets generalizing n book worlds clock asks with
  | nil =>
      simp only [followTargets, Option.some.injEq, Prod.mk.injEq] at h
      rcases h with ⟨_, rfl, rfl, _⟩
      rfl
  | cons p targets ih =>
      rw [List.mapIdx_cons, followPeers]
      rcases followTargets_cons h with ⟨a, rfl, _, ⟨e, hsync, hres, hfatal, _, rfl⟩ | hmore⟩
      · -- Both loops stop at the same error.
        rw [Ask.fatal, hres] at hfatal
        simp only [hsync, Option.bind_eq_bind, Option.bind_some, if_pos hfatal]
      · rcases hmore with ⟨n₁, rest, hsync, hfatal, _, hrest⟩
        have hih := ih hrest
        rw [hsync]
        unfold Ask.fatal at hfatal
        rcases hres : a.result with e | out
        · rw [hres] at hfatal
          simp only [Option.bind_eq_bind, Option.bind_some, hfatal, Bool.false_eq_true, if_false]
          exact hih
        · exact hih

/-- The targets of a turn. -/
def targetsOf (peers : List String) (book : PeerBook) (nowSync : UInt64) : List String :=
  if peers = [] then [] else book.filterAvailable (book.syncCandidates peers) nowSync

/-- The targets of a turn are different addresses that may be called again. -/
theorem targetsOf_spec (peers : List String) (book : PeerBook) (nowSync : UInt64) :
    (targetsOf peers book nowSync).Nodup ∧ ∀ p, p ∈ targetsOf peers book nowSync ↔
      peers ≠ [] ∧ p ∈ book.syncCandidates peers ∧ book.isAvailable p nowSync = true := by
  unfold targetsOf
  by_cases hpeers : peers = []
  · simp [hpeers]
  · rw [if_neg hpeers]
    refine ⟨(book.syncCandidates_spec peers).1.filter _, fun p => ?_⟩
    rw [PeerBook.filterAvailable, List.mem_filter]
    simp [hpeers]

theorem followBook_asked {peers : List String} {n n' : NodeInner} {book book' : PeerBook}
    {w : TurnWorld} {asks : List Ask} {r : Except String Unit}
    (h : followBook sync peers n book w = some (asks, r, n', book')) :
    Asked w.nowSync (targetsOf peers book w.nowSync) book asks r book' := by
  unfold followBook at h
  unfold targetsOf
  by_cases hpeers : peers = []
  · rw [if_pos hpeers, Option.some.injEq, Prod.mk.injEq, Prod.mk.injEq, Prod.mk.injEq] at h
    rcases h with ⟨rfl, rfl, rfl, rfl⟩
    rw [if_pos hpeers]
    exact ⟨List.prefix_refl _, by simp, fun _ => ⟨rfl, by simp⟩, fun _ => rfl⟩
  · rw [if_neg hpeers] at h ⊢
    simp only [Option.bind_eq_bind, Option.bind_eq_some_iff] at h
    rcases h with ⟨⟨asks', e | _, n₁, book₁⟩, hfollow, h⟩
    · rw [Option.some.injEq, Prod.mk.injEq, Prod.mk.injEq, Prod.mk.injEq] at h
      rcases h with ⟨rfl, rfl, rfl, rfl⟩
      exact followTargets_asked hfollow
    · rw [Option.some.injEq, Prod.mk.injEq, Prod.mk.injEq, Prod.mk.injEq] at h
      rcases h with ⟨rfl, _, rfl, rfl⟩
      -- The book could not be saved, or everything was asked.
      have hall := followTargets_asked hfollow
      exact ⟨hall.asked, hall.clock, fun _ => hall.all rfl, fun _ => hall.recorded rfl⟩

/-- Calls to other addresses do not matter. -/
theorem due_append_iff (book : PeerBook) {p : String} (ops : List BookOp) {asks : List Ask}
    (hother : p ∉ asks.map Ask.peer) (now : UInt64) :
    book.Due p (ops ++ asks.map Ask.op) now ↔ book.Due p ops now := by
  have hnone : (asks.map Ask.op).filter (BookOp.mentions p) = [] := by
    rw [List.filter_eq_nil_iff]
    intro op hop hmentions
    rcases List.mem_map.mp hop with ⟨a, ha, rfl⟩
    unfold BookOp.mentions at hmentions
    rw [a.op_addr, Bool.and_eq_true, decide_eq_true_eq] at hmentions
    exact hother (List.mem_map.mpr ⟨a, ha, hmentions.1⟩)
  unfold PeerBook.Due PeerBook.failures PeerBook.lastFailure
  rw [List.filter_append, hnone, List.append_nil]

end Follow

/-! ### The pushes of a turn -/

/-- Whether a push failed. -/
def Push.failed (e : Push) : Bool :=
  match e.result with
  | .ok _ => false
  | .error _ => true

namespace GossipState

/-- A push is about its own peer. -/
theorem settle_ne (s : GossipState) {e : Push} {p : String} (h : e.peer ≠ p) :
    (s.settle e).cooldownUntil.lookup p = s.cooldownUntil.lookup p ∧
      (s.settle e).failStreak.lookup p = s.failStreak.lookup p := by
  unfold settle
  rcases e.result with _ | _
  · simp only
    split_ifs
    · exact ⟨Finmap.lookup_insert_of_ne _ (Ne.symm h), Finmap.lookup_insert_of_ne _ (Ne.symm h)⟩
    · exact ⟨rfl, Finmap.lookup_insert_of_ne _ (Ne.symm h)⟩
  · exact ⟨rfl, Finmap.lookup_erase_ne (Ne.symm h)⟩

theorem cooling_settle_ne (s : GossipState) {e : Push} {p : String} (h : e.peer ≠ p)
    (now : UInt64) : (s.settle e).cooling p now = s.cooling p now := by
  unfold cooling
  rw [(s.settle_ne h).1]

end GossipState

/-- What the gossip of a turn does: it goes through the peers in order, passes
    over those that are cooling, and every push is settled before the next. -/
structure Gossiped (now : UInt64) (peers : List String) (s : GossipState) (pushes : List Push)
    (s' : GossipState) : Prop where
  settled : s' = pushes.foldl GossipState.settle s
  pushed : (pushes.map Push.peer).Sublist peers
  clock : ∀ e ∈ pushes, e.now = now
  ready : ∀ pre e post, pushes = pre ++ e :: post →
    (pre.foldl GossipState.settle s).cooling e.peer now = false
  skipped : ∀ p ∈ peers, p ∉ pushes.map Push.peer → s.cooling p now = true

/-- Nothing is pushed. -/
theorem Gossiped.nil (now : UInt64) (s : GossipState) : Gossiped now [] s [] s :=
  ⟨rfl, List.Sublist.refl _, by simp, by simp, by simp⟩

/-! ### The maps of the gossip -/

/-- The pushes to a peer that failed in a row. -/
def pushFailures (p : String) (pushes : List Push) : Nat :=
  inRow Push.failed 0 (pushes.filter fun e => e.peer = p)

/-- A push completes five failures in a row of its peer. -/
def Trips (pre : List Push) (x : Push) : Prop :=
  x.failed = true ∧ 5 ∣ pushFailures x.peer (pre ++ [x])

theorem pushFailures_concat (p : String) (pushes : List Push) (e : Push) :
    pushFailures p (pushes ++ [e]) =
      if e.peer = p then (if e.failed then pushFailures p pushes + 1 else 0)
      else pushFailures p pushes := by
  unfold pushFailures
  rw [List.filter_append, List.filter_singleton]
  by_cases hp : e.peer = p
  · simp [hp, inRow_concat]
  · simp [hp]

/-- The maps after the pushes of a run: the streak is what is left of the failures
    in a row, and the cooldown was set by a push that completed five of them. -/
structure MapsAfter (pushes : List Push) (s : GossipState) (p : String) : Prop where
  streak : ((s.failStreak.lookup p).getD 0).toNat = pushFailures p pushes % 5
  cooldown : ∀ t, s.cooldownUntil.lookup p = some t → ∃ pre x post, pushes = pre ++ x :: post ∧
    x.peer = p ∧ Trips pre x ∧ t = x.now + gossipCooldownSecs
  tripped : ∀ pre x post, pushes = pre ++ x :: post → x.peer = p → Trips pre x →
    p ∉ post.map Push.peer → s.cooldownUntil.lookup p = some (x.now + gossipCooldownSecs)

/-- A list that ends with an event, split at an event. -/
theorem concat_eq_append_cons {pushes pre post : List Push} {e x : Push}
    (h : pushes ++ [e] = pre ++ x :: post) :
    (post = [] ∧ pushes = pre ∧ e = x) ∨
      ∃ post', post = post' ++ [e] ∧ pushes = pre ++ x :: post' := by
  rcases List.eq_nil_or_concat post with rfl | ⟨post', y, rfl⟩
  · rcases List.append_inj' h rfl with ⟨rfl, hlast⟩
    rw [List.cons.injEq] at hlast
    exact .inl ⟨rfl, rfl, hlast.1⟩
  · rw [List.concat_eq_append, ← List.cons_append, ← List.append_assoc] at h
    rcases List.append_inj' h rfl with ⟨rfl, hlast⟩
    rw [List.cons.injEq] at hlast
    rcases hlast with ⟨rfl, _⟩
    exact .inr ⟨post', List.concat_eq_append, rfl⟩

/-- A push that leaves the cooldown of a peer alone, as it should. -/
theorem MapsAfter.step {pushes : List Push} {s s' : GossipState} {p : String} {e : Push}
    (h : MapsAfter pushes s p)
    (hstreak : ((s'.failStreak.lookup p).getD 0).toNat = pushFailures p (pushes ++ [e]) % 5)
    (hcooldown : s'.cooldownUntil.lookup p = s.cooldownUntil.lookup p)
    (htrip : e.peer = p → ¬ Trips pushes e) : MapsAfter (pushes ++ [e]) s' p := by
  refine ⟨hstreak, fun t ht => ?_, fun pre x post hsplit hx htrips hlast => ?_⟩
  · rcases h.cooldown t (hcooldown ▸ ht) with ⟨pre, x, post, rfl, hx⟩
    exact ⟨pre, x, post ++ [e], by simp, hx⟩
  · rcases concat_eq_append_cons hsplit with ⟨_, rfl, rfl⟩ | ⟨post', rfl, rfl⟩
    · exact absurd htrips (htrip hx)
    · rw [List.map_append, List.mem_append, not_or] at hlast
      rw [hcooldown]
      exact h.tripped pre x post' rfl hx htrips hlast.1

theorem mapsAfter (pushes : List Push) (p : String) :
    MapsAfter pushes (pushes.foldl GossipState.settle .empty) p := by
  induction pushes using List.reverseRecOn with
  | nil => exact ⟨rfl, by simp [GossipState.empty], by simp⟩
  | append_singleton pushes e ih =>
      rw [List.foldl_append, List.foldl_cons, List.foldl_nil]
      generalize pushes.foldl GossipState.settle .empty = s at ih
      have hcount := pushFailures_concat p pushes e
      by_cases hp : e.peer = p
      · -- A push to this peer. Its streak is the number of failures in a row modulo five.
        subst hp
        rw [if_pos rfl] at hcount
        have hstreak := ih.streak
        rcases hres : e.result with err | _
        · have hfailed : e.failed = true := by
            rw [Push.failed, hres]
          rw [if_pos hfailed] at hcount
          have hsucc : (saturatingSucc32 ((s.failStreak.lookup e.peer).getD 0)).toNat =
              pushFailures e.peer pushes % 5 + 1 := by
            rw [saturatingSucc32_toNat (by omega), hstreak]
          have hthreshold : gossipFailThreshold ≤
              saturatingSucc32 ((s.failStreak.lookup e.peer).getD 0) ↔
                4 ≤ pushFailures e.peer pushes % 5 := by
            rw [UInt32.le_iff_toNat_le, hsucc]
            exact Nat.succ_le_succ_iff
          unfold GossipState.settle
          rw [hres]
          simp only
          by_cases hfifth : 4 ≤ pushFailures e.peer pushes % 5
          · -- The fifth failure in a row starts a cooldown.
            rw [if_pos (hthreshold.mpr hfifth)]
            have htrips : Trips pushes e := ⟨hfailed, by rw [hcount]; omega⟩
            refine ⟨?_, fun t ht => ?_, fun pre x post hsplit hx _ hlast => ?_⟩
            · rw [Finmap.lookup_insert, hcount]
              simp only [Option.getD_some]
              have : (0 : UInt32).toNat = 0 := rfl
              omega
            · rw [Finmap.lookup_insert, Option.some.injEq] at ht
              exact ⟨pushes, e, [], rfl, rfl, htrips, ht.symm⟩
            · rcases concat_eq_append_cons hsplit with ⟨_, rfl, rfl⟩ | ⟨post', rfl, rfl⟩
              · exact Finmap.lookup_insert _
              · exact absurd (by simp) hlast
          · -- The other four only count.
            rw [if_neg (fun hc => hfifth (hthreshold.mp hc))]
            refine ih.step ?_ rfl fun _ htrips => ?_
            · rw [Finmap.lookup_insert, hcount, Option.getD_some, hsucc]
              omega
            · have := htrips.2
              rw [hcount] at this
              omega
        · -- A success ends the streak. A cooldown that was started before stays.
          have hfailed : e.failed = false := by
            rw [Push.failed, hres]
          rw [hfailed, if_neg Bool.false_ne_true] at hcount
          unfold GossipState.settle
          rw [hres]
          refine ih.step ?_ rfl fun _ htrips => ?_
          · rw [hcount, Finmap.lookup_erase]
            rfl
          · exact absurd htrips.1 (by rw [hfailed]; exact Bool.false_ne_true)
      · -- A push to another peer touches neither entry.
        rcases s.settle_ne hp with ⟨hcooldown, hstreak⟩
        rw [if_neg hp] at hcount
        refine ih.step ?_ hcooldown fun hc => absurd hc hp
        rw [hstreak, hcount]
        exact ih.streak

/-! ### The gossip of a turn -/

section Gossip

variable [Primitives]

theorem gossipPeers_gossiped {g : Genesis} {b : Block} {now : UInt64} {s s' : GossipState}
    {peers : List String} {connections : Nat → Except IoError Stream} {pushes : List Push}
    (h : gossipPeers g b now s peers connections = some (pushes, s')) :
    Gossiped now peers s pushes s' := by
  induction peers generalizing s connections pushes with
  | nil =>
      simp only [gossipPeers, Option.some.injEq, Prod.mk.injEq] at h
      rcases h with ⟨rfl, rfl⟩
      exact .nil now s
  | cons p peers ih =>
      unfold gossipPeers at h
      by_cases hcool : s.cooling p now = true
      · -- A peer that is cooling is passed over, and for that reason only.
        rw [if_pos hcool] at h
        have hih := ih h
        refine ⟨hih.settled, hih.pushed.cons p, hih.clock, hih.ready, fun q hq hnot => ?_⟩
        rcases List.mem_cons.mp hq with rfl | hq
        · exact hcool
        · exact hih.skipped q hq hnot
      · -- The later peers meet the maps as this push leaves them.
        simp only [if_neg hcool, Option.bind_eq_bind, Option.bind_eq_some_iff, Option.some.injEq,
          Prod.mk.injEq, Prod.exists] at h
        rcases h with ⟨result, _, rest, s₁, hrest, rfl, rfl⟩
        have hih := ih hrest
        refine ⟨hih.settled, hih.pushed.cons_cons p, ?_, ?_, fun q hq hnot => ?_⟩
        · intro e he
          rcases List.mem_cons.mp he with rfl | he
          · rfl
          · exact hih.clock e he
        · intro pre e post heq
          rcases pre with _ | ⟨x, pre⟩
          · rw [List.nil_append, List.cons.injEq] at heq
            rw [← heq.1]
            exact Bool.eq_false_iff.mpr hcool
          · rw [List.cons_append, List.cons.injEq] at heq
            rw [List.foldl_cons, ← heq.1]
            exact hih.ready pre e post heq.2
        · rw [List.map_cons, List.mem_cons, not_or] at hnot
          rcases List.mem_cons.mp hq with rfl | hq
          · exact absurd rfl hnot.1
          · have hcooling := hih.skipped q hq hnot.2
            rwa [s.cooling_settle_ne (Ne.symm hnot.1)] at hcooling

/-- The peers a turn pushes to. -/
def gossipTargets (peers : List String) (sealed : Option Block) : List String :=
  if sealed.isSome then peers else []

theorem gossipSealed_gossiped {g : Genesis} {peers : List String} {sealed : Option Block}
    {s s' : GossipState} {w : TurnWorld} {pushes : List Push}
    (h : gossipSealed g peers sealed s w = some (pushes, s')) :
    Gossiped w.nowGossip (gossipTargets peers sealed) s pushes s' := by
  rcases sealed with _ | b
  · rw [gossipSealed, Option.some.injEq, Prod.mk.injEq] at h
    rcases h with ⟨rfl, rfl⟩
    exact .nil _ s
  · exact gossipPeers_gossiped h

end Gossip

/-- The peers that were asked in a round. -/
def RunRecord.asked : RunRecord → List String
  | .catchUp results => results.map Prod.fst
  | .sealAttempt => []

section Turn

variable [Primitives] {sync : SyncCall} {g : Genesis} {peers : List String}

/-- What a turn does: it stops before the seal is over, it stops in the calls
    that follow, or it goes through. -/
theorem runTurn_cases {s : FullState} {w : TurnWorld} {log : TurnLog}
    {out : Except String FullState} (h : runTurn sync g peers s w = some (log, out)) :
    (log.asks = [] ∧ log.pushes = [] ∧ ∃ e, out = .error e) ∨
      ∃ n n' r book, followBook sync peers n s.peerBook w = some (log.asks, r, n', book) ∧
        ((log.pushes = [] ∧ ∃ e, r = .error e ∧ out = .error e) ∨
          ∃ allowed gossip, r = .ok () ∧
            gossipSealed g peers log.sealed s.gossip w = some (log.pushes, gossip) ∧
            out = .ok ⟨n', book, allowed, gossip⟩) := by
  rw [runTurn, Option.bind_eq_bind, Option.bind_eq_some_iff] at h
  rcases h with ⟨n, _, h⟩
  split_ifs at h with hpoisoned
  · -- The store was poisoned when the turn began.
    rw [Option.some.injEq, Prod.mk.injEq] at h
    rcases h with ⟨rfl, rfl⟩
    exact .inl ⟨rfl, rfl, _, rfl⟩
  simp only [Option.bind_eq_bind, Option.bind_eq_some_iff, Prod.exists] at h
  rcases h with ⟨recs, allowed, n₁, _, sealing, n₂, _, h⟩
  rcases sealing with e | sealed
  · -- The seal failed.
    simp only [Option.some.injEq, Prod.mk.injEq] at h
    rcases h with ⟨rfl, rfl⟩
    exact .inl ⟨rfl, rfl, _, rfl⟩
  simp only [Option.bind_eq_some_iff, Prod.exists] at h
  rcases h with ⟨asks, r, n₃, book, hfollow, h⟩
  rcases r with e | _
  · -- A fatal call ended the turn, or the book could not be saved.
    simp only [Option.some.injEq, Prod.mk.injEq] at h
    rcases h with ⟨rfl, rfl⟩
    exact .inr ⟨n₂, n₃, _, book, hfollow, .inl ⟨rfl, e, rfl, rfl⟩⟩
  · simp only [Option.bind_eq_some_iff, Option.some.injEq, Prod.mk.injEq, Prod.exists] at h
    rcases h with ⟨pushes, gossip, hgossip, rfl, rfl⟩
    exact .inr ⟨n₂, n₃, _, book, hfollow, .inr ⟨allowed, gossip, rfl, hgossip, rfl⟩⟩

/-- A turn that goes through, from its steps. -/
theorem runTurn_of_steps {s : FullState} {w : TurnWorld} {n n₁ n₂ n₃ : NodeInner}
    {recs : List RunRecord} {allowed : Bool} {sealed : Option Block} {asks : List Ask}
    {book : PeerBook} {pushes : List Push} {gossip : GossipState}
    (harrivals : receiveAll s.node w.arrivals = some n) (hstore : n.store.poisoned = false)
    (hretry : retryRound sync peers { n with pool := w.drained n.pool } s.sealingAllowed w.round =
      some (recs, allowed, n₁))
    (hseal : n₁.sealAndPersist allowed w.nowUnix w.calls = some (.ok sealed, n₂))
    (hfollow : followBook sync peers n₂ s.peerBook w = some (asks, .ok (), n₃, book))
    (hgossip : gossipSealed g peers sealed s.gossip w = some (pushes, gossip)) :
    runTurn sync g peers s w =
      some (⟨recs ++ (if allowed then [.sealAttempt] else []), sealed, asks, pushes⟩,
        .ok ⟨n₃, book, allowed, gossip⟩) := by
  simp only [runTurn, harrivals, hstore, Bool.false_eq_true, if_false, hretry, hseal, hfollow,
    hgossip, Option.bind_eq_bind, Option.bind_some]

/-- The calls of a turn, and what they leave in the book and in the maps. -/
structure TurnCalls (peers : List String) (s : FullState) (w : TurnWorld) (log : TurnLog)
    (out : Except String FullState) : Prop where
  asked : log.asks.map Ask.peer <+: targetsOf peers s.peerBook w.nowSync
  askClock : ∀ a ∈ log.asks, a.nowSync = w.nowSync
  pushed : (log.pushes.map Push.peer).Sublist peers
  pushClock : ∀ e ∈ log.pushes, e.now = w.nowGossip
  ready : ∀ pre e post, log.pushes = pre ++ e :: post →
    (pre.foldl GossipState.settle s.gossip).cooling e.peer w.nowGossip = false
  all : ∀ s', out = .ok s' → log.asks.map Ask.peer = targetsOf peers s.peerBook w.nowSync ∧
    (∀ a ∈ log.asks, a.fatal = false) ∧
    ∀ p ∈ peers, log.sealed ≠ none → p ∉ log.pushes.map Push.peer →
      s.gossip.cooling p w.nowGossip = true
  after : ∀ s', out = .ok s' → s'.peerBook = s.peerBook.applyOps (log.asks.map Ask.op) ∧
    s'.gossip = log.pushes.foldl GossipState.settle s.gossip

omit [Primitives] in
/-- A turn that ends the run pushes nothing. -/
theorem TurnCalls.of_error {s : FullState} {w : TurnWorld} {log : TurnLog} {e : String}
    (hasked : log.asks.map Ask.peer <+: targetsOf peers s.peerBook w.nowSync)
    (hclock : ∀ a ∈ log.asks, a.nowSync = w.nowSync) (hpushes : log.pushes = []) :
    TurnCalls peers s w log (.error e) := by
  refine ⟨hasked, hclock, ?_, ?_, ?_, fun s' hs => ?_, fun s' hs => ?_⟩
  · rw [hpushes]
    exact List.nil_sublist _
  · rw [hpushes]
    exact fun a ha => absurd ha List.not_mem_nil
  · rw [hpushes]
    exact fun pre e post heq => absurd heq.symm (by simp)
  · exact absurd hs (by simp only [reduceCtorEq, not_false_eq_true])
  · exact absurd hs (by simp only [reduceCtorEq, not_false_eq_true])

theorem runTurn_calls {s : FullState} {w : TurnWorld} {log : TurnLog}
    {out : Except String FullState} (h : runTurn sync g peers s w = some (log, out)) :
    TurnCalls peers s w log out := by
  rcases runTurn_cases h with ⟨hasks, hpushes, e, rfl⟩ | ⟨n, n', r, book, hfollow, hrest⟩
  · refine .of_error ?_ ?_ hpushes
    · rw [hasks]
      exact List.nil_prefix
    · rw [hasks]
      exact fun a ha => absurd ha List.not_mem_nil
  have hasked := followBook_asked hfollow
  rcases hrest with ⟨hpushes, e, _, rfl⟩ | ⟨allowed, gossip, rfl, hgossip, rfl⟩
  · exact .of_error hasked.asked hasked.clock hpushes
  · have hpushed := gossipSealed_gossiped hgossip
    refine ⟨hasked.asked, hasked.clock, hpushed.pushed.trans ?_, hpushed.clock, hpushed.ready,
      fun s' hs => ⟨(hasked.all rfl).1, (hasked.all rfl).2, fun p hp hsealed hnot => ?_⟩,
      fun s' hs => ?_⟩
    · unfold gossipTargets
      split_ifs
      · exact List.Sublist.refl _
      · exact List.nil_sublist _
    · refine hpushed.skipped p ?_ hnot
      rw [gossipTargets, if_pos (Option.isSome_iff_ne_none.mpr hsealed)]
      exact hp
    · rw [Except.ok.injEq] at hs
      subst hs
      exact ⟨hasked.recorded rfl, hpushed.settled⟩

/-! ### The calls of a run -/

/-- The first turn ends the run, or the others follow it. -/
theorem runTurns_cons {s : FullState} {w : TurnWorld} {ws : List TurnWorld}
    {logs : List TurnLog} {out : Except String FullState}
    (h : runTurns sync g peers s (w :: ws) = some (logs, out)) :
    (∃ log e, runTurn sync g peers s w = some (log, .error e) ∧ logs = [log] ∧ out = .error e) ∨
      ∃ log s₁ rest, runTurn sync g peers s w = some (log, .ok s₁) ∧
        runTurns sync g peers s₁ ws = some (rest, out) ∧ logs = log :: rest := by
  rw [runTurns, Option.bind_eq_bind, Option.bind_eq_some_iff] at h
  rcases h with ⟨⟨log, e | s₁⟩, hturn, h⟩
  · simp only [Option.some.injEq, Prod.mk.injEq] at h
    rcases h with ⟨rfl, rfl⟩
    exact .inl ⟨log, e, hturn, rfl, rfl⟩
  · simp only [Option.bind_eq_bind, Option.bind_eq_some_iff, Option.some.injEq, Prod.mk.injEq,
      Prod.exists] at h
    rcases h with ⟨rest, out', hrest, rfl, rfl⟩
    exact .inr ⟨log, s₁, rest, hturn, hrest, rfl⟩

/-- The turns before an error lead from state to state, and leave their calls in
    the book and in the maps. -/
theorem runTurns_after {s s' : FullState} {ws : List TurnWorld} {logs : List TurnLog}
    (h : runTurns sync g peers s ws = some (logs, .ok s')) :
    s'.peerBook = s.peerBook.applyOps ((logs.flatMap TurnLog.asks).map Ask.op) ∧
      s'.gossip = (logs.flatMap TurnLog.pushes).foldl GossipState.settle s.gossip ∧
      ∀ a ∈ logs.flatMap TurnLog.asks, a.fatal = false := by
  induction ws generalizing s logs with
  | nil =>
      rw [runTurns, Option.some.injEq, Prod.mk.injEq, Except.ok.injEq] at h
      rcases h with ⟨rfl, rfl⟩
      exact ⟨rfl, rfl, by simp⟩
  | cons w ws ih =>
      rcases runTurns_cons h with ⟨_, _, _, _, hout⟩ | ⟨log, s₁, rest, hturn, hrest, rfl⟩
      · exact absurd hout (by simp only [reduceCtorEq, not_false_eq_true])
      · have hcalls := runTurn_calls hturn
        rcases hcalls.after s₁ rfl with ⟨hbook, hgossip⟩
        rcases ih hrest with ⟨hbook', hgossip', hfatal⟩
        simp only [List.flatMap_cons, List.map_append, List.foldl_append]
        refine ⟨?_, ?_, ?_⟩
        · rw [hbook', hbook, PeerBook.applyOps_append]
        · rw [hgossip', hgossip]
        · intro a ha
          rcases List.mem_append.mp ha with ha | ha
          · exact (hcalls.all s₁ rfl).2.1 a ha
          · exact hfatal a ha

/-- A turn of a run starts in the state that the turns before it lead to. -/
theorem runTurns_at {s : FullState} {ws : List TurnWorld} {before after : List TurnLog}
    {log : TurnLog} {out : Except String FullState}
    (h : runTurns sync g peers s ws = some (before ++ log :: after, out)) :
    ∃ s₁ w out₁, runTurns sync g peers s (ws.take before.length) = some (before, .ok s₁) ∧
      ws[before.length]? = some w ∧ runTurn sync g peers s₁ w = some (log, out₁) ∧
      (after ≠ [] ∨ (∃ s', out = .ok s') → ∃ s₂, out₁ = .ok s₂) := by
  induction ws generalizing s before with
  | nil =>
      rw [runTurns, Option.some.injEq, Prod.mk.injEq] at h
      exact absurd h.1.symm (by simp)
  | cons w ws ih =>
      rcases runTurns_cons h with
        ⟨log₁, e, hturn, hlogs, rfl⟩ | ⟨log₁, s₁, rest, hturn, hrest, hlogs⟩
      · -- The run ends with its first turn.
        rcases before with _ | ⟨x, before⟩
        · rw [List.nil_append, List.cons.injEq] at hlogs
          rcases hlogs with ⟨rfl, rfl⟩
          refine ⟨s, w, _, rfl, rfl, hturn, fun hmore => ?_⟩
          rcases hmore with hmore | ⟨s', hs'⟩
          · exact absurd rfl hmore
          · exact absurd hs' (by simp only [reduceCtorEq, not_false_eq_true])
        · exact absurd hlogs (by simp)
      · rcases before with _ | ⟨x, before⟩
        · rw [List.nil_append, List.cons.injEq] at hlogs
          rcases hlogs with ⟨rfl, rfl⟩
          exact ⟨s, w, _, rfl, rfl, hturn, fun _ => ⟨s₁, rfl⟩⟩
        · -- The turn is among the later ones, which start where the first one ended.
          rw [List.cons_append, List.cons.injEq] at hlogs
          rcases hlogs with ⟨rfl, rfl⟩
          rcases ih hrest with ⟨s₂, w', out₁, hbefore, hw, hat, hok⟩
          refine ⟨s₂, w', out₁, ?_, hw, hat, hok⟩
          rw [List.length_cons, List.take_succ_cons, runTurns, hturn]
          simp only [Option.bind_eq_bind, Option.bind_some, hbefore]

/-- What was done to the book before some calls were made, and in them. -/
def opsSoFar (peers : List String) (asks : List Ask) : List BookOp :=
  peers.map .mergeSeed ++ asks.map Ask.op

/-- A run that gets to its loop starts it with the configured peers in the book
    and with empty maps. -/
theorem fullRun_cases {n : NodeInner} {book : PeerBook} {w : StartWorld} {ws : List TurnWorld}
    {start : List RunRecord} {logs : List TurnLog} {out : Except String FullState}
    (h : fullRun sync peers n book w ws = some (start, logs, out)) :
    (logs = [] ∧ ∃ e, out = .error e) ∨
      ∃ s, fullStart sync peers n book w = some (start, .ok s) ∧
        s.peerBook = book.applyOps (peers.map .mergeSeed) ∧ s.gossip = .empty ∧
        runTurns sync n.genesis peers s ws = some (logs, out) := by
  rw [fullRun, Option.bind_eq_bind, Option.bind_eq_some_iff] at h
  rcases h with ⟨⟨start', e | s⟩, hstart, h⟩
  · simp only [Option.some.injEq, Prod.mk.injEq] at h
    rcases h with ⟨_, rfl, rfl⟩
    exact .inl ⟨rfl, e, rfl⟩
  · simp only [Option.bind_eq_bind, Option.bind_eq_some_iff, Option.some.injEq, Prod.mk.injEq,
      Prod.exists] at h
    rcases h with ⟨logs', out', hturns, rfl, rfl, rfl⟩
    -- Only the configured peers are merged before the loop, and nothing is pushed.
    have hmerged : peers.foldl PeerBook.mergeSeed book = book.applyOps (peers.map .mergeSeed) := by
      rw [PeerBook.applyOps, List.foldl_map]
      rfl
    have hs : s.peerBook = book.applyOps (peers.map .mergeSeed) ∧ s.gossip = .empty := by
      unfold fullStart at hstart
      rw [hmerged] at hstart
      rcases hsaved : w.bookSaved with e | _
      · simp only [hsaved, Option.some.injEq, Prod.mk.injEq, reduceCtorEq, and_false] at hstart
      · simp only [hsaved] at hstart
        split_ifs at hstart with hpeers
        · rcases hlisten : w.listening with e | _
          · simp only [hlisten, Except.map, Option.some.injEq, Prod.mk.injEq, reduceCtorEq,
              and_false] at hstart
          · simp only [hlisten, Except.map, Option.some.injEq, Prod.mk.injEq,
              Except.ok.injEq] at hstart
            rcases hstart with ⟨_, rfl⟩
            exact ⟨rfl, rfl⟩
        · simp only [Option.bind_eq_bind, Option.bind_eq_some_iff, Option.some.injEq,
            Prod.mk.injEq, Prod.exists] at hstart
          rcases hstart with ⟨results, n₁, _, _, hstart⟩
          generalize (do w.bookSavedAgain; w.listening : Except String Unit) = setup at hstart
          rcases setup with e | _
          · simp only [Except.map, reduceCtorEq] at hstart
          · simp only [Except.map, Except.ok.injEq] at hstart
            rcases hstart with rfl
            exact ⟨rfl, rfl⟩
    exact .inr ⟨s, hstart, hs.1, hs.2, hturns⟩

omit [Primitives] in
/-- The failures of a peer of which every call failed. -/
theorem failures_of_failed (book : PeerBook) (peers : List String) {p : String} (asks : List Ask)
    (h : ∀ a ∈ asks, a.peer = p → a.failed = true) :
    (asks.filter fun a => a.peer = p).length ≤ book.failures p (opsSoFar peers asks) ∧
      ∀ pre a, asks.filter (fun a => a.peer = p) = pre ++ [a] →
        book.lastFailure p (opsSoFar peers asks) = a.recordedAt := by
  -- Each call of the peer is recorded as a failure, and no merge is a record.
  have hop : ∀ a ∈ asks.filter fun a => a.peer = p, a.op = .recordFail p a.recordedAt := by
    intro a ha
    rw [List.mem_filter, decide_eq_true_eq] at ha
    have hfailed := h a ha.1 ha.2
    unfold Ask.failed at hfailed
    unfold Ask.op
    rcases hres : a.result with e | _
    · rw [ha.2]
    · rw [hres] at hfailed
      exact absurd hfailed Bool.false_ne_true
  have hmine : ((asks.map Ask.op).filter (BookOp.mentions p)) =
      (asks.filter fun a => a.peer = p).map fun a => .recordFail p a.recordedAt := by
    rw [← List.map_congr_left hop, List.filter_map]
    congr 1
    refine List.filter_congr fun a _ => ?_
    unfold Ask.op BookOp.mentions
    rcases hres : a.result with e | _
    · simp [BookOp.addr, BookOp.isRecord, hres]
    · simp [BookOp.addr, BookOp.isRecord, hres]
  have hseeds : ((peers.map BookOp.mergeSeed).filter (BookOp.mentions p)).filter
      BookOp.isRecord = [] := by
    simp [List.filter_eq_nil_iff, BookOp.isRecord]
  have hseedTimes : ((peers.map BookOp.mergeSeed).filter (BookOp.mentions p)).filterMap
      BookOp.failTime = [] := by
    rw [List.filterMap_eq_nil_iff]
    intro op hop
    rcases List.mem_map.mp (List.mem_filter.mp hop).1 with ⟨addr, _, rfl⟩
    rfl
  constructor
  · unfold PeerBook.failures opsSoFar
    rw [List.filter_append, List.filter_append, hseeds, List.nil_append, hmine]
    generalize asks.filter (fun a => decide (a.peer = p)) = mine
    have hrecords : (mine.map fun a => BookOp.recordFail p a.recordedAt).filter BookOp.isRecord =
        mine.map fun a => .recordFail p a.recordedAt :=
      List.filter_eq_self.mpr (by simp [BookOp.isRecord])
    rw [hrecords, inRow_of_all _ (by simp [BookOp.failed]), List.length_map]
    exact Nat.le_add_left _ _
  · intro pre a hlast
    unfold PeerBook.lastFailure opsSoFar
    rw [List.filter_append, List.filterMap_append, hseedTimes, List.nil_append, hmine, hlast,
      List.map_append, List.filterMap_append]
    simp [BookOp.failTime]

section Run

variable {n : NodeInner} {book : PeerBook} {w : StartWorld} {ws : List TurnWorld}
  {start : List RunRecord} {out : Except String FullState}

/-- A turn of a run, with the book and the maps that the calls before it left. -/
theorem fullRun_at {before after : List TurnLog} {log : TurnLog}
    (h : fullRun sync peers n book w ws = some (start, before ++ log :: after, out)) :
    ∃ s w' out', s.peerBook = book.applyOps (opsSoFar peers (before.flatMap TurnLog.asks)) ∧
      s.gossip = (before.flatMap TurnLog.pushes).foldl GossipState.settle .empty ∧
      ws[before.length]? = some w' ∧ TurnCalls peers s w' log out' ∧
      (after ≠ [] ∨ (∃ s', out = .ok s') → ∃ s', out' = .ok s') := by
  rcases fullRun_cases h with ⟨hnil, _⟩ | ⟨s₀, _, hbook, hgossip, hturns⟩
  · exact absurd hnil (by simp)
  rcases runTurns_at hturns with ⟨s, w', out', hbefore, hw, hturn, hok⟩
  rcases runTurns_after hbefore with ⟨hbook', hgossip', _⟩
  refine ⟨s, w', out', ?_, ?_, hw, runTurn_calls hturn, hok⟩
  · rw [hbook', hbook, opsSoFar, PeerBook.applyOps_append]
  · rw [hgossip', hgossip]

/-- A peer that is asked may be called again. -/
theorem ask_due {logs : List TurnLog}
    (h : fullRun sync peers n book w ws = some (start, logs, out)) {before after : List Ask}
    {a : Ask} (hsplit : logs.flatMap TurnLog.asks = before ++ a :: after) :
    book.Due a.peer (opsSoFar peers before) a.nowSync := by
  rcases flatMap_eq_append_cons hsplit with ⟨turns, log, later, pre, post, rfl, hasks, rfl, _⟩
  rcases fullRun_at h with ⟨s, w', out', hbook, _, _, hcalls, _⟩
  -- The call is within a turn, whose targets were chosen on the book at its start.
  have hnodup := (targetsOf_spec peers s.peerBook w'.nowSync).1.sublist hcalls.asked.sublist
  have ha : a ∈ log.asks := by
    rw [hasks]
    simp
  have hin := hcalls.asked.subset (List.mem_map_of_mem ha)
  have havail := (((targetsOf_spec peers s.peerBook w'.nowSync).2 a.peer).mp hin).2.2
  rw [hbook, PeerBook.isAvailable_applyOps, ← hcalls.askClock a ha] at havail
  rw [opsSoFar, List.map_append, ← List.append_assoc]
  -- A peer is asked once in a turn.
  refine (due_append_iff book _ ?_ _).mpr havail
  rw [hasks, List.map_append, List.map_cons, List.nodup_append'] at hnodup
  exact fun hc => hnodup.2.2 hc List.mem_cons_self

/-- A push comes after the cooldown that an earlier one started. -/
theorem push_waits {logs : List TurnLog}
    (h : fullRun sync peers n book w ws = some (start, logs, out)) {before mid after : List Push}
    {x e : Push} (hsplit : logs.flatMap TurnLog.pushes = before ++ x :: (mid ++ e :: after))
    (hpeer : x.peer = e.peer) (hlast : e.peer ∉ mid.map Push.peer) (htrips : Trips before x) :
    x.now + gossipCooldownSecs ≤ e.now := by
  rw [← List.cons_append, ← List.append_assoc] at hsplit
  rcases flatMap_eq_append_cons hsplit with ⟨turns, log, later, pre, post, rfl, hpushes, hsofar, _⟩
  rcases fullRun_at h with ⟨s, w', out', _, hgossip, _, hcalls, _⟩
  -- The push is within a turn, and the maps before it come from all earlier pushes.
  have hready := hcalls.ready pre e post hpushes
  rw [hgossip, ← List.foldl_append, ← hsofar] at hready
  -- Nothing was pushed to the peer since it was left alone.
  have hcool := (mapsAfter (before ++ x :: mid) e.peer).tripped before x mid rfl hpeer htrips hlast
  rw [GossipState.cooling, hcool, Option.any_some, decide_eq_false_iff_not] at hready
  rw [hcalls.pushClock e (by rw [hpushes]; simp)]
  exact UInt64.not_lt.mp hready

/-- The peers a run asks for blocks after its seals: a peer is asked only when
    the wait for its failures in a row is over, and a configured peer is asked in
    every turn in which it is. -/
theorem ask_backoff {logs : List TurnLog}
    (h : fullRun sync peers n book w ws = some (start, logs, out)) :
    (∀ before a after, logs.flatMap TurnLog.asks = before ++ a :: after →
      book.Due a.peer (opsSoFar peers before) a.nowSync) ∧
    ∀ before log after w', logs = before ++ log :: after → ws[before.length]? = some w' →
      (after ≠ [] ∨ ∃ s, out = .ok s) → ∀ p ∈ peers.map trim, p ≠ "" →
        (p ∈ log.asks.map Ask.peer ↔
          book.Due p (opsSoFar peers (before.flatMap TurnLog.asks)) w'.nowSync) := by
  refine ⟨fun before a after hsplit => ask_due h hsplit, ?_⟩
  intro before log after w' hlogs hw hdone p hp hne
  subst hlogs
  rcases fullRun_at h with ⟨s, w'', out', hbook, _, hw', hcalls, hok⟩
  rw [hw, Option.some.injEq] at hw'
  subst hw'
  rcases hok hdone with ⟨s', rfl⟩
  -- The turn went through, so it asked all of its targets.
  rw [(hcalls.all s' rfl).1, (targetsOf_spec peers s.peerBook w'.nowSync).2, hbook,
    PeerBook.isAvailable_applyOps]
  have hcandidate := ((s.peerBook.syncCandidates_spec peers).2 p).mpr (.inl ⟨hne, hp⟩)
  have hpeers : peers ≠ [] := by
    intro hc
    rw [hc] at hp
    exact absurd hp List.not_mem_nil
  rw [hbook] at hcandidate
  exact ⟨fun hd => hd.2.2, fun hd => ⟨hpeers, hcandidate, hd⟩⟩

/-- The pushes of a run: after every fifth failure in a row of a peer it is left
    alone for 45 seconds, and a configured peer is passed over for no other
    reason. -/
theorem gossip_cooldown {logs : List TurnLog}
    (h : fullRun sync peers n book w ws = some (start, logs, out)) :
    (∀ before x mid e after, logs.flatMap TurnLog.pushes = before ++ x :: (mid ++ e :: after) →
      x.peer = e.peer → e.peer ∉ mid.map Push.peer → Trips before x →
        x.now + gossipCooldownSecs ≤ e.now) ∧
    ∀ before log after w', logs = before ++ log :: after → ws[before.length]? = some w' →
      (after ≠ [] ∨ ∃ s, out = .ok s) → log.sealed ≠ none → ∀ p ∈ peers,
        p ∉ log.pushes.map Push.peer → ∃ pre x post,
          before.flatMap TurnLog.pushes = pre ++ x :: post ∧ x.peer = p ∧ Trips pre x ∧
            w'.nowGossip < x.now + gossipCooldownSecs := by
  refine ⟨fun before x mid e after hsplit hpeer hlast htrips =>
    push_waits h hsplit hpeer hlast htrips, ?_⟩
  intro before log after w' hlogs hw hdone hsealed p hp hnot
  subst hlogs
  rcases fullRun_at h with ⟨s, w'', out', _, hgossip, hw', hcalls, hok⟩
  rw [hw, Option.some.injEq] at hw'
  subst hw'
  rcases hok hdone with ⟨s', rfl⟩
  -- The turn went through, so only a cooldown excuses it.
  have hcool := (hcalls.all s' rfl).2.2 p hp hsealed hnot
  rw [GossipState.cooling, Option.any_eq_true] at hcool
  rcases hcool with ⟨t, ht, hlt⟩
  rw [hgossip] at ht
  rcases (mapsAfter _ p).cooldown t ht with ⟨pre, x, post, heq, hx, htrips, rfl⟩
  exact ⟨pre, x, post, heq, hx, htrips, of_decide_eq_true hlt⟩

/-- Two calls to a peer of which every call failed, the first of them the fifth
    or a later one. -/
theorem asks_spaced {logs : List TurnLog}
    (h : fullRun sync peers n book w ws = some (start, logs, out)) {p : String}
    (hfailed : ∀ a ∈ logs.flatMap TurnLog.asks, a.peer = p → a.failed = true)
    (pre post : List Ask) (y z : Ask)
    (hsplit : (logs.flatMap TurnLog.asks).filter (fun a => a.peer = p) = pre ++ y :: z :: post)
    (hfifth : 4 ≤ pre.length) : y.recordedAt.toNat + 150 ≤ z.nowSync.toNat := by
  have hz : z.peer = p := by
    have hin : z ∈ (logs.flatMap TurnLog.asks).filter fun a => a.peer = p := by
      rw [hsplit]
      simp
    exact of_decide_eq_true (List.mem_filter.mp hin).2
  have hy : y.peer = p := by
    have hin : y ∈ (logs.flatMap TurnLog.asks).filter fun a => a.peer = p := by
      rw [hsplit]
      simp
    exact of_decide_eq_true (List.mem_filter.mp hin).2
  rcases filter_eq_append_cons_cons hsplit with ⟨before, mid, after, hall, hpre, hmid⟩
  -- The later call was due, with the earlier one among the failures before it.
  have hdue : book.Due z.peer (opsSoFar peers (before ++ y :: mid)) z.nowSync :=
    ask_due h (by rw [hall, List.append_assoc, List.cons_append])
  rw [hz] at hdue
  have hmine : (before ++ y :: mid).filter (fun a => a.peer = p) = pre ++ [y] := by
    rw [List.filter_append, hpre, List.filter_cons, if_pos (decide_eq_true hy),
      List.filter_eq_nil_iff.mpr hmid]
  have hbefore : ∀ a ∈ before ++ y :: mid, a ∈ logs.flatMap TurnLog.asks := by
    intro a ha
    rw [hall, ← List.cons_append, ← List.append_assoc]
    exact List.mem_append_left _ ha
  rcases failures_of_failed book peers _ (fun a ha => hfailed a (hbefore a ha)) with
    ⟨hcount, hlast⟩
  rw [hmine, List.length_append, List.length_singleton] at hcount
  unfold PeerBook.Due at hdue
  rw [hlast pre y hmine] at hdue
  omega

/-- Two pushes to a peer of which every push failed, the first of them completing
    five. -/
theorem pushes_spaced {logs : List TurnLog}
    (h : fullRun sync peers n book w ws = some (start, logs, out)) {p : String}
    (hfailed : ∀ e ∈ logs.flatMap TurnLog.pushes, e.peer = p → e.failed = true)
    (pre post : List Push) (y z : Push)
    (hsplit : (logs.flatMap TurnLog.pushes).filter (fun e => e.peer = p) = pre ++ y :: z :: post)
    (hfifth : 5 ∣ pre.length + 1) : y.now + gossipCooldownSecs ≤ z.now := by
  have hin : ∀ e ∈ pre ++ y :: z :: post, e ∈ logs.flatMap TurnLog.pushes ∧ e.peer = p := by
    intro e he
    rw [← hsplit, List.mem_filter, decide_eq_true_eq] at he
    exact he
  have hy := hin y (by simp)
  have hz := hin z (by simp)
  rcases filter_eq_append_cons_cons hsplit with ⟨before, mid, after, hall, hpre, hmid⟩
  -- The earlier push is the last one to the peer before the later one.
  refine push_waits h hall (hy.2.trans hz.2.symm) ?_ ⟨hfailed y hy.1 hy.2, ?_⟩
  · rw [hz.2]
    intro hc
    rcases List.mem_map.mp hc with ⟨e, he, hpeer⟩
    exact hmid e he (decide_eq_true hpeer)
  · have hmine : (before ++ [y]).filter (fun e => e.peer = y.peer) = pre ++ [y] := by
      rw [List.filter_append, hy.2, hpre]
      simp [hy.2]
    unfold pushFailures
    rw [hmine, inRow_of_all Push.failed fun e he => ?_]
    · rw [List.length_append, List.length_singleton, Nat.zero_add]
      exact hfifth
    · have he' : e ∈ pre ++ y :: z :: post := by
        rw [List.append_cons]
        exact List.mem_append_left _ he
      exact hfailed e (hin e he').1 (hin e he').2

/-- How often a peer that never answers is asked for blocks. -/
theorem asks_length_le {logs : List TurnLog}
    (h : fullRun sync peers n book w ws = some (start, logs, out)) {p : String} {lo hi : Nat}
    (hasks : ∀ a ∈ logs.flatMap TurnLog.asks, a.peer = p → a.failed = true ∧
      a.nowSync ≤ a.recordedAt ∧ lo ≤ a.nowSync.toNat ∧ a.nowSync.toNat ≤ hi)
    (hclock : (logs.flatMap TurnLog.asks).Pairwise fun a a' => a.nowSync ≤ a'.nowSync) :
    ((logs.flatMap TurnLog.asks).filter fun a => a.peer = p).length ≤ 5 + (hi - lo) / 150 := by
  -- Five calls are free, and each further one costs 150 seconds.
  have hgaps : ∀ m, ∑ i ∈ Finset.range m, (if 4 ≤ i then 150 else 0) = 150 * (m - 4) := by
    intro m
    induction m with
    | zero => rfl
    | succ m ih =>
        rw [Finset.sum_range_succ, ih]
        split_ifs
        · omega
        · omega
  have hmine := hclock.filter fun a => a.peer = p
  have hspaced := asks_spaced h fun a ha hp => (hasks a ha hp).1
  have hin : ∀ a ∈ (logs.flatMap TurnLog.asks).filter fun a => a.peer = p,
      a.nowSync ≤ a.recordedAt ∧ lo ≤ a.nowSync.toNat ∧ a.nowSync.toNat ≤ hi := by
    intro a ha
    rw [List.mem_filter, decide_eq_true_eq] at ha
    exact (hasks a ha.1 ha.2).2
  generalize (logs.flatMap TurnLog.asks).filter (fun a => decide (a.peer = p)) = mine
    at hmine hspaced hin ⊢
  have hsum : ∑ i ∈ Finset.range (mine.length - 1), (if 4 ≤ i then 150 else 0) ≤ hi - lo := by
    refine sum_le_of_spaced (fun a : Ask => a.nowSync.toNat) (fun i => if 4 ≤ i then 150 else 0)
      (fun a ha => (hin a ha).2) fun pre y z post hsplit => ?_
    subst hsplit
    by_cases hfifth : 4 ≤ pre.length
    · have hwait := hspaced pre post y z rfl hfifth
      have hrecorded := UInt64.le_iff_toNat_le.mp (hin y (by simp)).1
      simp only [if_pos hfifth]
      omega
    · -- Before the fifth call there is only the clock.
      rw [List.pairwise_append, List.pairwise_cons] at hmine
      have hle := UInt64.le_iff_toNat_le.mp (hmine.2.1.1 z (by simp))
      simp only [if_neg hfifth]
      exact hle
  rw [hgaps] at hsum
  omega

/-- How often a block is pushed to a peer that never takes one. -/
theorem pushes_length_le {logs : List TurnLog}
    (h : fullRun sync peers n book w ws = some (start, logs, out)) {p : String} {lo hi : Nat}
    (hhi : hi + 45 < 2 ^ 64)
    (hpushes : ∀ e ∈ logs.flatMap TurnLog.pushes, e.peer = p → e.failed = true ∧
      lo ≤ e.now.toNat ∧ e.now.toNat ≤ hi)
    (hclock : (logs.flatMap TurnLog.pushes).Pairwise fun e e' => e.now ≤ e'.now) :
    ((logs.flatMap TurnLog.pushes).filter fun e => e.peer = p).length ≤
      5 + 5 * ((hi - lo) / 45) := by
  -- Every fifth push costs 45 seconds.
  have hgaps : ∀ m, ∑ i ∈ Finset.range m, (if 5 ∣ i + 1 then 45 else 0) = 45 * (m / 5) := by
    intro m
    induction m with
    | zero => rfl
    | succ m ih =>
        rw [Finset.sum_range_succ, ih]
        split_ifs
        · omega
        · omega
  have hmine := hclock.filter fun e => e.peer = p
  have hspaced := pushes_spaced h fun e he hp => (hpushes e he hp).1
  have hin : ∀ e ∈ (logs.flatMap TurnLog.pushes).filter fun e => e.peer = p,
      lo ≤ e.now.toNat ∧ e.now.toNat ≤ hi := by
    intro e he
    rw [List.mem_filter, decide_eq_true_eq] at he
    exact (hpushes e he.1 he.2).2
  generalize (logs.flatMap TurnLog.pushes).filter (fun e => decide (e.peer = p)) = mine
    at hmine hspaced hin ⊢
  have hsum : ∑ i ∈ Finset.range (mine.length - 1), (if 5 ∣ i + 1 then 45 else 0) ≤ hi - lo := by
    refine sum_le_of_spaced (fun e : Push => e.now.toNat) (fun i => if 5 ∣ i + 1 then 45 else 0)
      hin fun pre y z post hsplit => ?_
    subst hsplit
    by_cases hfifth : 5 ∣ pre.length + 1
    · have hwait := UInt64.le_iff_toNat_le.mp (hspaced pre post y z rfl hfifth)
      have hy := (hin y (by simp)).2
      have hsecs : gossipCooldownSecs.toNat = 45 := rfl
      rw [UInt64.toNat_add, hsecs, Nat.mod_eq_of_lt (by omega)] at hwait
      simp only [if_pos hfifth]
      exact hwait
    · -- Between other pushes there is only the clock.
      rw [List.pairwise_append, List.pairwise_cons] at hmine
      have hle := UInt64.le_iff_toNat_le.mp (hmine.2.1.1 z (by simp))
      simp only [if_neg hfifth]
      exact hle
  rw [hgaps] at hsum
  omega

/-! ### The rounds of catching up -/

omit [Primitives] in
/-- A round that is repeated asks every peer once, and one that is not repeated
    asks nobody. -/
theorem retryRound_asked {n n' : NodeInner} {allowed allowed' : Bool} {round : Nat → SyncWorld}
    {recs : List RunRecord}
    (h : retryRound sync peers n allowed round = some (recs, allowed', n')) :
    (recs.flatMap RunRecord.asked).Sublist peers := by
  unfold retryRound at h
  split_ifs at h with hidle
  · simp only [Option.some.injEq, Prod.mk.injEq] at h
    rw [← h.1]
    exact List.nil_sublist _
  · simp only [Option.bind_eq_bind, Option.bind_eq_some_iff, Option.some.injEq, Prod.mk.injEq,
      Prod.exists] at h
    rcases h with ⟨results, n₁, hround, rfl, _⟩
    rw [List.flatMap_singleton, RunRecord.asked, catchUpRound_peers hround]

theorem runTurn_asked {s : FullState} {w : TurnWorld} {log : TurnLog}
    {out : Except String FullState} (h : runTurn sync g peers s w = some (log, out)) :
    (log.records.flatMap RunRecord.asked).Sublist peers := by
  rw [runTurn, Option.bind_eq_bind, Option.bind_eq_some_iff] at h
  rcases h with ⟨n, _, h⟩
  split_ifs at h with hpoisoned
  · rw [Option.some.injEq, Prod.mk.injEq] at h
    rw [← h.1]
    exact List.nil_sublist _
  simp only [Option.bind_eq_bind, Option.bind_eq_some_iff, Prod.exists] at h
  rcases h with ⟨recs, allowed, n₁, hretry, sealing, n₂, _, h⟩
  -- However the turn goes on, these are its records.
  have hrecords : log.records = recs ++ (if allowed then [.sealAttempt] else []) := by
    rcases sealing with e | sealed
    · simp only [Option.some.injEq, Prod.mk.injEq] at h
      rw [← h.1]
    simp only [Option.bind_eq_some_iff, Prod.exists] at h
    rcases h with ⟨asks, e | _, n₃, book, _, h⟩
    · simp only [Option.some.injEq, Prod.mk.injEq] at h
      rw [← h.1]
    · simp only [Option.bind_eq_some_iff, Option.some.injEq, Prod.mk.injEq, Prod.exists] at h
      rcases h with ⟨pushes, gossip, _, rfl, _⟩
      rfl
  have hseal : ((if allowed then [.sealAttempt] else [] : List RunRecord).flatMap
      RunRecord.asked) = [] := by
    cases allowed with
    | true => rfl
    | false => rfl
  rw [hrecords, List.flatMap_append, hseal, List.append_nil]
  exact retryRound_asked hretry

theorem runTurns_asked {s : FullState} {ws : List TurnWorld} {logs : List TurnLog}
    {out : Except String FullState} (h : runTurns sync g peers s ws = some (logs, out)) :
    ∀ log ∈ logs, (log.records.flatMap RunRecord.asked).Sublist peers := by
  induction ws generalizing s logs with
  | nil =>
      rw [runTurns, Option.some.injEq, Prod.mk.injEq] at h
      rw [← h.1]
      exact fun log hlog => absurd hlog List.not_mem_nil
  | cons w ws ih =>
      rcases runTurns_cons h with ⟨log, e, hturn, rfl, _⟩ | ⟨log, s₁, rest, hturn, hrest, rfl⟩
      · exact List.forall_mem_singleton.mpr (runTurn_asked hturn)
      · exact List.forall_mem_cons.mpr ⟨runTurn_asked hturn, ih hrest⟩

omit [Primitives] in
theorem fullStart_asked {r : Except String FullState}
    (h : fullStart sync peers n book w = some (start, r)) :
    (start.flatMap RunRecord.asked).Sublist peers := by
  unfold fullStart at h
  rcases hsaved : w.bookSaved with e | _
  · simp only [hsaved, Option.some.injEq, Prod.mk.injEq] at h
    rw [← h.1]
    exact List.nil_sublist _
  simp only [hsaved] at h
  split_ifs at h with hpeers
  · rw [Option.some.injEq, Prod.mk.injEq] at h
    rw [← h.1]
    exact List.nil_sublist _
  · simp only [Option.bind_eq_bind, Option.bind_eq_some_iff, Option.some.injEq, Prod.mk.injEq,
      Prod.exists] at h
    rcases h with ⟨results, n₁, hround, rfl, _⟩
    rw [List.flatMap_singleton, RunRecord.asked, catchUpRound_peers hround]

/-- A run asks every peer at most once before its loop, and at most once in every
    turn before the seal. -/
theorem rounds_asked {logs : List TurnLog}
    (h : fullRun sync peers n book w ws = some (start, logs, out)) :
    (start.flatMap RunRecord.asked).Sublist peers ∧
      ∀ log ∈ logs, (log.records.flatMap RunRecord.asked).Sublist peers := by
  rw [fullRun, Option.bind_eq_bind, Option.bind_eq_some_iff] at h
  rcases h with ⟨⟨first, e | s⟩, hfirst, h⟩
  · -- The run ends before its loop.
    simp only [Option.some.injEq, Prod.mk.injEq] at h
    rcases h with ⟨rfl, rfl, _⟩
    exact ⟨fullStart_asked hfirst, fun log hlog => absurd hlog List.not_mem_nil⟩
  · simp only [Option.bind_eq_bind, Option.bind_eq_some_iff, Option.some.injEq, Prod.mk.injEq,
      Prod.exists] at h
    rcases h with ⟨logs', out', hturns, rfl, rfl, _⟩
    exact ⟨fullStart_asked hfirst, runTurns_asked hturns⟩

omit [Primitives] in
/-- The calls of the rounds of some turns. -/
theorem count_asked_le {logs : List TurnLog}
    (h : ∀ log ∈ logs, (log.records.flatMap RunRecord.asked).Sublist peers) (p : String) :
    ((logs.flatMap TurnLog.records).flatMap RunRecord.asked).count p ≤
      logs.length * peers.count p := by
  induction logs with
  | nil => exact Nat.zero_le _
  | cons log logs ih =>
      rw [List.forall_mem_cons] at h
      have hlog := h.1.count_le p
      have hrest := ih h.2
      rw [List.flatMap_cons, List.flatMap_append, List.count_append, List.length_cons,
        Nat.succ_mul]
      omega

/-- The rounds of a run ask a peer at most once for each turn, and once before. -/
theorem rounds_count_le {logs : List TurnLog}
    (h : fullRun sync peers n book w ws = some (start, logs, out)) (p : String) :
    ((start ++ logs.flatMap TurnLog.records).flatMap RunRecord.asked).count p ≤
      (logs.length + 1) * peers.count p := by
  rcases rounds_asked h with ⟨hstart, hlogs⟩
  have hfirst := hstart.count_le p
  have hturns := count_asked_le hlogs p
  rw [List.flatMap_append, List.count_append, Nat.succ_mul]
  omega

/-- How often a peer that never answers is called, while the clock reads from
    `lo` to `hi`: after the first five calls of each kind, it is asked at most once
    in 150 seconds behind the seals and gets at most five pushes in 45 seconds. The
    rounds before the seals know no wait, and ask a configured peer up to once in
    every turn. -/
theorem dead_peer_load {logs : List TurnLog}
    (h : fullRun sync peers n book w ws = some (start, logs, out)) {p : String} {lo hi : Nat}
    (hhi : hi + 45 < 2 ^ 64)
    (hasks : ∀ a ∈ logs.flatMap TurnLog.asks, a.peer = p → a.failed = true ∧
      a.nowSync ≤ a.recordedAt ∧ lo ≤ a.nowSync.toNat ∧ a.nowSync.toNat ≤ hi)
    (hpushes : ∀ e ∈ logs.flatMap TurnLog.pushes, e.peer = p → e.failed = true ∧
      lo ≤ e.now.toNat ∧ e.now.toNat ≤ hi)
    (haskClock : (logs.flatMap TurnLog.asks).Pairwise fun a a' => a.nowSync ≤ a'.nowSync)
    (hpushClock : (logs.flatMap TurnLog.pushes).Pairwise fun e e' => e.now ≤ e'.now) :
    ((logs.flatMap TurnLog.asks).filter fun a => a.peer = p).length ≤ 5 + (hi - lo) / 150 ∧
      ((logs.flatMap TurnLog.pushes).filter fun e => e.peer = p).length ≤
        5 + 5 * ((hi - lo) / 45) ∧
      ((start ++ logs.flatMap TurnLog.records).flatMap RunRecord.asked).count p ≤
        (logs.length + 1) * peers.count p :=
  ⟨asks_length_le h hasks haskClock, pushes_length_le h hhi hpushes hpushClock,
    rounds_count_le h p⟩

end Run

end Turn

/-! ### Two sample runs -/

namespace Sample

/-- A book in which a peer failed five times. -/
def shunned : PeerBook :=
  PeerBook.empty.put ⟨"peer", 5, 0, 0, true⟩

/-- Everything is saved and the listener is opened. -/
def opening : StartWorld :=
  ⟨.ok (), quiet.round, .ok (), .ok ()⟩

/-- A turn in which nothing comes in and nobody takes a block. -/
def turn : TurnWorld where
  arrivals := []
  drained := id
  round := quiet.round
  nowUnix := 0
  calls := .succeeds
  nowSync := 1000
  worlds := quiet.round
  recordClock := fun _ => 1000
  bookSaved := .ok ()
  nowGossip := 1000
  connections := fun _ => .error (.other "refused")

/-- The book once the peer is merged. -/
def merged : PeerBook :=
  shunned.mergeSeed "peer"

theorem targetsOf_merged : targetsOf ["peer"] merged 1000 = ["peer"] := by
  have hseeds : PeerBook.seedCandidates ∅ ["peer"] = (["peer"], {"peer"}) := by decide
  have hrest : (merged.advertised.filter fun k => k ∉ ({"peer"} : Finset String)) = ∅ := by
    decide
  have havailable : merged.isAvailable "peer" 1000 = true := by decide
  rw [targetsOf, if_neg (by decide), PeerBook.syncCandidates, hseeds]
  simp only [hrest, Finset.sort_empty, List.append_nil]
  rw [PeerBook.filterAvailable, List.filter_singleton, havailable]
  rfl

/-- The loop over the targets, if every call returns the same. -/
theorem followTargets_sameResult (r : SyncResult) (n : NodeInner) (worlds : Nat → SyncWorld)
    {p : String} (hfatal : (Ask.mk p 1000 r 1000).fatal = false) (targets : List String)
    (book : PeerBook) :
    ∃ book', followTargets (sameResult r) 1000 n book targets worlds (fun _ => 1000) =
      some (targets.map fun p => ⟨p, 1000, r, 1000⟩, .ok (), n, book') := by
  induction targets generalizing book worlds with
  | nil => exact ⟨book, rfl⟩
  | cons q targets ih =>
      rcases r with e | out
      · -- Whether a result is fatal does not depend on who was asked.
        have hgoes : fatalSyncPrefix.toList.isPrefixOf e.toList = false := hfatal
        rcases ih (fun i => worlds (i + 1)) (book.recordFail q 1000) with ⟨book', hrest⟩
        refine ⟨book', ?_⟩
        simp only [followTargets, sameResult, Option.bind_eq_bind, Option.bind_some, hgoes,
          Bool.false_eq_true, if_false]
        exact congrArg (Option.bind · _) hrest
      · rcases ih (fun i => worlds (i + 1)) (book.recordOk q 1000) with ⟨book', hrest⟩
        exact ⟨book', congrArg (Option.bind · _) hrest⟩

/-- A run of one turn with one peer, if every call returns the same. -/
theorem fullRun_sameResult (r : SyncResult) {p : String} {book : PeerBook}
    {targets : List String} {n n' : NodeInner} {sealed : Option Block} {pushes : List Push}
    {gossip : GossipState} (htargets : targetsOf [p] (book.mergeSeed p) 1000 = targets)
    (hstore : n.store.poisoned = false) (hfatal : (Ask.mk p 1000 r 1000).fatal = false)
    (hseal : n.sealAndPersist (allOk [(p, r)]) 0 .succeeds = some (.ok sealed, n'))
    (hgossip : gossipSealed n.genesis [p] sealed .empty turn = some (pushes, gossip)) :
    ∃ start records s, fullRun (sameResult r) [p] n book opening [turn] =
      some (start, [⟨records, sealed, targets.map fun q => ⟨q, 1000, r, 1000⟩, pushes⟩],
        .ok s) := by
  have hpeers : [p] ≠ [] := List.cons_ne_nil _ _
  -- The targets are asked one after another, and each call is recorded.
  rcases followTargets_sameResult r n' turn.worlds hfatal targets (book.mergeSeed p) with
    ⟨book', hloop⟩
  have hfollow : followBook (sameResult r) [p] n' (book.mergeSeed p) turn =
      some (targets.map fun q => ⟨q, 1000, r, 1000⟩, .ok (), n', book') := by
    rw [targetsOf, if_neg hpeers] at htargets
    have hnow : turn.nowSync = 1000 := rfl
    have hclock : turn.recordClock = fun _ => 1000 := rfl
    unfold followBook
    rw [if_neg hpeers, hnow, hclock]
    simp only [htargets, hloop, Option.bind_eq_bind, Option.bind_some]
    rfl
  have hstart : fullStart (sameResult r) [p] n book opening =
      some ([.catchUp [(p, r)]], .ok ⟨n, book.mergeSeed p, allOk [(p, r)], .empty⟩) := rfl
  have hretry : ∃ recs, retryRound (sameResult r) [p] n (allOk [(p, r)]) turn.round =
      some (recs, allOk [(p, r)], n) := by
    rcases r with e | _
    · exact ⟨_, rfl⟩
    · exact ⟨_, rfl⟩
  rcases hretry with ⟨recs, hretry⟩
  have hturn : runTurn (sameResult r) n.genesis [p]
      ⟨n, book.mergeSeed p, allOk [(p, r)], .empty⟩ turn = _ :=
    runTurn_of_steps rfl hstore hretry hseal hfollow hgossip
  refine ⟨[.catchUp [(p, r)]], recs ++ (if allOk [(p, r)] then [.sealAttempt] else []),
    ⟨n', book', allOk [(p, r)], gossip⟩, ?_⟩
  simp only [fullRun, hstart, runTurns, hturn, Option.bind_eq_bind, Option.bind_some]

/-- The peer fails once more. -/
theorem fullRun_down : ∃ start records s,
    fullRun (sameResult (.error "down")) ["peer"] newNode shunned opening [turn] =
      some (start, [⟨records, none, [⟨"peer", 1000, .error "down", 1000⟩], []⟩], .ok s) :=
  fullRun_sameResult _ targetsOf_merged rfl (by decide) rfl rfl

/-- The peer answers, and a block is sealed that it does not take. -/
theorem fullRun_sealing : ∃ start records s e,
    fullRun (sameResult (.ok ⟨0, false⟩)) ["peer"] sealer shunned opening [turn] =
      some (start, [⟨records, some block, [⟨"peer", 1000, .ok ⟨0, false⟩, 1000⟩],
        [⟨"peer", 1000, .error e⟩]⟩], .ok s) := by
  rcases seal_sealer with ⟨n, hseal⟩
  rcases fullRun_sameResult (.ok ⟨0, false⟩) targetsOf_merged rfl (by decide) hseal rfl
    with ⟨start, records, s, hrun⟩
  exact ⟨start, records, s, _, hrun⟩

/-- A peer that failed five times is asked again after its wait. -/
theorem ask_backoff_down : ∃ start logs s,
    fullRun (sameResult (.error "down")) ["peer"] newNode shunned opening [turn] =
      some (start, logs, .ok s) ∧
    (logs.flatMap TurnLog.asks).map Ask.peer = ["peer"] ∧
    shunned.failures "peer" (opsSoFar ["peer"] []) = 5 ∧
    shunned.Due "peer" (opsSoFar ["peer"] []) 1000 := by
  rcases fullRun_down with ⟨start, records, s, hrun⟩
  exact ⟨start, _, s, hrun, rfl, by decide, (ask_backoff hrun).1 [] _ [] rfl⟩

/-- A peer that does not take a block is tried. -/
theorem gossip_cooldown_sealing : ∃ start log s,
    fullRun (sameResult (.ok ⟨0, false⟩)) ["peer"] sealer shunned opening [turn] =
      some (start, [log], .ok s) ∧
    log.sealed = some block ∧ "peer" ∈ log.pushes.map Push.peer := by
  rcases fullRun_sealing with ⟨start, records, s, e, hrun⟩
  refine ⟨start, _, s, hrun, rfl, ?_⟩
  by_contra hnot
  -- It would be passed over only after an earlier push.
  rcases (gossip_cooldown hrun).2 [] _ [] turn rfl rfl (.inr ⟨s, rfl⟩) (by simp) "peer" (by simp)
    hnot with ⟨pre, x, post, hempty, _⟩
  exact absurd hempty.symm (by simp)

/-- A peer that is asked once behind the seal, and in two rounds before it. -/
theorem dead_peer_load_down : ∃ start logs s,
    fullRun (sameResult (.error "down")) ["peer"] newNode shunned opening [turn] =
      some (start, logs, .ok s) ∧
    ((logs.flatMap TurnLog.asks).filter fun a => a.peer = "peer").length ≤ 5 ∧
    ((start ++ logs.flatMap TurnLog.records).flatMap RunRecord.asked).count "peer" ≤ 2 := by
  rcases fullRun_down with ⟨start, records, s, hrun⟩
  refine ⟨start, _, s, hrun, ?_⟩
  have hasks : ∀ a ∈ [Ask.mk "peer" 1000 (.error "down") 1000], a.peer = "peer" →
      a.failed = true ∧ a.nowSync ≤ a.recordedAt ∧ 1000 ≤ a.nowSync.toNat ∧
        a.nowSync.toNat ≤ 1000 := by
    intro a ha _
    rw [List.mem_singleton.mp ha]
    decide
  rcases dead_peer_load hrun (by decide) hasks (fun e he => absurd he List.not_mem_nil)
    (List.pairwise_singleton _ _) List.Pairwise.nil with ⟨hasked, _, hrounds⟩
  exact ⟨hasked, hrounds⟩

end Sample

end Trilogicon
