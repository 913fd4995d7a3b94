import Trilogicon.Core.Node
import Trilogicon.Core.State

/-!
# The Peer Book

`peer_book.rs`: the addresses a node knows, how its last calls to them went, and
whether it names them to others.

A book is a map whose keys are the addresses of its entries, which is why it can
be saved as a list of entries and read back. The list is saved in the order of
a hash map, so reading must not depend on the order. The text of the file is
left out: a file is absent, fails to be read with a message, or is its entries.

The clock of `record_ok` and `record_fail` is an argument. An empty address is
not merged; it can be recorded.

## Main definitions

* `PeerEntry`, `PeerBook`: An address and its health; the book.
* `PeerBook.mergeSeed`, `PeerBook.mergeInboundPeer`: Learn an address.
* `PeerBook.recordOk`, `PeerBook.recordFail`: Note how a call went.
* `PeerBook.isAvailable`: Whether an address may be called again.
* `PeerBook.syncCandidates`: The addresses to catch up from, in order.
* `PeerBook.gossipAddresses`: The addresses to name to others.
* `PeerBook.loadOrEmpty`, `PeerBook.toFile`: The saved book.
-/

namespace Trilogicon

/-- `FAIL_STREAK_COOLDOWN_THRESHOLD`. -/
def failStreakCooldownThreshold : UInt32 := 5

/-- `COOLDOWN_BASE_SECS`. -/
def cooldownBaseSecs : UInt64 := 30

/-- `peer_book::PeerEntry`. -/
structure PeerEntry where
  addr : String
  failStreak : UInt32
  lastFailUnix : UInt64
  lastOkUnix : UInt64
  includeInGossip : Bool
deriving DecidableEq, Repr

/-- An address of which nothing is known yet. -/
def PeerEntry.fresh (addr : String) (includeInGossip : Bool) : PeerEntry :=
  ⟨addr, 0, 0, 0, includeInGossip⟩

/-- `peer_book::PeerBookFile`. -/
structure PeerBookFile where
  version : UInt32
  peers : List PeerEntry

/-- `peer_book::PeerBook`. -/
structure PeerBook where
  byAddr : Finmap (fun _ : String => PeerEntry)
  /-- The key of an entry is its address. -/
  keyed : ∀ a e, byAddr.lookup a = some e → e.addr = a

/-- The order of `Vec<String>::sort`. -/
def textLe (a b : String) : Prop :=
  byteKey a ≤ byteKey b

instance : DecidableRel textLe := fun a b =>
  inferInstanceAs (Decidable (byteKey a ≤ byteKey b))

instance : IsTrans String textLe :=
  ⟨fun _ _ _ hab hbc => le_trans (α := List Nat) hab hbc⟩

instance : Std.Antisymm textLe :=
  ⟨fun _ _ hab hba => byteKey_inj (le_antisymm (α := List Nat) hab hba)⟩

instance : Std.Total textLe :=
  ⟨fun a b => le_total (α := List Nat) (byteKey a) (byteKey b)⟩

namespace PeerBook

/-- `PeerBook::default`. -/
def empty : PeerBook where
  byAddr := ∅
  keyed := fun _ _ h => by simp only [Finmap.lookup_empty, reduceCtorEq] at h

/-- Look up an address. -/
def get (b : PeerBook) (addr : String) : Option PeerEntry :=
  b.byAddr.lookup addr

/-- Put an entry under its address. -/
def put (b : PeerBook) (e : PeerEntry) : PeerBook where
  byAddr := b.byAddr.insert e.addr e
  keyed := fun a e' h => by
    by_cases ha : a = e.addr
    · rw [ha, Finmap.lookup_insert, Option.some.injEq] at h
      rw [ha, h]
    · rw [Finmap.lookup_insert_of_ne _ ha] at h
      exact b.keyed a e' h

/-- `PeerBook::merge_seed`. -/
def mergeSeed (b : PeerBook) (addr : String) : PeerBook :=
  if addr = "" then b
  else
    match b.get addr with
    | some e => b.put { e with includeInGossip := true }
    | none => b.put (.fresh addr true)

/-- `PeerBook::merge_seeds_report_new`. -/
def mergeSeedsReportNew (b : PeerBook) : List String → Nat × PeerBook
  | [] => (0, b)
  | a :: addrs =>
      if a = "" then b.mergeSeedsReportNew addrs
      else
        match b.get a with
        | some e => (b.put { e with includeInGossip := true }).mergeSeedsReportNew addrs
        | none =>
            let (n, b) := (b.put (.fresh a true)).mergeSeedsReportNew addrs
            (n + 1, b)

/-- `PeerBook::merge_inbound_peer`. -/
def mergeInboundPeer (b : PeerBook) (addr : String) : PeerBook :=
  if addr = "" then b
  else
    match b.get addr with
    | some _ => b
    | none => b.put (.fresh addr false)

/-- `PeerBook::record_ok`. -/
def recordOk (b : PeerBook) (addr : String) (now : UInt64) : PeerBook :=
  let e := (b.get addr).getD (.fresh addr true)
  b.put { e with failStreak := 0, lastOkUnix := now }

/-- `PeerBook::record_fail`. -/
def recordFail (b : PeerBook) (addr : String) (now : UInt64) : PeerBook :=
  let e := (b.get addr).getD (.fresh addr true)
  b.put { e with failStreak := saturatingSucc32 e.failStreak, lastFailUnix := now }

/-- `PeerBook::is_available`. -/
def isAvailable (b : PeerBook) (addr : String) (now : UInt64) : Bool :=
  match b.get addr with
  | none => true
  | some e =>
      if e.failStreak < failStreakCooldownThreshold then true
      else
        let mult := if e.failStreak ≤ 8 then e.failStreak else 8
        let need := saturatingMul cooldownBaseSecs mult.toUInt64
        need ≤ saturatingSub now e.lastFailUnix

/-- `PeerBook::filter_available`. -/
def filterAvailable (b : PeerBook) (addrs : List String) (now : UInt64) : List String :=
  addrs.filter fun a => b.isAvailable a now

/-- The loop over the seeds in `sync_candidates`: trimmed, and each once. Returns
    also the addresses that were taken. -/
def seedCandidates (seen : Finset String) : List String → List String × Finset String
  | [] => ([], seen)
  | s :: seeds =>
      let t := trim s
      if t = "" ∨ t ∈ seen then seedCandidates seen seeds
      else
        let (out, seen) := seedCandidates (insert t seen) seeds
        (t :: out, seen)

/-- The addresses with `include_in_gossip`. -/
def advertised (b : PeerBook) : Finset String :=
  b.byAddr.keys.filter fun k => (b.get k).any PeerEntry.includeInGossip

/-- `PeerBook::sync_candidates`. -/
def syncCandidates (b : PeerBook) (seeds : List String) : List String :=
  let (out, seen) := seedCandidates ∅ seeds
  out ++ (b.advertised.filter fun k => k ∉ seen).sort textLe

/-- `PeerBook::gossip_addresses`. -/
def gossipAddresses (b : PeerBook) (max : Nat) : List String :=
  (b.advertised.sort textLe).take max

/-- The entries, in one of the orders of a hash map. -/
def values (b : PeerBook) : List PeerEntry :=
  (b.byAddr.keys.sort textLe).filterMap b.get

/-- The file that `PeerBook::save` writes. -/
def toFile (b : PeerBook) : PeerBookFile :=
  { version := 1, peers := b.values }

/-- The loop of `load_or_empty`. -/
def ofEntries (peers : List PeerEntry) : PeerBook :=
  peers.foldl put empty

/-- `PeerBook::load_or_empty`, on an absent file, on one that cannot be read, and
    on its entries. -/
def loadOrEmpty (file : Option (Except String PeerBookFile)) : Except String PeerBook :=
  match file with
  | none => .ok empty
  | some (.error e) => .error e
  | some (.ok f) => .ok (ofEntries f.peers)

end PeerBook

end Trilogicon
