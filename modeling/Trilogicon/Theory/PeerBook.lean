import Trilogicon.Core.PeerBook
import Trilogicon.Lib.Streak

/-!
# What a Peer Book Remembers

A book is changed by four operations on one address each. What it says about an
address afterwards is determined by the operations on that address, and
`entryAfter` says how: the failures in a row among the recorded calls, the times
of the last failure and of the last success, and whether the address was ever
merged as a seed.

So an address that only ever connected to the node is known but is neither named
to others nor asked for blocks, and an address is named for good once it was
merged as a seed. An address is left alone only after five recorded failures in
a row, and then for thirty seconds for each of them, up to eight.

## Main definitions

* `BookOp`: The operations.
* `PeerBook.applyOps`: A sequence of operations.
* `entryAfter`: An entry after the operations on its address.
* `failures`, `lastFailure`: The failures in a row, and when the last one was.

## Theorems

* `get_applyOps`: The entry of an address after any operations.
* `isAvailable_applyOps`: When an address may be called again.
* `mem_advertised_applyOps`: Which addresses are named to others.
* `book_history`: What the readers of a book return after any operations.
* `ofEntries_of_perm`: A saved book is read back, whatever the order of the file.
-/

namespace Trilogicon

/-- The operations on a peer book. -/
inductive BookOp where
  | mergeSeed (addr : String)
  | mergeInbound (addr : String)
  | recordOk (addr : String) (now : UInt64)
  | recordFail (addr : String) (now : UInt64)
deriving DecidableEq

namespace BookOp

/-- Run an operation. -/
def apply (b : PeerBook) : BookOp → PeerBook
  | mergeSeed addr => b.mergeSeed addr
  | mergeInbound addr => b.mergeInboundPeer addr
  | recordOk addr now => b.recordOk addr now
  | recordFail addr now => b.recordFail addr now

/-- The address of an operation. -/
def addr : BookOp → String
  | mergeSeed addr => addr
  | mergeInbound addr => addr
  | recordOk addr _ => addr
  | recordFail addr _ => addr

/-- Whether it notes how a call went. -/
def isRecord : BookOp → Bool
  | recordOk _ _ => true
  | recordFail _ _ => true
  | _ => false

/-- Whether an operation is about an address. Merging the empty address does
    nothing. -/
def mentions (p : String) (op : BookOp) : Bool :=
  op.addr = p && (op.isRecord || p ≠ "")

/-- Whether it merges a seed. -/
def isSeed : BookOp → Bool
  | mergeSeed _ => true
  | _ => false

/-- Whether it merges an address that connected. -/
def isInbound : BookOp → Bool
  | mergeInbound _ => true
  | _ => false

/-- Whether it notes a failure. -/
def failed : BookOp → Bool
  | recordFail _ _ => true
  | _ => false

/-- The time of a failure. -/
def failTime : BookOp → Option UInt64
  | recordFail _ now => some now
  | _ => none

/-- The time of a success. -/
def okTime : BookOp → Option UInt64
  | recordOk _ now => some now
  | _ => none

/-- What an operation makes of the entry of its address. -/
def touch (p : String) (e : Option PeerEntry) : BookOp → PeerEntry
  | mergeSeed _ => { e.getD (.fresh p true) with includeInGossip := true }
  | mergeInbound _ => e.getD (.fresh p false)
  | recordOk _ now => { e.getD (.fresh p true) with failStreak := 0, lastOkUnix := now }
  | recordFail _ now =>
      let e := e.getD (.fresh p true)
      { e with failStreak := saturatingSucc32 e.failStreak, lastFailUnix := now }

end BookOp

namespace PeerBook

@[simp] theorem get_put_self (b : PeerBook) (e : PeerEntry) : (b.put e).get e.addr = some e :=
  Finmap.lookup_insert _

theorem get_put_ne (b : PeerBook) {e : PeerEntry} {p : String} (h : p ≠ e.addr) :
    (b.put e).get p = b.get p :=
  Finmap.lookup_insert_of_ne _ h

theorem addr_of_get {b : PeerBook} {p : String} {e : PeerEntry} (h : b.get p = some e) :
    e.addr = p :=
  b.keyed p e h

/-- The address of what is put in place of an entry. -/
theorem addr_getD (b : PeerBook) (p : String) (g : Bool) :
    ((b.get p).getD (.fresh p g)).addr = p := by
  rcases h : b.get p with _ | e
  · rfl
  · exact addr_of_get h

/-- Put an entry, read through any address. -/
theorem get_put {b : PeerBook} {e : PeerEntry} {a : String} (h : e.addr = a) (p : String) :
    (b.put e).get p = if a = p then some e else b.get p := by
  subst h
  by_cases hp : e.addr = p
  · rw [if_pos hp, ← hp, get_put_self]
  · rw [if_neg hp, get_put_ne b (Ne.symm hp)]

/-- An operation that does something puts an entry under its address. -/
theorem get_apply_put {b : PeerBook} {op : BookOp} (h : op.isRecord = true ∨ op.addr ≠ "")
    (p : String) :
    (op.apply b).get p = (b.put (op.touch op.addr (b.get op.addr))).get p := by
  cases op with
  | mergeSeed addr =>
      have haddr : addr ≠ "" := h.resolve_left Bool.false_ne_true
      simp only [BookOp.apply, mergeSeed, if_neg haddr, BookOp.touch, BookOp.addr]
      rcases b.get addr with _ | e
      · rfl
      · rfl
  | mergeInbound addr =>
      have haddr : addr ≠ "" := h.resolve_left Bool.false_ne_true
      simp only [BookOp.apply, mergeInboundPeer, if_neg haddr, BookOp.touch, BookOp.addr]
      rcases he : b.get addr with _ | e
      · rfl
      · -- The entry that is there is put again.
        simp only [Option.getD_some]
        rw [get_put (addr_of_get he)]
        by_cases hp : addr = p
        · rw [if_pos hp, ← hp, he]
        · rw [if_neg hp]
  | recordOk addr now => rfl
  | recordFail addr now => rfl

theorem addr_touch (b : PeerBook) (op : BookOp) (p : String) :
    (op.touch p (b.get p)).addr = p := by
  cases op with
  | mergeSeed _ => exact addr_getD b p true
  | mergeInbound _ => exact addr_getD b p false
  | recordOk _ _ => exact addr_getD b p true
  | recordFail _ _ => exact addr_getD b p true

/-- An operation changes the entry of its address only. -/
theorem get_apply (b : PeerBook) (op : BookOp) (p : String) :
    (op.apply b).get p = if op.mentions p then some (op.touch p (b.get p)) else b.get p := by
  by_cases hidle : op.isRecord = true ∨ op.addr ≠ ""
  · rw [get_apply_put hidle, get_put (addr_touch b op op.addr)]
    unfold BookOp.mentions
    by_cases hp : op.addr = p
    · subst hp
      rw [if_pos rfl, if_pos (by simpa using hidle)]
    · rw [if_neg hp, if_neg (by simp [hp])]
  · -- A merge of the blank address does nothing, and mentions no one.
    rw [not_or, not_not] at hidle
    rcases hidle with ⟨hmerge, haddr⟩
    have hsame : op.apply b = b := by
      cases op with
      | mergeSeed _ => exact if_pos haddr
      | mergeInbound _ => exact if_pos haddr
      | recordOk _ _ => exact absurd rfl hmerge
      | recordFail _ _ => exact absurd rfl hmerge
    have hnot : op.mentions p = false := by
      unfold BookOp.mentions
      rw [Bool.eq_false_iff.mpr hmerge, haddr, Bool.false_or]
      by_cases hp : "" = p
      · simp [← hp]
      · simp [hp]
    rw [hsame, hnot, if_neg Bool.false_ne_true]

/-- A sequence of operations. -/
def applyOps (b : PeerBook) (ops : List BookOp) : PeerBook :=
  ops.foldl BookOp.apply b

theorem applyOps_append (b : PeerBook) (ops more : List BookOp) :
    b.applyOps (ops ++ more) = (b.applyOps ops).applyOps more :=
  List.foldl_append

end PeerBook

/-! ### The entry of an address -/

/-- An entry after the operations on its address. -/
def entryAfter (e : PeerEntry) (ops : List BookOp) : PeerEntry where
  addr := e.addr
  failStreak := UInt32.ofNat
    (min (inRow BookOp.failed e.failStreak.toNat (ops.filter BookOp.isRecord)) (2 ^ 32 - 1))
  lastFailUnix := (ops.filterMap BookOp.failTime).getLast?.getD e.lastFailUnix
  lastOkUnix := (ops.filterMap BookOp.okTime).getLast?.getD e.lastOkUnix
  includeInGossip := e.includeInGossip || ops.any BookOp.isSeed

/-- What is known of an address after the operations on it. The first one decides
    whether a new address is named to others. -/
def known (p : String) : Option PeerEntry → List BookOp → Option PeerEntry
  | some e, ops => some (entryAfter e ops)
  | none, [] => none
  | none, op :: ops => some (entryAfter (.fresh p !op.isInbound) (op :: ops))

theorem entryAfter_nil (e : PeerEntry) : entryAfter e [] = e := by
  have hle : e.failStreak.toNat ≤ 2 ^ 32 - 1 := by
    have := e.failStreak.toNat_lt
    omega
  simp only [entryAfter, List.filter_nil, inRow_nil, Nat.min_eq_left hle, UInt32.ofNat_toNat,
    List.filterMap_nil, List.getLast?_nil, Option.getD_none, List.any_nil, Bool.or_false]

/-- The counter stops at the largest word. -/
theorem saturatingSucc32_ofNat_min (k : Nat) :
    saturatingSucc32 (UInt32.ofNat (min k (2 ^ 32 - 1))) =
      UInt32.ofNat (min (k + 1) (2 ^ 32 - 1)) := by
  unfold saturatingSucc32
  by_cases hk : 2 ^ 32 - 1 ≤ k
  · rw [Nat.min_eq_right hk, Nat.min_eq_right (by omega)]
    rfl
  · rw [Nat.min_eq_left (by omega), Nat.min_eq_left (by omega)]
    have hne : UInt32.ofNat k ≠ 0xFFFFFFFF := by
      intro h
      have := congrArg UInt32.toNat h
      rw [UInt32.toNat_ofNat', Nat.mod_eq_of_lt (by omega)] at this
      exact hk (by rw [this]; decide)
    rw [if_neg hne, UInt32.ofNat_add]
    rfl

/-- The history goes on by one operation. -/
theorem entryAfter_concat (e : PeerEntry) (ops : List BookOp) (op : BookOp) (p : String) :
    entryAfter e (ops ++ [op]) = op.touch p (some (entryAfter e ops)) := by
  simp only [entryAfter, List.filter_append, List.filterMap_append, List.any_append]
  cases op with
  | mergeSeed _ => simp [BookOp.touch, BookOp.isRecord, BookOp.failTime, BookOp.okTime,
      BookOp.isSeed]
  | mergeInbound _ => simp [BookOp.touch, BookOp.isRecord, BookOp.failTime, BookOp.okTime,
      BookOp.isSeed]
  | recordOk addr now =>
      -- A call counts for the row of failures; the merges above do not.
      have hrec : [BookOp.recordOk addr now].filter BookOp.isRecord = [.recordOk addr now] := rfl
      rw [hrec, inRow_concat]
      simp [BookOp.touch, BookOp.failTime, BookOp.okTime, BookOp.isSeed, BookOp.failed]
  | recordFail addr now =>
      have hrec : [BookOp.recordFail addr now].filter BookOp.isRecord = [.recordFail addr now] :=
        rfl
      rw [hrec, inRow_concat]
      simp [BookOp.touch, BookOp.failTime, BookOp.okTime, BookOp.isSeed, BookOp.failed]
      exact (saturatingSucc32_ofNat_min _).symm

theorem known_concat (p : String) (e : Option PeerEntry) (ops : List BookOp) (op : BookOp) :
    known p e (ops ++ [op]) = some (op.touch p (known p e ops)) := by
  rcases e with _ | e
  · rcases ops with _ | ⟨first, ops⟩
    · simp only [List.nil_append, known]
      rw [← List.nil_append [op], entryAfter_concat _ [] op p, entryAfter_nil]
      -- What the operation makes of a new entry is what it makes of none.
      cases op with
      | mergeSeed _ => rfl
      | mergeInbound _ => rfl
      | recordOk _ _ => rfl
      | recordFail _ _ => rfl
    · simp only [List.cons_append, known]
      rw [← List.cons_append, entryAfter_concat _ _ op p]
  · simp only [known]
    rw [entryAfter_concat _ _ op p]

namespace PeerBook

/-- The entry of an address after any operations. -/
theorem get_applyOps (b : PeerBook) (ops : List BookOp) (p : String) :
    (b.applyOps ops).get p = known p (b.get p) (ops.filter (BookOp.mentions p)) := by
  induction ops using List.reverseRecOn with
  | nil =>
      rw [List.filter_nil]
      rcases h : b.get p with _ | e
      · exact h
      · rw [known, entryAfter_nil]
        exact h
  | append_singleton ops op ih =>
      rw [applyOps_append, List.filter_append]
      change (op.apply (b.applyOps ops)).get p = _
      rw [get_apply, ih]
      -- Only what mentions the address is in its history.
      by_cases hop : op.mentions p = true
      · rw [if_pos hop, List.filter_singleton, hop, Bool.cond_true, known_concat]
      · rw [if_neg hop, List.filter_singleton, Bool.eq_false_iff.mpr hop, Bool.cond_false,
          List.append_nil]

/-! ### The readers of a book -/

/-- When an address may be called again, by its entry. -/
theorem isAvailable_iff {b : PeerBook} {p : String} {now : UInt64} :
    b.isAvailable p now = true ↔ ∀ e, b.get p = some e → 5 ≤ e.failStreak.toNat →
      e.lastFailUnix.toNat + 30 * min e.failStreak.toNat 8 ≤ now.toNat := by
  unfold isAvailable
  rcases b.get p with _ | e
  · simp only [reduceCtorEq, false_implies, implies_true]
  simp only [Option.some.injEq, forall_eq']
  have hthreshold : e.failStreak < failStreakCooldownThreshold ↔ e.failStreak.toNat < 5 :=
    UInt32.lt_iff_toNat_lt
  -- The multiplier is cut off at eight, in words as in numbers.
  have hmult : (if e.failStreak ≤ 8 then e.failStreak else 8).toUInt64.toNat =
      min e.failStreak.toNat 8 := by
    have height : e.failStreak ≤ 8 ↔ e.failStreak.toNat ≤ 8 := UInt32.le_iff_toNat_le
    rw [UInt32.toNat_toUInt64]
    by_cases hle : e.failStreak.toNat ≤ 8
    · rw [if_pos (height.mpr hle), Nat.min_eq_left hle]
    · rw [if_neg (fun h => hle (height.mp h)), Nat.min_eq_right (by omega)]
      rfl
  by_cases hfew : e.failStreak.toNat < 5
  · rw [if_pos (hthreshold.mpr hfew)]
    exact ⟨fun _ h => by omega, fun _ => rfl⟩
  · rw [if_neg (fun h => hfew (hthreshold.mp h)), decide_eq_true_iff, UInt64.le_iff_toNat_le,
      saturatingMul_toNat, saturatingSub_toNat, hmult]
    have hbase : cooldownBaseSecs.toNat = 30 := rfl
    rw [hbase]
    omega

theorem mem_advertised {b : PeerBook} {p : String} :
    p ∈ b.advertised ↔ ∃ e, b.get p = some e ∧ e.includeInGossip = true := by
  unfold advertised
  rw [Finset.mem_filter, Option.any_eq_true]
  constructor
  · intro h
    exact h.2
  · intro h
    rcases h with ⟨e, he, hin⟩
    exact ⟨Finmap.mem_keys.mpr (Finmap.mem_of_lookup_eq_some he), e, he, hin⟩

/-- The loop over the seeds takes every one that is not blank, once. -/
theorem seedCandidates_spec (seen : Finset String) (seeds : List String) :
    (seedCandidates seen seeds).1.Nodup ∧
      (∀ p, p ∈ (seedCandidates seen seeds).1 ↔ p ≠ "" ∧ p ∉ seen ∧ p ∈ seeds.map trim) ∧
      ∀ p, p ∈ (seedCandidates seen seeds).2 ↔ p ∈ seen ∨ p ∈ (seedCandidates seen seeds).1 := by
  induction seeds generalizing seen with
  | nil => simp [seedCandidates]
  | cons s seeds ih =>
      unfold seedCandidates
      by_cases hskip : trim s = "" ∨ trim s ∈ seen
      · -- It is blank or was seen, so it is no candidate.
        simp only [if_pos hskip]
        refine ⟨(ih seen).1, fun p => ?_, (ih seen).2.2⟩
        rw [(ih seen).2.1, List.map_cons, List.mem_cons]
        constructor
        · intro h
          exact ⟨h.1, h.2.1, .inr h.2.2⟩
        · intro h
          rcases h with ⟨hne, hnew, heq | hin⟩
          · subst heq
            exact absurd hskip (by simp [hne, hnew])
          · exact ⟨hne, hnew, hin⟩
      · rw [not_or] at hskip
        simp only [if_neg (not_or.mpr hskip)]
        -- It is taken, and later ones that are equal are skipped.
        rcases ih (insert (trim s) seen) with ⟨hnodup, hout, hseen⟩
        refine ⟨List.nodup_cons.mpr ⟨fun h => ?_, hnodup⟩, fun p => ?_, fun p => ?_⟩
        · exact ((hout _).mp h).2.1 (Finset.mem_insert_self _ _)
        · rw [List.mem_cons, hout, List.map_cons, List.mem_cons, Finset.mem_insert, not_or]
          by_cases hp : p = trim s
          · subst hp
            simp [hskip.1, hskip.2]
          · simp [hp]
        · rw [hseen, Finset.mem_insert, List.mem_cons, or_assoc, or_left_comm]

/-- The candidates are the seeds that are not blank and the addresses that are
    named to others, each once. -/
theorem syncCandidates_spec (b : PeerBook) (seeds : List String) :
    (b.syncCandidates seeds).Nodup ∧ ∀ p, p ∈ b.syncCandidates seeds ↔
      (p ≠ "" ∧ p ∈ seeds.map trim) ∨ p ∈ b.advertised := by
  rcases seedCandidates_spec ∅ seeds with ⟨hnodup, hout, hseen⟩
  unfold syncCandidates
  generalize seedCandidates ∅ seeds = r at hnodup hout hseen
  rcases r with ⟨out, seen⟩
  simp only [Finset.notMem_empty, false_or, not_false_eq_true, true_and] at hnodup hout hseen ⊢
  constructor
  · refine List.nodup_append'.mpr ⟨hnodup, Finset.sort_nodup _ _, fun p hp hq => ?_⟩
    rw [Finset.mem_sort, Finset.mem_filter] at hq
    exact hq.2 ((hseen p).mpr hp)
  · intro p
    rw [List.mem_append, Finset.mem_sort, Finset.mem_filter, hseen, hout]
    tauto

/-! ### What they return after any operations -/

variable (b : PeerBook) (p : String) (ops : List BookOp)

/-- The failures in a row that were recorded for an address. -/
def failures : Nat :=
  inRow BookOp.failed ((b.get p).getD (.fresh p true)).failStreak.toNat
    ((ops.filter (BookOp.mentions p)).filter BookOp.isRecord)

/-- When the last failure was recorded. -/
def lastFailure : UInt64 :=
  ((ops.filter (BookOp.mentions p)).filterMap BookOp.failTime).getLast?.getD
    ((b.get p).getD (.fresh p true)).lastFailUnix

/-- The health of an address that is known. -/
theorem health_of_get {e : PeerEntry} (h : (b.applyOps ops).get p = some e) :
    e.failStreak.toNat = min (failures b p ops) (2 ^ 32 - 1) ∧
      e.lastFailUnix = lastFailure b p ops := by
  have hword : ∀ k : Nat, (UInt32.ofNat (min k (2 ^ 32 - 1))).toNat = min k (2 ^ 32 - 1) := by
    intro k
    rw [UInt32.toNat_ofNat']
    omega
  rw [get_applyOps] at h
  unfold failures lastFailure
  generalize ops.filter (BookOp.mentions p) = mine at h
  generalize b.get p = before at h
  rcases before with _ | e₀
  · -- An address that is not known has an entry only if something mentioned it.
    rcases mine with _ | ⟨op, mine⟩
    · exact absurd h (by simp only [known, reduceCtorEq, not_false_eq_true])
    · rw [known, Option.some.injEq] at h
      subst h
      exact ⟨hword _, rfl⟩
  · rw [known, Option.some.injEq] at h
    subst h
    exact ⟨hword _, rfl⟩

/-- Nothing was recorded for an address that is not known. -/
theorem failures_of_get_none (h : (b.applyOps ops).get p = none) : failures b p ops = 0 := by
  rw [get_applyOps] at h
  unfold failures
  generalize ops.filter (BookOp.mentions p) = mine at h
  generalize b.get p = before at h
  rcases before with _ | e₀
  · rcases mine with _ | ⟨op, mine⟩
    · rfl
    · exact absurd h (by simp only [known, reduceCtorEq, not_false_eq_true])
  · exact absurd h (by simp only [known, reduceCtorEq, not_false_eq_true])

/-- After these operations an address may be called again: it did not fail five
    times in a row, or the wait for its failures is over. -/
def Due (now : UInt64) : Prop :=
  failures b p ops < 5 ∨ (lastFailure b p ops).toNat + 30 * min (failures b p ops) 8 ≤ now.toNat

/-- When an address may be called again. -/
theorem isAvailable_applyOps (now : UInt64) :
    (b.applyOps ops).isAvailable p now = true ↔ Due b p ops now := by
  unfold Due
  rw [isAvailable_iff]
  rcases h : (b.applyOps ops).get p with _ | e
  · have hnone := failures_of_get_none b p ops h
    simp [hnone]
  · rcases health_of_get b p ops h with ⟨hstreak, hlast⟩
    simp only [Option.some.injEq, forall_eq', hstreak, hlast]
    omega

/-- Which addresses are named to others. -/
theorem mem_advertised_applyOps :
    p ∈ (b.applyOps ops).advertised ↔ p ∈ b.advertised ∨ (p ≠ "" ∧ .mergeSeed p ∈ ops) ∨
      (b.get p = none ∧ ∃ op, (ops.filter (BookOp.mentions p)).head? = some op ∧
        op.isRecord = true) := by
  -- A seed is known as such from any merge of it.
  have hseed : (ops.filter (BookOp.mentions p)).any BookOp.isSeed = true ↔
      p ≠ "" ∧ .mergeSeed p ∈ ops := by
    rw [List.any_filter, List.any_eq_true]
    constructor
    · intro h
      rcases h with ⟨op, hin, hop⟩
      cases op with
      | mergeSeed addr =>
          simp only [BookOp.mentions, BookOp.addr, BookOp.isRecord, BookOp.isSeed, Bool.false_or,
            Bool.and_true, Bool.and_eq_true, decide_eq_true_eq] at hop
          rcases hop with ⟨haddr, hne⟩
          exact ⟨hne, of_decide_eq_true haddr ▸ hin⟩
      | mergeInbound _ => simp [BookOp.isSeed] at hop
      | recordOk _ _ => simp [BookOp.isSeed] at hop
      | recordFail _ _ => simp [BookOp.isSeed] at hop
    · intro h
      exact ⟨_, h.2, by simp [BookOp.mentions, BookOp.addr, BookOp.isSeed, h.1]⟩
  rw [mem_advertised, mem_advertised, get_applyOps, ← hseed]
  generalize ops.filter (BookOp.mentions p) = mine
  rcases b.get p with _ | e
  · rcases mine with _ | ⟨op, mine⟩
    · simp [known]
    · -- A new address is named unless it is first met as one that connected.
      cases op with
      | mergeSeed _ => simp [known, entryAfter, BookOp.isSeed, PeerEntry.fresh, BookOp.isInbound]
      | mergeInbound _ =>
          simp [known, entryAfter, BookOp.isSeed, PeerEntry.fresh, BookOp.isInbound,
            BookOp.isRecord]
      | recordOk _ _ =>
          simp [known, entryAfter, BookOp.isSeed, PeerEntry.fresh, BookOp.isInbound,
            BookOp.isRecord]
      | recordFail _ _ =>
          simp [known, entryAfter, BookOp.isSeed, PeerEntry.fresh, BookOp.isInbound,
            BookOp.isRecord]
  · simp [known, entryAfter]

/-- What the readers of a book return after any operations: an address is left
    alone exactly while its failures in a row ask for it, and it is named to
    others and asked for blocks exactly if it was before, was merged as a seed, or
    was first met in a call. Above the limit, as many are named as it allows. -/
theorem book_history (b : PeerBook) (p : String) (ops : List BookOp) :
    let b' := b.applyOps ops
    (∀ now, b'.isAvailable p now = true ↔ Due b p ops now) ∧
    (p ∈ b'.advertised ↔ p ∈ b.advertised ∨ (p ≠ "" ∧ .mergeSeed p ∈ ops) ∨
      (b.get p = none ∧ ∃ op, (ops.filter (BookOp.mentions p)).head? = some op ∧
        op.isRecord = true)) ∧
    (∀ max, (b'.gossipAddresses max).Nodup ∧
      (b'.gossipAddresses max).length = min max b'.advertised.card ∧
      (p ∈ b'.gossipAddresses max → p ∈ b'.advertised) ∧
      (b'.advertised.card ≤ max → p ∈ b'.advertised → p ∈ b'.gossipAddresses max)) ∧
    ∀ seeds, (b'.syncCandidates seeds).Nodup ∧ (p ∈ b'.syncCandidates seeds ↔
      (p ≠ "" ∧ p ∈ seeds.map trim) ∨ p ∈ b'.advertised) := by
  refine ⟨isAvailable_applyOps b p ops, mem_advertised_applyOps b p ops, fun max => ?_,
    fun seeds => ?_⟩
  · unfold gossipAddresses
    refine ⟨(Finset.sort_nodup _ _).sublist (List.take_sublist _ _), ?_, fun h => ?_,
      fun hcard h => ?_⟩
    · rw [List.length_take, Finset.length_sort]
    · exact (Finset.mem_sort _).mp (List.mem_of_mem_take h)
    · rw [List.take_of_length_le (by rw [Finset.length_sort]; exact hcard)]
      exact (Finset.mem_sort _).mpr h
  · rcases (b.applyOps ops).syncCandidates_spec seeds with ⟨hnodup, hmem⟩
    exact ⟨hnodup, hmem p⟩

/-! ### Saving and reading -/

theorem keys_put (e : PeerEntry) : (b.put e).byAddr.keys = insert e.addr b.byAddr.keys := by
  ext k
  rw [Finset.mem_insert, Finmap.mem_keys, Finmap.mem_keys, put, Finmap.mem_insert]

/-- Merging a list of seeds merges each, and reports how many were not known. -/
theorem mergeSeedsReportNew_spec (addrs : List String) :
    (b.mergeSeedsReportNew addrs).2 = b.applyOps (addrs.map .mergeSeed) ∧
      b.byAddr.keys.card + (b.mergeSeedsReportNew addrs).1 =
        (b.mergeSeedsReportNew addrs).2.byAddr.keys.card := by
  induction addrs generalizing b with
  | nil => exact ⟨rfl, rfl⟩
  | cons a addrs ih =>
      have hstep : b.applyOps ((a :: addrs).map .mergeSeed) =
          (b.mergeSeed a).applyOps (addrs.map .mergeSeed) := rfl
      rw [hstep]
      unfold mergeSeedsReportNew mergeSeed
      by_cases hblank : a = ""
      · simp only [if_pos hblank]
        exact ih b
      · simp only [if_neg hblank]
        rcases hget : b.get a with _ | e
        · -- The address is new: it is counted, and the book has one key more.
          have hnew : a ∉ b.byAddr.keys := by
            rw [Finmap.mem_keys]
            exact Finmap.lookup_eq_none.mp hget
          have hcard := keys_put b (.fresh a true)
          rcases ih (b.put (.fresh a true)) with ⟨hrun, hcount⟩
          refine ⟨hrun, ?_⟩
          simp only [← hcount, hcard]
          rw [show (PeerEntry.fresh a true).addr = a from rfl, Finset.card_insert_of_notMem hnew]
          omega
        · -- It is known: neither the count nor the keys change.
          have hold : e.addr ∈ b.byAddr.keys := by
            rw [addr_of_get hget, Finmap.mem_keys]
            exact Finmap.mem_of_lookup_eq_some hget
          have hcard := keys_put b { e with includeInGossip := true }
          rcases ih (b.put { e with includeInGossip := true }) with ⟨hrun, hcount⟩
          refine ⟨hrun, ?_⟩
          simp only [← hcount, hcard, Finset.insert_eq_self.mpr hold]

theorem mem_values {e : PeerEntry} : e ∈ b.values ↔ b.get e.addr = some e := by
  unfold values
  rw [List.mem_filterMap]
  constructor
  · intro h
    rcases h with ⟨a, _, ha⟩
    rw [addr_of_get ha]
    exact ha
  · intro h
    have hkey := Finmap.mem_keys.mpr (Finmap.mem_of_lookup_eq_some h)
    exact ⟨e.addr, (Finset.mem_sort _).mpr hkey, h⟩

/-- No address has two entries. -/
theorem values_pairwise : b.values.Pairwise fun e e' => e.addr ≠ e'.addr := by
  unfold values
  refine List.Pairwise.filterMap b.get (fun a a' hne e he e' he' => ?_) (Finset.sort_nodup _ _)
  rw [addr_of_get he, addr_of_get he']
  exact hne

/-- Putting entries of different addresses: each is found again. -/
theorem get_foldl_put {peers : List PeerEntry}
    (hne : peers.Pairwise fun e e' => e.addr ≠ e'.addr) (p : String) :
    (peers.foldl put b).get p = (peers.find? fun e => e.addr = p).or (b.get p) := by
  induction peers generalizing b with
  | nil => rfl
  | cons e peers ih =>
      rw [List.pairwise_cons] at hne
      rw [List.foldl_cons, ih (b.put e) hne.2, get_put rfl, List.find?_cons]
      by_cases hp : e.addr = p
      · -- None of the later entries has this address.
        have hnone : peers.find? (fun e => decide (e.addr = p)) = none := by
          rw [List.find?_eq_none]
          intro e' he' hc
          exact hne.1 e' he' (hp.trans (of_decide_eq_true hc).symm)
        simp [hp, hnone]
      · simp [hp]

/-- Putting the entries of a book, in any order, gives the book. -/
theorem ofEntries_of_perm {peers : List PeerEntry} (h : peers.Perm b.values) :
    ofEntries peers = b := by
  -- No two entries have one address, so their order makes no difference.
  have hne : peers.Pairwise fun e e' => e.addr ≠ e'.addr :=
    h.symm.pairwise b.values_pairwise fun he => Ne.symm he
  have hget : ∀ p, (ofEntries peers).get p = b.get p := by
    intro p
    rw [ofEntries, get_foldl_put empty hne]
    rcases hb : b.get p with _ | e
    · have hnone : peers.find? (fun e => decide (e.addr = p)) = none := by
        rw [List.find?_eq_none]
        intro e he hc
        have hin := (mem_values b).mp (h.mem_iff.mp he)
        rw [of_decide_eq_true hc, hb] at hin
        exact absurd hin (by simp only [reduceCtorEq, not_false_eq_true])
      rw [hnone]
      rfl
    · have hin : e ∈ peers := h.mem_iff.mpr ((mem_values b).mpr (by rw [addr_of_get hb, hb]))
      rcases hfind : peers.find? (fun e => decide (e.addr = p)) with _ | e'
      · exact absurd (addr_of_get hb) (by simpa using List.find?_eq_none.mp hfind e hin)
      · have haddr : e'.addr = p := by simpa using List.find?_some hfind
        have hin' := (mem_values b).mp (h.mem_iff.mp (List.mem_of_find?_eq_some hfind))
        rw [haddr, hb, Option.some.injEq] at hin'
        rw [hfind, hin']
        rfl
  -- A book is decided by its entries.
  have hmap : (ofEntries peers).byAddr = b.byAddr := Finmap.ext_lookup hget
  rcases b with ⟨m, hm⟩
  rcases hbook : ofEntries peers with ⟨m', hm'⟩
  rw [hbook] at hmap
  simp only at hmap
  subst hmap
  rfl

/-- A saved book is read back, whatever the order of the file. -/
theorem loadOrEmpty_of_perm {file : PeerBookFile} (h : file.peers.Perm b.toFile.peers) :
    loadOrEmpty (some (.ok file)) = .ok b :=
  congrArg Except.ok (ofEntries_of_perm b h)

end PeerBook

end Trilogicon
