import Mathlib.Data.List.Sort
import Mathlib.Order.Lex
import Mathlib.Data.List.Lex
import Trilogicon.Core.Transaction

/-!
# Genesis Documents

`genesis.rs`: the balances every chain starts from, and the commitment nodes
compare to see that they start from the same ones.

The allocations are sorted by the bytes of their addresses and rejected when
two neighbours agree. The commitment hashes one line `address|balance` for each
allocation, joined by line breaks. An address may itself hold `|` and line
breaks, so the text is all the commitment sees.

## Main definitions

* `Genesis`: A genesis document.
* `Genesis.validateDecl`: The check of each allocation.
* `Genesis.sortedPairs`: The allocations in address order, without duplicates.
* `Genesis.commitmentPreimage`: The text that is hashed.
* `Genesis.stateCommitmentRaw32`: The commitment.
* `Genesis.stateCommitmentHex`: The commitment as text.

## Theorems

* `byteKey_inj`: A string is determined by its sort key.
* `checkAdjacent_ok_iff`: Neighbours differ.
* `sortedPairs_ok_iff`: What an accepted document satisfies.
-/

namespace Trilogicon

/-- `genesis::GenesisAllocation`. -/
structure GenesisAllocation where
  address : String
  balance : UInt64
deriving DecidableEq, Repr

/-- `genesis::Genesis`. -/
structure Genesis where
  allocations : List GenesisAllocation
deriving DecidableEq, Repr

/-- The order key of a string: its bytes, compared lexicographically. -/
def byteKey (s : String) : List Nat :=
  (utf8 s).map UInt8.toNat

theorem byteKey_inj {s t : String} (h : byteKey s = byteKey t) : s = t := by
  apply utf8_inj.mp
  exact List.map_injective_iff.mpr (fun _ _ => UInt8.toNat_inj.mp) h

/-- A character in Rust's `Debug` output of a string. What is not printable is
    escaped, which is said here for the characters up to 255; the others are
    printed as they are. -/
def debugChar (c : Char) : String :=
  if c = '\t' then "\\t"
  else if c = '\r' then "\\r"
  else if c = '\n' then "\\n"
  else if c = '"' then "\\\""
  else if c = '\\' then "\\\\"
  else if c.toNat = 0 then "\\0"
  else if c.toNat < 32 ∨ (127 ≤ c.toNat ∧ c.toNat ≤ 160) ∨ c.toNat = 173 then
    "\\u\x7b" ++ String.ofList (Nat.toDigits 16 c.toNat) ++ "\x7d"
  else c.toString

/-- Rust's `Debug` output of a string. -/
def debugStr (s : String) : String :=
  "\"" ++ String.join (s.toList.map debugChar) ++ "\""

namespace Genesis

/-- `Genesis::empty`. -/
def empty : Genesis :=
  { allocations := [] }

/-- The loop of `validate_decl`. -/
def validateAllocations : List GenesisAllocation → Except ProtocolError Unit
  | [] => .ok ()
  | a :: rest =>
      if !(Address.mk a.address).isValid then
        .error (.genesisError ("invalid address in genesis: " ++ debugStr a.address))
      else if a.balance = 0 then
        .error (.genesisError ("zero balance not allowed for " ++ a.address))
      else validateAllocations rest

/-- `Genesis::validate_decl`. -/
def validateDecl (g : Genesis) : Except ProtocolError Unit :=
  validateAllocations g.allocations

/-- The allocations as the pairs that are sorted. -/
def pairs (g : Genesis) : List (Address × UInt64) :=
  g.allocations.map fun a => (⟨a.address⟩, a.balance)

/-- The comparison of `sort_by`: address bytes, lexicographically. -/
def pairLe (x y : Address × UInt64) : Prop :=
  byteKey x.1.value ≤ byteKey y.1.value

instance : DecidableRel pairLe := fun x y =>
  inferInstanceAs (Decidable (byteKey x.1.value ≤ byteKey y.1.value))

/-- The scan over `windows(2)`. -/
def checkAdjacent : List (Address × UInt64) → Except ProtocolError Unit
  | [] => .ok ()
  | [_] => .ok ()
  | x :: y :: rest =>
      if x.1 = y.1 then
        .error (.genesisError ("duplicate genesis address: " ++ x.1.value))
      else checkAdjacent (y :: rest)

/-- `Genesis::sorted_pairs`. The sort is stable, as `slice::sort_by` is. -/
def sortedPairs (g : Genesis) : Except ProtocolError (List (Address × UInt64)) := do
  g.validateDecl
  checkAdjacent (g.pairs.insertionSort pairLe)
  .ok (g.pairs.insertionSort pairLe)

/-- One line of the commitment text. -/
def commitmentLine (p : Address × UInt64) : List Char :=
  p.1.value.toList ++ '|' :: p.2.toNat.repr.toList

/-- The text that is hashed: the lines joined by line breaks. -/
def commitmentPreimage (ps : List (Address × UInt64)) : String :=
  String.ofList (joinWith '\n' (ps.map commitmentLine))

section Commitment

variable [Primitives]

/-- `Genesis::state_commitment_raw32`. -/
def stateCommitmentRaw32 (g : Genesis) : Except ProtocolError (ByteArr 32) := do
  let ps ← g.sortedPairs
  .ok (Crypto.sha256Raw32 (utf8 (commitmentPreimage ps)))

/-- `Genesis::state_commitment_hex`. -/
def stateCommitmentHex (g : Genesis) : Except ProtocolError String := do
  let raw ← g.stateCommitmentRaw32
  .ok (hexEncode raw.val)

theorem stateCommitmentHex_ok_iff (g : Genesis) (hex : String) :
    g.stateCommitmentHex = .ok hex ↔ ∃ ps, g.sortedPairs = .ok ps ∧
      hex = hexEncode (Primitives.sha256 (utf8 (commitmentPreimage ps))).val := by
  simp only [stateCommitmentHex, stateCommitmentRaw32, bind_ok_iff, Crypto.sha256Raw32,
    Except.ok.injEq]
  constructor
  · rintro ⟨_, ⟨ps, hps, rfl⟩, rfl⟩
    exact ⟨ps, hps, rfl⟩
  · rintro ⟨ps, hps, rfl⟩
    exact ⟨_, ⟨ps, hps, rfl⟩, rfl⟩

end Commitment

theorem validateAllocations_ok_iff (as : List GenesisAllocation) :
    validateAllocations as = .ok () ↔
      ∀ a ∈ as, (Address.mk a.address).isValid = true ∧ a.balance ≠ 0 := by
  induction as with
  | nil => simp only [validateAllocations, List.not_mem_nil, false_implies, implies_true]
  | cons a as ih =>
      rw [validateAllocations, ite_error_ok_iff, ite_error_ok_iff, ih, List.forall_mem_cons,
        Bool.not_eq_true, Bool.not_eq_false', and_assoc]

theorem checkAdjacent_ok_iff (ps : List (Address × UInt64)) :
    checkAdjacent ps = .ok () ↔ ps.IsChain (fun x y => x.1 ≠ y.1) := by
  induction ps with
  | nil => simp only [checkAdjacent, List.IsChain.nil]
  | cons x ps ih =>
      cases ps with
      | nil => simp only [checkAdjacent, List.IsChain.singleton]
      | cons y ps => rw [checkAdjacent, ite_error_ok_iff, ih, List.isChain_cons_cons]

theorem sortedPairs_ok_iff (g : Genesis) (ps : List (Address × UInt64)) :
    g.sortedPairs = .ok ps ↔
      (∀ a ∈ g.allocations, (Address.mk a.address).isValid = true ∧ a.balance ≠ 0) ∧
        ps.IsChain (fun x y => x.1 ≠ y.1) ∧ ps = g.pairs.insertionSort pairLe := by
  rw [sortedPairs, then_ok_iff, then_ok_iff, validateDecl, validateAllocations_ok_iff,
    checkAdjacent_ok_iff, Except.ok.injEq]
  constructor
  · rintro ⟨hdecl, hadj, rfl⟩
    exact ⟨hdecl, hadj, rfl⟩
  · rintro ⟨hdecl, hadj, rfl⟩
    exact ⟨hdecl, hadj, rfl⟩

end Genesis

end Trilogicon
