import Trilogicon.Core.Transaction

/-!
# Blocks

`block.rs`: the block header, its hash, and the checks a block passes on its
own.

The header preimage is a text joined by `|`. The genesis block is the only
block of height zero that validates, and its hash is a fixed word rather than
a digest.

## Main definitions

* `Block`: A block.
* `Block.genesis`: The fixed block of height zero.
* `Block.headerPreimageBytes`: The bytes hashed into the block's identity.
* `Block.checkDuplicates`: The scan for repeated transaction ids.
* `Block.validateTransactions`: The stateless check of every transaction.
* `Block.basicValidate`: The stateless checks of a block.
* `Block.Valid`: What passing them means above height zero.

## Theorems

* `checkDuplicates_ok_iff`: The scan passes when the ids are distinct.
* `validateTransactions_ok_iff`: Every transaction passed its checks.
* `basicValidate_ok_iff_of_height`: The checks pass exactly on valid blocks.
* `basicValidate_ok_of_height_zero`: What the checks fix at height zero.
-/

namespace Trilogicon

/-- `block::Block`. -/
structure Block where
  height : UInt64
  previousHash : String
  timestampUnix : UInt64
  transactions : List Transaction
  blockHash : String
deriving DecidableEq, Repr

namespace Block

/-- `Block::genesis`. -/
def genesis : Block :=
  { height := 0, previousHash := "GENESIS", timestampUnix := 0, transactions := [],
    blockHash := "GENESIS_HASH" }

/-- `Block::is_genesis`. -/
def isGenesis (b : Block) : Bool :=
  b.height == 0

/-- The transaction ids joined by `|`. -/
def joinedTxHashes (b : Block) : String :=
  String.ofList (joinWith '|' (b.transactions.map fun t => t.txHash.toList))

/-- The text `height|previous_hash|timestamp|tx_hash_0|tx_hash_1|...`. -/
def headerPreimage (b : Block) : String :=
  b.height.toNat.repr ++ "|" ++ b.previousHash ++ "|" ++ b.timestampUnix.toNat.repr ++ "|" ++
    b.joinedTxHashes

/-- `Block::block_header_preimage_bytes`. -/
def headerPreimageBytes (b : Block) : Bytes :=
  utf8 b.headerPreimage

/-- The first loop of `basic_validate`, with the hash set as an argument. -/
def checkDuplicates : List Transaction → Finset String → Except ProtocolError Unit
  | [], _ => .ok ()
  | tx :: txs, seen =>
      if tx.txHash ∈ seen then .error .duplicateTransaction
      else checkDuplicates txs (insert tx.txHash seen)

theorem checkDuplicates_ok_iff (txs : List Transaction) (seen : Finset String) :
    checkDuplicates txs seen = .ok () ↔
      (txs.map Transaction.txHash).Nodup ∧ ∀ tx ∈ txs, tx.txHash ∉ seen := by
  induction txs generalizing seen with
  | nil => simp only [checkDuplicates, List.map_nil, List.nodup_nil, List.not_mem_nil,
      false_implies, implies_true, and_self]
  | cons tx txs ih =>
      rw [checkDuplicates, ite_error_ok_iff, ih]
      simp only [List.map_cons, List.nodup_cons, List.mem_map, List.forall_mem_cons,
        Finset.mem_insert, not_or, not_exists, not_and]
      constructor
      · rintro ⟨hnew, hnodup, hrest⟩
        exact ⟨⟨fun t ht heq => (hrest t ht).1 heq, hnodup⟩, hnew, fun t ht => (hrest t ht).2⟩
      · rintro ⟨⟨hfresh, hnodup⟩, hnew, hrest⟩
        exact ⟨hnew, hnodup, fun t ht => ⟨fun heq => hfresh t ht heq, hrest t ht⟩⟩

variable [Primitives]

/-- `Block::compute_block_hash`. -/
def computeBlockHash (b : Block) : String :=
  Crypto.hashBytes b.headerPreimageBytes

/-- `Block::validate_block_hash`. -/
def validateBlockHash (b : Block) : Except ProtocolError Unit :=
  if trim b.blockHash = "" then .error (.invalidBlock "missing block hash")
  else if b.blockHash ≠ b.computeBlockHash then .error (.invalidBlock "block hash mismatch")
  else .ok ()

/-- The second loop of `basic_validate`. -/
def validateTransactions : List Transaction → Except ProtocolError Unit
  | [] => .ok ()
  | tx :: txs => do
      tx.basicValidate
      validateTransactions txs

/-- `Block::basic_validate`. -/
def basicValidate (b : Block) : Except ProtocolError Unit :=
  if b.isGenesis then
    if b.previousHash ≠ "GENESIS" ∨ b.blockHash ≠ "GENESIS_HASH" then
      .error (.invalidBlock "invalid genesis constants")
    else if b.transactions ≠ [] then
      .error (.invalidBlock "genesis must not contain transactions")
    else .ok ()
  else if trim b.previousHash = "" then .error (.invalidBlock "missing previous hash")
  else do
    checkDuplicates b.transactions ∅
    validateTransactions b.transactions
    b.validateBlockHash

theorem validateTransactions_ok_iff (txs : List Transaction) :
    validateTransactions txs = .ok () ↔ ∀ tx ∈ txs, tx.Valid := by
  induction txs with
  | nil => simp only [validateTransactions, List.not_mem_nil, false_implies, implies_true]
  | cons tx txs ih =>
      rw [validateTransactions, then_ok_iff, List.forall_mem_cons, ← ih,
        ← Transaction.basicValidate_ok_iff]

/-- What `basicValidate` establishes of a block above height zero. -/
structure Valid (b : Block) : Prop where
  previous_not_blank : trim b.previousHash ≠ ""
  distinct : (b.transactions.map Transaction.txHash).Nodup
  transactions_valid : ∀ tx ∈ b.transactions, tx.Valid
  hash : b.blockHash = b.computeBlockHash

theorem basicValidate_ok_iff_of_height (b : Block) (h : b.height ≠ 0) :
    b.basicValidate = .ok () ↔ b.Valid := by
  have hg : b.isGenesis = false := by
    rw [isGenesis, beq_eq_false_iff_ne]
    exact h
  rw [basicValidate, hg, if_neg (by decide), ite_error_ok_iff]
  simp only [then_ok_iff, checkDuplicates_ok_iff, validateTransactions_ok_iff, validateBlockHash,
    ite_error_ok_iff]
  constructor
  · rintro ⟨hprev, ⟨hnodup, _⟩, hvalid, _, hhash, _⟩
    exact ⟨hprev, hnodup, hvalid, not_not.mp hhash⟩
  · intro hv
    have hblank : trim b.blockHash ≠ "" := by
      rw [hv.hash]
      exact Crypto.hashBytes_not_blank _
    exact ⟨hv.previous_not_blank, ⟨hv.distinct, fun tx _ => Finset.notMem_empty _⟩,
      hv.transactions_valid, hblank, not_not.mpr hv.hash, trivial⟩

theorem basicValidate_ok_of_height_zero (b : Block) (h : b.height = 0)
    (hv : b.basicValidate = .ok ()) : b.previousHash = "GENESIS" ∧ b.transactions = [] := by
  have hg : b.isGenesis = true := by
    rw [isGenesis, h]
    decide
  rw [basicValidate, if_pos hg, ite_error_ok_iff, ite_error_ok_iff] at hv
  rcases hv with ⟨hconst, htxs, _⟩
  exact ⟨by_contra fun hc => hconst (Or.inl hc), not_not.mp htxs⟩

-- Later modules use the two lemmas above and never look inside the checks.
attribute [irreducible] basicValidate

end Block

end Trilogicon
