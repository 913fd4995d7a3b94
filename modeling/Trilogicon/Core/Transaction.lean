import Trilogicon.Core.Crypto
import Trilogicon.Lib.Results

/-!
# Transactions

`transaction.rs`: a signed transfer and the checks it passes on its own,
before any account is looked at.

`basicValidate` runs its checks in the source's order and reports the first
that fails. `Valid` collects what a transaction that passes satisfies; the
checks for missing fields do not appear in it, because the hash, the signature
and the key binding already exclude empty fields.

## Main definitions

* `Transaction`: A transfer with its authentication material and id.
* `Transaction.unsignedPayloadBytes`: The bytes that are hashed and signed.
* `Transaction.basicValidate`: The stateless checks.
* `Transaction.Valid`: What passing them means.

## Theorems

* `basicValidate_ok_iff`: The checks pass exactly on valid transactions.
-/

namespace Trilogicon

/-- `transaction::Transaction`. -/
structure Transaction where
  sender : Address
  receiver : Address
  amount : UInt64
  fee : UInt64
  nonce : UInt64
  timestampUnix : UInt64
  publicKey : Bytes
  signature : Bytes
  txHash : String
deriving DecidableEq, Repr

namespace Transaction

/-- The text `sender|receiver|amount|fee|nonce|timestamp`. -/
def unsignedPayload (tx : Transaction) : String :=
  tx.sender.value ++ "|" ++ tx.receiver.value ++ "|" ++ tx.amount.toNat.repr ++ "|" ++
    tx.fee.toNat.repr ++ "|" ++ tx.nonce.toNat.repr ++ "|" ++ tx.timestampUnix.toNat.repr

/-- `Transaction::unsigned_payload_bytes`. -/
def unsignedPayloadBytes (tx : Transaction) : Bytes :=
  utf8 tx.unsignedPayload

variable [Primitives]

/-- `Transaction::validate_sender_binding`. -/
def validateSenderBinding (tx : Transaction) : Except ProtocolError Unit :=
  if tx.sender.value ≠ Crypto.addressFromPublicKey tx.publicKey then .error .invalidAddress
  else .ok ()

/-- `Transaction::validate_signature`. -/
def validateSignature (tx : Transaction) : Except ProtocolError Unit :=
  if Crypto.verifySignature tx.unsignedPayloadBytes tx.signature tx.publicKey then .ok ()
  else .error .signatureInvalid

/-- `Transaction::compute_tx_hash`. -/
def computeTxHash (tx : Transaction) : String :=
  Crypto.hashBytes tx.unsignedPayloadBytes

/-- `Transaction::validate_hash`. -/
def validateHash (tx : Transaction) : Except ProtocolError Unit :=
  if tx.txHash ≠ tx.computeTxHash then .error (.stateError "transaction hash mismatch")
  else .ok ()

/-- `Transaction::basic_validate`. -/
def basicValidate (tx : Transaction) : Except ProtocolError Unit :=
  if !tx.sender.isValid || !tx.receiver.isValid then .error .invalidAddress
  else if tx.amount = 0 then .error .invalidAmount
  else if tx.publicKey = [] ∨ tx.signature = [] then .error .signatureInvalid
  else if trim tx.txHash = "" then .error (.stateError "missing tx hash")
  else do
    tx.validateHash
    tx.validateSignature
    tx.validateSenderBinding

/-- What `basicValidate` establishes. -/
structure Valid (tx : Transaction) : Prop where
  sender_valid : tx.sender.isValid = true
  receiver_valid : tx.receiver.isValid = true
  amount_pos : tx.amount ≠ 0
  hash : tx.txHash = Crypto.hashBytes tx.unsignedPayloadBytes
  signed : Crypto.verifySignature tx.unsignedPayloadBytes tx.signature tx.publicKey = true
  bound : tx.sender.value = Crypto.addressFromPublicKey tx.publicKey

theorem Valid.publicKey_length {tx : Transaction} (h : tx.Valid) : tx.publicKey.length = 32 :=
  (Crypto.verifySignature_lengths h.signed).1

theorem Valid.signature_length {tx : Transaction} (h : tx.Valid) : tx.signature.length = 64 :=
  (Crypto.verifySignature_lengths h.signed).2

/-- The checks pass exactly on valid transactions. The tests for missing
    fields never decide: a verified signature has its full length, and a
    correct hash is not blank. -/
theorem basicValidate_ok_iff (tx : Transaction) : tx.basicValidate = .ok () ↔ tx.Valid := by
  unfold basicValidate validateHash validateSignature validateSenderBinding computeTxHash
  simp only [ite_error_ok_iff, then_ok_iff, ite_ok_error_iff]
  constructor
  · rintro ⟨haddr, hamt, _, _, ⟨hhash, _⟩, ⟨hsig, _⟩, hbind, _⟩
    simp only [Bool.not_eq_true, Bool.or_eq_false_iff, Bool.not_eq_false'] at haddr
    exact ⟨haddr.1, haddr.2, hamt, not_not.mp hhash, hsig, not_not.mp hbind⟩
  · intro h
    have hpk : tx.publicKey ≠ [] := fun hc => absurd h.publicKey_length (by rw [hc]; decide)
    have hsg : tx.signature ≠ [] := fun hc => absurd h.signature_length (by rw [hc]; decide)
    have hblank : trim tx.txHash ≠ "" := by rw [h.hash]; exact Crypto.hashBytes_not_blank _
    refine ⟨?_, h.amount_pos, fun hc => hc.elim hpk hsg, hblank,
      ⟨not_not.mpr h.hash, trivial⟩, ⟨h.signed, trivial⟩, not_not.mpr h.bound, trivial⟩
    rw [h.sender_valid, h.receiver_valid]
    decide

/-- The errors the checks report. -/
theorem basicValidate_error_mem {tx : Transaction} {e : ProtocolError}
    (h : tx.basicValidate = .error e) :
    e ∈ [.invalidAddress, .invalidAmount, .signatureInvalid, .stateError "missing tx hash",
      ProtocolError.stateError "transaction hash mismatch"] := by
  unfold basicValidate validateHash validateSignature validateSenderBinding at h
  repeat' split at h
  all_goals
    simp only [bind, Except.bind, Except.error.injEq, reduceCtorEq] at h
    try
      rw [← h]
      decide

/-- The checks never report an error that is about a pool. -/
theorem basicValidate_error {tx : Transaction} {e : ProtocolError}
    (h : tx.basicValidate = .error e) : e ≠ .mempoolFull ∧ e ≠ .duplicateTransaction := by
  have hmem := basicValidate_error_mem h
  refine ⟨?_, ?_⟩
  · rintro rfl
    exact absurd hmem (by decide)
  · rintro rfl
    exact absurd hmem (by decide)

-- Later modules use `basicValidate_ok_iff` and never look inside the checks.
attribute [irreducible] basicValidate

end Transaction

end Trilogicon
