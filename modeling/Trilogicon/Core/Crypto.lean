import Trilogicon.Core.Types

/-!
# Hashing and Signatures

`crypto.rs`, over the primitives it takes from other crates.

SHA-256 and Ed25519 are not part of the repository, so they are parameters:
`Primitives` holds a digest function with 32-byte results and the two steps of
verifying a signature. Nothing is assumed about either. What the code does
with them is modelled as it stands: digests are written as 64 lowercase
hexadecimal characters, and a signature is checked only after the key and the
signature have been converted to arrays of exactly 32 and 64 bytes.

## Main definitions

* `ByteArr`: A byte string of a fixed length, the source's `[u8; N]`.
* `Primitives`: SHA-256 and Ed25519, as parameters.
* `hexEncode`: Lowercase hexadecimal text.
* `Crypto.hashBytes`: The hexadecimal SHA-256 digest.
* `Crypto.addressFromPublicKey`: The address a public key controls.
* `Crypto.verifySignature`: Signature verification.

## Theorems

* `hexEncode_length`: Two characters for each byte.
* `hexEncode_isHex`: Only lowercase hexadecimal digits are written.
* `hexEncode_inj`: Hexadecimal text determines the bytes.
* `hashBytes_length`: A hash has 64 characters.
* `hashBytes_byteLength`: A hash takes 64 bytes.
* `hashBytes_notMem`: A hash holds no separator.
* `hashBytes_not_blank`: A hash is not blank.
-/

namespace Trilogicon

/-- A byte string of length `n`: `[u8; n]`. -/
abbrev ByteArr (n : Nat) := { b : Bytes // b.length = n }

/-- Conversion of a slice to an array, which fails on any other length. -/
def ByteArr.tryFrom (n : Nat) (b : Bytes) : Option (ByteArr n) :=
  if h : b.length = n then some ⟨b, h⟩ else none

/-- The primitives `crypto.rs` imports: SHA-256, and Ed25519 key decoding
    and verification. -/
class Primitives where
  sha256 : Bytes → ByteArr 32
  verifyingKeyFromBytes : ByteArr 32 → Bool
  verify : ByteArr 32 → Bytes → ByteArr 64 → Bool

/-- The two characters of a byte in `hex::encode`. -/
def hexByte (b : UInt8) : List Char :=
  [Nat.digitChar (b.toNat / 16), Nat.digitChar (b.toNat % 16)]

/-- `hex::encode`. -/
def hexEncode (b : Bytes) : String :=
  String.ofList (b.flatMap hexByte)

/-- The characters `hex::encode` can write. -/
def isHexChar (c : Char) : Bool :=
  c ∈ "0123456789abcdef".toList

theorem hexByte_isHex (b : UInt8) : ∀ c ∈ hexByte b, isHexChar c = true := by
  have h : ∀ n < 16, isHexChar (Nat.digitChar n) = true := by decide
  have hb : b.toNat < 256 := b.toNat_lt
  intro c hc
  simp only [hexByte, List.mem_cons, List.not_mem_nil, or_false] at hc
  rcases hc with rfl | rfl
  · exact h _ (by omega)
  · exact h _ (by omega)

theorem hexByte_inj {a b : UInt8} (h : hexByte a = hexByte b) : a = b := by
  have hinj : ∀ m < 16, ∀ n < 16, Nat.digitChar m = Nat.digitChar n → m = n := by decide
  have ha : a.toNat < 256 := a.toNat_lt
  have hb : b.toNat < 256 := b.toNat_lt
  simp only [hexByte, List.cons.injEq, and_true] at h
  have h1 := hinj _ (by omega) _ (by omega) h.1
  have h2 := hinj _ (by omega) _ (by omega) h.2
  apply UInt8.toNat_inj.mp
  omega

theorem hexEncode_toList (b : Bytes) : (hexEncode b).toList = b.flatMap hexByte := by
  rw [hexEncode, String.toList_ofList]

theorem hexEncode_length (b : Bytes) : (hexEncode b).toList.length = 2 * b.length := by
  rw [hexEncode_toList]
  induction b with
  | nil => rfl
  | cons x xs ih =>
      rw [List.flatMap_cons, List.length_append, ih, List.length_cons]
      simp only [hexByte, List.length_cons, List.length_nil]
      omega

theorem hexEncode_isHex (b : Bytes) : ∀ c ∈ (hexEncode b).toList, isHexChar c = true := by
  intro c hc
  rw [hexEncode_toList, List.mem_flatMap] at hc
  rcases hc with ⟨x, _, hcx⟩
  exact hexByte_isHex x c hcx

theorem hexEncode_inj {a b : Bytes} (h : hexEncode a = hexEncode b) : a = b := by
  have hlist : a.flatMap hexByte = b.flatMap hexByte := by
    rw [← hexEncode_toList, ← hexEncode_toList, h]
  clear h
  induction a generalizing b with
  | nil =>
      cases b with
      | nil => rfl
      | cons y ys => exact absurd hlist (by simp only [List.flatMap_nil, List.flatMap_cons, hexByte,
          List.cons_append, reduceCtorEq, not_false_eq_true])
  | cons x xs ih =>
      cases b with
      | nil => exact absurd hlist (by simp only [List.flatMap_nil, List.flatMap_cons, hexByte,
          List.cons_append, reduceCtorEq, not_false_eq_true])
      | cons y ys =>
          rw [List.flatMap_cons, List.flatMap_cons] at hlist
          rcases List.append_inj hlist rfl with ⟨hhead, htail⟩
          rw [hexByte_inj hhead, ih htail]

namespace Crypto

variable [Primitives]

/-- `Crypto::hash_bytes`. -/
def hashBytes (payload : Bytes) : String :=
  hexEncode (Primitives.sha256 payload).val

/-- `Crypto::sha256_raw32`. -/
def sha256Raw32 (payload : Bytes) : ByteArr 32 :=
  Primitives.sha256 payload

/-- `Crypto::address_from_public_key`. -/
def addressFromPublicKey (publicKey : Bytes) : String :=
  hashBytes publicKey

/-- `Crypto::verify_signature`. -/
def verifySignature (message signature publicKey : Bytes) : Bool :=
  match ByteArr.tryFrom 32 publicKey with
  | none => false
  | some pkBytes =>
      match ByteArr.tryFrom 64 signature with
      | none => false
      | some sigBytes =>
          if Primitives.verifyingKeyFromBytes pkBytes then
            Primitives.verify pkBytes message sigBytes
          else false

theorem hashBytes_length (payload : Bytes) : (hashBytes payload).toList.length = 64 := by
  rw [hashBytes, hexEncode_length, (Primitives.sha256 payload).property]

theorem hashBytes_isHex (payload : Bytes) :
    ∀ c ∈ (hashBytes payload).toList, isHexChar c = true :=
  hexEncode_isHex _

theorem hashBytes_notMem (payload : Bytes) {c : Char} (hc : isHexChar c = false) :
    c ∉ (hashBytes payload).toList := by
  intro h
  rw [hashBytes_isHex payload c h] at hc
  exact absurd hc (by decide)

theorem hashBytes_byteLength (payload : Bytes) : (utf8 (hashBytes payload)).length = 64 := by
  rw [utf8_length_of_ascii, hashBytes_length]
  intro c hc
  have hall : "0123456789abcdef".toList.all (fun d => d.utf8Size == 1) = true := by decide
  exact eq_of_beq (List.all_eq_true.mp hall c (of_decide_eq_true (hashBytes_isHex payload c hc)))

theorem hashBytes_not_blank (payload : Bytes) : trim (hashBytes payload) ≠ "" := by
  rw [Ne, trim_eq_empty_iff]
  intro h
  have hall : "0123456789abcdef".toList.all (fun d => !isWhitespace d) = true := by decide
  cases hl : (hashBytes payload).toList with
  | nil =>
      have := hashBytes_length payload
      rw [hl] at this
      exact absurd this (by decide)
  | cons c cs =>
      have hmem : c ∈ (hashBytes payload).toList := by rw [hl]; exact List.mem_cons_self
      have hws := h c hmem
      have hno := List.all_eq_true.mp hall c (of_decide_eq_true (hashBytes_isHex payload c hmem))
      rw [hws] at hno
      exact absurd hno (by decide)

/-- A verified signature has a 32-byte key and 64 bytes. -/
theorem verifySignature_lengths {message signature publicKey : Bytes}
    (h : verifySignature message signature publicKey = true) :
    publicKey.length = 32 ∧ signature.length = 64 := by
  unfold verifySignature ByteArr.tryFrom at h
  by_cases hpk : publicKey.length = 32
  · by_cases hsig : signature.length = 64
    · exact ⟨hpk, hsig⟩
    · simp only [dif_pos hpk, dif_neg hsig, Bool.false_eq_true] at h
  · simp only [dif_neg hpk, Bool.false_eq_true] at h

end Crypto

end Trilogicon
