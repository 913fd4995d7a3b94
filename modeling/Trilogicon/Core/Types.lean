import Mathlib.Data.Finmap
import Mathlib.Data.List.TakeWhile
import Trilogicon.Lib.Text
import Trilogicon.Lib.Words

/-!
# Addresses, Accounts and Errors

The data every other module passes around: `types.rs` and `errors.rs`.

An address is any string that is not blank and takes at most 128 bytes. That
is all `Address::is_valid` asks; nothing excludes separators, digits or line
breaks from it.

A method that takes `&mut self` and returns a `Result` is modelled by a
function that returns the result beside the final `self`. A failing call
therefore says what it leaves behind, which for most methods is a theorem and
for some is not the value it was given.

## Main definitions

* `Address`: An account address.
* `Account`: A balance and the next nonce, under their address.
* `ProtocolError`: What the protocol layer reports.
* `isWhitespace`: The Unicode white space `str::trim` removes.
* `trim`: A string without leading and trailing white space.
* `Address.isValid`: The address format rule.

## Theorems

* `trim_eq_empty_iff`: A string trims to nothing when it is all white space.
-/

namespace Trilogicon

/-- `types::Address`, a newtype over a string. -/
structure Address where
  value : String
deriving DecidableEq, Repr

/-- `types::Account`. -/
structure Account where
  address : Address
  balance : UInt64
  nonce : UInt64
deriving DecidableEq, Repr

/-- `Account::new`: a fresh account has nonce zero. -/
def Account.new (address : Address) (balance : UInt64) : Account :=
  { address := address, balance := balance, nonce := 0 }

/-- `errors::ProtocolError`. -/
inductive ProtocolError where
  | invalidAddress
  | invalidAmount
  | invalidFee
  | invalidNonce
  | insufficientBalance
  | signatureInvalid
  | invalidBlock (msg : String)
  | stateError (msg : String)
  | duplicateTransaction
  | mempoolFull
  | mempoolNonceConflict
  | genesisError (msg : String)
deriving DecidableEq, Repr

/-- The `Display` text of a protocol error. -/
def ProtocolError.display : ProtocolError → String
  | .invalidAddress => "invalid address"
  | .invalidAmount => "invalid amount"
  | .invalidFee => "invalid fee"
  | .invalidNonce => "invalid nonce"
  | .insufficientBalance => "insufficient balance"
  | .signatureInvalid => "signature invalid"
  | .invalidBlock msg => "invalid block: " ++ msg
  | .stateError msg => "state error: " ++ msg
  | .duplicateTransaction => "duplicate transaction"
  | .mempoolFull => "mempool full"
  | .mempoolNonceConflict => "mempool nonce conflict"
  | .genesisError msg => "genesis error: " ++ msg

/-- The code points with the Unicode `White_Space` property. -/
def isWhitespace (c : Char) : Bool :=
  let n := c.toNat
  (0x09 ≤ n && n ≤ 0x0D) || n == 0x20 || n == 0x85 || n == 0xA0 || n == 0x1680 ||
    (0x2000 ≤ n && n ≤ 0x200A) || n == 0x2028 || n == 0x2029 || n == 0x202F || n == 0x205F ||
    n == 0x3000

/-- `str::trim`. -/
def trim (s : String) : String :=
  String.ofList ((s.toList.dropWhile isWhitespace).reverse.dropWhile isWhitespace).reverse

theorem trim_eq_empty_iff (s : String) : trim s = "" ↔ ∀ c ∈ s.toList, isWhitespace c = true := by
  have hkeep : trim s = "" ↔
      (s.toList.dropWhile isWhitespace).reverse.dropWhile isWhitespace = [] := by
    rw [← String.toList_inj, trim, String.toList_ofList]
    simp only [String.toList_empty, List.reverse_eq_nil_iff]
  rw [hkeep, List.dropWhile_eq_nil_iff]
  constructor
  · intro h c hc
    -- What the first pass drops is white space, and what it keeps is by `h`.
    by_cases hd : c ∈ s.toList.dropWhile isWhitespace
    · exact h c (List.mem_reverse.mpr hd)
    · have hsplit := List.takeWhile_append_dropWhile (p := isWhitespace) (l := s.toList)
      rw [← hsplit, List.mem_append] at hc
      rcases hc with ht | hd'
      · exact List.mem_takeWhile_imp ht
      · exact absurd hd' hd
  · intro h c hc
    exact h c ((List.dropWhile_sublist isWhitespace).subset (List.mem_reverse.mp hc))

/-- `Address::is_valid`: not blank, and at most 128 bytes. -/
def Address.isValid (a : Address) : Bool :=
  trim a.value ≠ "" && (utf8 a.value).length ≤ 128

end Trilogicon
