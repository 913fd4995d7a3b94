import Mathlib.Data.Nat.Find
import Trilogicon.Core.Block
import Trilogicon.Lib.Parser

/-!
# The Binary Encoding

`encoding.rs`: blocks and transactions as byte strings, on disk and on the
wire.

The decoder reads through a cursor. Only the bytes the cursor has not passed
matter to it, also for the texts of its errors, so the cursor is the list of
those bytes. The encoder writes lengths and counts as 32-bit words and panics
on one that does not fit; a panic is `none` here.

The decoder reserves room for the transactions before it reads them, and the
process ends if the room is not there. `decodeBlock` is what it returns if the room
is granted, and `decodeBlockWithin` says when it is not.

Decoding and encoding are one relation read in two directions: a byte string
decodes to a block exactly when the block encodes to it. Nothing else about
the format is used above this module.

## Main definitions

* `EncodeError`: What the decoder reports.
* `encodeTransaction`, `decodeTransaction`: The transaction codec.
* `encodeBlock`, `decodeBlock`: The block codec.
* `reservedCount`: How many transactions the decoder reserves room for.
* `decodeBlockWithin`: The decoder where room is limited.

## Theorems

* `decodeTransaction_ok_iff`: Decoding a transaction inverts encoding it.
* `decodeBlock_ok_iff`: Decoding a block inverts encoding it.
* `reservedCount_eq_some`: The inputs for which room is reserved.
* `encodeBlock_length`: How long an encoded block is.
* `Transaction.Valid.encodes`: A valid transaction takes at most 409 bytes.
* `encodeBlock_exists`: When the block encoder does not panic.
-/

namespace Trilogicon

/-- `encoding::EncodeError`. -/
structure EncodeError where
  msg : String
deriving DecidableEq, Repr

/-! ### Texts that are not UTF-8 -/

/-- Whether a byte can stand behind the first byte of a character. -/
def isContinuation (b : UInt8) : Bool :=
  0x80 ≤ b && b ≤ 0xBF

/-- Whether a byte can stand second. Some first bytes leave less room, so that no
    character has two forms and surrogates have none. -/
def mayFollow (first second : UInt8) : Bool :=
  if first = 0xE0 then 0xA0 ≤ second && second ≤ 0xBF
  else if first = 0xED then 0x80 ≤ second && second ≤ 0x9F
  else if first = 0xF0 then 0x90 ≤ second && second ≤ 0xBF
  else if first = 0xF4 then 0x80 ≤ second && second ≤ 0x8F
  else isContinuation second

/-- `Utf8Error::error_len`, of the bytes from the first that is not valid on;
    `none` if they end inside a character. -/
def utf8ErrorLen : Bytes → Option Nat
  | [] => none
  | first :: rest =>
      if first < 0xC2 || 0xF4 < first then some 1
      else
        match rest with
        | [] => none
        | second :: rest =>
            if !mayFollow first second then some 1
            else
              match rest with
              | [] => none
              | third :: rest =>
                  if !isContinuation third then some 2
                  else if rest = [] then none
                  else some 3

/-- The text of the `Utf8Error` for a byte string. -/
def utf8ErrorText (bytes : Bytes) : String :=
  let validUpTo :=
    Nat.findGreatest (fun k => (fromUtf8 (bytes.take k)).isSome = true) bytes.length
  match utf8ErrorLen (bytes.drop validUpTo) with
  | some len => "invalid utf-8 sequence of " ++ len.repr ++ " bytes from index " ++ validUpTo.repr
  | none => "incomplete utf-8 byte sequence from index " ++ validUpTo.repr

/-- A reader of the byte format. -/
abbrev Cursor (α : Type) := Parser UInt8 EncodeError α

namespace Cursor

/-- `Cursor::take_exact`. -/
def takeExact (n : Nat) : Cursor Bytes :=
  Parser.take n fun remaining => ⟨"unexpected end of input (need " ++ n.repr ++ " bytes, have " ++
    remaining.repr ++ ")"⟩

/-- `Cursor::take_u8`. -/
def takeU8 : Cursor UInt8 := do
  let b ← takeExact 1
  pure (b.headD 0)

/-- `Cursor::take_u32_be`, as the index it is used as. -/
def takeU32Be : Cursor Nat := do
  let b ← takeExact 4
  pure (ofBe b)

/-- `Cursor::take_u64_be`. -/
def takeU64Be : Cursor UInt64 := do
  let b ← takeExact 8
  pure (UInt64.ofNat (ofBe b))

/-- `Cursor::take_bytes`. -/
def takeBytes : Cursor Bytes := do
  let n ← takeU32Be
  takeExact n

/-- `Cursor::take_string`. -/
def takeString : Cursor String := do
  let bytes ← takeBytes
  match fromUtf8 bytes with
  | none => Parser.fail ⟨"invalid utf-8: " ++ utf8ErrorText bytes⟩
  | some s => pure s

/-- `Cursor::finish`. -/
def finish : Cursor Unit :=
  fun data => if data ≠ [] then
    .error ⟨"trailing bytes after decode: " ++ data.length.repr ++ " bytes"⟩
  else .ok ((), data)

/-- Run a reader on a whole input. -/
def run {α : Type} (c : Cursor α) (data : Bytes) : Except EncodeError α :=
  (c data).map Prod.fst

end Cursor

/-- `TX_MAGIC`, the bytes of `TRT1`. -/
def txMagic : Bytes :=
  utf8 "TRT1"

/-- `BLOCK_MAGIC`, the bytes of `TRB1`. -/
def blockMagic : Bytes :=
  utf8 "TRB1"

/-- `TX_FORMAT_VERSION`. -/
def txFormatVersion : UInt8 := 1

/-- `BLOCK_FORMAT_VERSION`. -/
def blockFormatVersion : UInt8 := 1

/-- `push_u64_be`. -/
def pushU64Be (v : UInt64) : Bytes :=
  beBytes 8 v.toNat

/-- `u32::try_from(n).expect(..)` and `push_u32_be`. -/
def pushLen (n : Nat) : Option Bytes :=
  if n < 2 ^ 32 then some (beBytes 4 n) else none

/-- `push_bytes`. -/
def pushBytes (b : Bytes) : Option Bytes := do
  let len ← pushLen b.length
  some (len ++ b)

/-- `push_string`. -/
def pushString (s : String) : Option Bytes :=
  pushBytes (utf8 s)

/-- `encode_transaction`. -/
def encodeTransaction (tx : Transaction) : Option Bytes := do
  let sender ← pushString tx.sender.value
  let receiver ← pushString tx.receiver.value
  let publicKey ← pushBytes tx.publicKey
  let signature ← pushBytes tx.signature
  let txHash ← pushString tx.txHash
  some (txMagic ++ [txFormatVersion] ++ sender ++ receiver ++ pushU64Be tx.amount ++
    pushU64Be tx.fee ++ pushU64Be tx.nonce ++ pushU64Be tx.timestampUnix ++ publicKey ++
    signature ++ txHash)

/-- The reads of `decode_transaction`, in order. -/
def readTransaction : Cursor Transaction := do
  let magic ← Cursor.takeExact 4
  if magic ≠ txMagic then Parser.fail ⟨"bad transaction magic"⟩
  else do
    let ver ← Cursor.takeU8
    if ver ≠ txFormatVersion then
      Parser.fail ⟨"unsupported tx format version " ++ ver.toNat.repr⟩
    else do
      let sender ← Cursor.takeString
      let receiver ← Cursor.takeString
      let amount ← Cursor.takeU64Be
      let fee ← Cursor.takeU64Be
      let nonce ← Cursor.takeU64Be
      let timestampUnix ← Cursor.takeU64Be
      let publicKey ← Cursor.takeBytes
      let signature ← Cursor.takeBytes
      let txHash ← Cursor.takeString
      Cursor.finish
      pure { sender := ⟨sender⟩, receiver := ⟨receiver⟩, amount, fee, nonce, timestampUnix,
             publicKey, signature, txHash }

/-- `decode_transaction`. -/
def decodeTransaction (data : Bytes) : Except EncodeError Transaction :=
  readTransaction.run data

/-- A transaction inside a block, after its length. -/
def pushNested (tx : Transaction) : Option Bytes := do
  let nested ← encodeTransaction tx
  let len ← pushLen nested.length
  some (len ++ nested)

/-- `encode_block`. -/
def encodeBlock (b : Block) : Option Bytes := do
  let previousHash ← pushString b.previousHash
  let n ← pushLen b.transactions.length
  let transactions ← writeAll pushNested b.transactions
  let blockHash ← pushString b.blockHash
  some (blockMagic ++ [blockFormatVersion] ++ pushU64Be b.height ++ previousHash ++
    pushU64Be b.timestampUnix ++ n ++ transactions ++ blockHash)

/-- One round of the loop of `decode_block`. -/
def readNested (i : Nat) : Cursor Transaction := do
  let len ← Cursor.takeU32Be
  let chunk ← Cursor.takeExact len
  Parser.lift ((decodeTransaction chunk).mapError fun e => ⟨"tx " ++ i.repr ++ ": " ++ e.msg⟩)

/-- The reads of `decode_block`, in order. -/
def readBlock : Cursor Block := do
  let magic ← Cursor.takeExact 4
  if magic ≠ blockMagic then Parser.fail ⟨"bad block magic"⟩
  else do
    let ver ← Cursor.takeU8
    if ver ≠ blockFormatVersion then
      Parser.fail ⟨"unsupported block format version " ++ ver.toNat.repr⟩
    else do
      let height ← Cursor.takeU64Be
      let previousHash ← Cursor.takeString
      let timestampUnix ← Cursor.takeU64Be
      let n ← Cursor.takeU32Be
      let transactions ← Parser.many readNested 0 n
      let blockHash ← Cursor.takeString
      Cursor.finish
      pure { height, previousHash, timestampUnix, transactions, blockHash }

/-- `decode_block`, if the room that it reserves is granted. -/
def decodeBlock (data : Bytes) : Except EncodeError Block :=
  readBlock.run data

/-- The reads of `decode_block` before its loop. The last of them is the count
    of transactions. -/
def readBlockHead : Cursor (UInt64 × String × UInt64 × Nat) := do
  let magic ← Cursor.takeExact 4
  if magic ≠ blockMagic then Parser.fail ⟨"bad block magic"⟩
  else do
    let ver ← Cursor.takeU8
    if ver ≠ blockFormatVersion then
      Parser.fail ⟨"unsupported block format version " ++ ver.toNat.repr⟩
    else do
      let height ← Cursor.takeU64Be
      let previousHash ← Cursor.takeString
      let timestampUnix ← Cursor.takeU64Be
      let n ← Cursor.takeU32Be
      pure (height, previousHash, timestampUnix, n)

/-- The reads of `decode_block` from its loop on. -/
def readBlockRest (head : UInt64 × String × UInt64 × Nat) : Cursor Block := do
  let transactions ← Parser.many readNested 0 head.2.2.2
  let blockHash ← Cursor.takeString
  Cursor.finish
  pure { height := head.1, previousHash := head.2.1, timestampUnix := head.2.2.1, transactions,
         blockHash }

/-- The argument of `Vec::with_capacity` in `decode_block`; `none` when it
    returns before that call. -/
def reservedCount (data : Bytes) : Option Nat :=
  match readBlockHead data with
  | .error _ => none
  | .ok ((_, _, _, n), _) => some n

/-- `decode_block` where there is room for so many transactions; `none` when it
    reserves more, which ends the process. -/
def decodeBlockWithin (room : Nat) (data : Bytes) : Option (Except EncodeError Block) :=
  match reservedCount data with
  | none => some (decodeBlock data)
  | some n => if n ≤ room then some (decodeBlock data) else none

/-! ### The laws of the fields -/

theorem pushLen_eq_some {n : Nat} {e : Bytes} :
    pushLen n = some e ↔ n < 2 ^ 32 ∧ e = beBytes 4 n := by
  unfold pushLen
  by_cases h : n < 2 ^ 32
  · rw [if_pos h, Option.some.injEq]
    exact ⟨fun he => ⟨h, he.symm⟩, fun he => he.2.symm⟩
  · rw [if_neg h]
    exact ⟨fun he => absurd he (by simp only [reduceCtorEq, not_false_eq_true]),
      fun he => absurd he.1 h⟩

theorem pushBytes_eq_some {b e : Bytes} :
    pushBytes b = some e ↔ b.length < 2 ^ 32 ∧ e = beBytes 4 b.length ++ b := by
  simp only [pushBytes, bind, Option.bind_eq_some_iff, pushLen_eq_some, Option.some.injEq]
  constructor
  · rintro ⟨_, ⟨hlt, rfl⟩, rfl⟩
    exact ⟨hlt, rfl⟩
  · rintro ⟨hlt, rfl⟩
    exact ⟨_, ⟨hlt, rfl⟩, rfl⟩

namespace Cursor

theorem takeExact_ok_iff {n : Nat} {data rest b : Bytes} :
    takeExact n data = .ok (b, rest) ↔ b.length = n ∧ data = b ++ rest :=
  Parser.take_ok_iff

theorem takeU8_ok_iff {data rest : Bytes} {v : UInt8} :
    takeU8 data = .ok (v, rest) ↔ data = [v] ++ rest := by
  simp only [takeU8, Parser.bind_ok_iff, takeExact_ok_iff, Parser.pure_ok_iff]
  constructor
  · rintro ⟨b, _, ⟨hlen, rfl⟩, rfl, rfl⟩
    rcases List.length_eq_one_iff.mp hlen with ⟨x, rfl⟩
    rfl
  · rintro rfl
    exact ⟨[v], rest, ⟨rfl, rfl⟩, rfl, rfl⟩

theorem takeU32Be_ok_iff {data rest : Bytes} {n : Nat} :
    takeU32Be data = .ok (n, rest) ↔ n < 2 ^ 32 ∧ data = beBytes 4 n ++ rest := by
  have hpow : (256 : Nat) ^ 4 = 2 ^ 32 := by norm_num
  simp only [takeU32Be, Parser.bind_ok_iff, takeExact_ok_iff, Parser.pure_ok_iff]
  constructor
  · rintro ⟨b, _, ⟨hlen, rfl⟩, rfl, rfl⟩
    have hlt := ofBe_lt b
    have hback := beBytes_ofBe b
    rw [hlen] at hlt hback
    exact ⟨hpow ▸ hlt, by rw [hback]⟩
  · rintro ⟨hlt, rfl⟩
    exact ⟨_, rest, ⟨beBytes_length 4 n, rfl⟩, ofBe_beBytes_of_lt (hpow ▸ hlt), rfl⟩

theorem takeU64Be_ok_iff {data rest : Bytes} {v : UInt64} :
    takeU64Be data = .ok (v, rest) ↔ data = pushU64Be v ++ rest := by
  have hpow : (256 : Nat) ^ 8 = 2 ^ 64 := by norm_num
  simp only [takeU64Be, Parser.bind_ok_iff, takeExact_ok_iff, Parser.pure_ok_iff]
  constructor
  · rintro ⟨b, _, ⟨hlen, rfl⟩, rfl, rfl⟩
    have hlt := ofBe_lt b
    have hback := beBytes_ofBe b
    rw [hlen] at hlt hback
    rw [pushU64Be, UInt64.toNat_ofNat', Nat.mod_eq_of_lt (hpow ▸ hlt), hback]
  · rintro rfl
    refine ⟨_, rest, ⟨beBytes_length 8 v.toNat, rfl⟩, ?_, rfl⟩
    rw [ofBe_beBytes_of_lt (hpow ▸ v.toNat_lt), UInt64.ofNat_toNat]

theorem takeBytes_ok_iff {data rest b : Bytes} :
    takeBytes data = .ok (b, rest) ↔ ∃ e, pushBytes b = some e ∧ data = e ++ rest := by
  simp only [takeBytes, Parser.bind_ok_iff, takeU32Be_ok_iff, takeExact_ok_iff, pushBytes_eq_some]
  constructor
  · rintro ⟨_, _, ⟨hlt, rfl⟩, rfl, rfl⟩
    exact ⟨_, ⟨hlt, rfl⟩, (List.append_assoc _ _ _).symm⟩
  · rintro ⟨_, ⟨hlt, rfl⟩, rfl⟩
    exact ⟨_, _, ⟨hlt, List.append_assoc _ _ _⟩, rfl, rfl⟩

theorem takeString_ok_iff {data rest : Bytes} {s : String} :
    takeString data = .ok (s, rest) ↔ ∃ e, pushString s = some e ∧ data = e ++ rest := by
  simp only [takeString, Parser.bind_ok_iff, takeBytes_ok_iff]
  constructor
  · rintro ⟨b, mid, ⟨e, he, rfl⟩, hread⟩
    cases hs : fromUtf8 b with
    | none =>
        simp only [hs, Parser.fail, reduceCtorEq] at hread
    | some t =>
        simp only [hs] at hread
        rcases Parser.pure_ok_iff.mp hread with ⟨rfl, rfl⟩
        exact ⟨e, by rw [pushString, utf8_of_fromUtf8 hs, he], rfl⟩
  · rintro ⟨e, he, rfl⟩
    refine ⟨utf8 s, rest, ⟨e, he, rfl⟩, ?_⟩
    simp only [fromUtf8_utf8]
    exact Parser.pure_ok_iff.mpr ⟨rfl, rfl⟩

theorem finish_ok_iff {data rest : Bytes} {u : Unit} :
    finish data = .ok (u, rest) ↔ data = [] ∧ rest = [] := by
  simp only [finish, ite_error_ok_iff, not_not, ne_eq, Except.ok.injEq, Prod.mk.injEq, true_and]
  exact and_congr_right fun h => by rw [h]; exact eq_comm

theorem run_ok_iff {α : Type} {c : Cursor α} {data : Bytes} {a : α} :
    c.run data = .ok a ↔ ∃ rest, c data = .ok (a, rest) := by
  rcases h : c data with e | ⟨b, rest⟩
  · simp only [run, h, Except.map, reduceCtorEq, exists_false]
  · simp only [run, h, Except.map, Except.ok.injEq, Prod.mk.injEq, exists_and_left, exists_eq',
      and_true]

end Cursor

/-! ### The laws of the records -/

theorem encodeTransaction_eq_some {tx : Transaction} {d : Bytes} :
    encodeTransaction tx = some d ↔ ∃ sender receiver publicKey signature txHash,
      pushString tx.sender.value = some sender ∧ pushString tx.receiver.value = some receiver ∧
      pushBytes tx.publicKey = some publicKey ∧ pushBytes tx.signature = some signature ∧
      pushString tx.txHash = some txHash ∧
      d = txMagic ++ ([txFormatVersion] ++ (sender ++ (receiver ++ (pushU64Be tx.amount ++
        (pushU64Be tx.fee ++ (pushU64Be tx.nonce ++ (pushU64Be tx.timestampUnix ++
          (publicKey ++ (signature ++ txHash))))))))) := by
  simp only [encodeTransaction, bind, Option.bind_eq_some_iff, Option.some.injEq,
    List.append_assoc]
  constructor
  · rintro ⟨s, hs, r, hr, k, hk, g, hg, t, ht, rfl⟩
    exact ⟨s, r, k, g, t, hs, hr, hk, hg, ht, rfl⟩
  · rintro ⟨s, r, k, g, t, hs, hr, hk, hg, ht, rfl⟩
    exact ⟨s, hs, r, hr, k, hk, g, hg, t, ht, rfl⟩

/-- Decoding a transaction inverts encoding it. -/
theorem decodeTransaction_ok_iff {d : Bytes} {tx : Transaction} :
    decodeTransaction d = .ok tx ↔ encodeTransaction tx = some d := by
  have hmagic : txMagic.length = 4 := by decide
  rw [encodeTransaction_eq_some]
  simp only [decodeTransaction, Cursor.run_ok_iff, readTransaction, Parser.bind_ok_iff,
    Parser.guard_ok_iff, Cursor.takeExact_ok_iff, Cursor.takeU8_ok_iff, Cursor.takeString_ok_iff,
    Cursor.takeU64Be_ok_iff, Cursor.takeBytes_ok_iff, Cursor.finish_ok_iff, Parser.pure_ok_iff,
    ne_eq, not_not]
  constructor
  · rintro ⟨_, magic, _, ⟨_, rfl⟩, rfl, _, _, rfl, rfl, _, _, ⟨s, hs, rfl⟩, _, _, ⟨r, hr, rfl⟩,
      _, _, rfl, _, _, rfl, _, _, rfl, _, _, rfl, _, _, ⟨k, hk, rfl⟩, _, _, ⟨g, hg, rfl⟩,
      _, _, ⟨t, ht, rfl⟩, _, _, ⟨rfl, rfl⟩, rfl, rfl⟩
    exact ⟨s, r, k, g, t, hs, hr, hk, hg, ht, by rw [List.append_nil]⟩
  · rintro ⟨s, r, k, g, t, hs, hr, hk, hg, ht, rfl⟩
    exact ⟨[], txMagic, _, ⟨hmagic, rfl⟩, rfl, _, _, rfl, rfl, _, _, ⟨s, hs, rfl⟩, _, _,
      ⟨r, hr, rfl⟩, _, _, rfl, _, _, rfl, _, _, rfl, _, _, rfl, _, _, ⟨k, hk, rfl⟩, _, _,
      ⟨g, hg, rfl⟩, _, _, ⟨t, ht, (List.append_nil t).symm⟩, (), _, ⟨rfl, rfl⟩, rfl, rfl⟩

theorem pushNested_eq_some {tx : Transaction} {e : Bytes} :
    pushNested tx = some e ↔ ∃ nested, encodeTransaction tx = some nested ∧
      nested.length < 2 ^ 32 ∧ e = beBytes 4 nested.length ++ nested := by
  simp only [pushNested, bind, Option.bind_eq_some_iff, pushLen_eq_some, Option.some.injEq]
  constructor
  · rintro ⟨nested, henc, _, ⟨hlt, rfl⟩, rfl⟩
    exact ⟨nested, henc, hlt, rfl⟩
  · rintro ⟨nested, henc, hlt, rfl⟩
    exact ⟨nested, henc, _, ⟨hlt, rfl⟩, rfl⟩

/-- A nested transaction is read as it was written. -/
theorem readNested_reads (i : Nat) : Reads (readNested i) pushNested := by
  intro data tx rest
  simp only [readNested, Parser.bind_ok_iff, Cursor.takeU32Be_ok_iff, Cursor.takeExact_ok_iff,
    Parser.lift_ok_iff, mapError_ok_iff, decodeTransaction_ok_iff, pushNested_eq_some]
  constructor
  · rintro ⟨_, _, ⟨hlt, rfl⟩, chunk, _, ⟨rfl, rfl⟩, henc, rfl⟩
    exact ⟨_, ⟨chunk, henc, hlt, rfl⟩, (List.append_assoc _ _ _).symm⟩
  · rintro ⟨_, ⟨chunk, henc, hlt, rfl⟩, rfl⟩
    exact ⟨_, _, ⟨hlt, List.append_assoc _ _ _⟩, chunk, rest, ⟨rfl, rfl⟩, henc, rfl⟩

theorem encodeBlock_eq_some {b : Block} {d : Bytes} :
    encodeBlock b = some d ↔ ∃ previousHash transactions blockHash,
      pushString b.previousHash = some previousHash ∧ b.transactions.length < 2 ^ 32 ∧
      writeAll pushNested b.transactions = some transactions ∧
      pushString b.blockHash = some blockHash ∧
      d = blockMagic ++ ([blockFormatVersion] ++ (pushU64Be b.height ++ (previousHash ++
        (pushU64Be b.timestampUnix ++ (beBytes 4 b.transactions.length ++
          (transactions ++ blockHash)))))) := by
  simp only [encodeBlock, bind, Option.bind_eq_some_iff, Option.some.injEq, List.append_assoc,
    pushLen_eq_some]
  constructor
  · rintro ⟨p, hp, _, ⟨hn, rfl⟩, t, ht, h, hh, rfl⟩
    exact ⟨p, t, h, hp, hn, ht, hh, rfl⟩
  · rintro ⟨p, t, h, hp, hn, ht, hh, rfl⟩
    exact ⟨p, hp, _, ⟨hn, rfl⟩, t, ht, h, hh, rfl⟩

/-- Decoding a block inverts encoding it. -/
theorem decodeBlock_ok_iff {d : Bytes} {b : Block} :
    decodeBlock d = .ok b ↔ encodeBlock b = some d := by
  have hmagic : blockMagic.length = 4 := by decide
  rw [encodeBlock_eq_some]
  simp only [decodeBlock, Cursor.run_ok_iff, readBlock, Parser.bind_ok_iff, Parser.guard_ok_iff,
    Cursor.takeExact_ok_iff, Cursor.takeU8_ok_iff, Cursor.takeString_ok_iff,
    Cursor.takeU64Be_ok_iff, Cursor.takeU32Be_ok_iff, Reads.many readNested_reads,
    Cursor.finish_ok_iff, Parser.pure_ok_iff, ne_eq, not_not]
  constructor
  · rintro ⟨_, magic, _, ⟨_, rfl⟩, rfl, _, _, rfl, rfl, _, _, rfl, _, _, ⟨p, hp, rfl⟩, _, _, rfl,
      _, _, ⟨hn, rfl⟩, _, _, ⟨rfl, t, ht, rfl⟩, _, _, ⟨h, hh, rfl⟩, _, _, ⟨rfl, rfl⟩, rfl, rfl⟩
    exact ⟨p, t, h, hp, hn, ht, hh, by rw [List.append_nil]⟩
  · rintro ⟨p, t, h, hp, hn, ht, hh, rfl⟩
    exact ⟨[], blockMagic, _, ⟨hmagic, rfl⟩, rfl, _, _, rfl, rfl, _, _, rfl, _, _, ⟨p, hp, rfl⟩,
      _, _, rfl, _, _, ⟨hn, rfl⟩, _, _, ⟨rfl, t, ht, rfl⟩, _, _,
      ⟨h, hh, (List.append_nil h).symm⟩, (), _, ⟨rfl, rfl⟩, rfl, rfl⟩

/-- The room is reserved in the middle of `decode_block`. -/
theorem readBlock_eq : readBlock = readBlockHead >>= readBlockRest := by
  simp only [readBlock, readBlockHead, Parser.bind_assoc, Parser.guard_bind]
  rfl

/-- The inputs for which room is reserved, and for how many transactions. -/
theorem reservedCount_eq_some {d : Bytes} {n : Nat} :
    reservedCount d = some n ↔ ∃ height previousHash timestampUnix p rest,
      pushString previousHash = some p ∧ n < 2 ^ 32 ∧
      d = blockMagic ++ ([blockFormatVersion] ++ (pushU64Be height ++ (p ++
        (pushU64Be timestampUnix ++ (beBytes 4 n ++ rest))))) := by
  have hmagic : blockMagic.length = 4 := by decide
  have hhead : reservedCount d = some n ↔ ∃ height previousHash timestampUnix rest,
      readBlockHead d = .ok ((height, previousHash, timestampUnix, n), rest) := by
    unfold reservedCount
    rcases readBlockHead d with e | ⟨⟨height, previousHash, timestampUnix, k⟩, rest⟩
    · simp only [reduceCtorEq, exists_false]
    · simp only [Option.some.injEq, Except.ok.injEq, Prod.mk.injEq, exists_and_left,
        exists_and_right, exists_eq', true_and, and_true]
  rw [hhead]
  simp only [readBlockHead, Parser.bind_ok_iff, Parser.guard_ok_iff, Cursor.takeExact_ok_iff,
    Cursor.takeU8_ok_iff, Cursor.takeString_ok_iff, Cursor.takeU64Be_ok_iff,
    Cursor.takeU32Be_ok_iff, Parser.pure_ok_iff, ne_eq, not_not, Prod.mk.injEq]
  constructor
  · rintro ⟨h, prev, ts, _, magic, _, ⟨_, rfl⟩, rfl, _, _, rfl, rfl, _, _, rfl, _, _, ⟨p, hp, rfl⟩,
      _, _, rfl, _, rest, ⟨hn, rfl⟩, ⟨rfl, rfl, rfl, rfl⟩, rfl⟩
    exact ⟨_, _, _, p, rest, hp, hn, rfl⟩
  · rintro ⟨h, prev, ts, p, rest, hp, hn, rfl⟩
    exact ⟨h, prev, ts, rest, blockMagic, _, ⟨hmagic, rfl⟩, rfl, _, _, rfl, rfl, _, _, rfl, _, _,
      ⟨p, hp, rfl⟩, _, _, rfl, _, _, ⟨hn, rfl⟩, ⟨rfl, rfl, rfl, rfl⟩, rfl⟩

/-! ### When the encoder does not panic -/

theorem pushBytes_exists {b : Bytes} (h : b.length < 2 ^ 32) :
    ∃ e, pushBytes b = some e ∧ e.length = 4 + b.length :=
  ⟨_, pushBytes_eq_some.mpr ⟨h, rfl⟩, by rw [List.length_append, beBytes_length]⟩

theorem pushU64Be_length (v : UInt64) : (pushU64Be v).length = 8 :=
  beBytes_length 8 v.toNat

/-- The bytes of a transaction, when it has an encoding. -/
theorem encodeTransaction_length {tx : Transaction} {d : Bytes}
    (h : encodeTransaction tx = some d) :
    d.length = 57 + (utf8 tx.sender.value).length + (utf8 tx.receiver.value).length +
      tx.publicKey.length + tx.signature.length + (utf8 tx.txHash).length := by
  have hmagic : txMagic.length = 4 := by decide
  rcases encodeTransaction_eq_some.mp h with ⟨s, r, k, g, t, hs, hr, hk, hg, ht, rfl⟩
  rw [pushString, pushBytes_eq_some] at hs hr ht
  rw [pushBytes_eq_some] at hk hg
  rw [hs.2, hr.2, hk.2, hg.2, ht.2]
  simp only [List.length_append, beBytes_length, pushU64Be_length, hmagic, List.length_singleton]
  omega

/-- The bytes of a block, when it has an encoding. -/
theorem encodeBlock_length {b : Block} {d txs : Bytes} (h : encodeBlock b = some d)
    (htxs : writeAll pushNested b.transactions = some txs) :
    d.length = 33 + (utf8 b.previousHash).length + txs.length + (utf8 b.blockHash).length := by
  have hmagic : blockMagic.length = 4 := by decide
  rcases encodeBlock_eq_some.mp h with ⟨p, t, k, hp, _, ht, hk, rfl⟩
  rw [htxs, Option.some.injEq] at ht
  rw [pushString, pushBytes_eq_some] at hp hk
  rw [hp.2, hk.2, ← ht]
  simp only [List.length_append, beBytes_length, pushU64Be_length, hmagic, List.length_singleton]
  omega

section Valid

variable [Primitives]

theorem Transaction.Valid.receiver_length {tx : Transaction} (h : tx.Valid) :
    (utf8 tx.receiver.value).length ≤ 128 := by
  have hv := h.receiver_valid
  rw [Address.isValid, Bool.and_eq_true, decide_eq_true_eq, decide_eq_true_eq] at hv
  exact hv.2

/-- A valid transaction has an encoding, and only its receiver may be longer
    or shorter. -/
theorem Transaction.Valid.encodes {tx : Transaction} (h : tx.Valid) :
    ∃ d, encodeTransaction tx = some d ∧ d.length = 281 + (utf8 tx.receiver.value).length := by
  -- The sender and the hash are digests in hexadecimal, the keys have fixed sizes.
  have hsender : (utf8 tx.sender.value).length = 64 := by
    rw [h.bound]
    exact Crypto.hashBytes_byteLength _
  have hreceiver := h.receiver_length
  have hhash : (utf8 tx.txHash).length = 64 := by
    rw [h.hash]
    exact Crypto.hashBytes_byteLength _
  have hkey := h.publicKey_length
  have hsig := h.signature_length
  rcases pushBytes_exists (b := utf8 tx.sender.value) (by omega) with ⟨s, hs, _⟩
  rcases pushBytes_exists (b := utf8 tx.receiver.value) (by omega) with ⟨r, hr, _⟩
  rcases pushBytes_exists (b := tx.publicKey) (by omega) with ⟨k, hk, _⟩
  rcases pushBytes_exists (b := tx.signature) (by omega) with ⟨g, hg, _⟩
  rcases pushBytes_exists (b := utf8 tx.txHash) (by omega) with ⟨t, ht, _⟩
  have henc := encodeTransaction_eq_some.mpr ⟨s, r, k, g, t, hs, hr, hk, hg, ht, rfl⟩
  refine ⟨_, henc, ?_⟩
  rw [encodeTransaction_length henc]
  omega

theorem Transaction.Valid.pushes {tx : Transaction} (h : tx.Valid) :
    ∃ e, pushNested tx = some e ∧ e.length = 285 + (utf8 tx.receiver.value).length := by
  have hreceiver := h.receiver_length
  rcases h.encodes with ⟨d, hd, hlen⟩
  refine ⟨_, pushNested_eq_some.mpr ⟨d, hd, by omega, rfl⟩, ?_⟩
  rw [List.length_append, beBytes_length, hlen]
  omega

/-- A block of valid transactions has an encoding, when their number and the
    two hashes fit. -/
theorem encodeBlock_exists {b : Block} (hv : ∀ tx ∈ b.transactions, tx.Valid)
    (hn : b.transactions.length < 2 ^ 32) (hp : (utf8 b.previousHash).length < 2 ^ 32)
    (hh : (utf8 b.blockHash).length < 2 ^ 32) : ∃ d, encodeBlock b = some d := by
  rcases pushBytes_exists hp with ⟨p, hp, _⟩
  rcases pushBytes_exists hh with ⟨k, hk, _⟩
  have hpush : ∀ tx ∈ b.transactions, ∃ e, pushNested tx = some e := by
    intro tx htx
    rcases (hv tx htx).pushes with ⟨e, he, _⟩
    exact ⟨e, he⟩
  rcases writeAll_exists hpush with ⟨t, ht⟩
  exact ⟨_, encodeBlock_eq_some.mpr ⟨p, t, k, hp, hn, ht, hk, rfl⟩⟩

end Valid

-- The two decoders are used through their laws only.
attribute [irreducible] decodeTransaction decodeBlock

end Trilogicon
