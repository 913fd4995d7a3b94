import Trilogicon.Core.Wire
import Trilogicon.Theory.BlockFile

/-!
# What the Formats Accept

The byte formats of the node, each as an exact relation: the encoding of
blocks and transactions, the block file, and frames and batches on the wire.

The encoder is partial, because lengths and counts are written as 32-bit words.
`Block.Fits` says when all of them fit, and that is when the encoder returns.
Where it returns, the decoder gives back the same block; and the decoder accepts
nothing else. So the encoding is a bijection between the blocks that fit and the
byte strings that are accepted.

What is refused may still cost something. The decoder reserves room for as many
transactions as the header says, before it has read one, and the header is not
compared with the bytes that are left.

The block file has a strict reader and one that repairs. Both see the same
frames, and the formats cannot be taken for each other, since the magic word is
no length of a frame. So the repairing reader agrees with the strict one, except
on the files it repairs.

On the wire there are three lengths inside each other: of a frame, of a block in
a batch, of a transaction in a block. Each has its own limit, and the writer and
the reader of a frame check the same one. So frames that were written come back
one by one, and then the stream is at its end. A batch is cut to its first 64
blocks before it is written; what is read back is what was left.

## Main definitions

* `Transaction.size`: How long an encoded transaction is.
* `Transaction.Fits`, `Block.Fits`: Every length and count is a 32-bit word.
* `writeFrames`, `readFrames`: Frames one after another.

## Theorems

* `encodeBlock_exists_iff`: When the block encoder returns.
* `codec_bijection`: Encoding and decoding are inverse to each other.
* `reserve_bounded_iff`: When the decoder reserves no more than it was given.
* `readAllBlocks_ok_iff`: The files the strict reader accepts.
* `readers_agree`: The two readers of the block file.
* `readFrames_of_frames`: Frames that were written come back.
* `wire_round_trip`: Frames and batches, in both directions.
-/

namespace Trilogicon

/-! ### The encoding -/

/-- The length of an encoded transaction. -/
def Transaction.size (tx : Transaction) : Nat :=
  57 + (utf8 tx.sender.value).length + (utf8 tx.receiver.value).length +
    tx.publicKey.length + tx.signature.length + (utf8 tx.txHash).length

/-- The strings and blobs of a transaction have lengths that fit a word. -/
structure Transaction.Fits (tx : Transaction) : Prop where
  sender : (utf8 tx.sender.value).length < 2 ^ 32
  receiver : (utf8 tx.receiver.value).length < 2 ^ 32
  publicKey : tx.publicKey.length < 2 ^ 32
  signature : tx.signature.length < 2 ^ 32
  txHash : (utf8 tx.txHash).length < 2 ^ 32

/-- The strings of a block, its transactions and their number fit a word. -/
structure Block.Fits (b : Block) : Prop where
  previousHash : (utf8 b.previousHash).length < 2 ^ 32
  blockHash : (utf8 b.blockHash).length < 2 ^ 32
  count : b.transactions.length < 2 ^ 32
  transactions : ∀ tx ∈ b.transactions, tx.Fits ∧ tx.size < 2 ^ 32

theorem pushBytes_exists_iff {b : Bytes} :
    (∃ e, pushBytes b = some e) ↔ b.length < 2 ^ 32 := by
  constructor
  · intro h
    rcases h with ⟨e, he⟩
    exact (pushBytes_eq_some.mp he).1
  · intro h
    exact ⟨_, pushBytes_eq_some.mpr ⟨h, rfl⟩⟩

/-- When the encoder returns for a transaction. -/
theorem encodeTransaction_exists_iff {tx : Transaction} :
    (∃ d, encodeTransaction tx = some d) ↔ tx.Fits := by
  constructor
  · intro h
    rcases h with ⟨d, hd⟩
    rcases encodeTransaction_eq_some.mp hd with ⟨s, r, k, g, t, hs, hr, hk, hg, ht, _⟩
    exact ⟨pushBytes_exists_iff.mp ⟨s, hs⟩, pushBytes_exists_iff.mp ⟨r, hr⟩,
      pushBytes_exists_iff.mp ⟨k, hk⟩, pushBytes_exists_iff.mp ⟨g, hg⟩,
      pushBytes_exists_iff.mp ⟨t, ht⟩⟩
  · intro h
    rcases pushBytes_exists_iff.mpr h.sender with ⟨s, hs⟩
    rcases pushBytes_exists_iff.mpr h.receiver with ⟨r, hr⟩
    rcases pushBytes_exists_iff.mpr h.publicKey with ⟨k, hk⟩
    rcases pushBytes_exists_iff.mpr h.signature with ⟨g, hg⟩
    rcases pushBytes_exists_iff.mpr h.txHash with ⟨t, ht⟩
    exact ⟨_, encodeTransaction_eq_some.mpr ⟨s, r, k, g, t, hs, hr, hk, hg, ht, rfl⟩⟩

theorem pushNested_exists_iff {tx : Transaction} :
    (∃ e, pushNested tx = some e) ↔ tx.Fits ∧ tx.size < 2 ^ 32 := by
  constructor
  · intro h
    rcases h with ⟨e, he⟩
    rcases pushNested_eq_some.mp he with ⟨nested, hn, hlt, _⟩
    rw [encodeTransaction_length hn] at hlt
    exact ⟨encodeTransaction_exists_iff.mp ⟨nested, hn⟩, hlt⟩
  · intro h
    rcases encodeTransaction_exists_iff.mpr h.1 with ⟨nested, hn⟩
    have hlt : nested.length < 2 ^ 32 := by
      rw [encodeTransaction_length hn]
      exact h.2
    exact ⟨_, pushNested_eq_some.mpr ⟨nested, hn, hlt, rfl⟩⟩

/-- When the encoder returns for a block. -/
theorem encodeBlock_exists_iff {b : Block} : (∃ d, encodeBlock b = some d) ↔ b.Fits := by
  constructor
  · intro h
    rcases h with ⟨d, hd⟩
    rcases encodeBlock_eq_some.mp hd with ⟨p, t, k, hp, hn, ht, hk, _⟩
    refine ⟨pushBytes_exists_iff.mp ⟨p, hp⟩, pushBytes_exists_iff.mp ⟨k, hk⟩, hn, ?_⟩
    intro tx htx
    exact pushNested_exists_iff.mp (exists_of_writeAll ht tx htx)
  · intro h
    rcases pushBytes_exists_iff.mpr h.previousHash with ⟨p, hp⟩
    rcases pushBytes_exists_iff.mpr h.blockHash with ⟨k, hk⟩
    rcases writeAll_exists fun tx htx => pushNested_exists_iff.mpr (h.transactions tx htx) with
      ⟨t, ht⟩
    exact ⟨_, encodeBlock_eq_some.mpr ⟨p, t, k, hp, h.count, ht, hk, rfl⟩⟩

/-- The codecs of blocks and of transactions are bijections between what fits
    and the byte strings they accept. -/
theorem codec_bijection :
    (∀ b : Block, b.Fits → ∃ d, encodeBlock b = some d ∧ decodeBlock d = .ok b) ∧
    (∀ (d : Bytes) (b : Block), decodeBlock d = .ok b → encodeBlock b = some d) ∧
    (∀ tx : Transaction, tx.Fits →
      ∃ d, encodeTransaction tx = some d ∧ decodeTransaction d = .ok tx) ∧
    (∀ (d : Bytes) (tx : Transaction),
      decodeTransaction d = .ok tx → encodeTransaction tx = some d) := by
  refine ⟨?_, fun d b => decodeBlock_ok_iff.mp, ?_, fun d tx => decodeTransaction_ok_iff.mp⟩
  · intro b hb
    rcases encodeBlock_exists_iff.mpr hb with ⟨d, hd⟩
    exact ⟨d, hd, decodeBlock_ok_iff.mpr hd⟩
  · intro tx htx
    rcases encodeTransaction_exists_iff.mpr htx with ⟨d, hd⟩
    exact ⟨d, hd, decodeTransaction_ok_iff.mpr hd⟩

/-! ### What the decoder reserves -/

/-- A nested transaction takes at least its fixed fields and its length. -/
theorem pushNested_length_ge {tx : Transaction} {e : Bytes} (h : pushNested tx = some e) :
    61 ≤ e.length := by
  rcases pushNested_eq_some.mp h with ⟨nested, hnested, _, rfl⟩
  rw [List.length_append, beBytes_length, encodeTransaction_length hnested]
  omega

/-- The bytes of an input that reaches the reservation. -/
theorem blockHead_length {height timestampUnix : UInt64} {previousHash : String} {n : Nat}
    {p rest : Bytes} (hp : pushString previousHash = some p) :
    (blockMagic ++ ([blockFormatVersion] ++ (pushU64Be height ++ (p ++
      (pushU64Be timestampUnix ++ (beBytes 4 n ++ rest)))))).length =
        29 + (utf8 previousHash).length + rest.length := by
  have hmagic : blockMagic.length = 4 := by decide
  rw [pushString, pushBytes_eq_some] at hp
  rw [hp.2]
  simp only [List.length_append, beBytes_length, pushU64Be_length, hmagic, List.length_singleton]
  omega

/-- The count that `decode_block` reserves room for is at most the length of the
    input exactly when the count word is not larger than what the header, the
    previous hash and the bytes behind the word amount to. An input that decodes
    is of that kind, with 61 bytes for each transaction and 33 for the rest. -/
theorem reserve_bounded_iff (d : Bytes) :
    ((∀ n, reservedCount d = some n → n ≤ d.length) ↔
      ∀ height previousHash timestampUnix n p rest, pushString previousHash = some p →
        n < 2 ^ 32 →
        d = blockMagic ++ ([blockFormatVersion] ++ (pushU64Be height ++ (p ++
          (pushU64Be timestampUnix ++ (beBytes 4 n ++ rest))))) →
        n ≤ 29 + (utf8 previousHash).length + rest.length) ∧
    ∀ b, decodeBlock d = .ok b → reservedCount d = some b.transactions.length ∧
      33 + 61 * b.transactions.length ≤ d.length := by
  refine ⟨⟨?_, ?_⟩, ?_⟩
  · -- The count is what the word behind the head says.
    intro h height previousHash timestampUnix n p rest hp hn hd
    have hle := h n (reservedCount_eq_some.mpr
      ⟨height, previousHash, timestampUnix, p, rest, hp, hn, hd⟩)
    rw [hd, blockHead_length hp] at hle
    exact hle
  · intro h n hres
    rcases reservedCount_eq_some.mp hres with ⟨height, previousHash, timestampUnix, p, rest, hp,
      hn, hd⟩
    rw [hd, blockHead_length hp]
    exact h height previousHash timestampUnix n p rest hp hn hd
  · intro b hdecode
    have hencode := decodeBlock_ok_iff.mp hdecode
    -- An input that decodes is an encoding, and the lengths of its parts are known.
    rcases encodeBlock_eq_some.mp hencode with ⟨p, txs, k, hp, hn, htxs, _, hd⟩
    refine ⟨reservedCount_eq_some.mpr ⟨_, _, _, p, _, hp, hn, hd⟩, ?_⟩
    have htxsLen := length_of_writeAll (fun _ _ => pushNested_length_ge) htxs
    rw [encodeBlock_length hencode htxs]
    omega

namespace Sample

/-- A header that promises as many transactions as a word can, and nothing
    behind it. -/
def promise : Bytes :=
  blockMagic ++ ([blockFormatVersion] ++ (pushU64Be 0 ++ (beBytes 4 0 ++
    (pushU64Be 0 ++ beBytes 4 (2 ^ 32 - 1)))))

/-- Room for more than four thousand million transactions, for 29 bytes that
    hold none. If the room is not there the process ends, and if it is there the
    bytes are refused. -/
theorem promise_reserves :
    promise.length = 29 ∧ reservedCount promise = some (2 ^ 32 - 1) ∧
      decodeBlock promise = .error ⟨"unexpected end of input (need 4 bytes, have 0)"⟩ ∧
      ∀ room, decodeBlockWithin room promise =
        if 2 ^ 32 - 1 ≤ room then
          some (.error ⟨"unexpected end of input (need 4 bytes, have 0)"⟩)
        else none := by
  have hreserved : promise.length = 29 ∧ reservedCount promise = some (2 ^ 32 - 1) := by
    decide
  have hrefused : decodeBlock promise =
      .error ⟨"unexpected end of input (need 4 bytes, have 0)"⟩ := by
    decide +kernel
  refine ⟨hreserved.1, hreserved.2, hrefused, fun room => ?_⟩
  rw [decodeBlockWithin, hreserved.2, hrefused]

end Sample

/-! ### The block file -/

/-- The strict parser of a format accepts exactly the frames of that format. -/
theorem parseStrict_ok_iff {data : Bytes} {bs : List Block} :
    (parseLegacyBlockFrames data = .ok bs ↔ writeAll (encodeFrame .legacy) bs = some data) ∧
      (parseV2BlockFrames data = .ok bs ↔ writeAll (encodeFrame .v2) bs = some data) :=
  ⟨scanStrict_ok_iff (frontOf_framed .legacy) _ _ _ _ le_rfl bs,
    scanStrict_ok_iff (frontOf_framed .v2) _ _ _ _ le_rfl bs⟩

/-- The files the strict reader accepts. -/
theorem readAllBlocks_ok_iff {data : Bytes} (hne : data ≠ []) {bs : List Block} :
    readAllBlocks (some data) = .ok bs ↔ ∃ format, Holds format data bs := by
  constructor
  · intro h
    rcases detectFormat_split data with ⟨_, hsplit⟩
    rcases hdet : detectFormat data with ⟨format, off⟩
    rw [hdet] at hsplit
    -- Behind the start the file is made of frames, in either format.
    have hframes : writeAll (encodeFrame format) bs = some (data.drop off) := by
      cases format with
      | legacy =>
          simp only [readAllBlocks, if_neg hne, hdet] at h
          exact parseStrict_ok_iff.1.mp h
      | v2 =>
          simp only [readAllBlocks, if_neg hne, hdet] at h
          exact parseStrict_ok_iff.2.mp h
    refine ⟨format, image_eq_some.mpr ⟨_, hframes, hsplit.symm⟩, ?_⟩
    -- A legacy file without a block would be empty.
    intro hb
    cases format with
    | v2 => rfl
    | legacy =>
        rw [hb, writeAll, Option.some.injEq] at hframes
        rw [← hframes] at hsplit
        exact absurd hsplit hne
  · intro h
    rcases h with ⟨format, hholds⟩
    have hfmt := detectFormat_of_holds hholds []
    rw [List.append_nil] at hfmt
    rcases image_eq_some.mp hholds.image with ⟨frames, hframes, rfl⟩
    simp only [readAllBlocks, if_neg hne, hfmt]
    cases format with
    | legacy => exact parseStrict_ok_iff.1.mpr hframes
    | v2 =>
        simp only [List.drop_left]
        exact parseStrict_ok_iff.2.mpr hframes

/-- An image that tells its format: a V2 file, or a legacy file with a block. -/
theorem exists_holds_iff {data : Bytes} {bs : List Block} :
    (∃ format, Holds format data bs) ↔
      image .v2 bs = some data ∨ bs ≠ [] ∧ image .legacy bs = some data := by
  constructor
  · intro h
    rcases h with ⟨format, himage, htells⟩
    cases format with
    | v2 => exact Or.inl himage
    | legacy =>
        refine Or.inr ⟨fun hb => ?_, himage⟩
        exact absurd (htells hb) (by simp only [reduceCtorEq, not_false_eq_true])
  · intro h
    rcases h with h | ⟨hb, h⟩
    · exact ⟨.v2, h, fun _ => rfl⟩
    · exact ⟨.legacy, h, fun hc => absurd hc hb⟩

theorem image_ne_nil {data : Bytes} {bs : List Block} (h : image .v2 bs = some data) :
    data ≠ [] := by
  have hlen := holds_length ⟨h, fun _ => rfl⟩
  rw [← List.length_pos_iff]
  omega

/-- No legacy file starts with the magic word. -/
theorem legacy_not_magic {data : Bytes} {bs : List Block} (h : image .legacy bs = some data) :
    ¬ chainFileMagicV2 <+: data := by
  intro hmagic
  rcases image_eq_some.mp h with ⟨frames, hframes, rfl⟩
  have hlen : chainFileMagicV2.length = 8 := headerOf_v2_length
  -- The magic word would be the first eight bytes.
  have htake := List.prefix_iff_eq_take.mp hmagic
  rw [headerOf, List.nil_append] at htake
  cases bs with
  | nil =>
      rw [writeAll, Option.some.injEq] at hframes
      rw [← hframes, List.take_nil] at htake
      rw [htake] at hlen
      exact absurd hlen (by decide)
  | cons b bs =>
      rcases writeAll_cons_iff.mp hframes with ⟨f, fs, hf, _, rfl⟩
      rw [hlen] at htake
      exact encodeFrame_take_ne_magic hf fs htake.symm

/-- The repairing reader changes a file only when it repairs it. -/
theorem repairing_error_keeps {data : Bytes} {e : StorageError} {disk : Option Bytes}
    (h : readAllBlocksRepairingTail (some data) = (.error e, disk)) : disk = some data := by
  by_cases hne : data = []
  · rw [readAllBlocksRepairingTail, if_pos hne, Prod.mk.injEq] at h
    exact absurd h.1 (by simp only [reduceCtorEq, not_false_eq_true])
  cases hparse : parsePrefix (detectFormat data).1 (data.drop (detectFormat data).2) with
  | error e' =>
      rw [readAllBlocksRepairingTail_of_error hne hparse, Prod.mk.injEq] at h
      exact h.2.symm
  | ok p =>
      rcases p with ⟨bs, n⟩
      rw [readAllBlocksRepairingTail_of_ok hne hparse, repairTail] at h
      -- Both refusals return before the file is written.
      split_ifs at h with hend hnone hfour
      · exact (Prod.mk.inj h).2.symm
      · exact (Prod.mk.inj h).2.symm
      · exact absurd (Prod.mk.inj h).1 (by simp only [reduceCtorEq, not_false_eq_true])
      · exact absurd (Prod.mk.inj h).1 (by simp only [reduceCtorEq, not_false_eq_true])

/-- Without a repair the two readers agree. -/
theorem repairing_false_iff {data : Bytes} {bs : List Block} {disk : Option Bytes} :
    readAllBlocksRepairingTail (some data) = (.ok (bs, false), disk) ↔
      readAllBlocks (some data) = .ok bs ∧ disk = some data := by
  by_cases hne : data = []
  · rw [readAllBlocksRepairingTail, if_pos hne, readAllBlocks, if_pos hne]
    simp only [Prod.mk.injEq, Except.ok.injEq, and_true, eq_comm]
  rw [readAllBlocksRepairingTail_ok_iff hne, readAllBlocks_ok_iff hne]
  constructor
  · intro h
    rcases h with ⟨format, file, tail, hholds, rfl, _, _, hrep, rfl⟩
    have htail : tail = [] := not_not.mp (of_decide_eq_false hrep.symm)
    rw [htail, List.append_nil]
    exact ⟨⟨format, hholds⟩, rfl⟩
  · intro h
    rcases h with ⟨⟨format, hholds⟩, rfl⟩
    exact ⟨format, data, [], hholds, (List.append_nil _).symm, by decide, Or.inl rfl, rfl, rfl⟩

/-- What is repaired: an image with a block, and up to three bytes after it. -/
theorem repairing_true_iff {data : Bytes} {bs : List Block} {disk : Option Bytes} :
    readAllBlocksRepairingTail (some data) = (.ok (bs, true), disk) ↔
      bs ≠ [] ∧ ∃ format img tail, image format bs = some img ∧ data = img ++ tail ∧
        1 ≤ tail.length ∧ tail.length ≤ 3 ∧ disk = some img := by
  by_cases hne : data = []
  · rw [readAllBlocksRepairingTail, if_pos hne]
    simp only [Prod.mk.injEq, Except.ok.injEq, Bool.false_eq_true, and_false, false_and, false_iff]
    rintro ⟨_, _, img, tail, _, hdata, hpos, _⟩
    rw [hne] at hdata
    rw [(List.append_eq_nil_iff.mp hdata.symm).2] at hpos
    exact absurd hpos (by decide)
  rw [readAllBlocksRepairingTail_ok_iff hne]
  constructor
  · intro h
    rcases h with ⟨format, img, tail, hholds, hdata, hfour, htail, hrep, hdisk⟩
    -- There is something to repair, so the tail is not empty.
    have hsome : tail ≠ [] := of_decide_eq_true hrep.symm
    have hpos := List.length_pos_iff.mpr hsome
    exact ⟨htail.resolve_left hsome, format, img, tail, hholds.image, hdata, hpos, by omega, hdisk⟩
  · intro h
    rcases h with ⟨hb, format, img, tail, himage, hdata, hpos, hthree, hdisk⟩
    have hsome : tail ≠ [] := List.length_pos_iff.mp hpos
    exact ⟨format, img, tail, ⟨himage, fun hc => absurd hc hb⟩, hdata, by omega, Or.inr hb,
      (decide_eq_true hsome).symm, hdisk⟩

/-- The repairing reader leaves the file as it was, or cuts up to three bytes
    behind the image of some blocks. -/
theorem repairing_cases (disk : Option Bytes) :
    (readAllBlocksRepairingTail disk).2 = disk ∨
      ∃ bs format img tail, bs ≠ [] ∧ image format bs = some img ∧ disk = some (img ++ tail) ∧
        1 ≤ tail.length ∧ tail.length ≤ 3 ∧
        readAllBlocksRepairingTail disk = (.ok (bs, true), some img) := by
  cases disk with
  | none => exact Or.inl rfl
  | some data =>
      rcases hread : readAllBlocksRepairingTail (some data) with ⟨e | ⟨bs, repaired⟩, disk'⟩
      · exact Or.inl (repairing_error_keeps hread)
      · cases repaired with
        | false => exact Or.inl (repairing_false_iff.mp hread).2
        | true =>
            rcases repairing_true_iff.mp hread with ⟨hb, format, img, tail, himage, rfl, hpos,
              hthree, rfl⟩
            exact Or.inr ⟨bs, format, img, tail, hb, himage, rfl, hpos, hthree, rfl⟩

/-- What the repairing reader leaves, it reads again without a repair. -/
theorem repairing_again {data : Bytes} {bs : List Block} {repaired : Bool} {disk : Option Bytes}
    (h : readAllBlocksRepairingTail (some data) = (.ok (bs, repaired), disk)) :
    readAllBlocksRepairingTail disk = (.ok (bs, false), disk) := by
  -- What is left is an empty file, or an image that the strict reader accepts.
  by_cases hne : data = []
  · rw [readAllBlocksRepairingTail, if_pos hne, Prod.mk.injEq, Except.ok.injEq,
      Prod.mk.injEq] at h
    rw [← h.2, ← h.1.1, readAllBlocksRepairingTail, if_pos hne]
  · rcases (readAllBlocksRepairingTail_ok_iff hne).mp h with
      ⟨format, file, _, hholds, _, _, _, _, rfl⟩
    have hfile : file ≠ [] := by
      have := holds_length hholds
      rw [← List.length_pos_iff]
      omega
    exact repairing_false_iff.mpr ⟨(readAllBlocks_ok_iff hfile).mpr ⟨format, hholds⟩, rfl⟩

/-- The readers of the block file. The strict one accepts an empty file, V2
    files and legacy files with a block, and no file is both. The repairing one
    returns the same for these; it repairs exactly the files with a block and up
    to three bytes too many, to the image of the blocks; it refuses every other
    file and leaves it alone; and it finds nothing to repair in what it leaves. -/
theorem readers_agree (f : Bytes) :
    (∀ bs, readAllBlocks (some f) = .ok bs ↔ f = [] ∧ bs = [] ∨ image .v2 bs = some f ∨
      f ≠ [] ∧ image .legacy bs = some f) ∧
    (∀ bs, image .legacy bs = some f → ¬ chainFileMagicV2 <+: f) ∧
    (∀ bs disk, readAllBlocksRepairingTail (some f) = (.ok (bs, false), disk) ↔
      readAllBlocks (some f) = .ok bs ∧ disk = some f) ∧
    (∀ bs disk, readAllBlocksRepairingTail (some f) = (.ok (bs, true), disk) ↔
      bs ≠ [] ∧ ∃ format img tail, image format bs = some img ∧ f = img ++ tail ∧
        1 ≤ tail.length ∧ tail.length ≤ 3 ∧ disk = some img) ∧
    (∀ e disk, readAllBlocksRepairingTail (some f) = (.error e, disk) → disk = some f) ∧
    (∀ bs repaired disk, readAllBlocksRepairingTail (some f) = (.ok (bs, repaired), disk) →
      readAllBlocksRepairingTail disk = (.ok (bs, false), disk)) := by
  refine ⟨?_, fun bs => legacy_not_magic, fun bs disk => repairing_false_iff,
    fun bs disk => repairing_true_iff, fun e disk => repairing_error_keeps,
    fun bs repaired disk => repairing_again⟩
  intro bs
  by_cases hne : f = []
  · rw [readAllBlocks, if_pos hne, Except.ok.injEq]
    constructor
    · intro hb
      exact Or.inl ⟨hne, hb.symm⟩
    · rintro (⟨_, hb⟩ | hv2 | ⟨hc, _⟩)
      · exact hb.symm
      · exact absurd hne (image_ne_nil hv2)
      · exact absurd hne hc
  · rw [readAllBlocks_ok_iff hne, exists_holds_iff]
    constructor
    · intro h
      exact Or.inr (h.imp_right fun hl => ⟨hne, hl.2⟩)
    · rintro (⟨hc, _⟩ | hv2 | ⟨_, hlegacy⟩)
      · exact absurd hc hne
      · exact Or.inl hv2
      · -- Without a block the legacy image is empty.
        refine Or.inr ⟨fun hb => hne ?_, hlegacy⟩
        rw [hb] at hlegacy
        exact (Option.some.inj hlegacy).symm

/-! ### Frames and batches on the wire -/

/-- Write payloads one after another with `write_framed`, until one is
    refused. -/
def writeFrames : Stream → List Bytes → Except IoError Unit × Stream
  | s, [] => (.ok (), s)
  | s, p :: ps => andThen (writeFramed s p) fun _ s' => writeFrames s' ps

/-- What a number of calls of `read_framed` return, one after another. -/
def readFrames : Nat → Stream → List (Except IoError Bytes)
  | 0, _ => []
  | n + 1, s => (readFramed s).1 :: readFrames n (readFramed s).2

/-- On a stream that takes everything, all payloads are written that fit a
    frame. -/
theorem writeFrames_of_writes_nil {ps : List Bytes}
    (hps : ∀ p ∈ ps, p.length ≤ maxWireFrameBytes) {s : Stream} (hs : s.writes = []) :
    ∃ s', writeFrames s ps = (.ok (), s') := by
  induction ps generalizing s with
  | nil => exact ⟨s, rfl⟩
  | cons p ps ih =>
      rw [List.forall_mem_cons] at hps
      unfold writeFrames
      rw [writeFramed_of_writes_nil hps.1 hs]
      exact ih hps.2 hs

/-- What was written is the frames, in order. -/
theorem writeFrames_ok {ps : List Bytes} {s s' : Stream}
    (h : writeFrames s ps = (.ok (), s')) :
    (∀ p ∈ ps, p.length ≤ maxWireFrameBytes) ∧ s'.sent = s.sent ++ ps.flatMap frameOnWire := by
  induction ps generalizing s with
  | nil =>
      simp only [writeFrames, Prod.mk.injEq, true_and] at h
      rw [← h]
      exact ⟨fun p hp => absurd hp List.not_mem_nil, (List.append_nil _).symm⟩
  | cons p ps ih =>
      rcases andThen_ok_iff.mp h with ⟨_, s₁, hfirst, hrest⟩
      rcases writeFramed_ok hfirst with ⟨hmax, hsent, _⟩
      rcases ih hrest with ⟨hps, hsent'⟩
      refine ⟨List.forall_mem_cons.mpr ⟨hmax, hps⟩, ?_⟩
      rw [hsent', hsent, List.flatMap_cons, List.append_assoc]

/-- A stream at its end stays there. -/
theorem readFrames_at_end {s : Stream} (hs : s.incoming = []) (k : Nat) :
    readFrames k s = List.replicate k (.error s.ending) := by
  have hread : readFramed s = (.error s.ending, s) := by
    unfold readFramed Stream.readExact
    rw [hs, if_pos (by decide)]
    rw [andThen, ← hs]
  induction k with
  | zero => rfl
  | succ k ih =>
      unfold readFrames
      rw [hread, List.replicate_succ, ih]

/-- Frames are read back one by one, and then the stream is at its end. -/
theorem readFrames_of_frames {ps : List Bytes} (hps : ∀ p ∈ ps, p.length ≤ maxWireFrameBytes)
    {s : Stream} (hs : s.incoming = ps.flatMap frameOnWire) (k : Nat) :
    readFrames (ps.length + k) s = ps.map .ok ++ List.replicate k (.error s.ending) := by
  induction ps generalizing s with
  | nil =>
      rw [List.length_nil, Nat.zero_add, List.map_nil, List.nil_append]
      exact readFrames_at_end hs k
  | cons p ps ih =>
      rw [List.forall_mem_cons] at hps
      -- The first read consumes the first frame and nothing of the others.
      have hread : readFramed s = (.ok p, { s with incoming := ps.flatMap frameOnWire }) :=
        readFramed_ok_iff.mpr ⟨hps.1, _, hs, rfl⟩
      rw [List.length_cons, Nat.add_right_comm]
      unfold readFrames
      rw [hread, List.map_cons, List.cons_append]
      exact congrArg _ (ih hps.2 rfl)

/-- Only the blocks that fit a batch are encoded. -/
theorem wireEncodeBlocksResponse_take (bs : List Block) :
    wireEncodeBlocksResponse bs = wireEncodeBlocksResponse (bs.take maxBlocksPerBatch) := by
  unfold wireEncodeBlocksResponse
  simp only [List.length_take, List.take_take]
  have hn : min (min maxBlocksPerBatch bs.length) maxBlocksPerBatch =
      min bs.length maxBlocksPerBatch := by omega
  have htake : min (min bs.length maxBlocksPerBatch) maxBlocksPerBatch =
      min bs.length maxBlocksPerBatch := by omega
  rw [hn, htake]

/-- Frames and batches on the wire. Payloads that fit a frame and are written
    one after another are read back one by one, and then every read finds the
    end of the stream. A batch that can be sent fits a frame and is read back as
    its first 64 blocks. A payload that is read as a batch and fits a frame is what
    the batch is sent as. -/
theorem wire_round_trip :
    (∀ ps : List Bytes, (∀ p ∈ ps, p.length ≤ maxWireFrameBytes) →
      (∀ s : Stream, s.writes = [] → ∃ s', writeFrames s ps = (.ok (), s')) ∧
      ∀ s s' r : Stream, writeFrames s ps = (.ok (), s') → s'.sent = s.sent ++ r.incoming →
        ∀ k, readFrames (ps.length + k) r = ps.map .ok ++ List.replicate k (.error r.ending)) ∧
    (∀ bs w, wireEncodeBlocksResponse bs = some (.ok w) → w.length ≤ maxWireFrameBytes ∧
      wireDecodeBlocksResponse w = .ok (bs.take (min maxBlocksPerBatch bs.length))) ∧
    ∀ w bs, w.length ≤ maxWireFrameBytes → wireDecodeBlocksResponse w = .ok bs →
      wireEncodeBlocksResponse bs = some (.ok w) := by
  refine ⟨?_, ?_, ?_⟩
  · intro ps hps
    refine ⟨fun s hs => writeFrames_of_writes_nil hps hs, ?_⟩
    intro s s' r hwrite hsent k
    -- What was sent are the frames, and nothing else is in the stream.
    have hframes := (writeFrames_ok hwrite).2
    rw [hsent, List.append_cancel_left_eq] at hframes
    exact readFrames_of_frames hps hframes k
  · intro bs w hw
    rw [wireEncodeBlocksResponse_take] at hw
    have hlen : (bs.take maxBlocksPerBatch).length ≤ maxBlocksPerBatch := by
      rw [List.length_take]
      omega
    rcases wireEncodeBlocksResponse_ok hlen hw with ⟨hfits, hback⟩
    refine ⟨hfits, ?_⟩
    rw [hback, List.take_eq_take_min]
  · intro w bs hfits hread
    rcases wireDecodeBlocksResponse_ok_iff.mp hread with ⟨hlen, es, hes, rfl⟩
    -- It fits a frame by assumption, so it is not refused for its size.
    rw [List.length_append, List.length_cons, beBytes_length] at hfits
    rw [wireEncodeBlocksResponse_eq hlen hes, if_neg (by omega)]

end Trilogicon
