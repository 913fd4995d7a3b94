import Trilogicon.Core.Storage

/-!
# What the Block File Holds

The bytes of `chain.blocks` as an image of a list of blocks, in either format,
and what the reader, the store and a restart make of it.

A file is read with success exactly if it is the image of some blocks,
followed by less than a length and, if something does follow, holding at least
one block. The image of no blocks in the legacy format is the empty file, which
tells no format, so an image is tied to its format by `Holds`. No legacy image
starts with the magic word of the other format: read as a length, the word is
larger than the largest frame.

An open store that is not poisoned is a new file or holds an image, and each
successful append extends the image by one block. Cutting a V2 file leaves
something readable only at its ends: nothing, the magic word, or whole frames
and less than a length.

## Main definitions

* `image`: The bytes of a file that holds some blocks.
* `Holds`: A file is an image that tells its format.
* `BlockStore.Stores`: An open store holds some blocks.
* `Appended`: A run of successful appends to a store.
* `Cut`: What is left of a file that was cut.

## Theorems

* `detectFormat_of_holds`: The format of an image is recognised.
* `readAllBlocksRepairingTail_ok_iff`: The files that are read with success.
* `BlockStore.appendPayload_cases`: What an append does to a store.
* `BlockStore.Stores.append`: A successful append extends what a store holds.
* `cut_exists_iff`: Where a file can be cut.
* `BlockStore.Stores.read_cut_iff`: What is read from a file that was cut.
* `read_of_stores`: What is read from the file of an open store.
* `open_of_read`: A file that was read can be opened.
-/

namespace Trilogicon

/-! ### Images -/

/-- What a file of a format starts with. -/
def headerOf : ChainFileFormat → Bytes
  | .legacy => []
  | .v2 => chainFileMagicV2

/-- The bytes of a file that holds the blocks. -/
def image (format : ChainFileFormat) (bs : List Block) : Option Bytes :=
  (writeAll (encodeFrame format) bs).map (headerOf format ++ ·)

/-- The file is the image of the blocks, and tells the format. -/
structure Holds (format : ChainFileFormat) (file : Bytes) (bs : List Block) : Prop where
  image : image format bs = some file
  tells : bs = [] → format = .v2

theorem image_eq_some {format : ChainFileFormat} {bs : List Block} {file : Bytes} :
    image format bs = some file ↔
      ∃ frames, writeAll (encodeFrame format) bs = some frames ∧
        headerOf format ++ frames = file := by
  rw [image, Option.map_eq_some_iff]

/-- A block takes at least 33 bytes, and its length four. -/
theorem encodeFrame_length {format : ChainFileFormat} {b : Block} {f : Bytes}
    (hf : encodeFrame format b = some f) : 37 ≤ f.length := by
  rcases encodeFrame_eq_some.mp hf with ⟨payload, he, _, rfl⟩
  rcases encodeBlock_eq_some.mp he with ⟨_, txs, _, _, _, htxs, _, _⟩
  have hlen := encodeBlock_length he htxs
  rw [frameBytes_eq, List.length_append, List.length_append, beBytes_length]
  omega

/-- The magic word, read as the length of a frame, is too large for one. -/
theorem encodeFrame_take_ne_magic {format : ChainFileFormat} {b : Block} {f : Bytes}
    (hf : encodeFrame format b = some f) (rest : Bytes) :
    (f ++ rest).take 8 ≠ chainFileMagicV2 := by
  intro hmagic
  rcases encodeFrame_eq_some.mp hf with ⟨payload, _, hmax, rfl⟩
  have hword : ofBe (beBytes 4 payload.length) = ofBe (chainFileMagicV2.take 4) := by
    rw [← hmagic, List.take_take, frameBytes_eq, List.append_assoc]
    exact congrArg ofBe (List.take_left' (beBytes_length 4 _)).symm
  unfold maxFrameBytes at hmax
  rw [ofBe_beBytes_of_lt (by omega)] at hword
  have hvalue : ofBe (chainFileMagicV2.take 4) = 0x5452494C := by decide
  omega

theorem headerOf_v2_length : (headerOf .v2).length = 8 := by
  decide

/-- No file that tells its format is shorter than the magic word. -/
theorem holds_length {format : ChainFileFormat} {file : Bytes} {bs : List Block}
    (h : Holds format file bs) : 8 ≤ file.length := by
  rcases image_eq_some.mp h.image with ⟨frames, hframes, rfl⟩
  rw [List.length_append]
  cases format with
  | v2 =>
      rw [headerOf_v2_length]
      omega
  | legacy =>
      cases bs with
      | nil => exact absurd (h.tells rfl) (by decide)
      | cons b bs =>
          rcases writeAll_cons_iff.mp hframes with ⟨f, fs, hf, _, rfl⟩
          have := encodeFrame_length hf
          rw [List.length_append]
          omega

/-- The format of an image is recognised, whatever follows it. -/
theorem detectFormat_of_holds {format : ChainFileFormat} {file : Bytes} {bs : List Block}
    (h : Holds format file bs) (tail : Bytes) :
    detectFormat (file ++ tail) = (format, (headerOf format).length) := by
  rcases image_eq_some.mp h.image with ⟨frames, hframes, rfl⟩
  have hmagic : chainFileMagicV2.length = 8 := headerOf_v2_length
  cases format with
  | v2 =>
      rw [detectFormat, if_pos]
      · rfl
      · rw [List.append_assoc]
        exact ⟨by rw [List.length_append]; exact Nat.le_add_right _ _, List.take_left⟩
  | legacy =>
      cases bs with
      | nil => exact absurd (h.tells rfl) (by decide)
      | cons b bs =>
          -- The magic word would be a length that no frame may have.
          rcases writeAll_cons_iff.mp hframes with ⟨f, fs, hf, _, rfl⟩
          rw [detectFormat, if_neg]
          · rfl
          · rintro ⟨_, hc⟩
            rw [headerOf, List.nil_append, List.append_assoc, hmagic] at hc
            exact encodeFrame_take_ne_magic hf _ hc

theorem detectFormat_split (data : Bytes) :
    (detectFormat data).2 = (headerOf (detectFormat data).1).length ∧
      data = headerOf (detectFormat data).1 ++ data.drop (detectFormat data).2 := by
  by_cases h : chainFileMagicV2.length ≤ data.length ∧
      data.take chainFileMagicV2.length = chainFileMagicV2
  · rw [detectFormat, if_pos h]
    refine ⟨rfl, ?_⟩
    conv_lhs => rw [← List.take_append_drop chainFileMagicV2.length data, h.2]
    rfl
  · rw [detectFormat, if_neg h]
    exact ⟨rfl, rfl⟩

theorem parsePrefix_ok_iff {format : ChainFileFormat} {data : Bytes} {bs : List Block} {n : Nat} :
    parsePrefix format data = .ok (bs, n) ↔
      Covers (frontOf format) (encodeFrame format) data bs n := by
  cases format with
  | legacy => exact scanPrefix_ok_iff (frontOf_framed .legacy) _ data le_rfl bs n
  | v2 => exact scanPrefix_ok_iff (frontOf_framed .v2) _ data le_rfl bs n

theorem readAllBlocksRepairingTail_of_error {data : Bytes} (hne : data ≠ []) {e : StorageError}
    (h : parsePrefix (detectFormat data).1 (data.drop (detectFormat data).2) = .error e) :
    readAllBlocksRepairingTail (some data) = (.error e, some data) := by
  simp only [readAllBlocksRepairingTail, if_neg hne, h]

theorem readAllBlocksRepairingTail_of_ok {data : Bytes} (hne : data ≠ []) {bs : List Block}
    {n : Nat} (h : parsePrefix (detectFormat data).1 (data.drop (detectFormat data).2) =
      .ok (bs, n)) :
    readAllBlocksRepairingTail (some data) = repairTail data bs (detectFormat data).2 n := by
  simp only [readAllBlocksRepairingTail, if_neg hne, h]

/-- When the scanned frames are accepted, with or without a repair. -/
theorem repairTail_ok_iff {start tail : Bytes} {bs bs' : List Block} {off n : Nat}
    {repaired : Bool} {disk : Option Bytes} (hstart : start.length = off + n) :
    repairTail (start ++ tail) bs off n = (.ok (bs', repaired), disk) ↔
      bs' = bs ∧ tail.length < 4 ∧ (tail = [] ∨ ¬ (bs = [] ∧ n = 0)) ∧
        repaired = decide (tail ≠ []) ∧ disk = some start := by
  have hlen : (start ++ tail).length = off + n + tail.length := by
    rw [List.length_append, hstart]
  by_cases htail : tail = []
  · subst htail
    rw [repairTail, if_neg (by rw [hlen, List.length_nil]; omega), List.append_nil]
    constructor
    · intro h
      simp only [Prod.mk.injEq, Except.ok.injEq] at h
      exact ⟨h.1.1.symm, by decide, Or.inl rfl, h.1.2.symm, h.2.symm⟩
    · rintro ⟨rfl, _, _, rfl, rfl⟩
      rfl
  · have hpos := List.length_pos_iff.mpr htail
    rw [repairTail, if_pos (by omega), hlen, Nat.add_sub_cancel_left,
      List.take_left' hstart]
    -- A tail without a block before it is refused, whatever its length.
    by_cases hnone : bs = [] ∧ n = 0
    · rw [if_pos hnone]
      refine ⟨fun h => absurd h (by simp only [Prod.mk.injEq, reduceCtorEq, false_and,
        not_false_eq_true]), ?_⟩
      rintro ⟨_, _, hc | hc, _⟩
      · exact absurd hc htail
      · exact absurd hnone hc
    · rw [if_neg hnone]
      -- So is one that holds a whole length: the payload behind it is lost.
      by_cases hfour : 4 ≤ tail.length
      · rw [if_pos hfour]
        refine ⟨fun h => absurd h (by simp only [Prod.mk.injEq, reduceCtorEq, false_and,
          not_false_eq_true]), ?_⟩
        rintro ⟨_, hlt, _⟩
        omega
      · rw [if_neg hfour, decide_eq_true htail]
        constructor
        · intro h
          simp only [Prod.mk.injEq, Except.ok.injEq] at h
          exact ⟨h.1.1.symm, by omega, Or.inr hnone, h.1.2.symm, h.2.symm⟩
        · rintro ⟨rfl, _, _, rfl, rfl⟩
          rfl

/-- The files that are read with success: an image, and less than a length
    after it if there is a block before it. -/
theorem readAllBlocksRepairingTail_ok_iff {data : Bytes} (hne : data ≠ []) {bs : List Block}
    {repaired : Bool} {disk : Option Bytes} :
    readAllBlocksRepairingTail (some data) = (.ok (bs, repaired), disk) ↔
      ∃ format file tail, Holds format file bs ∧ data = file ++ tail ∧ tail.length < 4 ∧
        (tail = [] ∨ bs ≠ []) ∧ repaired = decide (tail ≠ []) ∧ disk = some file := by
  constructor
  · intro h
    rcases detectFormat_split data with ⟨hoff, hsplit⟩
    cases hparse : parsePrefix (detectFormat data).1 (data.drop (detectFormat data).2) with
    | error e =>
        rw [readAllBlocksRepairingTail_of_error hne hparse] at h
        exact absurd h (by simp only [Prod.mk.injEq, reduceCtorEq, false_and, not_false_eq_true])
    | ok p =>
        rcases p with ⟨bs', n⟩
        rw [readAllBlocksRepairingTail_of_ok hne hparse] at h
        rcases parsePrefix_ok_iff.mp hparse with ⟨frames, tail, hframes, hbody, rfl, _⟩
        rw [hbody, ← List.append_assoc] at hsplit
        -- From here on only the split of the file counts, not how the format was found.
        generalize (detectFormat data).1 = format at *
        generalize (detectFormat data).2 = off at *
        rw [hsplit, repairTail_ok_iff (by rw [List.length_append, hoff])] at h
        rcases h with ⟨rfl, hfour, htail, hrep, hdisk⟩
        have hnil : bs = [] → frames = [] := by
          rintro rfl
          exact (Option.some.inj hframes).symm
        have htail' : tail = [] ∨ bs ≠ [] := by
          refine htail.imp_right fun hc hb => hc ⟨hb, ?_⟩
          rw [hnil hb, List.length_nil]
        refine ⟨format, headerOf format ++ frames, tail,
          ⟨image_eq_some.mpr ⟨frames, hframes, rfl⟩, ?_⟩, hsplit, hfour, htail', hrep, hdisk⟩
        -- A legacy file without a block and without a tail would be empty.
        intro hb
        cases format with
        | v2 => rfl
        | legacy =>
            refine absurd ?_ hne
            rw [hsplit, hnil hb, htail'.resolve_right (not_not.mpr hb)]
            rfl
  · rintro ⟨format, file, tail, hholds, rfl, hfour, htail, hrep, hdisk⟩
    have hfmt := detectFormat_of_holds hholds tail
    rcases image_eq_some.mp hholds.image with ⟨frames, hframes, rfl⟩
    -- What is before the tail is scanned to its end, as the tail is no frame.
    have hparse : parsePrefix (detectFormat (headerOf format ++ frames ++ tail)).1
        ((headerOf format ++ frames ++ tail).drop
          (detectFormat (headerOf format ++ frames ++ tail)).2) = .ok (bs, frames.length) := by
      rw [hfmt, parsePrefix_ok_iff, List.append_assoc, List.drop_left]
      exact ⟨frames, tail, hframes, rfl, rfl, Or.inr (Or.inl (frontOf_of_length_lt format hfour))⟩
    rw [readAllBlocksRepairingTail_of_ok hne hparse, hfmt,
      repairTail_ok_iff (List.length_append ..)]
    refine ⟨rfl, hfour, htail.imp_right fun hc hb => hc hb.1, hrep, hdisk⟩

/-! ### Open stores -/

/-- The store is open and usable: a new file, or one that holds the blocks. -/
inductive BlockStore.Stores : BlockStore → List Block → Prop where
  | fresh : Stores ⟨[], false, .v2, false⟩ []
  | holding {format : ChainFileFormat} {file : Bytes} {bs : List Block}
      (h : Holds format file bs) : Stores ⟨file, false, format, decide (format = .v2)⟩ bs

namespace BlockStore

theorem Stores.not_poisoned {s : BlockStore} {bs : List Block} (h : s.Stores bs) :
    s.poisoned = false := by
  cases h with
  | fresh => rfl
  | holding h => rfl

/-- What is stored has encodings. -/
theorem Stores.encodes {s : BlockStore} {bs : List Block} (h : s.Stores bs) :
    ∀ b ∈ bs, ∃ enc, encodeBlock b = some enc := by
  cases h with
  | fresh => exact fun b hb => absurd hb List.not_mem_nil
  | holding h =>
      rcases image_eq_some.mp h.image with ⟨frames, hframes, _⟩
      intro b hb
      rcases exists_of_writeAll hframes b hb with ⟨f, hf⟩
      rcases encodeFrame_eq_some.mp hf with ⟨payload, he, _, _⟩
      exact ⟨payload, he⟩

/-- Opening a file that holds blocks recognises its format. -/
theorem openAppend_of_holds {format : ChainFileFormat} {file : Bytes} {bs : List Block}
    (h : Holds format file bs) :
    openAppend (some file) = .ok ⟨file, false, format, decide (format = .v2)⟩ := by
  have hmagic : chainFileMagicV2.length = 8 := headerOf_v2_length
  have hfmt := detectFormat_of_holds h []
  have hlen := holds_length h
  rw [openAppend, Option.getD_some, if_neg (by omega), if_neg (by omega)]
  rw [List.append_nil, detectFormat, hmagic] at hfmt
  by_cases htake : file.take 8 = chainFileMagicV2
  · rw [if_pos ⟨hlen, htake⟩, Prod.mk.injEq] at hfmt
    rw [if_pos htake, ← hfmt.1]
    rfl
  · rw [if_neg fun hc => htake hc.2, Prod.mk.injEq] at hfmt
    rw [if_neg htake, ← hfmt.1]
    rfl

/-- A write and a sync, seen from their result. -/
theorem writeSynced_cases (s : BlockStore) (data : Bytes) (write : WriteOutcome)
    (sync : Option IoError) :
    (∃ e s', s.writeSynced data write sync = (.error e, s')) ∨
      s.writeSynced data write sync = (.ok (), { s with file := s.file ++ data }) := by
  cases write with
  | fails n e => exact Or.inl ⟨_, _, rfl⟩
  | complete =>
      cases sync with
      | some e => exact Or.inl ⟨_, _, rfl⟩
      | none => exact Or.inr rfl

/-- The store after a payload was written, with the magic word before it if
    the file was new. -/
def written (s : BlockStore) (payload : Bytes) : BlockStore :=
  if s.format = .v2 ∧ s.v2MagicOnDisk = false then
    { s with file := s.file ++ chainFileMagicV2 ++ frameBytes s.format payload,
             v2MagicOnDisk := true }
  else { s with file := s.file ++ frameBytes s.format payload }

theorem writeRecord_cases (s : BlockStore) (payload : Bytes) (calls : AppendIo) :
    (∃ e s', s.writeRecord payload calls = (.error e, s')) ∨
      s.writeRecord payload calls = (.ok (), s.written payload) := by
  rw [writeRecord, writeMagic, written]
  by_cases hnew : s.format = .v2 ∧ s.v2MagicOnDisk = false
  · rw [if_pos hnew, if_pos hnew]
    rcases s.writeSynced_cases chainFileMagicV2 calls.magicWrite calls.magicSync with
      ⟨e, s', h⟩ | h
    · exact Or.inl ⟨e, s', by rw [h]⟩
    · rw [h]
      exact writeSynced_cases _ _ calls.frameWrite calls.frameSync
  · rw [if_neg hnew, if_neg hnew]
    exact s.writeSynced_cases _ calls.frameWrite calls.frameSync

/-- An append to a usable store changes nothing, or poisons the store, or
    writes the payload. -/
theorem appendPayload_cases (s : BlockStore) (payload : Bytes) (calls : AppendIo) :
    (∃ e, s.appendPayload payload calls = (.error e, s)) ∨
      (∃ e s', s.appendPayload payload calls = (.error e, s') ∧ s'.poisoned = true) ∨
      payload.length ≤ maxFrameBytes ∧ s.poisoned = false ∧
        s.appendPayload payload calls = (.ok (), s.written payload) := by
  rw [appendPayload]
  by_cases hpois : s.poisoned = true
  · rw [if_pos hpois]
    exact Or.inl ⟨_, rfl⟩
  by_cases hword : 2 ^ 32 ≤ payload.length
  · rw [if_neg hpois, if_pos hword]
    exact Or.inl ⟨_, rfl⟩
  by_cases hmax : maxFrameBytes < payload.length
  · rw [if_neg hpois, if_neg hword, if_pos hmax]
    exact Or.inl ⟨_, rfl⟩
  rw [if_neg hpois, if_neg hword, if_neg hmax]
  -- Past the refusals the calls of the system decide.
  rcases s.writeRecord_cases payload calls with ⟨e, s', h⟩ | h
  · rw [h]
    exact Or.inr (Or.inl ⟨e, _, rfl, rfl⟩)
  · rw [h]
    exact Or.inr (Or.inr ⟨Nat.le_of_not_lt hmax, Bool.not_eq_true _ ▸ hpois, rfl⟩)

/-- A write to a usable store extends what it holds by one block. -/
theorem Stores.written {s : BlockStore} {bs : List Block} (h : s.Stores bs) {b : Block}
    {payload : Bytes} (he : encodeBlock b = some payload)
    (hmax : payload.length ≤ maxFrameBytes) : (s.written payload).Stores (bs ++ [b]) := by
  -- One frame is behind what the file holds, and a file with a block may have any format.
  have hframe : ∀ format, writeAll (encodeFrame format) [b] = some (frameBytes format payload) := by
    intro format
    refine writeAll_cons_iff.mpr ⟨_, [], encodeFrame_eq_some.mpr ⟨payload, he, hmax, rfl⟩, rfl, ?_⟩
    rw [List.append_nil]
  have hne : bs ++ [b] = [] → ∀ format : ChainFileFormat, format = .v2 := by
    intro hc
    exact absurd hc (by simp only [List.append_eq_nil_iff, List.cons_ne_nil, and_false,
      not_false_eq_true])
  cases h with
  | fresh =>
      -- The first write puts the magic word in front.
      rw [BlockStore.written, if_pos ⟨rfl, rfl⟩]
      exact Stores.holding ⟨image_eq_some.mpr ⟨_, hframe .v2, rfl⟩, fun hc => hne hc _⟩
  | @holding format file _ h =>
      have hold : ¬ (format = .v2 ∧ decide (format = .v2) = false) := by
        rintro ⟨hv2, hc⟩
        rw [decide_eq_true hv2] at hc
        exact absurd hc (by decide)
      rw [BlockStore.written, if_neg hold]
      rcases image_eq_some.mp h.image with ⟨frames, hframes, rfl⟩
      refine Stores.holding ⟨image_eq_some.mpr ⟨frames ++ frameBytes format payload,
        writeAll_append_iff.mpr ⟨_, _, hframes, hframe format, rfl⟩, ?_⟩, fun hc => hne hc _⟩
      rw [List.append_assoc]

/-- A successful append wrote the payload of its block. -/
theorem appendBlock_ok {s s' : BlockStore} {b : Block} {calls : AppendIo}
    (h : s.appendBlock b calls = some (.ok (), s')) :
    ∃ payload, encodeBlock b = some payload ∧ payload.length ≤ maxFrameBytes ∧
      s' = s.written payload := by
  simp only [appendBlock, Option.bind_eq_bind, Option.bind_eq_some_iff, Option.some.injEq] at h
  rcases h with ⟨payload, he, happ⟩
  rcases s.appendPayload_cases payload calls with ⟨e, hc⟩ | ⟨e, _, hc, _⟩ | ⟨hmax, _, hc⟩
  · rw [hc] at happ
    exact absurd happ (by simp only [Prod.mk.injEq, reduceCtorEq, false_and, not_false_eq_true])
  · rw [hc] at happ
    exact absurd happ (by simp only [Prod.mk.injEq, reduceCtorEq, false_and, not_false_eq_true])
  · rw [hc, Prod.mk.injEq] at happ
    exact ⟨payload, he, hmax, happ.2.symm⟩

theorem written_poisoned (s : BlockStore) (payload : Bytes) :
    (s.written payload).poisoned = s.poisoned := by
  rw [written]
  by_cases hnew : s.format = .v2 ∧ s.v2MagicOnDisk = false
  · rw [if_pos hnew]
  · rw [if_neg hnew]

/-- Only a usable store appends, and it stays usable. -/
theorem appendBlock_ok_usable {s s' : BlockStore} {b : Block} {calls : AppendIo}
    (h : s.appendBlock b calls = some (.ok (), s')) :
    s.poisoned = false ∧ s'.poisoned = false := by
  rcases appendBlock_ok h with ⟨payload, he, _, rfl⟩
  rw [written_poisoned, and_self]
  by_contra hpois
  rw [Bool.not_eq_false] at hpois
  rw [appendBlock, he, Option.bind_eq_bind, Option.bind_some, appendPayload, if_pos hpois] at h
  exact absurd h (by simp only [Option.some.injEq, Prod.mk.injEq, reduceCtorEq, false_and,
    not_false_eq_true])

/-- A successful append extends what the store holds. -/
theorem Stores.append {s s' : BlockStore} {bs : List Block} (h : s.Stores bs) {b : Block}
    {calls : AppendIo} (hok : s.appendBlock b calls = some (.ok (), s')) :
    s'.Stores (bs ++ [b]) := by
  rcases appendBlock_ok hok with ⟨payload, he, hmax, rfl⟩
  exact h.written he hmax

/-- The append succeeds if its calls do. -/
theorem appendBlock_succeeds {s : BlockStore} {b : Block} {payload : Bytes}
    (hs : s.poisoned = false) (he : encodeBlock b = some payload)
    (hmax : payload.length ≤ maxFrameBytes) :
    s.appendBlock b .succeeds = some (.ok (), s.written payload) := by
  have hword : ¬ 2 ^ 32 ≤ payload.length := by
    unfold maxFrameBytes at hmax
    omega
  rw [appendBlock, he, Option.bind_eq_bind, Option.bind_some, appendPayload, hs,
    if_neg Bool.false_ne_true, if_neg hword, if_neg (Nat.not_lt.mpr hmax), writeRecord, writeMagic,
    written]
  by_cases hnew : s.format = .v2 ∧ s.v2MagicOnDisk = false
  · rw [if_pos hnew, if_pos hnew]
    rfl
  · rw [if_neg hnew, if_neg hnew]
    rfl

/-- A failed append leaves the store as it was, or poisons it. -/
theorem appendBlock_error {s s' : BlockStore} {b : Block} {calls : AppendIo} {e : IoError}
    (h : s.appendBlock b calls = some (.error e, s')) : s' = s ∨ s'.poisoned = true := by
  simp only [appendBlock, Option.bind_eq_bind, Option.bind_eq_some_iff, Option.some.injEq] at h
  rcases h with ⟨payload, _, happ⟩
  rcases s.appendPayload_cases payload calls with ⟨e', hc⟩ | ⟨e', s'', hc, hpois⟩ | ⟨_, _, hc⟩
  · rw [hc, Prod.mk.injEq] at happ
    exact Or.inl happ.2.symm
  · rw [hc, Prod.mk.injEq] at happ
    exact Or.inr (happ.2 ▸ hpois)
  · rw [hc] at happ
    exact absurd happ (by simp only [Prod.mk.injEq, reduceCtorEq, false_and, not_false_eq_true])

end BlockStore

/-- The blocks are appended one after the other, and no call fails. -/
inductive Appended : BlockStore → List Block → BlockStore → Prop where
  | nil (s : BlockStore) : Appended s [] s
  | cons {s s' s'' : BlockStore} {b : Block} {bs : List Block} (calls : AppendIo)
      (h : s.appendBlock b calls = some (.ok (), s')) (hs : Appended s' bs s'') :
      Appended s (b :: bs) s''

theorem Appended.format_eq {s s' : BlockStore} {bs : List Block} (h : Appended s bs s') :
    s'.format = s.format := by
  induction h with
  | nil s => rfl
  | @cons s s₁ _ _ _ calls happ _ ih =>
      rcases BlockStore.appendBlock_ok happ with ⟨payload, _, _, rfl⟩
      rw [ih, BlockStore.written]
      by_cases hnew : s.format = .v2 ∧ s.v2MagicOnDisk = false
      · rw [if_pos hnew]
      · rw [if_neg hnew]

theorem Appended.stores {s s' : BlockStore} {bs : List Block} (h : Appended s bs s')
    {held : List Block} (hs : s.Stores held) : s'.Stores (held ++ bs) := by
  induction h generalizing held with
  | nil s =>
      rw [List.append_nil]
      exact hs
  | cons calls happ _ ih =>
      have := ih (hs.append happ)
      rwa [List.append_assoc, List.singleton_append] at this

/-- A new store after some appends holds the blocks, in the V2 format. -/
theorem Appended.of_new {disk : Option Bytes} {bs : List Block} {s₀ s : BlockStore}
    (hnew : disk.getD [] = []) (hopen : BlockStore.openAppend disk = .ok s₀)
    (happ : Appended s₀ bs s) : s.Stores bs ∧ s.format = .v2 := by
  have hs₀ : s₀ = ⟨[], false, .v2, false⟩ := by
    rw [BlockStore.openAppend, hnew] at hopen
    exact (Except.ok.inj hopen).symm
  subst hs₀
  have hstores := happ.stores BlockStore.Stores.fresh
  rw [List.nil_append] at hstores
  exact ⟨hstores, happ.format_eq⟩

/-! ### Files that were cut -/

/-- The image of the first blocks starts the image of all of them. -/
theorem Holds.of_take {file : Bytes} {bs : List Block} (h : Holds .v2 file bs) (m : Nat) :
    ∃ img later, Holds .v2 img (bs.take m) ∧ file = img ++ later := by
  rcases image_eq_some.mp h.image with ⟨frames, hframes, rfl⟩
  rw [← List.take_append_drop m bs] at hframes
  rcases writeAll_append_iff.mp hframes with ⟨e, es, he, _, rfl⟩
  exact ⟨headerOf .v2 ++ e, es, ⟨image_eq_some.mpr ⟨e, he, rfl⟩, fun _ => rfl⟩,
    (List.append_assoc ..).symm⟩

/-- What a cut V2 file still holds, if it is a file that can be read: the first
    blocks of what it held. -/
theorem Holds.of_cut {file img tail : Bytes} {bs bs' : List Block} {format : ChainFileFormat}
    {k : Nat} (h : Holds .v2 file bs) (hk : k ≤ file.length) (h' : Holds format img bs')
    (htail : tail.length < 4) (hcut : file.take k = img ++ tail) :
    format = .v2 ∧ ∃ m ≤ bs.length, bs' = bs.take m := by
  have hlen := congrArg List.length hcut
  have himg := holds_length h'
  rw [List.length_append, List.length_take, Nat.min_eq_left hk] at hlen
  rcases image_eq_some.mp h.image with ⟨frames, hframes, rfl⟩
  -- The cut is behind the magic word, which tells the format.
  have hmagic : (img ++ tail).take 8 = chainFileMagicV2 := by
    rw [← hcut, List.take_take, Nat.min_eq_left (by omega)]
    exact List.take_left' headerOf_v2_length
  have hv2 : format = .v2 := by
    cases format with
    | v2 => rfl
    | legacy =>
        rcases image_eq_some.mp h'.image with ⟨frames', hframes', rfl⟩
        cases bs' with
        | nil => exact h'.tells rfl
        | cons b bs' =>
            rcases writeAll_cons_iff.mp hframes' with ⟨f, fs, hf, _, rfl⟩
            rw [headerOf, List.nil_append, List.append_assoc] at hmagic
            exact absurd hmagic (encodeFrame_take_ne_magic hf _)
  subst hv2
  refine ⟨rfl, ?_⟩
  rcases image_eq_some.mp h'.image with ⟨frames', hframes', rfl⟩
  rw [List.take_append, List.take_of_length_le (by rw [headerOf_v2_length]; omega),
    headerOf_v2_length, List.append_assoc, List.append_cancel_left_eq] at hcut
  rw [List.length_append, headerOf_v2_length] at hk
  -- Both lists of blocks are what a scan finds in the cut file.
  rcases writeAll_take hframes (k := k - 8) (by omega) with
    ⟨whole, later, part, t, rfl, hpart, htake, _, hshort⟩
  have hwhole : Covers (frontOf .v2) (encodeFrame .v2) (frames' ++ tail) whole part.length := by
    refine ⟨part, t, hpart, by rw [← hcut, htake], rfl, hshort.imp_right ?_⟩
    rintro ⟨b, rest, f, _, hf, hpre, hlt⟩
    exact frontOf_part hf hpre hlt
  have hread : Covers (frontOf .v2) (encodeFrame .v2) (frames' ++ tail) bs' frames'.length :=
    ⟨frames', tail, hframes', rfl, rfl, Or.inr (Or.inl (frontOf_of_length_lt .v2 htail))⟩
  refine ⟨whole.length, ?_, ?_⟩
  · rw [List.length_append]
    omega
  · rw [List.take_left, hread.unique (frontOf_framed .v2) hwhole]

/-- The cuts of a V2 file that are read with success: to nothing, to the magic
    word, or to less than a length behind the end of a frame. -/
theorem read_cut_iff {file : Bytes} {bs bs' : List Block} {k : Nat} {repaired : Bool}
    {disk : Option Bytes} (h : Holds .v2 file bs) (hk : k ≤ file.length) (hpos : 0 < k) :
    readAllBlocksRepairingTail (some (file.take k)) = (.ok (bs', repaired), disk) ↔
      ∃ m img, m ≤ bs.length ∧ bs' = bs.take m ∧ Holds .v2 img bs' ∧ img.length ≤ k ∧
        k < img.length + 4 ∧ (k = img.length ∨ bs' ≠ []) ∧
        repaired = decide (k ≠ img.length) ∧ disk = some img := by
  have hne : file.take k ≠ [] := by
    rw [← List.length_pos_iff, List.length_take]
    omega
  -- The tail is what the cut leaves behind the image.
  have hempty : ∀ img tail : Bytes, file.take k = img ++ tail →
      (tail = [] ↔ k = img.length) ∧ k = img.length + tail.length := by
    intro img tail hcut
    have hlen := congrArg List.length hcut
    rw [List.length_append, List.length_take, Nat.min_eq_left hk] at hlen
    refine ⟨?_, hlen⟩
    rw [← List.length_eq_zero_iff]
    omega
  rw [readAllBlocksRepairingTail_ok_iff hne]
  constructor
  · rintro ⟨format, img, tail, hholds, hcut, hfour, htail, rfl, rfl⟩
    rcases hempty img tail hcut with ⟨hnil, hsum⟩
    rcases h.of_cut hk hholds hfour hcut with ⟨rfl, m, hm, rfl⟩
    refine ⟨m, img, hm, rfl, hholds, by omega, by omega, htail.imp_left hnil.mp, ?_, rfl⟩
    exact decide_eq_decide.mpr (not_congr hnil)
  · rintro ⟨m, img, hm, rfl, hholds, hle, hlt, htail, rfl, rfl⟩
    rcases h.of_take m with ⟨img', later, himg', rfl⟩
    -- The blocks decide their image, so it is the part in front of the cut.
    have himg : img' = img := by
      have := himg'.image
      rwa [hholds.image, Option.some.injEq, eq_comm] at this
    subst himg
    have hcut : (img' ++ later).take k = img' ++ later.take (k - img'.length) := by
      rw [List.take_append, List.take_of_length_le hle]
    rcases hempty _ _ hcut with ⟨hnil, hsum⟩
    refine ⟨.v2, img', _, hholds, hcut, by omega, htail.imp_left hnil.mpr, ?_, rfl⟩
    exact decide_eq_decide.mpr (not_congr hnil.symm)

/-- A V2 file of the blocks, cut to `k` bytes, is read as the first blocks and
    left as the given file. -/
inductive Cut (bs : List Block) (k : Nat) : List Block → Option Bytes → Prop where
  | empty (hk : k = 0) : Cut bs k [] (some [])
  | frames {m : Nat} {img : Bytes} (hm : m ≤ bs.length) (h : Holds .v2 img (bs.take m))
      (hle : img.length ≤ k) (hlt : k < img.length + 4)
      (htail : k = img.length ∨ bs.take m ≠ []) : Cut bs k (bs.take m) (some img)

/-- What is left are the first blocks, in an empty file or as an image. -/
theorem Cut.first {bs bs' : List Block} {k : Nat} {disk : Option Bytes} (h : Cut bs k bs' disk) :
    ∃ m ≤ bs.length, bs' = bs.take m ∧
      (m = 0 ∧ disk = some [] ∨ ∃ img, image .v2 (bs.take m) = some img ∧ disk = some img) := by
  cases h with
  | empty _ => exact ⟨0, Nat.zero_le _, rfl, Or.inl ⟨rfl, rfl⟩⟩
  | frames hm h _ _ _ => exact ⟨_, hm, rfl, Or.inr ⟨_, h.image, rfl⟩⟩

/-- Where a file can be cut: at its start, behind the magic word, and up to
    three bytes behind a frame. -/
theorem cut_exists_iff {bs : List Block} {k : Nat} :
    (∃ bs' disk, Cut bs k bs' disk) ↔
      k = 0 ∨ k = 8 ∨ ∃ m img, 1 ≤ m ∧ m ≤ bs.length ∧ image .v2 (bs.take m) = some img ∧
        img.length ≤ k ∧ k ≤ img.length + 3 := by
  constructor
  · rintro ⟨_, _, hcut⟩
    cases hcut with
    | empty hk => exact Or.inl hk
    | @frames m img hm h hle hlt htail =>
        refine Or.inr ?_
        cases m with
        | zero =>
            -- Without a block no tail is repaired: the cut is behind the magic word.
            rcases image_eq_some.mp h.image with ⟨frames, hframes, himg⟩
            rw [← Option.some.inj hframes, List.append_nil] at himg
            have hk := htail.resolve_right (not_not.mpr List.take_zero)
            exact Or.inl (by rw [hk, ← himg, headerOf_v2_length])
        | succ m => exact Or.inr ⟨m + 1, img, by omega, hm, h.image, hle, by omega⟩
  · rintro (hk | hk | ⟨m, img, hpos, hm, himg, hle, hlt⟩)
    · exact ⟨_, _, Cut.empty hk⟩
    · have hmagic : Holds .v2 (headerOf .v2) (bs.take 0) :=
        ⟨image_eq_some.mpr ⟨[], rfl, List.append_nil _⟩, fun _ => rfl⟩
      have hlen := headerOf_v2_length
      exact ⟨_, _, Cut.frames (Nat.zero_le _) hmagic (by omega) (by omega) (Or.inl (by omega))⟩
    · refine ⟨_, _, Cut.frames hm ⟨himg, fun _ => rfl⟩ hle (by omega) (Or.inr ?_)⟩
      rw [← List.length_pos_iff, List.length_take]
      omega

/-- What is read from the file of a V2 store that was cut. -/
theorem BlockStore.Stores.read_cut_iff {s : BlockStore} {bs bs' : List Block} {k : Nat}
    {disk : Option Bytes} (h : s.Stores bs) (hv2 : s.format = .v2) (hk : k ≤ s.file.length) :
    (∃ repaired, readAllBlocksRepairingTail (some (s.file.take k)) = (.ok (bs', repaired), disk)) ↔
      Cut bs k bs' disk := by
  by_cases hpos : 0 < k
  · cases h with
    | fresh =>
        rw [List.length_nil] at hk
        omega
    | @holding format file _ h =>
        subst hv2
        simp only [Trilogicon.read_cut_iff h hk hpos]
        constructor
        · rintro ⟨_, m, img, hm, rfl, hholds, hle, hlt, htail, _, rfl⟩
          exact Cut.frames hm hholds hle hlt htail
        · intro hcut
          cases hcut with
          | empty hzero => omega
          | @frames m img hm hholds hle hlt htail =>
              exact ⟨_, m, img, hm, rfl, hholds, hle, hlt, htail, rfl, rfl⟩
  · have hzero : k = 0 := by omega
    rw [hzero, List.take_zero]
    constructor
    · rintro ⟨repaired, hread⟩
      rw [readAllBlocksRepairingTail, if_pos rfl, Prod.mk.injEq, Except.ok.injEq,
        Prod.mk.injEq] at hread
      rw [← hread.1.1, ← hread.2]
      exact Cut.empty rfl
    · intro hcut
      cases hcut with
      | empty _ => exact ⟨false, rfl⟩
      | frames hm hholds hle hlt htail =>
          have := holds_length hholds
          omega

/-! ### Reading and opening -/

/-- What the file of an open store is read as. -/
theorem read_of_stores {s : BlockStore} {bs : List Block} (h : s.Stores bs) :
    readAllBlocksRepairingTail (some s.file) = (.ok (bs, false), some s.file) := by
  cases h with
  | fresh => rfl
  | @holding format file _ h =>
      have hlen := holds_length h
      have hne : file ≠ [] := by
        rw [← List.length_pos_iff]
        omega
      exact (readAllBlocksRepairingTail_ok_iff hne).mpr
        ⟨format, file, [], h, (List.append_nil _).symm, by decide, Or.inl rfl, rfl, rfl⟩

/-- A file that was read with success, and repaired if it had to be, can be
    opened and holds the blocks that were read. -/
theorem open_of_read {disk disk' : Option Bytes} {bs : List Block} {repaired : Bool}
    (h : readAllBlocksRepairingTail disk = (.ok (bs, repaired), disk')) :
    ∃ s, BlockStore.openAppend disk' = .ok s ∧ s.Stores bs ∧ s.file = disk'.getD [] := by
  -- Without a file, or with an empty one, there is nothing to read and a new store is opened.
  have hfresh : ∀ d : Option Bytes, (Except.ok ([], false), d) =
      ((Except.ok (bs, repaired), disk') : Except StorageError _ × Option Bytes) →
      bs = [] ∧ disk' = d := by
    intro d hd
    rw [Prod.mk.injEq, Except.ok.injEq, Prod.mk.injEq] at hd
    exact ⟨hd.1.1.symm, hd.2.symm⟩
  cases disk with
  | none =>
      rcases hfresh none h with ⟨rfl, rfl⟩
      exact ⟨_, rfl, BlockStore.Stores.fresh, rfl⟩
  | some data =>
      by_cases hne : data = []
      · subst hne
        rcases hfresh (some []) h with ⟨rfl, rfl⟩
        exact ⟨_, rfl, BlockStore.Stores.fresh, rfl⟩
      · rcases (readAllBlocksRepairingTail_ok_iff hne).mp h with
          ⟨format, file, tail, hholds, _, _, _, _, rfl⟩
        exact ⟨_, BlockStore.openAppend_of_holds hholds, BlockStore.Stores.holding hholds, rfl⟩

end Trilogicon
