import Trilogicon.Lib.Register
import Trilogicon.Theory.Restart

/-!
# What the Checksum Detects

The checksum of a V2 frame is computed by a shift register with feedback, on
words of 32 bits and with eight shifts for each byte. Four bytes fill the
register. So payloads of the same length that differ in four consecutive bytes
only, anywhere in them, have different checksums.

In a file this means that a frame is refused whose payload was changed in such a
window, or whose stored checksum was changed. The bytes before the frame are
whole frames, so both readers of the file get there, and both report an error.

## Theorems

* `crc32Ieee_toBitVec`: The checksum is what a shift register computes.
* `crc32Ieee_ne_of_burst`: Payloads that differ in a short window.
* `frontOf_bad_crc`: A frame with another checksum than that of its payload.
* `corruption_detected`: Both readers refuse a file with such a change.
-/

namespace Trilogicon

/-! ### The checksum as a shift register -/

theorem crcBit_toBitVec (c : UInt32) :
    (crcBit c).toBitVec = Register.shift 0xEDB88320#32 c.toBitVec := by
  have hlow : c &&& 1 ≠ 0 ↔ c.toBitVec.getLsbD 0 = true := by
    have hclear : c &&& 1 = 0 ↔ c.toBitVec.getLsbD 0 = false := by
      rw [← UInt32.toNat_inj, UInt32.toNat_and, UInt32.toNat_one, Nat.and_one_is_mod,
        UInt32.toNat_zero, BitVec.getLsbD, Nat.testBit_zero, decide_eq_false_iff_not,
        UInt32.toNat_toBitVec]
      omega
    rw [ne_eq, hclear, Bool.not_eq_false]
  have hhalf : (c >>> 1).toBitVec = c.toBitVec >>> 1 := by
    apply BitVec.eq_of_toNat_eq
    rw [UInt32.toNat_toBitVec, UInt32.toNat_shiftRight, BitVec.toNat_ushiftRight,
      UInt32.toNat_toBitVec]
    rfl
  unfold crcBit Register.shift
  by_cases h : c &&& 1 ≠ 0
  · rw [if_pos h, if_pos (hlow.mp h), UInt32.toBitVec_xor, hhalf]
    rfl
  · rw [if_neg h, if_neg (fun hc => h (hlow.mpr hc)), hhalf]

/-- A byte as a symbol of the register. -/
def crcSymbol (byte : UInt8) : BitVec 32 :=
  byte.toUInt32.toBitVec

theorem crcSymbol_lt (byte : UInt8) : (crcSymbol byte).toNat < 2 ^ 8 := by
  rw [crcSymbol, UInt32.toNat_toBitVec, UInt8.toNat_toUInt32]
  exact UInt8.toNat_lt byte

theorem crcSymbol_injective : Function.Injective crcSymbol := by
  intro a b h
  have hnat := congrArg BitVec.toNat h
  rw [crcSymbol, crcSymbol, UInt32.toNat_toBitVec, UInt32.toNat_toBitVec, UInt8.toNat_toUInt32,
    UInt8.toNat_toUInt32] at hnat
  exact UInt8.toNat_inj.mp hnat

/-- The checksum is what the register holds in the end, with every bit turned. -/
theorem crc32Ieee_toBitVec (payload : Bytes) :
    (crc32Ieee payload).toBitVec =
      ~~~ Register.absorb 0xEDB88320#32 8 0xFFFFFFFF#32 (payload.map crcSymbol) := by
  have hshifts : ∀ c : UInt32, (crcBit^[8] c).toBitVec =
      (Register.shift 0xEDB88320#32)^[8] c.toBitVec :=
    Function.Semiconj.iterate_right (f := UInt32.toBitVec) crcBit_toBitVec 8
  have hbyte : ∀ (c : UInt32) (byte : UInt8),
      (Register.shift 0xEDB88320#32)^[8] (c.toBitVec ^^^ crcSymbol byte) =
        (crcBit^[8] (c ^^^ byte.toUInt32)).toBitVec := by
    intro c byte
    rw [hshifts, UInt32.toBitVec_xor, crcSymbol]
  have hfold : payload.foldl (fun (c : BitVec 32) byte =>
      (Register.shift 0xEDB88320#32)^[8] (c ^^^ crcSymbol byte)) (0xFFFFFFFF : UInt32).toBitVec =
        (payload.foldl (fun c byte => crcBit^[8] (c ^^^ byte.toUInt32)) 0xFFFFFFFF).toBitVec :=
    List.foldl_hom UInt32.toBitVec hbyte
  rw [crc32Ieee, UInt32.toBitVec_not, ← hfold, Register.absorb, List.foldl_map]
  rfl

example : crc32Ieee (utf8 "123456789") = 0xCBF43926 := by
  decide +kernel

/-- Payloads that differ in a window of at most four bytes, wherever it is, have
    different checksums. -/
theorem crc32Ieee_ne_of_burst {i k : Nat} (hk : k ≤ 4) {p q : Bytes} (h : Burst i k p q) :
    crc32Ieee p ≠ crc32Ieee q := by
  rcases h.split with ⟨before, u, v, after, rfl, rfl, hlen, hle, hne⟩
  intro heq
  -- Four symbols of eight bits fill the register and do not overlap.
  have hsmall : ∀ us : Bytes, ∀ b ∈ us.map crcSymbol, b.toNat < 2 ^ 8 := by
    intro us b hb
    rcases List.mem_map.mp hb with ⟨byte, _, rfl⟩
    exact crcSymbol_lt byte
  have hstates := congrArg UInt32.toBitVec heq
  rw [crc32Ieee_toBitVec, crc32Ieee_toBitVec, BitVec.not_inj] at hstates
  simp only [List.map_append] at hstates
  refine Register.absorb_ne_of_window (by decide) ?_ ?_ (hsmall u) (hsmall v) ?_ _ _ _ hstates
  · rw [List.length_map, List.length_map, hlen]
  · rw [List.length_map]
    omega
  · exact fun hmap => hne (List.map_injective_iff.mpr crcSymbol_injective hmap)

/-! ### A changed frame -/

/-- A frame with another checksum than that of its payload is refused. -/
theorem frontOf_bad_crc {payload stored : Bytes} (hmax : payload.length ≤ maxFrameBytes)
    (hlen : stored.length = 4) (hne : stored ≠ beBytes 4 (crc32Ieee payload).toNat)
    (rest : Bytes) :
    ∃ e, frontOf .v2 (beBytes 4 payload.length ++ (payload ++ stored) ++ rest) = .bad e := by
  -- The checksum is looked at before the payload is decoded.
  have hread : ∃ e, readPayload checkCrc payload stored = .error e := by
    cases hcheck : checkCrc payload stored with
    | error e => exact ⟨e, by rw [readPayload, hcheck]⟩
    | ok u => exact absurd ((checkCrc_ok_iff payload stored hlen).mp hcheck) hne
  rcases hread with ⟨e, hread⟩
  refine ⟨e, ?_⟩
  have hbody : ¬ (payload ++ (stored ++ rest)).length < payload.length + 4 := by
    rw [List.length_append, List.length_append, hlen]
    omega
  rw [frontOf, v2Front, frameFront_eq, List.append_assoc, List.append_assoc,
    lengthFront_length maxFrameBytes_lt hmax, if_neg hbody, List.take_left, List.drop_left,
    List.take_left' hlen, hread]

/-- A file that goes bad behind some frames is refused by both readers. -/
theorem refused_of_bad {bs : List Block} {before tail : Bytes} {e : StorageError}
    (hbefore : image .v2 bs = some before) (hne : tail ≠ []) (hbad : frontOf .v2 tail = .bad e) :
    (∃ e', readAllBlocks (some (before ++ tail)) = .error e') ∧
      ∃ e', readAllBlocksRepairingTail (some (before ++ tail)) =
        (.error e', some (before ++ tail)) := by
  have hformat := detectFormat_of_holds ⟨hbefore, fun _ => rfl⟩ tail
  rcases image_eq_some.mp hbefore with ⟨frames, hframes, rfl⟩
  have hdata : headerOf .v2 ++ frames ++ tail ≠ [] := fun h =>
    hne (List.append_eq_nil_iff.mp h).2
  have hdrop : (headerOf .v2 ++ frames ++ tail).drop (headerOf .v2).length = frames ++ tail := by
    rw [List.append_assoc, List.drop_left]
  have hcovers : ∀ bs' n, ¬ Covers (frontOf .v2) (encodeFrame .v2) (frames ++ tail) bs' n :=
    fun bs' n => not_covers_behind (frontOf_framed .v2) hframes hne hbad
  refine ⟨?_, ?_⟩
  · simp only [readAllBlocks, if_neg hdata, hformat, hdrop]
    cases hparse : parseV2BlockFrames (frames ++ tail) with
    | error e' => exact ⟨e', rfl⟩
    | ok bs' =>
        -- A file that is frames to its end is covered by them.
        exact absurd ⟨_, [], parseStrict_ok_iff.2.mp hparse, (List.append_nil _).symm, rfl,
          Or.inl rfl⟩ (hcovers bs' (frames ++ tail).length)
  · cases hparse : parsePrefix .v2 (frames ++ tail) with
    | error e' =>
        exact ⟨e', readAllBlocksRepairingTail_of_error hdata (by rw [hformat, hdrop, hparse])⟩
    | ok found => exact absurd (parsePrefix_ok_iff.mp hparse) (hcovers found.1 found.2)

/-- Where the frame of a block stands in the image. -/
theorem image_split {bs : List Block} {n : Nat} {b : Block} {img before payload : Bytes}
    (himg : image .v2 bs = some img) (hb : bs[n]? = some b)
    (hbefore : image .v2 (bs.take n) = some before) (hpayload : encodeBlock b = some payload) :
    payload.length ≤ maxFrameBytes ∧ ∃ after, img = before ++ (beBytes 4 payload.length ++
      (payload ++ beBytes 4 (crc32Ieee payload).toNat) ++ after) := by
  rcases image_eq_some.mp himg with ⟨frames, hframes, rfl⟩
  rcases image_eq_some.mp hbefore with ⟨first, hfirst, rfl⟩
  rcases List.getElem?_eq_some_iff.mp hb with ⟨hn, hget⟩
  rw [← List.take_append_drop n bs, List.drop_eq_getElem_cons hn, hget] at hframes
  rcases writeAll_append_iff.mp hframes with ⟨first', rest, hfirst', hrest, rfl⟩
  rcases writeAll_cons_iff.mp hrest with ⟨frame, after, hframe, _, rfl⟩
  rcases encodeFrame_eq_some.mp hframe with ⟨payload', hpayload', hmax, rfl⟩
  rw [hfirst, Option.some.injEq] at hfirst'
  rw [hpayload, Option.some.injEq] at hpayload'
  subst hfirst' hpayload'
  exact ⟨hmax, after, by rw [frameBytes_eq, trailerOf, ← List.append_assoc (headerOf .v2)]⟩

/-- A file is refused if behind some frames there is one whose length was kept
    and whose checksum is not that of its payload. -/
theorem refused_of_bad_crc {bs : List Block} {before payload stored : Bytes}
    (hbefore : image .v2 bs = some before) (hmax : payload.length ≤ maxFrameBytes)
    (hstored : stored.length = 4) (hne : stored ≠ beBytes 4 (crc32Ieee payload).toNat)
    (after : Bytes) {file : Bytes}
    (hfile : file = before ++ (beBytes 4 payload.length ++ (payload ++ stored) ++ after)) :
    (∃ e, readAllBlocks (some file) = .error e) ∧
      ∃ e, readAllBlocksRepairingTail (some file) = (.error e, some file) := by
  rcases frontOf_bad_crc hmax hstored hne after with ⟨e, hbad⟩
  rw [hfile]
  refine refused_of_bad hbefore ?_ hbad
  intro hnil
  have hzero := congrArg List.length hnil
  rw [List.length_append, List.length_append, beBytes_length, List.length_nil] at hzero
  omega

/-- Checksums detect local corruption. Payloads that differ in at most four
    consecutive bytes only have different checksums; and if an image of blocks is
    changed inside one frame, in at most four consecutive bytes of the payload or
    in the bytes of the checksum, both readers report an error and leave the file
    as it is. -/
theorem corruption_detected :
    (∀ (p q : Bytes) (i k : Nat), k ≤ 4 → Burst i k p q → crc32Ieee p ≠ crc32Ieee q) ∧
    ∀ (bs : List Block) (img : Bytes) (n : Nat) (b : Block) (before payload : Bytes) (i k : Nat)
      (img' : Bytes), image .v2 bs = some img → bs[n]? = some b →
      image .v2 (bs.take n) = some before → encodeBlock b = some payload →
      (k ≤ 4 ∧ before.length + 4 ≤ i ∧ i + k ≤ before.length + 4 + payload.length ∨
        before.length + 4 + payload.length ≤ i ∧ i + k ≤ before.length + 8 + payload.length) →
      Burst i k img img' →
      (∃ e, readAllBlocks (some img') = .error e) ∧
        ∃ e, readAllBlocksRepairingTail (some img') = (.error e, some img') := by
  refine ⟨fun p q i k hk h => crc32Ieee_ne_of_burst hk h, ?_⟩
  intro bs img n b before payload i k img' himg hb hbefore hpayload hwhere hburst
  rcases image_split himg hb hbefore hpayload with ⟨hmax, after, rfl⟩
  have hword := beBytes_length 4 payload.length
  have hcrc := beBytes_length 4 (crc32Ieee payload).toNat
  rcases hwhere with ⟨hk, hstart, hend⟩ | ⟨hstart, hend⟩
  · -- The payload was changed, and the stored checksum is that of the old one.
    rw [List.append_assoc, ← List.append_assoc before, List.append_assoc payload] at hburst
    rcases hburst.within (by rw [List.length_append]; omega) (by rw [List.length_append]; omega)
      with ⟨payload', heq, hburst'⟩
    have hlen := hburst'.length
    refine refused_of_bad_crc hbefore (hlen.trans_le hmax) hcrc ?_ after ?_
    · intro hsame
      have hnat := congrArg ofBe hsame
      rw [ofBe_beBytes_of_lt (UInt32.toNat_lt _), ofBe_beBytes_of_lt (UInt32.toNat_lt _)] at hnat
      exact crc32Ieee_ne_of_burst hk hburst' (UInt32.toNat_inj.mp hnat)
    · rw [heq, hlen]
      simp only [List.append_assoc]
  · -- The stored checksum was changed.
    rw [List.append_assoc, List.append_assoc payload, ← List.append_assoc (beBytes 4 _),
      ← List.append_assoc before] at hburst
    rcases hburst.within (by simp only [List.length_append]; omega)
      (by simp only [List.length_append, hcrc]; omega) with ⟨stored, heq, hburst'⟩
    refine refused_of_bad_crc hbefore hmax (hburst'.length.trans hcrc) hburst'.ne after ?_
    rw [heq]
    simp only [List.append_assoc]

namespace Sample

/-- The file with the payment, with every bit of the checksum turned, is
    refused. -/
theorem turned_checksum_refused :
    (∃ e, readAllBlocks (some (chainFileMagicV2 ++ (beBytes 4 payload.length ++ payload) ++
      (beBytes 4 (~~~ crc32Ieee payload).toNat ++ []))) = .error e) := by
  have hne : beBytes 4 (~~~ crc32Ieee payload).toNat ≠ beBytes 4 (crc32Ieee payload).toNat := by
    intro h
    have hnat := congrArg ofBe h
    rw [ofBe_beBytes_of_lt (UInt32.toNat_lt _), ofBe_beBytes_of_lt (UInt32.toNat_lt _),
      UInt32.toNat_not, UInt32.size] at hnat
    omega
  have hburst := Burst.of_window (a := chainFileMagicV2 ++ (beBytes 4 payload.length ++ payload))
    (z := []) (by rw [beBytes_length, beBytes_length]) hne
  have hstored : stored = chainFileMagicV2 ++ (beBytes 4 payload.length ++ payload) ++
      (beBytes 4 (crc32Ieee payload).toNat ++ []) := by
    rw [stored, frameBytes, List.append_nil, List.append_assoc chainFileMagicV2]
  rw [← hstored] at hburst
  refine (corruption_detected.2 [block] stored 0 block chainFileMagicV2 payload _ _ _ image_block
    rfl rfl encodeBlock_block (Or.inr ⟨?_, ?_⟩) hburst).1
  · rw [List.length_append, List.length_append, beBytes_length, Nat.add_assoc]
  · rw [List.length_append, List.length_append, beBytes_length, beBytes_length]
    omega

end Sample

end Trilogicon
