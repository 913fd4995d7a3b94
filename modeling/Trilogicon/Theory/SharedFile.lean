import Trilogicon.Core.SharedFile
import Trilogicon.Theory.Formats
import Trilogicon.Theory.Restart

/-!
# What Concurrent Loads Do to the Block File

Whether a block that `run` wrote can be lost to a `send` that loads the file at
the same time.

A load repairs a file that holds a block and ends in one to three bytes more.
That is what an append looks like at its start: after its first bytes, and
before its length is complete, the file is one a load repairs. The load then
replaces the file by what was there before the append, whatever was appended in
the meantime (`torn_read_erases`).

At every other moment a load that reads the file decides to leave it alone
(`repairOf_append`). So in a run in which no load reads the file in that window,
nothing is rewritten, and the file is what the appends made of it.

## Main definitions

* `SharedFile.Settled`: No append has just started.
* `SharedFile.Careful`: Every read of a run finds the file settled.
* `SharedFile.Consistent`: The file is what the appends made of it.

## Theorems

* `repairOf_append`: What a load decides during an append.
* `SharedFile.Consistent.step`: A careful step keeps the file consistent.
* `torn_read_erases`: A read in the window can erase the block.
* `durable_blocks_kept`: Careful runs keep every block.
-/

namespace Trilogicon

namespace BlockStore

theorem Stores.written_eq {s : BlockStore} {bs : List Block} (h : s.Stores bs) (payload : Bytes) :
    s.written payload = { s with
      file := s.file ++ s.bytesToWrite payload, v2MagicOnDisk := decide (s.format = .v2) } := by
  cases h with
  | fresh => rfl
  | @holding format file _ h =>
      cases format with
      | v2 => rfl
      | legacy => rfl

end BlockStore

/-! ### What a load decides -/

/-- The bytes of a held file, in front of anything. -/
theorem parsePrefix_of_holds {format : ChainFileFormat} {file tail : Bytes} {bs : List Block}
    (h : Holds format file bs) (htail : tail = [] ∨ (frontOf format tail).IsShort) :
    ∃ n, file.length = (headerOf format).length + n ∧
      parsePrefix format ((file ++ tail).drop (headerOf format).length) = .ok (bs, n) := by
  rcases image_eq_some.mp h.image with ⟨frames, hframes, rfl⟩
  refine ⟨frames.length, List.length_append, ?_⟩
  rw [List.append_assoc, List.drop_left, parsePrefix_ok_iff]
  exact ⟨frames, tail, hframes, rfl, rfl, htail⟩

/-- A load of a file that ends in the start of a frame repairs it if it holds
    a block and the length of the frame is incomplete. -/
theorem repairOf_part {format : ChainFileFormat} {file tail : Bytes} {bs : List Block}
    (h : Holds format file bs) (htail : (frontOf format tail).IsShort) (hne : tail ≠ []) :
    repairOf (file ++ tail) = if bs ≠ [] ∧ tail.length < 4 then some file else none := by
  rcases parsePrefix_of_holds h (Or.inr htail) with ⟨n, hlen, hparse⟩
  have hdata : file ++ tail ≠ [] := fun hc => hne (List.append_eq_nil_iff.mp hc).2
  have hfmt := detectFormat_of_holds h tail
  -- The load scans the blocks of the image and stops at the start of the frame.
  have hscan : parsePrefix (detectFormat (file ++ tail)).1
      ((file ++ tail).drop (detectFormat (file ++ tail)).2) = .ok (bs, n) := by
    rw [hfmt]
    exact hparse
  have hread := readAllBlocksRepairingTail_of_ok hdata hscan
  rw [hfmt] at hread
  have hpositive : 0 < tail.length := List.length_pos_iff.mpr hne
  have hsize : (file ++ tail).length = file.length + tail.length := List.length_append
  rw [repairOf, hread, repairTail, ← hlen, if_pos (by omega)]
  by_cases hbs : bs = []
  · -- The scan found no frame, and such a file is never repaired.
    have hzero : n = 0 := by
      rcases image_eq_some.mp h.image with ⟨frames, hframes, hfile⟩
      rw [hbs, writeAll, Option.some.injEq] at hframes
      rw [← hfile, ← hframes, List.append_nil] at hlen
      omega
    rw [if_pos ⟨hbs, hzero⟩, if_neg (fun hc => hc.1 hbs)]
  · rw [if_neg (fun hc => hbs hc.1)]
    by_cases hfour : tail.length < 4
    · rw [if_neg (by omega), if_pos ⟨hbs, hfour⟩, List.take_left]
    · rw [if_pos (by omega), if_neg (fun hc => hfour hc.2)]

theorem repairOf_of_stores {s : BlockStore} {bs : List Block} (h : s.Stores bs) :
    repairOf s.file = none := by
  rw [repairOf, read_of_stores h]

/-- A load during the first append to a new file leaves it alone: it finds no
    block. -/
theorem repairOf_first {b : Block} {full done left : Bytes} (h : Holds .v2 full [b])
    (hsplit : done ++ left = full) : repairOf done = none := by
  by_cases hnil : done = []
  · rw [hnil]
    rfl
  have hcut : full.take done.length = done := by
    rw [← hsplit, List.take_left]
  have hle : done.length ≤ full.length := by
    rw [← hsplit, List.length_append]
    omega
  cases hr : repairOf done with
  | none => rfl
  | some data =>
      -- A repair would have found the block, and so the whole file.
      have hread : ∃ bs disk, readAllBlocksRepairingTail (some (full.take done.length)) =
          (.ok (bs, true), disk) := by
        rw [hcut]
        rw [repairOf] at hr
        split at hr
        · exact ⟨_, _, by assumption⟩
        · exact absurd hr (by simp only [reduceCtorEq, not_false_eq_true])
      rcases hread with ⟨bs, disk, hread⟩
      rcases (read_cut_iff h hle (List.length_pos_iff.mpr hnil)).mp hread with
        ⟨m, img, hm, rfl, himg, hlow, _, hwhole, hrep, _⟩
      rw [eq_comm, decide_eq_true_eq] at hrep
      have hblock : [b].take m = [b] := by
        cases m with
        | zero => exact absurd rfl (hwhole.resolve_left hrep)
        | succ m => rw [List.take_of_length_le (by rw [List.length_singleton]; omega)]
      rw [hblock] at himg
      have hsame : img = full := by
        have := himg.image
        rwa [h.image, Option.some.injEq, eq_comm] at this
      rw [hsame] at hlow hrep
      omega

/-- What a load decides during an append. -/
theorem repairOf_append {s : BlockStore} {bs : List Block} (h : s.Stores bs) {b : Block}
    {payload done left : Bytes} (he : encodeBlock b = some payload)
    (hmax : payload.length ≤ maxFrameBytes) (hsplit : done ++ left = s.bytesToWrite payload) :
    repairOf (s.file ++ done) =
      if bs ≠ [] ∧ done ≠ [] ∧ done.length < 4 then some s.file else none := by
  -- All bytes of the append together make an image with the block.
  have hwritten := h.written he hmax
  rw [h.written_eq] at hwritten
  by_cases hdone : done = []
  · rw [if_neg (fun hc => hc.2.1 hdone), hdone, List.append_nil, repairOf_of_stores h]
  cases h with
  | fresh =>
      rw [if_neg (fun hc => hc.1 rfl), List.nil_append]
      cases hwritten with
      | holding hfull => exact repairOf_first hfull hsplit
  | @holding format file _ h =>
      have hframe : encodeFrame format b = some (frameBytes format payload) :=
        encodeFrame_eq_some.mpr ⟨payload, he, hmax, rfl⟩
      have hbytes : done ++ left = frameBytes format payload := by
        rw [hsplit, BlockStore.bytesToWrite]
        cases format with
        | v2 => rfl
        | legacy => rfl
      by_cases hleft : left = []
      · -- The frame is complete, so the file is an image again.
        rw [hleft, List.append_nil] at hsplit hbytes
        have hlong := encodeFrame_length hframe
        rw [← hbytes] at hlong
        rw [if_neg (by omega), hsplit]
        exact repairOf_of_stores hwritten
      · have hlt : done.length < (frameBytes format payload).length := by
          rw [← hbytes, List.length_append]
          have := List.length_pos_iff.mpr hleft
          omega
        rw [repairOf_part h (frontOf_part hframe ⟨left, hbytes⟩ hlt) hdone]
        simp only [ne_eq, hdone, not_false_eq_true, true_and]

/-! ### Careful runs -/

namespace SharedFile

/-- No append has just started: either it has written nothing yet, or at least
    the length of its frame, or there is no block in the file. -/
def Settled (s : SharedFile) : Prop :=
  ∀ a, s.appending = some a → a.done = [] ∨ 4 ≤ a.done.length ∨ s.committed = []

/-- Every read of the run finds the file settled. -/
def Careful (s : SharedFile) : List FileStep → Prop
  | [] => True
  | e :: es => (∀ i, e = .read i → s.Settled) ∧ ∀ s', s.step e = some s' → s'.Careful es

/-- The file is what the appends made of it, and no rewrite is pending. -/
structure Consistent (s : SharedFile) : Prop where
  quiet : ∀ i, s.rewrites i = none
  idle : s.appending = none → s.store.Stores s.committed
  busy : ∀ a, s.appending = some a → ∃ s₀ payload, BlockStore.Stores s₀ s.committed ∧
    encodeBlock a.block = some payload ∧ payload.length ≤ maxFrameBytes ∧
      a.done ++ a.left = s₀.bytesToWrite payload ∧
        s.store = { s₀ with file := s₀.file ++ a.done }

theorem consistent_opened {s : BlockStore} {held : List Block} (h : s.Stores held) :
    (opened s held).Consistent where
  quiet _ := rfl
  idle _ := h
  busy a ha := absurd ha (by simp only [opened, reduceCtorEq, not_false_eq_true])

/-- A read of a settled file decides to leave it alone. -/
theorem Consistent.repairOf_settled {s : SharedFile} (h : s.Consistent) (hs : s.Settled) :
    repairOf s.store.file = none := by
  cases ha : s.appending with
  | none => exact repairOf_of_stores (h.idle ha)
  | some a =>
      rcases h.busy a ha with ⟨s₀, payload, hstores, he, hmax, hsplit, hstore⟩
      rw [hstore, repairOf_append hstores he hmax hsplit, if_neg]
      rintro ⟨hblock, hsome, hfour⟩
      rcases hs a ha with hnone | hlong | hempty
      · exact hsome hnone
      · omega
      · exact hblock hempty

/-- An append starts with all its bytes left, or is refused. -/
theorem Consistent.start {s s' : SharedFile} (h : s.Consistent) {b : Block}
    (hstep : s.step (.start b) = some s') : s'.Consistent := by
  cases ha : s.appending with
  | some a => simp only [SharedFile.step, ha, reduceCtorEq] at hstep
  | none =>
      cases he : encodeBlock b with
      | none => simp only [SharedFile.step, ha, he, reduceCtorEq] at hstep
      | some payload =>
          simp only [SharedFile.step, ha, he] at hstep
          split_ifs at hstep with hrefused
          · rw [← Option.some.inj hstep]
            exact h
          · rw [← Option.some.inj hstep]
            refine ⟨h.quiet, fun hc => absurd hc (by simp only [reduceCtorEq,
              not_false_eq_true]), ?_⟩
            rintro _ ⟨⟩
            -- Nothing is written yet, so the file is the image from before.
            refine ⟨s.store, payload, h.idle ha, he, ?_, rfl, ?_⟩
            · exact Nat.le_of_not_lt fun hc => hrefused (Or.inr hc)
            · rw [List.append_nil]

/-- A chunk moves bytes from what is left to what is done. -/
theorem Consistent.chunk {s s' : SharedFile} (h : s.Consistent) {n : Nat}
    (hstep : s.step (.chunk n) = some s') : s'.Consistent := by
  cases ha : s.appending with
  | none => simp only [SharedFile.step, ha, reduceCtorEq] at hstep
  | some a =>
      simp only [SharedFile.step, ha] at hstep
      split_ifs at hstep with hleft
      rw [← Option.some.inj hstep]
      refine ⟨h.quiet, fun hc => absurd hc (by simp only [reduceCtorEq, not_false_eq_true]), ?_⟩
      rintro _ ⟨⟩
      rcases h.busy a ha with ⟨s₀, payload, hstores, he, hmax, hsplit, hstore⟩
      refine ⟨s₀, payload, hstores, he, hmax, ?_, ?_⟩
      · rw [List.append_assoc, List.take_append_drop, hsplit]
      · rw [hstore, List.append_assoc]

/-- An append that is done has extended the image by its block. -/
theorem Consistent.finish {s s' : SharedFile} (h : s.Consistent)
    (hstep : s.step .finish = some s') : s'.Consistent := by
  cases ha : s.appending with
  | none => simp only [SharedFile.step, ha, reduceCtorEq] at hstep
  | some a =>
      simp only [SharedFile.step, ha] at hstep
      split_ifs at hstep with hleft
      rw [← Option.some.inj hstep]
      rcases h.busy a ha with ⟨s₀, payload, hstores, he, hmax, hsplit, hstore⟩
      refine ⟨h.quiet, fun _ => ?_, fun _ hc => absurd hc (by simp only [reduceCtorEq,
        not_false_eq_true])⟩
      -- Nothing is left, so what was written are all bytes of the append.
      have hwritten := hstores.written he hmax
      rw [hleft, List.append_nil] at hsplit
      rw [hstores.written_eq, ← hsplit] at hwritten
      rw [hstore]
      exact hwritten

/-- A careful step keeps the file consistent. -/
theorem Consistent.step {s s' : SharedFile} (h : s.Consistent) {e : FileStep}
    (hread : ∀ i, e = .read i → s.Settled) (hstep : s.step e = some s') : s'.Consistent := by
  cases e with
  | start b => exact h.start hstep
  | chunk n => exact h.chunk hstep
  | finish => exact h.finish hstep
  | read i =>
      rw [SharedFile.step, Option.some.injEq] at hstep
      rw [← hstep, h.repairOf_settled (hread i rfl)]
      refine ⟨fun j => ?_, h.idle, h.busy⟩
      by_cases hj : j = i
      · rw [hj]
        exact Function.update_self i _ _
      · exact (Function.update_of_ne hj _ _).trans (h.quiet j)
  | rewrite i => simp only [SharedFile.step, h.quiet i, reduceCtorEq] at hstep

theorem Consistent.run {s s' : SharedFile} (h : s.Consistent) {es : List FileStep}
    (hcareful : s.Careful es) (hrun : s.run es = some s') : s'.Consistent := by
  induction es generalizing s with
  | nil =>
      rw [SharedFile.run, Option.some.injEq] at hrun
      rw [← hrun]
      exact h
  | cons e es ih =>
      rcases Option.bind_eq_some_iff.mp hrun with ⟨s₁, hstep, hrest⟩
      exact ih (h.step hcareful.1 hstep) (hcareful.2 s₁ hstep) hrest

end SharedFile

/-! ### What is in the file -/

namespace BlockStore

/-- The frames of the blocks are at the end of the file. -/
theorem Stores.frames {s : BlockStore} {bs : List Block} (h : s.Stores bs) :
    ∃ frames, writeAll (encodeFrame s.format) bs = some frames ∧ frames <:+ s.file := by
  cases h with
  | fresh => exact ⟨[], rfl, List.suffix_refl _⟩
  | holding h =>
      rcases image_eq_some.mp h.image with ⟨frames, hframes, rfl⟩
      exact ⟨frames, hframes, List.suffix_append _ _⟩

/-- The strict reader accepts the file of an open store. -/
theorem Stores.readAllBlocks {s : BlockStore} {bs : List Block} (h : s.Stores bs) :
    readAllBlocks (some s.file) = .ok bs := by
  cases h with
  | fresh => rfl
  | @holding format file _ h =>
      have hne : file ≠ [] := by
        rw [← List.length_pos_iff]
        have := holds_length h
        omega
      exact (readAllBlocks_ok_iff hne).mpr ⟨format, h⟩

end BlockStore

namespace SharedFile

/-- The frames of all blocks are in the file, whatever follows them. -/
theorem Consistent.frames {s : SharedFile} (h : s.Consistent) :
    ∃ frames, writeAll (encodeFrame s.store.format) s.committed = some frames ∧
      frames <:+: s.store.file := by
  cases ha : s.appending with
  | none =>
      rcases (h.idle ha).frames with ⟨frames, hframes, hsuffix⟩
      exact ⟨frames, hframes, hsuffix.isInfix⟩
  | some a =>
      rcases h.busy a ha with ⟨s₀, payload, hstores, _, _, _, hstore⟩
      rcases hstores.frames with ⟨frames, hframes, hsuffix⟩
      rw [hstore]
      exact ⟨frames, hframes, hsuffix.isInfix.trans (List.prefix_append _ _).isInfix⟩

theorem bytesToWrite_length (s : BlockStore) {b : Block} {payload : Bytes}
    (he : encodeBlock b = some payload) (hmax : payload.length ≤ maxFrameBytes) :
    37 ≤ (s.bytesToWrite payload).length := by
  have hframe : encodeFrame s.format b = some (frameBytes s.format payload) :=
    encodeFrame_eq_some.mpr ⟨payload, he, hmax, rfl⟩
  have hlong := encodeFrame_length hframe
  rw [BlockStore.bytesToWrite, List.length_append]
  omega

theorem bytesToWrite_length_le (s : BlockStore) (payload : Bytes) :
    (s.bytesToWrite payload).length ≤ payload.length + 16 := by
  have hmagic : chainFileMagicV2.length = 8 := headerOf_v2_length
  rw [BlockStore.bytesToWrite, List.length_append]
  split_ifs with hnew
  · rw [hnew.1, frameBytes, List.length_append, List.length_append, beBytes_length,
      beBytes_length]
    omega
  · cases s.format with
    | legacy =>
        rw [frameBytes, List.length_append, beBytes_length, List.length_nil]
        omega
    | v2 =>
        rw [frameBytes, List.length_append, List.length_append, beBytes_length, beBytes_length,
          List.length_nil]
        omega

theorem run_append (s : SharedFile) (es es' : List FileStep) :
    s.run (es ++ es') = (s.run es).bind fun s' => s'.run es' := by
  induction es generalizing s with
  | nil => rfl
  | cons e es ih =>
      rw [List.cons_append, run, run, Option.bind_eq_bind, Option.bind_assoc]
      simp only [ih]

/-- An append that nothing interrupts does what `append_payload` does. -/
theorem run_whole {s : SharedFile} {bs : List Block} (h : s.store.Stores bs)
    (ha : s.appending = none) {b : Block} {payload : Bytes} (he : encodeBlock b = some payload)
    (hmax : payload.length ≤ maxFrameBytes) {n : Nat}
    (hn : (s.store.bytesToWrite payload).length ≤ n) :
    s.run [.start b, .chunk n, .finish] = some { s with
      store := s.store.written payload, committed := s.committed ++ [b] } := by
  have hrefused : ¬(s.store.poisoned = true ∨ maxFrameBytes < payload.length) := by
    rw [h.not_poisoned]
    simp only [Bool.false_eq_true, false_or, not_lt]
    exact hmax
  have hbytes : s.store.bytesToWrite payload ≠ [] := by
    rw [← List.length_pos_iff]
    have := bytesToWrite_length s.store he hmax
    omega
  simp only [run, step, ha, he, if_neg hrefused, if_neg hbytes,
    List.take_of_length_le (Nat.le_succ_of_le hn), List.drop_of_length_le (Nat.le_succ_of_le hn),
    if_true, Option.bind_eq_bind, Option.bind_some, h.written_eq]

/-- The rest of an append around a rewrite that was decided on before it. -/
theorem run_erase {s : SharedFile} {a : PendingAppend} {data : Bytes} {n : Nat}
    (ha : s.appending = some a) (hleft : a.left ≠ []) (hn : a.left.length ≤ n) {i : Nat}
    (hpending : s.rewrites i = some data) :
    s.run [.chunk n, .finish, .rewrite i] = some
      { store := { s.store with file := data, v2MagicOnDisk := decide (s.store.format = .v2) }
        appending := none
        committed := s.committed ++ [a.block]
        rewrites := Function.update s.rewrites i none } := by
  simp only [run, step, ha, if_neg hleft, List.drop_of_length_le (Nat.le_succ_of_le hn), if_true,
    hpending, Option.bind_eq_bind, Option.bind_some]

/-- Without a read there is nothing to be careful about. -/
theorem careful_of_no_read {s : SharedFile} {es : List FileStep} (h : ∀ i, .read i ∉ es) :
    s.Careful es := by
  induction es generalizing s with
  | nil => trivial
  | cons e es ih =>
      refine ⟨fun i he => absurd List.mem_cons_self (he ▸ h i), fun s' _ => ih fun i hi => ?_⟩
      exact h i (List.mem_cons_of_mem e hi)

/-- A read of a file that is not settled decides on a rewrite that erases the
    block whose append is in progress. -/
theorem Consistent.torn_read_erases {s : SharedFile} (h : s.Consistent) (hs : ¬s.Settled)
    (i : Nat) :
    ∃ s₁ es s', s.step (.read i) = some s₁ ∧ s₁.Careful es ∧ s₁.run es = some s' ∧
      s'.appending = none ∧ readAllBlocks (some s'.store.file) ≠ .ok s'.committed := by
  rw [Settled] at hs
  push Not at hs
  rcases hs with ⟨a, ha, hsome, hshort, hblock⟩
  rcases h.busy a ha with ⟨s₀, payload, hstores, he, hmax, hsplit, hstore⟩
  -- The load finds an incomplete length behind a block and keeps the image before it.
  have hrepair : repairOf s.store.file = some s₀.file := by
    rw [hstore, repairOf_append hstores he hmax hsplit, if_pos ⟨hblock, hsome, hshort⟩]
  -- Only a few bytes are done, so some are left.
  have hleft : a.left ≠ [] := by
    intro hnil
    have hlong := bytesToWrite_length s₀ he hmax
    rw [hnil, List.append_nil] at hsplit
    rw [← hsplit] at hlong
    omega
  let s₁ : SharedFile := { s with rewrites := Function.update s.rewrites i (some s₀.file) }
  have hread : s.step (.read i) = some s₁ := by
    rw [SharedFile.step, hrepair]
  have hpending : s₁.rewrites i = some s₀.file := Function.update_self i _ _
  have hcareful : s₁.Careful [.chunk a.left.length, .finish, .rewrite i] := by
    refine careful_of_no_read fun j hj => ?_
    simp only [List.mem_cons, reduceCtorEq, List.not_mem_nil, or_self] at hj
  refine ⟨s₁, _, _, hread, hcareful,
    run_erase (s := s₁) ha hleft (Nat.le_refl _) hpending, rfl, ?_⟩
  -- The rewrite puts back the file from before the block.
  change readAllBlocks (some s₀.file) ≠ .ok (s.committed ++ [a.block])
  rw [hstores.readAllBlocks, Ne, Except.ok.injEq]
  intro hsame
  have hlen := congrArg List.length hsame
  rw [List.length_append, List.length_singleton] at hlen
  omega

/-- The same from the start of the append. -/
theorem run_torn {s : SharedFile} (hstores : s.store.Stores s.committed)
    (ha : s.appending = none) (hblock : s.committed ≠ []) {b : Block} {payload : Bytes}
    (he : encodeBlock b = some payload) (hmax : payload.length ≤ maxFrameBytes) (i : Nat) :
    ∃ s', s.run ([.start b, .chunk 0, .read i] ++
        [.chunk (payload.length + 16), .finish, .rewrite i]) = some s' ∧
      s'.appending = none ∧ s'.committed = s.committed ++ [b] ∧
      readAllBlocks (some s'.store.file) = .ok s.committed := by
  have hlong := bytesToWrite_length s.store he hmax
  have hlength := bytesToWrite_length_le s.store payload
  have hrefused : ¬(s.store.poisoned = true ∨ maxFrameBytes < payload.length) := by
    rw [hstores.not_poisoned]
    simp only [Bool.false_eq_true, false_or, not_lt]
    exact hmax
  have hrepair := repairOf_append hstores he hmax
    (List.take_append_drop 1 (s.store.bytesToWrite payload))
  have htake : ((s.store.bytesToWrite payload).take 1).length = 1 := by
    rw [List.length_take]
    omega
  have hsome : (s.store.bytesToWrite payload).take 1 ≠ [] := by
    rw [← List.length_pos_iff]
    omega
  rw [if_pos ⟨hblock, hsome, by omega⟩] at hrepair
  -- The load sees one byte of the frame and takes it for a torn append.
  let a : PendingAppend :=
    ⟨b, (s.store.bytesToWrite payload).take 1, (s.store.bytesToWrite payload).drop 1⟩
  let s₁ : SharedFile := { s with
    store := { s.store with file := s.store.file ++ a.done }
    appending := some a
    rewrites := Function.update s.rewrites i (some s.store.file) }
  have hbytes : s.store.bytesToWrite payload ≠ [] := fun hc => hsome (by rw [hc, List.take_nil])
  have hstart : s.run [.start b, .chunk 0, .read i] = some s₁ := by
    simp only [run, step, ha, he, if_neg hrefused, if_neg hbytes, List.nil_append, Nat.zero_add,
      Option.bind_eq_bind, Option.bind_some, hrepair, s₁, a]
  have hleft : a.left.length = (s.store.bytesToWrite payload).length - 1 := List.length_drop
  rw [run_append, hstart, Option.bind_some, run_erase (s := s₁) (a := a) rfl
    (by rw [← List.length_pos_iff]; omega) (by omega) (Function.update_self i _ _)]
  exact ⟨_, rfl, rfl, rfl, hstores.readAllBlocks⟩

theorem Careful.append {s : SharedFile} {es es' : List FileStep} (h : s.Careful es)
    (h' : ∀ s', s.run es = some s' → s'.Careful es') : s.Careful (es ++ es') := by
  induction es generalizing s with
  | nil => exact h' s rfl
  | cons e es ih =>
      refine ⟨h.1, fun s₁ hstep => ih (h.2 s₁ hstep) fun s' hrun => h' s' ?_⟩
      rw [run, hstep, Option.bind_eq_bind, Option.bind_some, hrun]

/-- An append with a load in its middle, when the length of the frame is in the
    file. -/
def readInside (b : Block) (payload : Bytes) (i : Nat) : List FileStep :=
  [.start b, .chunk 3, .read i, .chunk (payload.length + 16), .finish]

/-- Such a load is careful, and the append goes on to its end. -/
theorem run_readInside {s : SharedFile} (hstores : s.store.Stores s.committed)
    (ha : s.appending = none) {b : Block} {payload : Bytes} (he : encodeBlock b = some payload)
    (hmax : payload.length ≤ maxFrameBytes) (i : Nat) :
    s.Careful (readInside b payload i) ∧ ∃ s', s.run (readInside b payload i) = some s' ∧
      s'.appending = none ∧ s'.committed = s.committed ++ [b] := by
  have hlong := bytesToWrite_length s.store he hmax
  have hlength := bytesToWrite_length_le s.store payload
  have hrefused : ¬(s.store.poisoned = true ∨ maxFrameBytes < payload.length) := by
    rw [hstores.not_poisoned]
    simp only [Bool.false_eq_true, false_or, not_lt]
    exact hmax
  have hbytes : s.store.bytesToWrite payload ≠ [] := by
    rw [← List.length_pos_iff]
    omega
  have hleft : (s.store.bytesToWrite payload).drop 4 ≠ [] := by
    rw [ne_eq, List.drop_eq_nil_iff]
    omega
  -- The second chunk is long enough for all that the first one left.
  have hdone : ((s.store.bytesToWrite payload).drop 4).drop (payload.length + 17) = [] := by
    rw [List.drop_drop, List.drop_eq_nil_iff]
    omega
  constructor
  · simp only [readInside, Careful, step, ha, he, if_neg hrefused, if_neg hbytes,
      Option.some.injEq, forall_eq', List.nil_append, reduceCtorEq, false_implies, implies_true,
      true_and, and_true, FileStep.read.injEq]
    intro a hbusy
    rw [← Option.some.inj hbusy]
    refine Or.inr (Or.inl ?_)
    rw [List.length_take]
    omega
  · simp only [readInside, run, step, ha, he, if_neg hrefused, if_neg hbytes, if_neg hleft, hdone,
      if_true, Option.bind_eq_bind, Option.bind_some]
    exact ⟨_, rfl, rfl, rfl⟩

/-- A read decides against every rewrite that could erase a block exactly if
    the file is settled. -/
theorem Consistent.settled_iff {s : SharedFile} (h : s.Consistent) (i : Nat) :
    s.Settled ↔ ∀ s₁ es s', s.step (.read i) = some s₁ → s₁.Careful es → s₁.run es = some s' →
      s'.appending = none → readAllBlocks (some s'.store.file) = .ok s'.committed := by
  constructor
  · intro hs s₁ es s' hread hcareful hrun hidle
    have hcons := (h.step (fun _ _ => hs) hread).run hcareful hrun
    exact (hcons.idle hidle).readAllBlocks
  · intro hsafe
    by_contra hs
    rcases h.torn_read_erases hs i with ⟨s₁, es, s', hread, hcareful, hrun, hidle, hlost⟩
    exact hlost (hsafe s₁ es s' hread hcareful hrun hidle)

end SharedFile

/-- If every load reads the file while it is settled, then in every state that
    is reached the frames of all blocks whose append returned `Ok` are in the
    file, in order, and whenever no append is in progress the file decodes to
    exactly those blocks. The condition cannot be dropped for any read: in such a
    state another load may read the file, without a block being lost when it goes
    on, exactly if the file is settled. -/
theorem durable_blocks_kept {disk disk' : Option Bytes} {held : List Block} {repaired : Bool}
    {st : BlockStore} {es : List FileStep} {s : SharedFile}
    (hread : readAllBlocksRepairingTail disk = (.ok (held, repaired), disk'))
    (hopen : BlockStore.openAppend disk' = .ok st)
    (hcareful : (SharedFile.opened st held).Careful es)
    (hrun : (SharedFile.opened st held).run es = some s) :
    (∃ frames, writeAll (encodeFrame s.store.format) s.committed = some frames ∧
      frames <:+: s.store.file) ∧
    (s.appending = none → readAllBlocks (some s.store.file) = .ok s.committed) ∧
    (∀ i, s.Settled ↔ ∀ s₁ es' s', s.step (.read i) = some s₁ → s₁.Careful es' →
      s₁.run es' = some s' → s'.appending = none →
        readAllBlocks (some s'.store.file) = .ok s'.committed) := by
  rcases open_of_read hread with ⟨st', hopen', hstores, _⟩
  rw [hopen, Except.ok.injEq] at hopen'
  rw [← hopen'] at hstores
  have hcons := (SharedFile.consistent_opened hstores).run hcareful hrun
  exact ⟨hcons.frames, fun hidle => (hcons.idle hidle).readAllBlocks, hcons.settled_iff⟩

namespace Sample

/-- The file after the first append. -/
def oneBlock : SharedFile :=
  .opened (freshStore.written payload) [block]

/-- One `run` appends two blocks to a new file. A `send` reads the file after
    the first byte of the second append, and rewrites it when both appends have
    returned. -/
def erasing : List FileStep :=
  [.start block, .chunk (payload.length + 16), .finish] ++
    ([.start nextBlock, .chunk 0, .read 0] ++
      [.chunk (nextPayload.length + 16), .finish, .rewrite 0])

theorem stores_oneBlock : oneBlock.store.Stores oneBlock.committed :=
  BlockStore.Stores.fresh.written encodeBlock_block payload_small

theorem run_firstAppend :
    (SharedFile.opened freshStore []).run [.start block, .chunk (payload.length + 16), .finish] =
      some oneBlock := by
  refine SharedFile.run_whole (s := .opened freshStore []) .fresh rfl encodeBlock_block
    payload_small ?_
  exact SharedFile.bytesToWrite_length_le _ payload

theorem idle_oneBlock : oneBlock.appending = none := by
  rw [oneBlock, SharedFile.opened]

theorem committed_oneBlock : oneBlock.committed = [block] ∧ oneBlock.committed ≠ [] := by
  rw [oneBlock, SharedFile.opened]
  exact ⟨rfl, List.cons_ne_nil _ _⟩

/-- The second block is erased, although its append returned `Ok`. -/
theorem send_erases_nextBlock :
    ∃ s, (SharedFile.opened freshStore []).run erasing = some s ∧ s.appending = none ∧
      s.committed = [block, nextBlock] ∧ readAllBlocks (some s.store.file) = .ok [block] := by
  rw [erasing, SharedFile.run_append, run_firstAppend, Option.bind_some]
  rcases SharedFile.run_torn stores_oneBlock idle_oneBlock committed_oneBlock.2
    encodeBlock_nextBlock nextPayload_small 0 with ⟨s, hrun, hidle, hcommitted, hread⟩
  rw [committed_oneBlock.1] at hcommitted hread
  exact ⟨s, hrun, hidle, hcommitted, hread⟩

/-- Two appends to a new file, with a load in the middle of the second. -/
def loadInside : List FileStep :=
  [.start block, .chunk (payload.length + 16), .finish] ++
    SharedFile.readInside nextBlock nextPayload 0

/-- That load does no harm. -/
theorem durable_blocks_kept_loadInside :
    ∃ s, (SharedFile.opened freshStore []).run loadInside = some s ∧
      s.committed = [block, nextBlock] ∧
      readAllBlocks (some s.store.file) = .ok [block, nextBlock] := by
  -- The load is inside the second append, when the length is already written.
  rcases SharedFile.run_readInside stores_oneBlock idle_oneBlock encodeBlock_nextBlock
    nextPayload_small 0 with ⟨hinside, s, hrest, hidle, hcommitted⟩
  have hcareful : (SharedFile.opened freshStore []).Careful loadInside := by
    refine SharedFile.Careful.append (SharedFile.careful_of_no_read fun i hi => ?_) ?_
    · simp only [List.mem_cons, reduceCtorEq, List.not_mem_nil, or_self] at hi
    · intro s' hfirst
      rw [run_firstAppend, Option.some.injEq] at hfirst
      exact hfirst ▸ hinside
  have hrun : (SharedFile.opened freshStore []).run loadInside = some s := by
    rw [loadInside, SharedFile.run_append, run_firstAppend, Option.bind_some, hrest]
  rw [committed_oneBlock.1] at hcommitted
  have hnone : readAllBlocksRepairingTail none = (.ok ([], false), none) := rfl
  have hopen : BlockStore.openAppend none = .ok freshStore := rfl
  have hkept := (durable_blocks_kept hnone hopen hcareful hrun).2.1 hidle
  exact ⟨s, hrun, hcommitted, hkept.trans (congrArg Except.ok hcommitted)⟩

end Sample

end Trilogicon
