import Trilogicon.Theory.Chain
import Trilogicon.Theory.Formats

/-!
# Restarting from the Block File

What `load_blockchain_from_disk` makes of a file: it reads the blocks and has
them accepted one after the other on the genesis chain.

Replaying the blocks of a sound chain gives back its blocks and its table,
whatever timestamp policy the chain was built under: the policy of a replay
asks only that time does not run backwards. So the file of an open store that
holds the blocks of a chain is as good as the chain. A crash may cut that file
anywhere; what a restart then finds, and that it can go on from there, is
`load_truncated`. The reader repairs the file before a block is replayed, so a
restart that fails may have shortened the file; it has then cut what no block
needs.

## Main definitions

* `Accepted`: A run of accepted blocks.

## Theorems

* `accepted_of_sound`: The blocks of a sound chain are accepted by a replay.
* `load_ok_iff`: A restart reads the file and replays its blocks.
* `load_of_stores`: What a restart finds in the file of an open store.
* `load_resumes`: What is accepted and appended after a restart is found by the next one.
* `load_truncated`: What a restart finds in a file that was cut.
* `failed_load_file`: What a restart that fails leaves of the file.
-/

namespace Trilogicon

theorem fromGenesis_blocks {g : Genesis} {c : Blockchain}
    (h : Blockchain.fromGenesis g = .ok c) :
    c.blocks = [Block.genesis] ∧ c.consensus = .default := by
  rcases bind_ok_iff.mp h with ⟨_, _, heq⟩
  rw [← Except.ok.inj heq]
  exact ⟨rfl, rfl⟩

theorem fromGenesisWithConsensus_blocks {g : Genesis} {params : ConsensusParams} {c : Blockchain}
    (h : Blockchain.fromGenesisWithConsensus g params = .ok c) : c.blocks = [Block.genesis] := by
  rcases bind_ok_iff.mp h with ⟨c₀, hc₀, heq⟩
  rw [← Except.ok.inj heq]
  exact (fromGenesis_blocks hc₀).1

theorem chainFromGenesis_ok_iff {g : Genesis} {c : Blockchain} :
    chainFromGenesis g = .ok c ↔ Blockchain.fromGenesis g = .ok c :=
  mapError_ok_iff

section Restart

variable [Primitives]

/-- The blocks are accepted one after the other. -/
inductive Accepted : Blockchain → List Block → Blockchain → Prop where
  | nil (c : Blockchain) : Accepted c [] c
  | cons {c c' c'' : Blockchain} {b : Block} {bs : List Block}
      (h : c.appendBlock b = (.ok (), c')) (hs : Accepted c' bs c'') : Accepted c (b :: bs) c''

theorem replayAll_ok_iff {c c' : Blockchain} {bs : List Block} :
    replayAll c bs = .ok c' ↔ Accepted c bs c' := by
  induction bs generalizing c with
  | nil =>
      rw [replayAll, Except.ok.injEq]
      constructor
      · rintro rfl
        exact Accepted.nil _
      · intro h
        cases h with
        | nil => rfl
  | cons b bs ih =>
      rw [replayAll]
      constructor
      · intro h
        -- Only a block that is accepted lets the replay go on.
        rcases (c.appendBlock_keeps b).cases with ⟨e, hb⟩ | ⟨_, c₁, hb⟩
        · rw [hb] at h
          exact absurd h (by simp only [reduceCtorEq, not_false_eq_true])
        · rw [hb] at h
          exact Accepted.cons hb (ih.mp h)
      · intro h
        cases h with
        | cons hb hs =>
            rw [hb]
            exact ih.mpr hs

namespace Accepted

theorem snoc {c c' c'' : Blockchain} {bs : List Block} {b : Block} (h : Accepted c bs c')
    (hb : c'.appendBlock b = (.ok (), c'')) : Accepted c (bs ++ [b]) c'' := by
  induction h with
  | nil c => exact Accepted.cons hb (Accepted.nil _)
  | cons happ _ ih => exact Accepted.cons happ (ih hb)

theorem snoc_inv {c c' c'' : Blockchain} {bs : List Block} {b : Block}
    (h : Accepted c bs c') (hb : Accepted c (bs ++ [b]) c'') :
    c'.appendBlock b = (.ok (), c'') := by
  induction h with
  | nil c =>
      cases hb with
      | cons happ hnil =>
          cases hnil with
          | nil => exact happ
  | cons happ _ ih =>
      cases hb with
      | cons happ' hs =>
          rw [happ, Prod.mk.injEq] at happ'
          exact ih (happ'.2 ▸ hs)

theorem take {c c' : Blockchain} {bs : List Block} (h : Accepted c bs c') (m : Nat) :
    ∃ c'', Accepted c (bs.take m) c'' := by
  induction h generalizing m with
  | nil c =>
      rw [List.take_nil]
      exact ⟨c, Accepted.nil c⟩
  | cons happ _ ih =>
      cases m with
      | zero => exact ⟨_, Accepted.nil _⟩
      | succ m =>
          rcases ih m with ⟨c'', hc''⟩
          exact ⟨c'', Accepted.cons happ hc''⟩

/-- Accepted blocks split anywhere. -/
theorem append_iff {c c' : Blockchain} {xs ys : List Block} :
    Accepted c (xs ++ ys) c' ↔ ∃ mid, Accepted c xs mid ∧ Accepted mid ys c' := by
  induction xs generalizing c with
  | nil =>
      constructor
      · intro h
        exact ⟨c, .nil c, h⟩
      · intro h
        rcases h with ⟨mid, hxs, hys⟩
        cases hxs
        exact hys
  | cons b xs ih =>
      constructor
      · intro h
        cases h with
        | cons hb hs =>
            rcases ih.mp hs with ⟨mid, hxs, hys⟩
            exact ⟨mid, .cons hb hxs, hys⟩
      · intro h
        rcases h with ⟨mid, hxs, hys⟩
        cases hxs with
        | cons hb hs => exact .cons hb (ih.mpr ⟨mid, hs, hys⟩)

/-- Accepted blocks keep a chain sound and its policy as it was. -/
theorem sound {g : Genesis} {c c' : Blockchain} {bs : List Block} (h : Accepted c bs c')
    (hs : c.Sound g) :
    c'.Sound g ∧ c'.blocks = c.blocks ++ bs ∧ c'.consensus = c.consensus := by
  induction h with
  | nil c => exact ⟨hs, (List.append_nil _).symm, rfl⟩
  | cons happ _ ih =>
      rcases Blockchain.appendBlock_ok_sound hs happ with ⟨hs', hblocks⟩
      rcases ih hs' with ⟨hs'', hblocks', hcons⟩
      refine ⟨hs'', ?_, ?_⟩
      · rw [hblocks', hblocks, List.append_assoc, List.singleton_append]
      · rcases (Blockchain.appendBlock_ok_iff _ _ _).mp happ with ⟨_, _, _, _, _, _, _, _, rfl⟩
        exact hcons

end Accepted

/-- The blocks of a sound chain are accepted again by a replay, which ends in
    the same blocks and the same table. -/
theorem accepted_of_sound {g : Genesis} {c : Blockchain} (hs : c.Sound g) :
    ∃ c₀, Blockchain.fromGenesis g = .ok c₀ ∧
      Accepted c₀ (c.blocks.drop 1) { c with consensus := .default } := by
  rcases hs with ⟨hl, hr⟩
  rcases c with ⟨blocks, s, params⟩
  simp only at hl hr ⊢
  rcases bind_ok_iff.mp hr with ⟨s₀, hg, -⟩
  refine ⟨⟨[Block.genesis], s₀, .default⟩, bind_ok_iff.mpr ⟨s₀, hg, rfl⟩, ?_⟩
  -- By induction on the length: the last block is accepted on the chain below.
  induction blocks using List.reverseRecOn generalizing s with
  | nil => exact absurd rfl hl.ne_nil
  | append_singleton pre b ih =>
      by_cases hpre : pre = []
      · subst hpre
        have hb : b = Block.genesis := Option.some.inj hl.head
        rcases bind_ok_iff.mp hr with ⟨s₁, hg₁, hs₁⟩
        rw [hg, Except.ok.injEq] at hg₁
        have hs : s₀ = s := hg₁.trans (Except.ok.inj hs₁)
        rw [hb, hs]
        exact Accepted.nil _
      · have hprefix : pre <+: pre ++ [b] := List.prefix_append _ _
        rcases Blockchain.recompute_prefix hr hprefix hpre with ⟨t, ht⟩
        rcases hl.last_follows hpre with ⟨tip, htip, hfol⟩
        -- The table below the last block is what the replay had there.
        have hnext : t.applyAll b.transactions = .ok s := by
          rcases bind_ok_iff.mp hr with ⟨s₁, hg₁, hblocks⟩
          rcases bind_ok_iff.mp ht with ⟨s₂, hg₂, hblocks₂⟩
          rw [hg₁, Except.ok.injEq] at hg₂
          rw [List.drop_append_of_le_length (List.length_pos_iff.mpr hpre),
            applyBlocks_append_ok_iff] at hblocks
          rcases hblocks with ⟨t', ht', hb⟩
          rw [hg₂, hblocks₂, Except.ok.injEq] at ht'
          rwa [← ht', applyBlocks_singleton] at hb
        rw [List.drop_append_of_le_length (List.length_pos_iff.mpr hpre)]
        exact (ih t (hl.of_prefix hprefix hpre) ht).snoc
          (Blockchain.appendBlock_of_follows (c := ⟨pre, t, .default⟩) htip hfol rfl hnext)

/-- A restart reads the file and replays its blocks. -/
theorem load_ok_iff {disk disk' : Option Bytes} {g : Genesis} {c : Blockchain}
    {repaired : Bool} :
    loadBlockchainFromDisk disk g = (.ok (c, repaired), disk') ↔
      ∃ bs c₀, readAllBlocksRepairingTail disk = (.ok (bs, repaired), disk') ∧
        Blockchain.fromGenesis g = .ok c₀ ∧ Accepted c₀ bs c := by
  rw [loadBlockchainFromDisk]
  rcases readAllBlocksRepairingTail disk with ⟨e | ⟨bs, r⟩, d⟩
  · simp only [Prod.mk.injEq, reduceCtorEq, false_and, exists_false]
  -- The refusals in their order: the file, the document, the replay.
  · cases hg : chainFromGenesis g with
    | error e =>
        simp only [Prod.mk.injEq, reduceCtorEq, false_and, false_iff]
        rintro ⟨bs', c₀, _, hc₀, _⟩
        rw [chainFromGenesis_ok_iff.mpr hc₀] at hg
        exact absurd hg (by simp only [reduceCtorEq, not_false_eq_true])
    | ok c₀ =>
        have hc₀ := chainFromGenesis_ok_iff.mp hg
        simp only [hc₀, Except.ok.injEq, Prod.mk.injEq, exists_and_left]
        cases hr : replayAll c₀ bs with
        | error e =>
            simp only [Prod.mk.injEq, reduceCtorEq, false_and, false_iff]
            rintro ⟨bs', ⟨⟨rfl, _⟩, _⟩, c₁, rfl, hacc⟩
            rw [replayAll_ok_iff.mpr hacc] at hr
            exact absurd hr (by simp only [reduceCtorEq, not_false_eq_true])
        | ok c₁ =>
            have hacc := replayAll_ok_iff.mp hr
            simp only [Prod.mk.injEq, Except.ok.injEq]
            constructor
            · rintro ⟨⟨rfl, rfl⟩, rfl⟩
              exact ⟨bs, ⟨⟨rfl, rfl⟩, rfl⟩, c₀, rfl, hacc⟩
            · rintro ⟨bs', ⟨⟨rfl, rfl⟩, rfl⟩, c₂, rfl, hacc'⟩
              rw [replayAll_ok_iff.mpr hacc', Except.ok.injEq] at hr
              exact ⟨⟨hr.symm, rfl⟩, rfl⟩

/-- The file decides about a restart by its blocks alone. -/
theorem load_of_read {disk disk' : Option Bytes} {bs : List Block} {repaired : Bool}
    (h : readAllBlocksRepairingTail disk = (.ok (bs, repaired), disk')) (g : Genesis) :
    loadBlockchainFromDisk disk g =
      ((chainFromGenesis g >>= fun c => replayAll c bs).map fun c => (c, repaired), disk') := by
  rw [loadBlockchainFromDisk, h]
  cases chainFromGenesis g with
  | error e => rfl
  | ok c =>
      simp only [bind, Except.bind]
      cases replayAll c bs with
      | error e => rfl
      | ok c' => rfl

/-- A restart leaves the file that its reader leaves. -/
theorem load_snd (disk : Option Bytes) (g : Genesis) :
    (loadBlockchainFromDisk disk g).2 = (readAllBlocksRepairingTail disk).2 := by
  rcases hread : readAllBlocksRepairingTail disk with ⟨e | ⟨bs, repaired⟩, disk'⟩
  · rw [loadBlockchainFromDisk, hread]
  · rw [load_of_read hread]

/-- What a restart finds in the file of a store that holds the blocks of a
    sound chain: its blocks and its table, under the default policy. -/
theorem load_of_stores {g : Genesis} {c : Blockchain} {s : BlockStore} (hc : c.Sound g)
    (hs : s.Stores (c.blocks.drop 1)) :
    loadBlockchainFromDisk (some s.file) g =
      (.ok ({ c with consensus := .default }, false), some s.file) := by
  rcases accepted_of_sound hc with ⟨c₀, hc₀, hacc⟩
  exact load_ok_iff.mpr ⟨_, c₀, read_of_stores hs, hc₀, hacc⟩

/-- Blocks that a chain accepted under some policy are accepted by a restart,
    which starts under the default policy. -/
theorem Accepted.by_restart {g : Genesis} {params : ConsensusParams} {c₀ c : Blockchain}
    {bs : List Block} (hgen : Blockchain.fromGenesisWithConsensus g params = .ok c₀)
    (hacc : Accepted c₀ bs c) :
    ∃ c₁ c', Blockchain.fromGenesis g = .ok c₁ ∧ Accepted c₁ bs c' := by
  rcases hacc.sound (Blockchain.fromGenesisWithConsensus_sound hgen) with ⟨hsound, hblocks, _⟩
  have hblocks₀ := fromGenesisWithConsensus_blocks hgen
  rcases accepted_of_sound hsound with ⟨c₁, hc₁, hacc₁⟩
  rw [hblocks, hblocks₀, List.singleton_append, List.drop_one, List.tail_cons] at hacc₁
  exact ⟨c₁, _, hc₁, hacc₁⟩

/-- What a restart found: the blocks of the file after the genesis block, and
    the table they produce. -/
theorem load_found {disk disk' : Option Bytes} {g : Genesis} {c : Blockchain} {repaired : Bool}
    (h : loadBlockchainFromDisk disk g = (.ok (c, repaired), disk')) :
    ∃ bs, readAllBlocksRepairingTail disk = (.ok (bs, repaired), disk') ∧
      c.blocks = Block.genesis :: bs ∧ c.Sound g ∧ c.consensus = .default := by
  rcases load_ok_iff.mp h with ⟨bs, c₀, hread, hc₀, hacc⟩
  rcases fromGenesis_blocks hc₀ with ⟨hblocks₀, hpolicy₀⟩
  rcases hacc.sound (Blockchain.fromGenesis_sound hc₀) with ⟨hsound, hblocks, hpolicy⟩
  rw [hblocks₀, List.singleton_append] at hblocks
  exact ⟨bs, hread, hblocks, hsound, hpolicy.trans hpolicy₀⟩

/-- After a restart the node goes on: what is accepted and appended from then
    on is found by the next restart. -/
theorem load_resumes {disk disk' : Option Bytes} {g : Genesis} {c : Blockchain} {repaired : Bool}
    (h : loadBlockchainFromDisk disk g = (.ok (c, repaired), disk')) :
    ∃ s, BlockStore.openAppend disk' = .ok s ∧
      ∀ more c' s', Accepted c more c' → Appended s more s' →
        c'.blocks = c.blocks ++ more ∧
        loadBlockchainFromDisk (some s'.file) g = (.ok (c', false), some s'.file) := by
  rcases load_found h with ⟨bs, hread, hblocks, hsound, hpolicy⟩
  rcases open_of_read hread with ⟨s, hopen, hstores, _⟩
  refine ⟨s, hopen, ?_⟩
  intro more c' s' hmore happ
  rcases hmore.sound hsound with ⟨hsound', hblocks', hpolicy'⟩
  refine ⟨hblocks', ?_⟩
  have hstores' : s'.Stores (c'.blocks.drop 1) := by
    rw [hblocks', hblocks, List.cons_append, List.drop_one, List.tail_cons]
    exact happ.stores hstores
  rw [load_of_stores hsound' hstores', ← hpolicy'.trans hpolicy]

/-- Crash safety. A new file got the blocks of a chain appended and was then
    cut to its first `k` bytes. A restart succeeds exactly at the ends of the
    file, of the magic word and of a frame, with up to three bytes after a
    frame. It finds the first blocks, leaves the file that holds them, and can
    be gone on from. -/
theorem load_truncated {g : Genesis} {params : ConsensusParams} {c₀ c : Blockchain}
    {bs : List Block} {disk : Option Bytes} {s₀ s : BlockStore} {k : Nat}
    (hgen : Blockchain.fromGenesisWithConsensus g params = .ok c₀) (hacc : Accepted c₀ bs c)
    (hnew : disk.getD [] = []) (hopen : BlockStore.openAppend disk = .ok s₀)
    (happ : Appended s₀ bs s) (hk : k ≤ s.file.length) :
    ((∃ found, (loadBlockchainFromDisk (some (s.file.take k)) g).1 = .ok found) ↔
      k = 0 ∨ k = 8 ∨ ∃ m img, 1 ≤ m ∧ m ≤ bs.length ∧ image .v2 (bs.take m) = some img ∧
        img.length ≤ k ∧ k ≤ img.length + 3) ∧
    ∀ c' repaired disk',
      loadBlockchainFromDisk (some (s.file.take k)) g = (.ok (c', repaired), disk') →
      ∃ m ≤ bs.length, c'.blocks = Block.genesis :: bs.take m ∧
        recomputeStateFromBlocks c'.blocks g = .ok c'.state ∧
        (m = 0 ∧ disk' = some [] ∨ ∃ img, image .v2 (bs.take m) = some img ∧ disk' = some img) ∧
        ∃ s', BlockStore.openAppend disk' = .ok s' ∧
          ∀ more c'' s'', Accepted c' more c'' → Appended s' more s'' →
            c''.blocks = Block.genesis :: (bs.take m ++ more) ∧
            loadBlockchainFromDisk (some s''.file) g = (.ok (c'', false), some s''.file) := by
  rcases happ.of_new hnew hopen with ⟨hstores, hformat⟩
  -- What can be read are the cuts of the file that was written.
  have hread : ∀ bs' disk', (∃ repaired,
      readAllBlocksRepairingTail (some (s.file.take k)) = (.ok (bs', repaired), disk')) ↔
        Cut bs k bs' disk' :=
    fun bs' disk' => hstores.read_cut_iff hformat hk
  refine ⟨?_, ?_⟩
  · rw [← cut_exists_iff]
    constructor
    · rintro ⟨⟨c', repaired⟩, hload⟩
      rcases load_ok_iff.mp (Prod.ext hload rfl) with ⟨bs', _, hok, _, _⟩
      exact ⟨bs', _, (hread bs' _).mp ⟨repaired, hok⟩⟩
    · rintro ⟨bs', disk', hcut⟩
      rcases (hread bs' disk').mpr hcut with ⟨repaired, hok⟩
      rcases hcut.first with ⟨m, _, rfl, _⟩
      -- The first blocks of an accepted list are accepted.
      rcases hacc.by_restart hgen with ⟨c₁, _, hc₁, hacc₁⟩
      rcases hacc₁.take m with ⟨c', hc'⟩
      exact ⟨(c', repaired), congrArg Prod.fst (load_ok_iff.mpr ⟨_, c₁, hok, hc₁, hc'⟩)⟩
  · intro c' repaired disk' hload
    rcases load_found hload with ⟨bs', hok, hblocks, hsound, _⟩
    rcases ((hread bs' disk').mp ⟨repaired, hok⟩).first with ⟨m, hm, rfl, hdisk⟩
    -- The file that is left holds what was read, so the node goes on from there.
    rcases load_resumes hload with ⟨s', hs', hresume⟩
    rw [hblocks] at hresume
    exact ⟨m, hm, hblocks, hsound.replay, hdisk, s', hs', hresume⟩

/-- A failed restart leaves the bytes, or cuts what is behind the image of some
    blocks. The blocks are still there then, and a restart fails on them again. -/
theorem load_error_cases {disk disk' : Option Bytes} {g : Genesis} {e : StorageError}
    (h : loadBlockchainFromDisk disk g = (.error e, disk')) :
    disk' = disk ∨
      ∃ bs format img tail, bs ≠ [] ∧ image format bs = some img ∧ disk = some (img ++ tail) ∧
        1 ≤ tail.length ∧ tail.length ≤ 3 ∧ disk' = some img ∧ readAllBlocks disk' = .ok bs ∧
        loadBlockchainFromDisk disk' g = (.error e, disk') := by
  have hsnd := load_snd disk g
  rw [h] at hsnd
  -- A restart writes only when it repairs.
  rcases repairing_cases disk with hkeep | ⟨bs, format, img, tail, hb, himage, rfl, hpos, hthree,
    hread⟩
  · exact Or.inl (hsnd.trans hkeep)
  · rw [hread] at hsnd
    have hdisk : disk' = some img := hsnd
    have hagain := repairing_again hread
    rw [hdisk]
    refine Or.inr ⟨bs, format, img, tail, hb, himage, rfl, hpos, hthree, rfl,
      (repairing_false_iff.mp hagain).1, ?_⟩
    -- The second restart replays the same blocks.
    rw [load_of_read hread, Prod.mk.injEq, map_error_iff] at h
    rw [load_of_read hagain, Prod.mk.injEq, map_error_iff]
    exact ⟨h.1, rfl⟩

/-- A restart that finds something to repair succeeds if its failure would leave
    the bytes. -/
theorem accepted_of_load_keeps {disk : Option Bytes} {g : Genesis}
    (hkeep : ∀ e disk', loadBlockchainFromDisk disk g = (.error e, disk') → disk' = disk)
    {bs : List Block} {img tail : Bytes} (hdisk : disk = some (img ++ tail))
    (hpos : 1 ≤ tail.length)
    (hread : readAllBlocksRepairingTail disk = (.ok (bs, true), some img)) :
    ∃ c₀ c, Blockchain.fromGenesis g = .ok c₀ ∧ Accepted c₀ bs c := by
  have hsnd := load_snd disk g
  rw [hread] at hsnd
  rcases hload : loadBlockchainFromDisk disk g with ⟨e | ⟨c, repaired⟩, disk'⟩
  · -- An error would leave the longer file, and the reader has cut it.
    have hsame := hkeep e disk' hload
    rw [hload] at hsnd
    rw [hsame, hdisk, Option.some.injEq] at hsnd
    have hlen := congrArg List.length hsnd
    rw [List.length_append] at hlen
    omega
  · rcases load_ok_iff.mp hload with ⟨bs', c₀, hread', hc₀, hacc⟩
    rw [hread, Prod.mk.injEq, Except.ok.injEq, Prod.mk.injEq] at hread'
    rw [hread'.1.1]
    exact ⟨c₀, c, hc₀, hacc⟩

/-- A failed restart and the file. The bytes stay, or the file was the image of
    some blocks with one to three bytes behind it and is now the image: the same
    blocks are in it, and a restart fails on it with the same error and leaves
    it alone. The bytes stay under every failure exactly when the blocks of such
    an image are accepted by the genesis chain. -/
theorem failed_load_file (disk : Option Bytes) (g : Genesis) :
    (∀ e disk', loadBlockchainFromDisk disk g = (.error e, disk') → disk' = disk ∨
      ∃ bs format img tail, bs ≠ [] ∧ image format bs = some img ∧ disk = some (img ++ tail) ∧
        1 ≤ tail.length ∧ tail.length ≤ 3 ∧ disk' = some img ∧ readAllBlocks disk' = .ok bs ∧
        loadBlockchainFromDisk disk' g = (.error e, disk')) ∧
    ((∀ e disk', loadBlockchainFromDisk disk g = (.error e, disk') → disk' = disk) ↔
      ∀ bs format img tail, bs ≠ [] → image format bs = some img → disk = some (img ++ tail) →
        1 ≤ tail.length → tail.length ≤ 3 →
        ∃ c₀ c, Blockchain.fromGenesis g = .ok c₀ ∧ Accepted c₀ bs c) := by
  refine ⟨fun e disk' => load_error_cases, ?_, ?_⟩
  · intro hkeep bs format img tail hb himage hdisk hpos hthree
    have hread := repairing_true_iff.mpr ⟨hb, format, img, tail, himage, rfl, hpos, hthree, rfl⟩
    rw [← hdisk] at hread
    exact accepted_of_load_keeps hkeep hdisk hpos hread
  · intro haccepted e disk' h
    rcases load_error_cases h with hkeep | ⟨bs, format, img, tail, hb, himage, rfl, hpos, hthree,
      _⟩
    · exact hkeep
    · have hread := repairing_true_iff.mpr ⟨hb, format, img, tail, himage, rfl, hpos, hthree, rfl⟩
      rcases haccepted bs format img tail hb himage rfl hpos hthree with ⟨c₀, c, hc₀, hacc⟩
      rw [load_ok_iff.mpr ⟨bs, c₀, hread, hc₀, hacc⟩, Prod.mk.injEq] at h
      exact absurd h.1 (by simp only [reduceCtorEq, not_false_eq_true])

end Restart

namespace Sample

/-- The payload of the block with the payment. -/
def payload : Bytes :=
  (encodeBlock block).getD []

/-- A new store. -/
def freshStore : BlockStore :=
  { file := [], poisoned := false, format := .v2, v2MagicOnDisk := false }

theorem encodeBlock_block : encodeBlock block = some payload := by
  have hsome : (encodeBlock block).isSome = true := by decide +kernel
  rcases Option.isSome_iff_exists.mp hsome with ⟨p, hp⟩
  rw [payload, hp, Option.getD_some]

theorem payload_length : payload.length = 402 := by
  decide +kernel

theorem payload_small : payload.length ≤ maxFrameBytes := by
  rw [payload_length]
  decide

/-- The chain of a genesis that gives nobody anything. -/
def bare : Blockchain :=
  { blocks := [Block.genesis], state := State.new, consensus := .default }

theorem replay_bare : replayAll bare [block] =
    .error (.replay (.stateError "sender account missing")) := by
  have happend : (bare.appendBlock block).1 = .error (.stateError "sender account missing") := by
    decide +kernel
  rcases happ : bare.appendBlock block with ⟨result, c⟩
  rw [happ] at happend
  rw [replayAll, happ, show result = _ from happend]

/-- The file with the payment. -/
def stored : Bytes :=
  chainFileMagicV2 ++ frameBytes .v2 payload

theorem encodeFrame_block : encodeFrame .v2 block = some (frameBytes .v2 payload) :=
  encodeFrame_eq_some.mpr ⟨payload, encodeBlock_block, payload_small, rfl⟩

theorem image_block : image .v2 [block] = some stored := by
  refine image_eq_some.mpr ⟨frameBytes .v2 payload, ?_, rfl⟩
  exact writeAll_cons_iff.mpr ⟨_, [], encodeFrame_block, rfl, (List.append_nil _).symm⟩

/-- The block after the one with the payment, and its payload. -/
def nextBlock : Block :=
  Blockchain.sealedBlock block 0 []

/-- The payload of that block. -/
def nextPayload : Bytes :=
  (encodeBlock nextBlock).getD []

theorem encodeBlock_nextBlock : encodeBlock nextBlock = some nextPayload := by
  have hsome : (encodeBlock nextBlock).isSome = true := by decide
  rcases Option.isSome_iff_exists.mp hsome with ⟨p, hp⟩
  rw [nextPayload, hp, Option.getD_some]

theorem nextPayload_small : nextPayload.length ≤ maxFrameBytes := by decide

/-- A file with both blocks, cut two bytes behind the first frame, is a file that a
    restart accepts. -/
theorem load_truncated_behind_frame :
    ∃ found, (loadBlockchainFromDisk (some
      (((freshStore.written payload).written nextPayload).file.take (stored.length + 2)))
        genesis).1 = .ok found := by
  rcases happ : chain.appendBlock nextBlock with ⟨r, c⟩
  have hnext : (chain.appendBlock nextBlock).1 = .ok () := by decide +kernel
  rw [happ] at hnext
  have hacc : Accepted start [block, nextBlock] c :=
    .cons appendBlock_chain (.cons (happ.trans (Prod.ext hnext rfl)) (.nil _))
  have hwritten : Appended freshStore [block, nextBlock]
      ((freshStore.written payload).written nextPayload) :=
    .cons .succeeds (BlockStore.appendBlock_succeeds rfl encodeBlock_block payload_small)
      (.cons .succeeds (BlockStore.appendBlock_succeeds rfl encodeBlock_nextBlock
        nextPayload_small) (.nil _))
  -- The cut is inside the second frame.
  have hlength : stored.length + 2 ≤
      ((freshStore.written payload).written nextPayload).file.length := by
    change stored.length + 2 ≤ (stored ++ frameBytes .v2 nextPayload).length
    rw [List.length_append, frameBytes, List.length_append, beBytes_length]
    omega
  exact (load_truncated fromGenesisWithConsensus_start hacc
    (rfl : (none : Option Bytes).getD [] = []) rfl hwritten hlength).1.mpr
      (Or.inr (Or.inr ⟨1, stored, le_rfl, by decide, image_block, by omega, by omega⟩))

/-- The file with the payment and one byte behind it, and a genesis under which
    the payment is refused: the restart fails and the byte is gone. -/
theorem failed_load_cuts :
    loadBlockchainFromDisk (some (stored ++ [0])) Genesis.empty =
        (.error (.replay (.stateError "sender account missing")), some stored) ∧
      some stored ≠ some (stored ++ [0]) := by
  have hread : readAllBlocksRepairingTail (some (stored ++ [0])) =
      (.ok ([block], true), some stored) :=
    repairing_true_iff.mpr ⟨List.cons_ne_nil _ _, .v2, stored, [0], image_block, rfl, le_rfl,
      by decide, rfl⟩
  have hbare : chainFromGenesis Genesis.empty = .ok bare := rfl
  refine ⟨?_, ?_⟩
  · rw [load_of_read hread, hbare]
    simp only [bind, Except.bind, replay_bare, Except.map]
  · intro h
    have hlen := congrArg List.length (Option.some.inj h)
    rw [List.length_append, List.length_singleton] at hlen
    omega

end Sample

end Trilogicon
