import Mathlib.Data.Nat.Digits.Defs
import Trilogicon.Theory.Ledger

/-!
# What a Hash Determines

The texts that are hashed into transaction ids and block hashes can be taken
apart again, and so the hash of a tip determines the chain below it.

A payload starts with the sender, which is a digest and holds no `|`, and ends
in four numerals, which hold none either. Everything between the first `|` and
the fourth from the end is the receiver, whatever it contains. A header is read
from its other end: the transaction ids are 64 characters long, no numeral is,
so the first segment from the end that is not an id is the timestamp. The empty
list of ids leaves an empty last segment, which is no id.

Walking down two chains from one hash, equal hashes give equal headers, equal
headers give equal ids and equal hashes one block below, and the walk ends on
both sides at the genesis block together: its hash is a word of twelve
characters and no digest.

## Main definitions

* `Transaction.terms`: The fields a payload lists.
* `Agree`: Two blocks carry the same header and the same transfers.
* `Hashed`: The texts hashed for a chain.
* `CollisionFree`: The hash is injective on some texts.

## Theorems

* `unsignedPayload_inj`: A payload determines its terms.
* `payload_authorises_one`: One transfer for a payload.
* `headerPreimage_inj`: A header determines its fields.
* `header_read_once`: So it does for blocks that pass their checks.
* `linked_agree`: Chains with equal tip hashes agree block by block.
* `tip_hash_determines_ledger`: They also have equal account tables.
-/

namespace Trilogicon

/-- The fields a payload lists. -/
def Transaction.terms (tx : Transaction) :
    Address × Address × UInt64 × UInt64 × UInt64 × UInt64 :=
  (tx.sender, tx.receiver, tx.amount, tx.fee, tx.nonce, tx.timestampUnix)

/-- A numeral of a word, as characters. -/
def numeral (n : UInt64) : List Char :=
  n.toNat.repr.toList

theorem numeral_inj {m n : UInt64} (h : numeral m = numeral n) : m = n :=
  UInt64.toNat_inj.mp (repr_toList_inj h)

theorem notMem_numeral (n : UInt64) : '|' ∉ numeral n :=
  notMem_repr n.toNat (by decide)

theorem numeral_length_lt (n : UInt64) : (numeral n).length < 64 := by
  have hlt : n.toNat < 10 ^ 20 := lt_of_lt_of_le n.toNat_lt (by norm_num)
  have hlen := Nat.repr_length n.toNat 20 (by decide) hlt
  rw [numeral, String.length_toList]
  omega

theorem unsignedPayload_toList (tx : Transaction) :
    tx.unsignedPayload.toList = tx.sender.value.toList ++ '|' ::
      ((((tx.receiver.value.toList ++ '|' :: numeral tx.amount) ++ '|' :: numeral tx.fee) ++
        '|' :: numeral tx.nonce) ++ '|' :: numeral tx.timestampUnix) := by
  have hsep : "|".toList = ['|'] := by decide
  simp only [Transaction.unsignedPayload, String.toList_append, hsep, numeral, List.append_assoc,
    List.cons_append, List.nil_append]

/-- A payload determines its terms, when the senders hold no `|`. -/
theorem unsignedPayload_inj {t u : Transaction} (ht : '|' ∉ t.sender.value.toList)
    (hu : '|' ∉ u.sender.value.toList) (h : t.unsignedPayloadBytes = u.unsignedPayloadBytes) :
    t.terms = u.terms := by
  have hlist : t.unsignedPayload.toList = u.unsignedPayload.toList :=
    congrArg String.toList (utf8_inj.mp h)
  rw [unsignedPayload_toList, unsignedPayload_toList] at hlist
  -- The sender comes off the front, the numerals off the end.
  rcases append_sep_inj_left ht hu hlist with ⟨hsender, hrest⟩
  rcases append_sep_inj_right (notMem_numeral _) (notMem_numeral _) hrest with ⟨hrest, htime⟩
  rcases append_sep_inj_right (notMem_numeral _) (notMem_numeral _) hrest with ⟨hrest, hnonce⟩
  rcases append_sep_inj_right (notMem_numeral _) (notMem_numeral _) hrest with ⟨hrest, hfee⟩
  rcases append_sep_inj_right (notMem_numeral _) (notMem_numeral _) hrest with ⟨hrecv, hamount⟩
  have hs : t.sender = u.sender := congrArg Address.mk (String.toList_inj.mp hsender)
  have hr : t.receiver = u.receiver := congrArg Address.mk (String.toList_inj.mp hrecv)
  rw [Transaction.terms, Transaction.terms, hs, hr, numeral_inj hamount, numeral_inj hfee,
    numeral_inj hnonce, numeral_inj htime]

/-- The transaction ids of a block, as characters. -/
def Block.txIds (b : Block) : List (List Char) :=
  b.transactions.map fun t => t.txHash.toList

/-- Lists of ids are equal when they are as characters. -/
theorem txHashes_of_txIds {a b : Block} (h : a.txIds = b.txIds) :
    a.transactions.map Transaction.txHash = b.transactions.map Transaction.txHash := by
  have hchars : ∀ c : Block,
      c.txIds = (c.transactions.map Transaction.txHash).map String.toList := by
    intro c
    rw [List.map_map]
    rfl
  rw [hchars, hchars] at h
  exact List.map_injective_iff.mpr (fun _ _ => String.toList_inj.mp) h

theorem headerPreimage_toList (b : Block) :
    b.headerPreimage.toList = numeral b.height ++ '|' ::
      ((b.previousHash.toList ++ '|' :: numeral b.timestampUnix) ++ '|' ::
        joinWith '|' b.txIds) := by
  have hsep : "|".toList = ['|'] := by decide
  simp only [Block.headerPreimage, Block.joinedTxHashes, Block.txIds, String.toList_append, hsep,
    numeral, String.toList_ofList, List.append_assoc, List.cons_append, List.nil_append]

/-- The part of a header after the height determines its fields. -/
theorem header_tail_inj {xs ys u v : List Char} {ps qs : List (List Char)}
    (hps : ∀ p ∈ ps, p.length = 64 ∧ '|' ∉ p) (hqs : ∀ q ∈ qs, q.length = 64 ∧ '|' ∉ q)
    (hu : u.length ≠ 64 ∧ '|' ∉ u) (hv : v.length ≠ 64 ∧ '|' ∉ v)
    (h : (xs ++ '|' :: u) ++ '|' :: joinWith '|' ps = (ys ++ '|' :: v) ++ '|' :: joinWith '|' qs) :
    xs = ys ∧ u = v ∧ ps = qs := by
  -- A last segment that is an id cannot be the empty one an empty list leaves.
  have hempty : ∀ (zs ws : List Char) (rs : List (List Char)),
      (∀ r ∈ rs, r.length = 64 ∧ '|' ∉ r) → rs ≠ [] →
      zs ++ ['|'] ≠ ws ++ sepEach '|' rs := by
    intro zs ws rs hrs hne heq
    rcases List.eq_nil_or_concat rs with rfl | ⟨rs', r, rfl⟩
    · exact hne rfl
    · rw [List.concat_eq_append] at heq hrs
      have hr := hrs r (List.mem_append_right _ List.mem_cons_self)
      rw [append_sepEach_snoc] at heq
      have hnil := (append_sep_inj_right List.not_mem_nil hr.2 heq).2
      rw [← hnil] at hr
      exact absurd hr.1 (by decide)
  by_cases hp : ps = []
  · by_cases hq : qs = []
    · rw [hp, hq] at h
      rcases append_sep_inj_right List.not_mem_nil List.not_mem_nil h with ⟨hrest, _⟩
      rcases append_sep_inj_right hu.2 hv.2 hrest with ⟨hxy, huv⟩
      exact ⟨hxy, huv, by rw [hp, hq]⟩
    · rw [hp, cons_joinWith hq] at h
      exact absurd h (hempty _ _ qs hqs hq)
  · by_cases hq : qs = []
    · rw [hq, cons_joinWith hp] at h
      exact absurd h.symm (hempty _ _ ps hps hp)
    · rw [cons_joinWith hp, cons_joinWith hq] at h
      exact sepEach_inj (P := fun p => p.length = 64) hps hqs hu hv h

/-- Two blocks carry the same header and the same transfers. Their signatures
    and keys may differ: no hash covers those. -/
structure Agree (a b : Block) : Prop where
  height : a.height = b.height
  previousHash : a.previousHash = b.previousHash
  timestampUnix : a.timestampUnix = b.timestampUnix
  terms : a.transactions.map Transaction.terms = b.transactions.map Transaction.terms

/-- The texts hashed for the blocks above the genesis block. -/
def Hashed (blocks : List Block) (p : Bytes) : Prop :=
  ∃ b ∈ blocks.drop 1, p = b.headerPreimageBytes ∨
    ∃ tx ∈ b.transactions, p = tx.unsignedPayloadBytes

theorem Hashed.of_prefix {pre post : List Block} {p : Bytes} (hne : pre ≠ [])
    (h : Hashed pre p) : Hashed (pre ++ post) p := by
  rcases h with ⟨b, hb, hp⟩
  refine ⟨b, ?_, hp⟩
  rw [List.drop_append_of_le_length (List.length_pos_iff.mpr hne)]
  exact List.mem_append_left _ hb

theorem mem_drop_one_snoc {pre : List Block} {b : Block} (hne : pre ≠ []) :
    b ∈ (pre ++ [b]).drop 1 := by
  rw [List.drop_append_of_le_length (List.length_pos_iff.mpr hne)]
  exact List.mem_append_right _ List.mem_cons_self

theorem terms_flatMap_of_agree {bs cs : List Block} (h : List.Forall₂ Agree bs cs) :
    (bs.flatMap Block.transactions).map Transaction.terms =
      (cs.flatMap Block.transactions).map Transaction.terms := by
  induction h with
  | nil => rfl
  | cons hab _ ih =>
      rw [List.flatMap_cons, List.flatMap_cons, List.map_append, List.map_append, hab.terms, ih]

/-- Chains that agree block by block carry the same transfers. -/
theorem transfers_of_agree {c d : Blockchain} (h : List.Forall₂ Agree c.blocks d.blocks) :
    c.transfers = d.transfers := by
  -- A transfer only reads the terms of its transaction.
  have hread : ∀ e : Blockchain, e.transfers = (e.committed.map Transaction.terms).map
      fun t => ⟨t.1, t.2.1, t.2.2.1.toNat, t.2.2.2.1.toNat, t.2.2.2.2.1.toNat⟩ := by
    intro e
    rw [List.map_map]
    rfl
  rw [hread, hread, Blockchain.committed, Blockchain.committed, terms_flatMap_of_agree h]

section Determined

variable [Primitives]

theorem Transaction.Valid.sender_plain {tx : Transaction} (h : tx.Valid) :
    '|' ∉ tx.sender.value.toList := by
  rw [h.bound]
  exact Crypto.hashBytes_notMem _ (by decide)

/-- A sender that is bound to its key is a digest, whatever else is wrong with
    the transaction. -/
theorem sender_plain_of_binding {tx : Transaction} (h : tx.validateSenderBinding = .ok ()) :
    '|' ∉ tx.sender.value.toList := by
  unfold Transaction.validateSenderBinding at h
  rw [ite_error_ok_iff, not_not] at h
  rw [h.1]
  exact Crypto.hashBytes_notMem _ (by decide)

/-- Only one transfer has a given payload, among those whose sender is bound to
    a key. So a signature of the payload authorises this transfer only. -/
theorem payload_authorises_one (t u : Transaction) (ht : t.validateSenderBinding = .ok ())
    (hu : u.validateSenderBinding = .ok ())
    (h : t.unsignedPayloadBytes = u.unsignedPayloadBytes) :
    t.sender = u.sender ∧ t.receiver = u.receiver ∧ t.amount = u.amount ∧ t.fee = u.fee ∧
      t.nonce = u.nonce ∧ t.timestampUnix = u.timestampUnix := by
  have hterms := unsignedPayload_inj (sender_plain_of_binding ht) (sender_plain_of_binding hu) h
  simp only [Transaction.terms, Prod.mk.injEq] at hterms
  exact hterms

theorem txIds_kind {b : Block} (h : ∀ tx ∈ b.transactions, tx.Valid) :
    ∀ p ∈ b.txIds, p.length = 64 ∧ '|' ∉ p := by
  intro p hp
  rcases List.mem_map.mp hp with ⟨tx, htx, rfl⟩
  rw [(h tx htx).hash]
  exact ⟨Crypto.hashBytes_length _, Crypto.hashBytes_notMem _ (by decide)⟩

/-- A header determines its fields. The previous hash may be any text. -/
theorem headerPreimage_inj {a b : Block} (ha : ∀ tx ∈ a.transactions, tx.Valid)
    (hb : ∀ tx ∈ b.transactions, tx.Valid)
    (h : a.headerPreimageBytes = b.headerPreimageBytes) :
    a.height = b.height ∧ a.previousHash = b.previousHash ∧
      a.timestampUnix = b.timestampUnix ∧ a.txIds = b.txIds := by
  have hlist : a.headerPreimage.toList = b.headerPreimage.toList :=
    congrArg String.toList (utf8_inj.mp h)
  rw [headerPreimage_toList, headerPreimage_toList] at hlist
  rcases append_sep_inj_left (notMem_numeral _) (notMem_numeral _) hlist with ⟨hheight, hrest⟩
  have hnum : ∀ n : UInt64, (numeral n).length ≠ 64 ∧ '|' ∉ numeral n :=
    fun n => ⟨(numeral_length_lt n).ne, notMem_numeral n⟩
  rcases header_tail_inj (txIds_kind ha) (txIds_kind hb) (hnum _) (hnum _) hrest with
    ⟨hprev, htime, hids⟩
  exact ⟨numeral_inj hheight, String.toList_inj.mp hprev, numeral_inj htime, hids⟩

/-- A header of blocks that pass their checks is read in one way. The ids are
    digests; of the previous hash the checks ask only that it is not blank. -/
theorem header_read_once (a b : Block) (ha : a.isGenesis = false) (hb : b.isGenesis = false)
    (hav : a.basicValidate = .ok ()) (hbv : b.basicValidate = .ok ())
    (h : a.headerPreimageBytes = b.headerPreimageBytes) :
    (∀ tx ∈ a.transactions, tx.txHash.toList.length = 64 ∧
      ∀ c ∈ tx.txHash.toList, isHexChar c = true) ∧
    a.height = b.height ∧ a.previousHash = b.previousHash ∧ a.timestampUnix = b.timestampUnix ∧
      a.transactions.map Transaction.txHash = b.transactions.map Transaction.txHash := by
  have hvalid : ∀ c : Block, c.isGenesis = false → c.basicValidate = .ok () → c.Valid := by
    intro c hc hcv
    rw [Block.isGenesis, beq_eq_false_iff_ne] at hc
    exact (Block.basicValidate_ok_iff_of_height c hc).mp hcv
  have hva := (hvalid a ha hav).transactions_valid
  rcases headerPreimage_inj hva (hvalid b hb hbv).transactions_valid h with
    ⟨hheight, hprev, htime, hids⟩
  refine ⟨?_, hheight, hprev, htime, txHashes_of_txIds hids⟩
  intro tx htx
  rw [(hva tx htx).hash]
  exact ⟨Crypto.hashBytes_length _, Crypto.hashBytes_isHex _⟩

/-- The hash is injective on the texts of `S`. -/
def CollisionFree (S : Bytes → Prop) : Prop :=
  ∀ p q, S p → S q → Crypto.hashBytes p = Crypto.hashBytes q → p = q

/-- The genesis hash is no digest. -/
theorem genesisHash_ne (p : Bytes) : Block.genesis.blockHash ≠ Crypto.hashBytes p := by
  intro hc
  have hlen := Crypto.hashBytes_length p
  rw [← hc] at hlen
  exact absurd hlen (by decide)

/-- Payloads with equal ids list equal terms, transaction by transaction. -/
theorem terms_of_txIds {txs us : List Transaction} (ht : ∀ tx ∈ txs, tx.Valid)
    (hu : ∀ tx ∈ us, tx.Valid) {S : Bytes → Prop} (hS : CollisionFree S)
    (htS : ∀ tx ∈ txs, S tx.unsignedPayloadBytes) (huS : ∀ tx ∈ us, S tx.unsignedPayloadBytes)
    (h : txs.map (fun t => t.txHash.toList) = us.map (fun t => t.txHash.toList)) :
    txs.map Transaction.terms = us.map Transaction.terms := by
  induction txs generalizing us with
  | nil =>
      rw [List.map_nil, eq_comm, List.map_eq_nil_iff] at h
      rw [h]
  | cons t txs ih =>
      cases us with
      | nil => exact absurd h (by simp only [List.map_cons, List.map_nil, reduceCtorEq,
          not_false_eq_true])
      | cons u us =>
          rw [List.forall_mem_cons] at ht hu htS huS
          rw [List.map_cons, List.map_cons, List.cons.injEq] at h
          -- The id of a valid transaction is the hash of its payload.
          have hhash : Crypto.hashBytes t.unsignedPayloadBytes =
              Crypto.hashBytes u.unsignedPayloadBytes := by
            rw [← ht.1.hash, ← hu.1.hash]
            exact String.toList_inj.mp h.1
          have hpay := hS _ _ htS.1 huS.1 hhash
          rw [List.map_cons, List.map_cons, ih ht.2 hu.2 htS.2 huS.2 h.2,
            unsignedPayload_inj ht.1.sender_plain hu.1.sender_plain hpay]

/-- Blocks with equal hashes agree, and so do the hashes one block below. -/
theorem agree_of_hash {a b : Block} (ha : a.Valid) (hb : b.Valid) {S : Bytes → Prop}
    (hS : CollisionFree S) (haS : S a.headerPreimageBytes) (hbS : S b.headerPreimageBytes)
    (hat : ∀ tx ∈ a.transactions, S tx.unsignedPayloadBytes)
    (hbt : ∀ tx ∈ b.transactions, S tx.unsignedPayloadBytes)
    (h : a.blockHash = b.blockHash) : Agree a b := by
  rw [ha.hash, hb.hash] at h
  have hpre := hS _ _ haS hbS h
  rcases headerPreimage_inj ha.transactions_valid hb.transactions_valid hpre with
    ⟨hheight, hprev, htime, hids⟩
  exact ⟨hheight, hprev, htime,
    terms_of_txIds ha.transactions_valid hb.transactions_valid hS hat hbt hids⟩

/-- Chains with equal tip hashes agree block by block. -/
theorem linked_agree {bs cs : List Block} (hb : Linked bs) (hc : Linked cs)
    {S : Bytes → Prop} (hS : CollisionFree S) (hbS : ∀ p, Hashed bs p → S p)
    (hcS : ∀ p, Hashed cs p → S p)
    (h : bs.getLast?.map Block.blockHash = cs.getLast?.map Block.blockHash) :
    List.Forall₂ Agree bs cs := by
  -- The induction takes the tips off both chains at once. Where one chain is
  -- down to the genesis block, the other is as well, by its hash.
  induction bs using List.reverseRecOn generalizing cs with
  | nil => exact absurd rfl hb.ne_nil
  | append_singleton pre b ih =>
      rcases List.eq_nil_or_concat cs with rfl | ⟨qre, c, rfl⟩
      · exact absurd rfl hc.ne_nil
      · rw [List.concat_eq_append] at hc hcS h ⊢
        rw [List.getLast?_concat, List.getLast?_concat, Option.map_some, Option.map_some,
          Option.some.injEq] at h
        have hgen : ∀ {d : Block}, Linked ([] ++ [d]) → d = Block.genesis := by
          intro d hd
          exact Option.some.inj hd.head
        by_cases hp : pre = []
        · subst hp
          by_cases hq : qre = []
          · subst hq
            rw [hgen hb, hgen hc]
            exact List.Forall₂.cons ⟨rfl, rfl, rfl, rfl⟩ List.Forall₂.nil
          · rcases hc.last_follows hq with ⟨_, _, hfol⟩
            rw [hgen hb, hfol.valid.hash] at h
            exact absurd h (genesisHash_ne _)
        · rcases hb.last_follows hp with ⟨tip, htip, hfol⟩
          by_cases hq : qre = []
          · subst hq
            rw [hgen hc, hfol.valid.hash] at h
            exact absurd h.symm (genesisHash_ne _)
          · rcases hc.last_follows hq with ⟨tip', htip', hfol'⟩
            -- The headers agree by the hash, and so name the same parent.
            have hagree : Agree b c := by
              refine agree_of_hash hfol.valid hfol'.valid hS ?_ ?_ ?_ ?_ h
              · exact hbS _ ⟨b, mem_drop_one_snoc hp, Or.inl rfl⟩
              · exact hcS _ ⟨c, mem_drop_one_snoc hq, Or.inl rfl⟩
              · exact fun tx htx => hbS _ ⟨b, mem_drop_one_snoc hp, Or.inr ⟨tx, htx, rfl⟩⟩
              · exact fun tx htx => hcS _ ⟨c, mem_drop_one_snoc hq, Or.inr ⟨tx, htx, rfl⟩⟩
            have hbelow : pre.getLast?.map Block.blockHash = qre.getLast?.map Block.blockHash := by
              rw [htip, htip', Option.map_some, Option.map_some, ← hfol.previous,
                ← hfol'.previous, hagree.previousHash]
            have hrest := ih (hb.of_prefix (List.prefix_append _ _) hp)
              (hc.of_prefix (List.prefix_append _ _) hq) (fun p hh => hbS p (hh.of_prefix hp))
              (fun p hh => hcS p (hh.of_prefix hq)) hbelow
            exact List.rel_append hrest (List.Forall₂.cons hagree List.Forall₂.nil)

/-- The hash of a tip determines the chain below it: its length, every header,
    every transfer, and the account table. -/
theorem tip_hash_determines_ledger (g : Genesis) (c d : Blockchain) (hc : Reachable g c)
    (hd : Reachable g d) (hfree : CollisionFree fun p => Hashed c.blocks p ∨ Hashed d.blocks p)
    (htip : c.blocks.getLast?.map Block.blockHash = d.blocks.getLast?.map Block.blockHash) :
    c.blocks.length = d.blocks.length ∧
      (∀ (i : Nat) (a b : Block), c.blocks[i]? = some a → d.blocks[i]? = some b → Agree a b) ∧
      c.state = d.state := by
  have hagree : List.Forall₂ Agree c.blocks d.blocks :=
    linked_agree hc.sound.linked hd.sound.linked hfree (fun p => Or.inl) (fun p => Or.inr) htip
  refine ⟨hagree.length_eq, ?_, ?_⟩
  · intro i a b ha hb
    rcases List.getElem?_eq_some_iff.mp ha with ⟨hi, rfl⟩
    rcases List.getElem?_eq_some_iff.mp hb with ⟨hj, rfl⟩
    exact hagree.get hi hj
  · -- Both tables are the genesis table with the same transfers posted.
    rcases hc.sound.book_eq with ⟨s₀, hg, _, hpost⟩
    rcases hd.sound.book_eq with ⟨s₀', hg', _, hpost'⟩
    rw [hg, Except.ok.injEq] at hg'
    apply State.book_inj
    rw [hpost, hpost', ← hg', transfers_of_agree hagree]

end Determined

/-! ### Two chains with one tip hash -/

namespace Sample

/-- A payment whose receiver looks like the fields behind it. -/
def delimited : Transaction :=
  { payment with receiver := ⟨"r|5|1"⟩ }

/-- The payload of that payment, signed in two ways, is for one receiver. -/
theorem delimited_authorised :
    delimited.receiver = { delimited with signature := List.replicate 64 1 }.receiver ∧
      delimited.amount = { delimited with signature := List.replicate 64 1 }.amount := by
  have h := payload_authorises_one delimited { delimited with signature := List.replicate 64 1 }
    (by decide) (by decide) rfl
  exact ⟨h.2.1, h.2.2.1⟩

/-- Without the check of the sender the bar could be moved. -/
example : { payment with sender := ⟨"a|b"⟩, receiver := ⟨"c"⟩ }.unsignedPayload =
    { payment with sender := ⟨"a"⟩, receiver := ⟨"b|c"⟩ }.unsignedPayload := by
  decide

/-- The sample block with another signature on its payment. -/
def resignedBlock : Block :=
  { block with transactions := [{ payment with signature := List.replicate 64 1 }] }

/-- The chain with that block. -/
def resignedChain : Blockchain :=
  (start.appendBlock resignedBlock).2

theorem appendBlock_resigned : start.appendBlock resignedBlock = (.ok (), resignedChain) := by
  have hok : (start.appendBlock resignedBlock).1 = .ok () := by decide +kernel
  rw [← Prod.mk.eta (p := start.appendBlock resignedBlock), hok, resignedChain]

/-- The payments of an accepted block pass their checks. -/
theorem valid_of_appended {c : Blockchain} {b : Block} {tx : Transaction}
    (h : start.appendBlock b = (.ok (), c)) (hb : b.height ≠ 0) (htx : tx ∈ b.transactions) :
    tx.Valid := by
  have hvalid := ((Blockchain.appendBlock_ok_iff start c b).mp h).1
  exact ((Block.basicValidate_ok_iff_of_height b hb).mp hvalid).transactions_valid tx htx

/-- A block whose previous hash looks like the fields around it, with a payment
    signed in some way. -/
def barred (signature : Bytes) : Block :=
  Blockchain.sealedBlock { Block.genesis with blockHash := "GENESIS_HASH|7" } 0
    [{ payment with signature := signature }]

theorem barred_accepted {signature : Bytes} (h : { payment with signature := signature }.Valid) :
    (barred signature).basicValidate = .ok () := by
  have hheight : (barred signature).height ≠ 0 := by
    change (1 : UInt64) ≠ 0
    decide
  have hprev : trim "GENESIS_HASH|7" ≠ "" := by decide
  refine (Block.basicValidate_ok_iff_of_height _ hheight).mpr
    ⟨hprev, List.nodup_singleton _, ?_, Blockchain.sealedBlock_hash _ _ _⟩
  intro tx htx
  rw [List.mem_singleton.mp htx]
  exact h

/-- Two such blocks differ, and have one header. -/
theorem header_read_barred :
    barred payment.signature ≠ barred (List.replicate 64 1) ∧
      (barred payment.signature).previousHash = (barred (List.replicate 64 1)).previousHash := by
  refine ⟨?_, (header_read_once (barred payment.signature) (barred (List.replicate 64 1))
    rfl rfl
    (barred_accepted (valid_of_appended appendBlock_chain (by decide) List.mem_cons_self))
    (barred_accepted (valid_of_appended appendBlock_resigned (by decide) List.mem_cons_self))
    rfl).2.2.1⟩
  intro hc
  have hsigned := congrArg (fun b => b.transactions.map Transaction.signature) hc
  exact absurd hsigned (by decide)

/-- Without the check of the ids the end of the previous hash could be moved. -/
example : { block with
      previousHash := "p", timestampUnix := 5,
      transactions := [{ payment with txHash := "6" }, { payment with txHash := "" }]
      }.headerPreimage =
    { block with
      previousHash := "p|5", timestampUnix := 6, transactions := [] }.headerPreimage := by
  decide

theorem blocks_resigned : resignedChain.blocks = [Block.genesis, resignedBlock] := by
  rcases (Blockchain.appendBlock_ok_iff start resignedChain resignedBlock).mp
    appendBlock_resigned with ⟨_, _, _, _, _, _, _, _, hchain⟩
  rw [hchain]
  rfl

theorem reachable_resigned : Reachable genesis resignedChain := by
  refine ⟨.default, start, [.append resignedBlock], ?_, ?_⟩
  · rw [Blockchain.fromGenesisWithConsensus, fromGenesis_start]
    rfl
  · rw [List.foldl_cons, List.foldl_nil, ChainOp.run, resignedChain]

/-- Only one header and one payload are hashed for the two chains. -/
theorem collisionFree_samples :
    CollisionFree fun p => Hashed chain.blocks p ∨ Hashed resignedChain.blocks p := by
  -- Everything that is hashed for either chain is one of two texts.
  have htexts : ∀ p, (Hashed chain.blocks p ∨ Hashed resignedChain.blocks p) →
      p = block.headerPreimageBytes ∨ p = payment.unsignedPayloadBytes := by
    intro p hp
    simp only [Hashed, blocks_chain, blocks_resigned, List.drop_one, List.tail_cons,
      List.mem_singleton, exists_eq_left] at hp
    rcases hp with (rfl | ⟨tx, htx, rfl⟩) | (rfl | ⟨tx, htx, rfl⟩)
    · exact Or.inl rfl
    · rw [List.mem_singleton.mp htx]
      exact Or.inr rfl
    · exact Or.inl rfl
    · rw [List.mem_singleton.mp htx]
      exact Or.inr rfl
  have hne : Crypto.hashBytes block.headerPreimageBytes ≠
      Crypto.hashBytes payment.unsignedPayloadBytes := by decide
  intro p q hp hq heq
  rcases htexts p hp with rfl | rfl
  · rcases htexts q hq with rfl | rfl
    · rfl
    · exact absurd heq hne
  · rcases htexts q hq with rfl | rfl
    · exact absurd heq.symm hne
    · rfl

/-- The two sample chains differ, have one tip hash, and have one table. -/
theorem tip_hash_determines_samples :
    chain.blocks ≠ resignedChain.blocks ∧ chain.state = resignedChain.state := by
  refine ⟨?_, (tip_hash_determines_ledger genesis chain resignedChain reachable_chain
    reachable_resigned collisionFree_samples ?_).2.2⟩
  · rw [blocks_chain, blocks_resigned]
    decide
  · rw [blocks_chain, blocks_resigned]
    rfl

end Sample

end Trilogicon
