import Mathlib.Data.Finset.Sort
import Trilogicon.Core.Genesis
import Trilogicon.Lib.Book

/-!
# The Account Table

`state.rs`: the table of accounts and how one transaction changes it.

Every account is stored under its own address; the structure carries that, so
a table is determined by which addresses it holds and by their balances and
nonces. Those three are its `book`, and `applyTransaction` is posting a
transfer to the book: it succeeds exactly when the transaction is valid, the
book admits the transfer and the posted book fits machine words.

## Main definitions

* `State`: The account table.
* `State.fromGenesis`: The table at height zero.
* `State.applyTransaction`: Apply one transfer.
* `State.applyAll`: Apply transfers in order, stopping at the first failure.
* `State.accountsSorted`: The accounts in the order of their addresses.
* `State.totalBalanceSum`: The sum of all balances, if it is a machine word.
* `State.book`: The table read as an account book.
* `Transaction.transfer`: A transaction read as a transfer.

## Theorems

* `book_inj`: A table is determined by its book.
* `applyTransaction_ok_iff`: Applying a transaction is posting its transfer.
* `applyTransaction_keeps`: A failed transaction changes nothing.
* `applyAll_ok`: Applying transactions in order posts their transfers.
* `totalBalanceSum_ok_iff`: The sum is the supply of the book.
-/

namespace Trilogicon

/-- `state::State`: accounts by address, each stored under its own. -/
structure State where
  accounts : Finmap (fun _ : Address => Account)
  keyed : ∀ a acc, accounts.lookup a = some acc → acc.address = a

/-- A transaction read as a transfer. -/
def Transaction.transfer (tx : Transaction) : Transfer Address where
  sender := tx.sender
  receiver := tx.receiver
  amount := tx.amount.toNat
  fee := tx.fee.toNat
  nonce := tx.nonce.toNat

namespace State

theorem ext_accounts {s t : State} (h : s.accounts = t.accounts) : s = t := by
  cases s
  cases t
  cases h
  rfl

instance : DecidableEq State := fun s t =>
  if h : s.accounts = t.accounts then .isTrue (ext_accounts h)
  else .isFalse fun hst => h (hst ▸ rfl)

/-- `State::new`. -/
def new : State :=
  { accounts := ∅, keyed := fun _ _ h => by simp only [Finmap.lookup_empty, reduceCtorEq] at h }

/-- Write an account under its own address. -/
def put (s : State) (acc : Account) : State where
  accounts := s.accounts.insert acc.address acc
  keyed := by
    intro a acc' h
    by_cases ha : a = acc.address
    · rw [ha, Finmap.lookup_insert, Option.some.injEq] at h
      rw [ha, ← h]
    · rw [Finmap.lookup_insert_of_ne _ ha] at h
      exact s.keyed a acc' h

/-- `State::get_account`. -/
def getAccount (s : State) (a : Address) : Option Account :=
  s.accounts.lookup a

/-- The insertion loop of `from_genesis`. -/
def insertPairs (s : State) (ps : List (Address × UInt64)) : State :=
  ps.foldl (fun s p => s.put (Account.new p.1 p.2)) s

/-- `State::from_genesis`. -/
def fromGenesis (g : Genesis) : Except ProtocolError State := do
  let ps ← g.sortedPairs
  .ok (new.insertPairs ps)

/-- `State::apply_self_transfer`. -/
def applySelfTransfer (s : State) (tx : Transaction) : Except ProtocolError Unit × State :=
  okOr (checkedAdd tx.amount tx.fee) (.stateError "amount+fee overflow") s fun totalCost =>
  okOr (s.getAccount tx.sender) (.stateError "sender account missing") s fun acc =>
  if acc.nonce ≠ tx.nonce then (.error .invalidNonce, s)
  else if acc.balance < totalCost then (.error .insufficientBalance, s)
  else
    okOr ((checkedSub acc.balance totalCost).bind fun b => checkedAdd b tx.amount)
      (.stateError "balance update overflow") s fun newBalance =>
    okOr (checkedAdd acc.nonce 1) (.stateError "sender nonce overflow") s fun newNonce =>
    (.ok (), s.put { acc with balance := newBalance, nonce := newNonce })

/-- `State::apply_transaction` after the stateless checks, for two accounts. -/
def applyTransfer (s : State) (tx : Transaction) : Except ProtocolError Unit × State :=
  okOr (checkedAdd tx.amount tx.fee) (.stateError "amount+fee overflow") s fun totalCost =>
  okOr (s.getAccount tx.sender) (.stateError "sender account missing") s fun sender =>
  if sender.nonce ≠ tx.nonce then (.error .invalidNonce, s)
  else if sender.balance < totalCost then (.error .insufficientBalance, s)
  else
    okOr (checkedSub sender.balance totalCost) (.stateError "sender balance debit underflow") s
      fun newSenderBalance =>
    okOr (checkedAdd sender.nonce 1) (.stateError "sender nonce overflow") s fun newSenderNonce =>
    -- A receiver without an account starts from the amount itself.
    okOr (match s.getAccount tx.receiver with
        | some r => checkedAdd r.balance tx.amount
        | none => some tx.amount) (.stateError "receiver balance overflow") s
      fun newReceiverBalance =>
    let debited := s.put { sender with balance := newSenderBalance, nonce := newSenderNonce }
    let receiver := (debited.getAccount tx.receiver).getD (Account.new tx.receiver 0)
    (.ok (), debited.put { receiver with balance := newReceiverBalance })

section Apply

variable [Primitives]

/-- `State::apply_transaction`. -/
def applyTransaction (s : State) (tx : Transaction) : Except ProtocolError Unit × State :=
  attempt tx.basicValidate s fun _ =>
  if tx.sender = tx.receiver then s.applySelfTransfer tx else s.applyTransfer tx

/-- The loop `for tx in txs { state.apply_transaction(tx)?; }` over a local
    copy, which is dropped when a transaction fails. -/
def applyAll : State → List Transaction → Except ProtocolError State
  | s, [] => .ok s
  | s, tx :: txs =>
      match s.applyTransaction tx with
      | (.ok (), s') => applyAll s' txs
      | (.error e, _) => .error e

end Apply

/-! ### The table as a book -/

/-- The balance under an address, zero when there is no account. -/
def balance (s : State) (a : Address) : Nat :=
  ((s.getAccount a).map fun acc => acc.balance.toNat).getD 0

/-- The nonce under an address, zero when there is no account. -/
def nonce (s : State) (a : Address) : Nat :=
  ((s.getAccount a).map fun acc => acc.nonce.toNat).getD 0

/-- The table read as an account book. -/
def book (s : State) : Book Address where
  known := s.accounts.keys
  balance := s.balance
  nonce := s.nonce

theorem mem_known (s : State) (a : Address) :
    a ∈ s.book.known ↔ ∃ acc, s.getAccount a = some acc := by
  rw [book, Finmap.mem_keys, ← Finmap.lookup_isSome, Option.isSome_iff_exists, getAccount]

theorem balance_of_getAccount {s : State} {a : Address} {acc : Account}
    (h : s.getAccount a = some acc) : s.book.balance a = acc.balance.toNat := by
  simp only [book, balance, h, Option.map_some, Option.getD_some]

theorem nonce_of_getAccount {s : State} {a : Address} {acc : Account}
    (h : s.getAccount a = some acc) : s.book.nonce a = acc.nonce.toNat := by
  simp only [book, nonce, h, Option.map_some, Option.getD_some]

theorem balance_of_getAccount_none {s : State} {a : Address} (h : s.getAccount a = none) :
    s.book.balance a = 0 ∧ s.book.nonce a = 0 := by
  simp only [book, balance, nonce, h, Option.map_none, Option.getD_none, and_self]

theorem balance_lt (s : State) (a : Address) : s.book.balance a < 2 ^ 64 := by
  cases h : s.getAccount a with
  | none => exact (balance_of_getAccount_none h).1.trans_lt (by decide)
  | some acc => exact (balance_of_getAccount h).trans_lt acc.balance.toNat_lt

theorem nonce_lt (s : State) (a : Address) : s.book.nonce a < 2 ^ 64 := by
  cases h : s.getAccount a with
  | none => exact (balance_of_getAccount_none h).2.trans_lt (by decide)
  | some acc => exact (nonce_of_getAccount h).trans_lt acc.nonce.toNat_lt

theorem book_supported (s : State) : s.book.Supported := by
  intro a ha
  have hnone : s.getAccount a = none := by
    rw [mem_known, ← Option.isSome_iff_exists, Option.not_isSome_iff_eq_none] at ha
    exact ha
  exact (balance_of_getAccount_none hnone).1

/-- Two tables hold the same account under an address when its numbers are the
    same: addresses are no numbers, but every account is stored under its own. -/
theorem account_inj {s t : State} {a : Address} {acc acc' : Account}
    (hs : s.getAccount a = some acc) (ht : t.getAccount a = some acc')
    (hbal : acc.balance.toNat = acc'.balance.toNat) (hnon : acc.nonce.toNat = acc'.nonce.toNat) :
    acc = acc' := by
  have hadr : acc.address = acc'.address := by
    rw [s.keyed a acc hs, t.keyed a acc' ht]
  cases acc
  cases acc'
  simp only [Account.mk.injEq]
  exact ⟨hadr, UInt64.toNat_inj.mp hbal, UInt64.toNat_inj.mp hnon⟩

/-- A table is determined by its book. -/
theorem book_inj {s t : State} (h : s.book = t.book) : s = t := by
  apply ext_accounts
  apply Finmap.ext_lookup
  intro a
  have hknown : (∃ acc, s.getAccount a = some acc) ↔ ∃ acc, t.getAccount a = some acc := by
    rw [← mem_known, ← mem_known, h]
  cases hs : s.getAccount a with
  | none =>
      cases ht : t.getAccount a with
      | none => exact hs.trans ht.symm
      | some acc =>
          rcases hknown.mpr ⟨acc, ht⟩ with ⟨acc', hacc'⟩
          rw [hs] at hacc'
          exact absurd hacc' (by simp only [reduceCtorEq, not_false_eq_true])
  | some acc =>
      rcases hknown.mp ⟨acc, hs⟩ with ⟨acc', ht⟩
      have hbal : acc.balance.toNat = acc'.balance.toNat := by
        rw [← balance_of_getAccount hs, ← balance_of_getAccount ht, h]
      have hnon : acc.nonce.toNat = acc'.nonce.toNat := by
        rw [← nonce_of_getAccount hs, ← nonce_of_getAccount ht, h]
      have hacc : acc = acc' := account_inj hs ht hbal hnon
      exact hs.trans ((congrArg some hacc).trans ht.symm)

theorem getAccount_put (s : State) (acc : Account) (a : Address) :
    (s.put acc).getAccount a = if a = acc.address then some acc else s.getAccount a := by
  rw [getAccount, put]
  by_cases ha : a = acc.address
  · rw [if_pos ha, ha, Finmap.lookup_insert]
  · rw [if_neg ha, Finmap.lookup_insert_of_ne _ ha, getAccount]

theorem known_put (s : State) (acc : Account) :
    (s.put acc).book.known = insert acc.address s.book.known := by
  ext a
  rw [Finset.mem_insert, mem_known, mem_known, getAccount_put]
  by_cases ha : a = acc.address
  · simp only [ha, if_true, Option.some.injEq, exists_eq', true_or]
  · simp only [ha, if_false, false_or]

theorem balance_put (s : State) (acc : Account) (a : Address) :
    (s.put acc).book.balance a =
      if a = acc.address then acc.balance.toNat else s.book.balance a := by
  simp only [book, balance, getAccount_put]
  by_cases ha : a = acc.address
  · rw [if_pos ha, if_pos ha, Option.map_some, Option.getD_some]
  · rw [if_neg ha, if_neg ha]

theorem nonce_put (s : State) (acc : Account) (a : Address) :
    (s.put acc).book.nonce a = if a = acc.address then acc.nonce.toNat else s.book.nonce a := by
  simp only [book, nonce, getAccount_put]
  by_cases ha : a = acc.address
  · rw [if_pos ha, if_pos ha, Option.map_some, Option.getD_some]
  · rw [if_neg ha, if_neg ha]

/-! ### Applying is posting -/

theorem known_post (b : Book Address) (tx : Transaction) :
    (b.post tx.transfer).known = insert tx.receiver b.known := rfl

theorem balance_post (b : Book Address) (tx : Transaction) (a : Address) :
    (b.post tx.transfer).balance a =
      b.balance a - (if a = tx.sender then tx.amount.toNat + tx.fee.toNat else 0) +
        (if a = tx.receiver then tx.amount.toNat else 0) := rfl

theorem nonce_post (b : Book Address) (tx : Transaction) (a : Address) :
    (b.post tx.transfer).nonce a = b.nonce a + if a = tx.sender then 1 else 0 := rfl

theorem admits_iff (s : State) (tx : Transaction) :
    s.book.Admits tx.transfer ↔ ∃ acc, s.getAccount tx.sender = some acc ∧ acc.nonce = tx.nonce ∧
      tx.amount.toNat + tx.fee.toNat ≤ acc.balance.toNat := by
  constructor
  · intro h
    rcases (mem_known s tx.sender).mp h.known with ⟨acc, hacc⟩
    have hn := h.nonce
    have hf := h.funded
    simp only [Transaction.transfer, nonce_of_getAccount hacc] at hn
    simp only [Transaction.transfer, balance_of_getAccount hacc] at hf
    exact ⟨acc, hacc, UInt64.toNat_inj.mp hn, hf⟩
  · rintro ⟨acc, hacc, hn, hf⟩
    refine ⟨(mem_known s tx.sender).mpr ⟨acc, hacc⟩, ?_, ?_⟩
    · simp only [Transaction.transfer, nonce_of_getAccount hacc, hn]
    · simpa only [Transaction.transfer, balance_of_getAccount hacc] using hf

theorem applySelfTransfer_ok {s s' : State} {tx : Transaction} (hself : tx.sender = tx.receiver)
    (h : s.applySelfTransfer tx = (.ok (), s')) :
    s.book.Admits tx.transfer ∧ s'.book = s.book.post tx.transfer := by
  simp only [applySelfTransfer, okOr_ok_iff, ite_errorPair_iff, Prod.mk.injEq, true_and,
    Option.bind_eq_some_iff, checkedAdd_eq_some, checkedSub_eq_some] at h
  rcases h with ⟨cost, hcost, acc, hacc, hn, hf, bal, ⟨b, hsub, hbal⟩, non, hnon, rfl⟩
  have hadr : acc.address = tx.sender := s.keyed _ _ hacc
  have hfund : tx.amount.toNat + tx.fee.toNat ≤ acc.balance.toNat := by
    rw [UInt64.lt_iff_toNat_lt] at hf
    omega
  refine ⟨(admits_iff s tx).mpr ⟨acc, hacc, not_not.mp hn, hfund⟩, ?_⟩
  -- One account is written, and it is sender and receiver at once.
  apply Book.ext
  · rw [known_put, known_post, hadr, hself]
  · funext a
    rw [balance_put, balance_post, hadr, ← hself]
    by_cases ha : a = tx.sender
    · rw [if_pos ha, if_pos ha, if_pos ha, ha, balance_of_getAccount hacc]
      change bal.toNat = _
      omega
    · rw [if_neg ha, if_neg ha, if_neg ha, Nat.sub_zero, Nat.add_zero]
  · funext a
    rw [nonce_put, nonce_post, hadr]
    by_cases ha : a = tx.sender
    · rw [if_pos ha, if_pos ha, ha, nonce_of_getAccount hacc, ← hnon]
      rfl
    · rw [if_neg ha, if_neg ha, Nat.add_zero]

/-- The receiver's balance after a credit, whether or not it had an account. -/
theorem credit_eq_some {s : State} {r : Address} {amount bal : UInt64} :
    (match s.getAccount r with
      | some acc => checkedAdd acc.balance amount
      | none => some amount) = some bal ↔ s.book.balance r + amount.toNat = bal.toNat := by
  cases hr : s.getAccount r with
  | none =>
      rw [(balance_of_getAccount_none hr).1, Nat.zero_add, UInt64.toNat_inj]
      exact Option.some_inj
  | some acc => rw [balance_of_getAccount hr, ← checkedAdd_eq_some]

theorem address_getD_new (s : State) (a : Address) :
    ((s.getAccount a).getD (Account.new a 0)).address = a := by
  cases ha : s.getAccount a with
  | none => rfl
  | some acc => exact s.keyed _ _ ha

theorem nonce_getD_new (s : State) (a : Address) :
    ((s.getAccount a).getD (Account.new a 0)).nonce.toNat = s.book.nonce a := by
  cases ha : s.getAccount a with
  | none =>
      rw [(balance_of_getAccount_none ha).2]
      rfl
  | some acc =>
      rw [nonce_of_getAccount ha]
      rfl

theorem applyTransfer_ok {s s' : State} {tx : Transaction} (hne : tx.sender ≠ tx.receiver)
    (h : s.applyTransfer tx = (.ok (), s')) :
    s.book.Admits tx.transfer ∧ s'.book = s.book.post tx.transfer := by
  simp only [applyTransfer, okOr_ok_iff, ite_errorPair_iff, Prod.mk.injEq, true_and,
    checkedAdd_eq_some, checkedSub_eq_some, credit_eq_some] at h
  rcases h with ⟨cost, hcost, acc, hacc, hn, hf, bal, hsub, non, hnon, cred, hcred, rfl⟩
  have hadr : acc.address = tx.sender := s.keyed _ _ hacc
  have hfund : tx.amount.toNat + tx.fee.toNat ≤ acc.balance.toNat := by
    omega
  refine ⟨(admits_iff s tx).mpr ⟨acc, hacc, not_not.mp hn, hfund⟩, ?_⟩
  -- The receiver is not the sender, so its account is still the old one.
  have hrecv : (s.put { acc with balance := bal, nonce := non }).getAccount tx.receiver =
      s.getAccount tx.receiver := by
    rw [getAccount_put, if_neg]
    exact fun hc => hne (hadr.symm.trans hc.symm)
  rw [hrecv]
  have hrecvAdr := address_getD_new s tx.receiver
  have hrecvNon := nonce_getD_new s tx.receiver
  apply Book.ext
  · rw [known_put, known_put, known_post, hadr, hrecvAdr, Finset.insert_eq_self.mpr
      ((mem_known s tx.sender).mpr ⟨acc, hacc⟩)]
  · funext a
    rw [balance_put, balance_put, balance_post, hadr, hrecvAdr]
    by_cases hr : a = tx.receiver
    · rw [if_pos hr, if_neg (fun hc => hne (hc.symm.trans hr)), if_pos hr, hr, Nat.sub_zero,
        hcred]
    · rw [if_neg hr, if_neg hr, Nat.add_zero]
      by_cases ha : a = tx.sender
      · rw [if_pos ha, if_pos ha, ha, balance_of_getAccount hacc]
        change bal.toNat = _
        omega
      · rw [if_neg ha, if_neg ha, Nat.sub_zero]
  · funext a
    rw [nonce_put, nonce_put, nonce_post, hadr, hrecvAdr, hrecvNon]
    by_cases hr : a = tx.receiver
    · rw [if_pos hr, if_neg (fun hc => hne (hc.symm.trans hr)), hr, Nat.add_zero]
    · rw [if_neg hr]
      by_cases ha : a = tx.sender
      · rw [if_pos ha, if_pos ha, ha, nonce_of_getAccount hacc, ← hnon]
        rfl
      · rw [if_neg ha, if_neg ha, Nat.add_zero]

theorem applySelfTransfer_exists {s s' : State} {tx : Transaction}
    (h : s.book.Admits tx.transfer) (hs' : s'.book = s.book.post tx.transfer) :
    ∃ t, s.applySelfTransfer tx = (.ok (), t) := by
  rcases (admits_iff s tx).mp h with ⟨acc, hacc, hn, hf⟩
  have hacclt := acc.balance.toNat_lt
  -- The posted nonce is that of a table, so it is a word: no overflow.
  have hnon : acc.nonce.toNat + (1 : UInt64).toNat < 2 ^ 64 := by
    have hlt := nonce_lt s' tx.sender
    simpa only [hs', nonce_post, if_true, nonce_of_getAccount hacc, UInt64.toNat_one] using hlt
  rcases exists_checkedAdd (a := tx.amount) (b := tx.fee) (by omega) with ⟨cost, hcost⟩
  have hcostNat := checkedAdd_eq_some.mp hcost
  rcases exists_checkedSub (a := acc.balance) (b := cost) (by omega) with ⟨b, hb⟩
  have hbNat := checkedSub_eq_some.mp hb
  rcases exists_checkedAdd (a := b) (b := tx.amount) (by omega) with ⟨bal, hbal⟩
  rcases exists_checkedAdd hnon with ⟨non, hnon⟩
  have hnotless : ¬ acc.balance < cost := by
    rw [UInt64.lt_iff_toNat_lt]
    omega
  refine ⟨s.put { acc with balance := bal, nonce := non }, ?_⟩
  simp only [applySelfTransfer, okOr_ok_iff, ite_errorPair_iff, Option.bind_eq_some_iff]
  exact ⟨cost, hcost, acc, hacc, not_not.mpr hn, hnotless, bal, ⟨b, hb, hbal⟩, non, hnon, rfl⟩

theorem applyTransfer_exists {s s' : State} {tx : Transaction} (hne : tx.sender ≠ tx.receiver)
    (h : s.book.Admits tx.transfer) (hs' : s'.book = s.book.post tx.transfer) :
    ∃ t, s.applyTransfer tx = (.ok (), t) := by
  rcases (admits_iff s tx).mp h with ⟨acc, hacc, hn, hf⟩
  have hacclt := acc.balance.toNat_lt
  have hnon : acc.nonce.toNat + (1 : UInt64).toNat < 2 ^ 64 := by
    have hlt := nonce_lt s' tx.sender
    simpa only [hs', nonce_post, if_true, nonce_of_getAccount hacc, UInt64.toNat_one] using hlt
  -- The credited balance is that of a table as well.
  have hcredlt : s.book.balance tx.receiver + tx.amount.toNat < 2 ^ 64 := by
    have hlt := balance_lt s' tx.receiver
    simpa only [hs', balance_post, if_neg (fun hc => hne (Eq.symm hc)), if_true, Nat.sub_zero]
      using hlt
  rcases exists_checkedAdd (a := tx.amount) (b := tx.fee) (by omega) with ⟨cost, hcost⟩
  have hcostNat := checkedAdd_eq_some.mp hcost
  rcases exists_checkedSub (a := acc.balance) (b := cost) (by omega) with ⟨bal, hbal⟩
  rcases exists_checkedAdd hnon with ⟨non, hnon⟩
  have hnotless : ¬ acc.balance < cost := by
    rw [UInt64.lt_iff_toNat_lt]
    omega
  have hcred : s.book.balance tx.receiver + tx.amount.toNat =
      (UInt64.ofNat (s.book.balance tx.receiver + tx.amount.toNat)).toNat := by
    rw [UInt64.toNat_ofNat', Nat.mod_eq_of_lt hcredlt]
  simp only [applyTransfer, okOr_ok_iff, ite_errorPair_iff, credit_eq_some]
  exact ⟨_, cost, hcost, acc, hacc, not_not.mpr hn, hnotless, bal, hbal, non, hnon, _, hcred, rfl⟩

section Apply

variable [Primitives]

/-- Applying a transaction is posting its transfer: it succeeds exactly when
    the transaction is valid, the book admits the transfer, and some table
    holds the posted book. -/
theorem applyTransaction_ok_iff (s s' : State) (tx : Transaction) :
    s.applyTransaction tx = (.ok (), s') ↔
      tx.Valid ∧ s.book.Admits tx.transfer ∧ s'.book = s.book.post tx.transfer := by
  rw [← Transaction.basicValidate_ok_iff, applyTransaction, attempt_then_ok_iff]
  refine and_congr_right fun _ => ?_
  by_cases hself : tx.sender = tx.receiver
  · rw [if_pos hself]
    refine ⟨applySelfTransfer_ok hself, ?_⟩
    rintro ⟨hadm, hbook⟩
    rcases applySelfTransfer_exists hadm hbook with ⟨t, ht⟩
    rw [ht, book_inj ((applySelfTransfer_ok hself ht).2.trans hbook.symm)]
  · rw [if_neg hself]
    refine ⟨applyTransfer_ok hself, ?_⟩
    rintro ⟨hadm, hbook⟩
    rcases applyTransfer_exists hself hadm hbook with ⟨t, ht⟩
    rw [ht, book_inj ((applyTransfer_ok hself ht).2.trans hbook.symm)]

/-- A failed transaction changes nothing: every early return is before the
    first write. -/
theorem applyTransaction_keeps (s : State) (tx : Transaction) :
    Keeps s (s.applyTransaction tx) := by
  rw [applyTransaction]
  refine attempt_keeps fun _ _ => ?_
  by_cases hself : tx.sender = tx.receiver
  · simp only [if_pos hself, applySelfTransfer]
    exact okOr_keeps fun _ _ => okOr_keeps fun _ _ => ite_keeps fun _ => ite_keeps fun _ =>
      okOr_keeps fun _ _ => okOr_keeps fun _ _ => keeps_ok
  · simp only [if_neg hself, applyTransfer]
    exact okOr_keeps fun _ _ => okOr_keeps fun _ _ => ite_keeps fun _ => ite_keeps fun _ =>
      okOr_keeps fun _ _ => okOr_keeps fun _ _ => okOr_keeps fun _ _ => keeps_ok

theorem applyAll_cons_ok_iff (s s' : State) (tx : Transaction) (txs : List Transaction) :
    s.applyAll (tx :: txs) = .ok s' ↔
      ∃ t, s.applyTransaction tx = (.ok (), t) ∧ t.applyAll txs = .ok s' := by
  rw [applyAll]
  rcases hstep : s.applyTransaction tx with ⟨_ | _, t⟩
  · simp only [Prod.mk.injEq, reduceCtorEq, false_and, exists_false]
  · simp only [Prod.mk.injEq, true_and, exists_eq_left']

theorem applyAll_append_ok_iff (s s' : State) (txs us : List Transaction) :
    s.applyAll (txs ++ us) = .ok s' ↔
      ∃ t, s.applyAll txs = .ok t ∧ t.applyAll us = .ok s' := by
  induction txs generalizing s with
  | nil => simp only [List.nil_append, applyAll, Except.ok.injEq, exists_eq_left']
  | cons tx txs ih =>
      simp only [List.cons_append, applyAll_cons_ok_iff, ih]
      constructor
      · rintro ⟨t, ht, u, hu, hus⟩
        exact ⟨u, ⟨t, ht, hu⟩, hus⟩
      · rintro ⟨u, ⟨t, ht, hu⟩, hus⟩
        exact ⟨t, ht, u, hu, hus⟩

/-- Applying transactions in order posts their transfers in order. -/
theorem applyAll_ok {s s' : State} {txs : List Transaction} (h : s.applyAll txs = .ok s') :
    (∀ tx ∈ txs, tx.Valid) ∧ s.book.AdmitsAll (txs.map Transaction.transfer) ∧
      s'.book = s.book.postAll (txs.map Transaction.transfer) := by
  induction txs generalizing s with
  | nil =>
      rw [applyAll, Except.ok.injEq] at h
      exact ⟨fun _ ht => absurd ht List.not_mem_nil, trivial, by rw [h]; rfl⟩
  | cons tx txs ih =>
      rcases (applyAll_cons_ok_iff s s' tx txs).mp h with ⟨t, hstep, hrest⟩
      rcases (applyTransaction_ok_iff s t tx).mp hstep with ⟨hvalid, hadm, hpost⟩
      rcases ih hrest with ⟨hvalids, hadms, hposts⟩
      rw [hpost] at hadms hposts
      exact ⟨List.forall_mem_cons.mpr ⟨hvalid, hvalids⟩, ⟨hadm, hadms⟩, hposts⟩

attribute [irreducible] applyTransaction

end Apply

/-! ### Reading the whole table -/

/-- The comparison of `sort_by` in `accounts_sorted`. -/
def addressLe (a b : Address) : Prop :=
  byteKey a.value ≤ byteKey b.value

instance : DecidableRel addressLe := fun a b =>
  inferInstanceAs (Decidable (byteKey a.value ≤ byteKey b.value))

instance : IsTrans Address addressLe :=
  ⟨fun _ _ _ hab hbc => le_trans (α := List Nat) hab hbc⟩

instance : Std.Antisymm addressLe :=
  ⟨fun a b hab hba => by
    have hvalue := byteKey_inj (le_antisymm (α := List Nat) hab hba)
    cases a
    cases b
    exact congrArg Address.mk hvalue⟩

instance : Std.Total addressLe :=
  ⟨fun a b => le_total (α := List Nat) (byteKey a.value) (byteKey b.value)⟩

/-- `State::accounts_sorted`. -/
def accountsSorted (s : State) : List (Address × Account) :=
  (s.accounts.keys.sort addressLe).filterMap fun a => (s.getAccount a).map fun acc => (a, acc)

/-- A round of the fold in `total_balance_sum`. -/
def addBalance (total : Except ProtocolError UInt64) (balance : UInt64) :
    Except ProtocolError UInt64 :=
  match total with
  | .error e => .error e
  | .ok acc =>
      match checkedAdd acc balance with
      | none => .error (.stateError "total balance sum overflow")
      | some sum => .ok sum

theorem addBalance_ok (acc balance : UInt64) :
    addBalance (.ok acc) balance =
      if acc.toNat + balance.toNat < 2 ^ 64 then .ok (acc + balance)
      else .error (.stateError "total balance sum overflow") := by
  rw [addBalance, checkedAdd]
  split
  · rename_i h
    split at h
    · exact absurd h (by simp only [reduceCtorEq, not_false_eq_true])
    · rename_i hover
      rw [if_neg hover]
  · rename_i sum h
    split at h
    · rename_i hfits
      rw [if_pos hfits, ← Option.some.inj h]
    · exact absurd h (by simp only [reduceCtorEq, not_false_eq_true])

/-- The order of the balances does not matter: either all of them fit, or the
    sum overflows somewhere. -/
instance : RightCommutative addBalance where
  right_comm total a b := by
    cases total with
    | error e => rfl
    | ok acc =>
        have hadd : ∀ x y : UInt64, x.toNat + y.toNat < 2 ^ 64 →
            (x + y).toNat = x.toNat + y.toNat := by
          intro x y h
          rw [UInt64.toNat_add, Nat.mod_eq_of_lt h]
        by_cases hall : acc.toNat + a.toNat + b.toNat < 2 ^ 64
        · have ha : acc.toNat + a.toNat < 2 ^ 64 := by omega
          have hb : acc.toNat + b.toNat < 2 ^ 64 := by omega
          rw [addBalance_ok, addBalance_ok, if_pos ha, if_pos hb, addBalance_ok, addBalance_ok,
            hadd acc a ha, hadd acc b hb, if_pos hall, if_pos (by omega), UInt64.add_assoc,
            UInt64.add_assoc, UInt64.add_comm a b]
        · -- Whichever is added first, the second no longer fits.
          have hover : ∀ x y : UInt64, ¬ acc.toNat + x.toNat + y.toNat < 2 ^ 64 →
              addBalance (addBalance (.ok acc) x) y =
                .error (.stateError "total balance sum overflow") := by
            intro x y hxy
            rw [addBalance_ok]
            by_cases hx : acc.toNat + x.toNat < 2 ^ 64
            · rw [if_pos hx, addBalance_ok, hadd acc x hx, if_neg hxy]
            · rw [if_neg hx]
              rfl
          rw [hover a b hall, hover b a (by omega)]

/-- `State::total_balance_sum`. -/
def totalBalanceSum (s : State) : Except ProtocolError UInt64 :=
  (s.accounts.entries.map fun e => e.2.balance).foldl addBalance (.ok 0)

theorem foldl_addBalance_ok_iff {balances : Multiset UInt64} {acc v : UInt64} :
    balances.foldl addBalance (.ok acc) = .ok v ↔
      acc.toNat + (balances.map UInt64.toNat).sum = v.toNat := by
  induction balances using Multiset.induction_on generalizing acc with
  | empty =>
      rw [Multiset.foldl_zero, Multiset.map_zero, Multiset.sum_zero, Nat.add_zero,
        Except.ok.injEq, UInt64.toNat_inj]
  | cons b balances ih =>
      rw [Multiset.foldl_cons, Multiset.map_cons, Multiset.sum_cons, addBalance_ok]
      by_cases hfits : acc.toNat + b.toNat < 2 ^ 64
      · rw [if_pos hfits, ih, UInt64.toNat_add, Nat.mod_eq_of_lt hfits, Nat.add_assoc]
      · -- Once the sum has overflowed it stays so, and no word is as large.
        have herr : ∀ (e : ProtocolError) (bs : Multiset UInt64),
            bs.foldl addBalance (.error e) = .error e := by
          intro e bs
          induction bs using Multiset.induction_on with
          | empty => rfl
          | cons b bs ih => rw [Multiset.foldl_cons, addBalance, ih]
        rw [if_neg hfits, herr]
        have := v.toNat_lt
        simp only [reduceCtorEq, false_iff]
        omega

/-- The sum of all balances is the supply of the book. -/
theorem totalBalanceSum_ok_iff {s : State} {v : UInt64} :
    s.totalBalanceSum = .ok v ↔ s.book.supply = v.toNat := by
  have hsupply : s.book.supply =
      ((s.accounts.entries.map fun e => e.2.balance).map UInt64.toNat).sum := by
    change (s.accounts.entries.keys.map s.book.balance).sum = _
    rw [Multiset.keys, Multiset.map_map, Multiset.map_map]
    refine congrArg Multiset.sum (Multiset.map_congr rfl ?_)
    intro e he
    exact balance_of_getAccount (Finmap.lookup_eq_some_iff.mpr he)
  rw [totalBalanceSum, foldl_addBalance_ok_iff, hsupply]
  change 0 + _ = _ ↔ _
  rw [Nat.zero_add]

end State

end Trilogicon
