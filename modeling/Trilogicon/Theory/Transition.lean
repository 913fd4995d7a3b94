import Trilogicon.Theory.Ledger

/-!
# One Transaction

What `apply_transaction` does to the account table, compared with a transition
over natural numbers that is stated on its own.

The source has two paths, one for a transfer to another account and one for a
transfer to oneself, with seven early exits between them. `State.verdict` is
the decision they share: the checks of both paths, in order, on the numbers
that the words denote. Two exits of the source are not in it. A debit is only
taken after the balance was found sufficient, and a transfer to oneself gives
back less than it took.

The reference transition debits the sender, raises its nonce and then credits
the receiver, over tables of numbers. It does not ask whether the two are the
same account, since the credit is made to the table after the debit. That it
agrees with both paths is `apply_refines_transition`.

No word is too small for a balance as long as the supply is a word: what a
receiver holds and what a sender holds are two parts of it. The supply only
falls, so it is enough to look at the genesis document. But nothing checks the
sum of its allocations, and a document may give away more than a word.

## Main definitions

* `State.verdict`: What the checks of `apply_transaction` decide.
* `Holdings`: A table of accounts as numbers.
* `Holdings.Enabled`: When the reference transition may be taken.
* `Holdings.transition`: The reference transition.
* `State.BalancesFit`: No sum of balances overflows.
* `Blockchain.burned`: The fees of a chain.

## Theorems

* `State.applyTransaction_fst`: Both paths decide by the same checks.
* `apply_refines_transition`: The code is the reference transition.
* `balances_fit_iff`: When the balances of a chain fit.
-/

namespace Trilogicon

/-! ### What is decided -/

namespace State

/-- What `apply_transaction` decides after the stateless checks, on numbers. -/
def verdict (s : State) (tx : Transaction) : Except ProtocolError Unit :=
  if 2 ^ 64 ≤ tx.amount.toNat + tx.fee.toNat then .error (.stateError "amount+fee overflow")
  else
    match s.getAccount tx.sender with
    | none => .error (.stateError "sender account missing")
    | some acc =>
        if acc.nonce ≠ tx.nonce then .error .invalidNonce
        else if acc.balance.toNat < tx.amount.toNat + tx.fee.toNat then
          .error .insufficientBalance
        else if 2 ^ 64 ≤ acc.nonce.toNat + 1 then .error (.stateError "sender nonce overflow")
        else if tx.sender ≠ tx.receiver ∧ 2 ^ 64 ≤ s.balance tx.receiver + tx.amount.toNat then
          .error (.stateError "receiver balance overflow")
        else .ok ()

/-- The errors of the stateful checks. -/
theorem verdict_error_mem {s : State} {tx : Transaction} {e : ProtocolError}
    (h : s.verdict tx = .error e) :
    e ∈ [.stateError "amount+fee overflow", .stateError "sender account missing", .invalidNonce,
      .insufficientBalance, .stateError "sender nonce overflow",
      ProtocolError.stateError "receiver balance overflow"] := by
  unfold verdict at h
  -- One goal for each exit; the last is the one that is no error.
  repeat' split at h
  all_goals
    simp only [Except.error.injEq, reduceCtorEq] at h
    try
      rw [← h]
      decide

/-- Only a receiver that holds too much makes a transaction fail this way. -/
theorem verdict_receiver {s : State} {tx : Transaction}
    (h : s.verdict tx = .error (.stateError "receiver balance overflow")) :
    tx.sender ≠ tx.receiver ∧ tx.amount.toNat ≤ s.balance tx.sender ∧
      2 ^ 64 ≤ s.balance tx.receiver + tx.amount.toNat := by
  unfold verdict at h
  split at h
  · simp only [Except.error.injEq, ProtocolError.stateError.injEq, String.reduceEq] at h
  · cases hacc : s.getAccount tx.sender with
    | none =>
        simp only [hacc, Except.error.injEq, ProtocolError.stateError.injEq, String.reduceEq] at h
    | some acc =>
        have hbal : s.balance tx.sender = acc.balance.toNat := balance_of_getAccount hacc
        simp only [hacc] at h
        split_ifs at h with hn hfund hover hfull
        · simp only [Except.error.injEq, reduceCtorEq] at h
        · simp only [Except.error.injEq, reduceCtorEq] at h
        · simp only [Except.error.injEq, ProtocolError.stateError.injEq, String.reduceEq] at h
        · exact ⟨hfull.1, by omega, hfull.2⟩

theorem okOr_checkedAdd {α β : Type} {a b : UInt64} {e : ProtocolError} {s : α}
    {k : UInt64 → Except ProtocolError β × α} :
    okOr (checkedAdd a b) e s k =
      if 2 ^ 64 ≤ a.toNat + b.toNat then (.error e, s) else k (a + b) := by
  unfold checkedAdd
  by_cases h : a.toNat + b.toNat < 2 ^ 64
  · rw [if_pos h, if_neg (Nat.not_le_of_lt h), okOr]
  · rw [if_neg h, if_pos (Nat.le_of_not_lt h), okOr]

/-- The checks before the first subtraction, which both paths make. What is
    left to decide is decided for an account that can pay. -/
theorem checks_fst {s : State} {tx : Transaction}
    {k : UInt64 → Account → Except ProtocolError Unit × State}
    {rest : Account → Except ProtocolError Unit}
    (hk : ∀ cost acc, s.getAccount tx.sender = some acc →
      tx.amount.toNat + tx.fee.toNat = cost.toNat → cost.toNat ≤ acc.balance.toNat →
      (k cost acc).1 = rest acc) :
    (okOr (checkedAdd tx.amount tx.fee) (.stateError "amount+fee overflow") s fun cost =>
      okOr (s.getAccount tx.sender) (.stateError "sender account missing") s fun acc =>
      if acc.nonce ≠ tx.nonce then (.error .invalidNonce, s)
      else if acc.balance < cost then (.error .insufficientBalance, s)
      else k cost acc).1 =
    if 2 ^ 64 ≤ tx.amount.toNat + tx.fee.toNat then .error (.stateError "amount+fee overflow")
    else
      match s.getAccount tx.sender with
      | none => .error (.stateError "sender account missing")
      | some acc =>
          if acc.nonce ≠ tx.nonce then .error .invalidNonce
          else if acc.balance.toNat < tx.amount.toNat + tx.fee.toNat then
            .error .insufficientBalance
          else rest acc := by
  rw [okOr_checkedAdd]
  by_cases hcost : 2 ^ 64 ≤ tx.amount.toNat + tx.fee.toNat
  · rw [if_pos hcost, if_pos hcost]
  · -- The cost is a word, so comparing words is comparing sums.
    have hsum : tx.amount.toNat + tx.fee.toNat = (tx.amount + tx.fee).toNat := by
      rw [UInt64.toNat_add, Nat.mod_eq_of_lt (Nat.lt_of_not_le hcost)]
    rw [if_neg hcost, if_neg hcost]
    cases hacc : s.getAccount tx.sender with
    | none => rfl
    | some acc =>
        simp only [okOr]
        by_cases hn : acc.nonce ≠ tx.nonce
        · rw [if_pos hn, if_pos hn]
        · have hless : acc.balance < tx.amount + tx.fee ↔
              acc.balance.toNat < tx.amount.toNat + tx.fee.toNat := by
            rw [UInt64.lt_iff_toNat_lt, hsum]
          rw [if_neg hn, if_neg hn]
          by_cases hfund : acc.balance.toNat < tx.amount.toNat + tx.fee.toNat
          · rw [if_pos (hless.mpr hfund), if_pos hfund]
          · rw [if_neg (fun hc => hfund (hless.mp hc)), if_neg hfund]
            exact hk _ acc hacc hsum (by omega)

theorem applySelfTransfer_fst {s : State} {tx : Transaction} (hself : tx.sender = tx.receiver) :
    (s.applySelfTransfer tx).1 = s.verdict tx := by
  unfold applySelfTransfer verdict
  refine checks_fst fun cost acc hacc hcost hfund => ?_
  -- What is given back was taken before, so the new balance is a word.
  have hlt := acc.balance.toNat_lt
  rcases exists_checkedSub hfund with ⟨b, hb⟩
  have hbNat := checkedSub_eq_some.mp hb
  rcases exists_checkedAdd (a := b) (b := tx.amount) (by omega) with ⟨bal, hbal⟩
  rw [hb, Option.bind_some, hbal, okOr, okOr_checkedAdd, UInt64.toNat_one,
    if_neg (fun hc : tx.sender ≠ tx.receiver ∧ _ => hc.1 hself)]
  by_cases hover : 2 ^ 64 ≤ acc.nonce.toNat + 1
  · rw [if_pos hover, if_pos hover]
  · rw [if_neg hover, if_neg hover]

theorem applyTransfer_fst {s : State} {tx : Transaction} (hne : tx.sender ≠ tx.receiver) :
    (s.applyTransfer tx).1 = s.verdict tx := by
  unfold applyTransfer verdict
  refine checks_fst fun cost acc hacc hcost hfund => ?_
  -- The balance was found sufficient, so the debit does not fail.
  rcases exists_checkedSub hfund with ⟨b, hb⟩
  rw [hb, okOr, okOr_checkedAdd, UInt64.toNat_one]
  by_cases hover : 2 ^ 64 ≤ acc.nonce.toNat + 1
  · rw [if_pos hover, if_pos hover]
  · rw [if_neg hover, if_neg hover]
    -- A receiver without an account starts at zero, where the amount fits.
    cases hr : s.getAccount tx.receiver with
    | none =>
        have hzero : s.balance tx.receiver = 0 := (balance_of_getAccount_none hr).1
        have hword := tx.amount.toNat_lt
        rw [okOr, hzero, Nat.zero_add, if_neg (fun hc => absurd hc.2 (Nat.not_le_of_lt hword))]
    | some r =>
        have hbal : s.balance tx.receiver = r.balance.toNat := balance_of_getAccount hr
        simp only [okOr_checkedAdd, hbal, ne_eq, hne, not_false_eq_true, true_and]
        by_cases hfull : 2 ^ 64 ≤ r.balance.toNat + tx.amount.toNat
        · rw [if_pos hfull, if_pos hfull]
        · rw [if_neg hfull, if_neg hfull]

section Apply

variable [Primitives]

/-- Both paths of `apply_transaction` decide by the same checks. -/
theorem applyTransaction_fst (s : State) (tx : Transaction) :
    (s.applyTransaction tx).1 = tx.basicValidate >>= fun _ => s.verdict tx := by
  unfold applyTransaction
  cases tx.basicValidate with
  | error e => rfl
  | ok u =>
      change (if tx.sender = tx.receiver then s.applySelfTransfer tx else s.applyTransfer tx).1 =
        s.verdict tx
      by_cases hself : tx.sender = tx.receiver
      · rw [if_pos hself, applySelfTransfer_fst hself]
      · rw [if_neg hself, applyTransfer_fst hself]

end Apply

end State

/-! ### The reference transition -/

/-- An account as numbers. -/
structure Holding where
  balance : Nat
  nonce : Nat
deriving DecidableEq, Repr

/-- A table of accounts as numbers. -/
abbrev Holdings := Address → Option Holding

/-- The account table as numbers. -/
def State.holdings (s : State) : Holdings := fun a =>
  (s.getAccount a).map fun acc => { balance := acc.balance.toNat, nonce := acc.nonce.toNat }

namespace Holdings

/-- The balance of an account; one that is missing counts as zero. -/
def balance (l : Holdings) (a : Address) : Nat :=
  ((l a).map Holding.balance).getD 0

/-- Take an amount from an account and raise its nonce. -/
def debit (l : Holdings) (a : Address) (n : Nat) : Holdings := fun x =>
  if x = a then (l a).map fun h => { balance := h.balance - n, nonce := h.nonce + 1 } else l x

/-- Give an amount to an account. One that is missing is created, with nonce
    zero. -/
def credit (l : Holdings) (a : Address) (n : Nat) : Holdings := fun x =>
  if x = a then
    match l a with
    | some h => some { h with balance := h.balance + n }
    | none => some { balance := n, nonce := 0 }
  else l x

/-- The table after the debit of a transaction. -/
def debited (l : Holdings) (tx : Transaction) : Holdings :=
  l.debit tx.sender (tx.amount.toNat + tx.fee.toNat)

/-- The reference transition: debit the sender, then credit the receiver. -/
def transition (l : Holdings) (tx : Transaction) : Holdings :=
  (l.debited tx).credit tx.receiver tx.amount.toNat

/-- When the reference transition may be taken. -/
structure Enabled [Primitives] (l : Holdings) (tx : Transaction) : Prop where
  valid : tx.basicValidate = .ok ()
  sender : ∃ h, l tx.sender = some h ∧ h.nonce = tx.nonce.toNat ∧
    tx.amount.toNat + tx.fee.toNat ≤ h.balance
  nonce : tx.nonce.toNat < 2 ^ 64 - 1
  cost : tx.amount.toNat + tx.fee.toNat ≤ 2 ^ 64 - 1
  receiver : (l.debited tx).balance tx.receiver + tx.amount.toNat ≤ 2 ^ 64 - 1

theorem balance_debit (l : Holdings) (a r : Address) (n : Nat) :
    (l.debit a n).balance r = if r = a then l.balance a - n else l.balance r := by
  unfold balance debit
  by_cases hr : r = a
  · rw [if_pos hr, if_pos hr]
    cases l a with
    | none => exact (Nat.zero_sub n).symm
    | some h => rfl
  · rw [if_neg hr, if_neg hr]

end Holdings

namespace State

theorem holdings_balance (s : State) (a : Address) : s.holdings.balance a = s.balance a := by
  unfold Holdings.balance holdings balance
  cases s.getAccount a with
  | none => rfl
  | some acc => rfl

/-- The numbers under an address determine the account. -/
theorem getAccount_of_holdings {s t : State} {a : Address} (h : s.holdings a = t.holdings a) :
    s.getAccount a = t.getAccount a := by
  unfold holdings at h
  cases hs : s.getAccount a with
  | none =>
      cases ht : t.getAccount a with
      | none => rfl
      | some acc => simp only [hs, ht, Option.map_none, Option.map_some, reduceCtorEq] at h
  | some acc =>
      cases ht : t.getAccount a with
      | none => simp only [hs, ht, Option.map_none, Option.map_some, reduceCtorEq] at h
      | some acc' =>
          simp only [hs, ht, Option.map_some, Option.some.injEq, Holding.mk.injEq] at h
          rw [account_inj hs ht h.1 h.2]

/-- The numbers of a table are those of its book. -/
theorem holdings_eq (s : State) (a : Address) :
    s.holdings a = if a ∈ s.book.known then
      some { balance := s.book.balance a, nonce := s.book.nonce a } else none := by
  unfold holdings
  cases ha : s.getAccount a with
  | none =>
      rw [if_neg]
      · rfl
      · rw [mem_known, ha]
        simp only [reduceCtorEq, exists_false, not_false_eq_true]
  | some acc =>
      rw [if_pos ((mem_known s a).mpr ⟨acc, ha⟩), balance_of_getAccount ha, nonce_of_getAccount ha]
      rfl

/-- Posting an admitted transfer is the reference transition. -/
theorem holdings_post {s s' : State} {tx : Transaction} (hadm : s.book.Admits tx.transfer)
    (hpost : s'.book = s.book.post tx.transfer) : s'.holdings = s.holdings.transition tx := by
  have hsender : tx.sender ∈ s.book.known := hadm.known
  funext a
  unfold Holdings.transition Holdings.credit Holdings.debited Holdings.debit
  simp only [holdings_eq, hpost, known_post, balance_post, nonce_post, Finset.mem_insert]
  by_cases hr : a = tx.receiver
  · by_cases hs : tx.receiver = tx.sender
    · -- The credit is made to the account that was just debited.
      simp only [hr, hs, hsender, if_true, true_or, Option.map_some]
    · by_cases hk : tx.receiver ∈ s.book.known
      · simp only [hr, hs, hk, if_true, if_false, true_or, Nat.sub_zero, Nat.add_zero]
      · -- The receiver is new: its account starts with the amount and no nonce.
        have hzero : s.book.balance tx.receiver = 0 := s.book_supported _ hk
        have hnone : s.book.nonce tx.receiver = 0 := by
          rw [mem_known, ← Option.isSome_iff_exists, Option.not_isSome_iff_eq_none] at hk
          exact (balance_of_getAccount_none hk).2
        simp only [hr, hs, hk, if_true, if_false, true_or, Nat.sub_zero, Nat.add_zero, hzero, hnone,
          Nat.zero_add]
  · by_cases hs : a = tx.sender
    · simp only [hs, hsender, if_true, or_true, Option.map_some, Nat.add_zero,
        if_neg (fun hc : tx.sender = tx.receiver => hr (hs.trans hc))]
    · simp only [hr, hs, if_false, false_or, Nat.sub_zero, Nat.add_zero]

section Apply

variable [Primitives]

/-- The code accepts a transaction exactly when the reference transition is
    enabled. -/
theorem enabled_iff (s : State) (tx : Transaction) :
    s.holdings.Enabled tx ↔ (s.applyTransaction tx).1 = .ok () := by
  rw [applyTransaction_fst, then_ok_iff]
  unfold verdict
  rw [ite_error_ok_iff]
  -- The credit is checked against the receiver as the debit leaves it.
  have hrecv : ∀ acc, s.getAccount tx.sender = some acc →
      (s.holdings.debited tx).balance tx.receiver =
        if tx.receiver = tx.sender then acc.balance.toNat - (tx.amount.toNat + tx.fee.toNat)
        else s.balance tx.receiver := by
    intro acc hacc
    have hbal : s.balance tx.sender = acc.balance.toNat := balance_of_getAccount hacc
    rw [Holdings.debited, Holdings.balance_debit, holdings_balance, holdings_balance, hbal]
  constructor
  · intro h
    rcases h with ⟨hvalid, ⟨hold, hsome, hn, hfund⟩, hnonce, hcost, hfits⟩
    rcases Option.map_eq_some_iff.mp hsome with ⟨acc, hacc, rfl⟩
    rw [hrecv acc hacc] at hfits
    simp only at hn hfund
    simp only [hvalid, hacc, ite_error_ok_iff, true_and, not_not, and_true, ne_eq]
    refine ⟨by omega, UInt64.toNat_inj.mp hn, by omega, by omega, ?_⟩
    rintro ⟨hne, hover⟩
    rw [if_neg (fun hc => hne hc.symm)] at hfits
    omega
  · intro h
    rcases h with ⟨hvalid, hcost, h⟩
    cases hacc : s.getAccount tx.sender with
    | none => simp only [hacc, reduceCtorEq] at h
    | some acc =>
        simp only [hacc, ite_error_ok_iff, not_not, and_true, ne_eq] at h
        rcases h with ⟨hn, hfund, hnonce, hover⟩
        -- Paying oneself cannot overflow, since the debit came first.
        have hword := acc.balance.toNat_lt
        rw [hn] at hnonce
        refine ⟨hvalid, ⟨_, Option.map_eq_some_iff.mpr ⟨acc, hacc, rfl⟩, congrArg UInt64.toNat hn,
          Nat.le_of_not_lt hfund⟩, by omega, by omega, ?_⟩
        rw [hrecv acc hacc]
        by_cases hself : tx.receiver = tx.sender
        · rw [if_pos hself]
          omega
        · rw [if_neg hself]
          have hlt := not_and.mp hover (fun hc => hself hc.symm)
          omega

/-- A failed transaction failed one of the checks, stateless or stateful. -/
theorem applyTransaction_error {s : State} {tx : Transaction} {e : ProtocolError}
    (h : (s.applyTransaction tx).1 = .error e) :
    tx.basicValidate = .error e ∨ tx.basicValidate = .ok () ∧ s.verdict tx = .error e := by
  rw [applyTransaction_fst] at h
  cases hv : tx.basicValidate with
  | error e' =>
      rw [hv] at h
      exact Or.inl h
  | ok u =>
      rw [hv] at h
      exact Or.inr ⟨rfl, h⟩

end Apply

end State

/-- `apply_transaction` is the reference transition. It succeeds exactly when
    the transition is enabled and then its result is that of the transition, with
    every other account as it was; otherwise it fails and changes nothing. The
    exits for a debit below zero and for a transfer to oneself that overflows are
    never taken. -/
theorem apply_refines_transition [Primitives] (s : State) (tx : Transaction) :
    (s.holdings.Enabled tx → ∃ s', s.applyTransaction tx = (.ok (), s') ∧
      s'.holdings = s.holdings.transition tx ∧
      ∀ a, a ≠ tx.sender → a ≠ tx.receiver → s'.getAccount a = s.getAccount a) ∧
    (¬ s.holdings.Enabled tx → ∃ e, s.applyTransaction tx = (.error e, s)) ∧
    (s.applyTransaction tx).1 ≠ .error (.stateError "sender balance debit underflow") ∧
    (s.applyTransaction tx).1 ≠ .error (.stateError "balance update overflow") := by
  -- Neither message is among those the checks report.
  have hnever : ∀ msg, ProtocolError.stateError msg ∉
      [.invalidAddress, .invalidAmount, .signatureInvalid, .stateError "missing tx hash",
        ProtocolError.stateError "transaction hash mismatch"] →
      ProtocolError.stateError msg ∉
        [.stateError "amount+fee overflow", .stateError "sender account missing", .invalidNonce,
          .insufficientBalance, .stateError "sender nonce overflow",
          ProtocolError.stateError "receiver balance overflow"] →
      (s.applyTransaction tx).1 ≠ .error (.stateError msg) := by
    intro msg hstateless hstateful hc
    rcases State.applyTransaction_error hc with hv | ⟨_, hv⟩
    · exact hstateless (Transaction.basicValidate_error_mem hv)
    · exact hstateful (State.verdict_error_mem hv)
  rw [State.enabled_iff]
  refine ⟨?_, ?_, hnever _ (by decide) (by decide), hnever _ (by decide) (by decide)⟩
  · intro hok
    rcases (s.applyTransaction_keeps tx).cases with ⟨e, h⟩ | ⟨_, s', h⟩
    · rw [h] at hok
      exact absurd hok (by simp only [reduceCtorEq, not_false_eq_true])
    · rcases (State.applyTransaction_ok_iff s s' tx).mp h with ⟨_, hadm, hpost⟩
      have hnext := State.holdings_post hadm hpost
      refine ⟨s', h, hnext, ?_⟩
      intro a hs hr
      apply State.getAccount_of_holdings
      -- An account that is neither of the two is read from the same holdings.
      rw [hnext]
      unfold Holdings.transition Holdings.credit Holdings.debited Holdings.debit
      rw [if_neg hr, if_neg hs]
  · intro hfail
    rcases (s.applyTransaction_keeps tx).cases with ⟨e, h⟩ | ⟨_, s', h⟩
    · exact ⟨e, h⟩
    · rw [h] at hfail
      exact absurd rfl hfail

/-! ### The limits of a word -/

namespace State

variable [Primitives]

/-- No sum of balances overflows: neither the sum of all, in whatever order the
    accounts are listed, nor that of a receiver and what it is sent. -/
structure BalancesFit (s : State) : Prop where
  sums : ∃ v, s.totalBalanceSum = .ok v ∧ ∀ order : List UInt64,
    (order : Multiset UInt64) = s.accounts.entries.map (fun e => e.2.balance) →
      order.foldl addBalance (.ok 0) = .ok v
  receives : ∀ tx, (s.applyTransaction tx).1 ≠ .error (.stateError "receiver balance overflow")

theorem balancesFit_iff (s : State) : s.BalancesFit ↔ s.book.supply < 2 ^ 64 := by
  constructor
  · intro h
    rcases h.sums with ⟨v, hv, _⟩
    rw [totalBalanceSum_ok_iff.mp hv]
    exact v.toNat_lt
  · intro h
    -- The sum is a word in any order of the rows.
    have hsum : s.totalBalanceSum = .ok (UInt64.ofNat s.book.supply) := by
      rw [totalBalanceSum_ok_iff, UInt64.toNat_ofNat', Nat.mod_eq_of_lt h]
    refine ⟨⟨_, hsum, ?_⟩, ?_⟩
    · intro order horder
      rw [← hsum, totalBalanceSum, ← horder, Multiset.coe_foldl]
    · intro tx hc
      rcases applyTransaction_error hc with hv | ⟨_, hv⟩
      · exact absurd (Transaction.basicValidate_error_mem hv) (by decide)
      · -- Sender and receiver are two accounts, so together they hold a word.
        rcases verdict_receiver hv with ⟨hne, hfund, hover⟩
        have htwo : s.balance tx.sender + s.balance tx.receiver ≤ s.book.supply :=
          s.book.two_balances_le s.book_supported hne
        omega

end State

/-- The fees of a chain, which no account receives. -/
def Blockchain.burned (c : Blockchain) : Nat :=
  (c.committed.map fun tx => tx.fee.toNat).sum

/-- When the balances of a ledger fit. A genesis document is accepted whatever
    its allocations sum to; the balances of every chain on it fit exactly when
    that sum is a word, and those of one chain exactly when it is a word once the
    fees of the chain are burned. -/
theorem balances_fit_iff [Primitives] (g : Genesis) (s₀ : State)
    (h : State.fromGenesis g = .ok s₀) :
    ((∀ c, Reachable g c → c.state.BalancesFit) ↔ g.total < 2 ^ 64) ∧
      ∀ c, Reachable g c → (c.state.BalancesFit ↔ g.total < 2 ^ 64 + c.burned) := by
  have hchain : ∀ c, Reachable g c → (c.state.BalancesFit ↔ g.total < 2 ^ 64 + c.burned) := by
    intro c hc
    have hsupply : c.state.book.supply + c.burned = g.total := hc.sound.supply_eq
    rw [State.balancesFit_iff]
    omega
  refine ⟨⟨?_, ?_⟩, hchain⟩
  · intro hall
    -- The chain without a block has burned nothing.
    have hstart : Blockchain.fromGenesisWithConsensus g .default =
        .ok { blocks := [Block.genesis], state := s₀, consensus := .default } := by
      rw [Blockchain.fromGenesisWithConsensus, Blockchain.fromGenesis, h]
      rfl
    have hreach : Reachable g { blocks := [Block.genesis], state := s₀, consensus := .default } :=
      ⟨.default, _, [], hstart, rfl⟩
    have hfits := (hchain _ hreach).mp (hall _ hreach)
    rw [show Blockchain.burned ⟨[Block.genesis], s₀, .default⟩ = 0 from rfl, Nat.add_zero] at hfits
    exact hfits
  · intro htotal c hc
    exact (hchain c hc).mpr (Nat.lt_add_right _ htotal)

namespace Sample

/-- A payer, and a receiver that holds all a word can. -/
def crowded : Genesis :=
  { allocations := [⟨payer.value, 1000⟩, ⟨"receiver", 0xFFFFFFFFFFFFFFFF⟩] }

/-- The chain on that document. -/
def crowdedStart : Blockchain :=
  { blocks := [Block.genesis], state := State.new.insertPairs crowded.pairs,
    consensus := .default }

theorem sortedPairs_crowded : crowded.sortedPairs = .ok crowded.pairs := by
  decide

theorem fromGenesis_crowded : State.fromGenesis crowded = .ok crowdedStart.state := by
  rw [State.fromGenesis, sortedPairs_crowded]
  rfl

theorem reachable_crowded : Reachable crowded crowdedStart := by
  refine ⟨.default, crowdedStart, [], ?_, rfl⟩
  rw [Blockchain.fromGenesisWithConsensus, Blockchain.fromGenesis, fromGenesis_crowded]
  rfl

/-- The document is accepted, but the supply is no word, and the receiver can be
    sent nothing. -/
theorem crowded_overflows :
    State.fromGenesis crowded = .ok crowdedStart.state ∧ Reachable crowded crowdedStart ∧
      crowdedStart.state.totalBalanceSum = .error (.stateError "total balance sum overflow") ∧
      (crowdedStart.state.applyTransaction payment).1 =
        .error (.stateError "receiver balance overflow") :=
  ⟨fromGenesis_crowded, reachable_crowded, by decide +kernel, by decide +kernel⟩

/-- The balances of the sample chain fit. -/
theorem balances_fit_chain :
    chain.state.BalancesFit ∧ genesis.total = 1000 :=
  have hstart : State.fromGenesis genesis = .ok start.state := by
    rw [State.fromGenesis, sortedPairs_genesis]
    rfl
  ⟨(balances_fit_iff genesis start.state hstart).1.mpr (by decide) chain reachable_chain,
    by decide⟩

end Sample

end Trilogicon
