import Mathlib.Algebra.BigOperators.Group.Finset.Piecewise
import Mathlib.Algebra.Order.BigOperators.Group.Finset
import Mathlib.Algebra.Order.BigOperators.Group.List
import Mathlib.Data.List.Range
import Mathlib.Algebra.Ring.Nat
import Mathlib.Data.Finset.Basic

/-!
# Account Books

What a ledger with nonces is for, over an arbitrary type of account names.

A book knows some accounts and gives each a balance and a nonce, all as
natural numbers. Posting a transfer debits the sender by amount plus fee,
credits the receiver by the amount and raises the sender's nonce. Posting is
total: `Admits` says when a transfer may be posted, and only then do the
natural-number subtractions mean what they should.

A run of admitted transfers has a closed form. What an account holds at the
end plus all it sent is what it held at the start plus all it received; its
nonce has gone up by the number of transfers it sent. The closed form does not
mention the order of the transfers, so two admitted orders of the same
transfers end in the same book. Admission also fixes the nonces an account
used: they are the numbers counted up from the nonce it started with, which is
why no transfer can be posted twice.

## Main definitions

* `Transfer`: A transfer between accounts.
* `Book`: Known accounts with balances and nonces.
* `Book.Admits`: When a transfer may be posted.
* `Book.post`: Posting a transfer.
* `Book.AdmitsAll`: When a list of transfers may be posted in order.
* `Book.postAll`: Posting a list of transfers.
* `sentBy`: The transfers an account sent.
* `spent`, `received`: What an account sent and received in all.
* `Book.supply`: The sum of all balances.

## Theorems

* `postAll_balance`: The closed form of balances.
* `postAll_nonce`: The closed form of nonces.
* `postAll_known`: The closed form of the known accounts.
* `postAll_supply`: Fees are the only thing a run takes from the supply.
* `postAll_perm`: The order of admitted transfers does not matter.
* `admitsAll_nonces`: The nonces an account used are consecutive.
* `admitsAll_used_iff`: Which nonces an account used.
* `admitsAll_nonce_lt`: A used nonce is below that of its sender.
* `admitsAll_nodup`: No sender uses a nonce twice.
* `post_balance_of_ne_sender`: Only the sender loses balance.
* `two_balances_le`: Two accounts together hold at most the supply.
-/

namespace Trilogicon

universe u

variable {A : Type u} [DecidableEq A]

/-- A transfer between accounts named by `A`. -/
structure Transfer (A : Type u) where
  sender : A
  receiver : A
  amount : Nat
  fee : Nat
  nonce : Nat

/-- Known accounts, with a balance and a nonce for each. -/
@[ext] structure Book (A : Type u) where
  known : Finset A
  balance : A → Nat
  nonce : A → Nat

namespace Book

/-- A transfer may be posted: its sender is known, uses its next nonce, and
    can pay. -/
structure Admits (b : Book A) (t : Transfer A) : Prop where
  known : t.sender ∈ b.known
  nonce : b.nonce t.sender = t.nonce
  funded : t.amount + t.fee ≤ b.balance t.sender

/-- Posting a transfer. -/
def post (b : Book A) (t : Transfer A) : Book A where
  known := insert t.receiver b.known
  balance a := b.balance a - (if a = t.sender then t.amount + t.fee else 0) +
    (if a = t.receiver then t.amount else 0)
  nonce a := b.nonce a + if a = t.sender then 1 else 0

/-- The transfers may be posted one after another. -/
def AdmitsAll : Book A → List (Transfer A) → Prop
  | _, [] => True
  | b, t :: ts => b.Admits t ∧ AdmitsAll (b.post t) ts

/-- Posting transfers one after another. -/
def postAll (b : Book A) (ts : List (Transfer A)) : Book A :=
  ts.foldl post b

theorem postAll_cons (b : Book A) (t : Transfer A) (ts : List (Transfer A)) :
    b.postAll (t :: ts) = (b.post t).postAll ts := rfl

end Book

/-- The transfers an account sent. -/
def sentBy (ts : List (Transfer A)) (a : A) : List (Transfer A) :=
  ts.filter fun t => t.sender = a

/-- What an account sent in all, fees included. -/
def spent (ts : List (Transfer A)) (a : A) : Nat :=
  ((sentBy ts a).map fun t => t.amount + t.fee).sum

/-- What an account received in all. -/
def received (ts : List (Transfer A)) (a : A) : Nat :=
  ((ts.filter fun t => t.receiver = a).map Transfer.amount).sum

theorem sentBy_cons (t : Transfer A) (ts : List (Transfer A)) (a : A) :
    sentBy (t :: ts) a = if t.sender = a then t :: sentBy ts a else sentBy ts a := by
  simp only [sentBy, List.filter_cons, decide_eq_true_eq]

theorem spent_cons (t : Transfer A) (ts : List (Transfer A)) (a : A) :
    spent (t :: ts) a = (if a = t.sender then t.amount + t.fee else 0) + spent ts a := by
  rw [spent, sentBy_cons]
  by_cases h : t.sender = a
  · rw [if_pos h, if_pos h.symm, List.map_cons, List.sum_cons, spent]
  · rw [if_neg h, if_neg (fun hc => h hc.symm), Nat.zero_add, spent]

theorem received_cons (t : Transfer A) (ts : List (Transfer A)) (a : A) :
    received (t :: ts) a = (if a = t.receiver then t.amount else 0) + received ts a := by
  rw [received, List.filter_cons]
  by_cases h : t.receiver = a
  · rw [if_pos (by simpa only [decide_eq_true_eq] using h), if_pos h.symm, List.map_cons,
      List.sum_cons, received]
  · rw [if_neg (by simpa only [decide_eq_true_eq] using h), if_neg (fun hc => h hc.symm),
      Nat.zero_add, received]

namespace Book

/-- The debit of an admitted transfer never exceeds a balance. -/
theorem Admits.debit_le {b : Book A} {t : Transfer A} (h : b.Admits t) (a : A) :
    (if a = t.sender then t.amount + t.fee else 0) ≤ b.balance a := by
  by_cases ha : a = t.sender
  · rw [if_pos ha, ha]
    exact h.funded
  · rw [if_neg ha]
    exact Nat.zero_le _

theorem postAll_balance (b : Book A) (ts : List (Transfer A)) (h : b.AdmitsAll ts) (a : A) :
    (b.postAll ts).balance a + spent ts a = b.balance a + received ts a := by
  induction ts generalizing b with
  | nil => rfl
  | cons t ts ih =>
      have hstep := ih (b.post t) h.2
      have hdebit := h.1.debit_le a
      rw [postAll_cons, spent_cons, received_cons]
      simp only [post] at hstep ⊢
      omega

theorem postAll_nonce (b : Book A) (ts : List (Transfer A)) (a : A) :
    (b.postAll ts).nonce a = b.nonce a + (sentBy ts a).length := by
  induction ts generalizing b with
  | nil => rfl
  | cons t ts ih =>
      rw [postAll_cons, ih, sentBy_cons]
      simp only [post]
      by_cases h : t.sender = a
      · rw [if_pos h, if_pos h.symm, List.length_cons]
        omega
      · rw [if_neg h, if_neg (fun hc => h hc.symm), Nat.add_zero]

theorem postAll_known (b : Book A) (ts : List (Transfer A)) (a : A) :
    a ∈ (b.postAll ts).known ↔ a ∈ b.known ∨ ∃ t ∈ ts, t.receiver = a := by
  induction ts generalizing b with
  | nil => simp only [postAll, List.foldl_nil, List.not_mem_nil, false_and, exists_false, or_false]
  | cons t ts ih =>
      rw [postAll_cons, ih]
      simp only [post, Finset.mem_insert, List.exists_mem_cons_iff]
      constructor
      · rintro ((rfl | hk) | hr)
        · exact Or.inr (Or.inl rfl)
        · exact Or.inl hk
        · exact Or.inr (Or.inr hr)
      · rintro (hk | rfl | hr)
        · exact Or.inl (Or.inr hk)
        · exact Or.inl (Or.inl rfl)
        · exact Or.inr hr

/-- The order of admitted transfers does not matter: the closed forms of
    balance, nonce and known accounts only count them. -/
theorem postAll_perm (b : Book A) {ts us : List (Transfer A)} (hp : ts.Perm us)
    (hts : b.AdmitsAll ts) (hus : b.AdmitsAll us) : b.postAll ts = b.postAll us := by
  have hsent : ∀ a, (sentBy ts a).Perm (sentBy us a) := fun a => hp.filter _
  apply Book.ext
  · ext a
    rw [postAll_known, postAll_known]
    simp only [hp.mem_iff]
  · funext a
    have h1 := postAll_balance b ts hts a
    have h2 := postAll_balance b us hus a
    have hspent : spent ts a = spent us a := ((hsent a).map _).sum_eq
    have hrecv : received ts a = received us a := ((hp.filter _).map _).sum_eq
    omega
  · funext a
    rw [postAll_nonce, postAll_nonce, (hsent a).length_eq]

/-- The nonces an account used count up from the one it started with. -/
theorem admitsAll_nonces (b : Book A) (ts : List (Transfer A)) (h : b.AdmitsAll ts) (a : A) :
    (sentBy ts a).map Transfer.nonce = List.range' (b.nonce a) (sentBy ts a).length := by
  induction ts generalizing b with
  | nil => rfl
  | cons t ts ih =>
      have hrest := ih (b.post t) h.2
      rw [sentBy_cons]
      by_cases hs : t.sender = a
      · have hn : (b.post t).nonce a = b.nonce a + 1 := by
          simp only [post, if_pos hs.symm]
        rw [if_pos hs, List.map_cons, hrest, hn, List.length_cons, List.range'_succ, ← hs,
          h.1.nonce]
      · have hn : (b.post t).nonce a = b.nonce a := by
          simp only [post, if_neg (fun hc : a = t.sender => hs hc.symm), Nat.add_zero]
        rw [if_neg hs, hrest, hn]

/-- The nonces an account used in a run are those from the one it had up to the
    one it has. -/
theorem admitsAll_used_iff (b : Book A) (ts : List (Transfer A)) (h : b.AdmitsAll ts) (a : A)
    (k : Nat) :
    (∃ t ∈ ts, t.sender = a ∧ t.nonce = k) ↔ b.nonce a ≤ k ∧ k < (b.postAll ts).nonce a := by
  rw [postAll_nonce, ← List.mem_range'_1, ← admitsAll_nonces b ts h a, List.mem_map]
  simp only [sentBy, List.mem_filter, decide_eq_true_eq, and_assoc]

/-- After a run every nonce that was used is below that of its sender. -/
theorem admitsAll_nonce_lt (b : Book A) (ts : List (Transfer A)) (h : b.AdmitsAll ts)
    {t : Transfer A} (ht : t ∈ ts) : t.nonce < (b.postAll ts).nonce t.sender :=
  ((admitsAll_used_iff b ts h t.sender t.nonce).mp ⟨t, ht, rfl, rfl⟩).2

/-- No sender uses a nonce twice. -/
theorem admitsAll_nodup (b : Book A) (ts : List (Transfer A)) (h : b.AdmitsAll ts) :
    (ts.map fun t => (t.sender, t.nonce)).Nodup := by
  induction ts generalizing b with
  | nil => exact List.nodup_nil
  | cons t ts ih =>
      rw [List.map_cons, List.nodup_cons]
      refine ⟨?_, ih (b.post t) h.2⟩
      intro hmem
      rcases List.mem_map.mp hmem with ⟨t', ht', heq⟩
      rw [Prod.mk.injEq] at heq
      -- A later transfer of this sender uses a nonce past the one just used.
      have hlow := ((admitsAll_used_iff (b.post t) ts h.2 t.sender t.nonce).mp
        ⟨t', ht', heq⟩).1
      simp only [post, if_true, h.1.nonce] at hlow
      omega

/-- An account that did not send a transfer does not lose by it. -/
theorem post_balance_of_ne_sender (b : Book A) (t : Transfer A) (a : A) (h : a ≠ t.sender) :
    b.balance a ≤ (b.post t).balance a ∧ (b.post t).nonce a = b.nonce a := by
  simp only [post, if_neg h, Nat.sub_zero, Nat.add_zero]
  exact ⟨Nat.le_add_right _ _, trivial⟩

/-! ### Supply -/

/-- The sum of all balances. -/
def supply (b : Book A) : Nat :=
  ∑ a ∈ b.known, b.balance a

/-- An unknown account holds nothing. -/
def Supported (b : Book A) : Prop :=
  ∀ a, a ∉ b.known → b.balance a = 0

theorem post_supported (b : Book A) (t : Transfer A) (h : b.Supported) :
    (b.post t).Supported := by
  intro a ha
  simp only [post, Finset.mem_insert, not_or] at ha ⊢
  rw [h a ha.2, if_neg ha.1, Nat.zero_sub]

/-- Two accounts together hold at most the supply. -/
theorem two_balances_le (b : Book A) (h : b.Supported) {x y : A} (hne : x ≠ y) :
    b.balance x + b.balance y ≤ b.supply := by
  have hwide : b.supply = ∑ a ∈ b.known ∪ {x, y}, b.balance a :=
    Finset.sum_subset Finset.subset_union_left fun a _ ha => h a ha
  rw [hwide, ← Finset.sum_pair hne]
  exact Finset.sum_le_sum_of_subset Finset.subset_union_right

theorem post_supply (b : Book A) (t : Transfer A) (hs : b.Supported) (h : b.Admits t) :
    (b.post t).supply + t.fee = b.supply := by
  -- Widen the old sum to the accounts known afterwards: the receiver held
  -- nothing if it was unknown.
  have hwide : ∑ a ∈ insert t.receiver b.known, b.balance a = b.supply := by
    by_cases hr : t.receiver ∈ b.known
    · rw [Finset.insert_eq_self.mpr hr, supply]
    · rw [Finset.sum_insert hr, hs _ hr, Nat.zero_add, supply]
  have hdebit : ∑ a ∈ insert t.receiver b.known,
      (if a = t.sender then t.amount + t.fee else 0) = t.amount + t.fee := by
    rw [Finset.sum_ite_eq' (insert t.receiver b.known) t.sender,
      if_pos (Finset.mem_insert_of_mem h.known)]
  have hcredit : ∑ a ∈ insert t.receiver b.known,
      (if a = t.receiver then t.amount else 0) = t.amount := by
    rw [Finset.sum_ite_eq' (insert t.receiver b.known) t.receiver,
      if_pos (Finset.mem_insert_self _ _)]
  have hsum : (b.post t).supply + ∑ a ∈ insert t.receiver b.known,
      (if a = t.sender then t.amount + t.fee else 0)
      = ∑ a ∈ insert t.receiver b.known, b.balance a +
        ∑ a ∈ insert t.receiver b.known, (if a = t.receiver then t.amount else 0) := by
    rw [supply, post, ← Finset.sum_add_distrib, ← Finset.sum_add_distrib]
    refine Finset.sum_congr rfl (fun a _ => ?_)
    have := h.debit_le a
    simp only
    omega
  rw [hdebit, hcredit, hwide] at hsum
  omega

/-- Fees are the only thing a run takes from the supply. -/
theorem postAll_supply (b : Book A) (ts : List (Transfer A)) (hs : b.Supported)
    (h : b.AdmitsAll ts) :
    (b.postAll ts).supply + (ts.map Transfer.fee).sum = b.supply := by
  induction ts generalizing b with
  | nil => rfl
  | cons t ts ih =>
      have hrest := ih (b.post t) (post_supported b t hs) h.2
      have hstep := post_supply b t hs h.1
      rw [postAll_cons, List.map_cons, List.sum_cons]
      omega

end Book

end Trilogicon
