import Mathlib.Data.List.Sort
import Trilogicon.Core.Encoding
import Trilogicon.Core.ReplaySandbox
import Trilogicon.Theory.Binding

/-!
# The Fingerprint of a Table

The bytes that `sandbox_state_fingerprint` digests determine the table of
accounts, and nothing but the table determines them.

The accounts are written in the order of their addresses, each with the length
of its address, the address, the balance and the nonce. The length says where an
address ends and the other fields have a fixed size, so a record tells where it
ends, and records are read back one by one. The count in front is not needed for
it. That an address may hold any text does not matter, since nothing is looked
for in it.

The table is a hash map, and its entries come in an arbitrary order. They are
sorted before they are written. An address is in one entry only, so the sorted
list does not depend on the order before.

## Main definitions

* `readAccount`: What reads an account back.

## Theorems

* `fingerprintAccount_delimited`: A record tells where it ends.
* `mem_accountsSorted`: The sorted accounts are the accounts.
* `mergeSort_entries`: The order of the entries does not matter.
* `fingerprintPreimage_canonical`: The bytes determine the table.
-/

namespace Trilogicon

/-- What reads an account back: the address, the balance and the nonce. -/
def readAccount : Cursor (String × UInt64 × UInt64) := do
  let address ← Cursor.takeString
  let balance ← Cursor.takeU64Be
  let nonce ← Cursor.takeU64Be
  pure (address, balance, nonce)

/-- An entry of a table: the account is stored under its own address, whose
    length is a 32-bit word. -/
def ShortEntry (e : Address × Account) : Prop :=
  (utf8 e.1.value).length < 2 ^ 32 ∧ e.2.address = e.1

theorem readAccount_fingerprintAccount {e : Address × Account} (he : ShortEntry e)
    (rest : Bytes) :
    readAccount (fingerprintAccount e ++ rest) =
      .ok ((e.1.value, e.2.balance, e.2.nonce), rest) := by
  have haddress : pushString e.1.value =
      some (beBytes 4 (utf8 e.1.value).length ++ utf8 e.1.value) := by
    unfold pushString
    exact pushBytes_eq_some.mpr ⟨he.1, rfl⟩
  unfold readAccount fingerprintAccount
  simp only [Parser.bind_ok_iff, Cursor.takeString_ok_iff, Cursor.takeU64Be_ok_iff,
    Parser.pure_ok_iff]
  refine ⟨e.1.value, _, ⟨_, haddress, ?_⟩, e.2.balance, _, rfl, e.2.nonce, _, rfl, rfl, rfl⟩
  unfold pushU64Be
  simp only [List.append_assoc]

/-- A record tells where it ends. -/
theorem fingerprintAccount_delimited : Delimited fingerprintAccount ShortEntry where
  ne_nil e _ hnil := by
    have hlen := congrArg List.length hnil
    unfold fingerprintAccount at hlen
    simp only [List.length_append, beBytes_length, List.length_nil] at hlen
    omega
  inj := by
    intro a b x y ha hb heq
    -- Reading both sides gives the same fields and the same rest.
    have hread := readAccount_fingerprintAccount ha x
    rw [heq, readAccount_fingerprintAccount hb y, Except.ok.injEq] at hread
    simp only [Prod.mk.injEq] at hread
    rcases hread with ⟨⟨hvalue, hbalance, hnonce⟩, hrest⟩
    rcases a with ⟨⟨address⟩, ⟨_, balance, nonce⟩⟩
    rcases b with ⟨⟨address'⟩, ⟨_, balance', nonce'⟩⟩
    simp only [ShortEntry] at ha hb hvalue hbalance hnonce
    rw [ha.2, hb.2, hvalue, hbalance, hnonce]
    exact ⟨rfl, hrest.symm⟩

namespace State

/-- The addresses of the sorted accounts are the sorted addresses. -/
theorem accountsSorted_map_fst (s : State) :
    s.accountsSorted.map Prod.fst = s.accounts.keys.sort addressLe := by
  -- By induction on the addresses: none of them is skipped by the lookup.
  have hall : ∀ as : List Address, (∀ a ∈ as, a ∈ s.accounts) →
      (as.filterMap fun a => (s.getAccount a).map fun acc => (a, acc)).map Prod.fst = as := by
    intro as
    induction as with
    | nil => exact fun _ => rfl
    | cons a as ih =>
        intro hin
        rw [List.forall_mem_cons] at hin
        rcases Finmap.mem_iff.mp hin.1 with ⟨acc, hacc⟩
        have hget : s.getAccount a = some acc := hacc
        rw [List.filterMap_cons, hget, Option.map_some, List.map_cons, ih hin.2]
  refine hall _ fun a ha => ?_
  rwa [Finset.mem_sort, Finmap.mem_keys] at ha

/-- The sorted accounts are the accounts. -/
theorem mem_accountsSorted {s : State} {a : Address} {acc : Account} :
    (a, acc) ∈ s.accountsSorted ↔ s.getAccount a = some acc := by
  unfold accountsSorted
  rw [List.mem_filterMap]
  constructor
  · intro h
    rcases h with ⟨b, _, hb⟩
    rcases Option.map_eq_some_iff.mp hb with ⟨acc', hacc', heq⟩
    rw [Prod.mk.injEq] at heq
    rw [← heq.1, ← heq.2]
    exact hacc'
  · intro h
    refine ⟨a, ?_, by rw [h, Option.map_some]⟩
    rw [Finset.mem_sort, Finmap.mem_keys]
    exact Finmap.mem_iff.mpr ⟨acc, h⟩

theorem accountsSorted_nodup (s : State) : s.accountsSorted.Nodup := by
  refine List.Nodup.of_map Prod.fst ?_
  rw [accountsSorted_map_fst]
  exact Finset.sort_nodup _ _

theorem accountsSorted_pairwise (s : State) :
    s.accountsSorted.Pairwise fun x y => addressLe x.1 y.1 := by
  rw [← List.pairwise_map, accountsSorted_map_fst]
  exact Finset.pairwise_sort _ _

/-- However the entries of the table are listed, sorting them gives the sorted
    accounts. -/
theorem mergeSort_entries {s : State} {entries : List (Address × Account)}
    (hnodup : entries.Nodup)
    (hmem : ∀ a acc, (a, acc) ∈ entries ↔ s.getAccount a = some acc) :
    (entries.mergeSort fun x y => decide (addressLe x.1 y.1)) = s.accountsSorted := by
  have hperm : (entries.mergeSort fun x y => decide (addressLe x.1 y.1)).Perm
      s.accountsSorted := by
    refine (List.mergeSort_perm _ _).trans ?_
    refine (List.perm_ext_iff_of_nodup hnodup s.accountsSorted_nodup).mpr fun e => ?_
    rw [hmem e.1 e.2, ← mem_accountsSorted]
  have hsorted : (entries.mergeSort fun x y => decide (addressLe x.1 y.1)).Pairwise
      fun x y => addressLe x.1 y.1 := by
    have hpair : (entries.mergeSort fun x y => decide (addressLe x.1 y.1)).Pairwise
        fun x y => decide (addressLe x.1 y.1) = true := by
      refine List.pairwise_mergeSort ?_ ?_ entries
      · intro a b c hab hbc
        exact decide_eq_true
          (Trans.trans (of_decide_eq_true hab) (of_decide_eq_true hbc) : addressLe a.1 c.1)
      · intro a b
        rw [Bool.or_eq_true, decide_eq_true_eq, decide_eq_true_eq]
        exact Std.Total.total a.1 b.1
    exact hpair.imp fun h => of_decide_eq_true h
  -- Two entries at the same place in the order have one address, so they are one.
  refine hperm.eq_of_pairwise (fun x y hx hy hxy hyx => ?_) hsorted s.accountsSorted_pairwise
  have haddress : x.1 = y.1 := Std.Antisymm.antisymm x.1 y.1 hxy hyx
  have hgetx := (hmem x.1 x.2).mp (List.mem_mergeSort.mp hx)
  have hgety := mem_accountsSorted.mp hy
  rw [haddress, hgety, Option.some.injEq] at hgetx
  exact Prod.ext haddress hgetx.symm

/-- Tables with the same balances and nonces at the same addresses are the
    same, since an account is stored under its own address. -/
theorem ext_balance_nonce {s t : State}
    (h : ∀ a, (s.getAccount a).map (fun acc => (acc.balance, acc.nonce)) =
      (t.getAccount a).map fun acc => (acc.balance, acc.nonce)) : s = t := by
  refine ext_accounts (Finmap.ext_lookup fun a => ?_)
  have ha := h a
  unfold getAccount at ha
  cases hs : s.accounts.lookup a with
  | none =>
      rw [hs, Option.map_none] at ha
      exact (Option.map_eq_none_iff.mp ha.symm).symm
  | some acc =>
      rw [hs, Option.map_some] at ha
      rcases Option.map_eq_some_iff.mp ha.symm with ⟨acc', ht, heq⟩
      -- Besides these two an account has its address, which is the key.
      have haddress := (s.keyed a acc hs).trans (t.keyed a acc' ht).symm
      rw [Prod.mk.injEq] at heq
      rw [ht]
      cases acc
      cases acc'
      simp only at haddress heq
      rw [haddress, heq.1, heq.2]

end State

/-- Every address of the table has a length that is a 32-bit word. -/
def ShortAddresses (s : State) : Prop :=
  ∀ a acc, s.getAccount a = some acc → (utf8 a.value).length < 2 ^ 32

theorem ShortAddresses.entries {s : State} (h : ShortAddresses s) :
    ∀ e ∈ s.accountsSorted, ShortEntry e := by
  intro e he
  have hget := State.mem_accountsSorted.mp he
  exact ⟨h e.1 e.2 hget, s.keyed e.1 e.2 hget⟩

/-- The bytes behind the fingerprint determine the balance and the nonce of every
    address, and are determined by them. In whatever order the entries of the
    table are listed, the same bytes are written. -/
theorem fingerprintPreimage_canonical (s t : State) (hs : ShortAddresses s)
    (ht : ShortAddresses t) :
    (sandboxStateFingerprintPreimage s = sandboxStateFingerprintPreimage t ↔
      ∀ a, (s.getAccount a).map (fun acc => (acc.balance, acc.nonce)) =
        (t.getAccount a).map fun acc => (acc.balance, acc.nonce)) ∧
    ∀ entries : List (Address × Account), entries.Nodup →
      (∀ a acc, (a, acc) ∈ entries ↔ s.getAccount a = some acc) →
      beBytes 8 entries.length ++ (entries.mergeSort fun x y =>
        decide (State.addressLe x.1 y.1)).flatMap fingerprintAccount =
          sandboxStateFingerprintPreimage s := by
  refine ⟨⟨?_, ?_⟩, ?_⟩
  · intro heq a
    -- The counts have the same size, so the records start at the same place.
    unfold sandboxStateFingerprintPreimage at heq
    have hrecords := (List.append_inj heq (by rw [beBytes_length, beBytes_length])).2
    have hsorted := fingerprintAccount_delimited.flatMap_inj hs.entries ht.entries hrecords
    have hget : s.getAccount a = t.getAccount a := by
      refine Option.ext fun acc => ?_
      rw [← State.mem_accountsSorted, hsorted, State.mem_accountsSorted]
    rw [hget]
  · intro hmap
    rw [State.ext_balance_nonce hmap]
  · intro entries hnodup hmem
    have hsort := State.mergeSort_entries hnodup hmem
    have hlen : s.accountsSorted.length = entries.length := by
      rw [← hsort, List.length_mergeSort]
    unfold sandboxStateFingerprintPreimage
    rw [hsort, hlen]

/-! ### Two orders of insertion -/

namespace Sample

/-- Two accounts, one address a part of the other. -/
def twoPairs : List (Address × UInt64) :=
  [(⟨"a"⟩, 1), (⟨"a|1"⟩, 2)]

/-- Inserting the accounts in the other order gives the same bytes. -/
theorem fingerprint_twoPairs :
    sandboxStateFingerprintPreimage (State.new.insertPairs twoPairs) =
      sandboxStateFingerprintPreimage (State.new.insertPairs twoPairs.reverse) := by
  have hnone : ∀ pairs ∈ [twoPairs, twoPairs.reverse], ∀ a : Address,
      a ≠ ⟨"a"⟩ → a ≠ ⟨"a|1"⟩ → (State.new.insertPairs pairs).getAccount a = none := by
    intro pairs hpairs a ha hb
    have hfst : ∀ pairs ∈ [twoPairs, twoPairs.reverse],
        ∀ p ∈ pairs.map Prod.fst, p = ⟨"a"⟩ ∨ p = ⟨"a|1"⟩ := by
      decide
    have hnot : a ∉ pairs.map Prod.fst := by
      intro hc
      rcases hfst pairs hpairs a hc with heq | heq
      · exact ha heq
      · exact hb heq
    rw [State.getAccount_insertPairs_of_notMem hnot]
    rfl
  have hshort : ∀ pairs ∈ [twoPairs, twoPairs.reverse],
      ShortAddresses (State.new.insertPairs pairs) := by
    intro pairs hpairs a acc hget
    by_cases ha : a = ⟨"a"⟩
    · rw [ha]
      decide
    · by_cases hb : a = ⟨"a|1"⟩
      · rw [hb]
        decide
      · rw [hnone pairs hpairs a ha hb] at hget
        exact absurd hget (by simp only [reduceCtorEq, not_false_eq_true])
  refine (fingerprintPreimage_canonical _ _ (hshort _ List.mem_cons_self)
    (hshort _ (List.mem_cons_of_mem _ List.mem_cons_self))).1.mpr fun a => ?_
  by_cases ha : a = ⟨"a"⟩
  · rw [ha]
    decide
  · by_cases hb : a = ⟨"a|1"⟩
    · rw [hb]
      decide
    · rw [hnone _ List.mem_cons_self a ha hb,
        hnone _ (List.mem_cons_of_mem _ List.mem_cons_self) a ha hb]

end Sample

end Trilogicon
