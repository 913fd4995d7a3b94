import Mathlib.Algebra.Ring.Nat

/-!
# Checked Machine Words

Arithmetic on unsigned 64-bit words that reports overflow instead of
wrapping. Each operation is characterised once by what it says about the
numbers the words denote; proofs about a ledger then work with natural
numbers and never look at a word again.

## Main definitions

* `checkedAdd`: Addition that fails on overflow.
* `checkedSub`: Subtraction that fails on underflow.
* `saturatingAdd`, `saturatingSub`, `saturatingMul`: Operations that stop at the
  largest word or at zero.

## Theorems

* `checkedAdd_eq_some`: A successful addition adds the numbers.
* `checkedAdd_eq_none`: When an addition fails.
* `exists_checkedAdd`, `exists_checkedSub`: When the operations succeed.
* `checkedSub_eq_some`: A successful subtraction subtracts the numbers.
* `saturatingAdd_toNat`: A saturated sum is the sum or the largest word.
* `saturatingSub_toNat`, `saturatingMul_toNat`: The same for the other two.
-/

namespace Trilogicon

/-- `u64::checked_add`. -/
def checkedAdd (a b : UInt64) : Option UInt64 :=
  if a.toNat + b.toNat < 2 ^ 64 then some (a + b) else none

/-- `u64::checked_sub`. -/
def checkedSub (a b : UInt64) : Option UInt64 :=
  if b ≤ a then some (a - b) else none

/-- `u64::saturating_add`. -/
def saturatingAdd (a b : UInt64) : UInt64 :=
  if a.toNat + b.toNat < 2 ^ 64 then a + b else UInt64.ofNat (2 ^ 64 - 1)

/-- `u64::saturating_sub`. -/
def saturatingSub (a b : UInt64) : UInt64 :=
  if b ≤ a then a - b else 0

/-- `u64::saturating_mul`. -/
def saturatingMul (a b : UInt64) : UInt64 :=
  if a.toNat * b.toNat < 2 ^ 64 then a * b else UInt64.ofNat (2 ^ 64 - 1)

theorem checkedAdd_eq_some {a b c : UInt64} :
    checkedAdd a b = some c ↔ a.toNat + b.toNat = c.toNat := by
  have hc : c.toNat < 2 ^ 64 := c.toNat_lt
  unfold checkedAdd
  by_cases h : a.toNat + b.toNat < 2 ^ 64
  · rw [if_pos h, Option.some.injEq, ← UInt64.toNat_inj, UInt64.toNat_add, Nat.mod_eq_of_lt h]
  · rw [if_neg h]
    constructor
    · intro hn
      exact absurd hn (by simp only [reduceCtorEq, not_false_eq_true])
    · intro hs
      omega

theorem checkedAdd_eq_none {a b : UInt64} :
    checkedAdd a b = none ↔ 2 ^ 64 ≤ a.toNat + b.toNat := by
  unfold checkedAdd
  by_cases h : a.toNat + b.toNat < 2 ^ 64
  · rw [if_pos h]
    exact ⟨fun hc => absurd hc (by simp only [reduceCtorEq, not_false_eq_true]), fun hc => by omega⟩
  · rw [if_neg h]
    exact ⟨fun _ => by omega, fun _ => rfl⟩

theorem exists_checkedAdd {a b : UInt64} (h : a.toNat + b.toNat < 2 ^ 64) :
    ∃ c, checkedAdd a b = some c :=
  ⟨a + b, if_pos h⟩

theorem exists_checkedSub {a b : UInt64} (h : b.toNat ≤ a.toNat) : ∃ c, checkedSub a b = some c :=
  ⟨a - b, if_pos (UInt64.le_iff_toNat_le.mpr h)⟩

theorem checkedSub_eq_some {a b c : UInt64} :
    checkedSub a b = some c ↔ c.toNat + b.toNat = a.toNat := by
  unfold checkedSub
  by_cases h : b ≤ a
  · have hle : b.toNat ≤ a.toNat := UInt64.le_iff_toNat_le.mp h
    rw [if_pos h, Option.some.injEq, ← UInt64.toNat_inj, UInt64.toNat_sub_of_le a b h]
    omega
  · have hlt : a.toNat < b.toNat := by
      rw [UInt64.le_iff_toNat_le] at h
      omega
    rw [if_neg h]
    constructor
    · intro hn
      exact absurd hn (by simp only [reduceCtorEq, not_false_eq_true])
    · intro hs
      omega

theorem saturatingAdd_toNat (a b : UInt64) :
    (saturatingAdd a b).toNat = min (a.toNat + b.toNat) (2 ^ 64 - 1) := by
  unfold saturatingAdd
  by_cases h : a.toNat + b.toNat < 2 ^ 64
  · rw [if_pos h, UInt64.toNat_add, Nat.mod_eq_of_lt h]
    omega
  · rw [if_neg h, UInt64.toNat_ofNat']
    omega

theorem saturatingSub_toNat (a b : UInt64) : (saturatingSub a b).toNat = a.toNat - b.toNat := by
  unfold saturatingSub
  by_cases h : b ≤ a
  · rw [if_pos h, UInt64.toNat_sub_of_le a b h]
  · rw [UInt64.le_iff_toNat_le] at h
    rw [if_neg (fun hc => h (UInt64.le_iff_toNat_le.mp hc)), UInt64.toNat_zero]
    omega

theorem saturatingMul_toNat (a b : UInt64) :
    (saturatingMul a b).toNat = min (a.toNat * b.toNat) (2 ^ 64 - 1) := by
  unfold saturatingMul
  by_cases h : a.toNat * b.toNat < 2 ^ 64
  · rw [if_pos h, UInt64.toNat_mul, Nat.mod_eq_of_lt h]
    omega
  · rw [if_neg h, UInt64.toNat_ofNat']
    omega

end Trilogicon
