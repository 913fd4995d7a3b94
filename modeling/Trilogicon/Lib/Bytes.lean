import Mathlib.Data.List.Induction
import Mathlib.Data.Nat.Basic
import Mathlib.Tactic.Ring

/-!
# Big-Endian Words

Byte strings and the fixed-width big-endian words stored in them.

A word of `w` bytes is written most significant byte first. Writing is taken
modulo `256 ^ w`, so the width alone decides how many bytes come out and no
caller has to carry a bound to know where the next field starts. The bound
only returns when a word is read back: `ofBe_beBytes` recovers the number up to
the width, and `beBytes_ofBe` recovers the bytes with no side condition at all.
The second is the direction canonicity arguments use.

## Main definitions

* `Bytes`: A byte string.
* `beBytes`: The big-endian bytes of a number, at a given width.
* `ofBe`: The number a big-endian byte string denotes.

## Theorems

* `beBytes_length`: A word has exactly its width in bytes.
* `ofBe_lt`: A byte string denotes a number below the power of its length.
* `ofBe_beBytes`: Reading back a written word.
* `beBytes_ofBe`: Writing back a read word.
* `beBytes_ofBe_take`: Splitting off a word.
-/

namespace Trilogicon

/-- A byte string. -/
abbrev Bytes := List UInt8

/-- The `w` big-endian bytes of `n`, taken modulo `256 ^ w`. -/
def beBytes : Nat → Nat → Bytes
  | 0, _ => []
  | w + 1, n => beBytes w (n / 256) ++ [UInt8.ofNat n]

/-- The number a big-endian byte string denotes. -/
def ofBe (bs : Bytes) : Nat :=
  bs.foldl (fun acc b => acc * 256 + b.toNat) 0

@[simp] theorem beBytes_length (w n : Nat) : (beBytes w n).length = w := by
  induction w generalizing n with
  | zero => rfl
  | succ k ih => simp only [beBytes, List.length_append, ih, List.length_singleton]

theorem ofBe_append_singleton (bs : Bytes) (b : UInt8) :
    ofBe (bs ++ [b]) = ofBe bs * 256 + b.toNat := by
  simp only [ofBe, List.foldl_append, List.foldl_cons, List.foldl_nil]

theorem ofBe_lt (bs : Bytes) : ofBe bs < 256 ^ bs.length := by
  induction bs using List.reverseRecOn with
  | nil => decide
  | append_singleton xs b ih =>
      have hb : b.toNat < 256 := b.toNat_lt
      rw [ofBe_append_singleton, List.length_append, List.length_singleton, pow_succ]
      omega

theorem ofBe_beBytes (w n : Nat) : ofBe (beBytes w n) = n % 256 ^ w := by
  induction w generalizing n with
  | zero => rw [pow_zero, Nat.mod_one]; rfl
  | succ k ih =>
      rw [beBytes, ofBe_append_singleton, ih, pow_succ, Nat.mul_comm (256 ^ k) 256,
        Nat.mod_mul]
      simp only [UInt8.toNat_ofNat']
      omega

theorem ofBe_beBytes_of_lt {w n : Nat} (h : n < 256 ^ w) : ofBe (beBytes w n) = n := by
  rw [ofBe_beBytes, Nat.mod_eq_of_lt h]

theorem beBytes_ofBe (bs : Bytes) : beBytes bs.length (ofBe bs) = bs := by
  induction bs using List.reverseRecOn with
  | nil => rfl
  | append_singleton xs b ih =>
      have hb : b.toNat < 256 := b.toNat_lt
      have hdiv : (ofBe xs * 256 + b.toNat) / 256 = ofBe xs := by omega
      have hbyte : UInt8.ofNat (ofBe xs * 256 + b.toNat) = b := by
        apply UInt8.toNat_inj.mp
        simp only [UInt8.toNat_ofNat']
        omega
      rw [List.length_append, List.length_singleton, beBytes, ofBe_append_singleton, hdiv, ih,
        hbyte]

theorem beBytes_ofBe_of_length {bs : Bytes} {w : Nat} (h : bs.length = w) :
    beBytes w (ofBe bs) = bs := by
  rw [← h, beBytes_ofBe]

/-- Bytes that start with a word are the word that is read and what follows. -/
theorem beBytes_ofBe_take {w : Nat} {data : Bytes} (h : w ≤ data.length) :
    beBytes w (ofBe (data.take w)) ++ data.drop w = data := by
  have hword := beBytes_ofBe (data.take w)
  rw [List.length_take, Nat.min_eq_left h] at hword
  rw [hword, List.take_append_drop]

end Trilogicon
