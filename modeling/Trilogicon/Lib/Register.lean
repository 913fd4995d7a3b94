import Mathlib.Algebra.Ring.Nat
import Mathlib.Logic.Function.Iterate

/-!
# Shift Registers with Feedback

A register of `w` bits that is shifted down bit by bit and, whenever a one falls
out, is combined with a fixed word. Symbols are absorbed by combining them with
the register before a number of shifts. This is how a cyclic checksum is
computed without tables.

Everything here follows from two facts about one shift. It is linear, so two
runs can be compared by their difference. And if the fixed word has its top bit
set, then the top bit tells whether a one fell out: a result whose top bit is
clear came from twice that number. So a shift can be undone, and a result that
is small enough determines all that was shifted. A burst of symbols that is no
longer than the register must therefore show.

## Main definitions

* `Register.shift`: One shift.
* `Register.absorb`: Absorb symbols, each with `m` shifts.
* `Burst`: Two sequences that differ in one window only.

## Theorems

* `Register.shift_xor`: A shift is linear.
* `Register.toNat_of_shifts`: What a small result came from.
* `Register.absorb_left_injective`: Absorbing loses nothing of the register.
* `Register.absorb_ne_of_window`: A changed window shows.
* `Burst.within`: A burst inside a part of a sequence is a burst of that part.
-/

namespace Trilogicon

namespace Register

variable {w : Nat} (poly : BitVec w)

/-- Shift down once; if a one falls out, combine with `poly`. -/
def shift (c : BitVec w) : BitVec w :=
  if c.getLsbD 0 then (c >>> 1) ^^^ poly else c >>> 1

/-- Combine each symbol with the register, and shift `m` times. -/
def absorb (m : Nat) (c : BitVec w) (symbols : List (BitVec w)) : BitVec w :=
  symbols.foldl (fun c b => (shift poly)^[m] (c ^^^ b)) c

variable {poly}

/-! ### One shift -/

theorem shift_eq (c : BitVec w) :
    shift poly c = (c >>> 1) ^^^ (if c.getLsbD 0 then poly else 0#w) := by
  unfold shift
  cases c.getLsbD 0 with
  | false => simp only [Bool.false_eq_true, if_false, BitVec.xor_zero]
  | true => simp only [if_true]

/-- A shift is linear: the shifted bits are, and so is what falls out. -/
theorem shift_xor (x y : BitVec w) : shift poly (x ^^^ y) = shift poly x ^^^ shift poly y := by
  have hfeedback : ∀ a b : Bool, (if (a ^^ b) then poly else 0#w) =
      (if a then poly else 0#w) ^^^ (if b then poly else 0#w) := by
    intro a b
    cases a with
    | false => simp only [Bool.false_xor, Bool.false_eq_true, if_false, BitVec.zero_xor]
    | true =>
        cases b with
        | false => simp only [Bool.xor_false, Bool.false_eq_true, if_false, BitVec.xor_zero]
        | true =>
            simp only [Bool.xor_self, Bool.false_eq_true, if_false, if_true, BitVec.xor_self]
  rw [shift_eq, shift_eq, shift_eq, BitVec.getLsbD_xor, BitVec.ushiftRight_xor_distrib, hfeedback]
  ac_rfl

/-- A result with a clear top bit is half of what it came from: a one that fell
    out would have set the bit. -/
theorem toNat_of_shift (hpoly : poly.msb = true) {x : BitVec w}
    (h : (shift poly x).toNat < 2 ^ (w - 1)) : x.toNat = 2 * (shift poly x).toNat := by
  have hpos : 0 < w := by
    by_contra hzero
    rw [BitVec.msb_of_zero_length (by omega)] at hpoly
    exact absurd hpoly (by decide)
  have hhalf : (x >>> 1).toNat = x.toNat / 2 := by
    rw [BitVec.toNat_ushiftRight, Nat.shiftRight_eq_div_pow, Nat.pow_one]
  -- An even number is halved. An odd one would set the top bit.
  cases hlsb : x.getLsbD 0 with
  | false =>
      have heven : x.toNat % 2 = 0 := by
        rw [BitVec.getLsbD, Nat.testBit_zero] at hlsb
        have := of_decide_eq_false hlsb
        omega
      rw [shift, if_neg (by rw [hlsb]; decide), hhalf]
      omega
  | true =>
      have hmsb : (shift poly x).msb = true := by
        rw [shift, if_pos hlsb, BitVec.msb_xor, BitVec.msb_ushiftRight, hpoly]
        rfl
      have hge := BitVec.msb_eq_true_iff_two_mul_ge.mp hmsb
      have hpow : 2 ^ w = 2 * 2 ^ (w - 1) := by
        rw [← Nat.pow_succ', Nat.succ_eq_add_one, Nat.sub_add_cancel hpos]
      omega

/-- The same for several shifts: no one fell out during any of them. -/
theorem toNat_of_shifts (hpoly : poly.msb = true) {k : Nat} (hk : k ≤ w) {x : BitVec w}
    (h : ((shift poly)^[k] x).toNat < 2 ^ (w - k)) :
    x.toNat = 2 ^ k * ((shift poly)^[k] x).toNat := by
  induction k with
  | zero => rw [Function.iterate_zero_apply, Nat.pow_zero, Nat.one_mul]
  | succ k ih =>
      rw [Function.iterate_succ_apply'] at h ⊢
      -- The last shift doubles backwards, and leaves room for the others.
      have hle : 2 ^ (w - (k + 1)) ≤ 2 ^ (w - 1) := Nat.pow_le_pow_right (by decide) (by omega)
      have hlast := toNat_of_shift hpoly (Nat.lt_of_lt_of_le h hle)
      have hpow : 2 ^ (w - k) = 2 * 2 ^ (w - (k + 1)) := by
        rw [← Nat.pow_succ']
        congr 1
        omega
      rw [ih (by omega) (by omega), hlast, Nat.pow_succ, Nat.mul_assoc]

theorem shift_injective (hpoly : poly.msb = true) : Function.Injective (shift poly) := by
  intro x y h
  -- The difference is shifted to zero, and zero came from zero.
  have hzero : shift poly (x ^^^ y) = 0#w := by
    rw [shift_xor, h, BitVec.xor_self]
  have hnat := toNat_of_shift hpoly (x := x ^^^ y) (by
    rw [hzero, BitVec.toNat_ofNat, Nat.zero_mod]
    exact Nat.two_pow_pos _)
  rw [hzero, BitVec.toNat_ofNat, Nat.zero_mod, Nat.mul_zero] at hnat
  exact BitVec.xor_eq_zero_iff.mp (BitVec.eq_of_toNat_eq hnat)

theorem shifts_xor (k : Nat) (x y : BitVec w) :
    (shift poly)^[k] (x ^^^ y) = (shift poly)^[k] x ^^^ (shift poly)^[k] y := by
  induction k with
  | zero => rfl
  | succ k ih =>
      simp only [Function.iterate_succ_apply', ih, shift_xor]

/-! ### Absorbing symbols -/

theorem absorb_append (m : Nat) (c : BitVec w) (us vs : List (BitVec w)) :
    absorb poly m c (us ++ vs) = absorb poly m (absorb poly m c us) vs :=
  List.foldl_append

/-- The register before can be told from the register after. -/
theorem absorb_left_injective (hpoly : poly.msb = true) (m : Nat) (symbols : List (BitVec w)) :
    Function.Injective fun c => absorb poly m c symbols := by
  induction symbols with
  | nil => exact fun _ _ h => h
  | cons b symbols ih =>
      intro c d h
      have hshifted := ih h
      exact (BitVec.xor_left_inj _).mp ((shift_injective hpoly).iterate m hshifted)

/-- One symbol, read from the end: if the registers differ below bit `n` after
    it, they differ below bit `n + m` before it, and if they do not differ before
    it then neither do the symbols. -/
theorem symbol_of_shifts (hpoly : poly.msb = true) {m n : Nat} (hroom : n + m ≤ w)
    {u v c d : BitVec w} (hu : u.toNat < 2 ^ m) (hv : v.toNat < 2 ^ m)
    (hafter : ((shift poly)^[m] (c ^^^ u) ^^^ (shift poly)^[m] (d ^^^ v)).toNat < 2 ^ n) :
    (c ^^^ d).toNat < 2 ^ (n + m) ∧ (c = d → u = v) := by
  have huv : (u ^^^ v).toNat < 2 ^ m := by
    rw [BitVec.toNat_xor]
    exact Nat.xor_lt_two_pow hu hv
  have hsplit : c ^^^ u ^^^ (d ^^^ v) = c ^^^ d ^^^ (u ^^^ v) := by ac_rfl
  rw [← shifts_xor, hsplit] at hafter
  -- What came out is small, so nothing fell out.
  have hbefore := toNat_of_shifts hpoly (k := m) (by omega)
    (Nat.lt_of_lt_of_le hafter (Nat.pow_le_pow_right (by decide) (by omega)))
  refine ⟨?_, ?_⟩
  · have hwhole : (c ^^^ d ^^^ (u ^^^ v)).toNat < 2 ^ (n + m) := by
      rw [hbefore, Nat.pow_add, Nat.mul_comm]
      exact Nat.mul_lt_mul_of_pos_right hafter (Nat.two_pow_pos m)
    have hdiff : c ^^^ d = c ^^^ d ^^^ (u ^^^ v) ^^^ (u ^^^ v) := by
      rw [BitVec.xor_assoc, BitVec.xor_self, BitVec.xor_zero]
    rw [hdiff, BitVec.toNat_xor]
    exact Nat.xor_lt_two_pow hwhole
      (Nat.lt_of_lt_of_le huv (Nat.pow_le_pow_right (by decide) (Nat.le_add_left _ _)))
  · intro hcd
    rw [hcd, BitVec.xor_self, BitVec.zero_xor] at hbefore
    -- The symbols differ below bit `m`, and only above it.
    have hzero : (u ^^^ v).toNat = 0 := by
      rcases Nat.eq_zero_or_pos ((shift poly)^[m] (u ^^^ v)).toNat with hz | hpos
      · rw [hbefore, hz, Nat.mul_zero]
      · have := Nat.le_mul_of_pos_right (2 ^ m) hpos
        omega
    exact BitVec.xor_eq_zero_iff.mp (BitVec.eq_of_toNat_eq (by
      rw [hzero, BitVec.toNat_ofNat, Nat.zero_mod]))

/-- Two runs that end alike, over windows that are no longer than the register.
    Read from the end, each difference before a symbol is the difference after
    it, moved up by `m` bits, with the difference of the symbols below; so nothing
    overlaps, and without a difference at the start there is none at all. -/
theorem window_of_absorb_eq (hpoly : poly.msb = true) {m : Nat} {us vs : List (BitVec w)}
    (hlen : us.length = vs.length) (hroom : us.length * m ≤ w)
    (hus : ∀ b ∈ us, b.toNat < 2 ^ m) (hvs : ∀ b ∈ vs, b.toNat < 2 ^ m) {c d : BitVec w}
    (h : absorb poly m c us = absorb poly m d vs) :
    (c ^^^ d).toNat < 2 ^ (us.length * m) ∧ (c = d → us = vs) := by
  induction us generalizing vs c d with
  | nil =>
      rw [List.length_nil] at hlen
      rw [List.length_eq_zero_iff.mp hlen.symm] at h ⊢
      refine ⟨?_, fun _ => rfl⟩
      rw [show c = d from h, BitVec.xor_self, BitVec.toNat_ofNat, Nat.zero_mod]
      exact Nat.two_pow_pos _
  | cons u us ih =>
      cases vs with
      | nil => exact absurd hlen (by simp only [List.length_cons, List.length_nil, reduceCtorEq,
          not_false_eq_true])
      | cons v vs =>
          rw [List.forall_mem_cons] at hus hvs
          rw [List.length_cons, List.length_cons, Nat.add_right_cancel_iff] at hlen
          rw [List.length_cons, Nat.succ_mul] at hroom ⊢
          rcases ih hlen (by omega) hus.2 hvs.2 h with ⟨hafter, hrest⟩
          rcases symbol_of_shifts hpoly hroom hus.1 hvs.1 hafter with ⟨hbefore, hsymbol⟩
          refine ⟨hbefore, fun hcd => ?_⟩
          rw [hsymbol hcd, hrest (by rw [hcd, hsymbol hcd])]

/-- A window that is no longer than the register shows, whatever stands before
    and behind it. -/
theorem absorb_ne_of_window (hpoly : poly.msb = true) {m : Nat} {us vs : List (BitVec w)}
    (hlen : us.length = vs.length) (hroom : us.length * m ≤ w)
    (hus : ∀ b ∈ us, b.toNat < 2 ^ m) (hvs : ∀ b ∈ vs, b.toNat < 2 ^ m) (hne : us ≠ vs)
    (c : BitVec w) (before after : List (BitVec w)) :
    absorb poly m c (before ++ (us ++ after)) ≠ absorb poly m c (before ++ (vs ++ after)) := by
  intro h
  simp only [absorb_append] at h
  have hwindow := absorb_left_injective hpoly m after h
  exact hne ((window_of_absorb_eq hpoly hlen hroom hus hvs hwindow).2 rfl)

end Register

/-! ### Bursts -/

/-- The sequences differ, and only at the positions from `i` on and before
    `i + k`. -/
structure Burst {α : Type*} (i k : Nat) (x y : List α) : Prop where
  length : y.length = x.length
  before : y.take i = x.take i
  after : y.drop (i + k) = x.drop (i + k)
  ne : y ≠ x

namespace Burst

variable {α : Type*} {i k : Nat} {x y : List α}

/-- Putting another window in the place of one is a burst. -/
theorem of_window {a u v z : List α} (hlen : v.length = u.length) (hne : v ≠ u) :
    Burst a.length u.length (a ++ (u ++ z)) (a ++ (v ++ z)) where
  length := by simp only [List.length_append, hlen]
  before := by rw [List.take_left, List.take_left]
  after := by
    rw [List.drop_length_add_append, List.drop_length_add_append, List.drop_left,
      List.drop_left' hlen]
  ne := fun h => hne (List.append_cancel_right (List.append_cancel_left h))

/-- The window of a burst. -/
theorem split (h : Burst i k x y) :
    ∃ before u v after, x = before ++ (u ++ after) ∧ y = before ++ (v ++ after) ∧
      u.length = v.length ∧ u.length ≤ k ∧ u ≠ v := by
  have hparts : ∀ z : List α, z = z.take i ++ ((z.drop i).take k ++ z.drop (i + k)) := by
    intro z
    rw [← List.drop_drop, List.take_append_drop, List.take_append_drop]
  have hx := hparts x
  have hy := hparts y
  rw [h.before, h.after] at hy
  refine ⟨_, _, _, _, hx, hy, ?_, List.length_take_le _ _, ?_⟩
  · rw [List.length_take, List.length_take, List.length_drop, List.length_drop, h.length]
  · intro heq
    rw [← heq, ← hx] at hy
    exact h.ne hy

/-- A burst inside a part of a sequence is a burst of that part. -/
theorem within {a p z : List α} (h : Burst i k (a ++ (p ++ z)) y) (hi : a.length ≤ i)
    (hk : i + k ≤ a.length + p.length) :
    ∃ p', y = a ++ (p' ++ z) ∧ Burst (i - a.length) k p p' := by
  -- The part gets the window of the burst, between its own first and last symbols.
  generalize hj : i - a.length = j
  have hi' : i = a.length + j := by omega
  have hjk : j + k ≤ p.length := by omega
  have hfirst : (p.take j).length = j := by
    rw [List.length_take]
    omega
  have hwindow : ((y.drop i).take k).length = k := by
    rw [List.length_take, List.length_drop, h.length, List.length_append, List.length_append]
    omega
  have hfront : y.take i = a ++ p.take j := by
    rw [h.before, hi', List.take_length_add_append, List.take_append_of_le_length (by omega)]
  have hback : y.drop (i + k) = p.drop (j + k) ++ z := by
    rw [h.after, hi', Nat.add_assoc, List.drop_length_add_append, List.drop_append_of_le_length hjk]
  have hy : y = a ++ (p.take j ++ ((y.drop i).take k ++ p.drop (j + k)) ++ z) := by
    calc y = y.take i ++ ((y.drop i).take k ++ y.drop (i + k)) := by
          rw [← List.drop_drop, List.take_append_drop, List.take_append_drop]
      _ = a ++ (p.take j ++ ((y.drop i).take k ++ p.drop (j + k)) ++ z) := by
          rw [hfront, hback]
          simp only [List.append_assoc]
  refine ⟨_, hy, ?_, ?_, ?_, ?_⟩
  · rw [List.length_append, List.length_append, hfirst, hwindow, List.length_drop]
    omega
  · rw [List.take_left' hfirst]
  · rw [← List.append_assoc, List.drop_left' (by rw [List.length_append, hfirst, hwindow])]
  · intro heq
    rw [heq] at hy
    exact h.ne hy

end Burst

end Trilogicon
