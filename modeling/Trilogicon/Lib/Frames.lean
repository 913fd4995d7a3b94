import Mathlib.Data.List.Basic
import Trilogicon.Lib.Bytes
import Trilogicon.Lib.Parser

/-!
# Scanning Framed Records

A file of records, each in a frame that tells where it ends, and two ways to
scan it: a strict scan that wants whole frames to the end, and a scan that
stops in front of the first frame that is cut short.

What a scan sees at the front of its data is a `Front`: too little data for
the length of a frame, a length but too little data for the frame, a frame it
rejects, or a record and the data after it. The two scans differ only in what
they make of the first two.

`Framed` is the law that ties a reader of fronts to a writer of frames. Under
it the strict scan accepts exactly the written sequences of records, and the
other scan returns exactly the records whose frames are complete. Cutting a
written sequence anywhere leaves some whole frames and a part of the next one,
which is what a crash in the middle of a write leaves.

The frames of a byte file are mostly alike: a length of four bytes, a payload of
that length, and perhaps a few bytes more. `lengthFront` is the reader of fronts
for them, whatever a payload means.

## Main definitions

* `Front`: What a scan sees at the front of its data.
* `scanPrefix`: Scan whole frames and stop at a partial one.
* `scanStrict`: Scan whole frames to the end.
* `Framed`: A reader of fronts sees exactly the frames a writer writes.
* `lengthFront`: The front of frames that start with their length.

## Theorems

* `scanPrefix_ok_iff`: What the scan of a prefix returns.
* `scanStrict_ok_iff`: What the strict scan accepts.
* `writeAll_take`: A cut leaves whole frames and a part of the next.
* `not_covers_behind`: Bad data behind some records.
* `lengthFront_item_iff`: Where a record is seen behind its length.
-/

namespace Trilogicon

universe u

/-- What a scan sees at the front of its data. -/
inductive Front (τ ε α : Type u) where
  | shortLength
  | shortBody
  | bad (e : ε)
  | item (a : α) (rest : List τ)

variable {τ ε α : Type u}

/-- The front is a frame that is cut short. -/
def Front.IsShort (f : Front τ ε α) : Prop :=
  f = .shortLength ∨ f = .shortBody

section Scans

variable (front : List τ → Front τ ε α)

/-- Scan whole frames and stop in front of a partial one. Returns the records
    and how many tokens their frames took. -/
def scanPrefix : Nat → List τ → Except ε (List α × Nat)
  | 0, _ => .ok ([], 0)
  | fuel + 1, data =>
      if data = [] then .ok ([], 0)
      else
        match front data with
        | .shortLength => .ok ([], 0)
        | .shortBody => .ok ([], 0)
        | .bad e => .error e
        | .item a rest =>
            match scanPrefix fuel rest with
            | .error e => .error e
            | .ok (as, n) => .ok (a :: as, data.length - rest.length + n)

/-- Scan whole frames to the end, with the errors for a partial one. -/
def scanStrict (onShortLength onShortBody : ε) : Nat → List τ → Except ε (List α)
  | 0, _ => .ok []
  | fuel + 1, data =>
      if data = [] then .ok []
      else
        match front data with
        | .shortLength => .error onShortLength
        | .shortBody => .error onShortBody
        | .bad e => .error e
        | .item a rest =>
            match scanStrict onShortLength onShortBody fuel rest with
            | .error e => .error e
            | .ok as => .ok (a :: as)

/-- The reader of fronts sees exactly the frames the writer writes. -/
structure Framed (enc : α → Option (List τ)) : Prop where
  item_iff : ∀ data a rest, front data = .item a rest ↔ ∃ e, enc a = some e ∧ data = e ++ rest
  ne_nil : ∀ a e, enc a = some e → e ≠ []

variable {front}

theorem Framed.nil_of_writeAll {enc : α → Option (List τ)} (h : Framed front enc)
    {as : List α} (he : writeAll enc as = some []) : as = [] := by
  cases as with
  | nil => rfl
  | cons a as =>
      rcases writeAll_cons_iff.mp he with ⟨e₁, e₂, he₁, _, hnil⟩
      exact absurd (List.append_eq_nil_iff.mp hnil.symm).1 (h.ne_nil a e₁ he₁)

/-- The records fill the first `n` tokens of the data, and what follows them
    is nothing or a frame that is cut short. -/
def Covers (front : List τ → Front τ ε α) (enc : α → Option (List τ)) (data : List τ)
    (as : List α) (n : Nat) : Prop :=
  ∃ e tail, writeAll enc as = some e ∧ data = e ++ tail ∧ n = e.length ∧
    (tail = [] ∨ (front tail).IsShort)

/-- Where no record is seen, none was written. -/
theorem Framed.nil_of_not_item {enc : α → Option (List τ)} (h : Framed front enc)
    {data e tail : List τ} {as : List α} (hni : ∀ a rest, front data ≠ .item a rest)
    (he : writeAll enc as = some e) (hd : data = e ++ tail) :
    as = [] ∧ e = [] ∧ data = tail := by
  cases as with
  | nil =>
      rw [writeAll, Option.some.injEq] at he
      rw [← he, List.nil_append] at hd
      exact ⟨rfl, he.symm, hd⟩
  | cons a as =>
      rcases writeAll_cons_iff.mp he with ⟨e₁, e₂, he₁, _, rfl⟩
      exact absurd ((h.item_iff data a (e₂ ++ tail)).mpr
        ⟨e₁, he₁, by rw [hd, List.append_assoc]⟩) (hni a _)

theorem covers_nil_iff {enc : α → Option (List τ)} (h : Framed front enc) {as : List α}
    {n : Nat} : Covers front enc [] as n ↔ as = [] ∧ n = 0 := by
  constructor
  · rintro ⟨e, tail, he, hnil, rfl, _⟩
    rcases List.append_eq_nil_iff.mp hnil.symm with ⟨rfl, rfl⟩
    exact ⟨h.nil_of_writeAll he, rfl⟩
  · rintro ⟨rfl, rfl⟩
    exact ⟨[], [], rfl, rfl, rfl, Or.inl rfl⟩

theorem covers_short_iff {enc : α → Option (List τ)} (h : Framed front enc) {data : List τ}
    (hs : (front data).IsShort) {as : List α} {n : Nat} :
    Covers front enc data as n ↔ as = [] ∧ n = 0 := by
  have hni : ∀ a rest, front data ≠ .item a rest := by
    intro a rest hc
    rw [hc] at hs
    rcases hs with hs | hs
    · exact absurd hs (by simp only [reduceCtorEq, not_false_eq_true])
    · exact absurd hs (by simp only [reduceCtorEq, not_false_eq_true])
  constructor
  · rintro ⟨e, tail, he, hd, rfl, _⟩
    rcases h.nil_of_not_item hni he hd with ⟨rfl, rfl, _⟩
    exact ⟨rfl, rfl⟩
  · rintro ⟨rfl, rfl⟩
    exact ⟨[], data, rfl, rfl, rfl, Or.inr hs⟩

theorem not_covers_bad {enc : α → Option (List τ)} (h : Framed front enc) {data : List τ}
    (hne : data ≠ []) {e : ε} (hb : front data = .bad e) {as : List α} {n : Nat} :
    ¬ Covers front enc data as n := by
  rintro ⟨e', tail, he, hd, _, htail⟩
  have hni : ∀ a rest, front data ≠ .item a rest := by
    intro a rest hc
    rw [hb] at hc
    exact absurd hc (by simp only [reduceCtorEq, not_false_eq_true])
  rw [← (h.nil_of_not_item hni he hd).2.2, hb] at htail
  rcases htail with hc | hc | hc
  · exact hne hc
  · exact absurd hc (by simp only [reduceCtorEq, not_false_eq_true])
  · exact absurd hc (by simp only [reduceCtorEq, not_false_eq_true])

theorem covers_item_iff {enc : α → Option (List τ)} (h : Framed front enc)
    {data rest : List τ} {a : α} (hi : front data = .item a rest) {bs : List α} {n : Nat} :
    Covers front enc data bs n ↔
      ∃ as m, bs = a :: as ∧ Covers front enc rest as m ∧ n = data.length - rest.length + m := by
  rcases (h.item_iff data a rest).mp hi with ⟨e₁, he₁, hd₁⟩
  have hlen : data.length = e₁.length + rest.length := by
    rw [hd₁, List.length_append]
  constructor
  · rintro ⟨e, tail, he, hd, rfl, htail⟩
    cases bs with
    | nil =>
        -- The front of the data is a record, so it is no short tail.
        rw [writeAll, Option.some.injEq] at he
        rw [← he, List.nil_append] at hd
        rw [← hd, hi] at htail
        rcases htail with hc | hc | hc
        · rw [hc] at hd₁
          exact absurd (List.append_eq_nil_iff.mp hd₁.symm).1 (h.ne_nil a e₁ he₁)
        · exact absurd hc (by simp only [reduceCtorEq, not_false_eq_true])
        · exact absurd hc (by simp only [reduceCtorEq, not_false_eq_true])
    | cons b as =>
        rcases writeAll_cons_iff.mp he with ⟨d₁, d₂, hd₁', hd₂, rfl⟩
        have hi' := (h.item_iff data b (d₂ ++ tail)).mpr
          ⟨d₁, hd₁', by rw [hd, List.append_assoc]⟩
        rw [hi, Front.item.injEq] at hi'
        rcases hi' with ⟨rfl, hrest⟩
        refine ⟨as, d₂.length, rfl, ⟨d₂, tail, hd₂, hrest, rfl, htail⟩, ?_⟩
        rw [he₁, Option.some.injEq] at hd₁'
        rw [List.length_append, ← hd₁']
        omega
  · rintro ⟨as, m, rfl, ⟨e₂, tail, he₂, hrest, rfl, htail⟩, rfl⟩
    refine ⟨e₁ ++ e₂, tail, writeAll_cons_iff.mpr ⟨e₁, e₂, he₁, he₂, rfl⟩, ?_, ?_, htail⟩
    · rw [hd₁, hrest, List.append_assoc]
    · rw [List.length_append]
      omega

/-- Data that goes bad behind some records is covered by no records. -/
theorem not_covers_behind {enc : α → Option (List τ)} (h : Framed front enc) {before : List α}
    {written data : List τ} (hbefore : writeAll enc before = some written) (hne : data ≠ [])
    {e : ε} (hb : front data = .bad e) {as : List α} {n : Nat} :
    ¬ Covers front enc (written ++ data) as n := by
  induction before generalizing written as n with
  | nil =>
      rw [writeAll, Option.some.injEq] at hbefore
      rw [← hbefore, List.nil_append]
      exact not_covers_bad h hne hb
  | cons a before ih =>
      rcases writeAll_cons_iff.mp hbefore with ⟨e₁, e₂, he₁, he₂, rfl⟩
      have hi := (h.item_iff (e₁ ++ e₂ ++ data) a (e₂ ++ data)).mpr
        ⟨e₁, he₁, List.append_assoc _ _ _⟩
      intro hcovers
      rcases (covers_item_iff h hi).mp hcovers with ⟨_, _, _, hrest, _⟩
      exact ih he₂ hrest

/-- Reading a record leaves less data, which is why the length is enough fuel. -/
theorem Framed.rest_lt {enc : α → Option (List τ)} (h : Framed front enc) {data rest : List τ}
    {a : α} (hi : front data = .item a rest) : rest.length < data.length := by
  rcases (h.item_iff data a rest).mp hi with ⟨e, he, rfl⟩
  have hpos : 0 < e.length := List.length_pos_iff.mpr (h.ne_nil a e he)
  rw [List.length_append]
  omega

/-- The scan of a prefix returns exactly the records whose frames are
    complete. The fuel is enough when it is the length of the data. -/
theorem scanPrefix_ok_iff {enc : α → Option (List τ)} (h : Framed front enc) (fuel : Nat)
    (data : List τ) (hf : data.length ≤ fuel) (as : List α) (n : Nat) :
    scanPrefix front fuel data = .ok (as, n) ↔ Covers front enc data as n := by
  have hdone : ∀ (bs : List α) (m : Nat),
      (Except.ok ([], 0) : Except ε (List α × Nat)) = .ok (bs, m) ↔ bs = [] ∧ m = 0 := by
    intro bs m
    rw [Except.ok.injEq, Prod.mk.injEq]
    exact ⟨fun hc => ⟨hc.1.symm, hc.2.symm⟩, fun hc => ⟨hc.1.symm, hc.2.symm⟩⟩
  induction fuel generalizing data as n with
  | zero =>
      -- Without fuel there is no data, which is why running out is no error.
      rw [List.length_eq_zero_iff.mp (Nat.le_zero.mp hf), covers_nil_iff h]
      exact hdone as n
  | succ fuel ih =>
      rw [scanPrefix]
      by_cases hnil : data = []
      · rw [if_pos hnil, hnil, covers_nil_iff h]
        exact hdone as n
      · rw [if_neg hnil]
        cases hfr : front data with
        | shortLength =>
            rw [covers_short_iff h (Or.inl hfr)]
            exact hdone as n
        | shortBody =>
            rw [covers_short_iff h (Or.inr hfr)]
            exact hdone as n
        | bad e =>
            simp only [reduceCtorEq, false_iff]
            exact not_covers_bad h hnil hfr
        | item a rest =>
            have hlt := h.rest_lt hfr
            rw [covers_item_iff h hfr]
            simp only [← ih rest (by omega)]
            rcases scanPrefix front fuel rest with e | ⟨as', n'⟩
            · simp only [reduceCtorEq, false_and, and_false, exists_false]
            · simp only [Except.ok.injEq, Prod.mk.injEq]
              constructor
              · rintro ⟨rfl, rfl⟩
                exact ⟨as', n', rfl, ⟨rfl, rfl⟩, rfl⟩
              · rintro ⟨_, _, rfl, ⟨rfl, rfl⟩, rfl⟩
                exact ⟨rfl, rfl⟩

/-- The records that fill the front of some data are determined by it. -/
theorem Covers.unique {enc : α → Option (List τ)} (h : Framed front enc) {data : List τ}
    {as bs : List α} {m n : Nat} (has : Covers front enc data as m)
    (hbs : Covers front enc data bs n) : as = bs := by
  have hscan := (scanPrefix_ok_iff h _ data (Nat.le_refl _) as m).mpr has
  rw [(scanPrefix_ok_iff h _ data (Nat.le_refl _) bs n).mpr hbs, Except.ok.injEq,
    Prod.mk.injEq] at hscan
  exact hscan.1.symm

theorem Framed.writeAll_nil_iff {enc : α → Option (List τ)} (h : Framed front enc)
    {as : List α} : writeAll enc as = some [] ↔ as = [] := by
  constructor
  · exact h.nil_of_writeAll
  · rintro rfl
    rfl

/-- Where no record is seen, only the empty sequence could have been written. -/
theorem Framed.not_writeAll {enc : α → Option (List τ)} (h : Framed front enc) {data : List τ}
    (hne : data ≠ []) (hni : ∀ a rest, front data ≠ .item a rest) {as : List α} :
    ¬ writeAll enc as = some data :=
  fun he => hne (h.nil_of_not_item hni he (List.append_nil data).symm).2.1

/-- Where a record is seen, it is the first that was written. -/
theorem Framed.writeAll_item_iff {enc : α → Option (List τ)} (h : Framed front enc)
    {data rest : List τ} {a : α} (hi : front data = .item a rest) {bs : List α} :
    writeAll enc bs = some data ↔ ∃ as, writeAll enc as = some rest ∧ bs = a :: as := by
  constructor
  · intro he
    cases bs with
    | nil =>
        -- No record is written as no tokens, but the front is a record.
        rw [writeAll, Option.some.injEq] at he
        have hlt := h.rest_lt hi
        rw [← he] at hlt
        exact absurd hlt (Nat.not_lt_zero _)
    | cons b as =>
        rcases writeAll_cons_iff.mp he with ⟨e₁, e₂, he₁, has, hd⟩
        have hi' := (h.item_iff data b e₂).mpr ⟨e₁, he₁, hd⟩
        rw [hi, Front.item.injEq] at hi'
        rcases hi' with ⟨rfl, rfl⟩
        exact ⟨as, has, rfl⟩
  · rintro ⟨as, has, rfl⟩
    rcases (h.item_iff data a rest).mp hi with ⟨e, he, hd⟩
    exact writeAll_cons_iff.mpr ⟨e, rest, he, has, hd⟩

/-- The strict scan accepts exactly the written sequences of records. -/
theorem scanStrict_ok_iff {enc : α → Option (List τ)} (h : Framed front enc)
    (onShortLength onShortBody : ε) (fuel : Nat) (data : List τ) (hf : data.length ≤ fuel)
    (as : List α) :
    scanStrict front onShortLength onShortBody fuel data = .ok as ↔
      writeAll enc as = some data := by
  have hdone : ∀ bs : List α, (Except.ok [] : Except ε (List α)) = .ok bs ↔
      writeAll enc bs = some [] := by
    intro bs
    rw [Except.ok.injEq, h.writeAll_nil_iff, eq_comm]
  induction fuel generalizing data as with
  | zero =>
      rw [List.length_eq_zero_iff.mp (Nat.le_zero.mp hf)]
      exact hdone as
  | succ fuel ih =>
      rw [scanStrict]
      by_cases hnil : data = []
      · rw [if_pos hnil, hnil]
        exact hdone as
      · rw [if_neg hnil]
        cases hfr : front data with
        | shortLength =>
            simp only [reduceCtorEq, false_iff]
            exact h.not_writeAll hnil (by simp only [hfr, ne_eq, reduceCtorEq, not_false_eq_true,
              implies_true])
        | shortBody =>
            simp only [reduceCtorEq, false_iff]
            exact h.not_writeAll hnil (by simp only [hfr, ne_eq, reduceCtorEq, not_false_eq_true,
              implies_true])
        | bad e =>
            simp only [reduceCtorEq, false_iff]
            exact h.not_writeAll hnil (by simp only [hfr, ne_eq, reduceCtorEq, not_false_eq_true,
              implies_true])
        | item a rest =>
            have hlt := h.rest_lt hfr
            rw [h.writeAll_item_iff hfr]
            simp only [← ih rest (by omega)]
            rcases scanStrict front onShortLength onShortBody fuel rest with e | as'
            · simp only [reduceCtorEq, false_and, exists_false]
            · simp only [Except.ok.injEq]
              constructor
              · rintro rfl
                exact ⟨as', rfl, rfl⟩
              · rintro ⟨_, rfl, rfl⟩
                rfl

end Scans

/-- A cut through a written sequence leaves whole frames and a proper part of
    the next one. -/
theorem writeAll_take {enc : α → Option (List τ)} {as : List α} {e : List τ}
    (he : writeAll enc as = some e) {k : Nat} (hk : k ≤ e.length) :
    ∃ whole later part t, as = whole ++ later ∧ writeAll enc whole = some part ∧
      e.take k = part ++ t ∧ k = part.length + t.length ∧
      (t = [] ∨ ∃ a rest f, later = a :: rest ∧ enc a = some f ∧ t <+: f ∧
        t.length < f.length) := by
  induction as generalizing e k with
  | nil =>
      rw [writeAll, Option.some.injEq] at he
      subst he
      exact ⟨[], [], [], [], rfl, rfl, List.take_nil, Nat.le_zero.mp hk, Or.inl rfl⟩
  | cons a as ih =>
      rcases writeAll_cons_iff.mp he with ⟨f, es, hf, hes, rfl⟩
      by_cases hin : k < f.length
      · -- The cut is inside the first frame.
        refine ⟨[], a :: as, [], f.take k, rfl, rfl, ?_, ?_, Or.inr ⟨a, as, f, rfl, hf,
          List.take_prefix k f, ?_⟩⟩
        · rw [List.take_append_of_le_length (Nat.le_of_lt hin), List.nil_append]
        · rw [List.length_take, List.length_nil]
          omega
        · rw [List.length_take]
          omega
      · rw [List.length_append] at hk
        rcases ih hes (k := k - f.length) (by omega) with
          ⟨whole, later, part, t, rfl, hpart, htake, hlen, hcut⟩
        refine ⟨a :: whole, later, f ++ part, t, rfl,
          writeAll_cons_iff.mpr ⟨f, part, hf, hpart, rfl⟩, ?_, ?_, hcut⟩
        · rw [List.take_append, List.take_of_length_le (by omega), htake, List.append_assoc]
        · rw [List.length_append]
          omega

/-! ### Frames that start with their length -/

section LengthFront

variable {ε α : Type}

/-- What a scan sees where a frame is a length, a payload of at most `max`
    bytes, and `trailer` bytes more. -/
def lengthFront (max trailer : Nat) (tooLarge : ε) (read : Bytes → Bytes → Except ε α)
    (data : Bytes) : Front UInt8 ε α :=
  if data.length < 4 then .shortLength
  else
    let len := ofBe (data.take 4)
    if max < len then .bad tooLarge
    else if data.length < 4 + len + trailer then .shortBody
    else
      match read ((data.drop 4).take len) ((data.drop (4 + len)).take trailer) with
      | .error e => .bad e
      | .ok a => .item a (data.drop (4 + len + trailer))

variable {max trailer : Nat} {tooLarge : ε} {read : Bytes → Bytes → Except ε α}

/-- What a scan sees once the length has been read. -/
theorem lengthFront_length (hword : max < 2 ^ 32) {n : Nat} (hn : n ≤ max) (body : Bytes) :
    lengthFront max trailer tooLarge read (beBytes 4 n ++ body) =
      if body.length < n + trailer then .shortBody
      else
        match read (body.take n) ((body.drop n).take trailer) with
        | .error e => .bad e
        | .ok a => .item a (body.drop (n + trailer)) := by
  have hlen : (beBytes 4 n ++ body).length = 4 + body.length := by
    rw [List.length_append, beBytes_length]
  have htake : (beBytes 4 n ++ body).take 4 = beBytes 4 n :=
    List.take_left' (beBytes_length 4 n)
  have hdrop : ∀ m, (beBytes 4 n ++ body).drop (4 + m) = body.drop m := by
    intro m
    rw [← List.drop_drop, List.drop_left' (beBytes_length 4 n)]
  have hback : ofBe (beBytes 4 n) = n := ofBe_beBytes_of_lt (by omega)
  rw [lengthFront, if_neg (by omega), htake, hback, if_neg (by omega), hlen]
  simp only [Nat.add_assoc, hdrop, Nat.add_lt_add_iff_left]
  have hdrop₀ := hdrop 0
  rw [Nat.add_zero, List.drop_zero] at hdrop₀
  rw [hdrop₀]

/-- What stands in front where a scan sees a record. -/
theorem eq_of_lengthFront_item (hword : max < 2 ^ 32) {data rest : Bytes} {a : α}
    (h : lengthFront max trailer tooLarge read data = .item a rest) :
    ∃ payload t, payload.length ≤ max ∧ t.length = trailer ∧ read payload t = .ok a ∧
      data = beBytes 4 payload.length ++ (payload ++ t) ++ rest := by
  by_cases hshort : data.length < 4
  · rw [lengthFront, if_pos hshort] at h
    exact absurd h (by simp only [reduceCtorEq, not_false_eq_true])
  by_cases hmax : max < ofBe (data.take 4)
  · rw [lengthFront, if_neg hshort, if_pos hmax] at h
    exact absurd h (by simp only [reduceCtorEq, not_false_eq_true])
  have hdata := beBytes_ofBe_take (Nat.le_of_not_lt hshort)
  -- From here on only the length and the bytes after it matter.
  generalize ofBe (data.take 4) = n at hdata hmax
  generalize data.drop 4 = body at hdata
  rw [← hdata, lengthFront_length hword (Nat.le_of_not_lt hmax)] at h
  by_cases hbody : body.length < n + trailer
  · rw [if_pos hbody] at h
    exact absurd h (by simp only [reduceCtorEq, not_false_eq_true])
  rw [if_neg hbody] at h
  cases hr : read (body.take n) ((body.drop n).take trailer) with
  | error e =>
      rw [hr] at h
      exact absurd h (by simp only [reduceCtorEq, not_false_eq_true])
  | ok a' =>
      simp only [hr, Front.item.injEq] at h
      rcases h with ⟨rfl, rfl⟩
      have hn : (body.take n).length = n := by
        rw [List.length_take]
        omega
      have htr : ((body.drop n).take trailer).length = trailer := by
        rw [List.length_take, List.length_drop]
        omega
      refine ⟨body.take n, (body.drop n).take trailer, by omega, htr, hr, ?_⟩
      rw [← hdata, hn, List.append_assoc, List.append_assoc, ← List.drop_drop,
        List.take_append_drop, List.take_append_drop]

/-- A scan sees a record exactly where its length and its payload stand. -/
theorem lengthFront_item_iff (hword : max < 2 ^ 32) {data rest : Bytes} {a : α} :
    lengthFront max trailer tooLarge read data = .item a rest ↔
      ∃ payload t, payload.length ≤ max ∧ t.length = trailer ∧ read payload t = .ok a ∧
        data = beBytes 4 payload.length ++ (payload ++ t) ++ rest := by
  constructor
  · exact eq_of_lengthFront_item hword
  · intro h
    rcases h with ⟨payload, t, hmax, ht, hread, rfl⟩
    have hbody : ¬ (payload ++ t ++ rest).length < payload.length + trailer := by
      rw [List.length_append, List.length_append, ht]
      omega
    have hdrop : (payload ++ t ++ rest).drop payload.length = t ++ rest := by
      rw [List.append_assoc, List.drop_left]
    rw [List.append_assoc, lengthFront_length hword hmax, if_neg hbody, ← List.drop_drop, hdrop,
      List.append_assoc, List.take_left, List.take_left' ht, List.drop_left' ht, hread]

end LengthFront

end Trilogicon
