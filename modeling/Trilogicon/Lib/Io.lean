import Trilogicon.Lib.Bytes

/-!
# Calls That May Fail

What the system does with a read or a write is not decided by the program, so
it is an input of the model. A write succeeds, or fails after some of its bytes
went out. A stream is what its other end will send, how it ends, and what will
become of the writes to it; what has been written is recorded.

## Main definitions

* `IoError`: The kind and the text of an error.
* `WriteOutcome`: What becomes of a write.
* `Stream`: A connection, with its other end.
* `Stream.readExact`, `Stream.writeAll`: The two calls on it.

## Theorems

* `Stream.readExact_ok_iff`: What a successful read consumed.
* `Stream.writeAll_ok`: What a successful write sent.
-/

namespace Trilogicon

/-- The kinds of error that programs tell apart. -/
inductive IoKind where
  | invalidData
  | invalidInput
  | unexpectedEof
  | timedOut
  | wouldBlock
  | other
deriving DecidableEq, Repr

/-- An error of the system, or one a program made. -/
structure IoError where
  kind : IoKind
  msg : String
deriving DecidableEq, Repr

namespace IoError

/-- Data that was read is not what it should be. -/
def invalidData (msg : String) : IoError :=
  ⟨.invalidData, msg⟩

/-- An argument of a call is not what it should be. -/
def invalidInput (msg : String) : IoError :=
  ⟨.invalidInput, msg⟩

/-- Any other error. -/
def other (msg : String) : IoError :=
  ⟨.other, msg⟩

end IoError

/-- What becomes of a write of some bytes. -/
inductive WriteOutcome where
  | complete
  | fails (written : Nat) (e : IoError)
deriving DecidableEq, Repr

/-- A connection. When `incoming` is used up, reads fail with `ending`. Writes
    beyond the given outcomes succeed. -/
structure Stream where
  incoming : Bytes
  ending : IoError
  writes : List WriteOutcome
  sent : Bytes
deriving DecidableEq, Repr

namespace Stream

/-- Read exactly `n` bytes, or use up the stream. -/
def readExact (s : Stream) (n : Nat) : Except IoError Bytes × Stream :=
  if s.incoming.length < n then (.error s.ending, { s with incoming := [] })
  else (.ok (s.incoming.take n), { s with incoming := s.incoming.drop n })

/-- Write all the bytes, or some of them. -/
def writeAll (s : Stream) (data : Bytes) : Except IoError Unit × Stream :=
  match s.writes with
  | [] => (.ok (), { s with sent := s.sent ++ data })
  | .complete :: later => (.ok (), { s with sent := s.sent ++ data, writes := later })
  | .fails n e :: later => (.error e, { s with sent := s.sent ++ data.take n, writes := later })

theorem readExact_ok_iff {s s' : Stream} {n : Nat} {data : Bytes} :
    s.readExact n = (.ok data, s') ↔
      data.length = n ∧ ∃ rest, s.incoming = data ++ rest ∧ s' = { s with incoming := rest } := by
  rw [readExact]
  by_cases hshort : s.incoming.length < n
  · rw [if_pos hshort]
    refine ⟨fun h => absurd h (by simp only [Prod.mk.injEq, reduceCtorEq, false_and,
      not_false_eq_true]), ?_⟩
    rintro ⟨hlen, rest, hin, _⟩
    rw [hin, List.length_append] at hshort
    omega
  · rw [if_neg hshort, Prod.mk.injEq, Except.ok.injEq]
    constructor
    · rintro ⟨rfl, rfl⟩
      refine ⟨?_, s.incoming.drop n, (List.take_append_drop n _).symm, rfl⟩
      rw [List.length_take]
      omega
    · rintro ⟨rfl, rest, hin, rfl⟩
      rw [hin, List.take_left, List.drop_left]
      exact ⟨rfl, rfl⟩

/-- A successful write sent everything and read nothing. -/
theorem writeAll_ok {s s' : Stream} {data : Bytes} (h : s.writeAll data = (.ok (), s')) :
    s'.sent = s.sent ++ data ∧ s'.incoming = s.incoming ∧ s'.ending = s.ending := by
  rw [writeAll] at h
  rcases hw : s.writes with _ | ⟨_ | ⟨n, e⟩, later⟩
  · simp only [hw, Prod.mk.injEq, true_and] at h
    rw [← h]
    exact ⟨rfl, rfl, rfl⟩
  · simp only [hw, Prod.mk.injEq, true_and] at h
    rw [← h]
    exact ⟨rfl, rfl, rfl⟩
  · simp only [hw, Prod.mk.injEq, reduceCtorEq, false_and] at h

end Stream

end Trilogicon
