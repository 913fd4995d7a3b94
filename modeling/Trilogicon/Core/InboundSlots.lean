import Trilogicon.Lib.Bytes

/-!
# The Slots of Inbound Sessions

`network.rs`: the counter that bounds how many inbound sessions are served at
the same time. `InboundSlotPool::try_acquire` raises it and gives out a permit,
or refuses; dropping the permit lowers it.

Any number of threads do this at once, and both operations are loops around one
atomic variable. So the model is of single atomic steps: a load, or an exchange
that succeeds only if the variable still has the value that was read. A call is
followed from its beginning to the release of the permit it gave, and its state
says which step comes next and what it has read, which may be out of date. The
weak exchange of `try_acquire` may also fail for no reason; a schedule says when
it does.

## Main definitions

* `SlotCall`: Where a call of `try_acquire`, or its permit, is.
* `SlotCall.step`: The next atomic step of a call.
* `InboundSlots`: The pool and all calls on it.
* `SlotAction`: What may happen next.
* `InboundSlots.run`: An interleaving, with what happened.
-/

namespace Trilogicon

/-- A call of `try_acquire` and, once there is one, its permit. -/
inductive SlotCall where
  /-- About to load the counter. -/
  | acquireLoad
  /-- About to go through the loop of `try_acquire` with the value it has of
      the counter. -/
  | acquireLoop (n : Nat)
  /-- Returned without a permit. -/
  | refused
  /-- The permit is in use. -/
  | permit
  /-- The permit is being dropped: about to load the counter. -/
  | dropLoad
  /-- The permit is being dropped: about to exchange `c` for `c - 1`. -/
  | dropExchange (c : Nat)
  /-- The permit was released. -/
  | released
  /-- The permit was dropped when the counter was zero. -/
  | releasedAtZero
deriving DecidableEq, Repr

/-- What is observed of a step. -/
inductive SlotEvent where
  | acquired
  | refused
  | released
  | releasedAtZero
deriving DecidableEq, Repr

/-- The next atomic step of a call, with the counter after it. -/
def SlotCall.step (max active : Nat) (spurious : Bool) :
    SlotCall → Nat × SlotCall × List SlotEvent
  | .acquireLoad => (active, .acquireLoop active, [])
  | .acquireLoop n =>
      if n ≥ max then (active, .refused, [.refused])
      else if active = n ∧ spurious = false then (n + 1, .permit, [.acquired])
      -- The exchange failed and returned the counter, for the next turn of the loop.
      else (active, .acquireLoop active, [])
  | .dropLoad =>
      if active = 0 then (active, .releasedAtZero, [.releasedAtZero])
      else (active, .dropExchange active, [])
  | .dropExchange c =>
      if active = c then (c - 1, .released, [.released])
      -- The value it failed with is not used: the loop starts with a load.
      else (active, .dropLoad, [])
  -- These calls have nothing to do until a drop begins, or nothing at all.
  | .refused => (active, .refused, [])
  | .permit => (active, .permit, [])
  | .released => (active, .released, [])
  | .releasedAtZero => (active, .releasedAtZero, [])

/-- `InboundSlotPool`, with the calls that were made on it. -/
structure InboundSlots where
  max : Nat
  active : Nat
  calls : List SlotCall
deriving DecidableEq, Repr

/-- What may happen next: another call of `try_acquire`, the next atomic step of
    a call, or the beginning of the drop of its permit. -/
inductive SlotAction where
  | tryAcquire
  | step (i : Nat) (spurious : Bool)
  | drop (i : Nat)
deriving DecidableEq, Repr

namespace InboundSlots

/-- `InboundSlotPool::new`. -/
def new (max : Nat) : InboundSlots :=
  { max := max, active := 0, calls := [] }

/-- One action; it does nothing if there is no such call or no such permit. -/
def act (s : InboundSlots) : SlotAction → InboundSlots × List SlotEvent
  | .tryAcquire => ({ s with calls := s.calls ++ [.acquireLoad] }, [])
  | .step i spurious =>
      match s.calls[i]? with
      | none => (s, [])
      | some call =>
          let (active, call', events) := call.step s.max s.active spurious
          ({ s with active := active, calls := s.calls.set i call' }, events)
  | .drop i =>
      match s.calls[i]? with
      | some .permit => ({ s with calls := s.calls.set i .dropLoad }, [])
      | _ => (s, [])

/-- An interleaving, and what was observed. -/
def run (s : InboundSlots) : List SlotAction → InboundSlots × List SlotEvent
  | [] => (s, [])
  | a :: schedule =>
      let (s', events) := s.act a
      let (s'', later) := s'.run schedule
      (s'', events ++ later)

/-- Two permits are out, so a third call is refused; after a drop there is
    room for one more. -/
example : ((new 2).run [.tryAcquire, .step 0 false, .step 0 false, .tryAcquire, .step 1 false,
    .step 1 false, .tryAcquire, .step 2 false, .step 2 false, .drop 0, .step 0 false,
    .step 0 false, .tryAcquire, .step 3 false, .step 3 false]).2 =
      [.acquired, .acquired, .refused, .released, .acquired] := by
  decide

end InboundSlots

end Trilogicon
