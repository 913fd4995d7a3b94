import Mathlib.Data.List.Basic
import Trilogicon.Core.InboundSlots

/-!
# The Counter Counts the Permits

Calls of `try_acquire` and drops of permits interleave at single atomic steps,
and each works with a value of the counter that it read earlier. The counter is
nevertheless always the number of permits that are out.

A value that was read says nothing by itself. It is used only in an exchange,
and the exchange succeeds only if the value is still the counter. At that step
the bound that was checked for the value holds for the counter, so the counter
stays within the bound. In the same way a permit that is being dropped is itself
one of those counted, so the counter it loads is not zero.

Whatever is observed between two points of a run is therefore balanced: what the
counter gained is what was acquired less what was released. With one slot free
and nothing released, one call can acquire at most.

## Main definitions

* `SlotCall.holds`: The call has a permit that was not released yet.
* `InboundSlots.Accounted`: The counter is the number of permits, within the bound.

## Theorems

* `SlotCall.step_balanced`: One atomic step of a call.
* `InboundSlots.Accounted.act`: One action keeps the invariant.
* `InboundSlots.Accounted.run`: An interleaving keeps the invariant.
* `inbound_slots_accounted`: The counter over every interleaving.
-/

namespace Trilogicon

/-- The call has a permit that was not released yet. A drop that is under way has
    not released it. -/
def SlotCall.holds : SlotCall → Bool
  | .permit => true
  | .dropLoad => true
  | .dropExchange _ => true
  | .acquireLoad => false
  | .acquireLoop _ => false
  | .refused => false
  | .released => false
  | .releasedAtZero => false

/-- What a step may do: the counter changes with the permit of the call and with
    what is observed, it stays within the bound, and no permit is dropped when
    the counter is zero. -/
structure SlotCall.Balanced (max active : Nat) (call : SlotCall)
    (after : Nat × SlotCall × List SlotEvent) : Prop where
  permits : after.1 + call.holds.toNat = active + after.2.1.holds.toNat
  events : after.1 + after.2.2.count .released = active + after.2.2.count .acquired
  bounded : after.1 ≤ max
  nonzero : SlotEvent.releasedAtZero ∉ after.2.2

/-- One atomic step of a call, if the counter is within the bound and counts the
    permit of the call. -/
theorem SlotCall.step_balanced {max active : Nat} {call : SlotCall} (hmax : active ≤ max)
    (hcounted : call.holds = true → 0 < active) (spurious : Bool) :
    SlotCall.Balanced max active call (call.step max active spurious) := by
  have hother : ∀ e : SlotEvent, e ≠ .releasedAtZero → SlotEvent.releasedAtZero ∉ [e] :=
    fun e hne hin => hne (List.mem_singleton.mp hin).symm
  -- Most steps leave the counter and the permit of the call as they are.
  have hidle : ∀ call' : SlotCall, call'.holds = call.holds →
      SlotCall.Balanced max active call (active, call', []) :=
    fun call' h => ⟨by rw [h], rfl, hmax, List.not_mem_nil⟩
  cases call with
  | acquireLoad => exact hidle _ rfl
  | acquireLoop n =>
      rw [SlotCall.step]
      by_cases hfull : n ≥ max
      · rw [if_pos hfull]
        exact ⟨rfl, rfl, hmax, hother _ nofun⟩
      · rw [if_neg hfull]
        by_cases hsame : active = n ∧ spurious = false
        · -- The value is the counter, and it was found to be below the bound.
          rw [if_pos hsame, hsame.1]
          exact ⟨rfl, rfl, by omega, hother _ nofun⟩
        · rw [if_neg hsame]
          exact hidle _ rfl
  | refused => exact hidle _ rfl
  | permit => exact hidle _ rfl
  | dropLoad =>
      -- The permit that is being dropped is counted, so the load is not zero.
      have hpos := hcounted rfl
      rw [SlotCall.step]
      rw [if_neg (by omega)]
      exact hidle _ rfl
  | dropExchange c =>
      have hpos := hcounted rfl
      rw [SlotCall.step]
      by_cases hsame : active = c
      · -- Only here the counter goes down, together with the permit.
        rw [if_pos hsame]
        refine ⟨?_, ?_, by omega, hother _ nofun⟩
        · change c - 1 + 1 = active + 0
          omega
        · change c - 1 + 1 = active + 0
          omega
      · rw [if_neg hsame]
        exact hidle _ rfl
  | released => exact hidle _ rfl
  | releasedAtZero => exact hidle _ rfl

namespace InboundSlots

/-- The counter is the number of permits that are out, and within the bound. -/
structure Accounted (s : InboundSlots) : Prop where
  active : s.active = s.calls.countP SlotCall.holds
  bounded : s.active ≤ s.max

/-- Between two points of a run, the counter gains what was acquired and loses
    what was released. -/
structure Settled (s s' : InboundSlots) (events : List SlotEvent) : Prop where
  max : s'.max = s.max
  active : s'.active + events.count .released = s.active + events.count .acquired
  nonzero : SlotEvent.releasedAtZero ∉ events

theorem Settled.refl (s : InboundSlots) : Settled s s [] :=
  ⟨rfl, rfl, List.not_mem_nil⟩

theorem Settled.trans {s s' s'' : InboundSlots} {events later : List SlotEvent}
    (h : Settled s s' events) (h' : Settled s' s'' later) : Settled s s'' (events ++ later) where
  max := h'.max.trans h.max
  active := by
    have hfirst := h.active
    have hsecond := h'.active
    rw [List.count_append, List.count_append]
    omega
  nonzero := fun hin => (List.mem_append.mp hin).elim h.nonzero h'.nonzero

/-- Replacing a call by one with a permit, or without one, changes the number of
    permits accordingly. -/
theorem countP_holds_set {calls : List SlotCall} {i : Nat} {call : SlotCall}
    (h : calls[i]? = some call) (call' : SlotCall) :
    (calls.set i call').countP SlotCall.holds + call.holds.toNat =
      calls.countP SlotCall.holds + call'.holds.toNat := by
  rcases List.getElem?_eq_some_iff.mp h with ⟨hi, hget⟩
  rw [List.countP_set hi, hget]
  have hcounted : call.holds.toNat ≤ calls.countP SlotCall.holds := by
    cases hcall : call.holds with
    | false => exact Nat.zero_le _
    | true => exact List.countP_pos_iff.mpr ⟨call, hget ▸ List.getElem_mem hi, hcall⟩
  have htoNat : ∀ b : Bool, (if b = true then 1 else 0) = b.toNat := by
    intro b
    cases b with
    | false => rfl
    | true => rfl
  rw [htoNat, htoNat]
  omega

/-- One action keeps the invariant, and is settled. -/
theorem Accounted.act {s : InboundSlots} (h : s.Accounted) (a : SlotAction) :
    (s.act a).1.Accounted ∧ Settled s (s.act a).1 (s.act a).2 := by
  have hactive := h.active
  cases a with
  | tryAcquire =>
      refine ⟨⟨?_, h.bounded⟩, rfl, rfl, List.not_mem_nil⟩
      change s.active = (s.calls ++ [SlotCall.acquireLoad]).countP SlotCall.holds
      rw [List.countP_append, hactive]
      rfl
  | step i spurious =>
      rw [InboundSlots.act]
      cases hcall : s.calls[i]? with
      | none => exact ⟨h, Settled.refl s⟩
      | some call =>
          have hcounted : call.holds = true → 0 < s.active := by
            intro hholds
            rw [hactive]
            exact List.countP_pos_iff.mpr ⟨call, List.mem_of_getElem? hcall, hholds⟩
          -- The call that steps is one of those that are counted.
          have hstep := SlotCall.step_balanced h.bounded hcounted spurious
          have hset := countP_holds_set hcall (call.step s.max s.active spurious).2.1
          have hpermits := hstep.permits
          refine ⟨⟨?_, hstep.bounded⟩, rfl, hstep.events, hstep.nonzero⟩
          change (call.step s.max s.active spurious).1 =
            (s.calls.set i (call.step s.max s.active spurious).2.1).countP SlotCall.holds
          omega
  | drop i =>
      rw [InboundSlots.act]
      split
      · -- The permit is still out while it is being dropped.
        rename_i hcall
        have hset := countP_holds_set hcall .dropLoad
        refine ⟨⟨?_, h.bounded⟩, rfl, rfl, List.not_mem_nil⟩
        change s.active = (s.calls.set i .dropLoad).countP SlotCall.holds
        have hsame : SlotCall.permit.holds.toNat = SlotCall.dropLoad.holds.toNat := rfl
        omega
      · exact ⟨h, Settled.refl s⟩

/-- An interleaving keeps the invariant, and is settled. -/
theorem Accounted.run {s : InboundSlots} (h : s.Accounted) (schedule : List SlotAction) :
    (s.run schedule).1.Accounted ∧ Settled s (s.run schedule).1 (s.run schedule).2 := by
  induction schedule generalizing s with
  | nil => exact ⟨h, Settled.refl s⟩
  | cons a schedule ih =>
      rcases h.act a with ⟨hact, hfirst⟩
      rcases ih hact with ⟨hrun, hlater⟩
      exact ⟨hrun, hfirst.trans hlater⟩

theorem accounted_new (max : Nat) : (new max).Accounted :=
  ⟨rfl, Nat.zero_le _⟩

end InboundSlots

/-- For every bound and every interleaving of atomic steps, spurious failures
    included: the counter is the number of permits that are out, which is what
    was acquired less what was released; it is within the bound; no permit is
    dropped when it is zero. From there on, with one slot free and until a permit
    is released, at most one call acquires. -/
theorem inbound_slots_accounted (max : Nat) (schedule : List SlotAction) :
    let r := (InboundSlots.new max).run schedule
    r.1.active = r.1.calls.countP SlotCall.holds ∧
    r.1.active + r.2.count .released = r.2.count .acquired ∧
    r.1.active ≤ max ∧
    SlotEvent.releasedAtZero ∉ r.2 ∧
    ∀ later, r.1.active + 1 = max → SlotEvent.released ∉ (r.1.run later).2 →
      (r.1.run later).2.count .acquired ≤ 1 := by
  intro r
  have hrun : r.1.Accounted ∧ InboundSlots.Settled (InboundSlots.new max) r.1 r.2 :=
    (InboundSlots.accounted_new max).run schedule
  rcases hrun with ⟨hs, hsettled⟩
  have hactive := hsettled.active
  have hbounded := hs.bounded
  have hmax : r.1.max = max := hsettled.max
  rw [hmax] at hbounded
  refine ⟨hs.active, hactive.trans (Nat.zero_add _), hbounded, hsettled.nonzero, ?_⟩
  intro later hlast hnone
  -- The counter cannot pass the bound, and nothing brings it down.
  rcases hs.run later with ⟨hs', hlater⟩
  have hbounded' := hs'.bounded
  have hgain := hlater.active
  rw [hlater.max, hmax] at hbounded'
  rw [List.count_eq_zero.mpr hnone] at hgain
  omega

end Trilogicon
