import Trilogicon.Core.BindFile
import Trilogicon.Theory.Chain

/-!
# Several Processes Bind One Directory

The processes of `Core/BindFile` take their steps in any order, fail anywhere and
die anywhere. What one of them knows at a point of the function is said once
(`Knows`); a call keeps it for the caller because of what the call does
(`step_effect`) and for the others because they are outside the lock or nothing
that they know about has changed (`Safe.step`).

There is one place where the lock is not enough. `Path::exists` is `false` if the
system cannot tell, and a rename replaces what is there. If both checks of a
process go unanswered and no link can be made, it overwrites a binding
(`unanswered_overwrites`). `Honest` excludes that answer to the second check and
nothing else.

## Main results

* `step_effect`: What a call does to the directory and to the lock.
* `Safe.run`: The invariant of all interleavings.
* `binding_agreement`: The binding is written once, as a whole, and those that
  returned `Ok` agree with it.
* `Unhindered.step`: A call that succeeds brings a process forward.
* `binding_progress`: A directory is not locked up by a process that died.
* `unanswered_overwrites`: What two unanswered checks can do.
-/

namespace Trilogicon

namespace BindDir

section Safety

variable [Primitives] {toml : BindToml} {paths : BindPaths} {users : Nat → BindUser}

/-- A text that a process may write. -/
def TextOf (toml : BindToml) (users : Nat → BindUser) (i : Nat) (text : String) : Prop :=
  ∃ hex, expected users i = .ok hex ∧ bindingText toml hex = .ok text

/-- The binding is one that a process accepts. -/
def Bound (toml : BindToml) (users : Nat → BindUser) (bind : Option Bytes) (i : Nat) : Prop :=
  ∃ hex data text, expected users i = .ok hex ∧ bind = some data ∧ fromUtf8 data = some text ∧
    toml.parse text = .ok hex

/-- What a process knows at a point of the function. -/
def Knows (toml : BindToml) (users : Nat → BindUser) (s : BindDir) (i : Nat) : BindPoint → Prop
  | .opening text => TextOf toml users i text
  | .writing text left => TextOf toml users i text ∧
      ∃ data, s.tmps (users i).tmp = some data ∧ data ++ left = utf8 text
  | .linking text => TextOf toml users i text ∧ s.tmps (users i).tmp = some (utf8 text)
  | .linkRefused text _ => TextOf toml users i text ∧ s.tmps (users i).tmp = some (utf8 text)
  | .renaming text _ =>
      (TextOf toml users i text ∧ s.tmps (users i).tmp = some (utf8 text)) ∧ s.bind = none
  | .removing (some (.ok ())) => Bound toml users s.bind i
  | .returned (.ok ()) => Bound toml users s.bind i
  | _ => True

/-- A text that was written is accepted by its writer. -/
theorem TextOf.bound {i : Nat} {text : String} (h : TextOf toml users i text) :
    Bound toml users (some (utf8 text)) i := by
  rcases h with ⟨hex, hhex, htext⟩
  refine ⟨hex, _, text, hhex, rfl, fromUtf8_utf8 text, ?_⟩
  unfold bindingText at htext
  rcases hbody : toml.render hex with e | body
  · simp only [hbody, Except.map, reduceCtorEq] at htext
  · simp only [hbody, Except.map, Except.ok.injEq] at htext
    rw [← htext]
    exact toml.reads hex body hbody

/-- The calls that are answered truly where it matters: the check before the
    rename. -/
def Honest (c : BindCall) : Prop :=
  c ≠ .lookupAgain false

/-- What a call of a process does to the directory and to the lock. -/
structure Effect (toml : BindToml) (users : Nat → BindUser) (s s' : BindDir) (i : Nat) : Prop where
  others : ∀ j, j ≠ i → s'.point j = s.point j
  bind : s'.bind = s.bind ∨
    (s.bind = none ∧ (s.point i).holds = true ∧ ∃ text, TextOf toml users i text ∧
      s'.bind = some (utf8 text))
  tmps : s'.tmps = s.tmps ∨ (s.point i).holds = true
  lock : (s'.lock = s.lock ∧ (s'.point i).holds = (s.point i).holds) ∨
    (s.lock = none ∧ s'.lock = some i ∧ (s'.point i).holds = true) ∨
    ((s.point i).holds = true ∧ s'.lock = none ∧ (s'.point i).holds = false)
  knows : Knows toml users s' i (s'.point i)

/-- A process knows nothing about the rest of the directory. -/
theorem Knows.congr {s s' : BindDir} {i : Nat} {p : BindPoint} (h : Knows toml users s i p)
    (hbind : s'.bind = s.bind) (htmps : s'.tmps = s.tmps) : Knows toml users s' i p := by
  unfold Knows at h ⊢
  rw [hbind, htmps]
  exact h

variable {s : BindDir} {i : Nat}

/-- A process goes on to another call. -/
theorem Effect.goto {p : BindPoint} (hholds : p.holds = (s.point i).holds)
    (hknows : Knows toml users s i p) : Effect toml users s (s.goto i p) i := by
  have hself : (s.goto i p).point i = p := Function.update_self ..
  refine ⟨fun j hj => Function.update_of_ne hj .., .inl rfl, .inl rfl, .inl ⟨rfl, ?_⟩, ?_⟩
  · rw [hself, hholds]
  · rw [hself]
    exact hknows.congr rfl rfl

/-- A process returns with the lock. -/
theorem Effect.leave {r : Except String Unit} (hholds : (s.point i).holds = true)
    (hknows : Knows toml users s i (.returned r)) : Effect toml users s (s.leave i r) i := by
  have hself : (s.leave i r).point i = .returned r := Function.update_self ..
  refine ⟨fun j hj => Function.update_of_ne hj .., .inl rfl, .inl rfl,
    .inr (.inr ⟨hholds, rfl, ?_⟩), ?_⟩
  · rw [hself]
    rfl
  · rw [hself]
    exact hknows.congr rfl rfl

/-- Inside the lock, the files of the processes may be changed first. -/
theorem Effect.of_tmps {tmps : String → Option Bytes} {s' : BindDir}
    (hholds : (s.point i).holds = true)
    (h : Effect toml users { s with tmps := tmps } s' i) : Effect toml users s s' i :=
  ⟨h.others, h.bind, .inr hholds, h.lock, h.knows⟩

/-- A process that compared the file knows what it returns. -/
theorem Knows.verified {r : Except String Unit} {hex : String} (hhex : expected users i = .ok hex) :
    Knows toml users s i
      (.returned (readBindingAndVerify toml.parse paths.path (s.readBind r) hex)) := by
  rcases hv : readBindingAndVerify toml.parse paths.path (s.readBind r) hex with e | _
  · exact True.intro
  · rcases readBindingAndVerify_ok_iff.mp hv with ⟨text, hread, hparse⟩
    unfold readBind at hread
    rcases r with e | _
    · simp only [reduceCtorEq] at hread
    rcases hbind : s.bind with _ | data
    · simp only [hbind, reduceCtorEq] at hread
    rcases hdata : fromUtf8 data with _ | text'
    · simp only [hbind, hdata, reduceCtorEq] at hread
    · simp only [hbind, hdata, Except.ok.injEq] at hread
      exact ⟨hex, data, text, hhex, hbind, hread ▸ hdata, hparse⟩

/-- Every call of a process that knows what it should has such an effect. -/
theorem step_effect {s' : BindDir} {c : BindCall} (hknows : Knows toml users s i (s.point i))
    (hc : Honest c) (h : s.step toml paths users i c = some s') : Effect toml users s s' i := by
  unfold step at h
  simp only at h
  split at h
  -- Before the lock is taken.
  case h_1 hp =>
    cases h
    exact .goto (by rw [hp]; rfl) True.intro
  case h_2 hp =>
    cases h
    exact .goto (by rw [hp]; rfl) True.intro
  case h_3 hp =>
    cases h
    exact .goto (by rw [hp]; rfl) True.intro
  case h_4 hp =>
    split_ifs at h with hfree
    cases h
    have hself : Function.update s.point i .checking i = .checking := Function.update_self ..
    refine ⟨fun j hj => Function.update_of_ne hj .., .inl rfl, .inl rfl,
      .inr (.inl ⟨hfree, rfl, ?_⟩), ?_⟩
    · change (Function.update s.point i .checking i).holds = _
      rw [hself]
      rfl
    · change Knows toml users _ i (Function.update s.point i .checking i)
      rw [hself]
      exact True.intro
  -- The check, and the file of the process.
  case h_5 hp =>
    have hholds : (s.point i).holds = true := by rw [hp]; rfl
    rcases hhex : expected users i with e | hex
    · simp only [hhex, Option.some.injEq] at h
      subst h
      exact .leave hholds True.intro
    simp only [hhex] at h
    split_ifs at h with hthere
    · cases h
      exact .goto hholds.symm True.intro
    rcases htext : bindingText toml hex with e | text
    · simp only [htext, Option.some.injEq] at h
      subst h
      exact .leave hholds True.intro
    · simp only [htext, Option.some.injEq] at h
      subst h
      exact .goto hholds.symm ⟨hex, hhex, htext⟩
  case h_6 text hp =>
    split_ifs at h with hnew
    cases h
    rw [hp] at hknows
    refine ⟨fun j hj => Function.update_of_ne hj .., .inl rfl, .inr (by rw [hp]; rfl),
      .inl ⟨rfl, ?_⟩, ?_⟩
    · change (Function.update s.point i (.writing text (utf8 text)) i).holds = _
      rw [Function.update_self, hp]
      rfl
    · change Knows toml users _ i (Function.update s.point i (.writing text (utf8 text)) i)
      rw [Function.update_self]
      exact ⟨hknows, [], Function.update_self .., rfl⟩
  case h_7 hp =>
    split_ifs at h
    cases h
    exact .goto (by rw [hp]; rfl) True.intro
  case h_8 hp =>
    cases h
    exact .leave (by rw [hp]; rfl) True.intro
  case h_9 hp =>
    split_ifs at h
    · cases h
      exact .goto (by rw [hp]; rfl) True.intro
    · cases h
      exact .leave (by rw [hp]; rfl) True.intro
  case h_10 text left n hp =>
    split_ifs at h with hleft
    cases h
    rw [hp] at hknows
    rcases hknows with ⟨htext, data, hdata, hsplit⟩
    refine ⟨fun j hj => Function.update_of_ne hj .., .inl rfl, .inr (by rw [hp]; rfl),
      .inl ⟨rfl, ?_⟩, ?_⟩
    · change (Function.update s.point i (.writing text (left.drop (n + 1))) i).holds = _
      rw [Function.update_self, hp]
      rfl
    · change Knows toml users _ i (Function.update s.point i (.writing text (left.drop (n + 1))) i)
      rw [Function.update_self]
      refine ⟨htext, data ++ left.take (n + 1), ?_, ?_⟩
      · change Function.update s.tmps _ _ _ = _
        rw [Function.update_self, hdata]
        rfl
      · rw [List.append_assoc, List.take_append_drop, hsplit]
  -- An error of a write or of the sync leads to the removal, where nothing is known.
  case h_11 hp =>
    split_ifs at h
    cases h
    exact .goto (by rw [hp]; rfl) True.intro
  case h_12 text left hp =>
    split_ifs at h with hleft
    cases h
    rw [hp] at hknows
    rcases hknows with ⟨htext, data, hdata, hsplit⟩
    rw [hleft, List.append_nil] at hsplit
    exact .goto (by rw [hp]; rfl) ⟨htext, hsplit ▸ hdata⟩
  case h_13 hp =>
    split_ifs at h
    cases h
    exact .goto (by rw [hp]; rfl) True.intro
  -- The link is made.
  case h_14 text hp =>
    split_ifs at h with hnone
    cases h
    rw [hp] at hknows
    refine ⟨fun j hj => Function.update_of_ne hj .., .inr ⟨hnone, by rw [hp]; rfl, text, hknows⟩,
      .inl rfl, .inl ⟨rfl, ?_⟩, ?_⟩
    · change (Function.update s.point i (.removing (some (.ok ()))) i).holds = _
      rw [Function.update_self, hp]
      rfl
    · change Knows toml users _ i (Function.update s.point i (.removing (some (.ok ()))) i)
      rw [Function.update_self]
      change Bound toml users (s.tmps (users i).tmp) i
      rw [hknows.2]
      exact hknows.1.bound
  case h_15 hp =>
    split_ifs at h
    cases h
    exact .goto (by rw [hp]; rfl) True.intro
  case h_16 text e hp =>
    cases h
    rw [hp] at hknows
    exact .goto (by rw [hp]; rfl) hknows
  -- The file is renamed, if it is not there.
  case h_17 text e answered hp =>
    rw [hp] at hknows
    split_ifs at h with hthere
    · cases h
      exact .goto (by rw [hp]; rfl) True.intro
    · cases h
      have hnone : s.bind = none := by
        rcases answered with _ | _
        · exact absurd rfl hc
        · rwa [Bool.true_and, Bool.not_eq_true, Option.isSome_eq_false_iff,
            Option.isNone_iff_eq_none] at hthere
      exact .goto (by rw [hp]; rfl) ⟨hknows, hnone⟩
  case h_18 text e hp =>
    cases h
    rw [hp] at hknows
    refine ⟨fun j hj => Function.update_of_ne hj ..,
      .inr ⟨hknows.2, by rw [hp]; rfl, text, hknows.1⟩, .inr (by rw [hp]; rfl),
      .inr (.inr ⟨by rw [hp]; rfl, rfl, ?_⟩), ?_⟩
    · change (Function.update s.point i (.returned (.ok ())) i).holds = _
      rw [Function.update_self]
      rfl
    · change Knows toml users _ i (Function.update s.point i (.returned (.ok ())) i)
      rw [Function.update_self]
      change Bound toml users (s.tmps (users i).tmp) i
      rw [hknows.1.2]
      exact hknows.1.1.bound
  case h_19 hp =>
    cases h
    exact .goto (by rw [hp]; rfl) True.intro
  case h_20 result removed hp =>
    have hholds : (s.point i).holds = true := by rw [hp]; rfl
    rw [hp] at hknows
    -- Whether the file is gone does not matter any more.
    obtain ⟨tmps, htmps⟩ : ∃ tmps, (if removed then
        { s with tmps := Function.update s.tmps (users i).tmp none } else s) =
          { s with tmps := tmps } := by
      split_ifs
      · exact ⟨_, rfl⟩
      · exact ⟨s.tmps, rfl⟩
    rw [htmps] at h
    rcases result with _ | r
    · cases h
      exact .of_tmps hholds (.goto hholds.symm True.intro)
    · cases h
      refine .of_tmps hholds (.leave hholds ?_)
      rcases r with e | _
      · exact True.intro
      · exact hknows
  case h_21 r hp =>
    have hholds : (s.point i).holds = true := by rw [hp]; rfl
    rcases hhex : expected users i with e | hex
    · simp only [hhex, Option.some.injEq] at h
      subst h
      exact .leave hholds True.intro
    · simp only [hhex, Option.some.injEq] at h
      subst h
      exact .leave hholds (.verified hhex)
  case h_22 => cases h
  case h_23 => cases h
  -- The process dies, and the system frees the lock.
  case h_24 =>
    cases h
    have hself : Function.update s.point i .crashed i = .crashed := Function.update_self ..
    refine ⟨fun j hj => Function.update_of_ne hj .., .inl rfl, .inl rfl, ?_, ?_⟩
    · rcases hholds : (s.point i).holds with _ | _
      · refine .inl ⟨rfl, ?_⟩
        change (Function.update s.point i .crashed i).holds = _
        rw [hself]
        rfl
      · refine .inr (.inr ⟨rfl, rfl, ?_⟩)
        change (Function.update s.point i .crashed i).holds = _
        rw [hself]
        rfl
    · change Knows toml users _ i (Function.update s.point i .crashed i)
      rw [hself]
      exact True.intro
  case h_25 => cases h

/-- What holds over any interleaving, for a directory that started with `start`. -/
structure Safe (toml : BindToml) (users : Nat → BindUser) (start : Option Bytes)
    (s : BindDir) : Prop where
  lock : ∀ i, (s.point i).holds = true ↔ s.lock = some i
  knows : ∀ i, Knows toml users s i (s.point i)
  bind : s.bind = start ∨
    (start = none ∧ ∃ i text, TextOf toml users i text ∧ s.bind = some (utf8 text))

/-- Outside the lock a process knows only that the file is there, which stays so. -/
theorem Knows.outside {s s' : BindDir} {j : Nat} {p : BindPoint} (h : Knows toml users s j p)
    (hp : p.holds = false) (hbind : s'.bind = s.bind ∨ s.bind = none) :
    Knows toml users s' j p := by
  cases p with
  | entry => exact True.intro
  | locking => exact True.intro
  | crashed => exact True.intro
  | returned r =>
    -- Only a process that returned Ok knows something outside the lock.
    rcases r with e | _
    · exact True.intro
    rcases hbind with hsame | hnone
    · change Bound toml users s'.bind j
      rw [hsame]
      exact h
    · rcases h with ⟨hex, data, text, _, hdata, _⟩
      rw [hnone] at hdata
      cases hdata
  | _ => cases hp

theorem Safe.initial (bind : Option Bytes) (tmps : String → Option Bytes) :
    Safe toml users bind (initial bind tmps) :=
  ⟨fun i => by simp [BindDir.initial, BindPoint.holds], fun _ => True.intro, .inl rfl⟩

variable {start : Option Bytes}

/-- One call keeps it. -/
theorem Safe.step {s' : BindDir} {c : BindCall} (hs : Safe toml users start s) (hc : Honest c)
    (h : s.step toml paths users i c = some s') : Safe toml users start s' := by
  have heff := step_effect (hs.knows i) hc h
  -- A process other than the caller is outside the lock if a file changed.
  have houtside : ∀ j, j ≠ i → (s.point i).holds = true → (s.point j).holds = false := by
    intro j hj hi
    rcases hholds : (s.point j).holds with _ | _
    · rfl
    · have hlock := (hs.lock j).mp hholds
      rw [(hs.lock i).mp hi] at hlock
      exact absurd (Option.some.inj hlock).symm hj
  refine ⟨fun j => ?_, fun j => ?_, ?_⟩
  · -- The lock: the caller takes it, frees it or keeps it, and nobody else can have it then.
    rcases eq_or_ne j i with rfl | hj
    · rcases heff.lock with ⟨hlock, hholds⟩ | ⟨_, hlock, hholds⟩ | ⟨_, hlock, hholds⟩
      · rw [hlock, hholds]
        exact hs.lock j
      · rw [hlock, hholds]
        exact iff_of_true rfl rfl
      · rw [hlock, hholds]
        exact iff_of_false Bool.false_ne_true (Option.some_ne_none j).symm
    · rw [heff.others j hj]
      rcases heff.lock with ⟨hlock, _⟩ | ⟨hnone, hlock, _⟩ | ⟨hi, hlock, _⟩
      · rw [hlock]
        exact hs.lock j
      · rw [hs.lock j, hnone, hlock]
        exact iff_of_false (Option.some_ne_none j).symm fun h => hj (Option.some.inj h).symm
      · rw [houtside j hj hi, hlock]
        exact iff_of_false Bool.false_ne_true (Option.some_ne_none j).symm
  · -- What a process knows is kept, as whoever changes a file is alone inside the lock.
    rcases eq_or_ne j i with rfl | hj
    · exact heff.knows
    · rw [heff.others j hj]
      rcases heff.bind with hbind | ⟨hnone, hi, _⟩
      · rcases heff.tmps with htmps | hi
        · exact (hs.knows j).congr hbind htmps
        · exact (hs.knows j).outside (houtside j hj hi) (.inl hbind)
      · exact (hs.knows j).outside (houtside j hj hi) (.inr hnone)
  · -- The binding is the one at the start, or was made when there was none.
    rcases heff.bind with hbind | ⟨hnone, _, text, htext, hbind⟩
    · rw [hbind]
      exact hs.bind
    · refine .inr ⟨?_, i, text, htext, hbind⟩
      rcases hs.bind with hstart | ⟨hstart, _⟩
      · rw [← hstart, hnone]
      · exact hstart

/-- A binding that is there stays. -/
theorem Safe.step_bind {s' : BindDir} {c : BindCall} {data : Bytes}
    (hs : Safe toml users start s) (hc : Honest c) (h : s.step toml paths users i c = some s')
    (hdata : s.bind = some data) : s'.bind = some data := by
  rcases (step_effect (hs.knows i) hc h).bind with hbind | ⟨hnone, _⟩
  · rw [hbind, hdata]
  · rw [hnone] at hdata
    cases hdata

/-- Every interleaving keeps both. -/
theorem Safe.run {s' : BindDir} (calls : List (Nat × BindCall)) (hs : Safe toml users start s)
    (hc : ∀ call ∈ calls, Honest call.2) (h : s.run toml paths users calls = some s') :
    Safe toml users start s' ∧ ∀ data, s.bind = some data → s'.bind = some data := by
  induction calls generalizing s with
  | nil =>
    cases h
    exact ⟨hs, fun _ hdata => hdata⟩
  | cons call calls ih =>
    rcases Option.bind_eq_some_iff.mp h with ⟨s₁, hstep, hrest⟩
    have hfirst := hc call (List.mem_cons_self ..)
    rcases ih (hs.step hfirst hstep) (fun c hmem => hc c (List.mem_cons_of_mem _ hmem)) hrest with
      ⟨hsafe, hbind⟩
    exact ⟨hsafe, fun data hdata => hbind data (hs.step_bind hfirst hstep hdata)⟩

/-- A process that returned `Ok` has the commitment of the file. -/
theorem Safe.returned (hs : Safe toml users start s) (h : s.point i = .returned (.ok ())) :
    Bound toml users s.bind i := by
  have hknows := hs.knows i
  rw [h] at hknows
  exact hknows

omit [Primitives] in
theorem readBind_ok_iff {text : String} :
    s.readBind (.ok ()) = .ok text ↔ ∃ data, s.bind = some data ∧ fromUtf8 data = some text := by
  unfold readBind
  rcases s.bind with _ | data
  · simp
  · rcases hdata : fromUtf8 data with _ | text'
    · simp [hdata]
    · simp [hdata]

/-- A later check of the file accepts exactly those with its commitment. -/
theorem Bound.verify_iff (h : Bound toml users s.bind i) (path : String) (g : Genesis) :
    verifyBindingIfPresent toml.parse path (some (s.readBind (.ok ()))) g = .ok () ↔
      g.stateCommitmentHex = (users i).genesis.stateCommitmentHex := by
  rcases h with ⟨hex, data, text, hhex, hdata, htext, hparse⟩
  rw [expected, mapError_ok_iff] at hhex
  have hread : s.readBind (.ok ()) = .ok text := readBind_ok_iff.mpr ⟨data, hdata, htext⟩
  rw [verifyBindingIfPresent_ok_iff, hhex, hread]
  constructor
  · intro h
    rcases h with ⟨text', hex', htext', hparse', hg⟩
    cases htext'
    rw [hparse] at hparse'
    cases hparse'
    exact hg
  · intro hg
    exact ⟨text, hex, rfl, hparse, hg⟩

/-- Several processes bind one directory, in any interleaving of their calls, with
    any failures and with processes that die, if the last check before a rename
    is answered truly. At most one of them is inside the lock. A binding that is
    there is never changed. One that was not there at the start is the whole text
    of one of the processes. If one of them returned `Ok`, then the check of
    `verify_binding_if_present` passes from then on for exactly the documents with
    its commitment, so any two of them agree. -/
theorem binding_agreement {bind : Option Bytes} {tmps : String → Option Bytes}
    {calls : List (Nat × BindCall)} {s : BindDir} (hcalls : ∀ call ∈ calls, Honest call.2)
    (h : (initial bind tmps).run toml paths users calls = some s) :
    (∀ i j, (s.point i).holds = true → (s.point j).holds = true → i = j) ∧
    (s.bind = bind ∨
      (bind = none ∧ ∃ i text, TextOf toml users i text ∧ s.bind = some (utf8 text))) ∧
    (∀ i j, s.point i = .returned (.ok ()) → s.point j = .returned (.ok ()) →
      (users i).genesis.stateCommitmentHex = (users j).genesis.stateCommitmentHex) ∧
    ∀ more s', (∀ call ∈ more, Honest call.2) → s.run toml paths users more = some s' →
      (∀ data, s.bind = some data → s'.bind = some data) ∧
      ∀ i g, s.point i = .returned (.ok ()) →
        (verifyBindingIfPresent toml.parse paths.path (some (s'.readBind (.ok ()))) g = .ok () ↔
          g.stateCommitmentHex = (users i).genesis.stateCommitmentHex) := by
  have hs := ((Safe.initial bind tmps).run calls hcalls h).1
  refine ⟨fun i j hi hj => ?_, hs.bind, fun i j hi hj => ?_, fun more s' hmore hrun => ?_⟩
  · have hlock := (hs.lock i).mp hi
    rw [(hs.lock j).mp hj] at hlock
    exact (Option.some.inj hlock).symm
  · -- The one's file passes the check of the other.
    have hself := ((hs.returned hi).verify_iff paths.path (users i).genesis).mpr rfl
    exact ((hs.returned hj).verify_iff paths.path _).mp hself
  · have hkeep := (hs.run more hmore hrun).2
    refine ⟨hkeep, fun i g hi => ?_⟩
    rcases hs.returned hi with ⟨hex, data, text, hhex, hdata, htext, hparse⟩
    exact Bound.verify_iff ⟨hex, data, text, hhex, hkeep data hdata, htext, hparse⟩ _ g

end Safety

section Progress

variable [Primitives] {toml : BindToml} {paths : BindPaths} {users : Nat → BindUser}
variable {s : BindDir} {i : Nat}

/-- The calls that do what they are asked to. -/
def Succeeds : BindCall → Prop
  | .createDir (.ok ()) => True
  | .lock (.ok ()) => True
  | .lookup true => True
  | .openNew .made => True
  | .write _ => True
  | .sync (.ok ()) => True
  | .link .made => True
  | .remove true => True
  | .read (.ok ()) => True
  | _ => False

omit [Primitives] in
theorem utf8_bindingText_length {hex text : String} (h : bindingText toml hex = .ok text) :
    1 < (utf8 text).length := by
  unfold bindingText at h
  rcases hbody : toml.render hex with e | body
  · simp only [hbody, Except.map, reduceCtorEq] at h
  · simp only [hbody, Except.map, Except.ok.injEq] at h
    have hcomment : 1 < (utf8 bindingComment).length := by decide +kernel
    rw [← h, utf8_append, utf8_append, List.length_append, List.length_append]
    omega

omit [Primitives] in
@[simp] theorem goto_point (s : BindDir) (i : Nat) (p : BindPoint) : (s.goto i p).point i = p :=
  Function.update_self ..

omit [Primitives] in
@[simp] theorem goto_goto (s : BindDir) (i : Nat) (p q : BindPoint) :
    (s.goto i p).goto i q = s.goto i q := by
  unfold goto
  rw [Function.update_idem]

variable (toml paths)

theorem step_createDir (h : s.point i = .entry) :
    s.step toml paths users i (.createDir (.ok ())) = some (s.goto i .locking) := by
  unfold step
  rw [h]

theorem step_lock (h : s.point i = .locking) (hfree : s.lock = none) :
    s.step toml paths users i (.lock (.ok ())) =
      some { s.goto i .checking with lock := some i } := by
  unfold step
  rw [h]
  exact if_pos hfree

theorem step_lookup_absent {hex text : String} {answered : Bool} (h : s.point i = .checking)
    (habsent : (answered && s.bind.isSome) = false) (hhex : expected users i = .ok hex)
    (htext : bindingText toml hex = .ok text) :
    s.step toml paths users i (.lookup answered) = some (s.goto i (.opening text)) := by
  unfold step
  rw [h, hhex]
  refine (if_neg (Bool.eq_false_iff.mp habsent)).trans ?_
  rw [htext]

theorem step_lookup_present {hex : String} (h : s.point i = .checking) (hthere : s.bind ≠ none)
    (hhex : expected users i = .ok hex) :
    s.step toml paths users i (.lookup true) = some (s.goto i .verifying) := by
  unfold step
  rw [h, hhex]
  exact if_pos (Option.isSome_iff_ne_none.mpr hthere)

theorem step_openNew {text : String} (h : s.point i = .opening text)
    (hnew : s.tmps (users i).tmp = none) :
    s.step toml paths users i (.openNew .made) =
      some { s.goto i (.writing text (utf8 text)) with
        tmps := Function.update s.tmps (users i).tmp (some []) } := by
  unfold step
  rw [h]
  exact if_pos hnew

theorem step_write {text : String} {left : Bytes} (h : s.point i = .writing text left)
    (hleft : left ≠ []) (n : Nat) :
    s.step toml paths users i (.write n) =
      some { s.goto i (.writing text (left.drop (n + 1))) with
        tmps := Function.update s.tmps (users i).tmp
          ((s.tmps (users i).tmp).map fun data => data ++ left.take (n + 1)) } := by
  unfold step
  rw [h]
  exact if_neg hleft

theorem step_sync {text : String} (h : s.point i = .writing text []) :
    s.step toml paths users i (.sync (.ok ())) = some (s.goto i (.linking text)) := by
  unfold step
  rw [h]
  exact if_pos rfl

theorem step_link {text : String} (h : s.point i = .linking text) (hnone : s.bind = none) :
    s.step toml paths users i (.link .made) =
      some { s.goto i (.removing (some (.ok ()))) with bind := s.tmps (users i).tmp } := by
  unfold step
  rw [h]
  exact if_pos hnone

theorem step_remove {r : Except String Unit} (h : s.point i = .removing (some r)) :
    s.step toml paths users i (.remove true) =
      some (({ s with
        tmps := Function.update s.tmps (users i).tmp none } : BindDir).leave i r) := by
  unfold step
  rw [h]
  rfl

theorem step_read {hex : String} {r : Except String Unit} (h : s.point i = .verifying)
    (hhex : expected users i = .ok hex) :
    s.step toml paths users i (.read r) =
      some (s.leave i (readBindingAndVerify toml.parse paths.path (s.readBind r) hex)) := by
  unfold step
  rw [h, hhex]

variable {toml paths}

theorem run_cons {c : BindCall} {s₁ : BindDir} (h : s.step toml paths users i c = some s₁)
    (calls : List (Nat × BindCall)) :
    s.run toml paths users ((i, c) :: calls) = s₁.run toml paths users calls := by
  rw [run, h, Option.bind_eq_bind, Option.bind_some]

theorem run_append {calls : List (Nat × BindCall)} {s₁ : BindDir}
    (h : s.run toml paths users calls = some s₁) (more : List (Nat × BindCall)) :
    s.run toml paths users (calls ++ more) = s₁.run toml paths users more := by
  induction calls generalizing s with
  | nil =>
    cases h
    rfl
  | cons call calls ih =>
    rcases Option.bind_eq_some_iff.mp h with ⟨s', hstep, hrest⟩
    rw [List.cons_append, run_cons hstep, ih hrest]

/-- The first calls take the lock. -/
def enterCalls : List BindCall :=
  [.createDir (.ok ()), .lock (.ok ())]

/-- The calls that write the file, after a check that may go unanswered. The first
    write takes one byte. -/
def writeCalls (answered : Bool) (text : String) : List BindCall :=
  [.lookup answered, .openNew .made, .write 0, .write (utf8 text).length, .sync (.ok ())]

/-- The calls of a process that finds no binding. -/
def bindCalls (text : String) : List BindCall :=
  enterCalls ++ (writeCalls true text ++ [.link .made, .remove true])

variable (toml paths)

theorem run_enterCalls (hlock : s.lock = none) (hi : s.point i = .entry) :
    s.run toml paths users (enterCalls.map (i, ·)) =
      some { s.goto i .checking with lock := some i } := by
  rw [enterCalls, List.map_cons, List.map_cons, List.map_nil, run_cons (step_createDir _ _ hi),
    run_cons (step_lock _ _ (goto_point ..) hlock), run, goto_goto]

theorem run_writeCalls {hex text : String} (answered : Bool) (hi : s.point i = .checking)
    (hbind : (answered && s.bind.isSome) = false) (htmp : s.tmps (users i).tmp = none)
    (hhex : expected users i = .ok hex) (htext : bindingText toml hex = .ok text) :
    s.run toml paths users ((writeCalls answered text).map (i, ·)) =
      some { s.goto i (.linking text) with
        tmps := Function.update s.tmps (users i).tmp (some (utf8 text)) } := by
  have hlen := utf8_bindingText_length htext
  have hfirst : utf8 text ≠ [] := List.ne_nil_of_length_pos (Nat.zero_lt_of_lt hlen)
  have hmore : (utf8 text).drop 1 ≠ [] := by
    rw [ne_eq, List.drop_eq_nil_iff]
    omega
  have hdone : ((utf8 text).drop 1).drop ((utf8 text).length + 1) = [] := by
    rw [List.drop_drop, List.drop_eq_nil_iff]
    omega
  -- The first byte and the rest are the whole text.
  have hall : (utf8 text).take 1 ++ ((utf8 text).drop 1).take ((utf8 text).length + 1) =
      utf8 text := by
    have hrest : ((utf8 text).drop 1).take ((utf8 text).length + 1) = (utf8 text).drop 1 := by
      refine List.take_of_length_le ?_
      rw [List.length_drop]
      omega
    rw [hrest, List.take_append_drop]
  refine Eq.trans (run_cons (step_lookup_absent _ _ hi hbind hhex htext) _) ?_
  refine Eq.trans (run_cons (step_openNew _ _ (by exact goto_point ..) (by exact htmp)) _) ?_
  refine Eq.trans (run_cons (step_write _ _ (by exact goto_point ..) hfirst 0) _) ?_
  refine Eq.trans (run_cons (step_write _ _ (by exact goto_point ..) hmore _) _) ?_
  rw [hdone]
  refine Eq.trans (run_cons (step_sync _ _ (by exact goto_point ..)) _) ?_
  simp only [List.map_nil, run, goto, Function.update_idem, Function.update_self,
    Option.map_some, List.nil_append, Nat.zero_add, hall]

theorem run_bindCalls {hex text : String} (hlock : s.lock = none) (hi : s.point i = .entry)
    (htmp : s.tmps (users i).tmp = none) (hbind : s.bind = none)
    (hhex : expected users i = .ok hex) (htext : bindingText toml hex = .ok text) :
    ∃ s', s.run toml paths users ((bindCalls text).map (i, ·)) = some s' ∧
      s'.point i = .returned (.ok ()) := by
  have hnone : (true && s.bind.isSome) = false := by rw [hbind]; rfl
  have hwrite := run_writeCalls toml paths (s := { s.goto i .checking with lock := some i })
    true (goto_point ..) hnone htmp hhex htext
  rw [bindCalls, List.map_append, List.map_append, run_append (run_enterCalls toml paths hlock hi),
    run_append hwrite]
  refine ⟨_, Eq.trans (run_cons (step_link _ _ (by exact goto_point ..) (by exact hbind)) _)
    (Eq.trans (run_cons (step_remove _ _ (by exact goto_point ..)) _) rfl), ?_⟩
  exact Function.update_self ..

/-- The calls of a process that is not told what is there. -/
def unansweredCalls (text e : String) : List BindCall :=
  enterCalls ++ (writeCalls false text ++
    [.link (.failed e), .lookupAgain false, .rename (.ok ())])

/-- A process whose two checks go unanswered, and that cannot make a link, replaces
    a binding, whatever it was, and returns `Ok`. -/
theorem unanswered_overwrites {hex text : String} (e : String) (hlock : s.lock = none)
    (hi : s.point i = .entry) (htmp : s.tmps (users i).tmp = none)
    (hhex : expected users i = .ok hex) (htext : bindingText toml hex = .ok text) :
    ∃ s', s.run toml paths users ((unansweredCalls text e).map (i, ·)) = some s' ∧
      s'.point i = .returned (.ok ()) ∧ s'.bind = some (utf8 text) := by
  have hwrite := run_writeCalls toml paths (s := { s.goto i .checking with lock := some i })
    false (goto_point ..) rfl htmp hhex htext
  rw [unansweredCalls, List.map_append, List.map_append,
    run_append (run_enterCalls toml paths hlock hi), run_append hwrite]
  simp [run, step, goto, leave]

variable {toml paths}

/-- What the function returns to a process that nothing hinders. -/
def outcome (toml : BindToml) (paths : BindPaths) (s : BindDir) (hex : String) :
    Except String Unit :=
  if s.bind = none then .ok ()
  else readBindingAndVerify toml.parse paths.path (s.readBind (.ok ())) hex

/-- The directory around a process that came to a point by calls that succeed, and
    that started when the directory was `s₀`. -/
def Unhindered (toml : BindToml) (paths : BindPaths) (users : Nat → BindUser) (s₀ : BindDir)
    (hex text : String) (s : BindDir) (i : Nat) : BindPoint → Prop
  | .entry => s.lock = none ∧ s.bind = s₀.bind ∧ s.tmps (users i).tmp = none
  | .locking => s.lock = none ∧ s.bind = s₀.bind ∧ s.tmps (users i).tmp = none
  | .checking => s.bind = s₀.bind ∧ s.tmps (users i).tmp = none
  | .opening text' => text' = text ∧ s₀.bind = none ∧ s.bind = none ∧ s.tmps (users i).tmp = none
  | .writing _ _ => s₀.bind = none ∧ s.bind = none
  | .linking _ => s₀.bind = none ∧ s.bind = none
  | .removing result => s₀.bind = none ∧ result = some (.ok ())
  | .verifying => s₀.bind ≠ none ∧ s.bind = s₀.bind
  | .returned r => r = outcome toml paths s₀ hex
  | _ => False

/-- How many calls are left at most when they succeed. Every write takes a byte or
    more. -/
def callsLeft (text : String) : BindPoint → Nat
  | .entry => (utf8 text).length + 7
  | .locking => (utf8 text).length + 6
  | .checking => (utf8 text).length + 5
  | .opening _ => (utf8 text).length + 4
  | .writing _ left => left.length + 3
  | .linking _ => 2
  | .removing _ => 1
  | .verifying => 1
  | _ => 0

section Unhindered

variable {s₀ : BindDir} {hex text : String}

/-- A call that succeeds brings the process forward. -/
theorem Unhindered.step {s' : BindDir} {c : BindCall} (hhex : expected users i = .ok hex)
    (htext : bindingText toml hex = .ok text)
    (hs : Unhindered toml paths users s₀ hex text s i (s.point i)) (hc : Succeeds c)
    (h : s.step toml paths users i c = some s') :
    Unhindered toml paths users s₀ hex text s' i (s'.point i) ∧
      callsLeft text (s'.point i) < callsLeft text (s.point i) := by
  -- At the new point both parts are read off its definition.
  have hat : ∀ {t : BindDir} {p : BindPoint}, t.point i = p →
      Unhindered toml paths users s₀ hex text t i p →
      callsLeft text p < callsLeft text (s.point i) →
      Unhindered toml paths users s₀ hex text t i (t.point i) ∧
        callsLeft text (t.point i) < callsLeft text (s.point i) := by
    intro t p hp hu hleft
    rw [hp]
    exact ⟨hu, hleft⟩
  unfold BindDir.step at h
  simp only at h
  split at h
  -- The lock is free.
  case h_2 hp =>
    cases h
    rw [hp] at hs
    exact hat (Function.update_self ..) hs (by rw [hp]; exact Nat.lt_succ_self _)
  case h_4 hp =>
    rw [hp] at hs
    rw [if_pos hs.1, Option.some.injEq] at h
    subst h
    exact hat (Function.update_self ..) hs.2 (by rw [hp]; exact Nat.lt_succ_self _)
  -- A binding that is there is seen, and else the process writes its own.
  case h_5 answered hp =>
    cases answered with
    | false => exact hc.elim
    | true =>
      rw [hp] at hs
      simp only [hhex, htext, Bool.true_and] at h
      by_cases hnone : s.bind = none
      · simp only [hnone, Option.isSome_none, Bool.false_eq_true, if_false,
          Option.some.injEq] at h
        subst h
        exact hat (Function.update_self ..) ⟨rfl, hs.1 ▸ hnone, hnone, hs.2⟩
          (by rw [hp]; exact Nat.lt_succ_self _)
      · simp only [Option.isSome_iff_ne_none.mpr hnone, if_true, Option.some.injEq] at h
        subst h
        exact hat (Function.update_self ..) ⟨hs.1 ▸ hnone, hs.1⟩
          (by rw [hp]; change 1 < (utf8 text).length + 5; omega)
  case h_6 text' hp =>
    rw [hp] at hs
    rcases hs with ⟨rfl, hstart, hbind, htmp⟩
    rw [if_pos htmp, Option.some.injEq] at h
    subst h
    exact hat (Function.update_self ..) ⟨hstart, hbind⟩ (by rw [hp]; exact Nat.lt_succ_self _)
  -- Every write takes a byte at least, so the count goes down.
  case h_10 text' left n hp =>
    rw [hp] at hs
    split_ifs at h with hnil
    cases h
    refine hat (Function.update_self ..) hs ?_
    rw [hp]
    change (left.drop (n + 1)).length + 3 < left.length + 3
    have := List.length_pos_iff.mpr hnil
    rw [List.length_drop]
    omega
  case h_12 text' left hp =>
    rw [hp] at hs
    split_ifs at h
    cases h
    refine hat (Function.update_self ..) hs ?_
    rw [hp]
    change 2 < left.length + 3
    omega
  case h_14 hp =>
    rw [hp] at hs
    rw [if_pos hs.2, Option.some.injEq] at h
    subst h
    exact hat (Function.update_self ..) ⟨hs.1, rfl⟩ (by rw [hp]; exact Nat.lt_succ_self _)
  case h_20 result removed hp =>
    rw [hp] at hs
    rcases hs with ⟨hstart, rfl⟩
    cases h
    refine hat (Function.update_self ..) ?_ (by rw [hp]; exact Nat.lt_succ_self _)
    exact (if_pos hstart).symm
  case h_21 r hp =>
    rcases r with e | _
    · exact hc.elim
    rw [hp] at hs
    simp only [hhex, Option.some.injEq] at h
    subst h
    refine hat (Function.update_self ..) ?_ (by rw [hp]; exact Nat.lt_succ_self _)
    have hsame : s.readBind (.ok ()) = s₀.readBind (.ok ()) := by
      unfold readBind
      rw [hs.2]
    rw [hsame]
    exact (if_neg hs.1).symm
  case h_9 hp =>
    rw [hp] at hs
    exact hs.elim
  -- The other calls do not succeed, or are not made at their point.
  all_goals first
    | exact hc.elim
    | cases h

/-- A process that did not return yet has a call to make, and it can succeed. -/
theorem Unhindered.goes_on (hhex : expected users i = .ok hex)
    (htext : bindingText toml hex = .ok text)
    (hs : Unhindered toml paths users s₀ hex text s i (s.point i)) :
    s.point i = .returned (outcome toml paths s₀ hex) ∨
      ∃ c s', Succeeds c ∧ s.step toml paths users i c = some s' := by
  cases hp : s.point i with
  | entry => exact .inr ⟨.createDir (.ok ()), _, True.intro, step_createDir _ _ hp⟩
  | locking =>
    rw [hp] at hs
    exact .inr ⟨.lock (.ok ()), _, True.intro, step_lock _ _ hp hs.1⟩
  | checking =>
    refine .inr ⟨.lookup true, ?_⟩
    by_cases hbind : s.bind = none
    · have habsent : (true && s.bind.isSome) = false := by rw [hbind]; rfl
      exact ⟨_, True.intro, step_lookup_absent _ _ hp habsent hhex htext⟩
    · exact ⟨_, True.intro, step_lookup_present _ _ hp hbind hhex⟩
  | opening text' =>
    rw [hp] at hs
    exact .inr ⟨.openNew .made, _, True.intro, step_openNew _ _ hp hs.2.2.2⟩
  | writing text' left =>
    by_cases hleft : left = []
    · rw [hleft] at hp
      exact .inr ⟨.sync (.ok ()), _, True.intro, step_sync _ _ hp⟩
    · exact .inr ⟨.write 0, _, True.intro, step_write _ _ hp hleft 0⟩
  | linking text' =>
    rw [hp] at hs
    exact .inr ⟨.link .made, _, True.intro, step_link _ _ hp hs.2⟩
  | removing result =>
    rw [hp] at hs
    rw [hs.2] at hp
    exact .inr ⟨.remove true, _, True.intro, step_remove _ _ hp⟩
  | verifying => exact .inr ⟨.read (.ok ()), _, True.intro, step_read _ _ hp hhex⟩
  | returned r =>
    rw [hp] at hs
    exact .inl (congrArg BindPoint.returned hs)
  | _ =>
    rw [hp] at hs
    exact hs.elim

/-- Over any calls that succeed. -/
theorem Unhindered.run {s' : BindDir} (hhex : expected users i = .ok hex)
    (htext : bindingText toml hex = .ok text) {more : List BindCall}
    (hs : Unhindered toml paths users s₀ hex text s i (s.point i)) (hc : ∀ c ∈ more, Succeeds c)
    (h : s.run toml paths users (more.map (i, ·)) = some s') :
    Unhindered toml paths users s₀ hex text s' i (s'.point i) ∧
      more.length + callsLeft text (s'.point i) ≤ callsLeft text (s.point i) := by
  induction more generalizing s with
  | nil =>
    cases h
    exact ⟨hs, Nat.le_of_eq (Nat.zero_add _)⟩
  | cons c more ih =>
    rcases Option.bind_eq_some_iff.mp h with ⟨s₁, hstep, hrest⟩
    rw [List.forall_mem_cons] at hc
    rcases hs.step hhex htext hc.1 hstep with ⟨hs₁, hless⟩
    rcases ih hs₁ hc.2 hrest with ⟨hs', hle⟩
    refine ⟨hs', ?_⟩
    rw [List.length_cons]
    omega

end Unhindered

/-- Processes that died or failed do not lock a directory up. Whatever happened
    before, if nobody is inside the lock and the name of a new process's file is free,
    then there is one result that the function can return to this process while its
    calls succeed. It is `Ok` if there was no binding or one that
    `verify_binding_if_present` accepts, and in no other case. However its writes are
    cut, a run of calls that succeed has no more calls than the text has bytes and
    seven, and either it has returned that result or one more call can succeed. -/
theorem binding_progress {bind : Option Bytes} {tmps : String → Option Bytes}
    {calls : List (Nat × BindCall)} {hex text : String}
    (hcalls : ∀ call ∈ calls, Honest call.2)
    (h : (initial bind tmps).run toml paths users calls = some s)
    (hidle : ∀ j, (s.point j).holds = false) (hi : s.point i = .entry)
    (htmp : s.tmps (users i).tmp = none) (hhex : expected users i = .ok hex)
    (htext : bindingText toml hex = .ok text) :
    ∃ r : Except String Unit,
      (r = .ok () ↔ s.bind = none ∨
        verifyBindingIfPresent toml.parse paths.path (some (s.readBind (.ok ())))
          (users i).genesis = .ok ()) ∧
      ∀ (more : List BindCall) (s' : BindDir), (∀ c ∈ more, Succeeds c) →
        s.run toml paths users (more.map (i, ·)) = some s' →
        more.length ≤ (utf8 text).length + 7 ∧
        (s'.point i = .returned r ∨
          ∃ c s'', Succeeds c ∧ s'.step toml paths users i c = some s'') := by
  have hs := ((Safe.initial bind tmps).run calls hcalls h).1
  -- Nobody is inside, so the lock is free.
  have hlock : s.lock = none := by
    rcases hholder : s.lock with _ | j
    · rfl
    · have hholds := (hs.lock j).mpr hholder
      rw [hidle j] at hholds
      cases hholds
  have hstart : Unhindered toml paths users s hex text s i (s.point i) := by
    rw [hi]
    exact ⟨hlock, rfl, htmp⟩
  refine ⟨outcome toml paths s hex, ?_, fun more s' hmore hrun => ?_⟩
  · -- What is returned is known at the start: a binding that is there stays, and is read.
    rw [expected, mapError_ok_iff] at hhex
    unfold outcome
    by_cases hbind : s.bind = none
    · rw [if_pos hbind]
      exact iff_of_true rfl (.inl hbind)
    rw [if_neg hbind, readBindingAndVerify_ok_iff, verifyBindingIfPresent_ok_iff]
    constructor
    · intro hok
      rcases hok with ⟨text', hread, hparse⟩
      exact .inr ⟨text', hex, hread, hparse, hhex⟩
    · intro hok
      rcases hok.resolve_left hbind with ⟨text', hex', hread, hparse, hhex'⟩
      rw [hhex] at hhex'
      cases hhex'
      exact ⟨text', hread, hparse⟩
  · -- Each call lowers the number of calls that are left.
    rcases hstart.run hhex htext hmore hrun with ⟨hs', hle⟩
    rw [hi] at hle
    exact ⟨Nat.le_trans (Nat.le_add_right _ _) hle, hs'.goes_on hhex htext⟩

end Progress

end BindDir

namespace Sample

open BindDir

/-- A format that writes the commitment as it is. -/
def plainToml : BindToml where
  render hex := .ok hex
  parse text := .ok (String.ofList (text.toList.drop bindingComment.toList.length).dropLast)
  reads hex body h := by
    cases h
    simp

/-- Every process loaded the same document. -/
def binders (i : Nat) : BindUser :=
  { genesis := genesis, tmp := ".genesis_bind.pending." ++ toString i ++ ".0.tmp" }

def bindPaths : BindPaths :=
  { dataDir := "data", lockPath := "data/.genesis_bind.lock", path := "data/genesis_bind.toml" }

theorem expected_binders : ∃ hex, ∀ i, expected binders i = .ok hex :=
  ⟨_, fun _ => mapError_ok_iff.mpr
    ((Genesis.stateCommitmentHex_ok_iff genesis _).mpr ⟨_, sortedPairs_genesis, rfl⟩)⟩

/-- One process binds the directory while another waits for the lock, and then the
    other one compares. -/
def bindTwo (text : String) : List (Nat × BindCall) :=
  [(0, .createDir (.ok ())), (1, .createDir (.ok ())), (0, .lock (.ok ()))] ++
    ((writeCalls true text).map (0, ·) ++
      [(0, .link .made), (0, .remove true), (1, .lock (.ok ())), (1, .lookup true),
        (1, .read (.ok ()))])

/-- Two processes bound the directory, their calls in turns. -/
theorem binding_agreement_two : ∃ s : BindDir, s.point 0 = .returned (.ok ()) ∧
    s.point 1 = .returned (.ok ()) ∧ ∀ g, verifyBindingIfPresent plainToml.parse bindPaths.path
      (some (s.readBind (.ok ()))) g = .ok () ↔
        g.stateCommitmentHex = genesis.stateCommitmentHex := by
  rcases expected_binders with ⟨hex, hhex⟩
  have htext : bindingText plainToml hex = .ok (bindingComment ++ hex ++ "\n") := rfl
  have hverify : readBindingAndVerify plainToml.parse bindPaths.path
      (.ok (bindingComment ++ hex ++ "\n")) hex = .ok () :=
    readBindingAndVerify_ok_iff.mpr ⟨_, rfl, plainToml.reads hex hex rfl⟩
  generalize bindingComment ++ hex ++ "\n" = text at htext hverify
  -- The first process has the lock, and the second one waits.
  let taken : BindDir :=
    { lock := some 0, bind := none, tmps := fun _ => none,
      point := Function.update (Function.update (Function.update (fun _ => .entry) 0 .locking)
        1 .locking) 0 .checking }
  have htaken : (initial none fun _ => none).run plainToml bindPaths binders
      [(0, .createDir (.ok ())), (1, .createDir (.ok ())), (0, .lock (.ok ()))] = some taken := by
    rw [run_cons (step_createDir _ _ rfl), run_cons (step_createDir _ _ rfl),
      run_cons (step_lock _ _ rfl rfl), run]
    rfl
  have hwrite : taken.run plainToml bindPaths binders ((writeCalls true text).map (0, ·)) = _ :=
    run_writeCalls plainToml bindPaths true rfl rfl rfl (hhex 0) htext
  have hrun : ∃ s, (initial none fun _ => none).run plainToml bindPaths binders (bindTwo text) =
      some s ∧ s.point 0 = .returned (.ok ()) ∧ s.point 1 = .returned (.ok ()) := by
    rw [bindTwo, run_append htaken, run_append hwrite, run_cons (step_link _ _ rfl rfl),
      run_cons (step_remove _ _ rfl), run_cons (step_lock _ _ rfl rfl),
      run_cons (step_lookup_present _ _ rfl (Option.some_ne_none _) (hhex 1)),
      run_cons (step_read _ _ rfl (hhex 1)), run]
    refine ⟨_, rfl, rfl, ?_⟩
    simp [goto, leave, taken, readBind, fromUtf8_utf8, hverify]
  rcases hrun with ⟨s, hrun, hzero, hone⟩
  have hcalls : ∀ call ∈ bindTwo text, Honest call.2 := by
    simp [bindTwo, writeCalls, Honest]
  refine ⟨s, hzero, hone, fun g => ?_⟩
  exact ((binding_agreement hcalls hrun).2.2.2 [] s (fun _ h => nomatch h) rfl).2 1 g hone

/-- A process died while it wrote, and another one binds the directory with calls
    that succeed. -/
theorem binding_progress_after_crash : ∃ (s s' : BindDir) (text : String),
    s.point 0 = .crashed ∧ s.tmps (binders 0).tmp = some [] ∧
    s.run plainToml bindPaths binders ((bindCalls text).map (1, ·)) = some s' ∧
    s'.point 1 = .returned (.ok ()) := by
  rcases expected_binders with ⟨hex, hhex⟩
  have htext : bindingText plainToml hex = .ok (bindingComment ++ hex ++ "\n") := rfl
  generalize bindingComment ++ hex ++ "\n" = text at htext
  let s : BindDir :=
    { lock := none, bind := none, tmps := Function.update (fun _ => none) (binders 0).tmp (some []),
      point := Function.update (fun _ => .entry) 0 .crashed }
  have hrun : (initial none fun _ => none).run plainToml bindPaths binders
      [(0, .createDir (.ok ())), (0, .lock (.ok ())), (0, .lookup true), (0, .openNew .made),
        (0, .crash)] = some s := by
    rw [run_cons (step_createDir _ _ rfl), run_cons (step_lock _ _ rfl rfl),
      run_cons (step_lookup_absent _ _ rfl rfl (hhex 0) htext),
      run_cons (step_openNew _ _ rfl rfl)]
    simp [run, step, goto, initial, BindPoint.holds, s]
  -- The dead process left its temporary file behind, and no lock.
  have hidle : ∀ j, (s.point j).holds = false := by
    intro j
    rcases eq_or_ne j 0 with rfl | hj
    · simp [s, BindPoint.holds]
    · simp [s, hj, BindPoint.holds]
  have hother : (binders 1).tmp ≠ (binders 0).tmp := by decide
  have htmp : s.tmps (binders 1).tmp = none := by
    change Function.update (fun _ => none) (binders 0).tmp (some []) (binders 1).tmp = none
    rw [Function.update_of_ne hother]
  rcases run_bindCalls plainToml bindPaths (s := s) (i := 1) rfl rfl htmp rfl (hhex 1) htext with
    ⟨s', hmore, hret⟩
  rcases binding_progress (i := 1) (by simp [Honest]) hrun hidle rfl htmp (hhex 1) htext with
    ⟨r, hr, hall⟩
  have hsucceed : ∀ c ∈ bindCalls text, Succeeds c := by
    simp [bindCalls, enterCalls, writeCalls, Succeeds]
  rcases (hall _ s' hsucceed hmore).2 with hend | ⟨c, s'', _, hstep⟩
  · rw [hr.mpr (.inl rfl)] at hend
    exact ⟨s, s', text, rfl, by simp [s], hmore, hend⟩
  · simp [step, hret] at hstep

end Sample

end Trilogicon
