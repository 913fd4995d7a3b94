import Mathlib.Logic.Function.Basic
import Trilogicon.Core.DataDirBind

/-!
# Binding a Data Directory

`ensure_binding_if_missing` of `data_dir_bind.rs`, run by any number of processes
in one data directory.

A process takes a lock, looks whether the file is there and compares it if it is.
Otherwise it writes a file of its own and links it to the name of the binding. If
there is no link to be had, it looks again and renames its file. The lock is given
back when the function returns, and by the system when the process dies.

A step is one call of one process, with what the system answers. A call is refused
here only if the system cannot answer so: a new file is not created over another
one, and a link is not made over one. `Path::exists` answers `false` when the
system cannot tell. A write may take any part of what is left. A file is read at
once.

The file of a process and the binding may be two names of one file. Nobody writes
to a file after it was linked, so they are modelled as two files.

The text of an error of the system is data. `toml` is a parameter with what is
needed of it: it reads back what it wrote.

## Main definitions

* `BindToml`, `bindingText`: The text of the file.
* `BindUser`: A process that binds the directory.
* `BindPoint`: Where a process is in the function.
* `BindCall`: A call of the system, with its answer.
* `BindDir.step`, `BindDir.run`: One call, and an interleaving.
-/

namespace Trilogicon

/-- The comment in front of the binding. -/
def bindingComment : String :=
  "# Trilogicon V2 — binds this data directory to a genesis state commitment.\n" ++
    "# Do not edit by hand unless you know the effect on chain.blocks and pending_tx.tril.\n"

/-- `toml::to_string` and `toml::from_str` for `BindFile`. -/
structure BindToml where
  render : String → Except String String
  parse : BindParser
  /-- What was written is read back, with the comment in front of it. -/
  reads : ∀ hex body, render hex = .ok body → parse (bindingComment ++ body ++ "\n") = .ok hex

/-- `data_dir_bind::binding_text`. -/
def bindingText (toml : BindToml) (hex : String) : Except String String :=
  (toml.render hex).map fun body => bindingComment ++ body ++ "\n"

/-- A process: the genesis document it loaded and the name of its file. -/
structure BindUser where
  genesis : Genesis
  tmp : String

/-- The names in the directory. -/
structure BindPaths where
  dataDir : String
  lockPath : String
  path : String

/-- Where a process is: the call it makes next, or how it ended. -/
inductive BindPoint where
  | entry
  | locking
  | checking
  | opening (text : String)
  | openRefused (e : String)
  | writing (text : String) (left : Bytes)
  | linking (text : String)
  | linkRefused (text e : String)
  | renaming (text e : String)
  /-- Remove the file, then return or compare. -/
  | removing (result : Option (Except String Unit))
  | verifying
  | returned (r : Except String Unit)
  | crashed

/-- Whether the process has the lock. -/
def BindPoint.holds : BindPoint → Bool
  | .entry => false
  | .locking => false
  | .returned _ => false
  | .crashed => false
  | _ => true

/-- What `create_new` and `hard_link` answer. -/
inductive MakeResult where
  | made
  | alreadyExists (e : String)
  | failed (e : String)

/-- A call with its answer. `answered` is `false` if the system could not tell
    whether the file is there. -/
inductive BindCall where
  | createDir (r : Except String Unit)
  | lock (r : Except String Unit)
  | lookup (answered : Bool)
  | openNew (r : MakeResult)
  | write (n : Nat)
  | writeFailed (e : String)
  | sync (r : Except String Unit)
  | link (r : MakeResult)
  | lookupAgain (answered : Bool)
  | rename (r : Except String Unit)
  | remove (removed : Bool)
  | read (r : Except String Unit)
  | crash

/-- The directory and the processes in it. -/
structure BindDir where
  lock : Option Nat
  bind : Option Bytes
  tmps : String → Option Bytes
  point : Nat → BindPoint

namespace BindDir

/-- A process goes on to another call. -/
def goto (s : BindDir) (i : Nat) (p : BindPoint) : BindDir :=
  { s with point := Function.update s.point i p }

/-- A process returns, and gives the lock back. -/
def leave (s : BindDir) (i : Nat) (r : Except String Unit) : BindDir :=
  { s with lock := none, point := Function.update s.point i (.returned r) }

/-- `read_to_string`. -/
def readBind (s : BindDir) : Except String Unit → Except String String
  | .error e => .error e
  | .ok () =>
      match s.bind with
      | none => .error "No such file or directory (os error 2)"
      | some bytes =>
          match fromUtf8 bytes with
          | none => .error "stream did not contain valid UTF-8"
          | some text => .ok text

section Step

variable [Primitives] (toml : BindToml) (paths : BindPaths) (users : Nat → BindUser)

/-- `state_commitment_hex`, with the error as text. -/
def expected (i : Nat) : Except String String :=
  (users i).genesis.stateCommitmentHex.mapError ProtocolError.display

/-- One call of one process; `none` if it does not make this call now, or if the
    system cannot answer so. -/
def step (s : BindDir) (i : Nat) (c : BindCall) : Option BindDir :=
  let tmp := (users i).tmp
  match s.point i, c with
  | .entry, .createDir (.error e) =>
      some (s.goto i (.returned (.error (paths.dataDir ++ ": " ++ e))))
  | .entry, .createDir (.ok ()) => some (s.goto i .locking)
  | .locking, .lock (.error e) =>
      some (s.goto i (.returned (.error ("[startup] fail-closed: could not lock " ++
        paths.lockPath ++ " — " ++ e))))
  | .locking, .lock (.ok ()) =>
      if s.lock = none then some { s.goto i .checking with lock := some i } else none
  | .checking, .lookup answered =>
      match expected users i with
      | .error e => some (s.leave i (.error e))
      | .ok hex =>
          if answered && s.bind.isSome then some (s.goto i .verifying)
          else
            match bindingText toml hex with
            | .error e => some (s.leave i (.error e))
            | .ok text => some (s.goto i (.opening text))
  | .opening text, .openNew .made =>
      if s.tmps tmp = none then
        some { s.goto i (.writing text (utf8 text)) with
          tmps := Function.update s.tmps tmp (some []) }
      else none
  | .opening _, .openNew (.alreadyExists e) =>
      if s.tmps tmp = none then none else some (s.goto i (.openRefused e))
  | .opening _, .openNew (.failed e) => some (s.leave i (.error (tmp ++ ": " ++ e)))
  | .openRefused e, .lookup answered =>
      if answered && s.bind.isSome then some (s.goto i .verifying)
      else some (s.leave i (.error (tmp ++ ": " ++ e)))
  | .writing text left, .write n =>
      if left = [] then none
      else
        some { s.goto i (.writing text (left.drop (n + 1))) with
          tmps := Function.update s.tmps tmp
            ((s.tmps tmp).map fun data => data ++ left.take (n + 1)) }
  | .writing _ left, .writeFailed e =>
      if left = [] then none else some (s.goto i (.removing (some (.error (tmp ++ ": " ++ e)))))
  | .writing text left, .sync (.ok ()) =>
      if left = [] then some (s.goto i (.linking text)) else none
  | .writing _ left, .sync (.error e) =>
      if left = [] then some (s.goto i (.removing (some (.error (tmp ++ ": " ++ e))))) else none
  | .linking _, .link .made =>
      if s.bind = none then
        some { s.goto i (.removing (some (.ok ()))) with bind := s.tmps tmp }
      else none
  | .linking _, .link (.alreadyExists _) =>
      if s.bind = none then none else some (s.goto i (.removing none))
  | .linking text, .link (.failed e) => some (s.goto i (.linkRefused text e))
  | .linkRefused text e, .lookupAgain answered =>
      if answered && s.bind.isSome then some (s.goto i (.removing none))
      else some (s.goto i (.renaming text e))
  | .renaming _ _, .rename (.ok ()) =>
      some { s.leave i (.ok ()) with
        bind := s.tmps tmp, tmps := Function.update s.tmps tmp none }
  | .renaming _ e, .rename (.error e2) =>
      some (s.goto i (.removing (some (.error (paths.path ++ ": hard_link failed (" ++ e ++
        "); rename failed (" ++ e2 ++ ")")))))
  | .removing result, .remove removed =>
      let s := if removed then { s with tmps := Function.update s.tmps tmp none } else s
      match result with
      | some r => some (s.leave i r)
      | none => some (s.goto i .verifying)
  | .verifying, .read r =>
      match expected users i with
      | .error e => some (s.leave i (.error e))
      | .ok hex =>
          some (s.leave i (readBindingAndVerify toml.parse paths.path (s.readBind r) hex))
  | .returned _, _ => none
  | .crashed, _ => none
  | p, .crash =>
      some { s with
        lock := if p.holds then none else s.lock
        point := Function.update s.point i .crashed }
  | _, _ => none

/-- An interleaving of calls. -/
def run (s : BindDir) : List (Nat × BindCall) → Option BindDir
  | [] => some s
  | (i, c) :: calls => do
      let s' ← s.step toml paths users i c
      s'.run calls

end Step

/-- The directory before any of the processes started. -/
def initial (bind : Option Bytes) (tmps : String → Option Bytes) : BindDir :=
  { lock := none, bind := bind, tmps := tmps, point := fun _ => .entry }

end BindDir

end Trilogicon
