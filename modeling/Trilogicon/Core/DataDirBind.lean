import Trilogicon.Core.Genesis

/-!
# The Binding of a Data Directory

`data_dir_bind.rs`: a data directory remembers the commitment of the genesis
document it was first used with, and later starts compare.

The file is TOML with one field. Its parser is a parameter, and a file is what
`read_to_string` returns for it, `none` if there is none. Writing the file is
left out.

## Main definitions

* `readBindingAndVerify`: Compare the bound commitment with the expected one.
* `verifyBindingIfPresent`: The check at the start of a run.

## Theorems

* `readBindingAndVerify_ok_iff`: The file parses and names the commitment.
* `verifyBindingIfPresent_ok_iff`: What a directory with a binding accepts.
-/

namespace Trilogicon

/-- `toml::from_str` for `BindFile`: the field `state_commitment_hex`, or the
    text of the error. -/
abbrev BindParser := String → Except String String

/-- `data_dir_bind::read_binding_and_verify`, on what reading the file gave. -/
def readBindingAndVerify (parse : BindParser) (path : String) (raw : Except String String)
    (expected : String) : Except String Unit := do
  let raw ← raw.mapError fun e => "[startup] " ++ path ++ ": " ++ e
  let bound ← (parse raw).mapError fun e =>
    "[startup] fail-closed: " ++ path ++ " invalid genesis bind TOML (" ++ e ++
      "); fix or remove file if you intend a new genesis"
  if bound ≠ expected then
    .error ("[startup] fail-closed: " ++ path ++
      " genesis state commitment mismatch — directory was bound to `" ++ bound ++
      "`, loaded genesis.toml commits to `" ++ expected ++
      "`. Refuse startup: use matching genesis, a fresh data directory, or (only with care) " ++
      "reset chain per docs/design_notes/v2_persistence_restart.md.")
  else .ok ()

theorem readBindingAndVerify_ok_iff {parse : BindParser} {path expected : String}
    {raw : Except String String} :
    readBindingAndVerify parse path raw expected = .ok () ↔
      ∃ text, raw = .ok text ∧ parse text = .ok expected := by
  simp only [readBindingAndVerify, bind_ok_iff, mapError_ok_iff, ite_error_ok_iff, not_not,
    and_true]
  constructor
  · rintro ⟨text, hraw, bound, hparse, rfl⟩
    exact ⟨text, hraw, hparse⟩
  · rintro ⟨text, hraw, hparse⟩
    exact ⟨text, hraw, expected, hparse, rfl⟩

section Binding

variable [Primitives]

/-- `data_dir_bind::verify_binding_if_present`. -/
def verifyBindingIfPresent (parse : BindParser) (path : String)
    (file : Option (Except String String)) (g : Genesis) : Except String Unit :=
  match file with
  | none => .ok ()
  | some raw => do
      let expected ← g.stateCommitmentHex.mapError ProtocolError.display
      readBindingAndVerify parse path raw expected

theorem verifyBindingIfPresent_ok_iff {parse : BindParser} {path : String}
    {raw : Except String String} {g : Genesis} :
    verifyBindingIfPresent parse path (some raw) g = .ok () ↔
      ∃ text hex, raw = .ok text ∧ parse text = .ok hex ∧ g.stateCommitmentHex = .ok hex := by
  simp only [verifyBindingIfPresent, bind_ok_iff, mapError_ok_iff, readBindingAndVerify_ok_iff]
  constructor
  · rintro ⟨hex, hg, text, hraw, hparse⟩
    exact ⟨text, hex, hraw, hparse, hg⟩
  · rintro ⟨text, hex, hraw, hparse, hg⟩
    exact ⟨hex, hg, text, hraw, hparse⟩

end Binding

end Trilogicon
