import Secretbae.Store.Secrets
import Secretbae.Proto.Text

/-!
# Profiles of `secretbae exec`

A profile binds secrets to environment variables: one by one, or all secrets
under a prefix under names derived from their paths.
-/

namespace Secretbae
namespace Cli

open Lib Proto Storage

/-- `EnvEntry`: one variable, from one secret. -/
structure EnvEntry where
  name : String
  path : SecretPath
  version : Option Version
deriving DecidableEq

/-- `EnvFromEntry`: a variable for every secret under a prefix. -/
structure EnvFromEntry where
  pathPrefix : String
  transform : String
deriving DecidableEq

/-- `Profile`, without the token file. -/
structure Profile where
  env : List EnvEntry
  envFrom : List EnvFromEntry
deriving DecidableEq

/-- `SecretPath::leaf`: what follows the last slash. -/
def leaf (path : SecretPath) : String :=
  String.ofList (path.asStr.toList.reverse.takeWhile (fun c => c ≠ '/')).reverse

def screamingSnakeChar (c : Char) : Char :=
  if c = '-' ∨ c = '.' then '_' else c.toUpper

/-- `screaming_snake`. -/
def screamingSnake (leaf : String) : String :=
  String.ofList (leaf.toList.map screamingSnakeChar)

example : screamingSnake "stripe-key" = "STRIPE_KEY" := by
  decide +kernel

/-- Why a profile is not resolved. -/
inductive ExecError where
  | unsupportedTransform (transform : String)
  /-- An answer of the daemon that is not a success, with its text. -/
  | daemon (message : String)
  | duplicateName (name : String) (existing path : SecretPath)
  | notReturned (path : SecretPath)
  | otherVersion (path : SecretPath) (version expected : Version)
  | notBase64 (path : SecretPath)
  | notUtf8 (path : SecretPath)
deriving DecidableEq

/-- The texts of the errors; that of a base64 error goes on with the decoder's own. -/
def ExecError.message : ExecError → String
  | .unsupportedTransform transform =>
      "unsupported transform '" ++ transform ++ "' (expected 'screaming_snake')"
  | .daemon message => message
  | .duplicateName name existing path =>
      "duplicate environment variable name '" ++ name ++ "' in profile (conflicts between '" ++
        existing.asStr ++ "' and '" ++ path.asStr ++ "')"
  | .notReturned path => "daemon did not return secret for path '" ++ path.asStr ++ "'"
  | .otherVersion path version expected =>
      "secret '" ++ path.asStr ++ "' resolved to version " ++ toString version.toNat ++
        ", but profile pinned version " ++ toString expected.toNat
  | .notBase64 path => "failed to decode base64 payload for '" ++ path.asStr ++ "': "
  | .notUtf8 path =>
      "secret '" ++ path.asStr ++
        "' contains non-UTF-8 binary data; cannot inject as environment variable"

/-- The loop of `check_no_duplicate_env_names`, with the names seen so far. -/
def checkNames (seen : List (String × SecretPath)) :
    List (String × SecretPath) → Except ExecError Unit
  | [] => .ok ()
  | (name, path) :: entries =>
      match seen.find? (fun e => decide (e.1 = name)) with
      | some existing => .error (.duplicateName name existing.2 path)
      | none => checkNames ((name, path) :: seen) entries

/-- `check_no_duplicate_env_names`. -/
def checkNoDuplicateEnvNames (entries : List (String × SecretPath)) : Except ExecError Unit :=
  checkNames [] entries

theorem checkNames_eq_ok_iff
    {seen entries : List (String × SecretPath)} :
    checkNames seen entries = .ok () ↔
      (entries.map Prod.fst).Nodup ∧ ∀ e ∈ entries, e.1 ∉ seen.map Prod.fst := by
  induction entries generalizing seen with
  | nil =>
      simp [checkNames]
  | cons entry entries ih =>
      obtain ⟨name, path⟩ := entry
      rw [checkNames, List.map_cons, List.nodup_cons, List.forall_mem_cons]
      cases hfind : seen.find? (fun e => decide (e.1 = name)) with
      | some existing =>
          have hmem := List.mem_of_find?_eq_some hfind
          have hname : existing.1 = name := by simpa using List.find?_some hfind
          refine iff_of_false (by simp) ?_
          rintro ⟨-, hfresh, -⟩
          exact hfresh (List.mem_map.mpr ⟨existing, hmem, hname⟩)
      | none =>
          have hfresh : name ∉ seen.map Prod.fst := by
            intro hmem
            obtain ⟨e, he, heq⟩ := List.mem_map.mp hmem
            have hne := List.find?_eq_none.mp hfind e he
            simp [heq] at hne
          rw [ih]
          simp only [List.map_cons, List.mem_cons, not_or]
          constructor
          · rintro ⟨hnodup, hrest⟩
            refine ⟨⟨?_, hnodup⟩, hfresh, fun e he => (hrest e he).2⟩
            intro hmem
            obtain ⟨e, he, heq⟩ := List.mem_map.mp hmem
            exact (hrest e he).1 heq
          · rintro ⟨⟨hname, hnodup⟩, -, hrest⟩
            refine ⟨hnodup, fun e he => ⟨?_, hrest e he⟩⟩
            rintro rfl
            exact hname (List.mem_map.mpr ⟨e, he, rfl⟩)

/-- The check passes exactly when no name occurs twice. -/
theorem checkNoDuplicateEnvNames_eq_ok_iff
    {entries : List (String × SecretPath)} :
    checkNoDuplicateEnvNames entries = .ok () ↔ (entries.map Prod.fst).Nodup := by
  rw [checkNoDuplicateEnvNames, checkNames_eq_ok_iff]
  simp

end Cli
end Secretbae
