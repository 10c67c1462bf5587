import Secretbae.Lib.Except
import Secretbae.Lib.Text

/-!
# Where the client finds its token

`resolve_token` looks at the argument, the profile, two variables and a file in
the home directory, in this order, and reads files that nobody else can reach.
Whatever the source, the token comes out trimmed and is not empty
(`resolveToken_resolved`).
-/

namespace Secretbae
namespace Cli

open Lib

/-- What the file system answers about a path. -/
structure TokenFiles where
  mode : String → Except String UInt32
  read : String → Except String String
  isFile : String → Bool

/-- `format!("{n:04o}")`. -/
def octal4 (n : Nat) : String :=
  String.ofList (List.leftpad 4 '0' (Nat.toDigits 8 n))

/-- `validate_file_mode`. -/
def validateFileMode (mode : UInt32) : Except String Unit :=
  let permissions := mode &&& 0o777
  if permissions &&& 0o007 ≠ 0 ∨ permissions &&& 0o020 ≠ 0 then
    .error
      ("permissions " ++ octal4 permissions.toNat ++
        " are insecure; a token file must not be readable or              " ++
        "writable by other, nor writable by its group (expected 0400, 0600 or 0440)")
  else .ok ()

/-- `check_token_file_permissions`. -/
def checkTokenFilePermissions (files : TokenFiles) (path : String) : Except String Unit := do
  let mode ← (files.mode path).mapError
    fun e => "failed to inspect token file '" ++ path ++ "': " ++ e
  (validateFileMode mode).mapError fun cause => "token file '" ++ path ++ "': " ++ cause

/-- `str::trim`, of a string. -/
def trimmed (s : String) : String :=
  String.ofList (trim s.toList)

/-- `read_token_file`. -/
def readTokenFile (files : TokenFiles) (path : String) : Except String String := do
  checkTokenFilePermissions files path
  let raw ← (files.read path).mapError
    fun e => "failed to read token file '" ++ path ++ "': " ++ e
  if trimmed raw = "" then .error ("token file '" ++ path ++ "' is empty")
  else .ok (trimmed raw)

/-- A variable that is set to more than white space. -/
def setTo (source : Option String) : Option String :=
  (source.map trimmed).filter fun text => decide (text ≠ "")

/-- `resolve_token_with_sources`. -/
def resolveTokenWithSources (cliTokenFile profileTokenFile envTokenFile envToken : Option String)
    (homeTokenFile : Option (String × Bool)) (readFile : String → Except String String) :
    Except String String :=
  match cliTokenFile, profileTokenFile, setTo envTokenFile, setTo envToken, homeTokenFile with
  | some path, _, _, _, _ => readFile path
  | none, some path, _, _, _ => readFile path
  | none, none, some path, _, _ => readFile path
  | none, none, none, some token, _ => .ok token
  | none, none, none, none, some (path, true) => readFile path
  | none, none, none, none, _ =>
      .error ("no authentication token found; specify --token-file, set SECRETBAE_TOKEN_FILE or " ++
        "SECRETBAE_TOKEN, or place token in ~/.config/secretbae/token")

/-- `Path::join`, with a relative path. -/
def joinPath (base name : String) : String :=
  if base = "" ∨ base.toList.getLast? = some '/' then base ++ name else base ++ "/" ++ name

/-- `resolve_token`. -/
def resolveToken (env : String → Option String) (files : TokenFiles)
    (cliTokenFile profileTokenFile : Option String) : Except String String :=
  let home := (env "HOME").map fun home =>
    joinPath (joinPath (joinPath home ".config") "secretbae") "token"
  resolveTokenWithSources cliTokenFile profileTokenFile (env "SECRETBAE_TOKEN_FILE")
    (env "SECRETBAE_TOKEN") (home.map fun path => (path, files.isFile path))
    (readTokenFile files)

/-- A token as token resolution returns it. -/
structure Resolved (token : String) : Prop where
  nonempty : token ≠ ""
  trimmed : trim token.toList = token.toList

theorem resolved_trimmed
    {raw : String}
    (h : trimmed raw ≠ "") :
    Resolved (trimmed raw) where
  nonempty := h
  trimmed := by
    rw [trimmed, String.toList_ofList, trim_trim]

theorem readTokenFile_resolved
    {files : TokenFiles} {path token : String}
    (h : readTokenFile files path = .ok token) :
    Resolved token := by
  obtain ⟨_, _, h⟩ := bind_eq_ok.mp h
  obtain ⟨raw, _, h⟩ := bind_eq_ok.mp h
  split at h
  · cases h
  · cases h
    exact resolved_trimmed ‹_›

theorem setTo_resolved
    {source : Option String} {token : String}
    (h : setTo source = some token) :
    Resolved token := by
  obtain ⟨htoken, hne⟩ := Option.filter_eq_some_iff.mp h
  obtain ⟨raw, -, rfl⟩ := Option.map_eq_some_iff.mp htoken
  exact resolved_trimmed (of_decide_eq_true hne)

/-- Whatever source a token comes from, it is not empty and has no white space at its ends. -/
theorem resolveTokenWithSources_resolved
    {cliTokenFile profileTokenFile envTokenFile envToken : Option String}
    {homeTokenFile : Option (String × Bool)} {readFile : String → Except String String}
    {token : String}
    (hread : ∀ path content, readFile path = .ok content → Resolved content)
    (h : resolveTokenWithSources cliTokenFile profileTokenFile envTokenFile envToken homeTokenFile
      readFile = .ok token) :
    Resolved token := by
  unfold resolveTokenWithSources at h
  split at h
  · exact hread _ _ h
  · exact hread _ _ h
  · exact hread _ _ h
  · -- the variable holds the token itself
    cases h
    exact setTo_resolved ‹_›
  · exact hread _ _ h
  · cases h

theorem resolveToken_resolved
    {env : String → Option String} {files : TokenFiles}
    {cliTokenFile profileTokenFile : Option String} {token : String}
    (h : resolveToken env files cliTokenFile profileTokenFile = .ok token) :
    Resolved token :=
  resolveTokenWithSources_resolved (fun _ _ => readTokenFile_resolved) h

end Cli
end Secretbae
