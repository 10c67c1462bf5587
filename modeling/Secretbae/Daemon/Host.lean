import Secretbae.Daemon.Keyfile
import Secretbae.Lib.Credentials
import Secretbae.Lib.Safe

/-!
# The process and its privileges

The process that a start of the daemon runs in, the files it finds, and the
functions of `privdrop`.  Every call to the operating system is a section of its
own, so a start can be killed between any two of them; what the calls answer is
an argument, but for those that ask for other credentials, which a kernel
answers.  The process is set not to be dumped by `harden_process`; a change of
its effective ids sets that back to what the kernel is configured for, and the
source does not set it again.

`dropPrivileges` succeeds exactly where its three calls do and the account is
not root (`dropPrivileges_isOk_iff`), and then the drop is final
(`safe_dropPrivileges`).
-/

namespace Secretbae
namespace Daemon

open Lib Core Audit Storage Policies

/-- `privdrop::Account`. -/
structure Account where
  uid : UInt32
  gid : UInt32
deriving DecidableEq

/-- Why a start fails, besides what an initialisation can fail for. -/
inductive LaunchError where
  | startup (error : StartupError)
  | memlockTooLow (limit required : Nat)
  | notInitialised
  | privilegeDropIncomplete

structure Process where
  credentials : Credentials
  dumpable : Dumpable
  locked : Bool
  /-- The key of the seal, once it has been read. -/
  backend : Option KeyfileSeal
  /-- The master key, once it has been unsealed. -/
  master : Option MasterKey

structure FileMeta where
  mode : UInt32
  uid : UInt32
  gid : UInt32
deriving DecidableEq

/-- The files that there are, by their paths. -/
abbrev Files := List Char → Option FileMeta

/-- The process, the files it handles, and what is stored. -/
structure Host where
  process : Process
  files : Files
  deployment : Deployment

/-- The sections of a start. -/
inductive LaunchSection where
  | currentUid
  | setDumpable
  | lockMemory
  | readKeyfile
  | createDir (path : List Char)
  | setPermissions (path : List Char)
  | chown (path : List Char)
  | exists (path : List Char)
  | removeFile (path : List Char)
  | bind (path : List Char)
  | setNonblocking (path : List Char)
  | openDatabase
  | seedPolicies
  | readMasterKey
  | credentials (call : CredentialCall)
  | readIds
  | recordUnseal

abbrev LaunchCode := Script LaunchSection Host LaunchError

/-- What the operating system, the database and the clock answer to a start. -/
structure LaunchEnv where
  /-- Which calls fail, and why. -/
  fails : LaunchSection → Option String
  errno : CredentialCall → String
  umask : UInt32
  /-- The soft limit, unless there is none. -/
  memlockLimit : Option Nat
  account : Except StartupError Account
  load : LoadEnv
  openDatabase : Except StoreError Unit
  /-- The files that the database creates where they are missing. -/
  databaseFile : List Char → Option FileMeta
  seed : Except StoreError Unit
  seeded : UnixTime
  recorded : Int64
  writable : Bool

/-- A call that either fails or has its effect. -/
def systemCall (env : LaunchEnv) (label : LaunchSection) (error : String → StartupError)
    (effect : Host → Host) : LaunchCode Unit :=
  Script.atomically label fun h =>
    match env.fails label with
    | some reason => (.error (.startup (error reason)), h)
    | none => (.ok (), effect h)

def Host.withProcess (h : Host) (f : Process → Process) : Host :=
  { h with process := f h.process }

/-- The process with other credentials, which decide anew whether it may be dumped. -/
def Host.withCredentials (K : Kernel) (h : Host) (c : Credentials) : Host :=
  h.withProcess fun p =>
    { p with
      credentials := c
      dumpable := K.dumpable p.credentials c p.dumpable }

section Privdrop

variable (K : Kernel) (env : LaunchEnv)

/-- `current_uid`. -/
def currentUid : LaunchCode UInt32 :=
  Script.atomically .currentUid fun h => (.ok h.process.credentials.ruid, h)

/-- `harden_process`. -/
def hardenProcess : LaunchCode Unit := do
  systemCall env .setDumpable (.harden "PR_SET_DUMPABLE") fun h =>
    h.withProcess fun p => { p with dumpable := .never }
  systemCall env .lockMemory (.harden "mlockall") fun h =>
    h.withProcess fun p => { p with locked := true }

/-- One of the calls of `drop_privileges`. -/
def credentialCall (name : String) (call : CredentialCall) : LaunchCode Unit :=
  Script.atomically (.credentials call) fun h =>
    match K call h.process.credentials with
    | (true, c) => (.ok (), h.withCredentials K c)
    | (false, c) => (.error (.startup (.harden name (env.errno call))), h.withCredentials K c)

/-- The real and effective ids are those of the account. -/
def Account.Matches (account : Account) (c : Credentials) : Prop :=
  c.ruid = account.uid ∧ c.euid = account.uid ∧ c.rgid = account.gid ∧ c.egid = account.gid

instance (account : Account) (c : Credentials) : Decidable (account.Matches c) :=
  inferInstanceAs (Decidable (_ ∧ _))

/-- `verify_dropped`. -/
def verifyDropped (account : Account) : LaunchCode Unit := do
  let becameTheAccount ← Script.atomically .readIds fun h =>
    (.ok (decide (account.Matches h.process.credentials)), h)
  if !becameTheAccount then Script.fail .privilegeDropIncomplete
  else do
    let restored ← Script.atomically (.credentials (.setuid 0)) fun h =>
      (.ok (K (.setuid 0) h.process.credentials).1,
        h.withCredentials K (K (.setuid 0) h.process.credentials).2)
    if restored then Script.fail .privilegeDropIncomplete else pure ()

/-- `drop_privileges`. -/
def dropPrivileges (account : Account) : LaunchCode Unit := do
  let uid ← currentUid
  if uid ≠ 0 then Script.fail (.startup .notRoot)
  else do
    credentialCall K env "setgroups" (.setgroups [])
    credentialCall K env "setresgid" (.allGids account.gid)
    credentialCall K env "setresuid" (.allUids account.uid)
    verifyDropped K account

end Privdrop

section Lemmas

variable {K : Kernel} {env : LaunchEnv} {h : Host} {crash : Host → Prop}

/-- A call that fails leaves everything as it is. -/
theorem safe_systemCall
    {label : LaunchSection} {error : String → StartupError} {effect : Host → Host}
    (hh : crash h)
    (heffect : crash (effect h)) :
    (systemCall env label error effect).Safe crash (fun _ h' => h' = effect h) h := by
  unfold systemCall
  cases hfails : env.fails label with
  | some reason =>
      refine .atomically hh hh fun a ha => ?_
      cases ha
  | none => exact .atomically hh heffect fun _ _ => rfl

/-- A section that only looks. -/
theorem safe_looking
    {A : Type} {label : LaunchSection} (f : Host → A)
    (hh : crash h) :
    (Script.atomically label fun h => (.ok (f h), h) : LaunchCode A).Safe crash
      (fun a h' => a = f h ∧ h' = h) h :=
  .atomically hh hh fun _ ha => ⟨(Except.ok.inj ha).symm, rfl⟩

theorem safe_credentialCall
    {name : String} {call : CredentialCall}
    (hh : crash h)
    (hcall : crash (h.withCredentials K (K call h.process.credentials).2)) :
    (credentialCall K env name call).Safe crash
      (fun _ h' => K call h.process.credentials = (true, h'.process.credentials) ∧
        h' = h.withCredentials K h'.process.credentials) h := by
  unfold credentialCall
  have hresult : K call h.process.credentials =
      ((K call h.process.credentials).1, (K call h.process.credentials).2) := rfl
  cases hok : (K call h.process.credentials).1 with
  | true =>
      rw [hok] at hresult
      refine .atomically hh ?_ ?_
      · rw [hresult]
        exact hcall
      · intro a ha
        rw [hresult]
        exact ⟨rfl, rfl⟩
  | false =>
      rw [hok] at hresult
      refine .atomically hh ?_ ?_
      · rw [hresult]
        exact hcall
      · intro a ha
        rw [hresult] at ha
        cases ha

/-- Two changes of the credentials are one, unless effective ids come back that had been left. -/
theorem Host.withCredentials_withCredentials
    {c c' : Credentials}
    (hK : K.Documented)
    (hleft : h.process.credentials.SameEffective c' → h.process.credentials.SameEffective c) :
    (h.withCredentials K c).withCredentials K c' = h.withCredentials K c' := by
  have hdumpable := hK.dumpable_dumpable hleft h.process.dumpable
  simp only [withCredentials, withProcess, hdumpable]

/-- What is tried at the end changes no effective id. -/
theorem sameEffective_setuid_zero
    {account : Account} {c : Credentials}
    (hK : K.Documented)
    (hids : c.uids = [account.uid, account.uid, account.uid])
    (hdropped : account.uid ≠ 0 → Dropped account.uid account.gid c) :
    c.SameEffective (K (.setuid 0) c).2 := by
  refine ⟨?_, hK.egid_kept (.setuid 0) nofun c⟩
  simp only [Credentials.uids, List.cons.injEq, and_true] at hids
  by_cases hroot : account.uid = 0
  · have hgiven := hK.setuid_permitted c 0 (.inr (.inl (hids.1.trans hroot).symm))
    rw [hK.setuid_id c 0 hgiven, hids.2.1, hroot]
  · have hkept := ((hdropped hroot).call hK (.setuid 0)).uids
    simp only [Credentials.uids, List.cons.injEq, and_true] at hkept
    rw [hkept.2.1, hids.2.1]

theorem safe_verifyDropped
    {account : Account}
    (hK : K.Documented)
    (hh : crash h)
    (hcrash : crash (h.withCredentials K (K (.setuid 0) h.process.credentials).2))
    (hids : h.process.credentials.uids = [account.uid, account.uid, account.uid])
    (hdropped : account.uid ≠ 0 → Dropped account.uid account.gid h.process.credentials) :
    (verifyDropped K account).Safe crash
      (fun _ h' => Dropped account.uid account.gid h'.process.credentials ∧
        h' = h.withCredentials K (K (.setuid 0) h.process.credentials).2) h := by
  unfold verifyDropped
  refine (safe_looking _ hh).bind ?_
  rintro _ h₁ - ⟨rfl, rfl⟩
  split
  · exact hh
  have hrestore : (Script.atomically (.credentials (.setuid 0)) fun h =>
      (.ok (K (.setuid 0) h.process.credentials).1,
        h.withCredentials K (K (.setuid 0) h.process.credentials).2) : LaunchCode Bool).Safe crash
      (fun restored h' => restored = (K (.setuid 0) h₁.process.credentials).1 ∧
        h' = h₁.withCredentials K (K (.setuid 0) h₁.process.credentials).2) h₁ :=
    .atomically hh hcrash fun _ ha => ⟨(Except.ok.inj ha).symm, rfl⟩
  refine hrestore.bind ?_
  rintro restored h₂ hh₂ ⟨rfl, rfl⟩
  split
  · exact hh₂
  rename_i hrefused
  -- an account with uid 0 would have been given it
  have hroot : account.uid ≠ 0 := by
    intro hzero
    refine hrefused (hK.setuid_permitted _ _ (.inr (.inl ?_)))
    rw [← hzero]
    exact (List.cons.inj hids).1.symm
  exact ⟨hh₂, (hdropped hroot).call hK _, rfl⟩

/-- A drop that succeeds is final; the effective ids that it leaves are not taken back. -/
theorem safe_dropPrivileges
    {account : Account}
    (hK : K.Documented)
    (hh : crash h)
    (hcrash : ∀ c, crash (h.withCredentials K c)) :
    (dropPrivileges K env account).Safe crash
      (fun _ h' => Dropped account.uid account.gid h'.process.credentials ∧
        h' = h.withCredentials K h'.process.credentials) h := by
  unfold dropPrivileges
  refine (safe_looking _ hh).bind ?_
  rintro uid h₀ - ⟨rfl, rfl⟩
  split
  · exact hh
  rename_i hroot
  refine (safe_credentialCall hh (hcrash _)).bind ?_
  rintro _ h₁ hh₁ ⟨hgroups, heq₁⟩
  have hsame₁ : h₀.process.credentials.SameEffective h₁.process.credentials := by
    have heuid := hK.euid_kept (.setgroups []) nofun h₀.process.credentials
    have hegid := hK.egid_kept (.setgroups []) nofun h₀.process.credentials
    rw [hgroups] at heuid hegid
    exact ⟨heuid, hegid⟩
  have hfrom₁ : ∀ c, h₁.withCredentials K c = h₀.withCredentials K c := by
    intro c
    rw [heq₁]
    exact Host.withCredentials_withCredentials hK fun _ => hsame₁
  refine (safe_credentialCall hh₁ (hfrom₁ _ ▸ hcrash _)).bind ?_
  rintro _ h₂ hh₂ ⟨hgids, heq₂⟩
  have heuid₂ : h₂.process.credentials.euid = h₁.process.credentials.euid := by
    have heuid := hK.euid_kept (.allGids account.gid) nofun h₁.process.credentials
    rw [hgids] at heuid
    exact heuid
  have hfrom₂ : ∀ c : Credentials, c.egid = h₂.process.credentials.egid →
      h₂.withCredentials K c = h₀.withCredentials K c := by
    intro c hegid
    rw [heq₂, hfrom₁]
    refine Host.withCredentials_withCredentials hK fun hsame => ⟨?_, hegid.symm.trans hsame.2⟩
    exact heuid₂.trans hsame₁.1
  have hegid₃ := hK.egid_kept (.allUids account.uid) nofun h₂.process.credentials
  refine (safe_credentialCall hh₂ (hfrom₂ _ hegid₃ ▸ hcrash _)).bind ?_
  rintro _ h₃ hh₃ ⟨huids, heq₃⟩
  rw [huids] at hegid₃
  have hzero : 0 ∈ h₀.process.credentials.uids := by
    rw [not_not] at hroot
    simp [Credentials.uids, hroot]
  have hids := hK.setresuid_ids _ account.uid account.uid account.uid (congrArg Prod.fst huids)
  rw [show K (.setresuid (some account.uid) (some account.uid) (some account.uid)) _ = _
    from huids] at hids
  have hdropped : account.uid ≠ 0 → Dropped account.uid account.gid h₃.process.credentials :=
    fun huid => .of_calls hK hzero huid hgroups hgids huids
  have hsame₄ := sameEffective_setuid_zero hK hids hdropped
  have hfrom₃ : h₃.withCredentials K (K (.setuid 0) h₃.process.credentials).2 =
      h₀.withCredentials K (K (.setuid 0) h₃.process.credentials).2 := by
    rw [heq₃, hfrom₂ _ hegid₃]
    exact Host.withCredentials_withCredentials hK fun hsame =>
      ⟨hsame₄.1.symm.trans hsame.1, hsame₄.2.symm.trans hsame.2⟩
  refine (safe_verifyDropped hK hh₃ (hfrom₃ ▸ hcrash _) hids hdropped).mono ?_
  rintro _ h' ⟨hdropped, heq⟩
  refine ⟨hdropped, ?_⟩
  rw [heq, hfrom₃]
  rfl

/-- A call that succeeds. -/
theorem credentialCall_eq_ok
    {name : String} {call : CredentialCall} {h' : Host} :
    (credentialCall K env name call).alone h = (.ok (), h') ↔
      ∃ c, K call h.process.credentials = (true, c) ∧ h' = h.withCredentials K c := by
  rw [credentialCall, Script.alone_atomically]
  rcases K call h.process.credentials with ⟨ok, c⟩
  cases ok with
  | true =>
      constructor
      · intro heq
        cases heq
        exact ⟨c, rfl, rfl⟩
      · rintro ⟨_, heq, rfl⟩
        cases heq
        rfl
  | false =>
      constructor
      · intro heq
        cases heq
      · rintro ⟨_, heq, -⟩
        cases heq

theorem verifyDropped_alone
    {account : Account}
    (hmatches : account.Matches h.process.credentials)
    (hrefused : (K (.setuid 0) h.process.credentials).1 = false) :
    (verifyDropped K account).alone h =
      (.ok (), h.withCredentials K (K (.setuid 0) h.process.credentials).2) := by
  unfold verifyDropped
  rw [Script.alone_bind, Script.alone_atomically, Script.andThen_ok, decide_eq_true hmatches]
  simp only [Bool.not_true, Bool.false_eq_true, if_false]
  rw [Script.alone_bind, Script.alone_atomically, Script.andThen_ok, hrefused]
  rfl

/-- The drop can only be one to an account that is not root. -/
theorem dropPrivileges_isOk_iff
    {account : Account}
    (hK : K.Documented) :
    (∃ h', (dropPrivileges K env account).alone h = (.ok (), h')) ↔
      h.process.credentials.ruid = 0 ∧ account.uid ≠ 0 ∧
        ∃ c₁ c₂ c₃, K (.setgroups []) h.process.credentials = (true, c₁) ∧
          K (.allGids account.gid) c₁ = (true, c₂) ∧ K (.allUids account.uid) c₂ = (true, c₃) := by
  have hlook : ∀ h : Host, (currentUid : LaunchCode UInt32).alone h =
      (.ok h.process.credentials.ruid, h) := fun _ => rfl
  constructor
  · rintro ⟨h', hrun⟩
    have hsafe : (dropPrivileges K env account).Safe (fun _ => True)
        (fun _ h' => Dropped account.uid account.gid h'.process.credentials ∧ _) h :=
      safe_dropPrivileges hK trivial fun _ => trivial
    have hdropped := hsafe.alone hrun
    unfold dropPrivileges at hrun
    obtain ⟨uid, h₀, hread, hrun⟩ := Script.alone_bind_eq_ok hrun
    cases hread
    split at hrun
    · cases hrun
    rename_i hroot
    obtain ⟨⟨⟩, _, hgroups, hrun⟩ := Script.alone_bind_eq_ok hrun
    obtain ⟨c₁, h₁, rfl⟩ := credentialCall_eq_ok.mp hgroups
    obtain ⟨⟨⟩, _, hgids, hrun⟩ := Script.alone_bind_eq_ok hrun
    obtain ⟨c₂, h₂, rfl⟩ := credentialCall_eq_ok.mp hgids
    obtain ⟨⟨⟩, _, huids, -⟩ := Script.alone_bind_eq_ok hrun
    obtain ⟨c₃, h₃, rfl⟩ := credentialCall_eq_ok.mp huids
    exact ⟨not_not.mp hroot, hdropped.1.not_root, c₁, c₂, c₃, h₁, h₂, h₃⟩
  · rintro ⟨hroot, huid, c₁, c₂, c₃, h₁, h₂, h₃⟩
    have hzero : 0 ∈ h.process.credentials.uids := by
      simp [Credentials.uids, hroot]
    have hdropped := Dropped.of_calls hK hzero huid h₁ h₂ h₃
    have hmatches : account.Matches c₃ := by
      have huids := hdropped.uids
      have hgids := hdropped.gids
      simp only [Credentials.uids, Credentials.gids, List.cons.injEq] at huids hgids
      exact ⟨huids.1, huids.2.1, hgids.1, hgids.2.1⟩
    -- no id is 0, so 0 is not given back
    have hrefused : (K (.setuid 0) c₃).1 = false := by
      refine Bool.eq_false_iff.mpr fun hgiven => huid ?_
      have heuid := (hdropped.call hK (.setuid 0)).uids
      simp only [Credentials.uids, List.cons.injEq] at heuid
      exact heuid.2.1.symm.trans (hK.setuid_id c₃ 0 hgiven)
    refine ⟨(((h.withCredentials K c₁).withCredentials K c₂).withCredentials K c₃).withCredentials K
      (K (.setuid 0) c₃).2, ?_⟩
    unfold dropPrivileges
    rw [Script.alone_bind, hlook]
    simp only [Script.andThen_ok, hroot, ne_eq, not_true_eq_false, if_false]
    rw [Script.alone_bind, credentialCall_eq_ok.mpr ⟨c₁, h₁, rfl⟩, Script.andThen_ok,
      Script.alone_bind, credentialCall_eq_ok.mpr ⟨c₂, h₂, rfl⟩, Script.andThen_ok,
      Script.alone_bind, credentialCall_eq_ok.mpr ⟨c₃, h₃, rfl⟩, Script.andThen_ok,
      verifyDropped_alone hmatches hrefused]
    rfl

end Lemmas

end Daemon
end Secretbae
