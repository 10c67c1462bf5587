import Secretbae.Daemon.Files
import Secretbae.Daemon.Startup

/-!
# Starting the daemon

`startup::run`, from the process that is started to the one that serves.  The
order of its steps is what its safety rests on, so it is proved wherever the
process may be killed: key material is in memory only where that is locked and
the process has been set not to be dumped, and nothing is recorded before root
has been given up (`launch_guards`).  Giving up root leaves the process as
`fs.suid_dumpable` has it.  A start that succeeds leaves a process that cannot
become root again whatever it calls (`launch_drops_root`).
-/

namespace Secretbae
namespace Daemon

open Lib Core Audit Storage Policies

/-- `Config`, as far as a start reads it after it has resolved the user. -/
structure LaunchConfig where
  keyfile : String
  store : FilePath
  socket : FilePath
  resolveSocket : FilePath
  socketMode : UInt32

/-- `MINIMUM_MEMLOCK`. -/
def minimumMemlock : Nat := 64 * 1024 * 1024

/-- `check_memlock_headroom`. -/
def checkMemlockHeadroom (env : LaunchEnv) : Except LaunchError Unit :=
  match env.memlockLimit with
  | some limit =>
      if limit < minimumMemlock then .error (.memlockTooLow limit minimumMemlock) else .ok ()
  | none => .ok ()

/-- `keyfile::load`. -/
def readKeyfile (env : LaunchEnv) (path : String) : LaunchCode KeyfileSeal :=
  Script.atomically .readKeyfile fun h =>
    match loadKeyfile env.load path h.deployment.keyfile with
    | .error e => (.error (.startup e), h)
    | .ok backend => (.ok backend, h.withProcess fun p => { p with backend := some backend })

def Host.withDeployment (h : Host) (f : Deployment → Deployment) : Host :=
  { h with deployment := f h.deployment }

section Code

variable (P : Primitives) (J : PolicyJson) (K : Kernel) (env : LaunchEnv)

/-- `seed_builtin_policies`. -/
def seedPolicies : LaunchCode Unit :=
  Script.atomically .seedPolicies fun h =>
    match env.seed, seedBuiltinPolicies J h.deployment.access env.seeded with
    | .ok (), .ok access => (.ok (), h.withDeployment fun d => { d with access := access })
    | .error e, _ => (.error (.startup (.store e)), h)
    | .ok (), .error e => (.error (.startup (.store e)), h)

/-- `sealed_master_key` and `unseal_master`. -/
def readMasterKey (backend : KeyfileSeal) : LaunchCode (MasterKey × UInt32) :=
  Script.atomically .readMasterKey fun h =>
    match h.deployment.store.sealedMasterKey with
    | none => (.error .notInitialised, h)
    | some bytes =>
        match SealedMasterKey.fromBytes bytes with
        | .error _ => (.error (.startup (.store (.corrupt "sealed master key"))), h)
        | .ok sealed =>
            match unsealMaster P backend sealed with
            | .error e => (.error (.startup (.crypto e)), h)
            | .ok master =>
                (.ok (master, sealed.generation),
                  h.withProcess fun p => { p with master := some master })

/-- `record_unseal`. -/
def recordUnseal (keys : KeyMaterial P) : LaunchCode Unit :=
  Script.atomically .recordUnseal fun h =>
    if env.writable then
      match Audit.append P h.deployment.log keys.auditKey
          (unsealEntry env.recorded h.process.credentials.ruid) with
      | .ok (log, _) => (.ok (), h.withDeployment fun d => { d with log := log })
      | .error e => (.error (.startup (.audit e)), h)
    else (.error (.startup (.audit (.sqlite .failure))), h)

/-- `startup::run`; what it returns is the state to serve from. -/
def launch (config : LaunchConfig) : LaunchCode (KeyMaterial P × KeyfileSeal) := do
  let uid ← currentUid
  if uid ≠ 0 then Script.fail (.startup .notRoot)
  else do
    hardenProcess env
    Script.ofExcept (checkMemlockHeadroom env)
    let account ← Script.ofExcept (env.account.mapError .startup)
    let backend ← readKeyfile env config.keyfile
    openStore env config.store account
    seedPolicies J env
    let unsealed ← readMasterKey P backend
    bindSocket env config.socket config.socketMode account
    bindSocket env config.resolveSocket config.socketMode account
    dropPrivileges K env account
    let keys := KeyMaterial.new P unsealed.1 unsealed.2
    recordUnseal P env keys
    pure (keys, backend)

end Code

/--
The memory of a process that was started with these credentials stays where it
is, and is not dumped; with other effective ids the kernel's configuration says
whether it is.
-/
structure Process.Hardened (K : Kernel) (env : LaunchEnv) (started : Credentials)
    (p : Process) : Prop where
  undumpable : started.SameEffective p.credentials → p.dumpable = .never
  redumped : ¬ started.SameEffective p.credentials → p.dumpable = K.suidDumpable
  locked : p.locked = true
  headroom : ∀ limit, env.memlockLimit = some limit → minimumMemlock ≤ limit

/-- No key is in memory. -/
structure Process.Blank (p : Process) : Prop where
  backend : p.backend = none
  master : p.master = none

/-- Nothing has been recorded yet, and keys are guarded. -/
structure Preparing (J : PolicyJson) (K : Kernel) (env : LaunchEnv) (h₀ h : Host) : Prop where
  guarded : h.process.Blank ∨ h.process.Hardened K env h₀.process.credentials
  keyfile : h.deployment.keyfile = h₀.deployment.keyfile
  store : h.deployment.store = h₀.deployment.store
  access :
    h.deployment.access = h₀.deployment.access ∨
      seedBuiltinPolicies J h₀.deployment.access env.seeded = .ok h.deployment.access
  log : h.deployment.log = h₀.deployment.log

/-- What has been started, on what was there before. -/
structure Launched (P : Primitives) (J : PolicyJson) (K : Kernel) (env : LaunchEnv)
    (config : LaunchConfig) (h₀ : Host) (keys : KeyMaterial P) (backend : KeyfileSeal)
    (h : Host) : Prop where
  hardened : h.process.Hardened K env h₀.process.credentials
  unlocked : loadKeyfile env.load config.keyfile h₀.deployment.keyfile = .ok backend
  unsealed : loadKeys P backend ⟨h₀.deployment.log, h₀.deployment.store⟩ = .ok keys
  keyfile : h.deployment.keyfile = h₀.deployment.keyfile
  store : h.deployment.store = h₀.deployment.store
  access : seedBuiltinPolicies J h₀.deployment.access env.seeded = .ok h.deployment.access
  recorded : ∃ account record, env.account = .ok account ∧
    Dropped account.uid account.gid h.process.credentials ∧
    Audit.append P h₀.deployment.log keys.auditKey (unsealEntry env.recorded account.uid) =
      .ok (h.deployment.log, record)

section Sections

variable {P : Primitives} {J : PolicyJson} {K : Kernel} {env : LaunchEnv} {h₀ h : Host}

theorem ignoresFiles_preparing :
    IgnoresFiles (Preparing J K env h₀) :=
  fun _ _ h => ⟨h.guarded, h.keyfile, h.store, h.access, h.log⟩

/-- A process that is hardened, and has not been given other credentials yet. -/
def Process.Sealed (K : Kernel) (env : LaunchEnv) (started : Credentials) (p : Process) : Prop :=
  p.Hardened K env started ∧ p.credentials = started

/-- Other credentials leave the rest of it hardened. -/
theorem Process.Sealed.withCredentials
    {started : Credentials}
    (hK : K.Documented)
    (h' : h.process.Sealed K env started) (c : Credentials) :
    (h.withCredentials K c).process.Hardened K env started := by
  obtain ⟨hhardened, rfl⟩ := h'
  have hnever : h.process.dumpable = .never := hhardened.undumpable ⟨rfl, rfl⟩
  refine ⟨?_, ?_, hhardened.locked, hhardened.headroom⟩
  · intro hsame
    exact (hK.dumpable_kept _ _ _ hsame).trans hnever
  · exact hK.dumpable_reset _ _ _

/-- A change of the process that leaves it guarded. -/
theorem Preparing.withProcess
    {f : Process → Process}
    (h' : Preparing J K env h₀ h)
    (hguarded : (f h.process).Blank ∨
      (f h.process).Hardened K env h₀.process.credentials) :
    Preparing J K env h₀ (h.withProcess f) :=
  ⟨hguarded, h'.keyfile, h'.store, h'.access, h'.log⟩

/-- Before any key is read. -/
theorem safe_hardenProcess
    (hh : Preparing J K env h₀ h) (hblank : h.process.Blank) :
    (hardenProcess env).Safe (Preparing J K env h₀)
      (fun _ h' => h'.process.Blank ∧ h'.process.dumpable = .never ∧
        h'.process.locked = true ∧ h'.process.credentials = h.process.credentials ∧
        h'.deployment = h.deployment) h := by
  unfold hardenProcess
  refine (safe_systemCall hh (hh.withProcess (.inl ⟨hblank.backend, hblank.master⟩))).bind ?_
  rintro _ h₁ hh₁ rfl
  refine (safe_systemCall hh₁
    (hh₁.withProcess (.inl ⟨hblank.backend, hblank.master⟩))).mono ?_
  rintro _ h₂ rfl
  exact ⟨⟨hblank.backend, hblank.master⟩, rfl, rfl, rfl, rfl⟩

theorem checkMemlockHeadroom_eq_ok
    (h : checkMemlockHeadroom env = .ok ()) :
    ∀ limit, env.memlockLimit = some limit → minimumMemlock ≤ limit := by
  intro limit hlimit
  unfold checkMemlockHeadroom at h
  rw [hlimit] at h
  dsimp only at h
  split at h
  · cases h
  · omega

theorem safe_readKeyfile
    {path : String}
    (hh : Preparing J K env h₀ h) (hsealed : h.process.Sealed K env h₀.process.credentials) :
    (readKeyfile env path).Safe (Preparing J K env h₀)
      (fun backend h' => loadKeyfile env.load path h.deployment.keyfile = .ok backend ∧
        h'.process.Sealed K env h₀.process.credentials ∧ h'.deployment = h.deployment) h := by
  unfold readKeyfile
  have hkept : ∀ backend, (h.withProcess fun p => { p with backend := backend }).process.Sealed
      K env h₀.process.credentials :=
    fun _ => ⟨⟨hsealed.1.undumpable, hsealed.1.redumped, hsealed.1.locked, hsealed.1.headroom⟩,
      hsealed.2⟩
  cases hload : loadKeyfile env.load path h.deployment.keyfile with
  | error e => exact .atomically hh (by simpa only [hload] using hh) (by simp [hload])
  | ok backend =>
      refine .atomically hh ?_ ?_
      · simp only [hload]
        exact hh.withProcess (.inr (hkept _).1)
      · intro a ha
        simp only [hload] at ha ⊢
        cases ha
        exact ⟨rfl, hkept _, rfl⟩

theorem safe_seedPolicies
    (hh : Preparing J K env h₀ h) (haccess : h.deployment.access = h₀.deployment.access) :
    (seedPolicies J env).Safe (Preparing J K env h₀)
      (fun _ h' => seedBuiltinPolicies J h₀.deployment.access env.seeded =
          .ok h'.deployment.access ∧ h'.process = h.process) h := by
  unfold seedPolicies
  cases hdatabase : env.seed with
  | error e => exact .atomically hh hh nofun
  | ok =>
      cases hseed : seedBuiltinPolicies J h.deployment.access env.seeded with
      | error e => exact .atomically hh (by simpa only [hseed] using hh) (by simp [hseed])
      | ok access =>
          rw [haccess] at hseed
          refine .atomically hh ?_ ?_
          · simp only [haccess, hseed]
            exact ⟨hh.guarded, hh.keyfile, hh.store, .inr hseed, hh.log⟩
          · intro a ha
            simp only [haccess, hseed]
            exact ⟨rfl, rfl⟩

/-- The master key is the one that the database was sealed under. -/
theorem safe_readMasterKey
    {backend : KeyfileSeal}
    (hh : Preparing J K env h₀ h) (hsealed : h.process.Sealed K env h₀.process.credentials) :
    (readMasterKey P backend).Safe (Preparing J K env h₀)
      (fun unsealed h' => loadKeys P backend ⟨h₀.deployment.log, h₀.deployment.store⟩ =
          .ok (KeyMaterial.new P unsealed.1 unsealed.2) ∧
        h'.process.Sealed K env h₀.process.credentials ∧ h'.deployment = h.deployment) h := by
  unfold readMasterKey loadKeys unsealBytes
  rw [← hh.store]
  have hkept : ∀ master, (h.withProcess fun p => { p with master := master }).process.Sealed
      K env h₀.process.credentials :=
    fun _ => ⟨⟨hsealed.1.undumpable, hsealed.1.redumped, hsealed.1.locked, hsealed.1.headroom⟩,
      hsealed.2⟩
  cases hstored : h.deployment.store.sealedMasterKey with
  | none => exact .atomically hh (by simpa only [hstored] using hh) (by simp [hstored])
  | some bytes =>
      cases hbytes : SealedMasterKey.fromBytes bytes with
      | error e =>
          exact .atomically hh (by simpa only [hstored, hbytes] using hh)
            (by simp [hstored, hbytes])
      | ok sealed =>
          cases hunseal : unsealMaster P backend sealed with
          | error e =>
              exact .atomically hh (by simpa only [hstored, hbytes, hunseal] using hh)
                (by simp [hstored, hbytes, hunseal])
          | ok master =>
              refine .atomically hh ?_ ?_
              · simp only [hstored, hbytes, hunseal]
                exact hh.withProcess (.inr (hkept _).1)
              · intro a ha
                simp only [hstored, hbytes, hunseal] at ha ⊢
                cases ha
                exact ⟨by simp only [bind, Except.bind, hunseal], hkept _, rfl⟩

/-- Keys are guarded, and what is recorded is recorded without root. -/
def Guarded (P : Primitives) (J : PolicyJson) (K : Kernel) (env : LaunchEnv)
    (config : LaunchConfig) (h₀ h : Host) : Prop :=
  Preparing J K env h₀ h ∨ ∃ keys backend, Launched P J K env config h₀ keys backend h

/-- All that is left to do once root has been given up. -/
theorem safe_recordUnseal
    {config : LaunchConfig} {keys : KeyMaterial P} {backend : KeyfileSeal} {account : Account}
    (hh : Preparing J K env h₀ h)
    (hhardened : h.process.Hardened K env h₀.process.credentials)
    (haccount : env.account = .ok account)
    (hdropped : Dropped account.uid account.gid h.process.credentials)
    (hunlocked : loadKeyfile env.load config.keyfile h₀.deployment.keyfile = .ok backend)
    (hunsealed : loadKeys P backend ⟨h₀.deployment.log, h₀.deployment.store⟩ = .ok keys)
    (hseeded : seedBuiltinPolicies J h₀.deployment.access env.seeded =
      .ok h.deployment.access) :
    (recordUnseal P env keys).Safe (Guarded P J K env config h₀)
      (fun _ h' => Launched P J K env config h₀ keys backend h') h := by
  unfold recordUnseal
  have hruid : h.process.credentials.ruid = account.uid := (List.cons.inj hdropped.uids).1
  have hstart : Guarded P J K env config h₀ h := .inl hh
  rw [← hruid] at hdropped
  cases hwritable : env.writable with
  | false => exact .atomically hstart hstart nofun
  | true =>
      cases happend : Audit.append P h.deployment.log keys.auditKey
          (unsealEntry env.recorded h.process.credentials.ruid) with
      | error e =>
          refine .atomically hstart ?_ ?_
          · simp only [if_true, happend]
            exact hstart
          · intro a ha
            simp only [if_true, happend] at ha
            cases ha
      | ok appended =>
          rcases appended with ⟨log, record⟩
          have hlaunched : Launched P J K env config h₀ keys backend
              (h.withDeployment fun d => { d with log := log }) :=
            { hardened := hhardened
              unlocked := hunlocked
              unsealed := hunsealed
              keyfile := hh.keyfile
              store := hh.store
              access := hseeded
              recorded := ⟨account, record, haccount, hruid ▸ hdropped, by
                rw [← hh.log, ← hruid]
                exact happend⟩ }
          refine .atomically hstart ?_ ?_
          · simp only [if_true, happend]
            exact .inr ⟨keys, backend, hlaunched⟩
          · intro a ha
            simp only [if_true, happend]
            exact hlaunched

/-- Wherever a start is stopped, and what it has done once it returns. -/
theorem safe_launch
    (P : Primitives) (J : PolicyJson) (config : LaunchConfig)
    (hK : K.Documented)
    (hblank : h₀.process.Blank) :
    (launch P J K env config).Safe (Guarded P J K env config h₀)
      (fun started h => Launched P J K env config h₀ started.1 started.2 h) h₀ := by
  have hstart : Preparing J K env h₀ h₀ := ⟨.inl hblank, rfl, rfl, .inl rfl, rfl⟩
  have hweaken : ∀ h, Preparing J K env h₀ h → Guarded P J K env config h₀ h := fun _ => .inl
  unfold launch
  refine ((safe_looking _ hstart).weaken hweaken).bind ?_
  rintro uid h - ⟨-, rfl, rfl⟩
  split
  · exact .inl hstart
  refine ((safe_hardenProcess hstart hblank).weaken hweaken).bind ?_
  rintro _ h₁ hh₁ ⟨hprep₁, hblank₁, hdumpable, hlocked, hcredentials, hdeployment₁⟩
  refine (Script.Safe.ofExcept _ hh₁).bind ?_
  rintro _ _ - ⟨hheadroom, rfl⟩
  rename_i h₁
  have hsealed₁ : h₁.process.Sealed K env h.process.credentials :=
    ⟨⟨fun _ => hdumpable, fun hother => absurd (hcredentials ▸ ⟨rfl, rfl⟩) hother, hlocked,
      checkMemlockHeadroom_eq_ok hheadroom⟩, hcredentials⟩
  refine (Script.Safe.ofExcept _ hh₁).bind ?_
  rintro account _ - ⟨haccount, rfl⟩
  rename_i h₁
  refine ((safe_readKeyfile hprep₁ hsealed₁).weaken hweaken).bind ?_
  rintro backend h₂ hh₂ ⟨hprep₂, hunlocked, hsealed₂, hdeployment₂⟩
  rw [hdeployment₁] at hunlocked hdeployment₂
  refine ((onlyFiles_openStore _ _ ignoresFiles_preparing hprep₂).weaken hweaken).bind ?_
  rintro _ _ - ⟨hprep₃, files, rfl⟩
  refine ((safe_seedPolicies hprep₃ (by rw [hdeployment₂])).weaken hweaken).bind ?_
  rintro _ h₄ - ⟨hprep₄, hseeded, hprocess₄⟩
  have hsealed₄ : h₄.process.Sealed K env _ := hprocess₄ ▸ hsealed₂
  refine ((safe_readMasterKey hprep₄ hsealed₄).weaken hweaken).bind ?_
  rintro unsealed h₅ - ⟨hprep₅, hunsealed, hsealed₅, hdeployment₅⟩
  rw [← hdeployment₅] at hseeded
  refine ((onlyFiles_bindSocket _ _ ignoresFiles_preparing hprep₅).weaken hweaken).bind ?_
  rintro _ _ - ⟨hprep₆, files₆, rfl⟩
  refine ((onlyFiles_bindSocket _ _ ignoresFiles_preparing hprep₆).weaken hweaken).bind ?_
  rintro _ _ - ⟨hprep₇, files₇, rfl⟩
  refine ((safe_dropPrivileges hK hprep₇ fun c => ?_).weaken hweaken).bind ?_
  · exact ⟨.inr (hsealed₅.withCredentials hK c), hprep₇.keyfile, hprep₇.store, hprep₇.access,
      hprep₇.log⟩
  rintro _ h₈ - ⟨hprep₈, hdropped, hh₈⟩
  have hhardened₈ : h₈.process.Hardened K env h.process.credentials := by
    rw [hh₈]
    exact hsealed₅.withCredentials hK _
  refine (safe_recordUnseal hprep₈ hhardened₈ (mapError_eq_ok.mp haccount) hdropped hunlocked
    hunsealed ?_).bind ?_
  · rw [hh₈]
    exact hseeded
  · rintro _ h₉ hh₉ hlaunched
    exact ⟨hh₉, hlaunched⟩

/--
Wherever a start is killed: key material is in memory only where that is locked,
its limit is high enough and the process cannot be dumped, unless the kernel is
configured to dump one that has given up its ids; what is stored is what was there
before, but for the built-in policy; and an entry is recorded only by a process
that has given root up for good.
-/
theorem launch_guards
    (P : Primitives) (J : PolicyJson) (K : Kernel) (env : LaunchEnv) (config : LaunchConfig)
    (h₀ : Host)
    (hK : K.Documented)
    (hblank : h₀.process.Blank)
    (k : Nat) :
    Guarded P J K env config h₀ ((launch P J K env config).stopped k h₀) :=
  (safe_launch P J config hK hblank).stopped k

/--
A start that returns has unsealed what the keyfile and the store say and has
recorded it; its process is the account's, and stays that whatever it calls.
-/
theorem launch_drops_root
    (P : Primitives) (J : PolicyJson) (K : Kernel) (env : LaunchEnv) (config : LaunchConfig)
    (h₀ h : Host) (keys : KeyMaterial P) (backend : KeyfileSeal)
    (hK : K.Documented)
    (hblank : h₀.process.Blank)
    (hrun : (launch P J K env config).alone h₀ = (.ok (keys, backend), h)) :
    Launched P J K env config h₀ keys backend h ∧
    ∃ account, env.account = .ok account ∧ account.uid ≠ 0 ∧
      ∀ calls, Dropped account.uid account.gid (run K.after h.process.credentials calls) := by
  have hlaunched := (safe_launch P J config hK hblank).alone hrun
  obtain ⟨account, -, haccount, hdropped, -⟩ := hlaunched.recorded
  exact ⟨hlaunched, account, haccount, hdropped.not_root, hdropped.calls hK⟩

end Sections

section Samples

def sampleConfig : LaunchConfig where
  keyfile := "k"
  store := ⟨"/d".toList, "store.db".toList, by decide, by decide⟩
  socket := ⟨"/r".toList, "a.sock".toList, by decide, by decide⟩
  resolveSocket := ⟨"/r".toList, "b.sock".toList, by decide, by decide⟩
  socketMode := 0o666

/-- A deployment that has been initialised, before its first start. -/
def sampleHost : Host :=
  ⟨rootProcess, fun _ => none, (sampleCall.alone emptyDeployment).2⟩

def sampleLaunch : LaunchCode (KeyMaterial samplePrimitives × KeyfileSeal) :=
  launch samplePrimitives ⟨fun _ => "", fun _ => .error ""⟩ .standard (.quiet ⟨990, 990⟩)
    sampleConfig

/-- A start stopped when the master key has been read. -/
theorem launch_guards_sample :
    Guarded samplePrimitives ⟨fun _ => "", fun _ => .error ""⟩ .standard (.quiet ⟨990, 990⟩) sampleConfig
      sampleHost (sampleLaunch.stopped 20 sampleHost) :=
  launch_guards _ _ .standard _ _ _ Kernel.documented_standard ⟨rfl, rfl⟩ 20

/-- A start of a new deployment. -/
theorem launch_drops_root_sample :
    ∃ keys backend h, sampleLaunch.alone sampleHost = (.ok (keys, backend), h) ∧
      Launched samplePrimitives ⟨fun _ => "", fun _ => .error ""⟩ .standard (.quiet ⟨990, 990⟩)
        sampleConfig sampleHost keys backend h ∧
      Dropped 990 990 (run Kernel.standard.after h.process.credentials [.setuid 0]) := by
  have hok : (sampleLaunch.alone sampleHost).1.isOk = true := by
    decide +kernel
  rcases hrun : sampleLaunch.alone sampleHost with ⟨_ | ⟨keys, backend⟩, h⟩
  · rw [hrun] at hok
    cases hok
  · obtain ⟨hlaunched, account, haccount, -, hcalls⟩ := launch_drops_root _ _ .standard _ _ _ _ _ _
      Kernel.documented_standard ⟨rfl, rfl⟩ hrun
    cases haccount
    exact ⟨keys, backend, h, rfl, hlaunched, hcalls _⟩

end Samples

end Daemon
end Secretbae
