import Secretbae.Daemon.Keyfile

/-!
# Initialisation

`startup::initialise`: a keyfile, a master key sealed under it, the built-in
policies, the root token and the first record of the audit log, each durable
before the next.  The keyfile comes first and nothing takes it back, so a call
that fails or is killed leaves things as they were exactly where it has not
created the file; from then on every further call is refused.
-/

namespace Secretbae
namespace Daemon

open Lib Core Audit Storage Policies

/-- What the operating system and the sources of randomness answer to `initialise`. -/
structure InitEnv where
  harden : Except (String × String) Unit
  account : Except StartupError Unit
  create : CreateEnv
  load : LoadEnv
  openStore : Except StartupError Unit
  masterKey : Option Key32
  sealNonce : Option Nonce
  /-- Failures of the database itself. -/
  database : InitSection → Except StartupError Unit
  now : InitSection → UnixTime
  token : IssueDraws
  timestamp : Int64

/-- The policy that `initialise` puts. -/
def rootPolicy : Policy where
  name := "root"
  rules := [⟨everyPath, {.read, .write, .delete, .list, .admin}, []⟩]
  deny := []

/-- One transaction of the store. -/
def transaction (env : InitEnv) (label : InitSection)
    (act : Deployment → Except StartupError Deployment) : InitCode Unit :=
  Script.atomically label fun s =>
    match env.database label, act s with
    | .ok (), .ok s' => (.ok (), s')
    | .error e, _ => (.error e, s)
    | .ok (), .error e => (.error e, s)

/-- The token that `initialise` creates. -/
def rootToken (issued : IssuedToken) : NewToken where
  id := issued.id
  lookupPrefix := issued.lookupPrefix
  hash := issued.hash
  name := "root"
  boundUid := some 0
  expiresAt := none
  policies := [rootPolicy.name]

section Code

variable (P : Primitives) (J : PolicyJson) (sha256 : Bytes → Digest)

/-- `initialise`, once there is a keyfile. -/
def initialiseStore (env : InitEnv) (path : String) : InitCode String := do
  let file ← Script.atomically .readKeyfile fun s => (.ok s.keyfile, s)
  let backend ← Script.ofExcept (loadKeyfile env.load path file)
  Script.ofExcept env.openStore
  let raw ← Script.ofExcept ((Key32.generate env.masterKey).mapError .crypto)
  let master : MasterKey := ⟨raw⟩
  let sealed ← Script.ofExcept ((sealMaster P env.sealNonce backend master 1).mapError .crypto)
  transaction env .initialiseMasterKey fun s =>
    ((s.store.initialiseMasterKey sealed).mapError .store).map fun store => { s with store }
  transaction env .putRootPolicy fun s =>
    ((putPolicy J s.access rootPolicy (env.now .putRootPolicy)).mapError .store).map
      fun access => { s with access }
  transaction env .seedPolicies fun s =>
    ((seedBuiltinPolicies J s.access (env.now .seedPolicies)).mapError .store).map
      fun access => { s with access }
  let issued ← Script.ofExcept ((issue sha256 env.token).mapError .policy)
  transaction env .createToken fun s =>
    ((createToken s.access (rootToken issued) (env.now .createToken)).mapError .store).map
      fun access => { s with access }
  transaction env .appendInit fun s =>
    ((Audit.append P s.log (master.auditKey P) (initEntry env.timestamp)).mapError .audit).map
      fun appended => { s with log := appended.1 }
  pure issued.secret

/-- `startup::initialise`; what it returns is the root token, which is shown only then. -/
def initialiseDeployment (env : InitEnv) (path : String) : InitCode String := do
  if env.create.uid ≠ 0 then Script.fail .notRoot
  else do
    Script.ofExcept (env.harden.mapError fun (call, reason) => .harden call reason)
    Script.ofExcept env.account
    createKeyfile env.create path
    initialiseStore P J sha256 env path

end Code

/-- The call gets as far as creating the keyfile. -/
structure CreatesKeyfile (env : InitEnv) (s : Deployment) : Prop where
  root : env.create.uid = 0
  hardened : env.harden = .ok ()
  account : env.account = .ok ()
  absent : s.keyfile = none
  parent : env.create.createParent = .ok ()
  material : env.create.material ≠ none
  opened : env.create.openNew = .ok ()

/-- The keyfile, the master key, the tokens and the policies are as they were. -/
structure Restored (s s' : Deployment) : Prop where
  keyfile : s'.keyfile = s.keyfile
  masterKey : s'.store.sealedMasterKey = s.store.sealedMasterKey
  access : s'.access = s.access

theorem Restored.refl
    (s : Deployment) :
    Restored s s :=
  ⟨rfl, rfl, rfl⟩

section Failures

variable {P : Primitives} {J : PolicyJson} {sha256 : Bytes → Digest} {env : InitEnv}
  {path : String} {s : Deployment}

/-- What every byte written keeps, writing the new file keeps. -/
theorem keeps_writeNew
    {inv : Deployment → Prop}
    (h : ∀ s b, inv s → inv (s.appendByte b)) (env : CreateEnv) (material : String) :
    (writeNew env material).Keeps inv := by
  have hbytes : ∀ bytes, (writeBytes bytes).Keeps inv := by
    intro bytes
    induction bytes with
    | nil => trivial
    | cons b bytes ih => exact .bind (.atomically fun s => h s b) fun _ => ih
  refine .bind ?_ fun _ => trivial
  unfold writeAll
  split
  · exact hbytes _
  · exact .bind (hbytes _) fun _ => trivial

/-- A file that has been created is not taken away. -/
theorem appendByte_keyfile
    (s : Deployment) (b : UInt8) (h : s.keyfile ≠ none) :
    (s.appendByte b).keyfile ≠ none := by
  simpa [Deployment.appendByte] using h

theorem keeps_transaction
    {label : InitSection} {act : Deployment → Except StartupError Deployment}
    (h : ∀ s s', act s = .ok s' → s'.keyfile = s.keyfile) :
    (transaction env label act).Keeps fun s => s.keyfile ≠ none := by
  refine .atomically ?_
  intro s hs
  split
  · rename_i s' _ hact
    rw [h s s' hact]
    exact hs
  · exact hs
  · exact hs

/-- Neither does anything that follows. -/
theorem keeps_initialiseStore :
    (initialiseStore P J sha256 env path).Keeps fun s => s.keyfile ≠ none := by
  have hmap : ∀ {α : Type} (x : Except StartupError α) (f : α → Deployment) (s s' : Deployment),
      (∀ a, (f a).keyfile = s.keyfile) → x.map f = .ok s' → s'.keyfile = s.keyfile := by
    intro α x f s s' hf hx
    obtain ⟨a, -, rfl⟩ := map_eq_ok.mp hx
    exact hf a
  refine .bind (.atomically fun _ hs => hs) fun _ => ?_
  refine .bind trivial fun _ => .bind trivial fun _ => .bind trivial fun _ => ?_
  refine .bind trivial fun _ => ?_
  refine .bind (keeps_transaction fun s s' => hmap _ _ s s' fun _ => rfl) fun _ => ?_
  refine .bind (keeps_transaction fun s s' => hmap _ _ s s' fun _ => rfl) fun _ => ?_
  refine .bind (keeps_transaction fun s s' => hmap _ _ s s' fun _ => rfl) fun _ => ?_
  refine .bind trivial fun _ => ?_
  refine .bind (keeps_transaction fun s s' => hmap _ _ s s' fun _ => rfl) fun _ => ?_
  exact .bind (keeps_transaction fun s s' => hmap _ _ s s' fun _ => rfl) fun _ => trivial

/-- `keyfile::create` and what follows it, one section after another. -/
theorem createKeyfile_then
    (env : CreateEnv) (path : String) (k : Unit → InitCode String) :
    createKeyfile env path >>= k =
      Script.atomically .checkKeyfile keyfileIsThere >>= fun present =>
        if present then Script.fail (keyfileExists path)
        else
          Script.ofExcept (env.createParent.mapError .io) >>= fun _ =>
            Script.ofExcept ((generateHex env.material).mapError fun e =>
              .keyfile path (errorText e)) >>= fun material =>
                Script.atomically .createKeyfile (openNew env) >>= fun _ =>
                  writeNew env material >>= k := by
  unfold createKeyfile
  rw [Script.sequence_assoc]
  congr 1
  funext present
  cases present with
  | true => rfl
  | false => simp only [Bool.false_eq_true, if_false, Script.sequence_assoc]

/-- A call that does not create the file changes nothing and fails. -/
theorem untouched_of_not_creates
    (h : ¬ CreatesKeyfile env s) (k : Nat) :
    (initialiseDeployment P J sha256 env path).stopped k s = s := by
  unfold initialiseDeployment
  by_cases huid : env.create.uid = 0
  · rw [if_neg (not_not.mpr huid)]
    cases hharden : env.harden with
    | error e => exact Script.stopped_fail _ k s
    | ok =>
        cases haccount : env.account with
        | error e => exact Script.stopped_fail _ k s
        | ok =>
            change (createKeyfile env.create path >>= fun _ => _).stopped k s = s
            rw [createKeyfile_then]
            cases k with
            | zero => exact Script.stopped_zero _ s
            | succ k =>
                -- the first section only looks
                have hcheck : keyfileIsThere s = (.ok s.keyfile.isSome, s) := rfl
                rw [Script.stopped_atomically_of_ok hcheck]
                cases hfile : s.keyfile with
                | some file => exact Script.stopped_fail _ k s
                | none =>
                    cases hparent : env.create.createParent with
                    | error e => exact Script.stopped_fail _ k s
                    | ok =>
                        cases hmaterial : env.create.material with
                        | none => exact Script.stopped_fail _ k s
                        | some key =>
                            cases k with
                            | zero => rfl
                            | succ k =>
                                cases hopened : env.create.openNew with
                                | error e =>
                                    exact Script.stopped_atomically_of_error
                                      (by rw [openNew, hopened]) _ k
                                | ok =>
                                    exact absurd ⟨huid, hharden, haccount, hfile, hparent,
                                      by simp [hmaterial], hopened⟩ h
  · rw [if_pos huid]
    exact Script.stopped_fail _ k s

variable (P J sha256 path) in
/-- A call that creates the file does so in its second section. -/
theorem stopped_of_creates
    (h : CreatesKeyfile env s) :
    ∃ material, ∀ k, (initialiseDeployment P J sha256 env path).stopped (k + 1) s =
      (Script.atomically .createKeyfile (openNew env.create) >>= fun _ =>
        writeNew env.create material >>= fun _ =>
          initialiseStore P J sha256 env path).stopped k s := by
  obtain ⟨key, hkey⟩ := Option.ne_none_iff_exists'.mp h.material
  have hcode : initialiseDeployment P J sha256 env path =
      createKeyfile env.create path >>= fun _ => initialiseStore P J sha256 env path := by
    rw [initialiseDeployment, if_neg (not_not.mpr h.root), h.hardened, h.account]
    rfl
  have hcheck : keyfileIsThere s = (.ok false, s) := by
    rw [keyfileIsThere, h.absent]
    rfl
  refine ⟨String.ofList (hexEncode key.toList), ?_⟩
  intro k
  rw [hcode, createKeyfile_then, Script.stopped_atomically_of_ok hcheck, h.parent, hkey]
  rfl

/-- A call that creates the file leaves it, from its second section on. -/
theorem keyfile_of_creates
    (h : CreatesKeyfile env s) (k : Nat) :
    ((initialiseDeployment P J sha256 env path).stopped (k + 2) s).keyfile ≠ none := by
  obtain ⟨material, hstopped⟩ := stopped_of_creates P J sha256 path h
  have hopen : openNew env.create s =
      (.ok (), { s with keyfile := some ⟨0o400 &&& ~~~env.create.umask, env.create.uid, []⟩ }) := by
    rw [openNew, h.opened, h.absent]
  rw [hstopped, Script.stopped_atomically_of_ok hopen]
  exact ((keeps_writeNew appendByte_keyfile _ _).bind fun _ =>
    keeps_initialiseStore).stopped (by simp) k

/-- Until then it only looks. -/
theorem stopped_one_of_creates
    (h : CreatesKeyfile env s) :
    (initialiseDeployment P J sha256 env path).stopped 1 s = s := by
  obtain ⟨material, hstopped⟩ := stopped_of_creates P J sha256 path h
  rw [hstopped, Script.stopped_zero]

/-- Where there is a keyfile, every call is refused. -/
theorem refused_of_keyfile
    (h : s.keyfile ≠ none) :
    ∃ e, (initialiseDeployment P J sha256 env path).alone s = (.error e, s) := by
  have hcreate : (createKeyfile env.create path).alone s = (.error (keyfileExists path), s) := by
    rw [createKeyfile, Script.alone_bind, Script.alone_atomically, keyfileIsThere,
      Option.isSome_iff_ne_none.mpr h]
    rfl
  unfold initialiseDeployment
  by_cases huid : env.create.uid = 0
  · rw [if_neg (not_not.mpr huid)]
    cases env.harden with
    | error e => exact ⟨_, rfl⟩
    | ok =>
        cases env.account with
        | error e => exact ⟨_, rfl⟩
        | ok =>
            change ∃ e, (createKeyfile env.create path >>= fun _ => _).alone s = (.error e, s)
            rw [Script.alone_bind, hcreate]
            exact ⟨_, rfl⟩
  · rw [if_pos huid]
    exact ⟨_, rfl⟩

/-- Wherever a call is stopped, things are as before exactly where it has not created the file. -/
theorem restored_iff
    (k : Nat) :
    Restored s ((initialiseDeployment P J sha256 env path).stopped k s) ↔
      ¬ (CreatesKeyfile env s ∧ 2 ≤ k) := by
  by_cases hcreates : CreatesKeyfile env s
  · simp only [hcreates, true_and, not_le]
    constructor
    · intro hrestored
      by_contra hk
      obtain ⟨j, rfl⟩ := Nat.exists_eq_add_of_le' (not_lt.mp hk)
      exact keyfile_of_creates hcreates j (hrestored.keyfile.trans hcreates.absent)
    · intro hk
      obtain rfl | rfl : k = 0 ∨ k = 1 := by omega
      · rw [Script.stopped_zero]
        exact Restored.refl s
      · rw [stopped_one_of_creates hcreates]
        exact Restored.refl s
  · simp only [hcreates, false_and, not_false_eq_true, iff_true]
    rw [untouched_of_not_creates hcreates]
    exact Restored.refl s

/--
A call that fails, or is stopped after any number of its sections, leaves the
keyfile, the master key, the tokens and the policies as they were exactly where
it has not created the keyfile; where it has, every further call is refused and
changes nothing.
-/
theorem failed_initialisation_iff
    (P : Primitives) (J : PolicyJson) (sha256 : Bytes → Digest) (env : InitEnv)
    (path : String) (s : Deployment) :
    (∀ k, Restored s ((initialiseDeployment P J sha256 env path).stopped k s) ↔
      ¬ (CreatesKeyfile env s ∧ 2 ≤ k)) ∧
    (∀ e s', (initialiseDeployment P J sha256 env path).alone s = (.error e, s') →
      (Restored s s' ↔ ¬ CreatesKeyfile env s)) ∧
    (CreatesKeyfile env s → ∀ k, 2 ≤ k → ∀ again,
      ∃ e, (initialiseDeployment P J sha256 again path).alone
          ((initialiseDeployment P J sha256 env path).stopped k s) =
        (.error e, (initialiseDeployment P J sha256 env path).stopped k s)) := by
  refine ⟨fun _ => restored_iff _, ?_, ?_⟩
  · intro e s' hrun
    -- a call that fails has been stopped late
    obtain ⟨n, hn⟩ := (initialiseDeployment P J sha256 env path).exists_stopped_eq_alone s
    have hlate := hn (n + 2) (by omega)
    rw [hrun] at hlate
    change _ = s' at hlate
    rw [← hlate, restored_iff]
    simp
  · intro hcreates k hk again
    obtain ⟨j, rfl⟩ := Nat.exists_eq_add_of_le' hk
    exact refused_of_keyfile (keyfile_of_creates hcreates j)

/-- A transaction that succeeds has made its change. -/
theorem transaction_eq_ok
    {label : InitSection} {act : Deployment → Except StartupError Deployment} {s' : Deployment}
    (h : (transaction env label act).alone s = (.ok (), s')) :
    act s = .ok s' := by
  simp only [transaction, Script.alone_atomically] at h
  split at h
  · rename_i hact
    cases h
    exact hact
  · cases h
  · cases h

/-- Creating the keyfile has nothing to do with the database. -/
theorem createKeyfile_database
    {env : CreateEnv} {s' : Deployment}
    (h : (createKeyfile env path).alone s = (.ok (), s')) :
    s'.store = s.store ∧ s'.log = s.log := by
  have hkeeps : (createKeyfile env path).Keeps fun t => t.store = s.store ∧ t.log = s.log := by
    refine .bind (.atomically fun _ ht => ht) fun present => ?_
    cases present with
    | true => trivial
    | false =>
        refine .bind trivial fun _ => .bind trivial fun material => .bind (.atomically ?_) ?_
        · intro t ht
          unfold openNew
          split <;> exact ht
        · exact fun _ => keeps_writeNew (fun _ _ ht => ht) env material
  have hkept := hkeeps.alone ⟨rfl, rfl⟩
  rw [h] at hkept
  exact hkept

/-- Where a call returns a token, the store and the log are what sealing a new master key makes. -/
theorem initialise_of_initialiseDeployment
    {token : String} {s' : Deployment}
    (h : (initialiseDeployment P J sha256 env path).alone s = (.ok token, s')) :
    ∃ backend, initialise P env.masterKey env.sealNonce backend ⟨s.log, s.store⟩ env.timestamp =
      .ok ⟨s'.log, s'.store⟩ := by
  unfold initialiseDeployment at h
  split at h
  · cases h
  obtain ⟨-, -, h⟩ := Script.alone_ofExcept_bind_eq_ok h
  obtain ⟨-, -, h⟩ := Script.alone_ofExcept_bind_eq_ok h
  obtain ⟨⟨⟩, t, hcreate, h⟩ := Script.alone_bind_eq_ok h
  obtain ⟨hstore, hlog⟩ := createKeyfile_database hcreate
  unfold initialiseStore at h
  obtain ⟨file, t', hfile, h⟩ := Script.alone_bind_eq_ok h
  cases hfile
  obtain ⟨backend, -, h⟩ := Script.alone_ofExcept_bind_eq_ok h
  obtain ⟨-, -, h⟩ := Script.alone_ofExcept_bind_eq_ok h
  obtain ⟨raw, hraw, h⟩ := Script.alone_ofExcept_bind_eq_ok h
  obtain ⟨sealed, hsealed, h⟩ := Script.alone_ofExcept_bind_eq_ok h
  obtain ⟨⟨⟩, t₁, h₁, h⟩ := Script.alone_bind_eq_ok h
  obtain ⟨⟨⟩, t₂, h₂, h⟩ := Script.alone_bind_eq_ok h
  obtain ⟨⟨⟩, t₃, h₃, h⟩ := Script.alone_bind_eq_ok h
  obtain ⟨issued, -, h⟩ := Script.alone_ofExcept_bind_eq_ok h
  obtain ⟨⟨⟩, t₄, h₄, h⟩ := Script.alone_bind_eq_ok h
  obtain ⟨⟨⟩, t₅, h₅, h⟩ := Script.alone_bind_eq_ok h
  cases h
  obtain ⟨store, hput, rfl⟩ := map_eq_ok.mp (transaction_eq_ok h₁)
  obtain ⟨_, -, rfl⟩ := map_eq_ok.mp (transaction_eq_ok h₂)
  obtain ⟨_, -, rfl⟩ := map_eq_ok.mp (transaction_eq_ok h₃)
  obtain ⟨_, -, rfl⟩ := map_eq_ok.mp (transaction_eq_ok h₄)
  obtain ⟨appended, happend, rfl⟩ := map_eq_ok.mp (transaction_eq_ok h₅)
  rw [mapError_eq_ok] at hraw hsealed hput happend
  rw [hstore] at hput
  refine ⟨backend, ?_⟩
  unfold initialise
  refine bind_eq_ok.mpr ⟨raw, mapError_eq_ok.mpr hraw, ?_⟩
  refine bind_eq_ok.mpr ⟨sealed, mapError_eq_ok.mpr hsealed, ?_⟩
  refine bind_eq_ok.mpr ⟨store, mapError_eq_ok.mpr hput, ?_⟩
  refine bind_eq_ok.mpr ⟨appended, mapError_eq_ok.mpr ?_, rfl⟩
  rw [← hlog]
  exact happend

end Failures

section Witnesses

/-- Everything the operating system is asked for works. -/
def sampleInit : InitEnv where
  harden := .ok ()
  account := .ok ()
  create :=
    { uid := 0
      umask := 0o022
      createParent := .ok ()
      material := some (sampleKey 7)
      openNew := .ok ()
      writeFails := none
      sync := .ok () }
  load := ⟨.ok (), .ok ()⟩
  openStore := .ok ()
  masterKey := some (sampleKey 8)
  sealNonce := some (sampleNonce 9)
  database := fun _ => .ok ()
  now := fun _ => sampleTime 100
  token := ⟨some ⟨[1, 2, 3, 4, 5], rfl⟩, some (sampleKey 10), sampleUuid 11⟩
  timestamp := 100

/-- A store whose master key is sealed under another keyfile, which is not there any more. -/
def keyfileLost : Deployment where
  keyfile := none
  store := Store.empty.putSealedMasterKey
    (SealedMasterKey.toBytes
      ⟨.keyfile, 1, sampleNonce 6,
        samplePrimitives.encrypt (KeyfileSeal.wrapKey samplePrimitives ⟨sampleKey 5⟩).raw
          (sampleNonce 6) (sealAad .keyfile 1) (sampleKey 4).toList⟩)
  access := Access.empty
  log := AuditLog.empty

/-- Before anything has been installed. -/
def emptyDeployment : Deployment :=
  ⟨none, Store.empty, Access.empty, AuditLog.empty⟩

def sampleCall : InitCode String :=
  initialiseDeployment samplePrimitives ⟨fun _ => "", fun _ => .error ""⟩
    (samplePrimitives.keyedHash (sampleKey 1)) sampleInit "k"

theorem sampleInit_creates
    {s : Deployment}
    (h : s.keyfile = none) :
    CreatesKeyfile sampleInit s :=
  ⟨rfl, rfl, rfl, h, rfl, by decide, rfl⟩

/-- Stopped when the file is there and still empty. -/
theorem stopped_creation_is_not_restored :
    ¬ Restored emptyDeployment (sampleCall.stopped 2 emptyDeployment) := by
  intro h
  exact ((failed_initialisation_iff samplePrimitives _ _ sampleInit "k" emptyDeployment).1 2).mp h
    ⟨sampleInit_creates rfl, le_rfl⟩

/--
A call on a store that has a master key is refused, and its new keyfile, which
does not unseal that store, stays.  A first call works when it is not
disturbed; stopped after two sections it has shown no token, and every later one
is refused.
-/
theorem new_keyfile_beside_other_store :
    (sampleCall.alone keyfileLost).1.isOk = false ∧
    ¬ Restored keyfileLost (sampleCall.alone keyfileLost).2 ∧
    (loadKeyfile sampleInit.load "k" (sampleCall.alone keyfileLost).2.keyfile).toOption.map
        (fun backend => (keyfileLost.store.sealedMasterKey.map fun stored =>
          (unsealBytes samplePrimitives backend stored).isOk)) = some (some false) ∧
    (sampleCall.alone emptyDeployment).1.isOk = true ∧
    (sampleCall.alone (sampleCall.stopped 2 emptyDeployment)).1.isOk = false := by
  refine ⟨by decide +kernel, ?_, by decide +kernel, by decide +kernel, by decide +kernel⟩
  intro h
  have hkeyfile : (sampleCall.alone keyfileLost).2.keyfile ≠ none := by
    decide +kernel
  exact hkeyfile h.keyfile

end Witnesses

end Daemon
end Secretbae
