import Secretbae.Service.Backup

/-!
# Backup, then restore

`Reached` are the states of a daemon over all of its operations on the store,
the tokens and the policies, restores of bundles that someone else has made
included.  Where none of these carries a value in a destroyed version, every row
is well formed, every version opens under the master key and every policy can be
read (`Reached.sound`).

`backup_restore` is the round trip: what is backed up in one of these states and
restored into a store without secrets, under whatever key, is there again.  A
restore does not clear the value of a destroyed version, and such a version does
not come back as a tombstone (`laden_tombstone_restored`).
-/

namespace Secretbae
namespace Service

open Lib Proto Core Audit Storage Policies
open Daemon (KeyMaterial Database PeerCredentials Denied ApiError recordEntry)

section Policies

variable {F : Foreign} {draws : RestoreDraws}

/-- A row whose name the documents do not mention stays. -/
theorem restorePolicies_frame
    {documents : List String} {acc : Access} {p : PolicyRow}
    (i : Nat)
    (hp : p ∈ acc.policies.rows)
    (hname : ∀ q ∈ readable F.policyJson documents, q.name ≠ p.name) :
    p ∈ (restorePolicies F draws i documents acc).2.policies.rows := by
  induction documents generalizing i acc with
  | nil =>
      exact hp
  | cons document documents ih =>
      unfold restorePolicies
      unfold readable at hname
      rcases restorePolicy_cases (draws.stored i) document acc with
        ⟨policy, acc', hparse, hput, heq⟩ | ⟨e, hparse, heq⟩
      · rw [heq]
        rw [hparse] at hname
        have hp' : p ∈ acc'.policies.rows :=
          ((putPolicy_eq_ok hput).2.2 p).mpr (.inl ⟨hp, (hname policy (by simp)).symm⟩)
        exact ih (i + 1) hp' fun q hq => hname q (by simp [hq])
      · rw [heq]
        exact hp

/-- Each of the documents is stored, where no two of them have one name. -/
theorem restorePolicies_stores
    {documents : List String} {acc : Access} {q : Policy}
    (i : Nat)
    (hnodup : ((readable F.policyJson documents).map Policy.name).Nodup)
    (hq : q ∈ readable F.policyJson documents) :
    ∃ p ∈ (restorePolicies F draws i documents acc).2.policies.rows,
      p.name = q.name ∧ p.document = q.toJson F.policyJson := by
  induction documents generalizing i acc with
  | nil =>
      cases hq
  | cons document documents ih =>
      unfold restorePolicies
      unfold readable at hnodup hq
      rcases restorePolicy_cases (draws.stored i) document acc with
        ⟨policy, acc', hparse, hput, heq⟩ | ⟨e, hparse, heq⟩
      · rw [heq]
        rw [hparse] at hnodup hq
        obtain ⟨hfirst, hnodup⟩ := List.nodup_cons.mp hnodup
        rcases List.mem_cons.mp hq with rfl | hq
        · obtain ⟨p, hp, hname⟩ := List.mem_map.mp
            ((putPolicy_names hput q.name).mpr (.inr rfl))
          have hdocument : p.document = q.toJson F.policyJson := by
            rcases ((putPolicy_eq_ok hput).2.2 p).mp hp with ⟨-, hne⟩ | ⟨-, hdocument, -⟩
            · exact absurd hname hne
            · exact hdocument
          refine ⟨p, restorePolicies_frame (i + 1) hp ?_, hname, hdocument⟩
          intro q' hq' hsame
          exact hfirst (List.mem_map.mpr ⟨q', hq', hsame.trans hname⟩)
        · exact ih (i + 1) hnodup hq
      · rw [hparse] at hq
        cases hq

theorem rereadable_restorePolicies
    {documents : List String} {acc : Access}
    (i : Nat)
    (h : acc.Rereadable F.policyJson)
    (hall : ∀ q ∈ readable F.policyJson documents, q.Rereads F.policyJson) :
    (restorePolicies F draws i documents acc).2.Rereadable F.policyJson := by
  induction documents generalizing i acc with
  | nil =>
      exact h
  | cons document documents ih =>
      unfold restorePolicies
      unfold readable at hall
      rcases restorePolicy_cases (draws.stored i) document acc with
        ⟨policy, acc', hparse, hput, heq⟩ | ⟨e, hparse, heq⟩
      · rw [heq]
        rw [hparse] at hall
        exact ih (i + 1) (rereadable_putPolicy (hall policy (by simp)) h hput)
          fun q hq => hall q (by simp [hq])
      · rw [heq]
        exact h

/-- Documents that can all be read are all read. -/
theorem readable_documents
    {J : PolicyJson} {rows : List PolicyRow}
    (h : ∀ p ∈ rows, ∃ policy, Policy.fromJson J p.document = .ok policy ∧
      policy.name = p.name ∧ policy.Rereads J) :
    List.Forall₂ (fun p policy => Policy.fromJson J p.document = .ok policy ∧
        policy.name = p.name ∧ policy.Rereads J)
      rows (readable J (rows.map PolicyRow.document)) := by
  induction rows with
  | nil =>
      exact .nil
  | cons p rows ih =>
      obtain ⟨policy, hparse, hname, hrereads⟩ := h p (by simp)
      rw [List.map_cons, readable, hparse]
      exact .cons ⟨hparse, hname, hrereads⟩ (ih fun q hq => h q (by simp [hq]))

/-- What the documents of a backup are read as. -/
theorem readable_allPolicyDocuments
    {acc : Access}
    (h : acc.Rereadable F.policyJson) :
    List.Forall₂ (fun p policy => Policy.fromJson F.policyJson p.document = .ok policy ∧
        policy.name = p.name ∧ policy.Rereads F.policyJson)
      acc.policiesByName (readable F.policyJson (allPolicyDocuments acc)) :=
  readable_documents fun p hp => h p (List.mem_mergeSort.mp hp)

/-- Every policy of a backup is there after it has been restored. -/
theorem restorePolicies_backup
    {acc acc' : Access} {p : PolicyRow}
    (h : acc.Rereadable F.policyJson)
    (hp : p ∈ acc.policies.rows) :
    ∃ p' ∈ (restorePolicies F draws 0 (allPolicyDocuments acc) acc').2.policies.rows,
      p'.name = p.name ∧
        Policy.fromJson F.policyJson p'.document = Policy.fromJson F.policyJson p.document := by
  have hall := readable_allPolicyDocuments h
  have hnodup : ((readable F.policyJson (allPolicyDocuments acc)).map Policy.name).Nodup := by
    rw [forall₂_map_eq (fun _ _ hrow => hrow.2.1) hall]
    exact ((List.mergeSort_perm _ _).map _).nodup_iff.mpr acc.policyNames
  obtain ⟨q, hq, hparse, hname, hrereads⟩ :=
    forall₂_mem_left hall (List.mem_mergeSort.mpr hp)
  obtain ⟨p', hp', hname', hdocument⟩ :
      ∃ p' ∈ (restorePolicies F draws 0 (allPolicyDocuments acc) acc').2.policies.rows,
        p'.name = q.name ∧ p'.document = q.toJson F.policyJson :=
    restorePolicies_stores 0 hnodup hq
  refine ⟨p', hp', hname'.trans hname, ?_⟩
  rw [hdocument, hparse]
  exact hrereads

end Policies

/-- No version of the bundle that is marked as destroyed carries a value. -/
def BackupBundle.TombstonesEmpty (bundle : BackupBundle) : Prop :=
  ∀ b ∈ bundle.secrets, ∀ v ∈ b.versions, v.state = .destroyed → v.value = none

section Sound

variable {P : Primitives} {F : Foreign} {keys : KeyMaterial P} {draws : RestoreDraws}

/-- A row that is restored is well formed, unless it is a tombstone with a value. -/
theorem RestoredAs.wellFormed
    {master : MasterKey} {id : Uuid} {v : BackupVersion} {r : VersionRow}
    (h : RestoredAs P F master id v r)
    (hempty : v.state = .destroyed → v.value = none) :
    r.WellFormed := by
  obtain ⟨now, hcreated⟩ := h.createdAt
  refine ⟨?_, ?_, hcreated ▸ UnixTime.inRange _⟩
  · intro hdestroyed
    rcases h.value with ⟨-, hcleared⟩ | ⟨value, x, s, hvalue, -⟩
    · exact hcleared
    · rw [hempty (h.state.symm.trans hdestroyed)] at hvalue
      cases hvalue
  · intro hlive
    rcases h.value with ⟨-, hcleared⟩ | ⟨value, x, s, -, -, hholds, -⟩
    · -- the schema has a ciphertext in every row that is not destroyed
      rcases r.check with hdestroyed | hciphertext
      · exact absurd hdestroyed hlive
      · exact absurd hcleared.2.1 hciphertext
    · exact ⟨s, hholds⟩

/-- A row that is restored opens under the key of the daemon. -/
theorem RestoredAs.opens
    {master : MasterKey} {id : Uuid} {v : BackupVersion} {r : VersionRow}
    (h : RestoredAs P F master id v r)
    (hlive : r.state ≠ .destroyed) :
    ∃ s x, r.Holds s ∧ s.openAt P master r.binding = .ok x := by
  rcases h.value with ⟨-, hcleared⟩ | ⟨value, x, s, -, -, hholds, hx⟩
  · rcases r.check with hdestroyed | hciphertext
    · exact absurd hdestroyed hlive
    · exact absurd hcleared.2.1 hciphertext
  · exact ⟨s, x, hholds, hx⟩

/-- The rows after an import are those before it, and those of the bundle. -/
theorem mem_restoreSecret
    {i : Nat} {b : BackupSecret} {st st' : Store} {r : VersionRow}
    (hP : AeadCorrect P)
    (h : restoreSecret P F keys draws i b st = .ok st')
    (hr : r ∈ st'.versions.rows) :
    r ∈ st.versions.rows ∨ ∃ id, ∃ v ∈ b.versions, RestoredAs P F keys.master id v r := by
  obtain ⟨hkeeps, s, hs, hrows⟩ := restoreSecret_spec hP h
  obtain ⟨s', hs', hid⟩ := st'.versionRefs r hr
  have hmem : r ∈ st'.versionsOf s'.id := Store.mem_versionsOf.mpr ⟨hr, hid.symm⟩
  rcases (hrows s').mp hs' with hold | rfl
  · rw [hkeeps.versions s' hold] at hmem
    exact .inl (Store.mem_versionsOf.mp hmem).1
  · obtain ⟨v, hv, hrestored⟩ := forall₂_mem_right hs.versions hmem
    exact .inr ⟨s'.id, v, hv, hrestored⟩

/-- The loop over secrets without such tombstones keeps the rows well formed, and they open. -/
theorem restoreSecrets_sound
    {bs : List BackupSecret} {st : Store}
    (hP : AeadCorrect P) (i : Nat)
    (hempty : ∀ b ∈ bs, ∀ v ∈ b.versions, v.state = .destroyed → v.value = none)
    (hrows : st.RowsWellFormed)
    (hopen : st.AllOpen P keys.master) :
    (restoreSecrets P F keys draws i bs st).2.RowsWellFormed ∧
      (restoreSecrets P F keys draws i bs st).2.AllOpen P keys.master := by
  induction bs generalizing i st with
  | nil =>
      exact ⟨hrows, hopen⟩
  | cons b bs ih =>
      unfold restoreSecrets
      cases hsecret : restoreSecret P F keys draws i b st with
      | error e =>
          exact ⟨hrows, hopen⟩
      | ok st' =>
          refine ih (i + 1) (fun b' hb' => hempty b' (by simp [hb'])) ?_ ?_
          · intro r hr
            rcases mem_restoreSecret hP hsecret hr with hr | ⟨id, v, hv, hrestored⟩
            · exact hrows r hr
            · exact hrestored.wellFormed (hempty b (by simp) v hv)
          · intro r hr hlive
            rcases mem_restoreSecret hP hsecret hr with hr | ⟨id, v, hv, hrestored⟩
            · exact hopen r hr hlive
            · exact hrestored.opens hlive

end Sound

/-- The store of a daemon with its key. -/
def State.vault {P : Primitives} (s : State P) : Vault :=
  ⟨s.db.store, s.keys.master, s.keys.generation⟩

/-- A daemon whose store and key have changed. -/
def State.withVault {P : Primitives} (s : State P) (vault : Vault) : State P :=
  { s with
    keys := KeyMaterial.new P vault.master vault.generation
    db := { s.db with store := vault.store } }

theorem State.withVault_vault
    {P : Primitives} (s : State P) :
    s.withVault s.vault = s := by
  have hkeys : KeyMaterial.new P s.keys.master s.keys.generation = s.keys :=
    KeyMaterial.ext rfl s.keys.derived.symm rfl
  change { s with keys := KeyMaterial.new P s.keys.master s.keys.generation } = s
  rw [hkeys]

/--
The states of a daemon that is asked to restore bundles with `fits` only.  Who
has made such a bundle does not matter: the daemon takes whatever opens under
the passphrase it is given.
-/
inductive Reached (P : Primitives) (F : Foreign) (fits : BackupBundle → Prop) : State P → Prop
  | new
      {s : State P}
      (hsecrets : s.db.store.secrets.rows = [])
      (haccess : s.access = Access.empty) :
      Reached P F fits s
  | operate
      {s : State P}
      (op : VaultOp)
      (hs : Reached P F fits s) :
      Reached P F fits (s.withVault (op.step P s.vault))
  | account
      {s : State P}
      (op : AccessOp)
      (hop : op.Rereads F.policyJson)
      (hs : Reached P F fits s) :
      Reached P F fits { s with access := op.step F.policyJson s.access }
  | record
      {s : State P}
      (log : AuditLog)
      (hs : Reached P F fits s) :
      Reached P F fits { s with db := { s.db with log := log } }
  | restore
      {s : State P}
      (bundle : BackupBundle) (draws : RestoreDraws)
      (hs : Reached P F fits s)
      (hfits : fits bundle)
      (hpolicies : ∀ q ∈ readable F.policyJson bundle.policies, q.Rereads F.policyJson) :
      Reached P F fits (importBundle P F s bundle draws).2

/-- What holds in every such state. -/
structure State.Sound (F : Foreign) {P : Primitives} (s : State P) : Prop where
  rows : s.db.store.RowsWellFormed
  opens : s.db.store.AllOpen P s.keys.master
  policies : s.access.Rereadable F.policyJson

section Reached

variable {P : Primitives} {F : Foreign}

/-- A restore leaves a sound state, whether it succeeds or not. -/
theorem sound_importBundle
    {s : State P} {bundle : BackupBundle}
    (hP : AeadCorrect P)
    (hs : s.Sound F)
    (hempty : bundle.TombstonesEmpty)
    (hpolicies : ∀ q ∈ readable F.policyJson bundle.policies, q.Rereads F.policyJson)
    (draws : RestoreDraws) :
    (importBundle P F s bundle draws).2.Sound F := by
  have hsecrets :
      (restoreSecrets P F s.keys draws 0 bundle.secrets s.db.store).2.RowsWellFormed ∧
        (restoreSecrets P F s.keys draws 0 bundle.secrets s.db.store).2.AllOpen P
          s.keys.master :=
    restoreSecrets_sound hP 0 hempty hs.rows hs.opens
  unfold importBundle
  split
  · exact hs
  split
  · rename_i e store hrun
    rw [hrun] at hsecrets
    exact ⟨hsecrets.1, hsecrets.2, hs.policies⟩
  · rename_i store hrun
    rw [hrun] at hsecrets
    exact ⟨hsecrets.1, hsecrets.2, rereadable_restorePolicies 0 hs.policies hpolicies⟩

/-- The invariant of every state of a daemon that restores no tombstone with a value. -/
theorem Reached.sound
    {s : State P}
    (hP : AeadCorrect P)
    (h : Reached P F BackupBundle.TombstonesEmpty s) :
    s.Sound F := by
  induction h with
  | new hsecrets haccess =>
      obtain ⟨hinv, hopen⟩ := Store.sound_of_no_secrets hsecrets
      refine ⟨hinv.rows, hopen, ?_⟩
      intro p hp
      rw [haccess] at hp
      cases hp
  | @operate s op _ ih =>
      exact ⟨s.vault.wellFormed_step ih.rows op, s.vault.allOpen_step hP ih.opens op,
        ih.policies⟩
  | account op hop _ ih =>
      exact ⟨ih.rows, ih.opens, rereadable_step hop ih.policies⟩
  | record log _ ih =>
      exact ⟨ih.rows, ih.opens, ih.policies⟩
  | restore bundle draws _ hfits hpolicies ih =>
      exact sound_importBundle hP ih hfits hpolicies draws

/-- A run of operations on the store leads to such a state again. -/
theorem Reached.run
    {fits : BackupBundle → Prop} {s : State P}
    (h : Reached P F fits s) (ops : List VaultOp) :
    Reached P F fits (s.withVault (Lib.run (VaultOp.step P) s.vault ops)) := by
  induction ops generalizing s with
  | nil =>
      rw [run_nil, s.withVault_vault]
      exact h
  | cons op ops ih =>
      exact ih (h.operate op)

end Reached

/-- The codecs of other crates undo themselves on what a backup writes. -/
structure CodecsReread (F : Foreign) {P : Primitives} (s : State P) (now : UnixTime) : Prop where
  base64 : ∀ bytes, F.base64Decode (F.base64Encode bytes) = some bytes
  json :
    ∀ bundle, backupBundle P F s.keys s.db.store s.access now = .ok bundle →
      F.bundleFromJson (F.bundleToJson bundle) = some bundle
  times : ∀ r ∈ s.db.store.versions.rows, TimeRereads F r

/-- A request for a backup that is admitted, finds entropy and can be recorded. -/
structure BackupRuns (F : Foreign) {P : Primitives} (s : State P) (conn : Connection)
    (passphrase : String) (draws : BundleDraws) (env : Env) : Prop where
  nonempty : passphrase ≠ ""
  admitted :
    ∃ caller, check F s.db.store s.access (extractToken F conn.header) conn.peer
      ⟨.backup, none⟩ env.gate.checked = .ok caller
  entropy :
    ∃ salt nonce key, draws.salt = some salt ∧ draws.nonce = some nonce ∧
      F.argon2 (utf8 passphrase) salt = some key
  writable : env.writable = true
  log : s.db.log.Appendable

/-- A request for a restore of `n` secrets that is admitted, finds entropy and can be recorded. -/
structure RestoreRuns (F : Foreign) {P : Primitives} (t : State P) (conn : Connection) (n : Nat)
    (draws : RestoreDraws) (env : Env) : Prop where
  admitted :
    ∃ caller, check F t.db.store t.access (extractToken F conn.header) conn.peer
      ⟨.restore, none⟩ env.gate.checked = .ok caller
  entropy : ∀ i j, (draws.draws i j).Complete
  ids : ∀ k < n, ∀ l < k, draws.id l ≠ draws.id k
  writable : env.writable = true
  log : t.db.log.Appendable

/-- The second daemon has the secrets and the policies of the first. -/
structure Reproduces (F : Foreign) {P : Primitives} (s t : State P) : Prop where
  paths :
    ∀ path, (∃ row ∈ t.db.store.secrets.rows, row.path = path) ↔
      ∃ row ∈ s.db.store.secrets.rows, row.path = path
  tags : ∀ path tag, t.db.store.Carries path tag ↔ s.db.store.Carries path tag
  retention :
    ∀ row ∈ s.db.store.secrets.rows, ∀ row' ∈ t.db.store.secrets.rows, row'.path = row.path →
      row'.maxVersions = row.maxVersions ∧ row'.currentVersion = row.currentVersion
  versions :
    ∀ row ∈ s.db.store.secrets.rows, ∃ infos,
      Storage.versions s.db.store row.path = .ok infos ∧
        Storage.versions t.db.store row.path = .ok infos
  opens :
    ∀ row ∈ s.db.store.secrets.rows, ∀ row' ∈ t.db.store.secrets.rows, row'.path = row.path →
      ∀ r ∈ s.db.store.versionsOf row.id, r.state ≠ .destroyed →
        ∃ r' ∈ t.db.store.versionsOf row'.id, r'.version = r.version ∧
          ∃ sealed sealed' x, r.Holds sealed ∧
            sealed.openAt P s.keys.master r.binding = .ok x ∧ r'.Holds sealed' ∧
            sealed'.openAt P t.keys.master r'.binding = .ok x
  cleared : ∀ r' ∈ t.db.store.versions.rows, r'.state = .destroyed → r'.Cleared
  next :
    ∀ row ∈ s.db.store.secrets.rows, ∀ freshId now,
      (beginWrite t.db.store row.path freshId now).map WriteSlot.version =
        (beginWrite s.db.store row.path freshId now).map WriteSlot.version
  policies :
    ∀ p ∈ s.access.policies.rows, ∃ p' ∈ t.access.policies.rows, p'.name = p.name ∧
      Policy.fromJson F.policyJson p'.document = Policy.fromJson F.policyJson p.document

section RoundTrip

variable {P : Primitives} {F : Foreign} {s : State P}

/-- An entry that the log can take is recorded, and nothing else changes. -/
theorem recordOrInternal_runs
    {env : Env}
    (hwritable : env.writable = true)
    (hlog : s.db.log.Appendable) (caller : Authenticated) (action : Action)
    (path : Option SecretPath) (version : Option Version) :
    ∃ log, (recordOrInternal P caller action path version env).alone s =
      (.ok (), { s with db := { s.db with log := log } }) := by
  simp only [recordOrInternal, record, Script.alone_mapError, Script.alone_atomically]
  have hcan : (s.append P env.writable (recordEntry env.recorded.seconds caller.lookupPrefix
      caller.peer action .success path version)).1 = .ok () :=
    State.append_isOk_iff.mpr ⟨hwritable, hlog⟩
  rcases s.append_cases env.writable (recordEntry env.recorded.seconds caller.lookupPrefix
      caller.peer action .success path version) with ⟨log, entry, -, -, heq⟩ | ⟨e, heq⟩
  · rw [heq]
    exact ⟨log, rfl⟩
  · rw [heq] at hcan
    cases hcan

/-- A backup runs to its end. -/
theorem backup_runs
    {conn : Connection} {passphrase : String} {draws : BundleDraws} {now : UnixTime} {env : Env}
    {bundle : BackupBundle}
    (hruns : BackupRuns F s conn passphrase draws env)
    (hbundle : backupBundle P F s.keys s.db.store s.access now = .ok bundle) :
    ∃ sealed s', sealBundle P F.argon2 draws (utf8 passphrase) (F.bundleToJson bundle) =
        .ok sealed ∧
      (backup P F conn passphrase draws now env).alone s =
        (.ok ⟨F.base64Encode sealed, bundle.secrets.length, bundle.versionCount⟩, s') := by
  obtain ⟨caller, hcaller⟩ := hruns.admitted
  obtain ⟨salt, nonce, key, hsalt, hnonce, hkey⟩ := hruns.entropy
  have hbytes : utf8 passphrase ≠ [] := by
    intro hnil
    exact hruns.nonempty (utf8_inj (hnil.trans rfl))
  obtain ⟨sealed, hsealed⟩ : ∃ sealed, sealBundle P F.argon2 draws (utf8 passphrase)
      (F.bundleToJson bundle) = .ok sealed := by
    simp [sealBundle, hbytes, hsalt, hnonce, hkey, generateSalt, deriveFromPassphrase, aeadSeal,
      bind, Except.bind]
  have hsection : sealBackup P F (s.touch P caller.tokenId env.gate.touched) passphrase draws
      now = .ok (sealed, bundle.secrets.length, bundle.versionCount) :=
    bind_eq_ok.mpr ⟨bundle, hbundle, bind_eq_ok.mpr
      ⟨sealed, mapError_eq_ok.mpr hsealed, rfl⟩⟩
  obtain ⟨log, hrecord⟩ := recordOrInternal_runs (P := P)
    (s := s.touch P caller.tokenId env.gate.touched) hruns.writable hruns.log caller .backup none
    none
  refine ⟨sealed, { s.touch P caller.tokenId env.gate.touched with
    db := { s.db with log := log } }, hsealed, ?_⟩
  unfold backup
  rw [Script.alone_bind, gate_alone, hcaller]
  simp only [Script.andThen_ok, if_neg hruns.nonempty, Script.alone_bind, look,
    Script.alone_atomically, hsection, hrecord, Script.alone_pure]
  rfl

/-- The secrets of a backup can all be restored into a store without secrets. -/
theorem restorable_backup
    {st : Store} {bs : List BackupSecret} {rows : List SecretRow} {t : Store} {m : MasterKey}
    {draws : RestoreDraws}
    (hbase64 : ∀ bytes, F.base64Decode (F.base64Encode bytes) = some bytes)
    (hrows : rows.Perm st.secrets.rows)
    (hall : List.Forall₂ (CarriedSecret P F m st) rows bs)
    (hempty : t.secrets.rows = [])
    (hentropy : ∀ i j, (draws.draws i j).Complete)
    (hids : ∀ k < st.secrets.rows.length, ∀ l < k, draws.id l ≠ draws.id k) :
    Restorable F draws 0 bs t := by
  refine ⟨?_, ?_, ?_, ?_, ?_⟩
  · intro k b hb
    obtain ⟨row, -, hcarried⟩ := forall₂_mem_right hall (List.mem_of_getElem? hb)
    refine ⟨?_, ?_, ?_⟩
    · intro j v hv value hvalue
      refine ⟨?_, hentropy _ _⟩
      obtain ⟨r, -, hbacked⟩ := forall₂_mem_right hcarried.versions (List.mem_of_getElem? hv)
      rcases hbacked.value with ⟨-, hnone⟩ | ⟨-, sealed, x, -, -, hsome⟩
      · rw [hnone] at hvalue
        cases hvalue
      · rw [hsome] at hvalue
        cases hvalue
        exact ⟨x, hbase64 x⟩
    · intro v hv
      obtain ⟨r, -, hbacked⟩ := forall₂_mem_right hcarried.versions hv
      rcases hbacked.value with ⟨hdestroyed, -⟩ | ⟨-, sealed, x, -, -, hsome⟩
      · exact .inl (hbacked.state.trans hdestroyed)
      · exact .inr (by simp [hsome])
    · rw [forall₂_map_eq (fun _ _ hbacked => hbacked.version) hcarried.versions]
      exact st.nodup_sortedVersions row.id _
  · rw [forall₂_map_eq (fun _ _ hcarried => hcarried.path) hall]
    exact (hrows.map _).nodup_iff.mpr st.paths
  · intro b _ s hs
    rw [hempty] at hs
    cases hs
  · intro k hk l hl
    rw [← hall.length_eq, hrows.length_eq] at hk
    rw [Nat.zero_add, Nat.zero_add]
    exact hids k hk l hl
  · intro k _ s hs
    rw [hempty] at hs
    cases hs

/-- A restore of a bundle that can be restored runs to its end. -/
theorem restore_runs
    {t : State P} {conn : Connection} {n : Nat} {draws : RestoreDraws} {env : Env}
    {request : RestoreRequest} {bundle : BackupBundle}
    (hruns : RestoreRuns F t conn n draws env)
    (hempty : t.db.store.secrets.rows = [])
    (hopen : openRestore P F request = .ok bundle)
    (hsecrets : Restorable F draws 0 bundle.secrets t.db.store)
    (hpolicies : ∀ document ∈ bundle.policies,
      ∃ policy, Policy.fromJson F.policyJson document = .ok policy) :
    ∃ response t' acc,
      (restore P F conn request draws env).alone t = (.ok response, t') ∧
      t'.keys = t.keys ∧
      restoreSecrets P F t.keys draws 0 bundle.secrets t.db.store = (.ok (), t'.db.store) ∧
      t'.access = (restorePolicies F draws 0 bundle.policies acc).2 := by
  obtain ⟨caller, hcaller⟩ := hruns.admitted
  have hcount : ¬ secretCount t.db.store > 0 := by
    simp [secretCount, hempty]
  rcases hstore : restoreSecrets P F t.keys draws 0 bundle.secrets t.db.store with ⟨result, st⟩
  have hresult := (restoreSecrets_isOk_iff F t.keys draws 0 bundle.secrets t.db.store).mpr
    hsecrets
  rw [hstore] at hresult
  simp only at hresult
  subst hresult
  rcases haccess : restorePolicies F draws 0 bundle.policies
    (t.touch P caller.tokenId env.gate.touched).access with ⟨result, acc'⟩
  have hresult : (restorePolicies F draws 0 bundle.policies
      (t.touch P caller.tokenId env.gate.touched).access).1 = .ok () :=
    restorePolicies_isOk_iff.mpr hpolicies
  rw [haccess] at hresult
  simp only at hresult
  subst hresult
  obtain ⟨t₁, ht₁, himport⟩ : ∃ t₁ : State P,
      t₁ = { t with db := { t.db with store := st }, access := acc' } ∧
      importBundle P F (t.touch P caller.tokenId env.gate.touched) bundle draws =
        (.ok (), t₁) := by
    refine ⟨_, rfl, ?_⟩
    unfold importBundle
    rw [if_neg (show ¬ secretCount (t.touch P caller.tokenId env.gate.touched).db.store > 0 from
      hcount)]
    rw [State.touch_keys, State.touch_db, hstore]
    simp only [haccess]
    rfl
  have hlog : t₁.db.log.Appendable := by
    rw [ht₁]
    exact hruns.log
  obtain ⟨log, hrecord⟩ := recordOrInternal_runs hruns.writable hlog caller .restore none none
  refine ⟨⟨bundle.secrets.length, bundle.versionCount, bundle.policies.length⟩,
    { t₁ with db := { t₁.db with log := log } },
    (t.touch P caller.tokenId env.gate.touched).access, ?_, ?_, ?_, ?_⟩
  · unfold restore
    rw [Script.alone_bind, gate_alone, hcaller]
    simp only [Script.andThen_ok, Script.alone_bind, Script.alone_ofExcept, hopen,
      Script.alone_atomically, himport, hrecord, Script.alone_pure]
  · rw [ht₁]
  · rw [ht₁]
  · rw [haccess, ht₁]

/-- What the restored secrets have in common with those that were backed up. -/
theorem reproduces_of_restored
    {t : State P} {st : Store} {bs : List BackupSecret} {draws : RestoreDraws}
    (hP : AeadCorrect P)
    (hsound : s.Sound F)
    (hbase64 : ∀ bytes, F.base64Decode (F.base64Encode bytes) = some bytes)
    (htimes : ∀ r ∈ s.db.store.versions.rows, TimeRereads F r)
    (hall : List.Forall₂ (CarriedSecret P F s.keys.master s.db.store)
      (s.db.store.secrets.rows.mergeSort
        fun a b => decide (utf8 a.path.asStr ≤ utf8 b.path.asStr)) bs)
    (hempty : st.secrets.rows = [])
    (hstore : restoreSecrets P F t.keys draws 0 bs st = (.ok (), t.db.store))
    (hpolicies : ∀ p ∈ s.access.policies.rows, ∃ p' ∈ t.access.policies.rows,
      p'.name = p.name ∧
        Policy.fromJson F.policyJson p'.document = Policy.fromJson F.policyJson p.document) :
    Reproduces F s t := by
  obtain ⟨-, hrestored, hpaths⟩ := restoreSecrets_spec hP hstore
  have hforward : ∀ row ∈ s.db.store.secrets.rows, ∃ row' ∈ t.db.store.secrets.rows,
      SameSecret P s.keys.master t.keys.master s.db.store t.db.store row row' := by
    intro row hrow
    obtain ⟨b, hb, hcarried⟩ := forall₂_mem_left hall (List.mem_mergeSort.mpr hrow)
    obtain ⟨row', hrow'⟩ := hrestored b hb
    exact ⟨row', hrow'.mem, hcarried.restored hbase64 htimes hrow hrow'⟩
  have hbackward : ∀ row' ∈ t.db.store.secrets.rows, ∃ row ∈ s.db.store.secrets.rows,
      row.path = row'.path := by
    intro row' hrow'
    rcases hpaths row' hrow' with hold | ⟨b, hb, hpath⟩
    · rw [hempty] at hold
      cases hold
    · obtain ⟨row, hrow, hcarried⟩ := forall₂_mem_right hall hb
      exact ⟨row, List.mem_mergeSort.mp hrow, (hpath.trans hcarried.path).symm⟩
  -- the restored secret at the path of a secret
  have hsame : ∀ row ∈ s.db.store.secrets.rows, ∀ row' ∈ t.db.store.secrets.rows,
      row'.path = row.path →
        SameSecret P s.keys.master t.keys.master s.db.store t.db.store row row' := by
    intro row hrow row' hrow' hpath
    obtain ⟨row'', hrow'', h⟩ := hforward row hrow
    rwa [List.inj_on_of_nodup_map t.db.store.paths hrow' hrow'' (hpath.trans h.path.symm)]
  refine ⟨?_, ?_, ?_, ?_, ?_, ?_, ?_, hpolicies⟩
  · intro path
    constructor
    · rintro ⟨row', hrow', rfl⟩
      exact hbackward row' hrow'
    · rintro ⟨row, hrow, rfl⟩
      obtain ⟨row', hrow', h⟩ := hforward row hrow
      exact ⟨row', hrow', h.path⟩
  · intro path tag
    constructor
    · rintro ⟨row', hrow', htag⟩
      obtain ⟨hmem', rfl⟩ := Store.secretByPath_eq_some_iff.mp hrow'
      obtain ⟨row, hrow, hpath⟩ := hbackward row' hmem'
      have h := hsame row hrow row' hmem' hpath.symm
      rw [← hpath, ← h.tags tag, hpath]
      exact ⟨row', hrow', htag⟩
    · rintro ⟨row, hrow, htag⟩
      obtain ⟨hmem, rfl⟩ := Store.secretByPath_eq_some_iff.mp hrow
      obtain ⟨row', -, h⟩ := hforward row hmem
      exact (h.tags tag).mpr ⟨row, hrow, htag⟩
  · intro row hrow row' hrow' hpath
    have h := hsame row hrow row' hrow' hpath
    exact ⟨h.maxVersions, h.currentVersion⟩
  · intro row hrow
    obtain ⟨row', hrow', h⟩ := hforward row hrow
    obtain ⟨infos, hinfos⟩ := versions_isOk hsound.rows hrow
    exact ⟨infos, hinfos, (h.versions_eq hrow hrow').trans hinfos⟩
  · intro row hrow row' hrow' hpath r hr hlive
    obtain ⟨r', hr', hrel⟩ := (hsame row hrow row' hrow' hpath).mem_left hr
    exact ⟨r', hr', hrel.version, hrel.opens hlive⟩
  · intro r' hr' hdestroyed
    obtain ⟨row', hrow', hid⟩ := t.db.store.versionRefs r' hr'
    obtain ⟨row, hrow, hpath⟩ := hbackward row' hrow'
    obtain ⟨r, -, hrel⟩ := (hsame row hrow row' hrow' hpath.symm).mem_right
      (Store.mem_versionsOf.mpr ⟨hr', hid.symm⟩)
    exact hrel.cleared (hrel.state.symm.trans hdestroyed)
  · intro row hrow freshId now
    obtain ⟨row', hrow', h⟩ := hforward row hrow
    exact h.beginWrite_eq hrow hrow' freshId now

/--
What a daemon that has restored no tombstone with a value backs up, another one
without secrets restores: the same secrets, under its own key, and the same
policies.
-/
theorem backup_restore
    (hP : AeadCorrect P)
    {s t : State P} {conn conn' : Connection} {passphrase : String} {draws : BundleDraws}
    {draws' : RestoreDraws} {now : UnixTime} {env env' : Env}
    (hs : Reached P F BackupBundle.TombstonesEmpty s)
    (hcodecs : CodecsReread F s now)
    (hbackup : BackupRuns F s conn passphrase draws env)
    (hempty : t.db.store.secrets.rows = [])
    (hrestore : RestoreRuns F t conn' s.db.store.secrets.rows.length draws' env') :
    ∃ response s' response' t',
      (backup P F conn passphrase draws now env).alone s = (.ok response, s') ∧
      (restore P F conn' ⟨passphrase, response.bundle⟩ draws' env').alone t =
        (.ok response', t') ∧
      t'.keys = t.keys ∧ Reproduces F s t' := by
  have hsound := hs.sound hP
  obtain ⟨bundle, hbundle, hall, hdocuments⟩ :=
    backupBundle_spec (F := F) hsound.rows hsound.opens s.access now
  obtain ⟨sealed, s', hsealed, hran⟩ := backup_runs hbackup hbundle
  have hopen := openRestore_sealed hP (hcodecs.base64 sealed) (hcodecs.json bundle hbundle)
    hsealed
  have hrestorable := restorable_backup hcodecs.base64 (List.mergeSort_perm _ _) hall hempty
    hrestore.entropy hrestore.ids
  have hpolicies : ∀ document ∈ bundle.policies,
      ∃ policy, Policy.fromJson F.policyJson document = .ok policy := by
    intro document hdocument
    rw [hdocuments] at hdocument
    obtain ⟨p, hp, rfl⟩ := List.mem_map.mp hdocument
    obtain ⟨policy, hparse, -⟩ := hsound.policies p (List.mem_mergeSort.mp hp)
    exact ⟨policy, hparse⟩
  obtain ⟨response', t', acc, hran', hkeys, hstore, haccess⟩ :=
    restore_runs hrestore hempty hopen hrestorable hpolicies
  refine ⟨_, s', response', t', hran, hran', hkeys, ?_⟩
  rw [← hkeys] at hstore
  refine reproduces_of_restored hP hsound hcodecs.base64 hcodecs.times hall hempty hstore ?_
  intro p hp
  rw [haccess, hdocuments]
  exact restorePolicies_backup hsound.policies hp

end RoundTrip

section Samples

/-- The backup of a store with one secret. -/
def wholeBundle : BackupBundle where
  createdAt := "1970-01-01T00:01:40Z"
  secrets :=
    [{ path := samplePath
       tags := []
       maxVersions := 10
       currentVersion := some firstVersion
       versions :=
         [⟨firstVersion, .active, "1970-01-01T00:01:40Z", none, none, some "AQID"⟩] }]
  policies := [opsDocument]

def wholeBundleJson : String :=
  "\x7b\"created_at\":\"1970-01-01T00:01:40Z\",\"secrets\":[\x7b\"path\":\"prod/db\",\"tags\":[],\"max_versions\":10,\"current_version\":1,\"versions\":[\x7b\"version\":1,\"state\":\"active\",\"created_at\":\"1970-01-01T00:01:40Z\",\"created_by\":null,\"comment\":null,\"value\":\"AQID\"\x7d]\x7d],\"policies\":[\"\x7b\\n  \\\"name\\\": \\\"ops\\\",\\n  \\\"rules\\\": [\\n    \x7b\\n      \\\"path\\\": \\\"**\\\",\\n      \\\"capabilities\\\": [\\n        \\\"read\\\",\\n        \\\"write\\\",\\n        \\\"delete\\\",\\n        \\\"list\\\",\\n        \\\"admin\\\"\\n      ]\\n    \x7d\\n  ]\\n\x7d\"]\x7d"

/-- The functions of other crates, with a bundle and a time that they know. -/
def datedForeign (bundle : BackupBundle) (json : String) : Foreign :=
  { bundleForeign bundle json with
    rfc3339Format := fun t =>
      if t = sampleTime 100 then some "1970-01-01T00:01:40Z" else none
    rfc3339Parse := tableDecode [(sampleTime 100, "1970-01-01T00:01:40Z")] }

def wholeForeign : Foreign :=
  datedForeign wholeBundle wholeBundleJson

def sampleNewToken : NewToken where
  id := sampleUuid 1
  lookupPrefix := sampleLookup
  hash := sampleTokenRow.hash
  name := "ci"
  boundUid := none
  expiresAt := none
  policies := ["ops"]

/-- A new deployment. -/
def newState : State samplePrimitives :=
  { sampleState opsPolicy opsDocument with access := Access.empty }

/-- With a policy and a token. -/
def readyState : State samplePrimitives :=
  let s := newState
  let s := { s with
    access := (AccessOp.putPolicy opsPolicy (sampleTime 50)).step
      sampleForeign.policyJson s.access }
  { s with
    access := (AccessOp.createToken sampleNewToken (sampleTime 50)).step
      sampleForeign.policyJson s.access }

/-- And with a secret. -/
def filledState : State samplePrimitives :=
  readyState.withVault ((VaultOp.write samplePath (sampleUuid 7) (sampleTime 100) sampleDraws
    [1, 2, 3] ⟨none, none⟩ (sampleTime 100)).step samplePrimitives readyState.vault)

theorem opsPolicy_rereads :
    opsPolicy.Rereads sampleForeign.policyJson := by
  change Policy.fromJson sampleForeign.policyJson (opsPolicy.toJson sampleForeign.policyJson) =
    .ok opsPolicy
  decide +kernel

theorem reached_readyState
    (bundle : BackupBundle) (json : String) (fits : BackupBundle → Prop) :
    Reached samplePrimitives (datedForeign bundle json) fits readyState := by
  exact .account (.createToken _ _) trivial (.account (.putPolicy _ _) opsPolicy_rereads
    (.new rfl rfl))

theorem reached_filledState
    (fits : BackupBundle → Prop) :
    Reached samplePrimitives wholeForeign fits filledState :=
  .operate _ (reached_readyState wholeBundle wholeBundleJson fits)

/-- The one time of the samples is written and read back. -/
theorem codecsReread_dated
    {bundle : BackupBundle} {json : String} {s : State samplePrimitives}
    (hbundle : (backupBundle samplePrimitives (datedForeign bundle json) s.keys s.db.store
      s.access (sampleTime 100)).toOption = some bundle)
    (htimes : (s.db.store.versions.rows.all fun r => decide (r.createdAt = 100)) = true) :
    CodecsReread (datedForeign bundle json) s (sampleTime 100) := by
  refine ⟨Base64.decode_encode, ?_, ?_⟩
  · intro bundle' hbundle'
    cases (eq_ok_of_toOption hbundle).symm.trans hbundle'
    simp [datedForeign, bundleForeign, tableEncode, tableDecode]
  · intro r hr t ht
    have hcreated := of_decide_eq_true (List.all_eq_true.mp htimes r hr)
    rw [hcreated] at ht
    have heq : t = sampleTime 100 := by
      cases ht.symm.trans (dif_pos (sampleTime 100).inRange)
      rfl
    rw [heq]
    change tableDecode [(sampleTime 100, "1970-01-01T00:01:40Z")]
      ((if sampleTime 100 = sampleTime 100 then some "1970-01-01T00:01:40Z" else none).getD "") =
        some (sampleTime 100)
    rw [if_pos rfl]
    rfl

theorem appendable_sampleState :
    (sampleState opsPolicy opsDocument).db.log.Appendable :=
  ⟨⟨_, rfl⟩, by decide, by decide, by decide⟩

/-- A daemon under another master key, without secrets. -/
def replacementState : State samplePrimitives :=
  { sampleState opsPolicy opsDocument with
    keys := KeyMaterial.new samplePrimitives ⟨sampleKey 77⟩ 1 }

theorem restoreRuns_replacementState
    (bundle : BackupBundle) (json : String) {n : Nat}
    (hn : n ≤ 2) :
    RestoreRuns (datedForeign bundle json) replacementState sampleConnection n
      sampleRestoreDraws (sampleEnv true) := by
  have hruns : (check sampleForeign replacementState.db.store replacementState.access
        (extractToken sampleForeign sampleConnection.header) sampleConnection.peer
        ⟨.restore, none⟩ (sampleEnv true).gate.checked).isOk = true ∧
      sampleRestoreDraws.id 0 ≠ sampleRestoreDraws.id 1 := by
    decide +kernel
  refine ⟨exists_of_isOk hruns.1, fun _ _ => ⟨rfl, rfl, rfl⟩, ?_, rfl, appendable_sampleState⟩
  intro k hk l hl
  obtain ⟨rfl, rfl⟩ : k = 1 ∧ l = 0 := by omega
  exact hruns.2

/-- A path beside `samplePath`. -/
def cachePath : SecretPath :=
  ⟨"prod/cache", by decide⟩

def thirdVersion : Version :=
  ⟨2 + 1, by decide⟩

def fourthVersion : Version :=
  ⟨3 + 1, by decide⟩

def zoneEast : Tag :=
  ⟨"zone", "east", by decide, by decide⟩

/--
A secret with nothing readable, and one with a tombstone, a soft-deleted
version, a pointer rolled back to the first of two active versions and a tag.
-/
def historyOps : List VaultOp :=
  [.write cachePath (sampleUuid 8) (sampleTime 100) sampleDraws [8] ⟨none, none⟩
      (sampleTime 100),
    .deleteVersion cachePath .current .soft (sampleTime 100),
    .write samplePath (sampleUuid 7) (sampleTime 100) sampleDraws [1, 2, 3] ⟨none, none⟩
      (sampleTime 100),
    .write samplePath (sampleUuid 7) (sampleTime 100) sampleDraws [4] ⟨some "ci", some "moved"⟩
      (sampleTime 100),
    .write samplePath (sampleUuid 7) (sampleTime 100) sampleDraws [5, 6] ⟨none, none⟩
      (sampleTime 100),
    .write samplePath (sampleUuid 7) (sampleTime 100) sampleDraws [7] ⟨none, none⟩
      (sampleTime 100),
    .deleteVersion samplePath (.exact secondVersion) .destroy (sampleTime 100),
    .deleteVersion samplePath (.exact thirdVersion) .soft (sampleTime 100),
    .rollback samplePath firstVersion (sampleTime 100),
    .addTags samplePath [zoneEast] (sampleTime 100)]

def historyState : State samplePrimitives :=
  readyState.withVault (run (VaultOp.step samplePrimitives) readyState.vault historyOps)

/-- What a backup of `historyState` carries. -/
def historyBundle : BackupBundle where
  createdAt := "1970-01-01T00:01:40Z"
  secrets :=
    [{ path := cachePath
       tags := []
       maxVersions := 10
       currentVersion := none
       versions :=
         [⟨firstVersion, .deleted, "1970-01-01T00:01:40Z", none, none, some "CA=="⟩] },
     { path := samplePath
       tags := [zoneEast]
       maxVersions := 10
       currentVersion := some firstVersion
       versions :=
         [⟨firstVersion, .active, "1970-01-01T00:01:40Z", none, none, some "AQID"⟩,
          ⟨secondVersion, .destroyed, "1970-01-01T00:01:40Z", some "ci", some "moved", none⟩,
          ⟨thirdVersion, .deleted, "1970-01-01T00:01:40Z", none, none, some "BQY="⟩,
          ⟨fourthVersion, .active, "1970-01-01T00:01:40Z", none, none, some "Bw=="⟩] }]
  policies := [opsDocument]

/-- The list of policies at the end of a bundle. -/
def opsPoliciesJson : String :=
  ",\"policies\":[\"\x7b\\n  \\\"name\\\": \\\"ops\\\",\\n  \\\"rules\\\": [\\n    \x7b\\n      \\\"path\\\": \\\"**\\\",\\n      \\\"capabilities\\\": [\\n        \\\"read\\\",\\n        \\\"write\\\",\\n        \\\"delete\\\",\\n        \\\"list\\\",\\n        \\\"admin\\\"\\n      ]\\n    \x7d\\n  ]\\n\x7d\"]\x7d"

def historyBundleJson : String :=
  "\x7b\"created_at\":\"1970-01-01T00:01:40Z\",\"secrets\":[\x7b\"path\":\"prod/cache\",\"tags\":[],\"max_versions\":10,\"current_version\":null,\"versions\":[\x7b\"version\":1,\"state\":\"deleted\",\"created_at\":\"1970-01-01T00:01:40Z\",\"created_by\":null,\"comment\":null,\"value\":\"CA==\"\x7d]\x7d,\x7b\"path\":\"prod/db\",\"tags\":[\"zone=east\"],\"max_versions\":10,\"current_version\":1,\"versions\":[\x7b\"version\":1,\"state\":\"active\",\"created_at\":\"1970-01-01T00:01:40Z\",\"created_by\":null,\"comment\":null,\"value\":\"AQID\"\x7d,\x7b\"version\":2,\"state\":\"destroyed\",\"created_at\":\"1970-01-01T00:01:40Z\",\"created_by\":\"ci\",\"comment\":\"moved\",\"value\":null\x7d,\x7b\"version\":3,\"state\":\"deleted\",\"created_at\":\"1970-01-01T00:01:40Z\",\"created_by\":null,\"comment\":null,\"value\":\"BQY=\"\x7d,\x7b\"version\":4,\"state\":\"active\",\"created_at\":\"1970-01-01T00:01:40Z\",\"created_by\":null,\"comment\":null,\"value\":\"Bw==\"\x7d]\x7d]" ++
    opsPoliciesJson

def historyForeign : Foreign :=
  datedForeign historyBundle historyBundleJson

theorem reached_historyState
    (fits : BackupBundle → Prop) :
    Reached samplePrimitives historyForeign fits historyState :=
  (reached_readyState historyBundle historyBundleJson fits).run historyOps

/-- Where rows are stored in their order, the export goes through them as they are. -/
theorem exportSecrets_of_sorted
    {st : Store}
    (hsecrets : st.secrets.rows.Pairwise
      fun a b => decide (utf8 a.path.asStr ≤ utf8 b.path.asStr) = true)
    (hversions : st.versions.rows.Pairwise
      fun a b => decide (a.secretId = b.secretId → a.version.toNat ≤ b.version.toNat) = true) :
    exportSecrets st = st.secrets.rows.mapM (fun s => do
      let tags ← tags st s.path
      let versions ← (st.versionsOf s.id).mapM exportedVersion
      .ok
        { path := s.path, tags, maxVersions := s.maxVersions
          currentVersion := s.currentVersion, versions }) := by
  have hsorted : ∀ id, exportedVersions st id = (st.versionsOf id).mapM exportedVersion := by
    intro id
    unfold exportedVersions
    rw [List.mergeSort_of_pairwise]
    refine (hversions.filter _).imp_of_mem ?_
    intro a b ha hb hle
    have hid := (Store.mem_versionsOf.mp ha).2.trans (Store.mem_versionsOf.mp hb).2.symm
    exact decide_eq_true (of_decide_eq_true hle hid)
  unfold exportSecrets
  rw [List.mergeSort_of_pairwise hsecrets]
  refine congrArg (fun f => List.mapM f st.secrets.rows) (funext fun s => ?_)
  simp only [exportedSecret, hsorted]

theorem historyState_rows :
    (historyState.db.store.secrets.rows.Pairwise
        fun a b => decide (utf8 a.path.asStr ≤ utf8 b.path.asStr) = true) ∧
      (historyState.db.store.versions.rows.Pairwise
        fun a b => decide (a.secretId = b.secretId → a.version.toNat ≤ b.version.toNat) = true) ∧
      (historyState.db.store.versions.rows.all fun r => decide (r.createdAt = 100)) = true ∧
      historyState.db.store.secrets.rows.length = 2 := by
  decide +kernel

theorem backupBundle_historyState :
    (backupBundle samplePrimitives historyForeign historyState.keys historyState.db.store
      historyState.access (sampleTime 100)).toOption = some historyBundle := by
  unfold backupBundle
  rw [exportSecrets_of_sorted historyState_rows.1 historyState_rows.2.1]
  decide +kernel

/-- Two secrets with such a history, backed up under one key and restored under another. -/
theorem backup_restore_sample :
    ∃ response s' response' t',
      (backup samplePrimitives historyForeign sampleConnection "hunter2"
        ⟨some (List.Vector.replicate 16 9), some (sampleNonce 8)⟩ (sampleTime 100)
        (sampleEnv true)).alone historyState = (.ok response, s') ∧
      (restore samplePrimitives historyForeign sampleConnection ⟨"hunter2", response.bundle⟩
        sampleRestoreDraws (sampleEnv true)).alone replacementState = (.ok response', t') ∧
      t'.keys = KeyMaterial.new samplePrimitives ⟨sampleKey 77⟩ 1 ∧
      Reproduces historyForeign historyState t' := by
  obtain ⟨-, -, htimes, hlength⟩ := historyState_rows
  exact backup_restore samplePrimitives_correct (reached_historyState _)
    (codecsReread_dated backupBundle_historyState htimes)
    ⟨by decide, exists_of_isOk (by decide +kernel), ⟨_, _, _, rfl, rfl, rfl⟩, rfl,
      appendable_sampleState⟩ rfl
    (restoreRuns_replacementState historyBundle historyBundleJson hlength.le)

theorem openRestore_dated
    (bundle : BackupBundle) (json : String) :
    openRestore samplePrimitives (datedForeign bundle json)
      ⟨"hunter2", Base64.encode (sampleSealed json)⟩ = .ok bundle :=
  openRestore_sample bundle json

/-- A bundle whose one version is marked as destroyed and carries a value. -/
def ladenBundle : BackupBundle where
  createdAt := "1970-01-01T00:01:40Z"
  secrets :=
    [{ path := samplePath
       tags := []
       maxVersions := 10
       currentVersion := none
       versions :=
         [⟨firstVersion, .destroyed, "1970-01-01T00:01:40Z", none, none, some "AQID"⟩] }]
  policies := [opsDocument]

def ladenBundleJson : String :=
  "\x7b\"created_at\":\"1970-01-01T00:01:40Z\",\"secrets\":[\x7b\"path\":\"prod/db\",\"tags\":[],\"max_versions\":10,\"current_version\":null,\"versions\":[\x7b\"version\":1,\"state\":\"destroyed\",\"created_at\":\"1970-01-01T00:01:40Z\",\"created_by\":null,\"comment\":null,\"value\":\"AQID\"\x7d]\x7d]" ++
    opsPoliciesJson

def ladenForeign : Foreign :=
  datedForeign ladenBundle ladenBundleJson

/-- What a restore of it leaves. -/
def ladenState : State samplePrimitives :=
  (importBundle samplePrimitives ladenForeign readyState ladenBundle sampleRestoreDraws).2

/-- What there is to compute of it: its backup, and what a restore of that backup leaves. -/
theorem ladenState_runs :
    (backupBundle samplePrimitives ladenForeign ladenState.keys ladenState.db.store
        ladenState.access (sampleTime 100)).toOption = some ladenBundle ∧
      (ladenState.db.store.versions.rows.all fun r => decide (r.createdAt = 100)) = true ∧
      readable ladenForeign.policyJson ladenBundle.policies = [opsPolicy] ∧
      (check ladenForeign ladenState.db.store ladenState.access
        (extractToken ladenForeign sampleConnection.header) sampleConnection.peer ⟨.backup, none⟩
        (sampleEnv true).gate.checked).isOk = true ∧
      (restoreSecrets samplePrimitives ladenForeign replacementState.keys sampleRestoreDraws 0
        ladenBundle.secrets replacementState.db.store).1.isOk = true ∧
      ((restoreSecrets samplePrimitives ladenForeign replacementState.keys sampleRestoreDraws 0
        ladenBundle.secrets replacementState.db.store).2.versions.rows.any fun r =>
          decide (r.state = .destroyed ∧ r.ciphertext ≠ none)) = true := by
  decide +kernel

theorem reached_ladenState :
    Reached samplePrimitives ladenForeign (fun _ => True) ladenState := by
  refine .restore ladenBundle sampleRestoreDraws
    (reached_readyState ladenBundle ladenBundleJson _) trivial ?_
  obtain ⟨-, -, hreadable, -⟩ := ladenState_runs
  intro q hq
  rw [hreadable] at hq
  obtain rfl := List.mem_singleton.mp hq
  exact opsPolicy_rereads

theorem codecsReread_ladenState :
    CodecsReread ladenForeign ladenState (sampleTime 100) :=
  codecsReread_dated ladenState_runs.1 ladenState_runs.2.1

theorem backupRuns_ladenState :
    BackupRuns ladenForeign ladenState sampleConnection "hunter2"
      ⟨some (List.Vector.replicate 16 9), some (sampleNonce 8)⟩ (sampleEnv true) := by
  have hlog : ladenState.db.log.Appendable := by
    unfold ladenState
    rw [log_importBundle]
    exact appendable_sampleState
  obtain ⟨-, -, -, hcheck, -⟩ := ladenState_runs
  exact ⟨by decide, exists_of_isOk hcheck, ⟨_, _, _, rfl, rfl, rfl⟩, rfl, hlog⟩

/-- A tombstone that is restored with a value keeps it, through a backup and another restore. -/
theorem laden_tombstone_restored :
    Reached samplePrimitives ladenForeign (fun _ => True) ladenState ∧
      openRestore samplePrimitives ladenForeign
        ⟨"hunter2", Base64.encode (sampleSealed ladenBundleJson)⟩ = .ok ladenBundle ∧
      CodecsReread ladenForeign ladenState (sampleTime 100) ∧
      ∃ response s' response' t',
        (backup samplePrimitives ladenForeign sampleConnection "hunter2"
          ⟨some (List.Vector.replicate 16 9), some (sampleNonce 8)⟩ (sampleTime 100)
          (sampleEnv true)).alone ladenState = (.ok response, s') ∧
        (restore samplePrimitives ladenForeign sampleConnection ⟨"hunter2", response.bundle⟩
          sampleRestoreDraws (sampleEnv true)).alone replacementState = (.ok response', t') ∧
        ¬ Reproduces ladenForeign ladenState t' := by
  obtain ⟨hbundle, -, -, -, hrestored⟩ := ladenState_runs
  have hbundle := eq_ok_of_toOption hbundle
  obtain ⟨sealed, s', hsealed, hran⟩ := backup_runs backupRuns_ladenState hbundle
  have hopen := openRestore_sealed samplePrimitives_correct
    (codecsReread_ladenState.base64 sealed) (codecsReread_ladenState.json ladenBundle hbundle)
    hsealed
  have hrestorable : Restorable ladenForeign sampleRestoreDraws 0 ladenBundle.secrets
      replacementState.db.store := by
    obtain ⟨⟨⟩, h⟩ := exists_of_isOk hrestored.1
    exact (restoreSecrets_isOk_iff ladenForeign _ _ _ _ _).mp h
  have hpolicies : ∀ document ∈ ladenBundle.policies,
      ∃ policy, Policy.fromJson ladenForeign.policyJson document = .ok policy := by
    intro document hdocument
    obtain rfl := List.mem_singleton.mp hdocument
    exact ⟨opsPolicy, opsPolicy_rereads⟩
  have hruns : RestoreRuns ladenForeign replacementState sampleConnection 2 sampleRestoreDraws
      (sampleEnv true) :=
    restoreRuns_replacementState ladenBundle ladenBundleJson le_rfl
  obtain ⟨response', t', acc, hran', hkeys, hstore, -⟩ :=
    restore_runs hruns rfl hopen hrestorable hpolicies
  refine ⟨reached_ladenState, openRestore_dated ladenBundle ladenBundleJson,
    codecsReread_ladenState, _, s', response', t', hran, hran', ?_⟩
  intro hsame
  rw [hstore] at hrestored
  obtain ⟨r, hr, hladen⟩ := List.any_eq_true.mp hrestored.2
  obtain ⟨hdestroyed, hciphertext⟩ := of_decide_eq_true hladen
  exact hciphertext (hsame.cleared r hr hdestroyed).2.1

end Samples

end Service
end Secretbae
