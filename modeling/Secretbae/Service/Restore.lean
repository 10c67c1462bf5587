import Secretbae.Service.Recorded
import Secretbae.Service.Maintenance
import Secretbae.Store.Import
import Secretbae.Store.TokenRuns
import Secretbae.Lib.Base64

/-!
# What a restore stores

`restore` imports one secret after another and then puts the policies.
`restoreSecrets_isOk_iff` and `restorePolicies_isOk_iff` say which bundles get
through its two loops.  Each pass of a loop commits, so a restore that fails
after its first commit leaves part of the bundle behind:
`failed_restore_unchanged_iff` says for which bundles and states this cannot
happen.
-/

namespace Secretbae
namespace Service

open Lib Proto Core Audit Storage Policies
open Daemon (KeyMaterial Database PeerCredentials Denied ApiError recordEntry)

/-- A version of a bundle that can be sealed again. -/
def BackupVersion.Sealable (F : Foreign) (draws : SealDraws) (v : BackupVersion) : Prop :=
  ∀ value, v.value = some value →
    (∃ plaintext, F.base64Decode value = some plaintext) ∧ draws.Complete

/-- The `CHECK` of the versions table accepts what a version is restored to. -/
def BackupVersion.Accepted (v : BackupVersion) : Prop :=
  v.state = .destroyed ∨ v.value ≠ none

/-- A secret of a bundle that can be imported, its path and its id apart. -/
structure BackupSecret.Restorable (F : Foreign) (draws : RestoreDraws) (i : Nat)
    (secret : BackupSecret) : Prop where
  sealable :
    ∀ (j : Nat) (v : BackupVersion), secret.versions[j]? = some v →
      v.Sealable F (draws.draws i j)
  accepted : ∀ v ∈ secret.versions, v.Accepted
  numbers : (secret.versions.map BackupVersion.version).Nodup

section Versions

variable {P : Primitives} {F : Foreign} {keys : KeyMaterial P} {draws : RestoreDraws}

theorem restoreVersion_isOk_iff
    {id : Uuid} {d : SealDraws} {now : UnixTime} {v : BackupVersion} :
    (∃ v', restoreVersion P F keys id d now v = .ok v') ↔ v.Sealable F d := by
  unfold restoreVersion BackupVersion.Sealable
  cases hvalue : v.value with
  | none =>
      exact iff_of_true ⟨_, rfl⟩ (by simp)
  | some value =>
      cases hdecode : F.base64Decode value with
      | none =>
          simp [hdecode, bind, Except.bind]
      | some plaintext =>
          have hseal : (∃ sealed, SealedVersion.seal P d keys.master keys.generation
              ⟨id, v.version.get⟩ plaintext = .ok sealed) ↔ d.Complete :=
            SealedVersion.seal_isOk_iff
          simp only [hdecode, Option.some.injEq, forall_eq', exists_eq', true_and]
          rw [← hseal]
          cases SealedVersion.seal P d keys.master keys.generation ⟨id, v.version.get⟩
            plaintext <;> simp [bind, Except.bind]

/-- What a version is restored to. -/
theorem restoreVersion_eq_ok
    {id : Uuid} {d : SealDraws} {now : UnixTime} {v : BackupVersion} {v' : ExportedVersion}
    (h : restoreVersion P F keys id d now v = .ok v') :
    v'.version = v.version ∧ v'.state = v.state ∧
      v'.createdAt = parseRfc3339 F v.createdAt now ∧ v'.createdBy = v.createdBy ∧
      v'.comment = v.comment ∧
      ((v.value = none ∧ v'.sealed = none) ∨
        ∃ value plaintext sealed, v.value = some value ∧
          F.base64Decode value = some plaintext ∧
          SealedVersion.seal P d keys.master keys.generation ⟨id, v.version.get⟩ plaintext =
            .ok sealed ∧ v'.sealed = some sealed) := by
  unfold restoreVersion at h
  split at h
  · rename_i hvalue
    cases h
    exact ⟨rfl, rfl, rfl, rfl, rfl, .inl ⟨hvalue, rfl⟩⟩
  · rename_i value hvalue
    split at h
    · cases h
    · rename_i plaintext hdecode
      split at h
      · cases h
      · rename_i sealed hseal
        cases h
        exact ⟨rfl, rfl, rfl, rfl, rfl,
          .inr ⟨value, plaintext, sealed, hvalue, hdecode, hseal, rfl⟩⟩

theorem restoreVersion_accepted
    {id : Uuid} {d : SealDraws} {now : UnixTime} {v : BackupVersion} {v' : ExportedVersion}
    (h : restoreVersion P F keys id d now v = .ok v') :
    v'.Accepted ↔ v.Accepted := by
  obtain ⟨-, hstate, -, -, -, hsealed⟩ := restoreVersion_eq_ok h
  unfold ExportedVersion.Accepted BackupVersion.Accepted
  rw [hstate]
  rcases hsealed with ⟨hnone, hnone'⟩ | ⟨value, plaintext, sealed, hsome, -, -, hsome'⟩
  · rw [hnone, hnone']
    simp
  · rw [hsome, hsome']
    simp

theorem restoreVersions_isOk_iff
    {i j : Nat} {vs : List BackupVersion} :
    (∃ vs', restoreVersions P F keys draws i j vs = .ok vs') ↔
      ∀ (k : Nat) (v : BackupVersion), vs[k]? = some v →
        v.Sealable F (draws.draws i (j + k)) := by
  induction vs generalizing j with
  | nil =>
      exact iff_of_true ⟨[], rfl⟩ (by simp)
  | cons v vs ih =>
      constructor
      · rintro ⟨vs', h⟩ k w hw
        obtain ⟨v', hv, h⟩ := bind_eq_ok.mp h
        obtain ⟨rest, hrest, -⟩ := bind_eq_ok.mp h
        cases k with
        | zero =>
            cases hw
            exact restoreVersion_isOk_iff.mp ⟨v', hv⟩
        | succ k =>
            have := ih.mp ⟨rest, hrest⟩ k w hw
            rwa [Nat.add_right_comm, Nat.add_assoc] at this
      · intro h
        obtain ⟨v', hv⟩ : ∃ v', restoreVersion P F keys (draws.id i) (draws.draws i j)
            (draws.fallback i j) v = .ok v' :=
          restoreVersion_isOk_iff.mpr (h 0 v rfl)
        obtain ⟨rest, hrest⟩ :
            ∃ rest, restoreVersions P F keys draws i (j + 1) vs = .ok rest := by
          refine ih.mpr ?_
          intro k w hw
          have := h (k + 1) w hw
          rwa [Nat.add_right_comm, Nat.add_assoc]
        exact ⟨v' :: rest, bind_eq_ok.mpr ⟨v', hv, bind_eq_ok.mpr ⟨rest, hrest, rfl⟩⟩⟩

/-- The loop over the versions of a secret restores each of them. -/
theorem restoreVersions_eq_ok
    {i j : Nat} {vs : List BackupVersion} {vs' : List ExportedVersion}
    (h : restoreVersions P F keys draws i j vs = .ok vs') :
    List.Forall₂
      (fun v v' => ∃ d now, restoreVersion P F keys (draws.id i) d now v = .ok v') vs vs' := by
  induction vs generalizing j vs' with
  | nil =>
      cases h
      exact .nil
  | cons v vs ih =>
      obtain ⟨v', hv, h⟩ := bind_eq_ok.mp h
      obtain ⟨rest, hrest, h⟩ := bind_eq_ok.mp h
      cases h
      exact .cons ⟨_, _, hv⟩ (ih hrest)

/-- Restored versions have the numbers of the bundle. -/
theorem restoreVersions_numbers
    {id : Uuid} {vs : List BackupVersion} {vs' : List ExportedVersion}
    (h : List.Forall₂
      (fun v v' => ∃ d now, restoreVersion P F keys id d now v = .ok v') vs vs') :
    vs'.map ExportedVersion.version = vs.map BackupVersion.version :=
  forall₂_map_eq (fun _ _ ⟨_, _, hv⟩ => (restoreVersion_eq_ok hv).1) h

end Versions

/-- The secrets of a bundle, from its `i`-th on, can all be imported into a store. -/
structure Restorable (F : Foreign) (draws : RestoreDraws) (i : Nat)
    (secrets : List BackupSecret) (store : Store) : Prop where
  each :
    ∀ (k : Nat) (secret : BackupSecret), secrets[k]? = some secret →
      secret.Restorable F draws (i + k)
  paths : (secrets.map BackupSecret.path).Nodup
  newPaths : ∀ secret ∈ secrets, ∀ s ∈ store.secrets.rows, s.path ≠ secret.path
  ids : ∀ k < secrets.length, ∀ l < k, draws.id (i + l) ≠ draws.id (i + k)
  newIds : ∀ k < secrets.length, ∀ s ∈ store.secrets.rows, s.id ≠ draws.id (i + k)

section Secrets

variable {P : Primitives} {F : Foreign} {keys : KeyMaterial P} {draws : RestoreDraws}

/-- Which secrets the body of the loop imports. -/
theorem restoreSecret_isOk_iff
    {i : Nat} {secret : BackupSecret} {store : Store} :
    (∃ store', restoreSecret P F keys draws i secret store = .ok store') ↔
      secret.Restorable F draws i ∧ (∀ s ∈ store.secrets.rows, s.path ≠ secret.path) ∧
        ∀ s ∈ store.secrets.rows, s.id ≠ draws.id i := by
  have hsealable : (∃ vs', restoreVersions P F keys draws i 0 secret.versions = .ok vs') ↔
      ∀ (k : Nat) (v : BackupVersion), secret.versions[k]? = some v →
        v.Sealable F (draws.draws i k) := by
    have h : (∃ vs', restoreVersions P F keys draws i 0 secret.versions = .ok vs') ↔ _ :=
      restoreVersions_isOk_iff
    simpa only [Nat.zero_add] using h
  constructor
  · rintro ⟨store', h⟩
    obtain ⟨versions, hversions, h⟩ := bind_eq_ok.mp h
    obtain ⟨hpath, hid, haccepted, hnodup⟩ :=
      importSecretWithId_isOk_iff.mp ⟨store', mapError_eq_ok.mp h⟩
    have hall := restoreVersions_eq_ok hversions
    refine ⟨⟨hsealable.mp ⟨versions, hversions⟩, ?_, ?_⟩, hpath, hid⟩
    · intro v hv
      obtain ⟨v', hv', d, now, hrestore⟩ := forall₂_mem_left hall hv
      exact (restoreVersion_accepted hrestore).mp (haccepted v' hv')
    · rwa [← restoreVersions_numbers hall]
  · rintro ⟨hsecret, hpath, hid⟩
    obtain ⟨versions, hversions⟩ := hsealable.mpr hsecret.sealable
    have hall := restoreVersions_eq_ok hversions
    obtain ⟨store', himport⟩ : ∃ store', importSecretWithId store (draws.id i)
        ⟨secret.path, secret.tags, secret.maxVersions, secret.currentVersion, versions⟩
        (draws.imported i) = .ok store' := by
      refine importSecretWithId_isOk_iff.mpr ⟨hpath, hid, ?_, ?_⟩
      · intro v' hv'
        obtain ⟨v, hv, d, now, hrestore⟩ := forall₂_mem_right hall hv'
        exact (restoreVersion_accepted hrestore).mpr (hsecret.accepted v hv)
      · rw [restoreVersions_numbers hall]
        exact hsecret.numbers
    exact ⟨store', bind_eq_ok.mpr ⟨versions, hversions, mapError_eq_ok.mpr himport⟩⟩

/-- An import adds one row, under the path of the secret and the id drawn for it. -/
theorem restoreSecret_rows
    {i : Nat} {secret : BackupSecret} {store store' : Store}
    (h : restoreSecret P F keys draws i secret store = .ok store') :
    (∃ row : SecretRow, row.path = secret.path ∧ row.id = draws.id i ∧
        ∀ s, s ∈ store'.secrets.rows ↔ s ∈ store.secrets.rows ∨ s = row) ∧
      store'.secrets.rows.length = store.secrets.rows.length + 1 := by
  obtain ⟨versions, -, h⟩ := bind_eq_ok.mp h
  obtain ⟨-, hrows, -, hlength, -⟩ := importSecretWithId_eq_ok (mapError_eq_ok.mp h)
  exact ⟨⟨_, rfl, rfl, hrows⟩, hlength⟩

/-- What it takes to import a first secret and then the rest. -/
theorem restorable_cons_iff
    {i : Nat} {secret : BackupSecret} {secrets : List BackupSecret} {store store' : Store}
    {row : SecretRow}
    (hpath : row.path = secret.path)
    (hid : row.id = draws.id i)
    (hrows : ∀ s, s ∈ store'.secrets.rows ↔ s ∈ store.secrets.rows ∨ s = row)
    (hfirst : secret.Restorable F draws i ∧
      (∀ s ∈ store.secrets.rows, s.path ≠ secret.path) ∧
        ∀ s ∈ store.secrets.rows, s.id ≠ draws.id i) :
    Restorable F draws i (secret :: secrets) store ↔
      Restorable F draws (i + 1) secrets store' := by
  have hshift : ∀ k, i + 1 + k = i + (k + 1) := by
    intro k
    omega
  constructor
  · intro h
    refine ⟨?_, (List.nodup_cons.mp h.paths).2, ?_, ?_, ?_⟩
    · intro k s hs
      rw [hshift]
      exact h.each (k + 1) s hs
    · intro s hs r hr
      rcases (hrows r).mp hr with hr | rfl
      · exact h.newPaths s (by simp [hs]) r hr
      · rw [hpath]
        intro heq
        exact (List.nodup_cons.mp h.paths).1 (List.mem_map.mpr ⟨s, hs, heq.symm⟩)
    · intro k hk l hl
      rw [hshift, hshift]
      exact h.ids (k + 1) (by simpa using hk) (l + 1) (by omega)
    · intro k hk r hr
      rw [hshift]
      rcases (hrows r).mp hr with hr | rfl
      · exact h.newIds (k + 1) (by simpa using hk) r hr
      · rw [hid]
        exact h.ids (k + 1) (by simpa using hk) 0 (by omega)
  · intro h
    obtain ⟨hsecret, hnewPath, hnewId⟩ := hfirst
    have hold : ∀ s ∈ store.secrets.rows, s ∈ store'.secrets.rows :=
      fun s hs => (hrows s).mpr (.inl hs)
    have hrow : row ∈ store'.secrets.rows := (hrows row).mpr (.inr rfl)
    refine ⟨?_, ?_, ?_, ?_, ?_⟩
    · intro k s hs
      cases k with
      | zero =>
          cases hs
          exact hsecret
      | succ k =>
          rw [← hshift]
          exact h.each k s hs
    · refine List.nodup_cons.mpr ⟨?_, h.paths⟩
      intro hmem
      obtain ⟨s, hs, heq⟩ := List.mem_map.mp hmem
      exact h.newPaths s hs row hrow (hpath.trans heq.symm)
    · intro s hs r hr
      rcases List.mem_cons.mp hs with rfl | hs
      · exact hnewPath r hr
      · exact h.newPaths s hs r (hold r hr)
    · intro k hk l hl
      cases k with
      | zero => omega
      | succ k =>
          have hk' : k < secrets.length := by simpa using hk
          rw [← hshift]
          cases l with
          | zero =>
              have := h.newIds k hk' row hrow
              rwa [hid] at this
          | succ l =>
              rw [← hshift]
              exact h.ids k hk' l (by omega)
    · intro k hk r hr
      cases k with
      | zero => exact hnewId r hr
      | succ k =>
          rw [← hshift]
          exact h.newIds k (by simpa using hk) r (hold r hr)

/-- The head of a list of secrets that can be imported. -/
theorem Restorable.head
    {i : Nat} {secret : BackupSecret} {secrets : List BackupSecret} {store : Store}
    (h : Restorable F draws i (secret :: secrets) store) :
    secret.Restorable F draws i ∧ (∀ s ∈ store.secrets.rows, s.path ≠ secret.path) ∧
      ∀ s ∈ store.secrets.rows, s.id ≠ draws.id i :=
  ⟨h.each 0 secret rfl, h.newPaths secret (by simp), h.newIds 0 (by simp)⟩

theorem Restorable.first
    {i : Nat} {secret : BackupSecret} {secrets : List BackupSecret} {store : Store}
    (h : Restorable F draws i (secret :: secrets) store) :
    Restorable F draws i [secret] store := by
  refine ⟨?_, by simp, by simpa using h.head.2.1, by simp, by simpa using h.head.2.2⟩
  intro k s hs
  cases k with
  | zero => exact h.each 0 s hs
  | succ k => cases hs

variable (F keys draws)

/-- The loop over the secrets runs to its end exactly for bundles that can be imported. -/
theorem restoreSecrets_isOk_iff
    (i : Nat) (secrets : List BackupSecret) (store : Store) :
    (restoreSecrets P F keys draws i secrets store).1 = .ok () ↔
      Restorable F draws i secrets store := by
  induction secrets generalizing i store with
  | nil =>
      exact iff_of_true rfl ⟨by simp, by simp, by simp, by simp, by simp⟩
  | cons secret secrets ih =>
      unfold restoreSecrets
      cases hsecret : restoreSecret P F keys draws i secret store with
      | error e =>
          refine iff_of_false (by simp) ?_
          intro h
          obtain ⟨store', hok⟩ := restoreSecret_isOk_iff.mpr h.head
          rw [hsecret] at hok
          cases hok
      | ok store' =>
          obtain ⟨⟨row, hpath, hid, hrows⟩, -⟩ := restoreSecret_rows hsecret
          have hfirst := restoreSecret_isOk_iff.mp ⟨store', hsecret⟩
          rw [restorable_cons_iff hpath hid hrows hfirst]
          exact ih (i + 1) store'

/-- Rows are only added by the loop over the secrets. -/
theorem length_le_restoreSecrets
    (i : Nat) (secrets : List BackupSecret) (store : Store) :
    store.secrets.rows.length ≤
      (restoreSecrets P F keys draws i secrets store).2.secrets.rows.length := by
  induction secrets generalizing i store with
  | nil =>
      exact le_rfl
  | cons secret secrets ih =>
      unfold restoreSecrets
      cases hsecret : restoreSecret P F keys draws i secret store with
      | error e =>
          exact le_rfl
      | ok store' =>
          obtain ⟨-, hlength⟩ := restoreSecret_rows hsecret
          exact (by omega : store.secrets.rows.length ≤ store'.secrets.rows.length).trans
            (ih (i + 1) store')

/-- The loop leaves the store as it was exactly if its first import fails. -/
theorem restoreSecrets_cons_eq_iff
    (i : Nat) (secret : BackupSecret) (secrets : List BackupSecret) (store : Store) :
    (restoreSecrets P F keys draws i (secret :: secrets) store).2 = store ↔
      ¬ Restorable F draws i [secret] store := by
  rw [← restoreSecrets_isOk_iff F keys]
  unfold restoreSecrets
  cases hsecret : restoreSecret P F keys draws i secret store with
  | error e =>
      simp
  | ok store' =>
      obtain ⟨-, hlength⟩ := restoreSecret_rows hsecret
      have hle := length_le_restoreSecrets F keys draws (i + 1) secrets store'
      refine iff_of_false ?_ (by simp [restoreSecrets])
      intro heq
      simp only at heq
      rw [heq] at hle
      omega

end Secrets

/-- The policies of a list of documents, up to the first that does not parse. -/
def readable (J : PolicyJson) : List String → List Policy
  | [] => []
  | document :: documents =>
      match Policy.fromJson J document with
      | .ok policy => policy :: readable J documents
      | .error _ => []

/-- A row after all of these policies have been put. -/
def redocumentAll (J : PolicyJson) (policies : List Policy) (row : PolicyRow) : PolicyRow :=
  policies.foldl (fun row policy => row.redocument policy.name (policy.toJson J)) row

/-- Putting these policies leaves the rows as they are. -/
structure Settled (J : PolicyJson) (rows : List PolicyRow) (policies : List Policy) : Prop where
  known : ∀ policy ∈ policies, policy.name ∈ rows.map PolicyRow.name
  same :
    ∀ row ∈ rows, ∀ policy ∈ (policies.filter fun policy => policy.name = row.name).getLast?,
      policy.toJson J = row.document

section Policies

variable {F : Foreign} {draws : RestoreDraws}

/-- A document of a loop over policies is put, or ends the loop. -/
theorem restorePolicy_cases
    (now : UnixTime) (document : String) (acc : Access) :
    (∃ policy acc', Policy.fromJson F.policyJson document = .ok policy ∧
        putPolicy F.policyJson acc policy now = .ok acc' ∧
        restorePolicy F now document acc = .ok acc') ∨
      ∃ e, Policy.fromJson F.policyJson document = .error e ∧
        restorePolicy F now document acc =
          .error (badRequest "bundle contains an unparseable policy") := by
  unfold restorePolicy
  cases hparse : Policy.fromJson F.policyJson document with
  | error e =>
      exact .inr ⟨e, rfl, rfl⟩
  | ok policy =>
      obtain ⟨acc', hput⟩ := putPolicy_isOk F.policyJson acc policy now
      exact .inl ⟨policy, acc', rfl, hput, by simp [hput, Except.mapError]⟩

theorem restorePolicies_isOk_iff
    {i : Nat} {documents : List String} {acc : Access} :
    (restorePolicies F draws i documents acc).1 = .ok () ↔
      ∀ document ∈ documents, ∃ policy, Policy.fromJson F.policyJson document = .ok policy := by
  induction documents generalizing i acc with
  | nil =>
      exact iff_of_true rfl (by simp)
  | cons document documents ih =>
      unfold restorePolicies
      rcases restorePolicy_cases (draws.stored i) document acc with
        ⟨policy, acc', hparse, -, heq⟩ | ⟨e, hparse, heq⟩
      · rw [heq]
        simp [ih, hparse]
      · rw [heq]
        simp [hparse]

variable (draws)

/-- The names of the policies after the loop over them. -/
theorem restorePolicies_names
    (i : Nat) (documents : List String) (acc : Access) (name : String) :
    name ∈ (restorePolicies F draws i documents acc).2.policies.rows.map PolicyRow.name ↔
      name ∈ acc.policies.rows.map PolicyRow.name ∨
        ∃ policy ∈ readable F.policyJson documents, name = policy.name := by
  induction documents generalizing i acc with
  | nil =>
      simp [restorePolicies, readable]
  | cons document documents ih =>
      unfold restorePolicies readable
      rcases restorePolicy_cases (draws.stored i) document acc with
        ⟨policy, acc', hparse, hput, heq⟩ | ⟨e, hparse, heq⟩
      · rw [heq, hparse]
        simp only [ih, putPolicy_names hput, List.exists_mem_cons_iff, or_assoc]
      · rw [heq, hparse]
        simp

/-- The rows after the loop, where every policy of the bundle is there already. -/
theorem restorePolicies_rows
    (i : Nat) {documents : List String} {acc : Access}
    (hknown : ∀ policy ∈ readable F.policyJson documents,
      policy.name ∈ acc.policies.rows.map PolicyRow.name) :
    (restorePolicies F draws i documents acc).2.policies.rows =
      acc.policies.rows.map (redocumentAll F.policyJson (readable F.policyJson documents)) := by
  induction documents generalizing i acc with
  | nil =>
      exact (List.map_id _).symm
  | cons document documents ih =>
      unfold restorePolicies
      unfold readable at hknown ⊢
      rcases restorePolicy_cases (draws.stored i) document acc with
        ⟨policy, acc', hparse, hput, heq⟩ | ⟨e, hparse, heq⟩
      · rw [heq]
        rw [hparse] at hknown ⊢
        have hrows : acc'.policies.rows =
            acc.policies.rows.map
              (PolicyRow.redocument policy.name (policy.toJson F.policyJson)) := by
          unfold putPolicy at hput
          rw [dif_pos (hknown policy (by simp))] at hput
          cases hput
          rfl
        have hknown' : ∀ policy ∈ readable F.policyJson documents,
            policy.name ∈ acc'.policies.rows.map PolicyRow.name := by
          intro p hp
          exact (putPolicy_names hput p.name).mpr (.inl (hknown p (by simp [hp])))
        simp only [ih (i + 1) hknown', hrows, List.map_map]
        rfl
      · rw [heq, hparse]
        exact (List.map_id _).symm

/-- The last policy of a name decides what the row of that name contains. -/
theorem redocumentAll_eq
    (J : PolicyJson) (policies : List Policy) (row : PolicyRow) :
    redocumentAll J policies row =
      match (policies.filter fun policy => policy.name = row.name).getLast? with
      | none => row
      | some policy => { row with document := policy.toJson J } := by
  induction policies using List.reverseRecOn with
  | nil =>
      rfl
  | append_singleton policies policy ih =>
      have hname : (redocumentAll J policies row).name = row.name := by
        rw [ih]
        split <;> rfl
      rw [redocumentAll, List.foldl_append, List.foldl_cons, List.foldl_nil]
      change (redocumentAll J policies row).redocument policy.name (policy.toJson J) = _
      rw [PolicyRow.redocument, hname, List.filter_append]
      by_cases hpolicy : policy.name = row.name
      · rw [if_pos hpolicy.symm, ih]
        simp only [hpolicy, decide_true, List.filter_cons_of_pos, List.filter_nil,
          List.getLast?_concat]
        split <;> rfl
      · rw [if_neg (Ne.symm hpolicy), ih]
        simp [hpolicy]

/-- The loop over the policies leaves their table as it was exactly if they are settled. -/
theorem restorePolicies_eq_iff
    {i : Nat} {documents : List String} {acc : Access} :
    (restorePolicies F draws i documents acc).2.policies = acc.policies ↔
      Settled F.policyJson acc.policies.rows (readable F.policyJson documents) := by
  constructor
  · intro h
    have hknown : ∀ policy ∈ readable F.policyJson documents,
        policy.name ∈ acc.policies.rows.map PolicyRow.name := by
      intro policy hpolicy
      have hname := (restorePolicies_names draws i documents acc policy.name).mpr
        (.inr ⟨policy, hpolicy, rfl⟩)
      rwa [h] at hname
    refine ⟨hknown, ?_⟩
    have hrows := restorePolicies_rows draws i hknown
    rw [h] at hrows
    intro row hrow policy hlast
    have hfixed : redocumentAll F.policyJson (readable F.policyJson documents) row = id row :=
      List.map_inj_left.mp (hrows.symm.trans (List.map_id _).symm) row hrow
    rw [redocumentAll_eq, Option.mem_def.mp hlast] at hfixed
    exact congrArg PolicyRow.document hfixed
  · intro h
    have hrows : (restorePolicies F draws i documents acc).2.policies.rows =
        acc.policies.rows := by
      rw [restorePolicies_rows draws i h.known]
      refine (List.map_congr_left ?_).trans (List.map_id _)
      intro row hrow
      rw [redocumentAll_eq]
      split
      · rfl
      · rename_i policy hlast
        rw [h.same row hrow policy hlast]
        rfl
    exact Table.ext_rows hrows

end Policies

/-- Everything that a restore stores can be stored, and its audit entry too. -/
structure StoredWhole (F : Foreign) (draws : RestoreDraws) (env : Env) (bundle : BackupBundle)
    {P : Primitives} (s : State P) : Prop where
  secrets : Restorable F draws 0 bundle.secrets s.db.store
  policies :
    ∀ document ∈ bundle.policies, ∃ policy, Policy.fromJson F.policyJson document = .ok policy
  writable : env.writable = true
  log : s.db.log.Appendable

/--
A restore can store nothing: the first secret is refused, or there is none and
the policies are there already.
-/
def NothingStored (F : Foreign) (draws : RestoreDraws) (bundle : BackupBundle)
    {P : Primitives} (s : State P) : Prop :=
  match bundle.secrets with
  | [] => Settled F.policyJson s.access.policies.rows (readable F.policyJson bundle.policies)
  | secret :: _ => ¬ Restorable F draws 0 [secret] s.db.store

section Restore

variable {P : Primitives} {F : Foreign}

/-- A sealed bundle is opened again, where the codecs undo themselves on it. -/
theorem openRestore_sealed
    {draws : BundleDraws} {passphrase : String} {bundle : BackupBundle} {sealed : Bytes}
    (hP : AeadCorrect P)
    (hbase64 : F.base64Decode (F.base64Encode sealed) = some sealed)
    (hjson : F.bundleFromJson (F.bundleToJson bundle) = some bundle)
    (h : sealBundle P F.argon2 draws (utf8 passphrase) (F.bundleToJson bundle) = .ok sealed) :
    openRestore P F ⟨passphrase, F.base64Encode sealed⟩ = .ok bundle := by
  unfold openRestore
  simp only [hbase64, openBundle_sealBundle hP h, hjson]

/-- The section of `restore` leaves the log and the keys alone. -/
theorem importBundle_log
    (s : State P) (bundle : BackupBundle) (draws : RestoreDraws) :
    (importBundle P F s bundle draws).2.db.log = s.db.log := by
  unfold importBundle
  split
  · rfl
  · split <;> rfl

/-- What the section of `restore` does to a store without secrets. -/
theorem importBundle_eq
    {s : State P} (bundle : BackupBundle) (draws : RestoreDraws)
    (hempty : secretCount s.db.store = 0) :
    ((importBundle P F s bundle draws).1 = .ok () ↔
        Restorable F draws 0 bundle.secrets s.db.store ∧ ∀ document ∈ bundle.policies,
          ∃ policy, Policy.fromJson F.policyJson document = .ok policy) ∧
      (((importBundle P F s bundle draws).2.db.store = s.db.store ∧
          (importBundle P F s bundle draws).2.access.policies = s.access.policies) ↔
        NothingStored F draws bundle s) := by
  have hsecrets := restoreSecrets_isOk_iff F s.keys draws 0 bundle.secrets s.db.store
  unfold importBundle NothingStored
  rw [if_neg (by omega)]
  rcases hrun : restoreSecrets P F s.keys draws 0 bundle.secrets s.db.store with ⟨result, store⟩
  rw [hrun] at hsecrets
  cases result with
  | error e =>
      simp only [reduceCtorEq, false_iff] at hsecrets
      refine ⟨by simp [hsecrets], ?_⟩
      cases hlist : bundle.secrets with
      | nil =>
          rw [hlist] at hrun
          cases hrun
      | cons secret secrets =>
          rw [hlist] at hrun
          simp only [and_true]
          rw [← restoreSecrets_cons_eq_iff F s.keys draws 0 secret secrets, hrun]
  | ok _ =>
      simp only [true_iff] at hsecrets
      refine ⟨?_, ?_⟩
      · simp [hsecrets, restorePolicies_isOk_iff]
      · cases hlist : bundle.secrets with
        | nil =>
            rw [hlist] at hrun
            cases hrun
            simp [restorePolicies_eq_iff]
        | cons secret secrets =>
            rw [hlist] at hrun hsecrets
            have hfirst :=
              restoreSecrets_cons_eq_iff F s.keys draws 0 secret secrets s.db.store
            rw [hrun] at hfirst
            have hone := hsecrets.first
            refine iff_of_false ?_ (not_not.mpr hone)
            rintro ⟨hstore, -⟩
            exact hfirst.mp hstore hone

/-- The rest of `restore`, once the gate is passed and the bundle is open. -/
def finishRestore (P : Primitives) (F : Foreign) (caller : Authenticated)
    (bundle : BackupBundle) (draws : RestoreDraws) (env : Env) (s : State P) :
    Except ApiError RestoreResponse × State P :=
  Script.andThen
    (fun _ : Unit => do
      recordOrInternal P caller .restore none none env
      pure
        ({ secrets := bundle.secrets.length
           versions := bundle.versionCount
           policies := bundle.policies.length } : RestoreResponse))
    (importBundle P F (s.touch P caller.tokenId env.gate.touched) bundle draws)

/-- `restore` for a caller that is let through, with a bundle that opens. -/
theorem restore_alone
    {conn : Connection} {request : RestoreRequest} {draws : RestoreDraws} {env : Env}
    {s : State P} {caller : Authenticated} {bundle : BackupBundle}
    (hcheck : check F s.db.store s.access (extractToken F conn.header) conn.peer
      ⟨.restore, none⟩ env.gate.checked = .ok caller)
    (hopen : openRestore P F request = .ok bundle) :
    (restore P F conn request draws env).alone s = finishRestore P F caller bundle draws env s := by
  unfold restore
  simp only [Script.alone_bind, gate_alone, hcheck, hopen, Script.andThen_ok,
    Script.alone_ofExcept, Script.alone_atomically, finishRestore]

/-- `restore` for a caller that is turned away, or with a bundle that does not open. -/
theorem restore_unopened
    {conn : Connection} {request : RestoreRequest} {env : Env} {s : State P}
    (draws : RestoreDraws)
    (h : ∀ caller bundle,
      check F s.db.store s.access (extractToken F conn.header) conn.peer ⟨.restore, none⟩
        env.gate.checked = .ok caller → openRestore P F request = .ok bundle → False) :
    ∃ e s', (restore P F conn request draws env).alone s = (.error e, s') ∧
      s'.db.store = s.db.store ∧ s'.access.policies = s.access.policies := by
  unfold restore
  simp only [Script.alone_bind, gate_alone]
  cases hcheck : check F s.db.store s.access (extractToken F conn.header) conn.peer
      ⟨.restore, none⟩ env.gate.checked with
  | error denied =>
      exact ⟨_, _, rfl, State.append_store .., by rw [State.append_access]⟩
  | ok caller =>
      cases hopen : openRestore P F request with
      | error e =>
          exact ⟨_, _, rfl, rfl, rfl⟩
      | ok bundle =>
          exact absurd hopen (fun hopen => h caller bundle hcheck hopen)

/-- When the rest of `restore` succeeds, and when it leaves everything as it was. -/
theorem restore_outcome
    (caller : Authenticated) (bundle : BackupBundle) (draws : RestoreDraws) (env : Env)
    (s : State P) :
    ((∃ response, (finishRestore P F caller bundle draws env s).1 = .ok response) ↔
        secretCount s.db.store = 0 ∧ StoredWhole F draws env bundle s) ∧
      (((finishRestore P F caller bundle draws env s).2.db.store = s.db.store ∧
          (finishRestore P F caller bundle draws env s).2.access.policies =
            s.access.policies) ↔
        (secretCount s.db.store = 0 → NothingStored F draws bundle s)) := by
  unfold finishRestore
  by_cases hempty : secretCount s.db.store = 0
  swap
  · unfold importBundle
    rw [if_pos (show secretCount (s.touch P caller.tokenId env.gate.touched).db.store > 0 from
      Nat.pos_of_ne_zero hempty)]
    exact ⟨iff_of_false (by simp) (by simp [hempty]),
      iff_of_true ⟨rfl, rfl⟩ (fun h => absurd h hempty)⟩
  obtain ⟨hok, hsame⟩ := importBundle_eq (F := F)
    (s := s.touch P caller.tokenId env.gate.touched) bundle draws hempty
  have hlog := importBundle_log (F := F) (s.touch P caller.tokenId env.gate.touched) bundle draws
  rcases himport : importBundle P F (s.touch P caller.tokenId env.gate.touched) bundle draws with
    ⟨result, t⟩
  rw [himport] at hok hsame hlog
  change t.db.store = s.db.store ∧ t.access.policies = s.access.policies ↔
    NothingStored F draws bundle s at hsame
  change t.db.log = s.db.log at hlog
  simp only [hempty, true_and, true_imp_iff]
  cases result with
  | error e =>
      refine ⟨iff_of_false (by simp) ?_, hsame⟩
      intro h
      exact absurd (hok.mpr ⟨h.secrets, h.policies⟩) (by simp)
  | ok _ =>
      obtain ⟨hsecrets, hpolicies⟩ := hok.mp rfl
      have hcan : (t.append P env.writable (recordEntry env.recorded.seconds
          caller.lookupPrefix caller.peer .restore .success none none)).1 = .ok () ↔
            env.writable = true ∧ s.db.log.Appendable := by
        rw [State.append_isOk_iff, hlog]
      simp only [Script.andThen_ok, Script.alone_bind, recordOrInternal, record,
        Script.alone_mapError, Script.alone_atomically]
      have hstore := t.append_store env.writable (recordEntry env.recorded.seconds
        caller.lookupPrefix caller.peer .restore .success none none)
      have haccess := t.append_access env.writable (recordEntry env.recorded.seconds
        caller.lookupPrefix caller.peer .restore .success none none)
      rcases t.append_cases env.writable (recordEntry env.recorded.seconds caller.lookupPrefix
          caller.peer .restore .success none none) with ⟨log, record, -, -, heq⟩ | ⟨e, heq⟩
      · obtain ⟨hwritable, happendable⟩ := hcan.mp (by rw [heq])
        rw [heq] at hstore haccess ⊢
        refine ⟨iff_of_true ⟨_, rfl⟩ ⟨hsecrets, hpolicies, hwritable, happendable⟩, ?_⟩
        rw [← hsame]
        exact Iff.rfl
      · have hnot : ¬ StoredWhole F draws env bundle s := by
          intro h
          have := hcan.mpr ⟨h.writable, h.log⟩
          rw [heq] at this
          cases this
        rw [heq]
        exact ⟨iff_of_false (by simp [Except.mapError]) hnot, hsame⟩

/--
A failed restore leaves secrets, versions, tags and policies as they were
exactly if, once the bundle is open and the store counts as empty, either all of
it can be stored or nothing of it.
-/
theorem failed_restore_unchanged_iff
    (P : Primitives) (F : Foreign) (conn : Connection) (request : RestoreRequest)
    (draws : RestoreDraws) (env : Env) (s : State P) :
    (∀ e s', (restore P F conn request draws env).alone s = (.error e, s') →
        s'.db.store = s.db.store ∧ s'.access.policies = s.access.policies) ↔
      ∀ caller bundle,
        check F s.db.store s.access (extractToken F conn.header) conn.peer ⟨.restore, none⟩
          env.gate.checked = .ok caller →
        openRestore P F request = .ok bundle →
        secretCount s.db.store = 0 →
        StoredWhole F draws env bundle s ∨ NothingStored F draws bundle s := by
  by_cases hopened : ∃ caller bundle,
      check F s.db.store s.access (extractToken F conn.header) conn.peer ⟨.restore, none⟩
        env.gate.checked = .ok caller ∧ openRestore P F request = .ok bundle
  swap
  · have hnever := fun caller bundle hcheck hopen => hopened ⟨caller, bundle, hcheck, hopen⟩
    obtain ⟨e, s', halone, hsame⟩ := restore_unopened draws hnever
    refine iff_of_true ?_ fun caller bundle hcheck hopen =>
      absurd ⟨caller, bundle, hcheck, hopen⟩ hopened
    intro e' s'' h
    rw [halone] at h
    cases h
    exact hsame
  obtain ⟨caller, bundle, hcheck, hopen⟩ := hopened
  obtain ⟨hok, hsame⟩ := restore_outcome (F := F) caller bundle draws env s
  rw [restore_alone hcheck hopen]
  rcases hfinish : finishRestore P F caller bundle draws env s with ⟨result, t⟩
  rw [hfinish] at hok hsame
  constructor
  · intro h caller' bundle' hcheck' hopen' hempty
    rw [hcheck] at hcheck'
    rw [hopen] at hopen'
    cases hcheck'
    cases hopen'
    cases result with
    | error e => exact .inr (hsame.mp (h e t rfl) hempty)
    | ok response => exact .inl (hok.mp ⟨response, rfl⟩).2
  · intro h e s' heq
    cases heq
    refine hsame.mpr fun hempty => ?_
    rcases h caller bundle hcheck hopen hempty with hwhole | hnothing
    · obtain ⟨response, hresponse⟩ := hok.mpr ⟨hempty, hwhole⟩
      cases hresponse
    · exact hnothing

end Restore

section Samples

/-- A bundle with one secret, and a policy that does not parse. -/
def brokenBundle : BackupBundle where
  createdAt := "1970-01-01T00:01:40Z"
  secrets :=
    [{ path := samplePath
       tags := []
       maxVersions := 10
       currentVersion := some firstVersion
       versions :=
         [⟨firstVersion, .active, "1970-01-01T00:01:30Z", none, none, some "AQID"⟩] }]
  policies := ["nonsense"]

def brokenBundleJson : String :=
  "\x7b\"created_at\":\"1970-01-01T00:01:40Z\",\"secrets\":[\x7b\"path\":\"prod/db\",\"tags\":[],\"max_versions\":10,\"current_version\":1,\"versions\":[\x7b\"version\":1,\"state\":\"active\",\"created_at\":\"1970-01-01T00:01:30Z\",\"created_by\":null,\"comment\":null,\"value\":\"AQID\"\x7d]\x7d],\"policies\":[\"nonsense\"]\x7d"

/-- The functions of other crates, with one bundle that they know. -/
def bundleForeign (bundle : BackupBundle) (json : String) : Foreign :=
  { sampleForeign with
    base64Encode := Base64.encode
    base64Decode := Base64.decode
    bundleToJson := tableEncode [(bundle, utf8 json)] []
    bundleFromJson := tableDecode [(bundle, utf8 json)] }

/-- What `backup` seals the text of a bundle to, under the passphrase `hunter2`. -/
def sampleSealed (json : String) : Bytes :=
  match sealBundle samplePrimitives sampleForeign.argon2
      ⟨some (List.Vector.replicate 16 9), some (sampleNonce 8)⟩ (utf8 "hunter2")
      (utf8 json) with
  | .ok sealed => sealed
  | .error _ => []

theorem openRestore_sample
    (bundle : BackupBundle) (json : String) :
    openRestore samplePrimitives (bundleForeign bundle json)
      ⟨"hunter2", Base64.encode (sampleSealed json)⟩ = .ok bundle := by
  have hencode : (bundleForeign bundle json).bundleToJson bundle = utf8 json := by
    simp [bundleForeign, tableEncode]
  have hsealed : sealBundle samplePrimitives (bundleForeign bundle json).argon2
      ⟨some (List.Vector.replicate 16 9), some (sampleNonce 8)⟩ (utf8 "hunter2")
      ((bundleForeign bundle json).bundleToJson bundle) = .ok (sampleSealed json) := by
    have hpassphrase : utf8 "hunter2" ≠ [] := by decide +kernel
    rw [hencode]
    simp [sampleSealed, bundleForeign, sealBundle, hpassphrase, generateSalt,
      deriveFromPassphrase, sampleForeign, aeadSeal, bind, Except.bind]
  refine openRestore_sealed samplePrimitives_correct (Base64.decode_encode _) ?_ hsealed
  rw [hencode]
  simp [bundleForeign, tableDecode]

def sampleRestoreDraws : RestoreDraws where
  id i := sampleUuid (40 + i)
  draws _ _ := sampleDraws
  fallback _ _ := sampleTime 100
  imported _ := sampleTime 100
  stored _ := sampleTime 100

/-- The restore fails at the policy, and its secret is in the store. -/
theorem restore_leaves_secret :
    ¬ ∀ e s', (restore samplePrimitives (bundleForeign brokenBundle brokenBundleJson)
        sampleConnection ⟨"hunter2", Base64.encode (sampleSealed brokenBundleJson)⟩
        sampleRestoreDraws (sampleEnv true)).alone (sampleState opsPolicy opsDocument) =
          (.error e, s') →
      s'.db.store = (sampleState opsPolicy opsDocument).db.store ∧
        s'.access.policies = (sampleState opsPolicy opsDocument).access.policies := by
  have hrun :
      let F := bundleForeign brokenBundle brokenBundleJson
      let s := sampleState opsPolicy opsDocument
      (match check F s.db.store s.access (extractToken F sampleConnection.header)
          sampleConnection.peer ⟨.restore, none⟩ (sampleEnv true).gate.checked with
      | .error _ => false
      | .ok caller =>
          match importBundle samplePrimitives F (s.touch samplePrimitives caller.tokenId
              (sampleEnv true).gate.touched) brokenBundle sampleRestoreDraws with
          | (.ok _, _) => false
          | (.error _, s') =>
              s'.db.store.secrets.rows.length != s.db.store.secrets.rows.length) = true := by
    decide +kernel
  dsimp only at hrun
  intro h
  unfold restore at h
  simp only [Script.alone_bind, gate_alone, openRestore_sample] at h
  split at hrun
  · cases hrun
  rename_i caller hcheck
  simp only [hcheck, Script.andThen_ok, Script.alone_ofExcept, Script.alone_bind,
    Script.alone_atomically] at h
  split at hrun
  · cases hrun
  rename_i e s' himport
  simp only [himport, Script.andThen_error] at h
  rw [(h e s' rfl).1] at hrun
  simp at hrun

end Samples

end Service
end Secretbae
