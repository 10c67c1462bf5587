import Secretbae.Service.Resolve
import Secretbae.Service.Decision

/-!
# Batched resolution is all or nothing

A batch is answered exactly when its caller passes the gate of the batch, every
target passes the gate of its own path and opens, and the entry for the batch
has been written.  `Yields` says, in terms of the tables, what a target opens
to.  The loop of `resolve_secrets` changes nothing but the last use of tokens,
so what holds of the state it starts in holds of every later target.
-/

namespace Secretbae
namespace Service

open Lib Proto Core Audit Storage Policies
open Daemon (KeyMaterial PeerCredentials Denied ApiError deniedMessage selectorOf recordEntry)

section Yields

variable (P : Primitives)

/--
The version that a target names, the pinned one or else the current one, is
active and opens to the plaintext of `item`.
-/
def Yields (keys : KeyMaterial P) (store : Store) (target : ResolveTarget)
    (item : ResolvedSecret) : Prop :=
  ∃ secret row sealed,
    secret ∈ store.secrets.rows ∧ secret.path = target.path ∧
    (selectorOf target.version).pick secret = some item.version ∧
    row ∈ store.versions.rows ∧ row.slot = (secret.id, item.version) ∧
    row.state = .active ∧ row.Holds sealed ∧ inTimeRange row.createdAt ∧
    sealed.openAt P keys.master ⟨secret.id, item.version.get⟩ = .ok item.plaintext ∧
    item.path = target.path

variable {P}

theorem readTarget_eq_ok_iff
    {keys : KeyMaterial P} {store : Store} {target : ResolveTarget} {item : ResolvedSecret} :
    readTarget P keys store target = .ok item ↔ Yields P keys store target item := by
  unfold readTarget
  constructor
  · intro h
    split at h
    · cases h
    rename_i stored hstored
    split at h
    · cases h
    rename_i plaintext hopen
    cases h
    obtain ⟨⟨id, version⟩, hresolve, hstored⟩ := bind_eq_ok.mp hstored
    obtain ⟨row, hrow, hbuild⟩ := bind_eq_ok.mp hstored
    obtain ⟨secret, hsecret, rfl, hpick⟩ := resolve_eq_ok.mp hresolve
    obtain ⟨hmem, hpath⟩ := Store.secretByPath_eq_some_iff.mp hsecret
    obtain ⟨hrowMem, hslot⟩ := Table.find?_eq_some_iff.mp (okOr_eq_ok.mp hrow)
    obtain ⟨hactive, hholds, hbinding, hversion, htime⟩ := buildStoredVersion_eq_ok hbuild
    rw [hbinding] at hopen
    subst hversion
    exact ⟨secret, row, stored.sealed, hmem, hpath, hpick, hrowMem, hslot, hactive, hholds,
      htime, hopen, rfl⟩
  · rintro ⟨secret, row, sealed, hmem, hpath, hpick, hrow, hslot, hactive, hholds, htime,
      hopen, hitem⟩
    have hresolve : Storage.resolve store target.path (selectorOf target.version) =
        .ok (secret.id, item.version) :=
      resolve_eq_ok.mpr
        ⟨secret, Store.secretByPath_eq_some_iff.mpr ⟨hmem, hpath⟩, rfl, hpick⟩
    have hfind : store.versions.find? (secret.id, item.version) = some row :=
      Table.find?_eq_some_iff.mpr ⟨hrow, hslot⟩
    have hread := buildStoredVersion_of_holds secret.id item.version hactive hholds htime
    simp only [readVersion, hresolve, hfind, okOr, hread, bind, Except.bind, hopen]
    rw [← hitem]

end Yields

section Loop

variable {P : Primitives} {F : Foreign} {presented : Except Denied PresentedToken}
  {peer : PeerCredentials} {gates : Nat → GateEnv}

/-- Every target passes the gate of its own path, in the state `s` and at its own time. -/
def TargetsPass (F : Foreign) (s : State P) (presented : Except Denied PresentedToken)
    (peer : PeerCredentials) (gates : Nat → GateEnv) (i : Nat)
    (targets : List ResolveTarget) : Prop :=
  ∀ j target, targets[j]? = some target →
    Accepts F s.db.store s.access presented peer ⟨.resolve, some target.path⟩
      (gates (i + j)).checked

theorem targetsPass_cons
    {s : State P} {i : Nat} {target : ResolveTarget} {targets : List ResolveTarget} :
    TargetsPass F s presented peer gates i (target :: targets) ↔
      Accepts F s.db.store s.access presented peer ⟨.resolve, some target.path⟩
          (gates i).checked ∧
        TargetsPass F s presented peer gates (i + 1) targets := by
  constructor
  · intro h
    refine ⟨h 0 target rfl, ?_⟩
    intro j t ht
    have hpass := h (j + 1) t ht
    rwa [← Nat.add_assoc, Nat.add_right_comm] at hpass
  · rintro ⟨hfirst, hrest⟩ j t ht
    cases j with
    | zero =>
        cases ht
        exact hfirst
    | succ j =>
        have hpass := hrest j t ht
        rwa [Nat.add_right_comm, Nat.add_assoc] at hpass

/-- One call of `authorize` that admits its caller. -/
theorem authorize_alone_ok
    {requested : Requested} {env : GateEnv} {s s' : State P} {caller : Authenticated} :
    (authorize P F presented peer requested env).alone s = (.ok caller, s') ↔
      check F s.db.store s.access presented peer requested env.checked = .ok caller ∧
        s' = s.touch P caller.tokenId env.touched := by
  rw [authorize_alone]
  cases check F s.db.store s.access presented peer requested env.checked with
  | error denied => simp
  | ok caller' =>
      simp only [Prod.mk.injEq, Except.ok.injEq]
      constructor
      · rintro ⟨rfl, rfl⟩
        exact ⟨rfl, rfl⟩
      · rintro ⟨rfl, rfl⟩
        exact ⟨rfl, rfl⟩

/-- What a loop that ends well has found, in the state it started from. -/
theorem resolveTargets_ok
    {s₀ s s' : State P} {i : Nat} {targets : List ResolveTarget}
    {resolved : List ResolvedSecret}
    (hused : s₀.Used s)
    (h : (resolveTargets P F presented peer gates i targets).alone s = (.ok resolved, s')) :
    s₀.Used s' ∧ TargetsPass F s₀ presented peer gates i targets ∧
      List.Forall₂ (Yields P s₀.keys s₀.db.store) targets resolved := by
  induction targets generalizing i s s' resolved with
  | nil =>
      cases h
      exact ⟨hused, fun j target ht => by simp at ht, .nil⟩
  | cons target targets ih =>
      rw [resolveTargets, Script.alone_bind, Script.alone_mapError] at h
      rcases hgate : (authorize P F presented peer ⟨.resolve, some target.path⟩
        (gates i)).alone s with ⟨_ | caller, mid⟩
      · simp [hgate, Except.mapError] at h
      obtain ⟨hcheck, rfl⟩ := authorize_alone_ok.mp hgate
      simp only [hgate, Except.mapError, Script.andThen_ok, Script.alone_bind, fetch,
        Script.alone_atomically, State.touch_keys, State.touch_db] at h
      have hmid := hused.trans (s.used_touch caller.tokenId (gates i).touched)
      rcases hread : readTarget P s.keys s.db.store target with failure | item
      · simp [hread] at h
      simp only [hread, Script.andThen_ok, Script.alone_bind] at h
      rcases hrest : (resolveTargets P F presented peer gates (i + 1) targets).alone
        (s.touch P caller.tokenId (gates i).touched) with ⟨_ | rest, last⟩
      · simp [hrest] at h
      obtain ⟨hlast, hpass, hyields⟩ := ih hmid hrest
      simp only [hrest, Script.andThen_ok, Script.alone_pure, Prod.mk.injEq,
        Except.ok.injEq] at h
      obtain ⟨rfl, rfl⟩ := h
      rw [hused.check_eq] at hcheck
      rw [hused.keys, hused.db] at hread
      exact ⟨hlast, targetsPass_cons.mpr ⟨⟨caller, hcheck⟩, hpass⟩,
        .cons (readTarget_eq_ok_iff.mp hread) hyields⟩

/-- The loop ends well when every target passes its gate and opens. -/
theorem exists_resolveTargets
    {s₀ s : State P} {i : Nat} {targets : List ResolveTarget} {resolved : List ResolvedSecret}
    (hused : s₀.Used s)
    (hpass : TargetsPass F s₀ presented peer gates i targets)
    (hyields : List.Forall₂ (Yields P s₀.keys s₀.db.store) targets resolved) :
    ∃ s', (resolveTargets P F presented peer gates i targets).alone s = (.ok resolved, s') := by
  induction hyields generalizing i s with
  | nil =>
      exact ⟨s, rfl⟩
  | @cons target item targets resolved hitem _ ih =>
      obtain ⟨⟨caller, hcheck⟩, hpass⟩ := targetsPass_cons.mp hpass
      have hread := readTarget_eq_ok_iff.mpr hitem
      rw [← hused.check_eq] at hcheck
      rw [← hused.keys, ← hused.db] at hread
      have hgate := authorize_alone_ok.mpr ⟨hcheck, rfl⟩
      have hmid := hused.trans (s.used_touch caller.tokenId (gates i).touched)
      obtain ⟨s', hrest⟩ := ih hmid hpass
      refine ⟨s', ?_⟩
      rw [resolveTargets, Script.alone_bind, Script.alone_mapError, hgate]
      simp only [Except.mapError, Script.andThen_ok, Script.alone_bind, fetch,
        Script.alone_atomically, State.touch_keys, State.touch_db, hread, hrest,
        Script.alone_pure]

end Loop

section Batch

variable {P : Primitives} {F : Foreign}

/-- The entry that a batch is recorded with. -/
def resolveEntry (caller : Authenticated) (env : Env) : AuditEntry :=
  recordEntry env.recorded.seconds caller.lookupPrefix caller.peer .resolve .success none none

/-- What a batch that is answered has passed, and what it leaves behind. -/
theorem resolveSecrets_ok
    {presented : Except Denied PresentedToken} {peer : PeerCredentials}
    {targets : List ResolveTarget} {env : ResolveEnv} {s s' : State P}
    {resolved : List ResolvedSecret}
    (h : (resolveSecrets P F presented peer targets env).alone s = (.ok resolved, s')) :
    ∃ caller log record,
      check F s.db.store s.access presented peer ⟨.resolve, none⟩ env.batch.gate.checked =
        .ok caller ∧
      TargetsPass F s presented peer env.targets 0 targets ∧
      List.Forall₂ (Yields P s.keys s.db.store) targets resolved ∧
      env.batch.writable = true ∧
      Audit.append P s.db.log s.keys.auditKey (resolveEntry caller env.batch) =
        .ok (log, record) ∧
      s'.db = { s.db with log := log } := by
  rw [resolveSecrets, Script.alone_bind, Script.alone_mapError] at h
  rcases hgate : (authorize P F presented peer ⟨.resolve, none⟩ env.batch.gate).alone s with
    ⟨_ | caller, mid⟩
  · simp [hgate, Except.mapError] at h
  obtain ⟨hcheck, rfl⟩ := authorize_alone_ok.mp hgate
  simp only [hgate, Except.mapError, Script.andThen_ok, Script.alone_bind] at h
  rcases hloop : (resolveTargets P F presented peer env.targets 0 targets).alone
    (s.touch P caller.tokenId env.batch.gate.touched) with ⟨_ | items, last⟩
  · simp [hloop] at h
  obtain ⟨hused, hpass, hyields⟩ := resolveTargets_ok (s.used_touch _ _) hloop
  simp only [hloop, Script.andThen_ok, Script.alone_bind, Script.alone_mapError, record,
    Script.alone_atomically] at h
  rcases last.append_cases env.batch.writable (resolveEntry caller env.batch) with
    ⟨log, record, hwritable, happend, heq⟩ | ⟨e, heq⟩
  · rw [resolveEntry] at heq
    simp only [heq, Except.mapError, Script.andThen_ok, Script.alone_pure, Prod.mk.injEq,
      Except.ok.injEq] at h
    obtain ⟨rfl, rfl⟩ := h
    rw [hused.keys, hused.db] at happend
    exact ⟨caller, log, record, hcheck, hpass, hyields, hwritable, happend, by rw [hused.db]⟩
  · rw [resolveEntry] at heq
    simp [heq, Except.mapError] at h

/-- A batch is answered when every gate passes, every target opens and the entry is written. -/
theorem exists_resolveSecrets
    {presented : Except Denied PresentedToken} {peer : PeerCredentials}
    {targets : List ResolveTarget} {env : ResolveEnv} {s : State P} {caller : Authenticated}
    {resolved : List ResolvedSecret}
    (hcheck : check F s.db.store s.access presented peer ⟨.resolve, none⟩
      env.batch.gate.checked = .ok caller)
    (hpass : TargetsPass F s presented peer env.targets 0 targets)
    (hyields : List.Forall₂ (Yields P s.keys s.db.store) targets resolved)
    (happend : (s.append P env.batch.writable (resolveEntry caller env.batch)).1 = .ok ()) :
    ∃ s', (resolveSecrets P F presented peer targets env).alone s = (.ok resolved, s') := by
  obtain ⟨last, hloop⟩ := exists_resolveTargets
    (s.used_touch caller.tokenId env.batch.gate.touched) hpass hyields
  obtain ⟨hused, -, -⟩ := resolveTargets_ok (s.used_touch _ _) hloop
  have hlast : (last.append P env.batch.writable (resolveEntry caller env.batch)).1 =
      .ok () := by
    unfold State.append at happend ⊢
    rw [hused.db, hused.keys]
    revert happend
    split
    · cases Audit.append P s.db.log s.keys.auditKey (resolveEntry caller env.batch) <;> simp
    · simp
  refine ⟨(last.append P env.batch.writable (resolveEntry caller env.batch)).2, ?_⟩
  rw [resolveSecrets, Script.alone_bind, Script.alone_mapError,
    authorize_alone_ok.mpr ⟨hcheck, rfl⟩]
  simp only [Except.mapError, Script.andThen_ok, Script.alone_bind, hloop, record,
    Script.alone_mapError, Script.alone_atomically]
  rw [← resolveEntry, hlast]
  rfl

/-- Every failure has one of two texts. -/
theorem ResolveFailure.message_cases
    (failure : ResolveFailure) :
    failure.message = deniedMessage ∨ failure.message = "internal error" := by
  cases failure with
  | denied denied => exact .inl rfl
  | store error =>
      change (if _ then _ else _) = _ ∨ (if _ then _ else _) = _
      split
      · exact .inl rfl
      · exact .inr rfl
  | crypto => exact .inr rfl
  | audit error => exact .inr rfl

theorem ResolveFailure.apiError_cases
    (failure : ResolveFailure) :
    failure.apiError = .denied ∨ failure.apiError = .internal := by
  cases failure with
  | denied denied => exact .inl rfl
  | store error =>
      change ApiError.ofStore error = _ ∨ ApiError.ofStore error = _
      unfold ApiError.ofStore
      split
      · exact .inl rfl
      · exact .inr rfl
  | crypto => exact .inr rfl
  | audit error => exact .inr rfl

/--
Batched resolution is all or nothing, in the order of its targets, and recorded
before anything is released; what is not released is not in the answer of
either transport.
-/
theorem batch_resolution
    (P : Primitives) (F : Foreign) (s : State P) (env : ResolveEnv) :
    (∀ (presented : Except Denied PresentedToken) (peer : PeerCredentials)
        (targets : List ResolveTarget),
      ((∃ resolved, ((resolveSecrets P F presented peer targets env).alone s).1 =
          .ok resolved) ↔
        ∃ caller,
          check F s.db.store s.access presented peer ⟨.resolve, none⟩
            env.batch.gate.checked = .ok caller ∧
          (∀ i target, targets[i]? = some target →
            Accepts F s.db.store s.access presented peer ⟨.resolve, some target.path⟩
              (env.targets i).checked ∧
            ∃ item, Yields P s.keys s.db.store target item) ∧
          (s.append P env.batch.writable (resolveEntry caller env.batch)).1 = .ok ()) ∧
      ∀ resolved, ((resolveSecrets P F presented peer targets env).alone s).1 = .ok resolved →
        List.Forall₂ (Yields P s.keys s.db.store) targets resolved ∧
        ∃ caller id prev hash,
          check F s.db.store s.access presented peer ⟨.resolve, none⟩
            env.batch.gate.checked = .ok caller ∧
          ((resolveSecrets P F presented peer targets env).alone s).2.db.log.rows =
            s.db.log.rows ++ [encodeRow id prev hash
              { ts := env.batch.recorded.seconds
                tokenPrefix := some caller.lookupPrefix.text
                peerUid := some peer.uid
                peerPid := some (Daemon.unsignedAbs peer.pid)
                action := .resolve
                path := none
                version := none
                result := .success
                detail := none }]) ∧
    (∀ (conn : Connection) (paths : List SecretPath),
      (∃ resolved,
        ((resolveSecrets P F (extractToken F conn.header) conn.peer
          (paths.map fun path => ⟨path, none⟩) env).alone s).1 = .ok resolved ∧
        ((resolve P F conn paths env).alone s).1 = .ok (resolved.map (resolvedDto F))) ∨
      ((∃ failure,
          ((resolveSecrets P F (extractToken F conn.header) conn.peer
            (paths.map fun path => ⟨path, none⟩) env).alone s).1 = .error failure) ∧
        (((resolve P F conn paths env).alone s).1 = .error .denied ∨
          ((resolve P F conn paths env).alone s).1 = .error .internal))) ∧
    (∀ (peer : PeerCredentials) (token : String) (targets : List ResolveTarget),
      (∃ resolved,
        ((resolveSecrets P F (presentText F token) peer targets env).alone s).1 =
          .ok resolved ∧
        ((handle P F peer env (.ready token targets)).alone s).1 =
          .ok (resolved.flatMap valueFrame)) ∨
      ((∃ failure,
          ((resolveSecrets P F (presentText F token) peer targets env).alone s).1 =
            .error failure) ∧
        (((handle P F peer env (.ready token targets)).alone s).1 =
            .ok (errorFrame deniedMessage) ∨
          ((handle P F peer env (.ready token targets)).alone s).1 =
            .ok (errorFrame "internal error")))) := by
  refine ⟨?_, ?_, ?_⟩
  · intro presented peer targets
    rcases hrun : (resolveSecrets P F presented peer targets env).alone s with
      ⟨failure | resolved, s'⟩
    · refine ⟨?_, ?_⟩
      · refine iff_of_false (by simp) ?_
        rintro ⟨caller, hcheck, htargets, happend⟩
        have hpass : TargetsPass F s presented peer env.targets 0 targets := by
          intro i target ht
          rw [Nat.zero_add]
          exact (htargets i target ht).1
        obtain ⟨resolved, hyields⟩ : ∃ resolved,
            List.Forall₂ (Yields P s.keys s.db.store) targets resolved := by
          refine exists_forall₂ ?_
          intro target htarget
          obtain ⟨i, ht⟩ := List.getElem?_of_mem htarget
          exact (htargets i target ht).2
        obtain ⟨s'', hok⟩ := exists_resolveSecrets hcheck hpass hyields happend
        rw [hrun] at hok
        cases hok
      · intro resolved h
        cases h
    · obtain ⟨caller, log, record, hcheck, hpass, hyields, hwritable, happend, hdb⟩ :=
        resolveSecrets_ok hrun
      refine ⟨?_, ?_⟩
      · refine iff_of_true ⟨resolved, rfl⟩ ⟨caller, hcheck, ?_, ?_⟩
        · intro i target ht
          have haccepts := hpass i target ht
          rw [Nat.zero_add] at haccepts
          obtain ⟨item, -, hitem⟩ := forall₂_mem_left hyields (List.mem_of_getElem? ht)
          exact ⟨haccepts, item, hitem⟩
        · simp [State.append, hwritable, happend]
      · intro resolved' h
        cases h
        obtain ⟨prev, id, -, -, -, hrows, -, -⟩ := append_eq_ok happend
        refine ⟨hyields, caller, id, prev,
          computeEntryHash P s.keys.auditKey prev (resolveEntry caller env.batch), hcheck, ?_⟩
        obtain ⟨-, -, record, -, -, -, -, -, -, -, -, rfl⟩ := check_eq_ok_iff.mp hcheck
        simp only [hdb]
        exact hrows
  · intro conn paths
    rcases hrun : (resolveSecrets P F (extractToken F conn.header) conn.peer
      (paths.map fun path => ⟨path, none⟩) env).alone s with ⟨failure | resolved, s'⟩
    · refine .inr ⟨⟨failure, rfl⟩, ?_⟩
      simp only [resolve, Script.alone_bind, Script.alone_mapError, hrun, Except.mapError,
        Script.andThen_error, Except.error.injEq]
      exact failure.apiError_cases
    · refine .inl ⟨resolved, rfl, ?_⟩
      simp only [resolve, Script.alone_bind, Script.alone_mapError, hrun, Except.mapError,
        Script.andThen_ok, Script.alone_pure]
  · intro peer token targets
    have hhandle : ((handle P F peer env (.ready token targets)).alone s).1 =
        .ok (respond ((resolveSecrets P F (presentText F token) peer targets env).alone s).1) := by
      simp only [handle, Script.alone_bind, Script.alone_attempt, Script.andThen_ok,
        Script.alone_pure]
    rw [hhandle]
    cases ((resolveSecrets P F (presentText F token) peer targets env).alone s).1 with
    | ok resolved =>
        exact .inl ⟨resolved, rfl, rfl⟩
    | error failure =>
        refine .inr ⟨⟨failure, rfl⟩, ?_⟩
        rcases failure.message_cases with h | h
        · exact .inl (by rw [respond, h])
        · exact .inr (by rw [respond, h])

end Batch

end Service
end Secretbae
