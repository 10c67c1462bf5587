import Secretbae.Service.Decision
import Secretbae.Service.Routes

/-!
# State changes and their audit entries

Each of the nine handlers that change something commits its change in one
section and appends its audit entry in a later one.  `Mutation.run_eq` brings
them to this common form; `change_recorded_iff` says when a change can be
without an entry: exactly when the log cannot take one.
-/

namespace Secretbae
namespace Service

open Lib Proto Core Audit Storage Policies
open Daemon (Database LookupPrefix PeerCredentials Denied ApiError recordEntry denialEntry
  writeSection selectorOf)

/-- A request to one of the handlers that change something. -/
inductive Mutation where
  | write (request : WriteRequest) (draws : WriteDraws)
  | rollback (request : RollbackRequest) (now : UnixTime)
  | delete (request : DeleteRequest) (now : UnixTime)
  | tagAdd (request : TagRequest) (now : UnixTime)
  | tagRemove (request : TagRemoveRequest) (now : UnixTime)
  | tokenCreate (request : TokenCreateRequest) (draws : IssueDraws) (expires now : UnixTime)
  | tokenRevoke (lookup : String) (now : UnixTime)
  | policyPut (document : String) (now : UnixTime)
  | policyDelete (name : String)

section Mutations

variable (P : Primitives) (F : Foreign)

/-- The state that the handler leaves. -/
def Mutation.run (conn : Connection) (env : Env) (s : State P) : Mutation → State P
  | .write request draws => ((Service.write P F conn request draws env).alone s).2
  | .rollback request now => ((Service.rollback P F conn request now env).alone s).2
  | .delete request now => ((Service.delete P F conn request now env).alone s).2
  | .tagAdd request now => ((Service.tagAdd P F conn request now env).alone s).2
  | .tagRemove request now => ((Service.tagRemove P F conn request now env).alone s).2
  | .tokenCreate request draws expires now =>
      ((Service.tokenCreate P F conn request draws expires now env).alone s).2
  | .tokenRevoke lookup now => ((Service.tokenRevoke P F conn lookup now env).alone s).2
  | .policyPut document now => ((Service.policyPut P F conn document now env).alone s).2
  | .policyDelete name => ((Service.policyDelete P F conn name env).alone s).2

/-- What the handler asks of the gate. -/
def Mutation.requested : Mutation → Requested
  | .write request _ => ⟨.write, some request.path⟩
  | .rollback request _ => ⟨.rollback, some request.path⟩
  | .delete request _ => ⟨.delete, some request.path⟩
  | .tagAdd request _ => ⟨.tagAdd, some request.path⟩
  | .tagRemove request _ => ⟨.tagRemove, some request.path⟩
  | .tokenCreate .. => ⟨.tokenCreate, none⟩
  | .tokenRevoke .. => ⟨.tokenRevoke, none⟩
  | .policyPut .. => ⟨.policyPut, none⟩
  | .policyDelete .. => ⟨.policyDelete, none⟩

def Mutation.action : Mutation → Action
  | .write .. => .write
  | .rollback .. => .rollback
  | .delete .. => .delete
  | .tagAdd .. => .tag
  | .tagRemove .. => .tag
  | .tokenCreate .. => .tokenCreate
  | .tokenRevoke .. => .tokenRevoke
  | .policyPut .. => .policyWrite
  | .policyDelete .. => .policyWrite

/-- A change of the store: the new tables and the version it is about, or nothing. -/
def onStore (s : State P) (change : Except StoreError (Store × Option Version)) :
    Option (State P × Option Version) :=
  match change with
  | .ok (store, version) => some ({ s with db := { s.db with store := store } }, version)
  | .error _ => none

/-- A change of the tables of tokens and policies. -/
def onAccess (s : State P) (change : Except StoreError Access) :
    Option (State P × Option Version) :=
  match change with
  | .ok access => some ({ s with access := access }, none)
  | .error _ => none

/--
The operation of the handler on a state past the gate: what it makes of the
tables and the version it concerns, or `none` where it refuses.
-/
def Mutation.operate (caller : Authenticated) (s : State P) :
    Mutation → Option (State P × Option Version)
  | .write request draws =>
      match F.base64Decode request.value with
      | none => none
      | some plaintext =>
          match writeSection P s.keys ⟨caller.lookupPrefix, caller.peer⟩
              ⟨request.path, some plaintext, request.tags, request.comment⟩
              ⟨draws.freshId, draws.began, draws.draws, draws.now⟩ plaintext s.db with
          | (db, .ok version) => some ({ s with db := db }, some version)
          | (_, .error _) => none
  | .rollback request now =>
      onStore P s ((Storage.rollback s.db.store request.path request.target now).map
        fun st => (st, some request.target))
  | .delete request now =>
      onStore P s ((deleteVersion s.db.store request.path (selectorOf request.version)
        (if request.destroy then .destroy else .soft) now).map fun (st, v) => (st, some v))
  | .tagAdd request now =>
      onStore P s ((addTags s.db.store request.path request.tags now).map fun st => (st, none))
  | .tagRemove request now =>
      onStore P s
        ((removeTags s.db.store request.path request.tags now).map fun st => (st, none))
  | .tokenCreate request draws expires now =>
      match issue F.sha256 draws, expiry request.ttlSeconds expires with
      | .ok issued, .ok expiresAt =>
          onAccess P s
            (createToken s.access
              { id := issued.id
                lookupPrefix := issued.lookupPrefix
                hash := issued.hash
                name := request.name
                boundUid := request.bindUid
                expiresAt
                policies := request.policies } now)
      | _, _ => none
  | .tokenRevoke lookup now =>
      match parseLookupPrefix lookup with
      | .ok lookup => onAccess P s (revokeToken s.access lookup now)
      | .error _ => none
  | .policyPut document now =>
      match Policy.fromJson F.policyJson document with
      | .ok policy => onAccess P s (putPolicy F.policyJson s.access policy now)
      | .error _ => none
  | .policyDelete name => onAccess P s (Storage.deletePolicy s.access name)

end Mutations

section Form

variable {P : Primitives} {F : Foreign}

/-- The state after a handler that begins with the gate. -/
theorem gated_state
    {α : Type} (conn : Connection) (route : Route) (path : Option SecretPath) (env : GateEnv)
    (k : Authenticated → Code P ApiError α) (s : State P) :
    ((gate P F conn route path env >>= k).alone s).2 =
      match check F s.db.store s.access (extractToken F conn.header) conn.peer ⟨route, path⟩
          env.checked with
      | .ok caller => ((k caller).alone (s.touch P caller.tokenId env.touched)).2
      | .error denied =>
          (s.append P env.writable (denialEntry env.denied.seconds conn.peer path denied)).2 := by
  rw [Script.alone_bind, gate_alone]
  cases check F s.db.store s.access (extractToken F conn.header) conn.peer ⟨route, path⟩
    env.checked <;> rfl

/-- The state after a section whose success is recorded. -/
theorem recorded_state
    {α β : Type} (label : Label) (act : State P → Except ApiError α × State P)
    (caller : Authenticated) (action : Action) (path : Option SecretPath)
    (version : α → Option Version) (answer : α → β) (env : Env) (s : State P) :
    ((do
        let a ← Script.atomically label act
        recordOrInternal P caller action path (version a) env
        pure (answer a) : Code P ApiError β).alone s).2 =
      match act s with
      | (.ok a, s') =>
          (s'.append P env.writable
            (recordEntry env.recorded.seconds caller.lookupPrefix caller.peer action .success
              path (version a))).2
      | (.error _, s') => s' := by
  rw [Script.alone_bind, Script.alone_atomically]
  rcases act s with ⟨e | a, s'⟩
  · rfl
  · simp only [Script.andThen_ok, recordOrInternal, record, Script.alone_bind,
      Script.alone_mapError, Script.alone_atomically]
    rcases s'.append_cases env.writable
      (recordEntry env.recorded.seconds caller.lookupPrefix caller.peer action .success path
        (version a)) with ⟨log, r, -, -, heq⟩ | ⟨e, heq⟩
    · simp [heq, Except.mapError]
    · simp [heq, Except.mapError]

/-- A write that fails has changed nothing: tags can be added to what was just written. -/
theorem writeSection_error
    {keys : Daemon.KeyMaterial P} {caller : Daemon.Authenticated} {body : Daemon.WriteRequest}
    {env : Daemon.WriteEnv} {plaintext : Bytes} {db db' : Database} {e : StoreError}
    (h : writeSection P keys caller body env plaintext db = (db', .error e)) :
    db' = db := by
  unfold writeSection at h
  split at h
  · cases h
    rfl
  rename_i vault version hwrite
  split at h
  · cases h
  obtain ⟨slot, sealed, hbegin, -, hcommit, -⟩ := Vault.write_eq_ok hwrite
  obtain ⟨s, hs⟩ := commit_finds hbegin hcommit
  obtain ⟨st, hadd⟩ := addTags_isOk hs body.tags env.now
  rw [hadd] at h
  cases h

/-- What a write returns; the tags never fail it. -/
theorem writeSection_result
    (keys : Daemon.KeyMaterial P) (caller : Daemon.Authenticated) (body : Daemon.WriteRequest)
    (env : Daemon.WriteEnv) (plaintext : Bytes) (db : Database) :
    (writeSection P keys caller body env plaintext db).2 =
      (Vault.write P ⟨db.store, keys.master, keys.generation⟩ body.path env.freshId env.began
        env.draws plaintext ⟨some caller.tokenPrefix.asStr, body.comment⟩ env.now).map
          Prod.snd := by
  unfold writeSection
  cases hwrite : Vault.write P ⟨db.store, keys.master, keys.generation⟩ body.path env.freshId
      env.began env.draws plaintext ⟨some caller.tokenPrefix.asStr, body.comment⟩ env.now with
  | error e => rfl
  | ok result =>
      obtain ⟨vault, version⟩ := result
      obtain ⟨slot, sealed, hbegin, -, hcommit, -⟩ := Vault.write_eq_ok hwrite
      obtain ⟨s, hs⟩ := commit_finds hbegin hcommit
      obtain ⟨st, hadd⟩ := addTags_isOk hs body.tags env.now
      dsimp only
      rw [hadd]
      split <;> rfl

/-- The state after the part of a handler that follows its gate. -/
def Mutation.afterGate (P : Primitives) (F : Foreign) (m : Mutation) (caller : Authenticated)
    (env : Env) (s : State P) : State P :=
  match m.operate P F caller s with
  | none => s
  | some (s', version) =>
      (s'.append P env.writable
        (recordEntry env.recorded.seconds caller.lookupPrefix caller.peer m.action .success
          m.requested.path version)).2

/-- A change of the store that is recorded. -/
theorem changeStore_state
    {α β : Type} (label : Label) (f : Store → Except StoreError (Store × α))
    (caller : Authenticated) (action : Action) (path : Option SecretPath)
    (version : α → Option Version) (answer : β) (env : Env) (s : State P) :
    ((do
        let a ← changeStore P label f
        recordOrInternal P caller action path (version a) env
        pure answer : Code P ApiError β).alone s).2 =
      match onStore P s ((f s.db.store).map fun (st, a) => (st, version a)) with
      | none => s
      | some (s', v) =>
          (s'.append P env.writable
            (recordEntry env.recorded.seconds caller.lookupPrefix caller.peer action .success
              path v)).2 := by
  rw [changeStore, recorded_state]
  rcases f s.db.store with e | ⟨store, a⟩ <;> rfl

/-- A change of the tokens or policies that is recorded. -/
theorem changeAccess_state
    {β : Type} (label : Label) (f : Access → Except StoreError Access)
    (caller : Authenticated) (action : Action) (answer : β) (env : Env) (s : State P) :
    ((do
        changeAccess P label f
        recordOrInternal P caller action none none env
        pure answer : Code P ApiError β).alone s).2 =
      match onAccess P s (f s.access) with
      | none => s
      | some (s', v) =>
          (s'.append P env.writable
            (recordEntry env.recorded.seconds caller.lookupPrefix caller.peer action .success
              none v)).2 := by
  rw [changeAccess, recorded_state]
  rcases f s.access with e | access <;> rfl

/-- Every one of the handlers is a gate, an operation and an entry. -/
theorem Mutation.run_eq
    (m : Mutation) (conn : Connection) (env : Env) (s : State P) :
    m.run P F conn env s =
      match check F s.db.store s.access (extractToken F conn.header) conn.peer m.requested
          env.gate.checked with
      | .ok caller => m.afterGate P F caller env (s.touch P caller.tokenId env.gate.touched)
      | .error denied =>
          (s.append P env.gate.writable
            (denialEntry env.gate.denied.seconds conn.peer m.requested.path denied)).2 := by
  have hform : ∀ {α : Type} (k : Authenticated → Code P ApiError α),
      (∀ caller s, ((k caller).alone s).2 = m.afterGate P F caller env s) →
      ((gate P F conn m.requested.route m.requested.path env.gate >>= k).alone s).2 =
        match check F s.db.store s.access (extractToken F conn.header) conn.peer m.requested
            env.gate.checked with
        | .ok caller => m.afterGate P F caller env (s.touch P caller.tokenId env.gate.touched)
        | .error denied =>
            (s.append P env.gate.writable
              (denialEntry env.gate.denied.seconds conn.peer m.requested.path denied)).2 := by
    intro α k hk
    rw [gated_state]
    split <;> simp [*]
  cases m with
  | write request draws =>
      refine hform _ ?_
      intro caller s
      simp only [Mutation.afterGate, Mutation.operate]
      cases hvalue : F.base64Decode request.value with
      | none => simp
      | some plaintext =>
          simp only [commitWrite]
          rw [recorded_state]
          rcases hsection : writeSection P s.keys ⟨caller.lookupPrefix, caller.peer⟩
            ⟨request.path, some plaintext, request.tags, request.comment⟩
            ⟨draws.freshId, draws.began, draws.draws, draws.now⟩ plaintext s.db with
            ⟨db, e | version⟩
          · simp [Except.mapError, writeSection_error hsection]
          · rfl
  | rollback request now =>
      refine hform _ ?_
      intro caller s
      rw [changeStore_state]
      simp only [Mutation.afterGate, Mutation.operate]
      cases Storage.rollback s.db.store request.path request.target now <;> rfl
  | delete request now =>
      refine hform _ ?_
      intro caller s
      rw [changeStore_state]
      rfl
  | tagAdd request now =>
      refine hform _ ?_
      intro caller s
      rw [changeStore_state]
      simp only [Mutation.afterGate, Mutation.operate]
      cases addTags s.db.store request.path request.tags now <;> rfl
  | tagRemove request now =>
      refine hform _ ?_
      intro caller s
      rw [changeStore_state]
      simp only [Mutation.afterGate, Mutation.operate]
      cases removeTags s.db.store request.path request.tags now <;> rfl
  | tokenCreate request draws expires now =>
      simp only [Mutation.run, Service.tokenCreate]
      rw [Script.alone_bind, Script.alone_mapError, gate_alone]
      simp only [Mutation.requested]
      cases check F s.db.store s.access (extractToken F conn.header) conn.peer
        ⟨.tokenCreate, none⟩ env.gate.checked with
      | error denied => rfl
      | ok caller =>
          simp only [Except.mapError, Script.andThen_ok, Mutation.afterGate, Mutation.operate]
          cases issue F.sha256 draws with
          | error e => rfl
          | ok issued =>
              cases expiry request.ttlSeconds expires with
              | error e => rfl
              | ok expiresAt =>
                  simp only [Script.alone_bind, Script.alone_ofExcept, Script.andThen_ok,
                    Script.alone_mapError]
                  exact changeAccess_state _ _ caller .tokenCreate _ env _
  | tokenRevoke lookup now =>
      refine hform _ ?_
      intro caller s
      simp only [Mutation.afterGate, Mutation.operate]
      cases parseLookupPrefix lookup with
      | error e => simp
      | ok lookup => exact changeAccess_state _ _ caller .tokenRevoke _ env s
  | policyPut document now =>
      refine hform _ ?_
      intro caller s
      simp only [Mutation.afterGate, Mutation.operate]
      cases Policy.fromJson F.policyJson document with
      | error e => simp
      | ok policy => exact changeAccess_state _ _ caller .policyWrite _ env s
  | policyDelete name =>
      refine hform _ ?_
      intro caller s
      exact changeAccess_state _ _ caller .policyWrite _ env s

end Form

section Recording

variable {P : Primitives} {F : Foreign}

/-- The tables are the same, up to the last use of tokens. -/
structure State.SameTables (s s' : State P) : Prop where
  store : s'.db.store = s.db.store
  access : s.access.SameExceptUse s'.access

theorem writeSection_log
    (keys : Daemon.KeyMaterial P) (caller : Daemon.Authenticated) (body : Daemon.WriteRequest)
    (env : Daemon.WriteEnv) (plaintext : Bytes) (db : Database) :
    (writeSection P keys caller body env plaintext db).1.log = db.log := by
  unfold writeSection
  split
  · rfl
  split
  · rfl
  · split <;> rfl

theorem onStore_frame
    {s s' : State P} {change : Except StoreError (Store × Option Version)}
    {v : Option Version}
    (h : onStore P s change = some (s', v)) :
    s'.db.log = s.db.log := by
  rcases change with e | ⟨store, version⟩
  · cases h
  · cases h
    rfl

theorem onAccess_frame
    {s s' : State P} {change : Except StoreError Access} {v : Option Version}
    (h : onAccess P s change = some (s', v)) :
    s'.db.log = s.db.log := by
  rcases change with e | access
  · cases h
  · cases h
    rfl

/-- No operation writes to the log. -/
theorem Mutation.operate_log
    {m : Mutation} {caller : Authenticated} {s s' : State P} {v : Option Version}
    (h : m.operate P F caller s = some (s', v)) :
    s'.db.log = s.db.log := by
  cases m with
  | write request draws =>
      simp only [Mutation.operate] at h
      split at h
      · cases h
      rename_i plaintext _
      have hlog := writeSection_log s.keys ⟨caller.lookupPrefix, caller.peer⟩
        ⟨request.path, some plaintext, request.tags, request.comment⟩
        ⟨draws.freshId, draws.began, draws.draws, draws.now⟩ plaintext s.db
      split at h
      · rename_i db version hsection
        cases h
        rwa [hsection] at hlog
      · cases h
  | rollback request now => exact onStore_frame h
  | delete request now => exact onStore_frame h
  | tagAdd request now => exact onStore_frame h
  | tagRemove request now => exact onStore_frame h
  | tokenCreate request draws expires now =>
      simp only [Mutation.operate] at h
      split at h
      · exact onAccess_frame h
      · cases h
  | tokenRevoke lookup now =>
      simp only [Mutation.operate] at h
      split at h
      · exact onAccess_frame h
      · cases h
  | policyPut document now =>
      simp only [Mutation.operate] at h
      split at h
      · exact onAccess_frame h
      · cases h
  | policyDelete name => exact onAccess_frame h

theorem State.append_isOk_iff
    {s : State P} {writable : Bool} {entry : AuditEntry} :
    (s.append P writable entry).1 = .ok () ↔ writable = true ∧ s.db.log.Appendable := by
  have hlog : (∃ log record, Audit.append P s.db.log s.keys.auditKey entry =
      .ok (log, record)) ↔ s.db.log.Appendable :=
    Audit.append_isOk_iff
  rw [← hlog]
  rcases s.append_cases writable entry with ⟨log, record, hw, happend, heq⟩ | ⟨e, heq⟩
  · exact iff_of_true (by rw [heq]) ⟨hw, log, record, happend⟩
  · refine iff_of_false (by simp [heq]) ?_
    rintro ⟨rfl, log, record, happend⟩
    simp [State.append, happend] at heq

/--
A change without an audit entry is possible exactly if the log cannot take the
entry and the operation is admitted and has an effect.
-/
theorem change_recorded_iff
    (P : Primitives) (F : Foreign) (m : Mutation) (conn : Connection) (env : Env)
    (s : State P) :
    ((m.run P F conn env s).db.log = s.db.log → s.SameTables (m.run P F conn env s)) ↔
      (env.writable = true ∧ s.db.log.Appendable) ∨
        ∀ caller s₂ version,
          check F s.db.store s.access (extractToken F conn.header) conn.peer m.requested
            env.gate.checked = .ok caller →
          m.operate P F caller (s.touch P caller.tokenId env.gate.touched) =
            some (s₂, version) →
          s.SameTables s₂ := by
  rw [Mutation.run_eq]
  cases check F s.db.store s.access (extractToken F conn.header) conn.peer m.requested
    env.gate.checked with
  | error denied =>
      refine iff_of_true ?_ (.inr ?_)
      · intro _
        exact ⟨by simp, by simpa using .refl _⟩
      · rintro caller s₂ version h
        cases h
  | ok caller =>
      simp only [Mutation.afterGate]
      cases hop : m.operate P F caller (s.touch P caller.tokenId env.gate.touched) with
      | none =>
          refine iff_of_true ?_ (.inr ?_)
          · intro _
            exact ⟨rfl, touchToken_sameExceptUse _ _ _⟩
          · rintro caller' s₂ version hcaller hsome
            cases hcaller
            rw [hop] at hsome
            cases hsome
      | some out =>
          obtain ⟨s₂, version⟩ := out
          dsimp only
          have hlog := Mutation.operate_log hop
          rw [State.touch_db] at hlog
          have hcan : (s₂.append P env.writable
              (recordEntry env.recorded.seconds caller.lookupPrefix caller.peer m.action
                .success m.requested.path version)).1 = .ok () ↔
              env.writable = true ∧ s.db.log.Appendable := by
            rw [State.append_isOk_iff, hlog]
          rcases s₂.append_cases env.writable
            (recordEntry env.recorded.seconds caller.lookupPrefix caller.peer m.action
              .success m.requested.path version) with
            ⟨log, record, -, happend, heq⟩ | ⟨e, heq⟩
          · refine iff_of_true ?_ (.inl (hcan.mp (by rw [heq])))
            -- the entry is in the log, so the log is not the old one
            intro hsame
            obtain ⟨prev, id, -, -, -, hrows, -, -⟩ := append_eq_ok happend
            simp only [heq] at hsame
            rw [hsame, hlog] at hrows
            simp at hrows
          · rw [heq] at hcan ⊢
            simp only [reduceCtorEq, false_iff] at hcan
            simp only [hcan, false_or]
            constructor
            · rintro h caller' s₂' version' hcaller hsome
              cases hcaller
              rw [hop] at hsome
              cases hsome
              exact h hlog
            · intro h _
              exact h caller s₂ version rfl hop

end Recording

section Samples

/-- A daemon with one token, whose policies are given by one document. -/
def sampleState (policy : Policy) (document : String) : State samplePrimitives where
  keys := Daemon.sampleDaemon.keys
  backend := Daemon.sampleDaemon.backend
  db := Daemon.sampleDaemon.db
  access := sampleAccess policy document

def sampleConnection : Connection where
  header := some ("Bearer " ++ sampleTokenText)
  peer := ⟨0, 1⟩

/-- Clock readings of one request; `writable` says whether its entry can be written. -/
def sampleEnv (writable : Bool) : Env where
  gate := ⟨sampleTime 100, sampleTime 100, sampleTime 100, true⟩
  recorded := sampleTime 101
  writable := writable

def sampleWrite : Mutation :=
  .write ⟨samplePath, "AQID", [], none⟩
    ⟨sampleUuid 7, sampleTime 100, sampleDraws, sampleTime 100⟩

/-- A write commits, the append of its entry fails, and nothing is left of the request. -/
theorem unrecorded_write :
    ((sampleWrite.run samplePrimitives sampleForeign sampleConnection (sampleEnv false)
        (sampleState opsPolicy opsDocument)).db.log =
      (sampleState opsPolicy opsDocument).db.log) ∧
    ¬ (sampleState opsPolicy opsDocument).SameTables
      (sampleWrite.run samplePrimitives sampleForeign sampleConnection (sampleEnv false)
        (sampleState opsPolicy opsDocument)) := by
  have hrun :
      let before := sampleState opsPolicy opsDocument
      let after := sampleWrite.run samplePrimitives sampleForeign sampleConnection
        (sampleEnv false) before
      after.db.log.rows = before.db.log.rows ∧ after.db.log.sequence = before.db.log.sequence ∧
        after.db.log.anchor = before.db.log.anchor ∧
        after.db.store.secrets.rows.length ≠ before.db.store.secrets.rows.length := by
    decide +kernel
  obtain ⟨hrows, hsequence, hanchor, hcount⟩ := hrun
  refine ⟨AuditLog.ext hrows hsequence hanchor, ?_⟩
  rintro ⟨hstore, -⟩
  exact hcount (by rw [hstore])

end Samples

end Service
end Secretbae
