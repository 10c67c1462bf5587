import Secretbae.Daemon.Entries
import Secretbae.Audit.Chain
import Secretbae.Store.Openable

/-!
# The state of the daemon

The unsealed key material, the database behind the one connection, and what a
start of the daemon makes of a database it finds.

`Agree` is the invariant that ties the two together: the master key opens every
version, the sealed master key of `meta` unseals to it, and the audit log is an
honest one under the derived key.  A new deployment starts that way
(`agree_initialise`), and an append under the keys in use keeps it.
-/

namespace Secretbae
namespace Daemon

open Lib Proto Core Audit Storage

/-- `KeyMaterial`: the audit key is always the one derived from the master key. -/
@[ext] structure KeyMaterial (P : Primitives) where
  master : MasterKey
  auditKey : Key32
  generation : UInt32
  derived : auditKey = master.auditKey P

def KeyMaterial.new (P : Primitives) (master : MasterKey) (generation : UInt32) :
    KeyMaterial P where
  master := master
  auditKey := master.auditKey P
  generation := generation
  derived := rfl

/-- The database: the audit log and the tables of the store. -/
structure Database where
  log : AuditLog
  store : Store

/-- `DaemonState`. -/
structure DaemonState (P : Primitives) where
  keys : KeyMaterial P
  backend : KeyfileSeal
  db : Database

/-- A caller that cleared all gates. -/
structure Authenticated where
  tokenPrefix : LookupPrefix
  peer : PeerCredentials

/-- The only failure a caller ever sees: a status code and a message. -/
structure ApiError where
  status : Nat
  message : String
deriving DecidableEq

/-- `DENIED_MESSAGE`. -/
def deniedMessage : String := "not found or not permitted"

def ApiError.denied : ApiError :=
  ⟨403, deniedMessage⟩

def ApiError.internal : ApiError :=
  ⟨500, "internal error"⟩

/-- `StoreError::is_client_error`. -/
def StoreError.isClientError : StoreError → Bool
  | .notFound => true
  | .alreadyExists => true
  | .alreadyInitialised => true
  | .proto _ => true
  | _ => false

/-- `From<StoreError> for ApiError`. -/
def ApiError.ofStore (source : StoreError) : ApiError :=
  if StoreError.isClientError source then ApiError.denied else ApiError.internal

inductive DaemonError where
  | notInitialised
  | store (error : StoreError)
  | crypto (error : Core.Error)
  | audit (error : AuditError)

/-- The database after `sbae_audit::append`; a failed append is rolled back. -/
def Database.append (P : Primitives) (keys : KeyMaterial P) (entry : AuditEntry)
    (db : Database) : Database :=
  match Audit.append P db.log keys.auditKey entry with
  | .ok (log, _) => { db with log := log }
  | .error _ => db

/-- The part of `startup::run` that reads and unseals the master key. -/
def loadKeys (P : Primitives) (backend : KeyfileSeal) (db : Database) :
    Except DaemonError (KeyMaterial P) :=
  match db.store.sealedMasterKey with
  | none => .error .notInitialised
  | some bytes =>
      match unsealBytes P backend bytes with
      | .error e => .error (.crypto e)
      | .ok (master, generation) => .ok (KeyMaterial.new P master generation)

/-- `startup::run` from the unsealing on; a daemon that cannot record it does not serve. -/
def startup (P : Primitives) (backend : KeyfileSeal) (db : Database) (ts : Int64)
    (uid : UInt32) : Except DaemonError (DaemonState P) := do
  let keys ← loadKeys P backend db
  match Audit.append P db.log keys.auditKey (unsealEntry ts uid) with
  | .ok (log, _) => .ok { keys, backend, db := { db with log := log } }
  | .error e => .error (.audit e)

/-- The database after a start, successful or not. -/
def afterStartup (P : Primitives) (backend : KeyfileSeal) (db : Database) (ts : Int64)
    (uid : UInt32) : Database :=
  match startup P backend db ts uid with
  | .ok d => d.db
  | .error _ => db

/-- `initialise`, as far as the master key and the log go. -/
def initialise (P : Primitives) (draw : Option Key32) (sealNonce : Option Nonce)
    (backend : KeyfileSeal) (db : Database) (ts : Int64) : Except DaemonError Database := do
  let raw ← (Key32.generate draw).mapError .crypto
  let master : MasterKey := ⟨raw⟩
  let sealed ← (sealMaster P sealNonce backend master 1).mapError .crypto
  let store ← (db.store.initialiseMasterKey sealed).mapError .store
  let (log, _) ← (Audit.append P db.log (master.auditKey P) (initEntry ts)).mapError .audit
  .ok { log, store }

/-- A freshly migrated database. -/
def Database.empty : Database :=
  ⟨AuditLog.empty, Store.empty⟩

/-- The log of a daemon: honest entries `es`, and a counter that is not ahead of them. -/
structure HonestLog (P : Primitives) (key : Key32) (es : List AuditEntry)
    (log : AuditLog) : Prop where
  records : log.Records P key es
  counter : log.sequence.toInt ≤ es.length

/-- Keys and database agree. -/
structure Agree (P : Primitives) (backend : KeyfileSeal) (keys : KeyMaterial P)
    (db : Database) : Prop where
  opens : db.store.AllOpen P keys.master
  sealed : loadKeys P backend db = .ok keys
  log : ∃ es, HonestLog P keys.auditKey es db.log

section Lemmas

variable {P : Primitives} {backend : KeyfileSeal}

/-- The master key and the generation determine the key material. -/
theorem KeyMaterial.new_eq
    (keys : KeyMaterial P) :
    KeyMaterial.new P keys.master keys.generation = keys :=
  KeyMaterial.ext rfl keys.derived.symm rfl

@[simp] theorem Database.append_store
    (keys : KeyMaterial P) (entry : AuditEntry) (db : Database) :
    (db.append P keys entry).store = db.store := by
  unfold Database.append
  split <;> rfl

theorem loadKeys_congr
    {db db' : Database}
    (h : db'.store.sealedMasterKey = db.store.sealedMasterKey) :
    loadKeys P backend db' = loadKeys P backend db := by
  unfold loadKeys
  rw [h]

/-- An append under its own key extends an honest log by the entry, or fails. -/
theorem HonestLog.append
    {keys : KeyMaterial P} {es : List AuditEntry} {db : Database}
    (h : HonestLog P keys.auditKey es db.log) (entry : AuditEntry) :
    HonestLog P keys.auditKey (es ++ [entry]) (db.append P keys entry).log ∨
      db.append P keys entry = db := by
  unfold Database.append
  split
  · rename_i log record happend
    obtain ⟨hrecords, hcounter⟩ := append_chain happend h.records.intactRows h.counter
    exact .inl ⟨hrecords, hcounter.le⟩
  · exact .inr rfl

theorem Agree.verifies
    {keys : KeyMaterial P} {db : Database}
    (h : Agree P backend keys db) :
    db.log.Verifies P keys.auditKey := by
  obtain ⟨es, hes⟩ := h.log
  exact AuditLog.verifies_iff.mpr ⟨es, hes.records⟩

/-- An append under the keys in use. -/
theorem Agree.append
    {keys : KeyMaterial P} {db : Database}
    (h : Agree P backend keys db) (entry : AuditEntry) :
    Agree P backend keys (db.append P keys entry) := by
  obtain ⟨es, hes⟩ := h.log
  refine ⟨?_, ?_, ?_⟩
  · rw [Database.append_store]
    exact h.opens
  · rw [loadKeys_congr (congrArg Store.sealedMasterKey (db.append_store keys entry)),
      h.sealed]
  · rcases hes.append entry with hlog | heq
    · exact ⟨_, hlog⟩
    · rw [heq]
      exact h.log

/-- A change of the store that keeps its versions openable and its sealed key. -/
theorem Agree.withStore
    {keys : KeyMaterial P} {db : Database} {store : Store}
    (h : Agree P backend keys db)
    (hopens : store.AllOpen P keys.master)
    (hsealed : store.sealedMasterKey = db.store.sealedMasterKey) :
    Agree P backend keys { db with store := store } where
  opens := hopens
  sealed := by
    rw [loadKeys_congr hsealed, h.sealed]
  log := h.log

/-- What a start writes, once it has its keys. -/
theorem afterStartup_eq
    {keys : KeyMaterial P} {db : Database}
    (h : loadKeys P backend db = .ok keys) (ts : Int64) (uid : UInt32) :
    afterStartup P backend db ts uid = db.append P keys (unsealEntry ts uid) := by
  unfold afterStartup startup Database.append
  rw [h]
  simp only [bind, Except.bind]
  cases Audit.append P db.log keys.auditKey (unsealEntry ts uid) <;> rfl

/-- A new deployment starts in agreement. -/
theorem agree_initialise
    (hP : AeadCorrect P)
    {master : Key32} {sealNonce : Option Nonce} {ts : Int64} {db : Database}
    (h : initialise P (some master) sealNonce backend Database.empty ts = .ok db) :
    Agree P backend (KeyMaterial.new P ⟨master⟩ 1) db := by
  obtain ⟨raw, hraw, h⟩ := bind_eq_ok.mp h
  obtain ⟨sealed, hsealed, h⟩ := bind_eq_ok.mp h
  obtain ⟨store, hstore, h⟩ := bind_eq_ok.mp h
  obtain ⟨⟨log, record⟩, hlog, h⟩ := bind_eq_ok.mp h
  cases h
  cases mapError_eq_ok.mp hraw
  obtain ⟨-, rfl⟩ := Store.initialiseMasterKey_eq_ok.mp (mapError_eq_ok.mp hstore)
  have hunseal := unsealBytes_seal hP (mapError_eq_ok.mp hsealed)
  obtain ⟨hrecords, hcounter⟩ :=
    append_chain (mapError_eq_ok.mp hlog) (AuditLog.records_empty.intactRows) le_rfl
  refine ⟨?_, ?_, _, hrecords, hcounter.le⟩
  · intro r hr
    cases hr
  · simp only [loadKeys, Store.putSealedMasterKey, hunseal]

end Lemmas

end Daemon
end Secretbae
