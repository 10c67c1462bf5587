import Secretbae.Daemon.State

/-!
# Rotating the master key

The `rekey` handler changes three things one after another: the audit log is
re-keyed in one transaction, the wrapped data keys and the sealed master key
are replaced in a second one, and the daemon then adopts the successor in
memory.  `rekey` models a run of the handler in which any one of its
transactions may be rolled back and any draw of entropy may fail; `survivor`
is the daemon afterwards, or after a crash and a restart from the disk.

A rotation that stops between its two commits leaves a log that only the
discarded successor's key verifies.  `rekey_allOrNothing_iff` says that this is
the one way a rotation is not all or nothing.
-/

namespace Secretbae
namespace Daemon

open Lib Proto Core Audit Storage

/-- What `rekey` draws from the entropy source. -/
structure RekeyDraws where
  successor : Option Key32
  sealNonce : Option Nonce
  /-- For the `i`-th call of `WrappedKey::rewrap`. -/
  nonces : Nat → Option Nonce

/-- The transactions of the handler, in order. -/
inductive Transaction where
  | chain
  | store
  | record
deriving DecidableEq

/-- The new keys, and the new master key as it will be stored. -/
structure Succession (P : Primitives) where
  keys : KeyMaterial P
  sealed : SealedMasterKey

structure RekeyResponse where
  versionsRewrapped : Nat
  auditEntriesRekeyed : Nat
  generation : UInt32
deriving DecidableEq

/-- `generation.checked_add(1)`. -/
def nextGeneration (generation : UInt32) : Option UInt32 :=
  if generation.toNat + 1 < 2 ^ 32 then some (generation + 1) else none

/-- The handler before it takes the lock of the store. -/
def prepare (P : Primitives) (draws : RekeyDraws) (backend : KeyfileSeal)
    (keys : KeyMaterial P) : Except ApiError (Succession P) :=
  match draws.successor, nextGeneration keys.generation with
  | some successor, some generation =>
      match sealMaster P draws.sealNonce backend ⟨successor⟩ generation with
      | .ok sealed => .ok ⟨KeyMaterial.new P ⟨successor⟩ generation, sealed⟩
      | .error _ => .error .internal
  | _, _ => .error .internal

/--
The two transactions under both locks: the database they leave, and how many
versions and entries they moved.  `rollback` is a transaction that fails.
-/
def rekeyTransactions (P : Primitives) (keys : KeyMaterial P) (next : Succession P)
    (nonces : Nat → Option Nonce) (rollback : Option Transaction) (db : Database) :
    Database × Except ApiError (Nat × Nat) :=
  if rollback = some .chain then (db, .error .internal)
  else
    match rekeyChain P db.log keys.auditKey next.keys.auditKey with
    | .error _ => (db, .error .internal)
    | .ok (log, entries) =>
        if rollback = some .store then ({ db with log := log }, .error .internal)
        else
          match rekeyWith db.store next.sealed
              (rewrapWith P nonces keys.master next.keys.master next.keys.generation) with
          | .error e => ({ db with log := log }, .error (.ofStore e))
          | .ok (store, report) =>
              (⟨log, store⟩, .ok (report.versionsRewrapped, entries))

/-- The entry that `rekey` records when it is done. -/
def rekeyEntry (ts : Int64) (caller : Authenticated) : AuditEntry :=
  recordEntry ts caller.tokenPrefix caller.peer .rekey .success none none

/-- A run of the `rekey` handler for a caller that `gate` admits or denies. -/
def rekey (P : Primitives) (d : DaemonState P) (peer : PeerCredentials) (ts : Int64)
    (gate : Except Denied Authenticated) (draws : RekeyDraws)
    (rollback : Option Transaction) : Except ApiError RekeyResponse × DaemonState P :=
  match gate with
  | .error denied =>
      if rollback = some .record then (.error .denied, d)
      else
        (.error .denied,
          { d with db := d.db.append P d.keys (denialEntry ts peer none denied) })
  | .ok caller =>
      match prepare P draws d.backend d.keys with
      | .error e => (.error e, d)
      | .ok next =>
          match rekeyTransactions P d.keys next draws.nonces rollback d.db with
          | (db, .error e) => (.error e, { d with db := db })
          | (db, .ok (rewrapped, entries)) =>
              let d := { d with keys := next.keys, db := db }
              if rollback = some .record then (.error .internal, d)
              else
                match Audit.append P db.log next.keys.auditKey (rekeyEntry ts caller) with
                | .error _ => (.error .internal, d)
                | .ok (log, _) =>
                    (.ok ⟨rewrapped, entries, next.keys.generation⟩,
                      { d with db := { db with log := log } })

/--
Keys and database once the handler is over: those of the daemon, or, if the
process crashed instead of going on, those of a restart from the disk.  A crash
before a transaction commits rolls it back, and one before the successor is
adopted differs from one after it only in memory, which is lost.
-/
def survivor (P : Primitives) (d : DaemonState P) :
    Option (Int64 × UInt32) → Except DaemonError (KeyMaterial P × Database)
  | none => .ok (d.keys, d.db)
  | some (ts, uid) => do
      let keys ← loadKeys P d.backend d.db
      .ok (keys, afterStartup P d.backend d.db ts uid)

/-- Keys and store are those from before the rotation of `d`, or those it leads to. -/
def Whole (P : Primitives) (d : DaemonState P) (draws : RekeyDraws)
    (keys : KeyMaterial P) (store : Store) : Prop :=
  (keys = d.keys ∧ store = d.db.store) ∨
    ∃ next report,
      prepare P draws d.backend d.keys = .ok next ∧ keys = next.keys ∧
      rekeyWith d.db.store next.sealed
          (rewrapWith P draws.nonces d.keys.master next.keys.master
            next.keys.generation) = .ok (store, report)

/-- The rotation of `d` has happened as a whole or not at all. -/
structure AllOrNothing (P : Primitives) (d : DaemonState P) (draws : RekeyDraws)
    (keys : KeyMaterial P) (db : Database) : Prop where
  opens : db.store.AllOpen P keys.master
  verifies : db.log.Verifies P keys.auditKey
  whole : Whole P d draws keys db.store
  history :
    ∃ es added, d.db.log.Records P d.keys.auditKey es ∧
      db.log.Records P keys.auditKey (es ++ added)

/-- The rotation starts, and its second transaction does not commit. -/
structure StopsBetween {P : Primitives} (d : DaemonState P)
    (gate : Except Denied Authenticated) (draws : RekeyDraws)
    (rollback : Option Transaction) : Prop where
  admitted : gate.isOk = true
  successor : draws.successor ≠ none
  generation : d.keys.generation.toNat + 1 < 2 ^ 32
  sealNonce : draws.sealNonce ≠ none
  chain : rollback ≠ some .chain
  store :
    rollback = some .store ∨
      ∃ n < liveCount d.db.store.versions.rows, draws.nonces n = none

section Prepare

variable {P : Primitives} {draws : RekeyDraws} {backend : KeyfileSeal}
  {keys : KeyMaterial P} {next : Succession P}

/-- The successor is sealed as it will be used. -/
theorem prepare_eq_ok
    (hP : AeadCorrect P)
    (h : prepare P draws backend keys = .ok next) :
    unsealBytes P backend next.sealed.toBytes =
        .ok (next.keys.master, next.keys.generation) ∧
      draws.successor = some next.keys.master.raw := by
  unfold prepare at h
  split at h
  · rename_i successor generation hsucc hgen
    split at h
    · rename_i sealed hseal
      cases h
      exact ⟨unsealBytes_seal hP hseal, hsucc⟩
    · cases h
  · cases h

/-- Before the store is locked only the entropy source and the counter can fail. -/
theorem prepare_isOk_iff :
    (∃ next, prepare P draws backend keys = .ok next) ↔
      draws.successor ≠ none ∧ keys.generation.toNat + 1 < 2 ^ 32 ∧
        draws.sealNonce ≠ none := by
  have hgen : keys.generation.toNat + 1 < 2 ^ 32 ↔ nextGeneration keys.generation ≠ none := by
    unfold nextGeneration
    split <;> simp_all
  rw [hgen]
  unfold prepare
  cases draws.successor with
  | none =>
      simp
  | some successor =>
      cases nextGeneration keys.generation with
      | none =>
          simp
      | some generation =>
          cases draws.sealNonce <;> simp [sealMaster, aeadSeal, bind, Except.bind]

end Prepare

section Transactions

variable {P : Primitives} {backend : KeyfileSeal} {keys : KeyMaterial P}
  {next : Succession P} {nonces : Nat → Option Nonce} {db : Database}

/-- An honest log is re-keyed entry by entry. -/
theorem rekeyChain_honest
    {es : List AuditEntry} {key : Key32} {log : AuditLog}
    (h : HonestLog P key es log) (newKey : Key32) :
    ∃ log', rekeyChain P log key newKey = .ok (log', es.length) ∧
      HonestLog P newKey es log' := by
  obtain ⟨log', hok, hrecords, hseq⟩ := rekeyTransaction_records h.records newKey
  refine ⟨log', ?_, hrecords, by rw [hseq]; exact h.counter⟩
  have hverify := verify_eq_valid_iff.mpr ⟨es, h.records, rfl, rfl⟩
  simp only [rekeyChain, hverify]
  exact hok

/-- With nothing in the log there is nothing a key could be wrong for. -/
theorem HonestLog.of_nil
    {key key' : Key32} {log : AuditLog}
    (h : HonestLog P key [] log) :
    HonestLog P key' [] log :=
  ⟨⟨h.records.rows, h.records.anchor, h.records.fits⟩, h.counter⟩

/-- Both transactions commit: everything is handed over to the successor. -/
theorem Agree.rotated
    (hP : AeadCorrect P)
    {log : AuditLog} {es : List AuditEntry} {store : Store} {report : RekeyReport}
    (hagree : Agree P backend keys db)
    (hsealed : unsealBytes P backend next.sealed.toBytes =
      .ok (next.keys.master, next.keys.generation))
    (hlog : HonestLog P next.keys.auditKey es log)
    (hstore : rekeyWith db.store next.sealed
      (rewrapWith P nonces keys.master next.keys.master next.keys.generation) =
        .ok (store, report)) :
    Agree P backend next.keys ⟨log, store⟩ where
  opens := allOpen_rekeyWith hP hagree.opens hstore
  sealed := by
    have hkey := (rekeyWith_eq_ok hstore).2.2
    simp only [loadKeys, hkey, hsealed, KeyMaterial.new_eq]
  log := ⟨es, hlog⟩

/-- What the two transactions leave behind, from keys and database in agreement. -/
theorem rekeyTransactions_cases
    (hP : AeadCorrect P)
    {es : List AuditEntry}
    (hagree : Agree P backend keys db)
    (hlog : HonestLog P keys.auditKey es db.log)
    (hsealed : unsealBytes P backend next.sealed.toBytes =
      .ok (next.keys.master, next.keys.generation))
    (nonces : Nat → Option Nonce) (rollback : Option Transaction) :
    (rollback = some .chain ∧
      ∃ e, rekeyTransactions P keys next nonces rollback db = (db, .error e)) ∨
    (rollback ≠ some .chain ∧
      (rollback = some .store ∨ ∃ n < liveCount db.store.versions.rows, nonces n = none) ∧
      ∃ log e,
        rekeyTransactions P keys next nonces rollback db = (⟨log, db.store⟩, .error e) ∧
        HonestLog P next.keys.auditKey es log) ∨
    (rollback ≠ some .chain ∧ rollback ≠ some .store ∧
      (∀ n < liveCount db.store.versions.rows, nonces n ≠ none) ∧
      ∃ log store report,
        rekeyTransactions P keys next nonces rollback db =
          (⟨log, store⟩, .ok (report.versionsRewrapped, es.length)) ∧
        HonestLog P next.keys.auditKey es log ∧
        rekeyWith db.store next.sealed
          (rewrapWith P nonces keys.master next.keys.master next.keys.generation) =
            .ok (store, report) ∧
        Agree P backend next.keys ⟨log, store⟩) := by
  obtain ⟨log, hrekey, hlog'⟩ := rekeyChain_honest hlog next.keys.auditKey
  by_cases hchain : rollback = some .chain
  · exact .inl ⟨hchain, .internal, by simp [rekeyTransactions, hchain]⟩
  right
  by_cases hstore : rollback = some .store
  · refine .inl ⟨hchain, .inl hstore, log, .internal, ?_, hlog'⟩
    simp [rekeyTransactions, hstore, hrekey]
  cases hwith : rekeyWith db.store next.sealed
      (rewrapWith P nonces keys.master next.keys.master next.keys.generation) with
  | error e =>
      refine .inl ⟨hchain, .inr ?_, log, .ofStore e, ?_, hlog'⟩
      · by_contra hnone
        push Not at hnone
        have hok : ∃ out, rekeyWith db.store next.sealed
            (rewrapWith P nonces keys.master next.keys.master next.keys.generation) =
              .ok out :=
          (rekeyWith_isOk_iff hagree.opens).mpr hnone
        obtain ⟨out, hout⟩ := hok
        rw [hwith] at hout
        cases hout
      · simp [rekeyTransactions, hchain, hstore, hrekey, hwith]
  | ok out =>
      obtain ⟨store, report⟩ := out
      refine .inr ⟨hchain, hstore, ?_, log, store, report, ?_, hlog', rfl, ?_⟩
      · exact (rekeyWith_isOk_iff hagree.opens).mp ⟨_, hwith⟩
      · simp [rekeyTransactions, hchain, hstore, hrekey, hwith]
      · exact hagree.rotated hP hsealed hlog' hwith

end Transactions

section Handler

variable {P : Primitives} {d : DaemonState P} {draws : RekeyDraws} {es : List AuditEntry}

/-- Keys, database and history are in order after a run of the handler. -/
structure Settled (P : Primitives) (d : DaemonState P) (draws : RekeyDraws)
    (es : List AuditEntry) (d' : DaemonState P) : Prop where
  agree : Agree P d'.backend d'.keys d'.db
  whole : Whole P d draws d'.keys d'.db.store
  history : ∃ added, HonestLog P d'.keys.auditKey (es ++ added) d'.db.log

theorem settled_self
    (hagree : Agree P d.backend d.keys d.db)
    (hlog : HonestLog P d.keys.auditKey es d.db.log) :
    Settled P d draws es d :=
  ⟨hagree, .inl ⟨rfl, rfl⟩, [], by simpa using hlog⟩

/-- An append under the keys in use leaves things in order. -/
theorem Settled.append
    {d' : DaemonState P}
    (h : Settled P d draws es d') (entry : AuditEntry) :
    Settled P d draws es { d' with db := d'.db.append P d'.keys entry } where
  agree := h.agree.append entry
  whole := by
    rw [Database.append_store]
    exact h.whole
  history := by
    obtain ⟨added, hadded⟩ := h.history
    rcases hadded.append entry with hlog | heq
    · exact ⟨added ++ [entry], by rw [← List.append_assoc]; exact hlog⟩
    · rw [heq]
      exact ⟨added, hadded⟩

/-- Where a run of the handler can leave a daemon that was in agreement. -/
theorem rekey_cases
    (hP : AeadCorrect P)
    (hagree : Agree P d.backend d.keys d.db)
    (hlog : HonestLog P d.keys.auditKey es d.db.log)
    (peer : PeerCredentials) (ts : Int64) (gate : Except Denied Authenticated)
    (draws : RekeyDraws) (rollback : Option Transaction) :
    (¬ StopsBetween d gate draws rollback ∧
      Settled P d draws es (rekey P d peer ts gate draws rollback).2) ∨
    (StopsBetween d gate draws rollback ∧
      ∃ next log,
        prepare P draws d.backend d.keys = .ok next ∧
        (rekey P d peer ts gate draws rollback).2 = { d with db := ⟨log, d.db.store⟩ } ∧
        HonestLog P next.keys.auditKey es log) := by
  have hself : Settled P d draws es d := settled_self hagree hlog
  cases gate with
  | error denied =>
      refine .inl ⟨fun h => Bool.false_ne_true h.admitted, ?_⟩
      simp only [rekey]
      split
      · exact hself
      · exact hself.append _
  | ok caller =>
      cases hprep : prepare P draws d.backend d.keys with
      | error e =>
          refine .inl ⟨?_, ?_⟩
          · intro h
            have hok : ∃ next, prepare P draws d.backend d.keys = .ok next :=
              prepare_isOk_iff.mpr ⟨h.successor, h.generation, h.sealNonce⟩
            obtain ⟨next, hnext⟩ := hok
            rw [hprep] at hnext
            cases hnext
          · simpa only [rekey, hprep] using hself
      | ok next =>
          obtain ⟨hsealed, -⟩ := prepare_eq_ok hP hprep
          obtain ⟨hsucc, hgen, hnonce⟩ := prepare_isOk_iff.mp ⟨next, hprep⟩
          rcases rekeyTransactions_cases hP hagree hlog hsealed draws.nonces
              rollback with
            ⟨hchain, e, htx⟩ | ⟨hchain, hstore, log, e, htx, hlog'⟩ |
              ⟨hchain, hstore, hdraws, log, store, report, htx, hlog', hwith, hagree'⟩
          · refine .inl ⟨fun h => h.chain hchain, ?_⟩
            simpa only [rekey, hprep, htx] using hself
          · refine .inr ⟨⟨rfl, hsucc, hgen, hnonce, hchain, hstore⟩, next, log, rfl, ?_, hlog'⟩
            simp only [rekey, hprep, htx]
          · refine .inl ⟨?_, ?_⟩
            · intro h
              rcases h.store with hs | ⟨n, hn, hnone⟩
              · exact hstore hs
              · exact hdraws n hn hnone
            have hrotated :
                Settled P d draws es { d with keys := next.keys, db := ⟨log, store⟩ } :=
              ⟨hagree', .inr ⟨next, report, hprep, rfl, hwith⟩, [], by simpa using hlog'⟩
            simp only [rekey, hprep, htx]
            split
            · exact hrotated
            have happend := hrotated.append (rekeyEntry ts caller)
            simp only [Database.append] at happend
            split at happend <;> rename_i hres <;> simpa only [hres] using happend

/-- Whether the daemon goes on or is restarted, it goes on with what was settled. -/
theorem Settled.survives
    {d' : DaemonState P}
    (h : Settled P d draws es d')
    (hlog : HonestLog P d.keys.auditKey es d.db.log)
    (crash : Option (Int64 × UInt32)) :
    ∃ keys db, survivor P d' crash = .ok (keys, db) ∧ AllOrNothing P d draws keys db := by
  have hall : ∀ d₁ : DaemonState P, Settled P d draws es d₁ →
      AllOrNothing P d draws d₁.keys d₁.db := by
    intro d₁ h₁
    obtain ⟨added, hadded⟩ := h₁.history
    exact ⟨h₁.agree.opens, h₁.agree.verifies, h₁.whole, es, added, hlog.records,
      hadded.records⟩
  cases crash with
  | none =>
      exact ⟨d'.keys, d'.db, rfl, hall d' h⟩
  | some start =>
      obtain ⟨ts, uid⟩ := start
      have hload := h.agree.sealed
      refine ⟨d'.keys, d'.db.append P d'.keys (unsealEntry ts uid), ?_,
        hall _ (h.append (unsealEntry ts uid))⟩
      simp only [survivor, hload, ← afterStartup_eq hload]
      rfl

end Handler

section Stuck

variable {P : Primitives}

/-- The log begins with an entry chained under `key`. -/
def BeginsUnder (P : Primitives) (key : Key32) (e : AuditEntry) (log : AuditLog) : Prop :=
  log.rows.head? = some (encodeRow 1 genesis (computeEntryHash P key genesis e) e)

theorem beginsUnder_of_records
    {key : Key32} {e : AuditEntry} {es : List AuditEntry} {log : AuditLog}
    (h : log.Records P key (e :: es)) :
    BeginsUnder P key e log := by
  unfold BeginsUnder
  rw [h.rows]
  rfl

theorem BeginsUnder.append
    {key : Key32} {e entry : AuditEntry} {keys : KeyMaterial P} {db : Database}
    (h : BeginsUnder P key e db.log) :
    BeginsUnder P key e (db.append P keys entry).log := by
  unfold Database.append
  split
  · rename_i log record happend
    obtain ⟨prev, id, -, -, -, hrows, -, -⟩ := append_eq_ok happend
    unfold BeginsUnder at h ⊢
    rw [hrows, List.head?_append, h]
    rfl
  · exact h

/-- Verification under another key fails at the first entry, unless the MACs agree. -/
theorem BeginsUnder.hash_eq
    {key key' : Key32} {e : AuditEntry} {log : AuditLog}
    (h : BeginsUnder P key e log)
    (hverify : log.Verifies P key') :
    computeEntryHash P key' genesis e = computeEntryHash P key genesis e := by
  obtain ⟨es, hes⟩ := AuditLog.verifies_iff.mp hverify
  unfold BeginsUnder at h
  rw [hes.rows] at h
  cases es with
  | nil =>
      cases h
  | cons e' es =>
      have hrow := Option.some.inj h
      obtain rfl := encodeRow_inj hrow
      exact List.Vector.toList_injective (congrArg AuditRow.entryHash hrow)

/-- A restart of a daemon that kept its old keys goes on with them. -/
theorem survivor_stuck
    {d : DaemonState P}
    (hagree : Agree P d.backend d.keys d.db)
    (log : AuditLog) (crash : Option (Int64 × UInt32)) :
    ∃ db, survivor P { d with db := ⟨log, d.db.store⟩ } crash = .ok (d.keys, db) ∧
      db.store = d.db.store ∧
      (db = ⟨log, d.db.store⟩ ∨
        ∃ entry, db = (Database.mk log d.db.store).append P d.keys entry) := by
  cases crash with
  | none =>
      exact ⟨_, rfl, rfl, .inl rfl⟩
  | some start =>
      obtain ⟨ts, uid⟩ := start
      have hload : loadKeys P d.backend ⟨log, d.db.store⟩ = .ok d.keys := by
        rw [← hagree.sealed]
        exact loadKeys_congr rfl
      refine ⟨(Database.mk log d.db.store).append P d.keys (unsealEntry ts uid), ?_,
        Database.append_store _ _ _, .inr ⟨_, rfl⟩⟩
      simp only [survivor, hload, ← afterStartup_eq hload]
      rfl

end Stuck

section AllOrNothing

variable {P : Primitives}

/--
A rotation is all or nothing exactly when it does not stop between its two
commits with entries in the log.  The MAC hypothesis is about the first entry
only: the successor's key gives it another MAC.
-/
theorem rekey_allOrNothing_iff
    (hP : AeadCorrect P)
    (d : DaemonState P) (peer : PeerCredentials) (ts : Int64)
    (gate : Except Denied Authenticated) (draws : RekeyDraws)
    (rollback : Option Transaction) (crash : Option (Int64 × UInt32))
    (hagree : Agree P d.backend d.keys d.db)
    (hmac : ∀ e es successor,
      d.db.log.Records P d.keys.auditKey (e :: es) → draws.successor = some successor →
        computeEntryHash P d.keys.auditKey genesis e ≠
          computeEntryHash P (MasterKey.auditKey P ⟨successor⟩) genesis e) :
    (∃ keys db,
      survivor P (rekey P d peer ts gate draws rollback).2 crash = .ok (keys, db) ∧
        AllOrNothing P d draws keys db) ↔
      ¬ (StopsBetween d gate draws rollback ∧ d.db.log.rows ≠ []) := by
  obtain ⟨es, hlog⟩ := hagree.log
  rcases rekey_cases hP hagree hlog peer ts gate draws rollback with
    ⟨hstop, hsettled⟩ | ⟨hstop, next, log, hprep, hafter, hlog'⟩
  · exact iff_of_true (hsettled.survives hlog crash) (fun h => hstop h.1)
  rw [hafter]
  cases es with
  | nil =>
      -- an empty log has no entry that the wrong key could fail on
      have hsettled : Settled P d draws [] { d with db := ⟨log, d.db.store⟩ } :=
        ⟨⟨hagree.opens, (loadKeys_congr rfl).trans hagree.sealed, [], hlog'.of_nil⟩,
          .inl ⟨rfl, rfl⟩, [], hlog'.of_nil⟩
      refine iff_of_true (hsettled.survives hlog crash) ?_
      rintro ⟨-, hrows⟩
      exact hrows hlog.records.rows
  | cons e es =>
      have hrows : d.db.log.rows ≠ [] := by
        rw [hlog.records.rows]
        simp [chainRows]
      refine iff_of_false ?_ (fun h => h ⟨hstop, hrows⟩)
      rintro ⟨keys, db, hsurvivor, hwhole⟩
      obtain ⟨db', hstuck, -, hdb⟩ := survivor_stuck hagree log crash
      rw [hstuck] at hsurvivor
      cases hsurvivor
      have hbegins : BeginsUnder P next.keys.auditKey e db.log := by
        have hbase : BeginsUnder P next.keys.auditKey e (Database.mk log d.db.store).log :=
          beginsUnder_of_records hlog'.records
        rcases hdb with rfl | ⟨entry, rfl⟩
        · exact hbase
        · exact hbase.append
      have hsucc := (prepare_eq_ok hP hprep).2
      apply hmac e es _ hlog.records hsucc
      rw [hbegins.hash_eq hwhole.verifies, next.keys.derived]

/-- The database of a new deployment. -/
def sampleDatabase : Database :=
  match initialise samplePrimitives (some (sampleKey 1)) (some (sampleNonce 3))
      ⟨sampleKey 2⟩ Database.empty 10 with
  | .ok db => db
  | .error _ => Database.empty

def sampleDaemon : DaemonState samplePrimitives where
  keys := KeyMaterial.new samplePrimitives ⟨sampleKey 1⟩ 1
  backend := ⟨sampleKey 2⟩
  db := sampleDatabase

theorem agree_sampleDaemon :
    Agree samplePrimitives sampleDaemon.backend sampleDaemon.keys sampleDaemon.db := by
  have hok :
      ∃ db, initialise samplePrimitives (some (sampleKey 1)) (some (sampleNonce 3))
        ⟨sampleKey 2⟩ Database.empty 10 = .ok db :=
    exists_of_isOk (by decide +kernel)
  obtain ⟨db, hdb⟩ := hok
  have heq : sampleDaemon.db = db := by
    simp only [sampleDaemon, sampleDatabase, hdb]
  rw [heq]
  exact agree_initialise samplePrimitives_correct hdb

/-- Its log has one entry. -/
theorem records_sampleDaemon :
    sampleDaemon.db.log.Records samplePrimitives sampleDaemon.keys.auditKey
      [initEntry 10] :=
  ⟨by decide +kernel, by decide +kernel, by decide⟩

def sampleCaller : Authenticated :=
  ⟨⟨"ABCDEFGH", by decide, by decide⟩, ⟨0, 1⟩⟩

/-- Draws that all succeed. -/
def sampleRekeyDraws : RekeyDraws :=
  ⟨some (sampleKey 4), some (sampleNonce 5), fun i => some (sampleNonce (100 + i))⟩

/-- A rotation that commits both transactions and crashes before it records itself. -/
theorem rekey_allOrNothing_sample :
    ∃ keys db,
      survivor samplePrimitives
          (rekey samplePrimitives sampleDaemon sampleCaller.peer 20 (.ok sampleCaller)
            sampleRekeyDraws (some .record)).2 (some (30, 0)) = .ok (keys, db) ∧
        AllOrNothing samplePrimitives sampleDaemon sampleRekeyDraws keys db := by
  refine (rekey_allOrNothing_iff samplePrimitives_correct sampleDaemon sampleCaller.peer 20
    (.ok sampleCaller) sampleRekeyDraws (some .record) (some (30, 0)) agree_sampleDaemon
    ?_).mpr ?_
  · intro e es successor hrecords hsucc
    cases hrecords.unique records_sampleDaemon
    cases hsucc
    decide +kernel
  · rintro ⟨hstop, -⟩
    rcases hstop.store with h | ⟨n, -, hnone⟩
    · cases h
    · cases hnone

/-- The daemon crashes between the two commits of a rotation, and is restarted. -/
theorem crash_between_commits :
    Agree samplePrimitives sampleDaemon.backend sampleDaemon.keys sampleDaemon.db ∧
      ∃ keys db,
        survivor samplePrimitives
            (rekey samplePrimitives sampleDaemon sampleCaller.peer 20 (.ok sampleCaller)
              sampleRekeyDraws (some .store)).2 (some (30, 0)) = .ok (keys, db) ∧
          ¬ db.log.Verifies samplePrimitives keys.auditKey := by
  refine ⟨agree_sampleDaemon, ?_⟩
  have hverdict :
      (match survivor samplePrimitives
          (rekey samplePrimitives sampleDaemon sampleCaller.peer 20 (.ok sampleCaller)
            sampleRekeyDraws (some .store)).2 (some (30, 0)) with
        | .ok (keys, db) =>
            (verify samplePrimitives db.log keys.auditKey).toOption.map
              VerificationResult.isValid
        | .error _ => none) = some false := by
    decide +kernel
  split at hverdict
  · rename_i keys db hsurvivor
    refine ⟨keys, db, hsurvivor, ?_⟩
    rintro ⟨n, tail, hvalid⟩
    rw [hvalid] at hverdict
    cases hverdict
  · cases hverdict

end AllOrNothing

end Daemon
end Secretbae
