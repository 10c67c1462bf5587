import Secretbae.Daemon.Launch
import Secretbae.Service.Linear
import Secretbae.Service.Maintenance

/-!
# One history across restarts

A daemon serves requests, rotates its key, is killed and started again.  The
database holds the key that is in use, sealed (`State.Sealed`); a start unseals
it with the keyfile, which never changes, and so finds every plaintext that the
daemon before it kept.  A rotation leaves either key, each with the rows that it
opens, wherever it is killed, also between its transactions (`safe_rekey`).

All the lives of a daemon therefore go through one sequential history, and the
answers given in one of them agree with those given in another
(`answers_survive`).
-/

namespace Secretbae
namespace Service

open Lib Proto Core Audit Storage Policies
open Daemon (KeyMaterial Database ApiError LoadEnv Keyfile Host LaunchEnv LaunchConfig
  RekeyDraws Succession loadKeys loadKeyfile prepare rekeyTransactions launch)

section Resting

variable {P : Primitives} {F : Foreign}

/-- The database holds the key that is in use, sealed. -/
def State.Sealed (s : State P) : Prop :=
  loadKeys P s.backend s.db = .ok s.keys

/-- The key in the database opens these plaintexts. -/
def State.Rests (backend : KeyfileSeal) (m : Directory SecretPath (Option Bytes))
    (s : State P) : Prop :=
  s.backend = backend ∧
    ∃ keys, loadKeys P backend s.db = .ok keys ∧ s.db.store.plain P keys.master = m

/-- The daemon goes on with the same plaintexts. -/
structure State.Continues (s s' : State P) : Prop where
  isSealed : s'.Sealed
  backend : s'.backend = s.backend
  plain : s'.plain P = s.plain P

theorem State.Continues.rests
    {s s' : State P}
    (h : s.Continues s') :
    s'.Rests s.backend (s.plain P) :=
  ⟨h.backend, s'.keys, h.backend ▸ h.isSealed, h.plain⟩

theorem State.SameKeys.isSealed
    {s s' : State P}
    (h : s.SameKeys s')
    (hs : s.Sealed) :
    s'.Sealed := by
  unfold State.Sealed at hs ⊢
  rw [Daemon.loadKeys_congr h.sealed, h.backend, h.keys]
  exact hs

/-- What the plaintexts do not show. -/
theorem State.Continues.idle
    {s₀ s s' : State P}
    (h : s₀.Continues s)
    (hidle : (plainHistory P).adds s [] s') :
    s₀.Continues s' := by
  obtain ⟨hexecutes, hkeys⟩ := hidle
  exact ⟨hkeys.isSealed h.isSealed, hkeys.backend.trans h.backend, hexecutes.of_nil.trans h.plain⟩

theorem State.Continues.refl
    {s : State P}
    (hs : s.Sealed) :
    s.Continues s :=
  ⟨hs, rfl, rfl⟩

theorem State.Continues.trans
    {s₀ s s' : State P}
    (h : s₀.Continues s)
    (h' : s.Continues s') :
    s₀.Continues s' :=
  ⟨h'.isSealed, h'.backend.trans h.backend, h'.plain.trans h.plain⟩

end Resting

section Rotating

variable {P : Primitives} {F : Foreign}

/-- The second transaction leaves the rows under the sealed new key. -/
theorem rekeyWith_keeps
    (hP : AeadCorrect P)
    {draws : RekeyDraws} {backend : KeyfileSeal} {keys : KeyMaterial P} {next : Succession P}
    {store store' : Store} {report : RekeyReport}
    (hprepare : prepare P draws backend keys = .ok next)
    (h : rekeyWith store next.sealed
      (rewrapWith P draws.nonces keys.master next.keys.master next.keys.generation) =
        .ok (store', report)) (log : AuditLog) :
    loadKeys P backend ⟨log, store'⟩ = .ok next.keys ∧
      store'.plain P next.keys.master = store.plain P keys.master := by
  obtain ⟨hsealed, -⟩ := Daemon.prepare_eq_ok hP hprepare
  have hkey := (rekeyWith_eq_ok h).2.2
  refine ⟨?_, plain_rekeyWith hP h⟩
  simp only [loadKeys, hkey, hsealed, Daemon.KeyMaterial.new_eq]

/-- The transactions of a rotation leave the rows as they are, or under the sealed new key. -/
theorem rekeyTransactions_keeps
    (hP : AeadCorrect P)
    {draws : RekeyDraws} {backend : KeyfileSeal} {keys : KeyMaterial P} {next : Succession P}
    (hprepare : prepare P draws backend keys = .ok next) (db : Database) :
    (∃ db' e, rekeyTransactions P keys next draws.nonces none db = (db', .error e) ∧
      db'.store = db.store) ∨
    ∃ db' counts, rekeyTransactions P keys next draws.nonces none db = (db', .ok counts) ∧
      loadKeys P backend db' = .ok next.keys ∧
      db'.store.plain P next.keys.master = db.store.plain P keys.master := by
  unfold rekeyTransactions
  rw [if_neg nofun]
  cases rekeyChain P db.log keys.auditKey next.keys.auditKey with
  | error e => exact .inl ⟨db, _, rfl, rfl⟩
  | ok rekeyed =>
      dsimp only
      rw [if_neg nofun]
      cases hstore : rekeyWith db.store next.sealed
          (rewrapWith P draws.nonces keys.master next.keys.master next.keys.generation) with
      | error e => exact .inl ⟨_, _, rfl, rfl⟩
      | ok rewrapped =>
          obtain ⟨hload, hplain⟩ := rekeyWith_keeps hP hprepare hstore rekeyed.1
          exact .inr ⟨_, _, rfl, hload, hplain⟩

/-- The transactions of a rotation, before the new key has been adopted. -/
theorem rotate_cases
    (hP : AeadCorrect P)
    {s : State P} (hs : s.Sealed) (draws : RekeyDraws) :
    (∃ s' e, (rotate P draws).alone s = (.error e, s') ∧ s.Continues s') ∨
    ∃ s' next counts, (rotate P draws).alone s = (.ok (next, counts), s') ∧
      s'.Rests s.backend (s.plain P) ∧ s.Continues { s' with keys := next.keys } := by
  rw [rotate_alone]
  cases hprepare : prepare P draws s.backend s.keys with
  | error e => exact .inl ⟨s, e, rfl, .refl hs⟩
  | ok next =>
      rcases rekeyTransactions_keeps hP hprepare s.db with
        ⟨db, e, htransactions, hstore⟩ | ⟨db, counts, htransactions, hload, hplain⟩
      · refine .inl ⟨{ s with db := db }, e, by simp only [htransactions]; rfl, ?_, rfl, ?_⟩
        · unfold State.Sealed at hs ⊢
          rw [← hs]
          exact Daemon.loadKeys_congr (by rw [hstore])
        · simp only [State.plain, hstore]
      · exact .inr ⟨{ s with db := db }, next, counts, by simp only [htransactions]; rfl,
          ⟨rfl, next.keys, hload, hplain⟩, hload, rfl, hplain⟩

/-- Wherever its two transactions are killed, also between them. -/
theorem safe_rotate
    (hP : AeadCorrect P)
    {s : State P} (hs : s.Sealed) (draws : RekeyDraws) :
    (rotate P draws).Safe (State.Rests s.backend (s.plain P))
      (fun rotated s' => s.Continues { s' with keys := rotated.1.keys }) s := by
  have hrests : s.Rests s.backend (s.plain P) := (State.Continues.refl hs).rests
  have hlog : (rekeyLog P draws).Safe (State.Rests s.backend (s.plain P))
      (fun rekeyed s' => prepare P draws s.backend s.keys = .ok rekeyed.2.1 ∧
        rekeyed.1 = s.keys ∧ s'.backend = s.backend ∧ s'.db.store = s.db.store) s := by
    unfold rekeyLog
    cases hprepare : prepare P draws s.backend s.keys with
    | error e =>
        exact .atomically hrests (by simpa only [hprepare] using hrests) (by simp [hprepare])
    | ok next =>
        cases hchain : rekeyChain P s.db.log s.keys.auditKey next.keys.auditKey with
        | error e =>
            exact .atomically hrests (by simpa only [hprepare, hchain] using hrests)
              (by simp [hprepare, hchain])
        | ok rekeyed =>
            -- the log is under the new key, but nothing else is
            refine .atomically hrests ?_ ?_
            · simp only [hprepare, hchain]
              exact ⟨rfl, s.keys, (Daemon.loadKeys_congr rfl).trans hs, rfl⟩
            · intro a ha
              simp only [hprepare, hchain] at ha ⊢
              cases ha
              exact ⟨rfl, rfl, trivial, trivial⟩
  refine hlog.bind ?_
  rintro ⟨keys, next, entries⟩ s₁ hrests₁ ⟨hprepare, rfl, hbackend, hstore⟩
  have hcommit : (rekeyStore P draws s.keys next).Safe (State.Rests s.backend (s.plain P))
      (fun _ s' => s.Continues { s' with keys := next.keys }) s₁ := by
    unfold rekeyStore
    cases hrekey : rekeyWith s₁.db.store next.sealed (rewrapWith P draws.nonces s.keys.master
        next.keys.master next.keys.generation) with
    | error e =>
        exact .atomically hrests₁ (by simpa only [hrekey] using hrests₁) (by simp [hrekey])
    | ok rekeyed =>
        obtain ⟨hload, hplain⟩ := rekeyWith_keeps hP hprepare hrekey s₁.db.log
        rw [hstore] at hplain
        refine .atomically hrests₁ ?_ ?_
        · simp only [hrekey]
          exact ⟨hbackend, next.keys, hload, hplain⟩
        · intro a _
          simp only [hrekey]
          exact ⟨hbackend ▸ hload, hbackend, hplain⟩
  refine hcommit.bind ?_
  rintro rewrapped s₂ hrests₂ hs₂
  exact ⟨hrests₂, hs₂⟩

/-- Wherever a rotation is killed, the database has the key of its rows. -/
theorem safe_rekey
    (hP : AeadCorrect P)
    {s : State P} (hs : s.Sealed)
    (conn : Connection) (draws : RekeyDraws) (env : Env) :
    (rekey P F conn draws env).Safe (State.Rests s.backend (s.plain P)) (fun _ _ => True) s := by
  unfold rekey
  have hidle : ∀ {s₁ : State P}, s.Continues s₁ → ∀ s', (plainHistory P).adds s₁ [] s' →
      s'.Rests s.backend (s.plain P) :=
    fun hs₁ s' hadds => (hs₁.idle hadds).rests
  have hstart : s.Continues s := .refl hs
  refine (idle_gate.safe (hidle hstart) ((plainHistory P).nothing s)).bind ?_
  rintro caller s₁ hrests₁ ⟨hadds, -⟩
  have hs₁ : s.Continues s₁ := hstart.idle hadds
  have hrotate : (rotate P draws).Safe (State.Rests s.backend (s.plain P))
      (fun rotated s' => s.Continues { s' with keys := rotated.1.keys }) s₁ := by
    rw [← hs₁.backend, ← hs₁.plain]
    exact (safe_rotate hP hs₁.isSealed draws).mono fun _ _ h => hs₁.trans h
  refine hrotate.bind ?_
  rintro ⟨next, rewrapped, entries⟩ s₂ hrests₂ hs₂
  have hadopt : (Script.atomically .other fun s => (.ok (), { s with keys := next.keys }) :
      Code P ApiError Unit).Safe (State.Rests s.backend (s.plain P))
      (fun _ s' => s.Continues s') s₂ :=
    .atomically hrests₂ hs₂.rests fun _ _ => hs₂
  refine hadopt.bind ?_
  rintro _ s₃ - hs₃
  refine (idle_recordOrInternal.safe (hidle hs₃) ((plainHistory P).nothing s₃)).bind ?_
  rintro _ s₄ hrests₄ -
  exact ⟨hrests₄, trivial⟩

/-- A rotation that is not killed leaves a daemon that goes on. -/
theorem rekey_continues
    (hP : AeadCorrect P)
    {s : State P} (hs : s.Sealed)
    (conn : Connection) (draws : RekeyDraws) (env : Env) :
    s.Continues ((rekey P F conn draws env).alone s).2 := by
  have hstart : s.Continues s := .refl hs
  unfold rekey
  rw [Script.alone_bind]
  have hgate : s.Continues ((gate P F conn .rekey none env.gate).alone s).2 :=
    hstart.idle idle_gate.alone
  rcases hadmitted : (gate P F conn .rekey none env.gate).alone s with ⟨_ | caller, s₁⟩
  · rw [hadmitted] at hgate
    exact hgate
  rw [hadmitted] at hgate
  change s.Continues s₁ at hgate
  rw [Script.andThen_ok, Script.alone_bind]
  rcases rotate_cases hP hgate.isSealed draws with
    ⟨s', e, heq, hs'⟩ | ⟨s', next, counts, heq, -, hs'⟩
  · rw [heq]
    exact hgate.trans hs'
  rw [heq, Script.andThen_ok]
  dsimp only
  rw [Script.alone_bind, Script.alone_atomically, Script.andThen_ok, Script.alone_bind]
  have hrecord : s.Continues ((recordOrInternal P caller .rekey none none env).alone
      { s' with keys := next.keys }).2 :=
    (hgate.trans hs').idle idle_recordOrInternal.alone
  generalize (recordOrInternal P caller .rekey none none env).alone
    { s' with keys := next.keys } = recorded at hrecord ⊢
  rcases recorded with ⟨_ | _, s₂⟩ <;> exact hrecord

end Rotating

section Lives

variable (P : Primitives) (F : Foreign) (J : PolicyJson) (K : Kernel)

/-- A new process is started on what another has left, and serves from then on. -/
def Restarts (keyfile : Option Keyfile) (s s' : State P) : Prop :=
  ∃ env config h h', h.process.Blank ∧
    h.deployment = ⟨keyfile, s.db.store, s.access, s.db.log⟩ ∧
    (launch P J K env config).alone h = (.ok (s'.keys, s'.backend), h') ∧
    s'.db = ⟨h'.deployment.log, h'.deployment.store⟩ ∧ s'.access = h'.deployment.access

/-- Requests that are served together, until the daemon stops or does something else. -/
structure Era (P : Primitives) (ι : Type) where
  start : State P
  requests : ι → Handler
  schedule : List ι

variable {P} {ι : Type} [DecidableEq ι]

def Era.finish (era : Era P ι) : System Label (State P) Abort Reply (Option Grant) ι :=
  run (System.step (Acting P F)) (answering P F era.start era.requests) era.schedule

/-- The reply that has been given to a request. -/
def Told (eras : List (Era P ι)) (n : ℕ) (i : ι) (reply : Reply) : Prop :=
  ∃ era, eras[n]? = some era ∧ (era.finish F).code i = .ret (.ok reply)

/-- A value that a request has been shown. -/
def Shows (eras : List (Era P ι)) (n : ℕ) (i : ι) (path : SecretPath) (version : ℕ)
    (value : Shown) : Prop :=
  ∃ era reply, eras[n]? = some era ∧ (era.finish F).code i = .ret (.ok reply) ∧
    (path, version, value) ∈ (era.requests i).shown reply

/-- What can become of a daemon, with what it serves on the way. -/
inductive Lives (keyfile : Option Keyfile) : State P → List (Era P ι) → State P → Prop
  | here (s : State P) : Lives keyfile s [] s
  | serves
      {s s' : State P} {requests : ι → Handler} {schedule : List ι} {eras : List (Era P ι)}
      (hsteady : ∀ i, (requests i).Steady)
      (hrest : Lives keyfile (Era.finish F ⟨s, requests, schedule⟩).shared eras s') :
      Lives keyfile s (⟨s, requests, schedule⟩ :: eras) s'
  | rotates
      {s s' : State P} {eras : List (Era P ι)}
      (conn : Connection) (draws : RekeyDraws) (env : Env)
      (hrest : Lives keyfile ((rekey P F conn draws env).alone s).2 eras s') :
      Lives keyfile s eras s'
  | restarts
      {s s₁ s' : State P} {eras : List (Era P ι)}
      (hrestarts : Restarts P J K keyfile s s₁)
      (hrest : Lives keyfile s₁ eras s') :
      Lives keyfile s eras s'
  | killed
      {s s₁ s' : State P} {eras : List (Era P ι)}
      (conn : Connection) (draws : RekeyDraws) (env : Env) (k : ℕ)
      (hrestarts : Restarts P J K keyfile ((rekey P F conn draws env).stopped k s) s₁)
      (hrest : Lives keyfile s₁ eras s') :
      Lives keyfile s eras s'

/-- The keyfile is the one of the seal. -/
def Opens (keyfile : Option Keyfile) (backend : KeyfileSeal) : Prop :=
  ∃ load path, loadKeyfile load path keyfile = .ok backend

end Lives

section History

variable {P : Primitives} {F : Foreign} {J : PolicyJson} {K : Kernel} {keyfile : Option Keyfile}

/-- A keyfile is read in one way only. -/
theorem loadKeyfile_eq_ok
    {load : LoadEnv} {path : String} {backend : KeyfileSeal}
    (h : loadKeyfile load path keyfile = .ok backend) :
    ∃ file contents, keyfile = some file ∧ ofUtf8 file.contents = some contents ∧
      Daemon.KeyfileSeal.fromHex contents = .ok backend := by
  unfold loadKeyfile at h
  obtain ⟨⟨⟩, -, h⟩ := bind_eq_ok.mp h
  obtain ⟨file, hfile, h⟩ := bind_eq_ok.mp h
  obtain ⟨⟨⟩, -, h⟩ := bind_eq_ok.mp h
  obtain ⟨⟨⟩, -, h⟩ := bind_eq_ok.mp h
  obtain ⟨contents, hcontents, h⟩ := bind_eq_ok.mp h
  refine ⟨file, contents, ?_, ?_, mapError_eq_ok.mp h⟩
  · cases keyfile <;> cases hfile
    rfl
  · cases hutf8 : ofUtf8 file.contents with
    | none =>
        rw [hutf8] at hcontents
        cases hcontents
    | some text =>
        rw [hutf8] at hcontents
        cases hcontents
        rfl

theorem Opens.unique
    {backend backend' : KeyfileSeal}
    (h : Opens keyfile backend)
    (h' : Opens keyfile backend') :
    backend' = backend := by
  obtain ⟨load, path, h⟩ := h
  obtain ⟨load', path', h'⟩ := h'
  obtain ⟨file, contents, hfile, hcontents, hread⟩ := loadKeyfile_eq_ok h
  obtain ⟨file', contents', hfile', hcontents', hread'⟩ := loadKeyfile_eq_ok h'
  cases hfile.symm.trans hfile'
  cases hcontents.symm.trans hcontents'
  cases hread.symm.trans hread'
  rfl

/-- A start finds what the database holds. -/
theorem Restarts.finds
    {s s' : State P} {backend : KeyfileSeal} {m : Directory SecretPath (Option Bytes)}
    (h : Restarts P J K keyfile s s')
    (hK : K.Documented)
    (hopens : Opens keyfile backend)
    (hrests : s.Rests backend m) :
    s'.Sealed ∧ s'.backend = backend ∧ s'.plain P = m := by
  obtain ⟨env, config, host, host', hblank, hdeployment, hlaunch, hdb, -⟩ := h
  obtain ⟨-, keys, hload, hplain⟩ := hrests
  have hlaunched : Daemon.Launched P J K env config host s'.keys s'.backend host' :=
    (Daemon.safe_launch P J config hK hblank).alone hlaunch
  have hunlocked := hlaunched.unlocked
  have hunsealed := hlaunched.unsealed
  have hstore := hlaunched.store
  rw [hdeployment] at hunlocked hunsealed hstore
  have hbackend : s'.backend = backend := hopens.unique ⟨_, _, hunlocked⟩
  have hkeys : s'.keys = keys := by
    have hcongr : loadKeys P backend ⟨s.db.log, s.db.store⟩ = loadKeys P backend s.db :=
      Daemon.loadKeys_congr rfl
    rw [hbackend, hcongr, hload] at hunsealed
    exact (Except.ok.inj hunsealed).symm
  refine ⟨?_, hbackend, ?_⟩
  · unfold State.Sealed
    rw [← hunsealed, hdb]
    exact Daemon.loadKeys_congr (congrArg Store.sealedMasterKey hstore)
  · rw [State.plain, hdb, hkeys, hstore]
    exact hplain

variable {ι : Type}

/-- The requests of one era, before those of all later ones. -/
def placed (first : List (ι × PlainEvent)) (later : List ((ℕ × ι) × PlainEvent)) :
    List ((ℕ × ι) × PlainEvent) :=
  first.map (Prod.map (Prod.mk 0) id) ++ later.map (Prod.map (Prod.map Nat.succ id) id)

theorem events_placed
    (first : List (ι × PlainEvent)) (later : List ((ℕ × ι) × PlainEvent)) :
    (placed first later).map Prod.snd = first.map Prod.snd ++ later.map Prod.snd := by
  simp [placed, Function.comp_def]

theorem ranked_placed
    {first : List (ι × PlainEvent)} {later : List ((ℕ × ι) × PlainEvent)}
    (h : later.Pairwise fun a b => a.1.1 ≤ b.1.1) :
    (placed first later).Pairwise fun a b => a.1.1 ≤ b.1.1 := by
  rw [placed, List.pairwise_append, List.pairwise_map, List.pairwise_map]
  refine ⟨List.pairwise_of_forall fun _ _ => le_rfl, h.imp Nat.succ_le_succ, ?_⟩
  intro a ha b _
  obtain ⟨t, -, rfl⟩ := List.mem_map.mp ha
  exact Nat.zero_le _

variable [DecidableEq ι] {s s' : State P} {eras : List (Era P ι)}

theorem own_placed_zero
    (first : List (ι × PlainEvent)) (later : List ((ℕ × ι) × PlainEvent)) (i : ι) :
    own (0, i) (placed first later) = own i first := by
  rw [placed, own_append, own_relabel (Prod.mk_right_injective 0), own_relabel_of_ne,
    List.append_nil]
  rintro ⟨n, j⟩ heq
  cases heq

theorem own_placed_succ
    (first : List (ι × PlainEvent)) (later : List ((ℕ × ι) × PlainEvent)) (n : ℕ) (i : ι) :
    own (n + 1, i) (placed first later) = own (n, i) later := by
  have hinjective : Function.Injective (Prod.map Nat.succ id : ℕ × ι → ℕ × ι) :=
    Nat.succ_injective.prodMap Function.injective_id
  rw [placed, own_append, own_relabel_of_ne, List.nil_append]
  · exact own_relabel hinjective (n, i) later
  · intro j heq
    cases heq

/-- All lives go through one history, one after the other. -/
theorem history_of_lives
    (hP : AeadCorrect P) (hK : K.Documented)
    (hlives : Lives F J K keyfile s eras s')
    (hs : s.Sealed)
    (hopens : Opens keyfile s.backend) :
    ∃ history : List ((ℕ × ι) × PlainEvent),
      PlainExecutes (s.plain P) (history.map Prod.snd) (s'.plain P) ∧
      (∀ n (era : Era P ι) i, eras[n]? = some era →
        (era.requests i).Reported F (own (n, i) history) ((era.finish F).code i)) ∧
      history.Pairwise fun a b => a.1.1 ≤ b.1.1 := by
  induction hlives with
  | here s =>
      refine ⟨[], .nil _, ?_, .nil⟩
      intro n era i hera
      rw [List.getElem?_nil] at hera
      cases hera
  | @serves s s' requests schedule eras hsteady hrest ih =>
      obtain ⟨first, -, ⟨⟨hexecutes, hkeys⟩, -⟩, hreported, -⟩ :=
        history_of_run (F := F) hP s requests hsteady schedule []
      obtain ⟨later, hlater, hall, hranked⟩ :=
        ih (hkeys.isSealed hs) (hkeys.backend.symm ▸ hopens)
      refine ⟨placed first later, ?_, ?_, ranked_placed hranked⟩
      · rw [events_placed]
        exact hexecutes.append hlater
      · intro n era i hera
        cases n with
        | zero =>
            cases hera
            rw [own_placed_zero]
            exact hreported i
        | succ n =>
            rw [own_placed_succ]
            exact hall n era i hera
  | @rotates s s' eras conn draws env hrest ih =>
      have hcontinues : s.Continues ((rekey P F conn draws env).alone s).2 :=
        rekey_continues hP hs conn draws env
      rw [← hcontinues.plain]
      exact ih hcontinues.isSealed (by rw [hcontinues.backend]; exact hopens)
  | @restarts s s₁ s' eras hrestarts hrest ih =>
      obtain ⟨hsealed, hbackend, hplain⟩ :=
        hrestarts.finds hK hopens (State.Continues.refl hs).rests
      rw [← hplain]
      exact ih hsealed (by rw [hbackend]; exact hopens)
  | @killed s s₁ s' eras conn draws env k hrestarts hrest ih =>
      obtain ⟨hsealed, hbackend, hplain⟩ :=
        hrestarts.finds hK hopens ((safe_rekey hP hs conn draws env).stopped k)
      rw [← hplain]
      exact ih hsealed (by rw [hbackend]; exact hopens)

/-- What a reply says has been done. -/
theorem Told.answers
    {history : List ((ℕ × ι) × PlainEvent)} {n : ℕ} {i : ι} {reply : Reply}
    (h : Told F eras n i reply)
    (hreported : ∀ n (era : Era P ι) i, eras[n]? = some era →
      (era.requests i).Reported F (own (n, i) history) ((era.finish F).code i)) :
    ∃ era, eras[n]? = some era ∧ (era.requests i).Answers F (own (n, i) history) reply := by
  obtain ⟨era, hera, hret⟩ := h
  have hanswers := hreported n era i hera
  rw [hret] at hanswers
  exact ⟨era, hera, hanswers⟩

/-- What has been shown has been read. -/
theorem Shows.answers
    {history : List ((ℕ × ι) × PlainEvent)} {n version : ℕ} {i : ι} {path : SecretPath}
    {value : Shown}
    (h : Shows F eras n i path version value)
    (hreported : ∀ n (era : Era P ι) i, eras[n]? = some era →
      (era.requests i).Reported F (own (n, i) history) ((era.finish F).code i)) :
    ∃ (era : Era P ι) (reply : Reply), (era.requests i).Answers F (own (n, i) history) reply ∧
      (path, version, value) ∈ (era.requests i).shown reply := by
  obtain ⟨era, reply, hera, hret, hvalue⟩ := h
  have hanswers := hreported n era i hera
  rw [hret] at hanswers
  exact ⟨era, reply, hanswers, hvalue⟩

/--
A daemon serves, rotates its key, is killed, also in the middle of a rotation,
and is started again, any number of times.  The plaintexts it then keeps are
those that one sequential history of the requests leads to, and its answers do
not contradict each other: no two writes of a path are ever told the same
number, and a later life tells a higher one than an earlier; all who are ever
shown a version are shown the same value, and it is the value of the write that
was told its number.
-/
theorem answers_survive
    (hP : AeadCorrect P) (hK : K.Documented)
    (hlives : Lives F J K keyfile s eras s')
    (hs : s.Sealed)
    (hopens : Opens keyfile s.backend) :
    (∃ history : List ((ℕ × ι) × PlainEvent),
      PlainExecutes (s.plain P) (history.map Prod.snd) (s'.plain P) ∧
      ∀ n (era : Era P ι) i, eras[n]? = some era →
        (era.requests i).Reported F (own (n, i) history) ((era.finish F).code i)) ∧
    (∀ n m i j path v v', (n, i) ≠ (m, j) → Told F eras n i (.written ⟨path, v⟩) →
      Told F eras m j (.written ⟨path, v'⟩) → v ≠ v') ∧
    (∀ n m i j path v v', n < m → Told F eras n i (.written ⟨path, v⟩) →
      Told F eras m j (.written ⟨path, v'⟩) → v.toNat < v'.toNat) ∧
    (∀ n m i j path version a b, Shows F eras n i path version a →
      Shows F eras m j path version b → ∃ x, a.Presents F x ∧ b.Presents F x) ∧
    ∀ n m i j path v a, Told F eras n i (.written ⟨path, v⟩) →
      Shows F eras m j path v.toNat a →
      ∃ era conn request draws env x, eras[n]? = some era ∧
        era.requests i = .write conn request draws env ∧
        F.base64Decode request.value = some x ∧ a.Presents F x := by
  obtain ⟨history, hall, hreported, hranked⟩ := history_of_lives hP hK hlives hs hopens
  have hbounded : (s.plain P).Bounded := Store.bounded_plain s.db.store
  refine ⟨⟨history, hall, hreported⟩, ?_, ?_, ?_, ?_⟩
  · intro n m i j path v v' hne hi hj
    obtain ⟨_, -, hfirst⟩ := hi.answers hreported
    obtain ⟨_, -, hsecond⟩ := hj.answers hreported
    exact numbers_differ hall hne hfirst hsecond
  · intro n m i j path v v' hlt hi hj
    obtain ⟨_, -, hfirst⟩ := hi.answers hreported
    obtain ⟨_, -, hsecond⟩ := hj.answers hreported
    obtain ⟨-, -, -, -, x, -, -, he⟩ := hfirst.mem_written
    obtain ⟨-, -, -, -, x', -, -, he'⟩ := hsecond.mem_written
    exact hall.numbers_ranked Prod.fst hranked hlt he he' rfl rfl
  · intro n m i j path version a b hi hj
    obtain ⟨_, _, hfirst, ha⟩ := hi.answers hreported
    obtain ⟨_, _, hsecond, hb⟩ := hj.answers hreported
    exact values_agree hall hbounded hfirst hsecond ha hb
  · intro n m i j path v a hi hj
    obtain ⟨era, hera, hfirst⟩ := hi.answers hreported
    obtain ⟨_, _, hsecond, ha⟩ := hj.answers hreported
    obtain ⟨conn, request, draws, env, x, hwrite, hdecode, hpresents⟩ :=
      value_written hall hbounded hfirst hsecond ha
    exact ⟨era, conn, request, draws, env, x, hera, hwrite, hdecode, hpresents⟩

end History

section Samples

def sampleKeyfile : Option Keyfile :=
  some ⟨0o400, 0, utf8 (String.ofList (Daemon.hexEncode (sampleKey 2).toList))⟩

theorem opens_sampleKeyfile :
    Opens sampleKeyfile ⟨sampleKey 2⟩ := by
  refine ⟨⟨.ok (), .ok ()⟩, "k", ?_⟩
  have hmaterial : (loadKeyfile ⟨.ok (), .ok ()⟩ "k" sampleKeyfile).toOption.map
      KeyfileSeal.material = some (sampleKey 2) := by
    decide +kernel
  cases hload : loadKeyfile ⟨.ok (), .ok ()⟩ "k" sampleKeyfile with
  | error e =>
      rw [hload] at hmaterial
      cases hmaterial
  | ok backend =>
      rw [hload] at hmaterial
      exact congrArg (Except.ok ∘ KeyfileSeal.mk) (Option.some.inj hmaterial)

/-- A start on what a daemon leaves. -/
def sampleStart (s : State samplePrimitives) :
    Except Daemon.LaunchError (KeyMaterial samplePrimitives × KeyfileSeal) × Host :=
  (launch samplePrimitives wholeForeign.policyJson .standard (.quiet ⟨990, 990⟩)
    Daemon.sampleConfig).alone
    ⟨Daemon.rootProcess, fun _ => none, ⟨sampleKeyfile, s.db.store, s.access, s.db.log⟩⟩

def restarted (s : State samplePrimitives) : State samplePrimitives :=
  match sampleStart s with
  | (.ok (keys, backend), h) =>
      ⟨keys, backend, ⟨h.deployment.log, h.deployment.store⟩, h.deployment.access⟩
  | (.error _, _) => s

theorem restarts_restarted
    {s : State samplePrimitives}
    (h : (sampleStart s).1.isOk = true) :
    Restarts samplePrimitives wholeForeign.policyJson .standard sampleKeyfile s
      (restarted s) := by
  unfold restarted
  rcases hstart : sampleStart s with ⟨_ | ⟨keys, backend⟩, host⟩
  · rw [hstart] at h
    cases h
  · exact ⟨_, _, _, host, ⟨rfl, rfl⟩, rfl, hstart, rfl, rfl⟩

/-- A write and a read of the same secret. -/
def firstEra : Era samplePrimitives (Fin 2) :=
  ⟨filledState, readBeside besideWrite, interleaved⟩

/-- A rotation that is killed between its two transactions. -/
def killedState : State samplePrimitives :=
  (rekey samplePrimitives wholeForeign sampleConnection Daemon.sampleRekeyDraws
    (sampleEnv true)).stopped 3 (firstEra.finish wholeForeign).shared

def secondEra : Era samplePrimitives (Fin 2) :=
  ⟨restarted killedState, readBeside besideWrite, List.replicate 4 ⟨0, Nat.zero_lt_two⟩⟩

/-- The first life answers the write, the start after it succeeds, and its read is answered. -/
theorem ended_eras :
    ended ((firstEra.finish wholeForeign).code 1) =
        some (.ok (.written ⟨samplePath, ⟨2, by decide⟩⟩)) ∧
      (sampleStart killedState).1.isOk = true ∧
      ended ((secondEra.finish wholeForeign).code 0) =
        some (.ok (.read ⟨samplePath, ⟨2, by decide⟩, "AQID"⟩)) := by
  decide +kernel

theorem told_firstEra :
    Told wholeForeign [firstEra, secondEra] 0 1 (.written ⟨samplePath, ⟨2, by decide⟩⟩) :=
  ⟨firstEra, rfl, ret_of_ended ended_eras.1⟩

theorem told_secondEra :
    Told wholeForeign [firstEra, secondEra] 1 0
      (.read ⟨samplePath, ⟨2, by decide⟩, "AQID"⟩) :=
  ⟨secondEra, rfl, ret_of_ended ended_eras.2.2⟩

theorem shows_secondEra :
    Shows wholeForeign [firstEra, secondEra] 1 0 samplePath 2 (.base64 "AQID") :=
  ⟨secondEra, _, rfl, ret_of_ended ended_eras.2.2, List.mem_singleton_self _⟩

theorem sealed_filledState :
    filledState.Sealed :=
  (Daemon.loadKeys_congr (by decide +kernel)).trans Daemon.agree_sampleDaemon.sealed

theorem lives_filledState :
    Lives wholeForeign wholeForeign.policyJson .standard sampleKeyfile filledState
      [firstEra, secondEra] (secondEra.finish wholeForeign).shared := by
  refine .serves steady_readBeside (.killed sampleConnection Daemon.sampleRekeyDraws
    (sampleEnv true) 3 (restarts_restarted ended_eras.2.1) ?_)
  exact .serves steady_readBeside (.here _)

/-- The daemon that is started then shows what was written before. -/
theorem answers_survive_sample :
    ∃ era conn request draws env x, [firstEra, secondEra][0]? = some era ∧
      era.requests 1 = .write conn request draws env ∧
      wholeForeign.base64Decode request.value = some x ∧
      "AQID" = wholeForeign.base64Encode x := by
  obtain ⟨-, -, -, -, hvalue⟩ := answers_survive samplePrimitives_correct
    Kernel.documented_standard lives_filledState sealed_filledState opens_sampleKeyfile
  exact hvalue 0 1 1 0 _ _ _ told_firstEra shows_secondEra

end Samples

end Service
end Secretbae
