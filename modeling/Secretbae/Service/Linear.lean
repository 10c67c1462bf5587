import Secretbae.Service.Accounting
import Secretbae.Service.ResolveResponse
import Secretbae.Store.Refinement

/-!
# One history of all requests

`State.plain` is the directory of plaintexts that the daemon keeps.  Whatever
requests run, and in whatever interleaving, it goes through the operations of
one sequential history (`linearizable`).  A request contributes the operations
that it asks for, while it runs; when it is answered its answer is their result,
and when it fails it has done the first few of them or none.

Two kinds of requests are left out: a rotation, because between its section and
the adoption of the new key the state has one key and the rows have the other,
and a restore, which writes whole histories.
-/

namespace Secretbae
namespace Service

open Lib Proto Core Audit Storage Policies
open Daemon (KeyMaterial Database PeerCredentials Denied ApiError selectorOf openVersion
  writeSection)

section History

variable (P : Primitives)

/-- The plaintexts of the daemon. -/
def State.plain (s : State P) : Directory SecretPath (Option Bytes) :=
  s.db.store.plain P s.keys.master

variable {P} in
/-- The keys of the daemon, in memory and on disk, are as they were. -/
structure State.SameKeys (s s' : State P) : Prop where
  keys : s'.keys = s.keys
  backend : s'.backend = s.backend
  sealed : s'.db.store.sealedMasterKey = s.db.store.sealedMasterKey

/-- The operations that the daemon has executed, under the keys that it has. -/
def plainHistory : Ledger (State P) PlainEvent where
  adds s events s' := PlainExecutes (s.plain P) events (s'.plain P) ∧ s.SameKeys s'
  nothing _ := ⟨.nil _, rfl, rfl, rfl⟩
  append h h' :=
    ⟨h.1.append h'.1, h'.2.keys.trans h.2.keys, h'.2.backend.trans h.2.backend,
      h'.2.sealed.trans h.2.sealed⟩

/-- What a client is told. -/
inductive Reply where
  | read (response : ReadResponse)
  | written (response : WriteResponse)
  | resolved (secrets : List ResolvedDto)
  | frames (bytes : Bytes)
  | done
deriving DecidableEq

variable (F : Foreign)

/-- The code that serves a request, with the responses that tell of plaintexts. -/
def Handler.replying : Handler → Code P Abort Reply
  | .read conn request env => replied P .read (Service.read P F conn request env)
  | .write conn request draws env =>
      replied P .written (Service.write P F conn request draws env)
  | .rollback conn request now env =>
      replied P (fun _ => .done) (Service.rollback P F conn request now env)
  | .delete conn request now env =>
      replied P (fun _ => .done) (Service.delete P F conn request now env)
  | .resolve conn paths env => replied P .resolved (Service.resolve P F conn paths env)
  | .socket peer env request => replied P .frames (handle P F peer env request)
  | handler => handler.code P F >>= fun _ => pure .done

/-- The daemon in a state, about to answer requests. -/
def answering {ι : Type} (s : State P) (requests : ι → Handler) :
    System Label (State P) Abort Reply (Option Grant) ι where
  shared := s
  knows _ := none
  code i := (requests i).replying P F

end History

section Requests

def ResolveTarget.operation (target : ResolveTarget) : Operation SecretPath (Option Bytes) :=
  .read target.path (selectorOf target.version).asked

/-- The operations that a request asks for. -/
def Handler.operations (F : Foreign) : Handler → List (Operation SecretPath (Option Bytes))
  | .read _ request _ => [.read request.path (selectorOf request.version).asked]
  | .write _ request _ _ =>
      (F.base64Decode request.value).toList.map fun x => .write request.path (some x)
  | .rollback _ request _ _ => [.rollBack request.path request.target.toNat]
  | .delete _ request _ _ =>
      [.remove request.path (selectorOf request.version).asked
        (if request.destroy then .destroy else .hide)]
  | .resolve _ paths _ => paths.map fun path => ResolveTarget.operation ⟨path, none⟩
  | .socket _ _ (.ready _ targets) => targets.map ResolveTarget.operation
  | _ => []

/-- What has been done of a request. -/
def Handler.Began (F : Foreign) (handler : Handler) (told : List PlainEvent) : Prop :=
  told.map Event.operation <+: handler.operations F

/-- One item of a batch. -/
def fetched (target : ResolveTarget) (item : ResolvedSecret) : PlainEvent :=
  .read target.path (selectorOf target.version).asked item.version.toNat (some item.plaintext)

/-- The items of a batch, in the order of its targets. -/
def Fetches (targets : List ResolveTarget) (items : List ResolvedSecret)
    (told : List PlainEvent) : Prop :=
  items.map ResolvedSecret.path = targets.map ResolveTarget.path ∧
    told = List.zipWith fetched targets items

/-- The reply is the result of what has been done. -/
def Handler.Answers (F : Foreign) (handler : Handler) (told : List PlainEvent)
    (reply : Reply) : Prop :=
  match handler with
  | .read _ request _ => ∃ version x,
      told = [.read request.path (selectorOf request.version).asked version.toNat (some x)] ∧
        reply = .read ⟨request.path, version, F.base64Encode x⟩
  | .write _ request _ _ => ∃ version x, F.base64Decode request.value = some x ∧
      told = [.wrote request.path version.toNat (some x)] ∧
        reply = .written ⟨request.path, version⟩
  | .rollback _ request _ _ =>
      told = [.rolledBack request.path request.target.toNat] ∧ reply = .done
  | .delete _ request _ _ => ∃ version : Version,
      told = [.removed request.path (selectorOf request.version).asked
        (if request.destroy then .destroy else .hide) version.toNat] ∧ reply = .done
  | .resolve _ paths _ => ∃ items, Fetches (paths.map fun path => ⟨path, none⟩) items told ∧
      reply = .resolved (items.map (resolvedDto F))
  | .socket _ _ (.ready _ targets) =>
      (∃ items, Fetches targets items told ∧ reply = .frames (items.flatMap valueFrame)) ∨
        ∃ failure : ResolveFailure, handler.Began F told ∧
          reply = .frames (errorFrame failure.message)
  | .socket _ _ _ => told = [] ∧ ∃ bytes, reply = .frames bytes
  | _ => told = [] ∧ reply = .done

/-- What a request has done when it ends with a result that gives this reply. -/
def Handler.Ends {E A : Type} (F : Foreign) (handler : Handler) (reply : A → Reply)
    (told : List PlainEvent) : Except E A → Prop
  | .ok a => handler.Answers F told (reply a)
  | .error _ => handler.Began F told

/-- The request neither replaces the master key nor imports histories. -/
def Handler.Steady : Handler → Prop
  | .rekey .. | .restore .. => False
  | _ => True

end Requests

section Idle

variable {P : Primitives} {F : Foreign}

theorem executes_nil
    {s s' : State P}
    (h : s'.plain P = s.plain P)
    (hkeys : s.SameKeys s') :
    (plainHistory P).adds s [] s' := by
  refine ⟨?_, hkeys⟩
  rw [h]
  exact .nil _

theorem State.SameKeys.refl
    (s : State P) :
    s.SameKeys s :=
  ⟨rfl, rfl, rfl⟩

theorem executes_append
    (s : State P) (writable : Bool) (entry : AuditEntry) :
    (plainHistory P).adds s [] (s.append P writable entry).2 := by
  rcases s.append_cases writable entry with ⟨log, record, -, -, heq⟩ | ⟨e, heq⟩
  · rw [heq]
    exact executes_nil rfl ⟨rfl, rfl, rfl⟩
  · rw [heq]
    exact executes_nil rfl (.refl s)

theorem idle_authorize
    {presented : Except Denied PresentedToken} {peer : PeerCredentials}
    {requested : Requested} {env : GateEnv} :
    (authorize P F presented peer requested env).Idle (plainHistory P) fun _ => True := by
  intro midway told hmidway
  refine ⟨hmidway, ?_⟩
  intro s
  refine ⟨[], executes_nil rfl (.refl s), ?_⟩
  rw [List.append_nil]
  dsimp only
  cases check F s.db.store s.access presented peer requested env.checked with
  | error denied =>
      refine ⟨hmidway, fun s => ⟨[], executes_append s _ _, ?_⟩⟩
      exact ⟨List.append_nil _, fun _ _ => trivial⟩
  | ok caller =>
      refine ⟨hmidway, fun s => ⟨[], executes_nil rfl ⟨rfl, rfl, rfl⟩, ?_⟩⟩
      exact ⟨List.append_nil _, fun _ _ => trivial⟩

theorem idle_gate
    {conn : Connection} {route : Route} {path : Option SecretPath} {env : GateEnv} :
    (gate P F conn route path env).Idle (plainHistory P) fun _ => True :=
  idle_authorize.mapError

theorem idle_record
    {caller : Authenticated} {action : Action} {path : Option SecretPath}
    {version : Option Version} {env : Env} :
    (record P caller action path version env).Idle (plainHistory P) fun _ => True :=
  .atomically (fun s => executes_append s _ _) fun _ _ _ => trivial

theorem idle_recordOrInternal
    {caller : Authenticated} {action : Action} {path : Option SecretPath}
    {version : Option Version} {env : Env} :
    (recordOrInternal P caller action path version env).Idle (plainHistory P) fun _ => True :=
  idle_record.mapError

theorem idle_answer
    {E A : Type} {good : A → Prop} {a : A}
    (h : good a) :
    (pure a : Code P E A).Idle (plainHistory P) good :=
  fun _ _ _ => ⟨rfl, fun _ heq => by cases heq; exact h⟩

theorem idle_pure
    {E A : Type} (a : A) :
    (pure a : Code P E A).Idle (plainHistory P) fun _ => True :=
  idle_answer trivial

theorem idle_fail
    {E A : Type} {good : A → Prop} (e : E) :
    (Script.fail e : Code P E A).Idle (plainHistory P) good :=
  fun _ _ _ => ⟨rfl, fun _ h => by cases h⟩

/-- A change that the plaintexts do not show. -/
theorem idle_unseen
    {α : Type} {label : Label} {f : Store → Except StoreError (Store × α)}
    (hf : ∀ st st' a, f st = .ok (st', a) → st.Touched st') :
    (changeStore P label f).Idle (plainHistory P) fun _ => True := by
  refine .atomically ?_ fun _ _ _ => trivial
  intro s
  dsimp only
  split
  · rename_i store a heq
    have htouched := hf _ _ _ heq
    have hsealed : store.sealedMasterKey = s.db.store.sealedMasterKey := by
      obtain ⟨-, -, -, -, hsealed⟩ := htouched
      exact hsealed
    exact executes_nil htouched.plain_eq ⟨rfl, rfl, hsealed⟩
  · exact executes_nil rfl (.refl s)

theorem idle_access
    {label : Label} {f : Access → Except StoreError Access} :
    (changeAccess P label f).Idle (plainHistory P) fun _ => True := by
  refine .atomically ?_ fun _ _ _ => trivial
  intro s
  cases f s.access <;> exact executes_nil rfl ⟨rfl, rfl, rfl⟩

theorem idle_answered
    {α : Type} {code : Code P ApiError α}
    (h : code.Idle (plainHistory P) fun _ => True) :
    (answered P code).Idle (plainHistory P) fun _ => True :=
  h.mapError.then fun _ _ => idle_pure ()

/-- A change with its entry, and the answer. -/
theorem idle_changed
    {A B : Type} {x : Code P ApiError A} {caller : Authenticated} {action : Action}
    {path : Option SecretPath} {version : A → Option Version} {env : Env} {answer : A → B}
    (h : x.Idle (plainHistory P) fun _ => True) :
    (do
      let a ← x
      recordOrInternal P caller action path (version a) env
      pure (answer a) : Code P ApiError B).Idle (plainHistory P) fun _ => True :=
  h.then fun _ _ => idle_recordOrInternal.then fun _ _ => idle_pure _

theorem began_nil
    (handler : Handler) :
    handler.Began F [] :=
  List.nil_prefix

/-- A request that asks for no operation of the directory. -/
theorem ends_idle
    {handler : Handler} {x : Code P Abort Unit}
    (hx : x.Idle (plainHistory P) fun _ => True)
    (hanswers : handler.Answers F [] .done) :
    (x >>= fun _ => pure Reply.done).Tells (plainHistory P) (handler.Began F) (handler.Ends F id)
      [] :=
  hx.bind (began_nil handler) (fun _ _ => hanswers) fun _ => began_nil handler

end Idle

section Telling

variable {P : Primitives} {F : Foreign}

theorem ends_replied
    {A : Type} {handler : Handler} {reply : A → Reply} {code : Code P ApiError A}
    (h : code.Tells (plainHistory P) (handler.Began F) (handler.Ends F reply) []) :
    (replied P reply code).Tells (plainHistory P) (handler.Began F) (handler.Ends F id) [] := by
  have hmapped : (code.mapError Abort.reply).Tells (plainHistory P) (handler.Began F)
      (handler.Ends F reply) [] := by
    refine h.mapError ?_
    rintro told (e | a) h
    · exact h
    · exact h
  exact hmapped.bind (fun _ _ h => h) fun _ _ h => h

/-- A section that does one operation, or fails. -/
def Single {E A : Type} (operation : Operation SecretPath (Option Bytes))
    (R : A → PlainEvent → Prop) (told : List PlainEvent) : Except E A → Prop
  | .ok a => ∃ e, told = [e] ∧ e.operation = operation ∧ R a e
  | .error _ => told.map Event.operation <+: [operation]

section Single

variable {A : Type} {operation : Operation SecretPath (Option Bytes)}
  {R : A → PlainEvent → Prop} {midway : List PlainEvent → Prop}

theorem single_mapError
    {E E' : Type} {t : E → E'} {x : Code P E A}
    (h : x.Tells (plainHistory P) midway (Single operation R) []) :
    (x.mapError t).Tells (plainHistory P) midway (Single operation R) [] := by
  refine h.mapError ?_
  rintro told (e | a) h
  · exact h
  · exact h

/-- A section that reads, and leaves everything as it is. -/
theorem single_looking
    {E : Type} {label : Label} {f : State P → Except E A}
    (hmidway : midway [])
    (hf : ∀ s a, f s = .ok a →
      ∃ e, PlainDoes (s.plain P) e (s.plain P) ∧ e.operation = operation ∧ R a e) :
    (Script.atomically label fun s => (f s, s) : Code P E A).Tells (plainHistory P) midway
      (Single operation R) [] := by
  refine .atomically hmidway ?_
  intro s
  dsimp only
  cases heq : f s with
  | error e => exact ⟨[], executes_nil rfl (.refl s), List.nil_prefix⟩
  | ok a =>
      obtain ⟨e, hdoes, hop, hR⟩ := hf s a heq
      exact ⟨[e], ⟨.one hdoes, .refl s⟩, e, rfl, hop, hR⟩

theorem single_changeStore
    {label : Label} {f : Store → Except StoreError (Store × A)}
    (hmidway : midway [])
    (hf : ∀ st st' a master, f st = .ok (st', a) →
      st'.sealedMasterKey = st.sealedMasterKey ∧
        ∃ e, PlainDoes (st.plain P master) e (st'.plain P master) ∧ e.operation = operation ∧
          R a e) :
    (changeStore P label f).Tells (plainHistory P) midway (Single operation R) [] := by
  refine .atomically hmidway ?_
  intro s
  dsimp only
  cases heq : f s.db.store with
  | error e => exact ⟨[], executes_nil rfl (.refl s), List.nil_prefix⟩
  | ok changed =>
      obtain ⟨hsealed, e, hdoes, hop, hR⟩ := hf _ _ _ s.keys.master heq
      exact ⟨[e], ⟨.one hdoes, rfl, rfl, hsealed⟩, e, rfl, hop, hR⟩

/-- The section of a write does it, whether or not the tags go through. -/
theorem single_commitWrite
    (hP : AeadCorrect P)
    {caller : Authenticated} {request : WriteRequest} {draws : WriteDraws} {plaintext : Bytes}
    (hmidway : midway []) :
    (commitWrite P caller request draws plaintext).Tells (plainHistory P) midway
      (Single (.write request.path (some plaintext)) fun version e =>
        e = .wrote request.path version.toNat (some plaintext)) [] := by
  refine .atomically hmidway ?_
  intro s
  dsimp only
  unfold writeSection
  dsimp only
  split
  · exact ⟨[], executes_nil rfl (.refl s), List.nil_prefix⟩
  rename_i vault version hwrite
  have hdoes := does_write hP hwrite
  have hsealed := sealedMasterKey_write hwrite
  have hmaster : vault.master = s.keys.master := by
    obtain ⟨-, -, -, -, -, hmaster, -⟩ := Vault.write_eq_ok hwrite
    exact hmaster
  rw [hmaster] at hdoes
  split
  · exact ⟨_, ⟨.one hdoes, rfl, rfl, hsealed⟩, _, rfl, rfl, rfl⟩
  split
  · exact ⟨_, ⟨.one hdoes, rfl, rfl, hsealed⟩, List.prefix_rfl⟩
  · rename_i store hadd
    obtain ⟨-, -, -, -, hkept⟩ := addTags_frame hadd
    refine ⟨_, ⟨.one ?_, rfl, rfl, hkept.trans hsealed⟩, _, rfl, rfl, rfl⟩
    change Directory.Does _ (s.db.store.plain P s.keys.master) _ (store.plain P s.keys.master)
    rw [(addTags_frame hadd).plain_eq]
    exact hdoes

end Single

/-- A request that does one operation behind its gate and records it. -/
theorem ends_single
    {A B : Type} {handler : Handler} {operation : Operation SecretPath (Option Bytes)}
    {R : A → PlainEvent → Prop} {conn : Connection} {route : Route}
    {path : Option SecretPath} {env : GateEnv} {x : Authenticated → Code P ApiError A}
    {y : Authenticated → A → Code P ApiError B} {reply : B → Reply}
    (hoperation : handler.operations F = [operation])
    (hx : ∀ caller, (x caller).Tells (plainHistory P) (handler.Began F)
      (Single operation R) [])
    (hy : ∀ caller a e, e.operation = operation → R a e →
      (y caller a).Idle (plainHistory P) fun b => handler.Answers F [e] (reply b)) :
    (replied P reply (do
      let caller ← gate P F conn route path env
      let a ← x caller
      y caller a)).Tells (plainHistory P) (handler.Began F) (handler.Ends F id) [] := by
  refine ends_replied (idle_gate.bind (began_nil handler) ?_ fun _ => began_nil handler)
  intro caller _
  refine (hx caller).bind ?_ ?_
  · rintro told a ⟨e, rfl, he, ha⟩
    have hbegan : handler.Began F [e] := by
      rw [Handler.Began, hoperation, List.map_singleton, he]
    refine ((hy caller a e he ha) _ _ hbegan).mono ?_
    rintro told (error | b) ⟨rfl, hgood⟩
    · exact hbegan
    · exact hgood b rfl
  · intro told e htold
    change told.map Event.operation <+: [operation] at htold
    rwa [← hoperation] at htold

/-- One round of the loop. -/
theorem readTarget_eq_ok
    {keys : KeyMaterial P} {store : Store} {target : ResolveTarget} {item : ResolvedSecret}
    (h : readTarget P keys store target = .ok item) :
    item.path = target.path ∧
      PlainDoes (store.plain P keys.master) (fetched target item)
        (store.plain P keys.master) := by
  unfold readTarget at h
  split at h
  · cases h
  rename_i stored hread
  split at h
  · cases h
  rename_i plaintext hopen
  cases h
  exact ⟨rfl, does_read hread hopen⟩

/-- What a batch has done after `told`: all of it, or as much as `midway` says. -/
def Batch (midway : List PlainEvent → Prop) (targets : List ResolveTarget)
    (told : List PlainEvent) {E : Type} (told' : List PlainEvent) :
    Except E (List ResolvedSecret) → Prop
  | .ok items => ∃ more, told' = told ++ more ∧ Fetches targets items more
  | .error _ => midway told'

theorem Fetches.cons
    {target : ResolveTarget} {targets : List ResolveTarget} {item : ResolvedSecret}
    {items : List ResolvedSecret} {more : List PlainEvent}
    (hpath : item.path = target.path)
    (h : Fetches targets items more) :
    Fetches (target :: targets) (item :: items) (fetched target item :: more) := by
  obtain ⟨hpaths, rfl⟩ := h
  exact ⟨by rw [List.map_cons, List.map_cons, hpath, hpaths], rfl⟩

theorem Fetches.operations
    {targets : List ResolveTarget} {items : List ResolvedSecret} {more : List PlainEvent}
    (h : Fetches targets items more) :
    more.map Event.operation = targets.map ResolveTarget.operation := by
  obtain ⟨hpaths, rfl⟩ := h
  induction targets generalizing items with
  | nil =>
      rfl
  | cons target targets ih =>
      cases items with
      | nil => cases hpaths
      | cons item items =>
          obtain ⟨-, hrest⟩ := List.cons.inj hpaths
          rw [List.zipWith_cons_cons, List.map_cons, List.map_cons, ih hrest]
          rfl

theorem batch_mapError
    {E E' : Type} {t : E → E'} {midway : List PlainEvent → Prop}
    {targets : List ResolveTarget} {told : List PlainEvent}
    {x : Code P E (List ResolvedSecret)}
    (h : x.Tells (plainHistory P) midway (Batch midway targets told) told) :
    (x.mapError t).Tells (plainHistory P) midway (Batch midway targets told) told := by
  refine h.mapError ?_
  rintro told' (e | items) h
  · exact h
  · exact h

/-- The loop over the targets of a batch, from any point on. -/
theorem tells_fetching
    {presented : Except Denied PresentedToken} {peer : PeerCredentials}
    {gates : Nat → GateEnv} {midway : List PlainEvent → Prop} {targets : List ResolveTarget}
    (i : Nat) (told : List PlainEvent)
    (hmidway : ∀ more, more.map Event.operation <+: targets.map ResolveTarget.operation →
      midway (told ++ more)) :
    (resolveTargets P F presented peer gates i targets).Tells (plainHistory P) midway
      (Batch midway targets told) told := by
  induction targets generalizing i told with
  | nil =>
      exact ⟨[], (List.append_nil told).symm, rfl, rfl⟩
  | cons target targets ih =>
      have hhere : midway told := by
        simpa using hmidway [] List.nil_prefix
      refine idle_authorize.mapError.bind hhere ?_ fun _ => hhere
      intro caller _
      have hfetch : (fetch P caller target).Tells (plainHistory P) midway
          (fun told' result => match result with
            | .ok item => item.path = target.path ∧ told' = told ++ [fetched target item]
            | .error _ => told' = told) told := by
        refine .atomically hhere ?_
        intro s
        dsimp only
        cases hread : readTarget P s.keys s.db.store target with
        | error e => exact ⟨[], executes_nil rfl (.refl s), List.append_nil told⟩
        | ok item =>
            obtain ⟨hpath, hdoes⟩ := readTarget_eq_ok hread
            exact ⟨_, ⟨.one hdoes, .refl s⟩, hpath, rfl⟩
      refine hfetch.bind ?_ ?_
      · rintro told' item ⟨hpath, rfl⟩
        have hrest : ∀ more, more.map Event.operation <+: targets.map ResolveTarget.operation →
            midway (told ++ [fetched target item] ++ more) := by
          intro more hmore
          rw [List.append_assoc]
          refine hmidway _ ?_
          rw [List.singleton_append, List.map_cons, List.map_cons]
          exact List.cons_prefix_cons.mpr ⟨rfl, hmore⟩
        refine (ih (i + 1) _ hrest).bind ?_ fun _ _ h => h
        rintro told' items ⟨more, rfl, hfetches⟩
        exact ⟨fetched target item :: more, by simp, hfetches.cons hpath⟩
      · rintro told' e rfl
        exact hhere

theorem tells_batch
    {presented : Except Denied PresentedToken} {peer : PeerCredentials}
    {targets : List ResolveTarget} {env : ResolveEnv} {handler : Handler}
    (hoperations : handler.operations F = targets.map ResolveTarget.operation) :
    (resolveSecrets P F presented peer targets env).Tells (plainHistory P) (handler.Began F)
      (Batch (handler.Began F) targets []) [] := by
  have hbegan : ∀ more, more.map Event.operation <+: targets.map ResolveTarget.operation →
      handler.Began F ([] ++ more) := by
    intro more hmore
    rw [List.nil_append, Handler.Began, hoperations]
    exact hmore
  refine idle_authorize.mapError.bind (began_nil handler) ?_ fun _ => began_nil handler
  intro caller _
  refine (tells_fetching 0 [] hbegan).bind ?_ fun _ _ h => h
  rintro told items ⟨more, htold, hfetches⟩
  have hall : handler.Began F told := by
    rw [htold]
    exact hbegan more (hfetches.operations ▸ List.prefix_rfl)
  refine idle_record.mapError.bind hall ?_ fun _ => hall
  intro _ _
  exact ⟨more, htold, hfetches⟩

/-- The invariant of every request. -/
theorem tells_replying
    (hP : AeadCorrect P)
    (handler : Handler)
    (hsteady : handler.Steady) :
    (handler.replying P F).Tells (plainHistory P) (handler.Began F) (handler.Ends F id) [] := by
  cases handler with
  | status conn env =>
      exact ends_idle (idle_answered (idle_gate.then fun _ _ => Script.idle_looking _))
        ⟨rfl, rfl⟩
  | read conn request env =>
      refine ends_single (R := fun a e => e = .read request.path
        (selectorOf request.version).asked a.1.toNat (some a.2)) rfl ?_ ?_
      · intro caller
        refine single_mapError (single_looking (began_nil _) ?_)
        rintro s ⟨version, plaintext⟩ h
        obtain ⟨stored, hread, h⟩ := bind_eq_ok.mp h
        obtain ⟨x, hopen, h⟩ := bind_eq_ok.mp h
        cases h
        exact ⟨_, does_read hread (liftCrypto_eq_ok.mp hopen), rfl, rfl⟩
      · rintro caller ⟨version, plaintext⟩ e - rfl
        exact idle_recordOrInternal.then fun _ _ => idle_answer ⟨version, plaintext, rfl, rfl⟩
  | write conn request draws env =>
      cases hvalue : F.base64Decode request.value with
      | none =>
          refine ends_replied ?_
          refine idle_gate.bind (began_nil _) ?_ fun _ => began_nil _
          intro caller _
          rw [hvalue]
          exact began_nil _
      | some plaintext =>
          have hoperations : (Handler.write conn request draws env).operations F =
              [.write request.path (some plaintext)] := by
            simp [Handler.operations, hvalue]
          have hwrite : Service.write P F conn request draws env = (do
              let caller ← gate P F conn .write (some request.path) env.gate
              let version ← commitWrite P caller request draws plaintext
              recordOrInternal P caller .write (some request.path) (some version) env
              pure { path := request.path, version }) := by
            simp only [Service.write, hvalue]
          rw [Handler.replying, hwrite]
          refine ends_single (R := fun version e =>
            e = .wrote request.path version.toNat (some plaintext)) hoperations ?_ ?_
          · exact fun caller => single_commitWrite hP (began_nil _)
          · rintro caller version e - rfl
            exact idle_recordOrInternal.then fun _ _ =>
              idle_answer ⟨version, plaintext, hvalue, rfl, rfl⟩
  | list conn request env =>
      refine ends_idle (idle_answered (idle_gate.then fun caller _ => ?_)) ⟨rfl, rfl⟩
      refine (Script.idle_looking _).then fun summaries _ => ?_
      exact idle_changed (Script.idle_looking _)
  | versions conn path env =>
      refine ends_idle (idle_answered (idle_gate.then fun caller _ => ?_)) ⟨rfl, rfl⟩
      exact idle_changed (Script.idle_looking _)
  | rollback conn request now env =>
      refine ends_single (R := fun _ e =>
        e = .rolledBack request.path request.target.toNat) rfl ?_ ?_
      · intro caller
        refine single_changeStore (began_nil _) ?_
        intro st st' a master h
        obtain ⟨store, hroll, heq⟩ := map_eq_ok.mp h
        cases heq
        exact ⟨sealedMasterKey_rollback hroll, _, does_rollback hroll, rfl, rfl⟩
      · rintro caller a e - rfl
        exact idle_recordOrInternal.then fun _ _ => idle_answer ⟨rfl, rfl⟩
  | delete conn request now env =>
      have hremoval : (if request.destroy then DeleteMode.destroy else .soft).removal =
          if request.destroy then .destroy else .hide := by
        split <;> rfl
      refine ends_single (R := fun version e =>
        e = .removed request.path (selectorOf request.version).asked
          (if request.destroy then .destroy else .hide) version.toNat) rfl ?_ ?_
      · intro caller
        refine single_changeStore (began_nil _) ?_
        intro st st' version master h
        exact ⟨sealedMasterKey_deleteVersion h, _, hremoval ▸ does_deleteVersion h, rfl, rfl⟩
      · rintro caller version e - rfl
        exact idle_recordOrInternal.then fun _ _ => idle_answer ⟨version, rfl, rfl⟩
  | tagAdd conn request now env =>
      refine ends_idle (idle_answered (idle_gate.then fun caller _ => ?_)) ⟨rfl, rfl⟩
      refine idle_changed (idle_unseen ?_)
      intro st st' a h
      obtain ⟨store, hadd, heq⟩ := map_eq_ok.mp h
      cases heq
      exact addTags_frame hadd
  | tagRemove conn request now env =>
      refine ends_idle (idle_answered (idle_gate.then fun caller _ => ?_)) ⟨rfl, rfl⟩
      refine idle_changed (idle_unseen ?_)
      intro st st' a h
      obtain ⟨store, hremove, heq⟩ := map_eq_ok.mp h
      cases heq
      exact removeTags_frame hremove
  | resolve conn paths env =>
      refine ends_replied ?_
      have hbatch : (resolveSecrets P F (extractToken F conn.header) conn.peer
          (paths.map fun path => ⟨path, none⟩) env).Tells (plainHistory P)
            ((Handler.resolve conn paths env).Began F)
            (Batch ((Handler.resolve conn paths env).Began F)
              (paths.map fun path => ⟨path, none⟩) []) [] :=
        tells_batch (by simp [Handler.operations, Function.comp_def])
      refine (batch_mapError hbatch).bind ?_ fun _ _ h => h
      rintro told items ⟨more, rfl, hfetches⟩
      exact ⟨items, hfetches, rfl⟩
  | socket peer env request =>
      refine ends_replied ?_
      cases request with
      | disconnected => exact ⟨rfl, [], rfl⟩
      | violation violation =>
          refine idle_authorize.attempt.bind (began_nil _) ?_ fun _ => began_nil _
          intro _ _
          exact ⟨rfl, _, rfl⟩
      | ready token targets =>
          have hbatch : (resolveSecrets P F (presentText F token) peer targets env).Tells
              (plainHistory P) ((Handler.socket peer env (.ready token targets)).Began F)
              (Batch ((Handler.socket peer env (.ready token targets)).Began F) targets []) [] :=
            tells_batch rfl
          have hattempt : ((resolveSecrets P F (presentText F token) peer targets env).attempt :
              Code P ApiError (Except ResolveFailure (List ResolvedSecret))).Tells
                (plainHistory P) ((Handler.socket peer env (.ready token targets)).Began F)
                ((Handler.socket peer env (.ready token targets)).Ends F
                  fun result => .frames (respond result)) [] := by
            refine hbatch.attempt ?_
            rintro told (failure | items) h
            · exact .inr ⟨failure, h, rfl⟩
            · obtain ⟨more, rfl, hfetches⟩ := h
              exact .inl ⟨items, hfetches, rfl⟩
          exact hattempt.bind (fun _ _ h => h) fun _ _ h => h
  | tokenCreate conn request draws expires now env =>
      have hcreate : (Service.tokenCreate P F conn request draws expires now env).Idle
          (plainHistory P) fun _ => True := by
        refine idle_gate.mapError.then fun caller _ => ?_
        cases issue F.sha256 draws with
        | error e => exact idle_fail _
        | ok issued =>
            refine (Script.idle_ofExcept _).then fun expiresAt _ => ?_
            exact (idle_changed idle_access).mapError
      exact ends_idle (hcreate.then fun _ _ => idle_pure ()) ⟨rfl, rfl⟩
  | tokenList conn env =>
      refine ends_idle (idle_answered (idle_gate.then fun caller _ => ?_)) ⟨rfl, rfl⟩
      exact (Script.idle_looking _).then fun _ _ => idle_pure _
  | tokenRevoke conn lookup now env =>
      refine ends_idle (idle_answered (idle_gate.then fun caller _ => ?_)) ⟨rfl, rfl⟩
      cases parseLookupPrefix lookup with
      | error e => exact idle_fail _
      | ok lookup => exact idle_changed idle_access
  | policyPut conn document now env =>
      refine ends_idle (idle_answered (idle_gate.then fun caller _ => ?_)) ⟨rfl, rfl⟩
      cases Policy.fromJson F.policyJson document with
      | error e => exact idle_fail _
      | ok policy => exact idle_changed idle_access
  | policyList conn env =>
      exact ends_idle (idle_answered (idle_gate.then fun _ _ => Script.idle_looking _))
        ⟨rfl, rfl⟩
  | policyDelete conn name env =>
      refine ends_idle (idle_answered (idle_gate.then fun caller _ => ?_)) ⟨rfl, rfl⟩
      exact idle_changed idle_access
  | auditVerify conn env =>
      exact ends_idle (idle_answered (idle_gate.then fun _ _ => Script.idle_looking _))
        ⟨rfl, rfl⟩
  | rekey conn draws env => exact hsteady.elim
  | backup conn passphrase draws now env =>
      refine ends_idle (idle_answered (idle_gate.then fun caller _ => ?_)) ⟨rfl, rfl⟩
      dsimp only
      split
      · exact idle_fail _
      · exact idle_changed (Script.idle_looking _)
  | restore conn request draws env => exact hsteady.elim

end Telling

section Runs

variable {P : Primitives} {F : Foreign} {ι : Type} [DecidableEq ι]

/-- The responses are all that a request gains by being answered. -/
theorem code_eq_replying
    (handler : Handler) :
    handler.code P F = handler.replying P F >>= fun _ => pure () := by
  cases handler
  case read => exact answered_eq_replied _ _
  case write => exact answered_eq_replied _ _
  case rollback => exact answered_eq_replied _ _
  case delete => exact answered_eq_replied _ _
  case resolve => exact answered_eq_replied _ _
  case socket => exact answered_eq_replied _ _
  all_goals
    unfold Handler.replying
    rw [Script.sequence_assoc]
    exact (Script.sequence_unit _).symm

theorem shared_answering
    (s : State P) (requests : ι → Handler) (schedule : List ι) :
    (run (System.step (Acting P F)) (serving P F s requests) schedule).shared =
      (run (System.step (Acting P F)) (answering P F s requests) schedule).shared := by
  have hshared : (serving P F s requests).shared = (answering P F s requests).shared := rfl
  have hcode : ∀ i, (serving P F s requests).code i =
      (answering P F s requests).code i >>= fun _ => pure () :=
    fun i => code_eq_replying (requests i)
  exact (System.run_of_results (k := fun _ => ()) hshared hcode schedule).1

/-- What a request has done, given where it is. -/
def Handler.Reported (F : Foreign) (handler : Handler) (told : List PlainEvent) :
    Code P Abort Reply → Prop
  | .ret result => handler.Ends F id told result
  | .sect .. => handler.Began F told

theorem reported_of_tells
    {handler : Handler} {told : List PlainEvent} {code : Code P Abort Reply}
    (h : code.Tells (plainHistory P) (handler.Began F) (handler.Ends F id) told) :
    handler.Reported F told code := by
  cases code with
  | ret result => exact h
  | sect label f next => exact h.1

/-- A run of requests has a history, and a longer run a longer one. -/
theorem history_of_run
    (hP : AeadCorrect P)
    (s : State P) (requests : ι → Handler)
    (hsteady : ∀ i, (requests i).Steady) (schedule later : List ι) :
    let c := run (System.step (Acting P F)) (answering P F s requests) schedule
    let d := run (System.step (Acting P F)) c later
    ∃ history more : List (ι × PlainEvent),
      ((plainHistory P).adds s (history.map Prod.snd) c.shared ∧
        (plainHistory P).adds c.shared (more.map Prod.snd) d.shared) ∧
      (∀ i, (requests i).Reported F (own i history) (c.code i)) ∧
      (∀ i, (requests i).Reported F (own i (history ++ more)) (d.code i)) ∧
      (∀ i, i ∉ schedule → own i history = []) ∧
      ∀ i result, c.code i = .ret result → own i more = [] := by
  intro c d
  have hstart : ∀ i, ((answering P F s requests).code i).Tells (plainHistory P)
      ((requests i).Began F) ((requests i).Ends F id) [] :=
    fun i => tells_replying hP (requests i) (hsteady i)
  obtain ⟨history, hhistory, hcode, hbefore⟩ :=
    System.tells_run (D := Acting P F) hstart schedule
  obtain ⟨more, hmore, hlater, hafter⟩ := System.tells_run (D := Acting P F) hcode later
  refine ⟨history, more, ⟨hhistory, hmore⟩, fun i => reported_of_tells (hcode i), ?_,
    fun i hi => hbefore i (.inl hi), fun i result hret => hafter i (.inr ⟨result, hret⟩)⟩
  intro i
  rw [own_append]
  exact reported_of_tells (hlater i)

/--
After any interleaving of requests the daemon keeps the plaintexts that one
sequential history of their operations leads to, and each answer is the result
of the operations that its request has in that history.  What requests do later
comes later in it: a request does nothing before it runs and nothing after it
has been answered.
-/
theorem linearizable
    (hP : AeadCorrect P)
    (s : State P) (requests : ι → Handler)
    (hsteady : ∀ i, (requests i).Steady) (schedule later : List ι) :
    let c := run (System.step (Acting P F)) (answering P F s requests) schedule
    let d := run (System.step (Acting P F)) c later
    ∃ history more : List (ι × PlainEvent),
      PlainExecutes (s.plain P) (history.map Prod.snd) (c.shared.plain P) ∧
      PlainExecutes (c.shared.plain P) (more.map Prod.snd) (d.shared.plain P) ∧
      (∀ i, (requests i).Reported F (own i history) (c.code i) ∧
        (requests i).Reported F (own i (history ++ more)) (d.code i)) ∧
      (∀ i, i ∉ schedule → own i history = []) ∧
      ∀ i result, c.code i = .ret result → own i more = [] := by
  intro c d
  obtain ⟨history, more, ⟨hhistory, hmore⟩, hreported, hlater, hbefore, hafter⟩ :=
    history_of_run (F := F) hP s requests hsteady schedule later
  exact ⟨history, more, hhistory.1, hmore.1, fun i => ⟨hreported i, hlater i⟩, hbefore, hafter⟩

/-- A value as a reply shows it: in JSON, or as it is. -/
inductive Shown where
  | base64 (text : String)
  | raw (bytes : Bytes)
deriving DecidableEq

/-- The value that is shown. -/
def Shown.Presents (F : Foreign) : Shown → Bytes → Prop
  | .base64 text, x => text = F.base64Encode x
  | .raw bytes, x => bytes = x

/-- The values that the client of the resolve socket finds in a response. -/
def framed (targets : List ResolveTarget) (bytes : Bytes) : List (SecretPath × ℕ × Shown) :=
  match (clientLoop targets.length bytes).1 with
  | .ok values =>
      List.zipWith (fun target value => (target.path, value.1, .raw value.2)) targets values
  | .error _ => []

/-- The values that a reply shows, with what it says they are. -/
def Handler.shown : Handler → Reply → List (SecretPath × ℕ × Shown)
  | .read .., .read response =>
      [(response.path, response.version.toNat, .base64 response.value)]
  | .resolve .., .resolved secrets =>
      secrets.map fun dto => (dto.path, dto.version.toNat, .base64 dto.value)
  | .socket _ _ (.ready _ targets), .frames bytes => framed targets bytes
  | _, _ => []

/-- A client finds the items of a batch. -/
theorem framed_values
    {targets : List ResolveTarget} {items : List ResolvedSecret}
    (hpaths : items.map ResolvedSecret.path = targets.map ResolveTarget.path) :
    framed targets (items.flatMap valueFrame) =
      items.map fun item => (item.path, item.version.toNat, .raw item.plaintext) := by
  have hlength : targets.length = items.length := by
    have h := congrArg List.length hpaths
    rwa [List.length_map, List.length_map, eq_comm] at h
  have hzip : ∀ values : List (ℕ × Bytes),
      List.zipWith (fun target value => (target.path, value.1, Shown.raw value.2)) targets values =
        List.zipWith (fun path value => (path, value.1, .raw value.2))
          (targets.map ResolveTarget.path) values := by
    intro values
    rw [List.zipWith_map_left]
  rw [framed, hlength, show items.flatMap valueFrame = respond (.ok items) from rfl,
    clientLoop_respond]
  dsimp only
  rw [hzip, ← hpaths, List.zipWith_map, List.zipWith_self]

/-- A client that is told of a failure finds no value. -/
theorem framed_error
    (targets : List ResolveTarget) (failure : ResolveFailure) :
    framed targets (errorFrame failure.message) = [] := by
  cases targets with
  | nil => rfl
  | cons target targets =>
      rw [framed, List.length_cons, errorFrame_eq,
        clientLoop_error (newline_notMem_message failure)]

/-- Each item of a batch has been read. -/
theorem Fetches.tells
    {targets : List ResolveTarget} {items : List ResolvedSecret} {told : List PlainEvent}
    {item : ResolvedSecret}
    (h : Fetches targets items told)
    (hitem : item ∈ items) :
    ∃ e ∈ told, e.Tells item.path item.version.toNat (some item.plaintext) := by
  obtain ⟨hpaths, rfl⟩ := h
  induction targets generalizing items with
  | nil =>
      rw [List.map_nil, List.map_eq_nil_iff] at hpaths
      rw [hpaths] at hitem
      cases hitem
  | cons target targets ih =>
      cases items with
      | nil => cases hitem
      | cons first items =>
          obtain ⟨hpath, hrest⟩ := List.cons.inj hpaths
          rcases List.mem_cons.mp hitem with rfl | hitem
          · exact ⟨fetched target item, by simp, hpath.symm, rfl, rfl⟩
          · obtain ⟨e, he, htells⟩ := ih hitem hrest
            exact ⟨e, List.mem_cons_of_mem _ he, htells⟩

/-- What a reply shows has been read. -/
theorem Handler.Answers.shown
    {handler : Handler} {told : List PlainEvent} {reply : Reply} {path : SecretPath}
    {version : ℕ} {value : Shown}
    (h : handler.Answers F told reply)
    (hvalue : (path, version, value) ∈ handler.shown reply) :
    ∃ e x, e ∈ told ∧ e.Tells path version (some x) ∧ value.Presents F x := by
  unfold Handler.Answers at h
  split at h
  · obtain ⟨v, x, rfl, rfl⟩ := h
    cases List.mem_singleton.mp hvalue
    exact ⟨_, x, List.mem_singleton_self _, ⟨rfl, rfl, rfl⟩, rfl⟩
  · cases hvalue
  · cases hvalue
  · cases hvalue
  · obtain ⟨items, hfetches, rfl⟩ := h
    simp only [Handler.shown, List.map_map, List.mem_map, Function.comp_apply] at hvalue
    obtain ⟨item, hitem, heq⟩ := hvalue
    cases heq
    obtain ⟨e, he, htells⟩ := hfetches.tells hitem
    exact ⟨e, item.plaintext, he, htells, rfl⟩
  · rcases h with ⟨items, hfetches, rfl⟩ | ⟨failure, -, rfl⟩
    · rw [Handler.shown, framed_values hfetches.1] at hvalue
      obtain ⟨item, hitem, heq⟩ := List.mem_map.mp hvalue
      cases heq
      obtain ⟨e, he, htells⟩ := hfetches.tells hitem
      exact ⟨e, item.plaintext, he, htells, rfl⟩
    · rw [Handler.shown, framed_error] at hvalue
      cases hvalue
  · rename_i request hready
    obtain ⟨-, bytes, rfl⟩ := h
    cases request with
    | ready token targets => exact (hready token targets rfl).elim
    | disconnected | violation => cases hvalue
  · obtain ⟨-, rfl⟩ := h
    simp [Handler.shown] at hvalue

/-- The answer to a read shows the value. -/
theorem Handler.Answers.shown_read
    {handler : Handler} {told : List PlainEvent} {response : ReadResponse}
    (h : handler.Answers F told (.read response)) :
    (response.path, response.version.toNat, .base64 response.value) ∈
      handler.shown (.read response) := by
  unfold Handler.Answers at h
  split at h
  · exact List.mem_singleton_self _
  · obtain ⟨v, x, -, -, hreply⟩ := h
    cases hreply
  · cases h.2
  · obtain ⟨v, -, hreply⟩ := h
    cases hreply
  · obtain ⟨items, -, hreply⟩ := h
    cases hreply
  · rcases h with ⟨items, -, hreply⟩ | ⟨failure, -, hreply⟩ <;> cases hreply
  · obtain ⟨-, bytes, hreply⟩ := h
    cases hreply
  · cases h.2

/-- Who is told a number has written. -/
theorem Handler.Answers.written
    {handler : Handler} {told : List PlainEvent} {path : SecretPath} {version : Version}
    (h : handler.Answers F told (.written ⟨path, version⟩)) :
    ∃ conn request draws env x, handler = .write conn request draws env ∧
      F.base64Decode request.value = some x ∧
      told = [.wrote path version.toNat (some x)] := by
  unfold Handler.Answers at h
  split at h
  · obtain ⟨v, x, -, hreply⟩ := h
    cases hreply
  · obtain ⟨v, x, hdecode, rfl, hreply⟩ := h
    cases hreply
    exact ⟨_, _, _, _, x, rfl, hdecode, rfl⟩
  · cases h.2
  · obtain ⟨v, -, hreply⟩ := h
    cases hreply
  · obtain ⟨items, -, hreply⟩ := h
    cases hreply
  · rcases h with ⟨items, -, hreply⟩ | ⟨failure, -, hreply⟩ <;> cases hreply
  · obtain ⟨-, bytes, hreply⟩ := h
    cases hreply
  · cases h.2

section Consistency

variable {κ : Type} [DecidableEq κ] {history : List (κ × PlainEvent)} {i j : κ}
  {handler handler' : Handler} {m m' : Directory SecretPath (Option Bytes)} {path : SecretPath}
  {v : Version} {n : ℕ} {a b : Shown} {reply reply' : Reply}

/-- Where a write that has been answered is in a history. -/
theorem Handler.Answers.mem_written
    (h : handler.Answers F (own i history) (.written ⟨path, v⟩)) :
    ∃ conn request draws env x, handler = .write conn request draws env ∧
      F.base64Decode request.value = some x ∧ (i, Event.wrote path v.toNat (some x)) ∈ history := by
  obtain ⟨conn, request, draws, env, x, hrequest, hdecode, htold⟩ := h.written
  refine ⟨conn, request, draws, env, x, hrequest, hdecode, mem_own.mp ?_⟩
  rw [htold]
  exact List.mem_singleton_self _

theorem Handler.Answers.mem_shown
    (h : handler.Answers F (own i history) reply)
    (hvalue : (path, n, a) ∈ handler.shown reply) :
    ∃ e x, e ∈ history.map Prod.snd ∧ e.Tells path n (some x) ∧ a.Presents F x := by
  obtain ⟨e, x, he, htells, hpresents⟩ := h.shown hvalue
  exact ⟨e, x, List.mem_map.mpr ⟨_, mem_own.mp he, rfl⟩, htells, hpresents⟩

/-- No two writes of a path are told the same number. -/
theorem numbers_differ
    {v' : Version}
    (hall : PlainExecutes m (history.map Prod.snd) m')
    (hne : i ≠ j)
    (hi : handler.Answers F (own i history) (.written ⟨path, v⟩))
    (hj : handler'.Answers F (own j history) (.written ⟨path, v'⟩)) :
    v ≠ v' := by
  rintro rfl
  obtain ⟨-, -, -, -, x, -, -, he⟩ := hi.mem_written
  obtain ⟨-, -, -, -, x', -, -, he'⟩ := hj.mem_written
  exact hall.numbers_apart hne he he' rfl rfl rfl

/-- All who are shown a version are shown the same value. -/
theorem values_agree
    (hall : PlainExecutes m (history.map Prod.snd) m')
    (hbounded : m.Bounded)
    (hi : handler.Answers F (own i history) reply)
    (hj : handler'.Answers F (own j history) reply')
    (ha : (path, n, a) ∈ handler.shown reply)
    (hb : (path, n, b) ∈ handler'.shown reply') :
    ∃ x, a.Presents F x ∧ b.Presents F x := by
  obtain ⟨e, x, he, htells, hfirst⟩ := hi.mem_shown ha
  obtain ⟨e', x', he', htells', hsecond⟩ := hj.mem_shown hb
  cases hall.known_unique hbounded he he' htells htells'
  exact ⟨x, hfirst, hsecond⟩

/-- What is shown of a version is what was written. -/
theorem value_written
    (hall : PlainExecutes m (history.map Prod.snd) m')
    (hbounded : m.Bounded)
    (hi : handler.Answers F (own i history) (.written ⟨path, v⟩))
    (hj : handler'.Answers F (own j history) reply)
    (ha : (path, v.toNat, a) ∈ handler'.shown reply) :
    ∃ conn request draws env x, handler = .write conn request draws env ∧
      F.base64Decode request.value = some x ∧ a.Presents F x := by
  obtain ⟨conn, request, draws, env, x, hrequest, hdecode, hmem⟩ := hi.mem_written
  obtain ⟨e, x', he, htells, hpresents⟩ := hj.mem_shown ha
  have hwritten : Event.wrote path v.toNat (some x) ∈ history.map Prod.snd :=
    List.mem_map.mpr ⟨_, hmem, rfl⟩
  cases hall.known_unique hbounded hwritten he ⟨rfl, rfl, rfl⟩ htells
  exact ⟨conn, request, draws, env, x, hrequest, hdecode, hpresents⟩

end Consistency

/--
In any interleaving of requests the answers do not contradict each other: no two
writes of a path are told the same number, and one that starts when another has
been answered is told a higher one; all who are shown a version, over HTTP or on
the resolve socket, are shown the same value, and it is the value of the write
that was told its number.
-/
theorem answers_agree
    (hP : AeadCorrect P)
    (s : State P) (requests : ι → Handler)
    (hsteady : ∀ i, (requests i).Steady) (schedule later : List ι) :
    let c := run (System.step (Acting P F)) (answering P F s requests) schedule
    let d := run (System.step (Acting P F)) c later
    (∀ i j path v v', i ≠ j → d.code i = .ret (.ok (.written ⟨path, v⟩)) →
      d.code j = .ret (.ok (.written ⟨path, v'⟩)) → v ≠ v') ∧
    (∀ i j path v v', c.code i = .ret (.ok (.written ⟨path, v⟩)) → j ∉ schedule →
      d.code j = .ret (.ok (.written ⟨path, v'⟩)) → v.toNat < v'.toNat) ∧
    (∀ i j reply reply' path n a b, d.code i = .ret (.ok reply) →
      d.code j = .ret (.ok reply') → (path, n, a) ∈ (requests i).shown reply →
      (path, n, b) ∈ (requests j).shown reply' → ∃ x, a.Presents F x ∧ b.Presents F x) ∧
    ∀ i j reply path v a, d.code i = .ret (.ok (.written ⟨path, v⟩)) →
      d.code j = .ret (.ok reply) → (path, v.toNat, a) ∈ (requests j).shown reply →
      ∃ conn request draws env x, requests i = .write conn request draws env ∧
        F.base64Decode request.value = some x ∧ a.Presents F x := by
  intro c d
  obtain ⟨history, more, ⟨hhistory, hmore⟩, hreported, hlater, hbefore, -⟩ :=
    history_of_run (F := F) hP s requests hsteady schedule later
  have hall : PlainExecutes (s.plain P) ((history ++ more).map Prod.snd) (d.shared.plain P) := by
    rw [List.map_append]
    exact hhistory.1.append hmore.1
  have hbounded : (s.plain P).Bounded := Store.bounded_plain s.db.store
  have hanswers : ∀ {i reply}, d.code i = .ret (.ok reply) →
      (requests i).Answers F (own i (history ++ more)) reply := by
    intro i reply hret
    have h := hlater i
    rw [show (run (System.step (Acting P F)) c later).code i = _ from hret] at h
    exact h
  refine ⟨fun i j path v v' hne hi hj => numbers_differ hall hne (hanswers hi) (hanswers hj), ?_,
    fun i j reply reply' path n a b hi hj ha hb =>
      values_agree hall hbounded (hanswers hi) (hanswers hj) ha hb,
    fun i j reply path v a hi hj ha =>
      value_written hall hbounded (hanswers hi) (hanswers hj) ha⟩
  intro i j path v v' hi hj hret
  have hanswered := hreported i
  rw [show (run (System.step (Acting P F)) _ schedule).code i = _ from hi] at hanswered
  obtain ⟨-, -, -, -, x, -, -, he⟩ := Handler.Answers.mem_written hanswered
  obtain ⟨-, -, -, -, x', -, -, he'⟩ := (hanswers hret).mem_written
  have hlate : (j, Event.wrote path v'.toNat (some x')) ∈ more := by
    rcases List.mem_append.mp he' with hearly | hlate
    · rw [← mem_own, hbefore j hj] at hearly
      cases hearly
    · exact hlate
  have hincrease := hall.numbers_increase
  rw [List.map_append, List.filterMap_append, List.pairwise_append] at hincrease
  have hmem : ∀ {i e p} {trace : List (ι × PlainEvent)}, (i, e) ∈ trace →
      e.number? = some p → p ∈ (trace.map Prod.snd).filterMap Event.number? := by
    intro i e p trace he hp
    exact List.mem_filterMap.mpr ⟨e, List.mem_map.mpr ⟨_, he, rfl⟩, hp⟩
  exact hincrease.2.2 _ (hmem he rfl) _ (hmem hlate rfl) rfl

/-- The write commits between the gate of the read and its access. -/
def interleaved : List (Fin 2) :=
  let reader : Fin 2 := ⟨0, Nat.zero_lt_two⟩
  let writer : Fin 2 := ⟨1, Nat.one_lt_two⟩
  [reader, reader, writer, writer, writer, writer, reader, reader]

def sampleRun (schedule : List (Fin 2)) :
    System Label (State samplePrimitives) Abort Reply (Option Grant) (Fin 2) :=
  run (System.step (Acting samplePrimitives wholeForeign))
    (answering samplePrimitives wholeForeign filledState (readBeside besideWrite)) schedule

theorem steady_readBeside
    (i : Fin 2) :
    (readBeside besideWrite i).Steady := by
  unfold readBeside
  split <;> trivial

theorem linearizable_sample :
    ∃ history : List (Fin 2 × PlainEvent),
      PlainExecutes (filledState.plain samplePrimitives) (history.map Prod.snd)
        ((sampleRun interleaved).shared.plain samplePrimitives) ∧
      ∀ i, (readBeside besideWrite i).Reported wholeForeign (own i history)
        ((sampleRun interleaved).code i) := by
  unfold sampleRun
  generalize interleaved = schedule
  obtain ⟨history, more, hexecutes, -, hreported, -⟩ :=
    linearizable (F := wholeForeign) samplePrimitives_correct filledState
      (readBeside besideWrite) steady_readBeside schedule []
  exact ⟨history, hexecutes, fun i => (hreported i).1⟩

/-- The write, and then a batch on the resolve socket that asks for the same secret. -/
def socketBeside (i : Fin 2) : Handler :=
  if i.val = 0 then
    .socket sampleConnection.peer ⟨sampleEnv true, fun _ => (sampleEnv true).gate⟩
      (.ready sampleTokenText [⟨samplePath, none⟩])
  else besideWrite

theorem steady_socketBeside
    (i : Fin 2) :
    (socketBeside i).Steady := by
  unfold socketBeside
  split <;> trivial

/-- The write is served first. -/
def inTurn : List (Fin 2) :=
  let reader : Fin 2 := ⟨0, Nat.zero_lt_two⟩
  let writer : Fin 2 := ⟨1, Nat.one_lt_two⟩
  List.replicate 4 writer ++ List.replicate 6 reader

/-- The block of the value that has been written. -/
def sampleFrames : Bytes :=
  utf8 "VALUE 2 3\n" ++ [1, 2, 3]

theorem shown_sampleFrames :
    (samplePath, 2, Shown.raw [1, 2, 3]) ∈ (socketBeside 0).shown (.frames sampleFrames) := by
  decide +kernel

/-- The client of the socket is shown the value of the write. -/
theorem answers_agree_sample :
    ∃ conn request draws env x,
      besideWrite = .write conn request draws env ∧
        wholeForeign.base64Decode request.value = some x ∧
        (Shown.raw [1, 2, 3]).Presents wholeForeign x := by
  have hended :
      let c := run (System.step (Acting samplePrimitives wholeForeign))
        (answering samplePrimitives wholeForeign filledState socketBeside) inTurn
      ended (c.code 0) = some (.ok (.frames sampleFrames)) ∧
        ended (c.code 1) = some (.ok (.written ⟨samplePath, ⟨2, by decide⟩⟩)) := by
    decide +kernel
  obtain ⟨-, -, -, hvalue⟩ :=
    answers_agree (F := wholeForeign) samplePrimitives_correct filledState socketBeside
      steady_socketBeside inTurn []
  rw [run_nil] at hvalue
  exact hvalue 1 0 _ _ _ _ (ret_of_ended hended.2) (ret_of_ended hended.1) shown_sampleFrames

end Runs

end Service
end Secretbae
