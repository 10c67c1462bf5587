import Secretbae.Daemon.Handlers
import Secretbae.Lib.Deadlock

/-!
# The order in which handlers take the two locks

Every handler of the daemon by its acquisitions and releases of `keys`, a
read-write lock, and `store`, a mutex.  What the gates decide, and how far the
body of a handler comes, are arguments: they say which of the sequences in its
code a call goes through.  Guards are dropped in the order Rust drops them:
locals in reverse, and the temporaries of a tail expression after the locals.

The order is `keys` before `store`, with one exception: `status` reads
`state.keys()` in its answer, under the store guard.  `deadlock_free_iff` says
what follows: in any run of any number of calls the only deadlock is the one that
`status` closes, with a rotation that waits for the keys and a handler that
holds them.
-/

namespace Secretbae
namespace Daemon
namespace LockOrder

open Lib Proto Core Audit Storage

inductive Lock where
  | keys
  | store
  deriving DecidableEq

section Sequences

/-- `state.keys()`. -/
def readKeys : Act Lock := .acquire .keys .shared

/-- `self.keys.write()`. -/
def writeKeys : Act Lock := .acquire .keys .exclusive

def dropKeys : Act Lock := .release .keys

/-- `state.store()`. -/
def lockStore : Act Lock := .acquire .store .exclusive

def dropStore : Act Lock := .release .store

/-- A section under the store guard alone. -/
def withStore : List (Act Lock) :=
  [lockStore, dropStore]

/-- `let keys = state.keys(); let store = state.store();`, to the end of the block. -/
def withBoth : List (Act Lock) :=
  [readKeys, lockStore, dropStore, dropKeys]

def record : List (Act Lock) := withBoth

def recordDenial : List (Act Lock) := withBoth

/-- `check` and what follows it: the denial, or `touch_token` and the handler. -/
def authorize (gate : Gate) (next : List (Act Lock)) : List (Act Lock) :=
  match gate with
  | .refused _ => recordDenial
  | .decided (.error _) => withStore ++ recordDenial
  | .decided (.ok _) => withStore ++ (withStore ++ next)

/-- A handler that works with the keys on the store and records its success. -/
def keyed (gate : Gate) (entered succeeded : Bool) : List (Act Lock) :=
  authorize gate
    (if entered then withBoth ++ (if succeeded then record else []) else [])

/-- A handler that works on the store without the keys and records its success. -/
def unkeyed (gate : Gate) (entered succeeded : Bool) : List (Act Lock) :=
  authorize gate
    (if entered then withStore ++ (if succeeded then record else []) else [])

/-- `status`: the keys are a temporary of the tail expression, under the store guard. -/
def status (gate : Gate) : List (Act Lock) :=
  authorize gate [lockStore, readKeys, dropStore, dropKeys]

def read (gate : Gate) (opened : Bool) : List (Act Lock) :=
  keyed gate true opened

/-- `write`, entered when the value is base64. -/
def write (gate : Gate) (decoded written : Bool) : List (Act Lock) :=
  keyed gate decoded written

/-- `list`, with `filter_visible`. -/
def list (gate : Gate) (listed : Bool) : List (Act Lock) :=
  authorize gate (withStore ++ (if listed then withStore ++ record else []))

def versions (gate : Gate) (found : Bool) : List (Act Lock) :=
  unkeyed gate true found

def rollback (gate : Gate) (done : Bool) : List (Act Lock) :=
  unkeyed gate true done

def delete (gate : Gate) (done : Bool) : List (Act Lock) :=
  unkeyed gate true done

def tagAdd (gate : Gate) (done : Bool) : List (Act Lock) :=
  unkeyed gate true done

def tagRemove (gate : Gate) (done : Bool) : List (Act Lock) :=
  unkeyed gate true done

/-- The loop of `resolve_secrets`: what the gates say about each path, and whether it opens. -/
def resolveTargets : List (Gate × Bool) → List (Act Lock)
  | [] => record
  | (gate, opened) :: targets =>
      authorize gate (withBoth ++ (if opened then resolveTargets targets else []))

def resolveSecrets (gate : Gate) (targets : List (Gate × Bool)) : List (Act Lock) :=
  authorize gate (resolveTargets targets)

/-- A request of the resolve socket that breaks its framing. -/
def violation (rule : Violation) : List (Act Lock) :=
  authorize (.refused (.protocolViolation rule)) []

/-- `token_create`, entered when a token could be issued. -/
def tokenCreate (gate : Gate) (issued created : Bool) : List (Act Lock) :=
  unkeyed gate issued created

def tokenList (gate : Gate) : List (Act Lock) :=
  authorize gate withStore

/-- `token_revoke`, entered when the prefix parses. -/
def tokenRevoke (gate : Gate) (parsed revoked : Bool) : List (Act Lock) :=
  unkeyed gate parsed revoked

/-- `policy_put`, entered when the document parses. -/
def policyPut (gate : Gate) (parsed put : Bool) : List (Act Lock) :=
  unkeyed gate parsed put

def policyList (gate : Gate) : List (Act Lock) :=
  authorize gate withStore

def policyDelete (gate : Gate) (deleted : Bool) : List (Act Lock) :=
  unkeyed gate true deleted

def auditVerify (gate : Gate) : List (Act Lock) :=
  authorize gate withBoth

/-- How far a rotation comes. -/
inductive Rotation where
  /-- No successor is drawn. -/
  | undrawn
  /-- The generation is at its end, or the successor cannot be sealed. -/
  | unsealed
  /-- A transaction fails. -/
  | aborted
  /-- `adopt_rotated_key` fails. -/
  | unadopted
  | adopted

/-- `rekey`; `adopt_rotated_key` comes after both locks are released. -/
def rekey (gate : Gate) (rotation : Rotation) : List (Act Lock) :=
  authorize gate
    (match rotation with
    | .undrawn => []
    | .unsealed => [readKeys, dropKeys]
    | .aborted => withBoth
    | .unadopted => withBoth ++ [writeKeys, dropKeys]
    | .adopted => withBoth ++ ([writeKeys, dropKeys] ++ record))

/-- `backup`, entered when there is a passphrase. -/
def backup (gate : Gate) (passphrase sealed : Bool) : List (Act Lock) :=
  keyed gate passphrase sealed

/-- `restore`, entered when the bundle opens and parses. -/
def restore (gate : Gate) (parsed restored : Bool) : List (Act Lock) :=
  keyed gate parsed restored

/-- `record_unseal`, at startup. -/
def recordUnseal : List (Act Lock) := withBoth

/-- The fallback route takes no lock. -/
def notFound : List (Act Lock) := []

end Sequences

/-- A call of one of the handlers. -/
inductive Call where
  | status (gate : Gate)
  | read (gate : Gate) (opened : Bool)
  | write (gate : Gate) (decoded written : Bool)
  | list (gate : Gate) (listed : Bool)
  | versions (gate : Gate) (found : Bool)
  | rollback (gate : Gate) (done : Bool)
  | delete (gate : Gate) (done : Bool)
  | tagAdd (gate : Gate) (done : Bool)
  | tagRemove (gate : Gate) (done : Bool)
  | resolve (gate : Gate) (targets : List (Gate × Bool))
  | violation (rule : Violation)
  | tokenCreate (gate : Gate) (issued created : Bool)
  | tokenList (gate : Gate)
  | tokenRevoke (gate : Gate) (parsed revoked : Bool)
  | policyPut (gate : Gate) (parsed put : Bool)
  | policyList (gate : Gate)
  | policyDelete (gate : Gate) (deleted : Bool)
  | auditVerify (gate : Gate)
  | rekey (gate : Gate) (rotation : Rotation)
  | backup (gate : Gate) (passphrase sealed : Bool)
  | restore (gate : Gate) (parsed restored : Bool)
  | recordUnseal
  | notFound

/-- The locks that a call takes and gives back. -/
def Call.locks : Call → List (Act Lock)
  | .status gate => LockOrder.status gate
  | .read gate opened => LockOrder.read gate opened
  | .write gate decoded written => LockOrder.write gate decoded written
  | .list gate listed => LockOrder.list gate listed
  | .versions gate found => LockOrder.versions gate found
  | .rollback gate done => LockOrder.rollback gate done
  | .delete gate done => LockOrder.delete gate done
  | .tagAdd gate done => LockOrder.tagAdd gate done
  | .tagRemove gate done => LockOrder.tagRemove gate done
  | .resolve gate targets => resolveSecrets gate targets
  | .violation rule => LockOrder.violation rule
  | .tokenCreate gate issued created => LockOrder.tokenCreate gate issued created
  | .tokenList gate => LockOrder.tokenList gate
  | .tokenRevoke gate parsed revoked => LockOrder.tokenRevoke gate parsed revoked
  | .policyPut gate parsed put => LockOrder.policyPut gate parsed put
  | .policyList gate => LockOrder.policyList gate
  | .policyDelete gate deleted => LockOrder.policyDelete gate deleted
  | .auditVerify gate => LockOrder.auditVerify gate
  | .rekey gate rotation => LockOrder.rekey gate rotation
  | .backup gate passphrase sealed => LockOrder.backup gate passphrase sealed
  | .restore gate parsed restored => LockOrder.restore gate parsed restored
  | .recordUnseal => LockOrder.recordUnseal
  | .notFound => LockOrder.notFound

section Discipline

/--
What a handler may do next, given the locks it holds.  Without `crossing` the
keys come before the store.
-/
def Allowed (crossing : Bool) (held : List (Lock × Mode)) : Act Lock → Prop
  | .acquire .keys .shared =>
      held = [] ∨ (crossing = true ∧ held = [(.store, .exclusive)])
  | .acquire .keys .exclusive => held = []
  | .acquire .store .exclusive => held = [] ∨ held = [(.keys, .shared)]
  | .acquire .store .shared => False
  | .release .keys => held = [(.keys, .shared)] ∨ held = [(.keys, .exclusive)]
  | .release .store => (.store, .exclusive) ∈ held

instance (crossing : Bool) (held : List (Lock × Mode)) :
    ∀ act, Decidable (Allowed crossing held act)
  | .acquire .keys .shared =>
      inferInstanceAs (Decidable (held = [] ∨ (crossing = true ∧ held = [(.store, .exclusive)])))
  | .acquire .keys .exclusive => inferInstanceAs (Decidable (held = []))
  | .acquire .store .exclusive =>
      inferInstanceAs (Decidable (held = [] ∨ held = [(.keys, .shared)]))
  | .acquire .store .shared => .isFalse id
  | .release .keys =>
      inferInstanceAs (Decidable (held = [(.keys, .shared)] ∨ held = [(.keys, .exclusive)]))
  | .release .store => inferInstanceAs (Decidable ((.store, .exclusive) ∈ held))

variable {crossing : Bool}

theorem section_withStore :
    Section (Allowed crossing) withStore := by
  cases crossing <;> decide

theorem section_withBoth :
    Section (Allowed crossing) withBoth := by
  cases crossing <;> decide

theorem section_authorize
    (gate : Gate) {next : List (Act Lock)}
    (hnext : Section (Allowed crossing) next) :
    Section (Allowed crossing) (authorize gate next) := by
  unfold authorize
  split
  · exact section_withBoth
  · exact section_withStore.append section_withBoth
  · exact section_withStore.append (section_withStore.append hnext)

theorem section_keyed
    (gate : Gate) (entered succeeded : Bool) :
    Section (Allowed crossing) (keyed gate entered succeeded) :=
  section_authorize gate
    (.ite (section_withBoth.append (.ite section_withBoth .nil)) .nil)

theorem section_unkeyed
    (gate : Gate) (entered succeeded : Bool) :
    Section (Allowed crossing) (unkeyed gate entered succeeded) :=
  section_authorize gate
    (.ite (section_withStore.append (.ite section_withBoth .nil)) .nil)

theorem section_resolveTargets
    (targets : List (Gate × Bool)) :
    Section (Allowed crossing) (resolveTargets targets) := by
  induction targets with
  | nil =>
      exact section_withBoth
  | cons target targets ih =>
      exact section_authorize target.1 (section_withBoth.append (.ite ih .nil))

theorem section_rekey
    (gate : Gate) (rotation : Rotation) :
    Section (Allowed crossing) (rekey gate rotation) := by
  have hadopt : Section (Allowed crossing) [writeKeys, dropKeys] := by
    cases crossing <;> decide
  refine section_authorize gate ?_
  cases rotation with
  | undrawn => exact .nil
  | unsealed => cases crossing <;> decide
  | aborted => exact section_withBoth
  | unadopted => exact section_withBoth.append hadopt
  | adopted => exact section_withBoth.append (hadopt.append section_withBoth)

/-- Of all calls only a status request crosses the order. -/
def Call.crosses : Call → Bool
  | .status _ => true
  | _ => false

theorem section_locks
    (call : Call)
    (hcross : call.crosses = true → crossing = true) :
    Section (Allowed crossing) call.locks := by
  cases call with
  | status gate =>
      obtain rfl := hcross rfl
      exact section_authorize gate (by decide)
  | list gate listed =>
      exact section_authorize gate
        (section_withStore.append (.ite (section_withStore.append section_withBoth) .nil))
  | resolve gate targets => exact section_authorize gate (section_resolveTargets targets)
  | violation rule => exact section_authorize (.refused (.protocolViolation rule)) .nil
  | tokenList gate => exact section_authorize gate section_withStore
  | policyList gate => exact section_authorize gate section_withStore
  | auditVerify gate => exact section_authorize gate section_withBoth
  | rekey gate rotation => exact section_rekey gate rotation
  | recordUnseal => exact section_withBoth
  | notFound => exact .nil
  | read | write | backup | restore => exact section_keyed _ _ _
  | versions | rollback | delete | tagAdd | tagRemove => exact section_unkeyed _ _ _
  | tokenCreate | tokenRevoke | policyPut | policyDelete => exact section_unkeyed _ _ _

end Discipline

section States

universe u

variable {ι : Type u} [DecidableEq ι] {crossing : Bool} {s : Locking ι Lock}

/-- A status request between its two locks. -/
def Between (s : Locking ι Lock) (j : ι) : Prop :=
  ⟨j, .store, .exclusive⟩ ∈ s.guards ∧ [readKeys] <+: s.code j

/-- A handler that holds the keys and comes to take the store. -/
def Wanting (s : Locking ι Lock) (t : ι) : Prop :=
  ⟨t, .keys, .shared⟩ ∈ s.guards ∧ [lockStore] <+: s.code t

/--
The next step of `i` closes no cycle: a status request does not take the store
while a rotation waits for the keys and a handler with the keys comes to take
the store, and a rotation does not come for the keys while a status request and
such a handler are between their locks.
-/
structure Apart (s : Locking ι Lock) (i : ι) : Prop where
  status : [lockStore, readKeys] <+: s.code i → s.Free .store .exclusive →
    ∀ w, (w, .keys) ∈ s.waiting → ∀ t, ¬ Wanting s t
  rotation : [writeKeys] <+: s.code i → ∀ j, Between s j → ∀ t, ¬ Wanting s t

/-- No status request is in the way of a handler that a rotation waits for. -/
def NoClash (s : Locking ι Lock) : Prop :=
  ∀ j w t, Between s j → (w, .keys) ∈ s.waiting → ¬ Wanting s t

/-- What a handler that holds a lock may acquire: one lock is held, and it is the other one. -/
theorem acquire_holding
    {i : ι} {lock : Lock} {m : Mode} {rest : List (Act Lock)} {g : Lock × Mode}
    (h : s.Inv (Allowed crossing))
    (hcode : s.code i = .acquire lock m :: rest)
    (hmem : g ∈ s.held i) :
    (lock = .keys ∧ m = .shared ∧ crossing = true ∧ s.held i = [(.store, .exclusive)]) ∨
    (lock = .store ∧ m = .exclusive ∧ s.held i = [(.keys, .shared)]) := by
  have hnext := h.next hcode
  have hsome : s.held i ≠ [] := List.ne_nil_of_mem hmem
  cases lock with
  | keys =>
      cases m with
      | shared =>
          obtain hnil | ⟨hcross, hheld⟩ := hnext
          · exact absurd hnil hsome
          · exact .inl ⟨rfl, rfl, hcross, hheld⟩
      | exclusive => exact absurd hnext hsome
  | store =>
      cases m with
      | shared => exact hnext.elim
      | exclusive =>
          obtain hnil | hheld := hnext
          · exact absurd hnil hsome
          · exact .inr ⟨rfl, rfl, hheld⟩

/-- A status request between its locks holds nothing but the store. -/
theorem held_of_between
    {j : ι}
    (h : s.Inv (Allowed crossing))
    (hbetween : Between s j) :
    crossing = true ∧ s.held j = [(.store, .exclusive)] := by
  obtain ⟨hguard, rest, hcode⟩ := hbetween
  obtain ⟨-, -, hheld⟩ | ⟨hlock, -⟩ :=
    acquire_holding h hcode.symm (Locking.mem_held.mpr hguard)
  · exact hheld
  · cases hlock

/-- A handler that comes to take the store with the keys holds nothing else. -/
theorem held_of_wanting
    {t : ι}
    (h : s.Inv (Allowed crossing))
    (hwanting : Wanting s t) :
    s.held t = [(.keys, .shared)] := by
  obtain ⟨hguard, rest, hcode⟩ := hwanting
  obtain ⟨hlock, -⟩ | ⟨-, -, hheld⟩ :=
    acquire_holding h hcode.symm (Locking.mem_held.mpr hguard)
  · cases hlock
  · exact hheld

/-- A handler with the store that waits is a status request, and it waits for the keys. -/
theorem waits_with_store
    {j k : ι} {m : Mode}
    (h : s.Inv (Allowed crossing))
    (hguard : ⟨j, .store, m⟩ ∈ s.guards)
    (hwaits : s.WaitsFor j k) :
    Between s j ∧ (⟨k, .keys, .exclusive⟩ ∈ s.guards ∨ (k, .keys) ∈ s.waiting) := by
  have hmem := Locking.mem_held.mpr hguard
  obtain ⟨lock, rest, hcode, hreason⟩ | ⟨lock, m', rest, hcode, -⟩ := hwaits.cases
  · obtain ⟨rfl, -, -, hheld⟩ | ⟨-, hmode, -⟩ := acquire_holding h hcode hmem
    · refine ⟨⟨Locking.mem_held.mp ?_, rest, hcode.symm⟩, hreason⟩
      rw [hheld]
      exact List.mem_singleton_self _
    · cases hmode
  · obtain ⟨-, hmode, -⟩ | ⟨-, -, hheld⟩ := acquire_holding h hcode hmem
    · cases hmode
    · rw [hheld] at hmem
      simp at hmem

/-- A handler with the keys that waits shares them, and it waits for the store. -/
theorem waits_with_keys
    {t k : ι} {m : Mode}
    (h : s.Inv (Allowed crossing))
    (hguard : ⟨t, .keys, m⟩ ∈ s.guards)
    (hwaits : s.WaitsFor t k) :
    m = .shared ∧ Wanting s t ∧ ∃ m', ⟨k, .store, m'⟩ ∈ s.guards := by
  have hmem := Locking.mem_held.mpr hguard
  obtain ⟨lock, rest, hcode, -⟩ | ⟨lock, m', rest, hcode, hreason⟩ := hwaits.cases
  · obtain ⟨-, -, -, hheld⟩ | ⟨-, hmode, -⟩ := acquire_holding h hcode hmem
    · rw [hheld] at hmem
      simp at hmem
    · cases hmode
  · obtain ⟨-, hmode, -⟩ | ⟨rfl, -, hheld⟩ := acquire_holding h hcode hmem
    · cases hmode
    · rw [hheld] at hmem
      obtain rfl : m = .shared := by simpa using hmem
      exact ⟨rfl, ⟨hguard, rest, hcode.symm⟩, m', hreason⟩

/-- Whoever is in a deadlock, some member of it holds the keys. -/
theorem keys_held_of_deadlocked
    {threads : Set ι}
    (h : s.Inv (Allowed crossing))
    (hdead : s.Deadlocked threads) :
    ∃ t ∈ threads, ∃ m, ⟨t, .keys, m⟩ ∈ s.guards := by
  obtain ⟨⟨i, hi⟩, hall⟩ := hdead
  -- a waiting rotation waits for a handler with the keys
  have hrotation : ∀ w ∈ threads, (w, .keys) ∈ s.waiting →
      ∃ t ∈ threads, ∃ m, ⟨t, .keys, m⟩ ∈ s.guards := by
    intro w hw hwaiting
    obtain ⟨t, ht, hwt⟩ := hall w hw
    obtain ⟨rest, hcode⟩ := h.waiting w .keys hwaiting
    obtain ⟨lock, rest', hcode', -⟩ | ⟨lock, m, rest', hcode', hguard⟩ := hwt.cases
    · rw [hcode] at hcode'
      cases hcode'
    · rw [hcode] at hcode'
      cases hcode'
      exact ⟨t, ht, m, hguard⟩
  obtain ⟨j, hj, hij⟩ := hall i hi
  obtain ⟨lock, rest, hcode, hreason⟩ | ⟨lock, m, rest, hcode, hguard⟩ := hij.cases
  · cases lock with
    | store => exact (h.next hcode).elim
    | keys =>
        obtain hguard | hwaiting := hreason
        · exact ⟨j, hj, _, hguard⟩
        · exact hrotation j hj hwaiting
  · cases lock with
    | keys => exact ⟨j, hj, m, hguard⟩
    | store =>
        obtain ⟨k, hk, hjk⟩ := hall j hj
        obtain ⟨-, hkeys | hwaiting⟩ := waits_with_store h hguard hjk
        · exact ⟨k, hk, _, hkeys⟩
        · exact hrotation k hk hwaiting

/-- Every deadlock is a clash. -/
theorem not_deadlocked
    (h : s.Inv (Allowed crossing))
    (hclash : NoClash s)
    (threads : Set ι) :
    ¬ s.Deadlocked threads := by
  intro hdead
  obtain ⟨t, ht, m, hkeys⟩ := keys_held_of_deadlocked h hdead
  obtain ⟨j, hj, htj⟩ := hdead.2 t ht
  obtain ⟨-, hwanting, m', hstore⟩ := waits_with_keys h hkeys htj
  obtain ⟨w, hw, hjw⟩ := hdead.2 j hj
  obtain ⟨hbetween, hexclusive | hwaiting⟩ := waits_with_store h hstore hjw
  · -- nobody waits with the keys for itself
    obtain ⟨v, -, hwv⟩ := hdead.2 w hw
    obtain ⟨hmode, -⟩ := waits_with_keys h hexclusive hwv
    cases hmode
  · exact hclash j w t hbetween hwaiting hwanting

/-- A thread other than the one that took the step is where it was. -/
theorem prefix_update
    {code : ι → List (Act Lock)} {i j : ι} {rest acts : List (Act Lock)}
    (hne : j ≠ i)
    (h : acts <+: Function.update code i rest j) :
    acts <+: code j := by
  rwa [Function.update_of_ne hne] at h

theorem noClash_grant
    {i : ι} {lock : Lock} {m : Mode} {rest : List (Act Lock)}
    (h' : (s.grant i lock m rest).Inv (Allowed crossing))
    (hclash : NoClash s)
    (hapart : Apart s i)
    (hcode : s.code i = .acquire lock m :: rest)
    (hfree : s.Free lock m) :
    NoClash (s.grant i lock m rest) := by
  intro j w t hbetween hwaiting hwanting
  have hold : (w, Lock.keys) ∈ s.waiting := (List.mem_filter.mp hwaiting).1
  have hheld := s.held_grant i i lock m rest
  rw [if_pos rfl] at hheld
  have hguard : ∀ {g : Guard ι Lock}, g.thread ≠ i →
      g ∈ (s.grant i lock m rest).guards → g ∈ s.guards := by
    intro g hne hg
    obtain rfl | hmem := List.mem_cons.mp hg
    · exact absurd rfl hne
    · exact hmem
  by_cases ht : t = i
  · -- the keys were not free for it
    subst ht
    rw [held_of_wanting h' hwanting] at hheld
    obtain ⟨rfl, rfl⟩ : lock = .keys ∧ m = .shared := by simpa using (List.cons.inj hheld).1.symm
    exact hfree.2 _ hold rfl
  have hwanting' : Wanting s t :=
    ⟨hguard ht hwanting.1, prefix_update ht hwanting.2⟩
  by_cases hj : j = i
  · -- a status request takes the store
    subst hj
    rw [(held_of_between h' hbetween).2] at hheld
    obtain ⟨rfl, rfl⟩ : lock = .store ∧ m = .exclusive := by
      simpa using (List.cons.inj hheld).1.symm
    obtain ⟨-, rest', hrest⟩ := hbetween
    simp only [Locking.grant, Function.update_self] at hrest
    refine hapart.status ⟨rest', ?_⟩ hfree w hold t hwanting'
    rw [hcode, ← hrest]
    rfl
  · exact hclash j w t ⟨hguard hj hbetween.1, prefix_update hj hbetween.2⟩ hold hwanting'

theorem noClash_enqueue
    {i : ι} {lock : Lock} {rest : List (Act Lock)}
    (hclash : NoClash s)
    (hapart : Apart s i)
    (hcode : s.code i = .acquire lock .exclusive :: rest) :
    NoClash (s.enqueue i lock) := by
  intro j w t hbetween hwaiting hwanting
  obtain hnew | hold := List.mem_insert_iff.mp hwaiting
  · cases hnew
    exact hapart.rotation ⟨rest, hcode.symm⟩ j hbetween t hwanting
  · exact hclash j w t hbetween hold hwanting

theorem noClash_drop
    {i : ι} {lock : Lock} {rest : List (Act Lock)}
    (h : s.Inv (Allowed crossing))
    (h' : (s.drop i lock rest).Inv (Allowed crossing))
    (hclash : NoClash s)
    (hcode : s.code i = .release lock :: rest) :
    NoClash (s.drop i lock rest) := by
  intro j w t hbetween hwaiting hwanting
  have hheld := s.held_drop i i lock rest
  rw [if_pos rfl] at hheld
  have hnext := h.next hcode
  have hj : j ≠ i := by
    rintro rfl
    rw [(held_of_between h' hbetween).2] at hheld
    cases lock with
    | store =>
        have hmem : (Lock.store, Mode.exclusive) ∈ (s.held j).filter fun g => g.1 ≠ .store := by
          rw [← hheld]
          simp
        simp at hmem
    | keys => obtain hone | hone := hnext <;> simp [hone] at hheld
  have hbetween' : Between s j :=
    ⟨(List.mem_filter.mp hbetween.1).1, prefix_update hj hbetween.2⟩
  have ht : t ≠ i := by
    rintro rfl
    rw [held_of_wanting h' hwanting] at hheld
    cases lock with
    | store =>
        -- the store cannot be with both
        have hsame := h.excluded _ (Locking.mem_held.mp hnext) rfl _ hbetween'.1 rfl
        cases hsame
        exact hj rfl
    | keys => obtain hone | hone := hnext <;> simp [hone] at hheld
  exact hclash j w t hbetween' hwaiting
    ⟨(List.mem_filter.mp hwanting.1).1, prefix_update ht hwanting.2⟩

/-- A step that closes no cycle leads to no clash. -/
theorem noClash_step
    {i : ι}
    (h : s.Inv (Allowed crossing))
    (hclash : NoClash s)
    (hapart : Apart s i) :
    NoClash (s.step i) := by
  have h' := h.step i
  obtain heq | ⟨lock, m, rest, hcode, hfree, heq⟩ | ⟨lock, rest, hcode, -, heq⟩ |
    ⟨lock, rest, hcode, heq⟩ := s.step_cases i
  · rw [heq]
    exact hclash
  · rw [heq] at h' ⊢
    exact noClash_grant h' hclash hapart hcode hfree
  · rw [heq]
    exact noClash_enqueue hclash hapart hcode
  · rw [heq] at h' ⊢
    exact noClash_drop h h' hclash hcode

/-- A status request that takes the store under a waiting rotation closes the cycle. -/
theorem deadlocked_by_status
    {i w t : ι}
    (h : s.Inv (Allowed crossing))
    (hcode : [lockStore, readKeys] <+: s.code i)
    (hfree : s.Free .store .exclusive)
    (hwaiting : (w, .keys) ∈ s.waiting)
    (hwanting : Wanting s t) :
    (s.step i).Deadlocked {i, w, t} := by
  obtain ⟨rest, hcode⟩ := hcode
  obtain ⟨rest', hw⟩ := h.waiting w .keys hwaiting
  obtain ⟨hkeys, rest'', ht⟩ := hwanting
  have h' := h.step i
  have heq : s.step i = s.grant i .store .exclusive (readKeys :: rest) := by
    simp only [Locking.step, ← hcode, lockStore, List.cons_append, List.nil_append, if_pos hfree]
  rw [heq] at h' ⊢
  have hself : (s.grant i .store .exclusive (readKeys :: rest)).code i = readKeys :: rest :=
    Function.update_self i _ _
  have hwi : w ≠ i := by
    rintro rfl
    rw [← hcode] at hw
    cases hw
  have hti : t ≠ i := by
    rintro rfl
    have hheld := (held_of_between h' ⟨List.mem_cons_self, rest, hself.symm⟩).2
    have hmem : (Lock.keys, Mode.shared) ∈
        (s.grant t .store .exclusive (readKeys :: rest)).held t :=
      Locking.mem_held.mpr (List.mem_cons_of_mem _ hkeys)
    rw [hheld] at hmem
    simp at hmem
  refine Locking.deadlocked_of_cycle ?_ ?_ ?_
  · exact Locking.waitsFor_of_waiting hself (List.mem_filter.mpr ⟨hwaiting, by simp⟩)
  · exact Locking.waitsFor_of_guard ((Function.update_of_ne hwi _ _).trans hw)
      (List.mem_cons_of_mem _ hkeys)
  · exact Locking.waitsFor_of_guard ((Function.update_of_ne hti _ _).trans ht.symm)
      List.mem_cons_self

/-- A rotation that has to wait while a status request is between its locks closes it. -/
theorem deadlocked_by_rotation
    {i j t : ι}
    (hcode : [writeKeys] <+: s.code i)
    (hbetween : Between s j)
    (hwanting : Wanting s t) :
    (s.step i).Deadlocked {j, i, t} := by
  obtain ⟨rest, hcode⟩ := hcode
  obtain ⟨hstore, rest', hj⟩ := hbetween
  obtain ⟨hkeys, rest'', ht⟩ := hwanting
  have hheld : ¬ s.Free .keys .exclusive := fun hfree => hfree _ hkeys rfl
  have heq : s.step i = s.enqueue i .keys := by
    simp only [Locking.step, ← hcode, writeKeys, List.cons_append, List.nil_append,
      if_neg hheld, if_true]
  rw [heq]
  refine Locking.deadlocked_of_cycle ?_ ?_ ?_
  · exact Locking.waitsFor_of_waiting hj.symm List.mem_insert_self
  · exact Locking.waitsFor_of_guard hcode.symm hkeys
  · exact Locking.waitsFor_of_guard ht.symm hstore

/-- From a state without a clash, a step leads to none exactly when it closes no cycle. -/
theorem noClash_step_iff
    {i : ι}
    (h : s.Inv (Allowed crossing))
    (hclash : NoClash s) :
    NoClash (s.step i) ↔ Apart s i := by
  refine ⟨?_, noClash_step h hclash⟩
  intro hclash'
  have hnone := not_deadlocked (h.step i) hclash'
  constructor
  · intro hcode hfree w hwaiting t hwanting
    exact hnone _ (deadlocked_by_status h hcode hfree hwaiting hwanting)
  · intro hcode j hbetween t hwanting
    exact hnone _ (deadlocked_by_rotation hcode hbetween hwanting)

/-- A clash is a deadlock. -/
theorem noClash_iff
    (h : s.Inv (Allowed crossing)) :
    NoClash s ↔ ∀ threads, ¬ s.Deadlocked threads := by
  refine ⟨not_deadlocked h, ?_⟩
  rintro hnone j w t ⟨hstore, rest, hj⟩ hwaiting ⟨hkeys, rest', ht⟩
  obtain ⟨rest'', hw⟩ := h.waiting w .keys hwaiting
  refine hnone {j, w, t} (Locking.deadlocked_of_cycle ?_ ?_ ?_)
  · exact Locking.waitsFor_of_waiting hj.symm hwaiting
  · exact Locking.waitsFor_of_guard hw hkeys
  · exact Locking.waitsFor_of_guard ht.symm hstore

end States

section Runs

universe u

variable {ι : Type u} [DecidableEq ι]

/-- The calls, all at their beginning. -/
def begin (calls : ι → Call) : Locking ι Lock :=
  Locking.start fun i => (calls i).locks

omit [DecidableEq ι] in
theorem noClash_begin
    (calls : ι → Call) :
    NoClash (begin calls) := by
  rintro j w t ⟨hstore, -⟩
  cases hstore

/--
No state of a run of any number of calls is deadlocked, if and only if no step
of the run closes the cycle of a status request, a rotation and a handler that
holds the keys.
-/
theorem deadlock_free_iff
    (calls : ι → Call) (schedule : List ι) :
    (∀ past, past <+: schedule →
      ∀ threads, ¬ (run Locking.step (begin calls) past).Deadlocked threads) ↔
    along Locking.step Apart (begin calls) schedule := by
  have hinv : (begin calls).Inv (Allowed true) :=
    Locking.inv_start fun i => section_locks (calls i) fun _ => rfl
  have hreach : ∀ past, (run Locking.step (begin calls) past).Inv (Allowed true) := fun past =>
    run_invariant (Locking.Inv (Allowed true)) (fun _ => True) (fun _ i _ h => h.step i)
      (fun _ _ => trivial) hinv
  rw [← along_iff_forall_prefix (fun _ i h _ => Locking.Inv.step h i)
    (fun _ _ h hclash => noClash_step_iff h hclash) hinv (noClash_begin calls) schedule]
  constructor
  · intro hall past hpast
    exact (noClash_iff (hreach past)).mpr (hall past hpast)
  · intro hall past hpast
    exact (noClash_iff (hreach past)).mp (hall past hpast)

/-- A status request, a read and a rotation, all with a token that grants them. -/
def sampleCalls : Fin 3 → Call
  | 0 => .status (.decided (.ok sampleCaller))
  | 1 => .read (.decided (.ok sampleCaller)) true
  | 2 => .rekey (.decided (.ok sampleCaller)) .adopted

/-- The gates, the transactions of the rotation, and one lock more for each. -/
def sampleSchedule : List (Fin 3) :=
  List.replicate 4 0 ++ List.replicate 4 1 ++ List.replicate 8 2 ++ [1, 0, 2]

/-- The status request waits for the rotation, that for the read, and that for the first. -/
theorem status_deadlocks :
    let s := run Locking.step (begin sampleCalls) sampleSchedule
    s.WaitsFor 0 2 ∧ s.WaitsFor 2 1 ∧ s.WaitsFor 1 0 ∧ s.Deadlocked {0, 2, 1} := by
  have hcycle :
      (run Locking.step (begin sampleCalls) sampleSchedule).WaitsFor 0 2 ∧
      (run Locking.step (begin sampleCalls) sampleSchedule).WaitsFor 2 1 ∧
      (run Locking.step (begin sampleCalls) sampleSchedule).WaitsFor 1 0 := by
    decide +kernel
  obtain ⟨hstatus, hrotation, hread⟩ := hcycle
  exact ⟨hstatus, hrotation, hread, Locking.deadlocked_of_cycle hstatus hrotation hread⟩

/-- Without a status request no run deadlocks. -/
theorem deadlock_free_of_ordered
    (calls : ι → Call) (schedule : List ι)
    (hordered : ∀ i, (calls i).crosses = false)
    (threads : Set ι) :
    ¬ (run Locking.step (begin calls) schedule).Deadlocked threads := by
  have hinv : (begin calls).Inv (Allowed false) := by
    refine Locking.inv_start fun i => section_locks (calls i) fun hcross => ?_
    rw [hordered i] at hcross
    cases hcross
  have hreach : (run Locking.step (begin calls) schedule).Inv (Allowed false) :=
    run_invariant (Locking.Inv (Allowed false)) (fun _ => True) (fun _ i _ h => h.step i)
      (fun _ _ => trivial) hinv
  refine not_deadlocked hreach ?_ threads
  intro j w t hbetween
  cases (held_of_between hreach hbetween).1

end Runs

section Tasks

/-- The program can go through these acquisitions and releases to its end. -/
def Takes {K S : Type} : Prog K S → List (Act Lock) → Prop
  | .done, acts => acts = []
  | .readLock next, acts => ∃ key rest, acts = readKeys :: rest ∧ Takes (next key) rest
  | .readUnlock next, acts => ∃ rest, acts = dropKeys :: rest ∧ Takes next rest
  | .lock next, acts => ∃ rest, acts = lockStore :: rest ∧ Takes next rest
  | .unlock next, acts => ∃ rest, acts = dropStore :: rest ∧ Takes next rest
  | .look next, acts => ∃ s, Takes (next s) acts
  | .update _ next, acts => ∃ s, Takes (next s) acts
  | .writeLock next, acts => ∃ rest, acts = writeKeys :: rest ∧ Takes next rest
  | .put _ next, acts => Takes next acts
  | .writeUnlock next, acts => ∃ rest, acts = dropKeys :: rest ∧ Takes next rest

variable {P : Primitives} {acts : List (Act Lock)}

theorem takes_updating
    {K S : Type} {f : K → S → S} {next : K → S → Prog K S}
    (h : Takes (.readLock fun key => .lock <| .update (f key) fun s => .unlock <|
      .readUnlock <| next key s) acts) :
    ∃ key s rest, Takes (next key s) rest ∧ acts = withBoth ++ rest := by
  obtain ⟨key, _, rfl, _, rfl, s, _, rfl, rest, rfl, hnext⟩ := h
  exact ⟨key, s, rest, hnext, rfl⟩

theorem takes_looking
    {K S : Type} {next : K → S → Prog K S}
    (h : Takes (.readLock fun key => .lock <| .look fun s => .unlock <|
      .readUnlock <| next key s) acts) :
    ∃ key s rest, Takes (next key s) rest ∧ acts = withBoth ++ rest := by
  obtain ⟨key, _, rfl, _, rfl, s, _, rfl, rest, rfl, hnext⟩ := h
  exact ⟨key, s, rest, hnext, rfl⟩

theorem takes_record
    {request : Request} {caller : Authenticated} {action : Action}
    {path : Option SecretPath} {version : Option Version}
    (h : Takes (Daemon.record P request caller action path version) acts) :
    acts = record := by
  obtain ⟨_, _, rest, hdone, rfl⟩ := takes_updating h
  rw [show rest = [] from hdone]
  rfl

theorem takes_recordDenial
    {request : Request} {path : Option SecretPath} {denied : Denied}
    (h : Takes (Daemon.recordDenial P request path denied) acts) :
    acts = recordDenial := by
  obtain ⟨_, _, rest, hdone, rfl⟩ := takes_updating h
  rw [show rest = [] from hdone]
  rfl

/-- A caller is turned away, or what follows the gates is the code of the handler. -/
theorem takes_authorize
    {request : Request} {path : Option SecretPath} {gate : Gate}
    {next : Authenticated → Task P}
    (h : Takes (Daemon.authorize P request path gate next) acts) :
    (∀ rest, authorize gate rest = acts) ∨
    ∃ caller rest, Takes (next caller) rest ∧ authorize gate rest = acts := by
  cases gate with
  | refused denied =>
      exact .inl fun _ => (takes_recordDenial h).symm
  | decided outcome =>
      cases outcome with
      | error denied =>
          obtain ⟨_, rfl, _, _, rfl, hdenial⟩ := h
          rw [takes_recordDenial hdenial]
          exact .inl fun _ => rfl
      | ok caller =>
          obtain ⟨_, rfl, _, _, rfl, _, rfl, _, rest, rfl, hnext⟩ := h
          exact .inr ⟨caller, rest, hnext, rfl⟩

theorem takes_write
    {request : Request} {body : WriteRequest} {env : WriteEnv}
    (h : Takes (writeTask P request body env) acts) :
    ∃ decoded written, write request.gate decoded written = acts := by
  obtain haway | ⟨caller, rest, hnext, rfl⟩ := takes_authorize h
  · exact ⟨false, false, haway _⟩
  split at hnext
  · obtain rfl := hnext
    exact ⟨false, false, rfl⟩
  · obtain ⟨_, _, rest, hrest, rfl⟩ := takes_updating hnext
    split at hrest
    · obtain rfl := hrest
      exact ⟨true, false, rfl⟩
    · obtain rfl := takes_record hrest
      exact ⟨true, true, rfl⟩

theorem takes_read
    {request : Request} {path : SecretPath} {version : Option Version}
    (h : Takes (readTask P request path version) acts) :
    ∃ opened, read request.gate opened = acts := by
  obtain haway | ⟨caller, rest, hnext, rfl⟩ := takes_authorize h
  · exact ⟨false, haway _⟩
  obtain ⟨_, _, rest, hrest, rfl⟩ := takes_looking hnext
  split at hrest
  · obtain rfl := hrest
    exact ⟨false, rfl⟩
  · obtain rfl := takes_record hrest
    exact ⟨true, rfl⟩

theorem takes_resolveTargets
    {request : Request} {caller : Authenticated} {targets : List ResolveTarget}
    (h : Takes (Daemon.resolveTargets P request caller targets) acts) :
    ∃ rounds, resolveTargets rounds = acts := by
  induction targets generalizing acts with
  | nil =>
      exact ⟨[], (takes_record h).symm⟩
  | cons target targets ih =>
      obtain haway | ⟨_, rest, hnext, rfl⟩ := takes_authorize h
      · exact ⟨[(target.gate, false)], haway _⟩
      obtain ⟨_, _, rest, hrest, rfl⟩ := takes_looking hnext
      split at hrest
      · obtain rfl := hrest
        exact ⟨[(target.gate, false)], rfl⟩
      · obtain ⟨rounds, rfl⟩ := ih hrest
        exact ⟨(target.gate, true) :: rounds, rfl⟩

theorem takes_change
    {request : Request} {path : SecretPath} {action : Action}
    {change : Store → Except StoreError (Store × Option Version)}
    (h : Takes (changeTask P request path action change) acts) :
    ∃ done, unkeyed request.gate true done = acts := by
  obtain haway | ⟨caller, rest, hnext, rfl⟩ := takes_authorize h
  · exact ⟨false, haway _⟩
  obtain ⟨_, rfl, _, rest, rfl, hrest⟩ := hnext
  split at hrest
  · obtain rfl := hrest
    exact ⟨false, rfl⟩
  · obtain rfl := takes_record hrest
    exact ⟨true, rfl⟩

theorem takes_rekey
    {backend : KeyfileSeal} {request : Request} {draws : RekeyDraws}
    (h : Takes (rekeyTask P backend request draws) acts) :
    ∃ rotation, rekey request.gate rotation = acts := by
  obtain haway | ⟨caller, rest, hnext, rfl⟩ := takes_authorize h
  · exact ⟨.undrawn, haway _⟩
  split at hnext
  · obtain rfl := hnext
    exact ⟨.undrawn, rfl⟩
  obtain ⟨_, _, rfl, hnext⟩ := hnext
  dsimp only at hnext
  split at hnext
  · obtain ⟨_, rfl, rfl⟩ := hnext
    exact ⟨.unsealed, rfl⟩
  obtain ⟨_, rfl, _, _, rfl, _, rfl, hrest⟩ := hnext
  split at hrest
  · obtain rfl := hrest
    exact ⟨.aborted, rfl⟩
  · obtain ⟨_, rfl, _, rfl, hrecord⟩ := hrest
    obtain rfl := takes_record hrecord
    exact ⟨.adopted, rfl⟩

/-- The handlers as threads take their locks in one of the sequences above. -/
theorem takes_task
    {backend : KeyfileSeal} (handler : Handler)
    (h : Takes (handler.task P backend) acts) :
    ∃ call : Call, call.locks = acts := by
  cases handler with
  | write request body env =>
      obtain ⟨decoded, written, rfl⟩ := takes_write h
      exact ⟨.write request.gate decoded written, rfl⟩
  | read request path version =>
      obtain ⟨opened, rfl⟩ := takes_read h
      exact ⟨.read request.gate opened, rfl⟩
  | resolve request targets =>
      obtain haway | ⟨caller, rest, hnext, rfl⟩ := takes_authorize h
      · exact ⟨.resolve request.gate [], haway _⟩
      · obtain ⟨rounds, rfl⟩ := takes_resolveTargets hnext
        exact ⟨.resolve request.gate rounds, rfl⟩
  | rollback request path target now =>
      simp only [Handler.task, rollbackTask] at h
      obtain ⟨done, rfl⟩ := takes_change h
      exact ⟨.rollback request.gate done, rfl⟩
  | delete request path version destroy now =>
      simp only [Handler.task, deleteTask] at h
      obtain ⟨done, rfl⟩ := takes_change h
      exact ⟨.delete request.gate done, rfl⟩
  | tagAdd request path tags now =>
      simp only [Handler.task, tagAddTask] at h
      obtain ⟨done, rfl⟩ := takes_change h
      exact ⟨.tagAdd request.gate done, rfl⟩
  | tagRemove request path selectors now =>
      simp only [Handler.task, tagRemoveTask] at h
      obtain ⟨done, rfl⟩ := takes_change h
      exact ⟨.tagRemove request.gate done, rfl⟩
  | rekey request successor sealNonce nonces =>
      obtain ⟨rotation, rfl⟩ := takes_rekey h
      exact ⟨.rekey request.gate rotation, rfl⟩

end Tasks

end LockOrder
end Daemon
end Secretbae
