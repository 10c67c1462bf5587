import Secretbae.Service.Recorded
import Secretbae.Store.Attachment

/-!
# The lifetime of a new token

A request to create a token may name a lifetime in seconds, any `u64`.  The
handler turns it into an `i64`, adds it to the clock and keeps whole seconds.

`lifetime_honoured_iff` says for which requests the token then ends when it
should.  Two regions fall out: a lifetime that is no `i64` is dropped, and the
token has no expiry at all; a shorter one that leaves the calendar panics.
-/

namespace Secretbae
namespace Service

open Lib Proto Core Audit Storage Policies
open Daemon (PeerCredentials ApiError)

/-- A reading of the clock, to the nanosecond. -/
structure Instant where
  whole : UnixTime
  nanos : Fin 1000000000

/-- Nanoseconds since the epoch. -/
def Instant.ns (t : Instant) : Int :=
  t.whole.seconds.toInt * 1000000000 + t.nanos.val

/-- `OffsetDateTime + Duration::seconds`, to the nanosecond. -/
def Instant.addSeconds (t : Instant) (n : Nat) : Option Instant :=
  (Service.addSeconds t.whole n).map fun whole => ⟨whole, t.nanos⟩

section Clock

/-- The sum of a time and a number of seconds. -/
theorem addSeconds_eq_some
    {t t' : UnixTime} {n : Nat}
    (h : addSeconds t n = some t') :
    t'.seconds.toInt = t.seconds.toInt + n := by
  unfold addSeconds at h
  split at h
  · rename_i hle
    cases h
    have hlow := t.inRange.1
    exact Int64.toInt_ofInt_of_le (by omega) (by omega)
  · cases h

/-- It leaves the calendar exactly when its whole seconds do. -/
theorem addSeconds_eq_none_iff
    {t : UnixTime} {n : Nat} :
    addSeconds t n = none ↔ 253402300799 < t.seconds.toInt + n := by
  unfold addSeconds
  split
  · rename_i hle
    simp
    omega
  · rename_i hle
    simp
    omega

/-- Adding seconds to the clock and keeping whole seconds is adding to whole seconds. -/
theorem Instant.addSeconds_ns
    {t t' : Instant} {n : Nat}
    (h : t.addSeconds n = some t') :
    Service.addSeconds t.whole n = some t'.whole ∧ t'.ns = t.ns + n * 1000000000 := by
  obtain ⟨whole, hwhole, rfl⟩ := Option.map_eq_some_iff.mp h
  refine ⟨hwhole, ?_⟩
  have hsum := addSeconds_eq_some hwhole
  simp only [Instant.ns, hsum]
  ring

/-- A stored time is reached when the clock, nanoseconds included, is not before it. -/
theorem reached_iff
    {t : UnixTime} {now : Instant} :
    reached (some t) now.whole = true ↔ t.seconds.toInt * 1000000000 ≤ now.ns := by
  have hnanos := now.nanos.isLt
  simp only [reached, decide_eq_true_eq, Int64.le_iff_toInt_le, Instant.ns]
  omega

end Clock

section Handler

variable {P : Primitives} {F : Foreign}

/-- What the handler computes, to the nanosecond, before it keeps whole seconds. -/
theorem expiry_instant
    (ttl : UInt64) (now : Instant) :
    expiry (some ttl) now.whole =
      if ttl.toNat < 2 ^ 63 then
        match now.addSeconds ttl.toNat with
        | some t => .ok (some t.whole)
        | none => .error .panic
      else .ok none := by
  unfold expiry Instant.addSeconds
  dsimp only
  split
  · cases addSeconds now.whole ttl.toNat <;> rfl
  · rfl

/-- A row that a request added. -/
def Added (s s' : State P) (r : TokenRow) : Prop :=
  r ∈ s'.access.tokens.rows ∧ ∀ q ∈ s.access.tokens.rows, q.id ≠ r.id

/-- The request did not panic, and a token that it stored ends with its lifetime. -/
structure HonoursLifetime (ttl : UInt64) (now : Instant) (s : State P)
    (outcome : Except Abort TokenCreateResponse × State P) : Prop where
  noPanic : outcome.1 ≠ .error .panic
  stored :
    ∀ response, outcome.1 = .ok response →
      ∃ r, Added s outcome.2 r ∧ r.lookupPrefix.asStr = response.lookupPrefix
  ends :
    ∀ r, Added s outcome.2 r → ∃ t, r.expiresAt = some t ∧
      t.seconds.toInt * 1000000000 ≤ now.ns + ttl.toNat * 1000000000 ∧
      ∀ later : Instant, now.ns + ttl.toNat * 1000000000 ≤ later.ns →
        ∀ presented peer id, authenticate r.record presented peer later.whole ≠ .ok id

/-- The token that a request asks for. -/
def TokenCreateRequest.token (request : TokenCreateRequest) (issued : IssuedToken)
    (expiresAt : Option UnixTime) : NewToken where
  id := issued.id
  lookupPrefix := issued.lookupPrefix
  hash := issued.hash
  name := request.name
  boundUid := request.bindUid
  expiresAt := expiresAt
  policies := request.policies

/-- A token cannot be created: its id or prefix is taken, or it names a policy that is
missing, or one twice. -/
def Uncreatable (access : Access) (issued : IssuedToken) (policies : List String) : Prop :=
  (∃ r ∈ access.tokens.rows, r.id = issued.id ∨ r.lookupPrefix = issued.lookupPrefix) ∨
    (∃ name ∈ policies, name ∉ access.policies.rows.map PolicyRow.name) ∨ ¬ policies.Nodup

theorem uncreatable_iff
    {access : Access} {request : TokenCreateRequest} {issued : IssuedToken}
    {expiresAt : Option UnixTime} {now : UnixTime} :
    Uncreatable access issued request.policies ↔
      ¬ ∃ access', createToken access (request.token issued expiresAt) now = .ok access' := by
  rw [createToken_isOk_iff, not_and_or, not_and_or]
  refine or_congr ?_ (or_congr ?_ Iff.rfl)
  · simp only [TokenCreateRequest.token, not_forall, exists_prop, not_and_or, not_not]
  · simp only [TokenCreateRequest.token, not_forall, exists_prop]

/-- A use of a token leaves its id and prefix alone. -/
theorem uncreatable_touch
    {s : State P} (id : Uuid) (now : UnixTime) {issued : IssuedToken} {policies : List String} :
    Uncreatable (s.touch P id now).access issued policies ↔
      Uncreatable s.access issued policies := by
  refine or_congr_left ?_
  change (∃ r ∈ s.access.tokens.rows.map (TokenRow.touch id now), _) ↔ _
  constructor
  · rintro ⟨r, hr, htaken⟩
    obtain ⟨q, hq, rfl⟩ := List.mem_map.mp hr
    rw [(q.touch_keys id now).1, (q.touch_keys id now).2] at htaken
    exact ⟨q, hq, htaken⟩
  · rintro ⟨q, hq, htaken⟩
    refine ⟨q.touch id now, List.mem_map_of_mem hq, ?_⟩
    rw [(q.touch_keys id now).1, (q.touch_keys id now).2]
    exact htaken

theorem not_added_touch
    (s : State P) (id : Uuid) (now : UnixTime) (r : TokenRow) :
    ¬ Added s (s.touch P id now) r := by
  rintro ⟨hr, hnew⟩
  obtain ⟨q, hq, rfl⟩ := List.mem_map.mp hr
  exact hnew q hq (q.touch_keys id now).1.symm

/-- What is added is the row of the new token. -/
theorem added_created_iff
    {s s' : State P} {id : Uuid} {used now : UnixTime} {token : NewToken} {access : Access}
    (hcreate : createToken (s.touch P id used).access token now = .ok access)
    (hs : s'.access = access) (r : TokenRow) :
    Added s s' r ↔ r = token.row now := by
  obtain ⟨hfresh, hrows, -⟩ := createToken_eq_ok hcreate
  constructor
  · rintro ⟨hr, hnew⟩
    rw [hs, hrows] at hr
    rcases List.mem_append.mp hr with hr | hr
    · exact absurd ⟨hr, hnew⟩ (not_added_touch s id used r)
    · exact List.mem_singleton.mp hr
  · rintro rfl
    refine ⟨?_, ?_⟩
    · rw [hs, hrows]
      exact List.mem_append_right _ (List.mem_singleton_self _)
    · intro q hq heq
      refine (hfresh (q.touch id used) (List.mem_map_of_mem hq)).1 ?_
      rw [(q.touch_keys id used).1]
      exact heq

/-- A request that stores nothing and does not panic keeps every promise. -/
theorem honoursLifetime_of_reply
    {ttl : UInt64} {now : Instant} {s s' : State P} {error : ApiError}
    (h : ∀ r, ¬ Added s s' r) :
    HonoursLifetime ttl now s (.error (.reply error), s') where
  noPanic := by simp
  stored := by
    intro response hok
    cases hok
  ends := by
    intro r hr
    exact absurd hr (h r)

section Outcome

variable (conn : Connection) (request : TokenCreateRequest) (draws : IssueDraws)
  (expires now : UnixTime) (env : Env) (s : State P)

/-- A caller that the gate turns away. -/
theorem tokenCreate_refused
    {denied : Daemon.Denied}
    (h : check F s.db.store s.access (extractToken F conn.header) conn.peer
      ⟨.tokenCreate, none⟩ env.gate.checked = .error denied) :
    ∃ s', s'.access = s.access ∧
      (tokenCreate P F conn request draws expires now env).alone s =
        (.error (.reply .denied), s') := by
  unfold tokenCreate
  rw [Script.alone_bind, Script.alone_mapError, gate_alone, h]
  exact ⟨_, State.append_access s _ _, rfl⟩

variable {caller : Authenticated}

theorem tokenCreate_unissued
    {e : PolicyError}
    (h : check F s.db.store s.access (extractToken F conn.header) conn.peer
      ⟨.tokenCreate, none⟩ env.gate.checked = .ok caller)
    (hissue : issue F.sha256 draws = .error e) :
    (tokenCreate P F conn request draws expires now env).alone s =
      (.error (.reply .internal), s.touch P caller.tokenId env.gate.touched) := by
  unfold tokenCreate
  rw [Script.alone_bind, Script.alone_mapError, gate_alone, h, hissue]
  rfl

variable {issued : IssuedToken}

theorem tokenCreate_panics
    (h : check F s.db.store s.access (extractToken F conn.header) conn.peer
      ⟨.tokenCreate, none⟩ env.gate.checked = .ok caller)
    (hissue : issue F.sha256 draws = .ok issued)
    (hexpiry : expiry request.ttlSeconds expires = .error .panic) :
    (tokenCreate P F conn request draws expires now env).alone s =
      (.error .panic, s.touch P caller.tokenId env.gate.touched) := by
  unfold tokenCreate
  rw [Script.alone_bind, Script.alone_mapError, gate_alone, h, hissue, hexpiry]
  rfl

variable {expiresAt : Option UnixTime}

theorem tokenCreate_uncreated
    {e : StoreError}
    (h : check F s.db.store s.access (extractToken F conn.header) conn.peer
      ⟨.tokenCreate, none⟩ env.gate.checked = .ok caller)
    (hissue : issue F.sha256 draws = .ok issued)
    (hexpiry : expiry request.ttlSeconds expires = .ok expiresAt)
    (hcreate : createToken (s.touch P caller.tokenId env.gate.touched).access
      (request.token issued expiresAt) now = .error e) :
    (tokenCreate P F conn request draws expires now env).alone s =
      (.error (.reply (.ofStore e)), s.touch P caller.tokenId env.gate.touched) := by
  unfold tokenCreate
  rw [Script.alone_bind, Script.alone_mapError, gate_alone, h, hissue, hexpiry]
  change ((createFor P F caller request issued expiresAt now env).mapError Abort.reply).alone
    (s.touch P caller.tokenId env.gate.touched) = _
  rw [Script.alone_mapError, createFor, Script.alone_bind, changeAccess, Script.alone_atomically]
  unfold TokenCreateRequest.token at hcreate
  rw [hcreate]
  rfl

/-- A token is stored, whether or not the request is recorded then. -/
theorem tokenCreate_created
    {access : Access}
    (h : check F s.db.store s.access (extractToken F conn.header) conn.peer
      ⟨.tokenCreate, none⟩ env.gate.checked = .ok caller)
    (hissue : issue F.sha256 draws = .ok issued)
    (hexpiry : expiry request.ttlSeconds expires = .ok expiresAt)
    (hcreate : createToken (s.touch P caller.tokenId env.gate.touched).access
      (request.token issued expiresAt) now = .ok access) :
    ∃ result s', (tokenCreate P F conn request draws expires now env).alone s = (result, s') ∧
      s'.access = access ∧ result ≠ .error .panic ∧
      ∀ response, result = .ok response → response.lookupPrefix = issued.lookupPrefix.asStr := by
  unfold tokenCreate
  rw [Script.alone_bind, Script.alone_mapError, gate_alone, h, hissue, hexpiry]
  change ∃ result s', ((createFor P F caller request issued expiresAt now env).mapError
    Abort.reply).alone (s.touch P caller.tokenId env.gate.touched) = (result, s') ∧ _
  rw [Script.alone_mapError, createFor, Script.alone_bind, changeAccess, Script.alone_atomically]
  unfold TokenCreateRequest.token at hcreate
  rw [hcreate, Script.andThen_ok, Script.alone_bind, recordOrInternal, Script.alone_mapError,
    record, Script.alone_atomically]
  have haccess := State.append_access
    { s.touch P caller.tokenId env.gate.touched with access := access } env.writable
    (Daemon.recordEntry env.recorded.seconds caller.lookupPrefix caller.peer .tokenCreate .success
      none none)
  generalize State.append P _ _ _ = outcome at haccess ⊢
  obtain ⟨result, s'⟩ := outcome
  cases result with
  | error e =>
      exact ⟨_, s', rfl, haccess, by simp [Except.mapError], by simp [Except.mapError]⟩
  | ok _ =>
      refine ⟨_, s', rfl, haccess, by simp [Except.mapError, Script.andThen], ?_⟩
      intro response hok
      cases hok
      rfl

end Outcome

section Issued

variable (conn : Connection) (request : TokenCreateRequest) {ttl : UInt64} {draws : IssueDraws}
  {now : Instant} (created : UnixTime) {env : Env} {s : State P} {caller : Authenticated}
  {issued : IssuedToken}

/-- A token with an expiry ends in time. -/
theorem honoursLifetime_of_expiry
    {t : Instant}
    (hcheck : check F s.db.store s.access (extractToken F conn.header) conn.peer
      ⟨.tokenCreate, none⟩ env.gate.checked = .ok caller)
    (hissue : issue F.sha256 draws = .ok issued)
    (hexpiry : expiry request.ttlSeconds now.whole = .ok (some t.whole))
    (hns : t.ns = now.ns + ttl.toNat * 1000000000) :
    HonoursLifetime ttl now s
      ((tokenCreate P F conn request draws now.whole created env).alone s) := by
  cases hcreate : createToken (s.touch P caller.tokenId env.gate.touched).access
      (request.token issued (some t.whole)) created with
  | error e =>
      rw [tokenCreate_uncreated conn request draws now.whole created env s hcheck hissue hexpiry
        hcreate]
      exact honoursLifetime_of_reply (not_added_touch s _ _)
  | ok access =>
      obtain ⟨result, s', halone, haccess, hpanic, hresponse⟩ :=
        tokenCreate_created conn request draws now.whole created env s
          hcheck hissue hexpiry hcreate
      have hadded := added_created_iff hcreate haccess
      have hwhole : t.whole.seconds.toInt * 1000000000 ≤ now.ns + ttl.toNat * 1000000000 := by
        rw [← hns, Instant.ns]
        omega
      rw [halone]
      refine ⟨hpanic, ?_, ?_⟩
      · intro response hok
        exact ⟨_, (hadded _).mpr rfl, (hresponse response hok).symm⟩
      · intro r hr
        obtain rfl := (hadded r).mp hr
        refine ⟨t.whole, rfl, hwhole, ?_⟩
        intro later hlater presented peer id hauth
        obtain ⟨-, -, husable⟩ := authenticate_eq_ok_iff.mp hauth
        have hnot := reached_eq_false_iff.mpr husable.notExpired
        have hreached : reached (some t.whole) later.whole = true :=
          reached_iff.mpr (hwhole.trans hlater)
        exact Bool.false_ne_true (hnot.symm.trans hreached)

/-- Without an expiry, the promise is kept only by storing nothing. -/
theorem honoursLifetime_of_dropped
    (hcheck : check F s.db.store s.access (extractToken F conn.header) conn.peer
      ⟨.tokenCreate, none⟩ env.gate.checked = .ok caller)
    (hissue : issue F.sha256 draws = .ok issued)
    (hexpiry : expiry request.ttlSeconds now.whole = .ok none) :
    HonoursLifetime ttl now s
        ((tokenCreate P F conn request draws now.whole created env).alone s) ↔
      Uncreatable s.access issued request.policies := by
  have huncreatable : Uncreatable s.access issued request.policies ↔
      ¬ ∃ access, createToken (s.touch P caller.tokenId env.gate.touched).access
        (request.token issued none) created =
          .ok access :=
    (uncreatable_touch caller.tokenId env.gate.touched).symm.trans uncreatable_iff
  rw [huncreatable]
  cases hcreate : createToken (s.touch P caller.tokenId env.gate.touched).access
      (request.token issued none) created with
  | error e =>
      refine iff_of_true ?_ (by simp)
      rw [tokenCreate_uncreated conn request draws now.whole created env s hcheck hissue hexpiry
        hcreate]
      exact honoursLifetime_of_reply (not_added_touch s _ _)
  | ok access =>
      refine iff_of_false ?_ (by simp)
      obtain ⟨result, s', halone, haccess, -⟩ :=
        tokenCreate_created conn request draws now.whole created env s
          hcheck hissue hexpiry hcreate
      rw [halone]
      intro h
      obtain ⟨t, ht, -⟩ := h.ends _ ((added_created_iff hcreate haccess _).mpr rfl)
      cases ht

theorem honoursLifetime_issued_iff
    (httl : request.ttlSeconds = some ttl)
    (hcheck : check F s.db.store s.access (extractToken F conn.header) conn.peer
      ⟨.tokenCreate, none⟩ env.gate.checked = .ok caller)
    (hissue : issue F.sha256 draws = .ok issued) :
    HonoursLifetime ttl now s
        ((tokenCreate P F conn request draws now.whole created env).alone s) ↔
      (ttl.toNat < 2 ^ 63 → now.whole.seconds.toInt + ttl.toNat ≤ 253402300799) ∧
        (2 ^ 63 ≤ ttl.toNat → Uncreatable s.access issued request.policies) := by
  have hexpiry := expiry_instant ttl now
  rw [← httl] at hexpiry
  by_cases hfits : ttl.toNat < 2 ^ 63
  · rw [if_pos hfits] at hexpiry
    cases hadd : now.addSeconds ttl.toNat with
    | none =>
        rw [hadd] at hexpiry
        have hlate := addSeconds_eq_none_iff.mp (Option.map_eq_none_iff.mp hadd)
        refine iff_of_false ?_ (by omega)
        rw [tokenCreate_panics conn request draws now.whole created env s hcheck hissue hexpiry]
        intro h
        exact h.noPanic rfl
    | some t =>
        rw [hadd] at hexpiry
        obtain ⟨hwhole, hns⟩ := Instant.addSeconds_ns hadd
        have hsum := addSeconds_eq_some hwhole
        have hbound := t.whole.inRange.2
        refine iff_of_true ?_ ⟨fun _ => by omega, fun h => absurd hfits (by omega)⟩
        exact honoursLifetime_of_expiry conn request created hcheck hissue hexpiry hns
  · rw [if_neg hfits] at hexpiry
    rw [honoursLifetime_of_dropped conn request created hcheck hissue hexpiry]
    constructor
    · intro h
      exact ⟨fun hlt => absurd hlt hfits, fun _ => h⟩
    · intro h
      exact h.2 (by omega)

end Issued

/-- A lifetime is honoured unless it is dropped or leaves the calendar, for a token that
would be issued. -/
theorem lifetime_honoured_iff
    (conn : Connection) (name : String) (policies : List String) (bindUid : Option UInt32)
    (ttl : UInt64) (draws : IssueDraws) (now : Instant) (created : UnixTime) (env : Env)
    (s : State P) :
    HonoursLifetime ttl now s
        ((tokenCreate P F conn ⟨name, policies, bindUid, some ttl⟩ draws now.whole created
          env).alone s) ↔
      ∀ caller issued,
        check F s.db.store s.access (extractToken F conn.header) conn.peer
          ⟨.tokenCreate, none⟩ env.gate.checked = .ok caller →
        issue F.sha256 draws = .ok issued →
        (ttl.toNat < 2 ^ 63 → now.whole.seconds.toInt + ttl.toNat ≤ 253402300799) ∧
        (2 ^ 63 ≤ ttl.toNat → Uncreatable s.access issued policies) := by
  cases hcheck : check F s.db.store s.access (extractToken F conn.header) conn.peer
      ⟨.tokenCreate, none⟩ env.gate.checked with
  | error denied =>
      refine iff_of_true ?_ (by simp)
      obtain ⟨s', haccess, halone⟩ := tokenCreate_refused conn ⟨name, policies, bindUid, some ttl⟩
        draws now.whole created env s hcheck
      rw [halone]
      refine honoursLifetime_of_reply ?_
      rintro r ⟨hr, hnew⟩
      rw [haccess] at hr
      exact hnew r hr rfl
  | ok caller =>
  cases hissue : issue F.sha256 draws with
  | error e =>
      refine iff_of_true ?_ (by simp)
      rw [tokenCreate_unissued conn ⟨name, policies, bindUid, some ttl⟩ draws now.whole created
        env s hcheck hissue]
      exact honoursLifetime_of_reply (not_added_touch s _ _)
  | ok issued =>
  have hissued : HonoursLifetime ttl now s
      ((tokenCreate P F conn ⟨name, policies, bindUid, some ttl⟩ draws now.whole created
        env).alone s) ↔ _ :=
    honoursLifetime_issued_iff conn ⟨name, policies, bindUid, some ttl⟩ created rfl hcheck hissue
  constructor
  · intro h caller' issued' _ hissued'
    cases hissued'
    exact hissued.mp h
  · intro h
    exact hissued.mpr (h caller issued rfl rfl)

end Handler

section Samples

def sampleIssueDraws : IssueDraws where
  prefixBytes := some (List.Vector.replicate 5 1)
  secretBytes := some (List.Vector.replicate 32 2)
  id := sampleUuid 9

/-- A request of an administrator for a token with this lifetime. -/
def sampleCreate (ttl : UInt64) : Except Abort TokenCreateResponse × State samplePrimitives :=
  (tokenCreate samplePrimitives sampleForeign sampleConnection ⟨"batch", ["ops"], none, some ttl⟩
    sampleIssueDraws (sampleTime 100) (sampleTime 100)
    (sampleEnv true)).alone (sampleState opsPolicy opsDocument)

/-- A lifetime of `2 ^ 63` seconds gives a token without an expiry, and one of a second less
a panic. -/
theorem lifetime_lost :
    (¬ HonoursLifetime 9223372036854775808 ⟨sampleTime 100, 0⟩
      (sampleState opsPolicy opsDocument) (sampleCreate 9223372036854775808)) ∧
    ¬ HonoursLifetime 9223372036854775807 ⟨sampleTime 100, 0⟩
      (sampleState opsPolicy opsDocument) (sampleCreate 9223372036854775807) := by
  have hrun :
      ((sampleCreate 9223372036854775808).2.access.tokens.rows.any fun r =>
        decide (r.id = sampleUuid 9 ∧ r.expiresAt = none)) = true ∧
      ((sampleState opsPolicy opsDocument).access.tokens.rows.all fun q =>
        decide (q.id ≠ sampleUuid 9)) = true ∧
      (match (sampleCreate 9223372036854775807).1 with
        | .error .panic => true
        | _ => false) = true := by
    decide +kernel
  obtain ⟨hstored, hnew, hpanic⟩ := hrun
  constructor
  · intro h
    obtain ⟨r, hr, hrow⟩ := List.any_eq_true.mp hstored
    obtain ⟨hid, hexpires⟩ := of_decide_eq_true hrow
    have hadded : Added (sampleState opsPolicy opsDocument)
        (sampleCreate 9223372036854775808).2 r := by
      refine ⟨hr, ?_⟩
      intro q hq
      rw [hid]
      exact of_decide_eq_true (List.all_eq_true.mp hnew q hq)
    obtain ⟨t, ht, -⟩ := h.ends r hadded
    rw [hexpires] at ht
    cases ht
  · intro h
    refine h.noPanic ?_
    split at hpanic
    · rename_i heq
      exact heq
    · cases hpanic

end Samples

end Service
end Secretbae
