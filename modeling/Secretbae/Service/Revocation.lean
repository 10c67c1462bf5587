import Secretbae.Service.Decision
import Secretbae.Store.TokenRuns

/-!
# Revoked tokens

A revocation, once recorded, stays recorded with its time.  What a gate makes
of it depends on the clock: `authenticate` compares the recorded time with the
present one, so a token revoked at `t` is turned away from `t` on, and not
where the clock has been set back before `t`.
-/

namespace Secretbae
namespace Service

open Lib Proto Core Audit Storage Policies
open Daemon (LookupPrefix PeerCredentials Denied)

/-- A token as if it had never been revoked. -/
def forgive (r : TokenRow) : TokenRow :=
  { r with revokedAt := none }

/-- The tables as if no token had been revoked. -/
def forgiven (access : Access) : Access :=
  access.updateTokens forgive (fun _ => rfl) (fun _ => rfl)

section Revocation

variable {F : Foreign} {store : Store} {access : Access}

theorem tokenByPrefix_forgiven
    {lookup : LookupPrefix} {record : TokenRecord}
    (h : tokenByPrefix access lookup = some record) :
    tokenByPrefix (forgiven access) lookup = some { record with revokedAt := none } := by
  obtain ⟨r, hr, hlookup, rfl⟩ := tokenByPrefix_eq_some_iff.mp h
  have hmem : forgive r ∈ (forgiven access).tokens.rows := List.mem_map_of_mem hr
  exact tokenByPrefix_eq_some_iff.mpr ⟨forgive r, hmem, hlookup, rfl⟩

/-- A revoked token passes the gates before its revocation, where it passed them anyway. -/
theorem accepts_revoked_iff
    {presented : PresentedToken} {record : TokenRecord} {t : UnixTime}
    (hrecord : tokenByPrefix access presented.lookupPrefix = some record)
    (ht : record.revokedAt = some t)
    {peer : PeerCredentials} {requested : Requested} {now : UnixTime} :
    Accepts F store access (.ok presented) peer requested now ↔
      now.seconds < t.seconds ∧
        Accepts F store (forgiven access) (.ok presented) peer requested now := by
  have hpolicies : ∀ id, policiesForToken F.policyJson (forgiven access) id =
      policiesForToken F.policyJson access id := fun _ => rfl
  constructor
  · rintro ⟨caller, h⟩
    obtain ⟨capability, token, record', policies, hroute, htoken, hrecord', hhash, husable,
      hgrants, hgranted, -⟩ := check_eq_ok_iff.mp h
    cases htoken
    cases hrecord.symm.trans hrecord'
    refine ⟨husable.notRevoked t ht, _, check_eq_ok_iff.mpr ⟨capability, presented,
      { record with revokedAt := none }, policies, hroute, rfl, tokenByPrefix_forgiven hrecord,
      hhash, ⟨?_, husable.notExpired, husable.bound⟩, hgrants, hgranted, rfl⟩⟩
    intro t' ht'
    cases ht'
  · rintro ⟨hbefore, caller, h⟩
    obtain ⟨capability, token, record', policies, hroute, htoken, hrecord', hhash, husable,
      hgrants, hgranted, -⟩ := check_eq_ok_iff.mp h
    cases htoken
    cases (tokenByPrefix_forgiven hrecord).symm.trans hrecord'
    refine ⟨_, check_eq_ok_iff.mpr ⟨capability, presented, record, policies, hroute, rfl,
      hrecord, hhash, ⟨?_, husable.notExpired, husable.bound⟩, hgrants, hgranted, rfl⟩⟩
    intro t' ht'
    cases ht.symm.trans ht'
    exact hbefore

/--
After a revocation, whatever is done to tokens and policies, the recorded time
stays, and the token is turned away exactly where the clock has reached that
time or the token would not have been admitted in any case.
-/
theorem revocation_final_iff
    (F : Foreign) {before : List AccessOp} {lookup : LookupPrefix} {at_ : UnixTime}
    {access : Access}
    (h : revokeToken (run (AccessOp.step F.policyJson) Access.empty before) lookup at_ =
      .ok access) :
    ∃ t, access.RevokedAt lookup t ∧ ∀ after : List AccessOp,
      (∃ record,
        tokenByPrefix (run (AccessOp.step F.policyJson) access after) lookup = some record ∧
        record.revokedAt = some t) ∧
      ∀ (store : Store) (presented : PresentedToken) (peer : PeerCredentials)
        (requested : Requested) (now : UnixTime), presented.lookupPrefix = lookup →
        (¬ Accepts F store (run (AccessOp.step F.policyJson) access after) (.ok presented) peer
            requested now ↔
          t.seconds ≤ now.seconds ∨
            ¬ Accepts F store (forgiven (run (AccessOp.step F.policyJson) access after))
              (.ok presented) peer requested now) := by
  obtain ⟨t, ht⟩ := revokedAt_revokeToken h
  refine ⟨t, ht, ?_⟩
  intro after
  obtain ⟨r, hr, hlookup, hrevoked⟩ := revokedAt_run (J := F.policyJson) ht after
  have hrecord : tokenByPrefix (run (AccessOp.step F.policyJson) access after) lookup =
      some r.record :=
    tokenByPrefix_eq_some_iff.mpr ⟨r, hr, hlookup, rfl⟩
  refine ⟨⟨r.record, hrecord, hrevoked⟩, ?_⟩
  rintro store presented peer requested now rfl
  rw [accepts_revoked_iff hrecord hrevoked, not_and_or, Int64.not_lt]

end Revocation

section Witnesses

/-- A policy, and a token that it is attached to. -/
def sampleHistory : List AccessOp :=
  [.putPolicy opsPolicy (sampleTime 40),
    .createToken
      { id := sampleUuid 1
        lookupPrefix := sampleLookup
        hash := sampleTokenRow.hash
        name := "ci"
        boundUid := none
        expiresAt := none
        policies := ["ops"] } (sampleTime 50)]

/-- The tables after its revocation at second 100. -/
def sampleRevoked : Access :=
  (run (AccessOp.step sampleForeign.policyJson) Access.empty sampleHistory).settle
    (revokeToken (run (AccessOp.step sampleForeign.policyJson) Access.empty sampleHistory)
      sampleLookup (sampleTime 100))

theorem revokeToken_sample :
    revokeToken (run (AccessOp.step sampleForeign.policyJson) Access.empty sampleHistory)
      sampleLookup (sampleTime 100) = .ok sampleRevoked := by
  have hok : (revokeToken (run (AccessOp.step sampleForeign.policyJson) Access.empty
      sampleHistory) sampleLookup (sampleTime 100)).isOk = true := by
    decide +kernel
  obtain ⟨access, h⟩ := exists_of_isOk hok
  rw [sampleRevoked, h]
  rfl

/-- The policy is stored anew, the token used, and revoked a second time. -/
def sampleSequel : List AccessOp :=
  [.putPolicy opsPolicy (sampleTime 105), .touchToken (sampleUuid 1) (sampleTime 106),
    .revokeToken sampleLookup (sampleTime 110)]

/-- A token revoked at second 100 is turned away at second 101, whatever was done since. -/
theorem revocation_final_sample :
    ¬ Accepts sampleForeign Store.empty
      (run (AccessOp.step sampleForeign.policyJson) sampleRevoked sampleSequel)
      (.ok samplePresented) ⟨0, 1⟩ ⟨.status, none⟩ (sampleTime 101) := by
  obtain ⟨t, -, hafter⟩ := revocation_final_iff sampleForeign revokeToken_sample
  obtain ⟨⟨record, hrecord, hrevoked⟩, hgates⟩ := hafter sampleSequel
  have htime : (tokenByPrefix (run (AccessOp.step sampleForeign.policyJson) sampleRevoked
      sampleSequel) sampleLookup).map TokenRecord.revokedAt = some (some (sampleTime 100)) := by
    decide +kernel
  rw [hrecord, Option.map_some, hrevoked, Option.some.injEq, Option.some.injEq] at htime
  refine (hgates Store.empty samplePresented ⟨0, 1⟩ ⟨.status, none⟩
    (sampleTime 101) rfl).mpr (.inl ?_)
  rw [htime]
  decide

/-- The clock is set back after a revocation, and the token is good again. -/
theorem revocation_undone_by_clock :
    revokeToken (run (AccessOp.step sampleForeign.policyJson) Access.empty sampleHistory)
        sampleLookup (sampleTime 100) = .ok sampleRevoked ∧
      Accepts sampleForeign Store.empty
        (run (AccessOp.step sampleForeign.policyJson) sampleRevoked
          [.revokeToken sampleLookup (sampleTime 102)])
        (.ok samplePresented) ⟨0, 1⟩ ⟨.status, none⟩ (sampleTime 99) :=
  ⟨revokeToken_sample, exists_of_isOk (by decide +kernel)⟩

end Witnesses

end Service
end Secretbae
