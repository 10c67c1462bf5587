import Secretbae.Audit.Tamper

/-!
# `secretbae audit verify`

The verdict of `verify` on its way to the operator: the daemon's handler puts
it into an `AuditVerifyResponse`, the client receives that or an error, and
`print_audit_verify` turns it into output and an exit status.

The command fails exactly when the verdict carries a sequence number.  The two
verdicts about the chain as a whole carry none, so a truncated chain and a
missing or foreign anchor are reported as an intact chain of zero entries:
`auditVerifyCommand_faithful_iff`.
-/

namespace Secretbae
namespace Cli

open Lib Core Audit

/-- `api::AuditVerifyResponse`. -/
structure AuditVerifyResponse where
  entries : Nat
  brokenAt : Option Int64
  detail : Option String
deriving DecidableEq

/-- An error response: the status code and the message in its body. -/
structure ApiError where
  status : Nat
  message : String
deriving DecidableEq

def ApiError.internal : ApiError :=
  ⟨500, "internal error"⟩

/-- `i64::try_from(seq.get()).unwrap_or(-1)`. -/
def brokenAtOfSeq (seq : Nat) : Int64 :=
  if seq < 2 ^ 63 then Int64.ofNat seq else -1

/-- The daemon's `audit_verify` handler, for a caller who passed the gate. -/
def auditVerify (P : Primitives) (log : AuditLog) (auditKey : Key32) :
    Except ApiError AuditVerifyResponse :=
  match verify P log auditKey with
  | .error _ => .error ApiError.internal
  | .ok outcome =>
      .ok
        { entries :=
            match outcome with
            | .valid entriesVerified _ => entriesVerified
            | _ => 0
          brokenAt := outcome.brokenSeq.map brokenAtOfSeq
          detail := if outcome.isValid then none else some outcome.display }

/-- What `print_audit_verify` writes to standard output. -/
inductive Printed where
  | json (resp : AuditVerifyResponse)
  | failed (seq : Int64) (detail : String)
  | verified (entries : Nat)
deriving DecidableEq

/-- The line printed without `--json`. -/
def Printed.line : Printed → Option String
  | .json _ => none
  | .failed seq detail =>
      some s!"Audit verification FAILED at entry {seq.toInt}: {detail}"
  | .verified entries => some s!"Audit chain verified: {entries} entries intact."

/-- `print_audit_verify`: the output, and the error the command exits with. -/
def printAuditVerify (resp : AuditVerifyResponse) (json : Bool) :
    Printed × Except String Unit :=
  let out :=
    if json then .json resp
    else
      match resp.brokenAt with
      | some seq => .failed seq (resp.detail.getD "unknown mismatch")
      | none => .verified resp.entries
  let status :=
    if resp.brokenAt.isSome then .error "audit log verification failed" else .ok ()
  (out, status)

/-- What a run of the command shows. -/
structure CommandRun where
  printed : Option Printed
  status : Except String Unit

/-- `secretbae audit verify [--json]` against a daemon that answers. -/
def auditVerifyCommand (P : Primitives) (log : AuditLog) (auditKey : Key32)
    (json : Bool) : CommandRun :=
  match auditVerify P log auditKey with
  | .error err => ⟨none, .error err.message⟩
  | .ok resp =>
      let (out, status) := printAuditVerify resp json
      ⟨some out, status⟩

/-- The command says that the chain verified. -/
def CommandRun.SaysVerified (run : CommandRun) : Prop :=
  ∃ entries, run.printed = some (.verified entries)

/-- The anchor row can be read: it is absent, or it was written under this key. -/
def AnchorLoads (P : Primitives) (key : Key32) (stored : Option Bytes) : Prop :=
  stored = none ∨ ∃ a : Anchor, a.entries < 2 ^ 64 ∧ stored = some (a.encode P key)

section Faithful

variable {P : Primitives} {key : Key32}

theorem honestAnchor_loads
    {es : List AuditEntry}
    (hfit : es.length < 2 ^ 63) :
    AnchorLoads P key (honestAnchor P key es) := by
  unfold honestAnchor
  split
  · exact .inl rfl
  · exact .inr ⟨_, by simp; omega, rfl⟩

/-- The anchor check blames no entry. -/
theorem checkAnchor_brokenSeq
    {stored : Option Bytes} {count : Nat} {last : Digest} {result : VerificationResult}
    (h : checkAnchor P key stored count last = .ok result) :
    result.brokenSeq = none := by
  obtain ⟨a, -, h⟩ := bind_eq_ok.mp h
  cases a with
  | none =>
      dsimp only at h
      split at h <;> cases h <;> rfl
  | some a =>
      dsimp only at h
      generalize (if count > 0 then some last else none) = tail at h
      split at h
      · cases h
        rfl
      split at h <;> cases h <;> rfl

/-- The anchor check answers whenever the anchor can be read. -/
theorem checkAnchor_isOk_iff
    {stored : Option Bytes} {count : Nat} {last : Digest} :
    (∃ result, checkAnchor P key stored count last = .ok result) ↔
      AnchorLoads P key stored := by
  constructor
  · rintro ⟨result, h⟩
    obtain ⟨a, hload, -⟩ := bind_eq_ok.mp h
    cases a with
    | none =>
        exact .inl (Anchor.load_eq_none_iff.mp hload)
    | some a =>
        obtain ⟨hstored, hfit⟩ := Anchor.load_eq_some_iff.mp hload
        exact .inr ⟨a, hfit, hstored⟩
  · intro hloads
    have hload : ∃ a, Anchor.load P key stored = .ok a := by
      rcases hloads with rfl | ⟨a, hfit, hstored⟩
      · exact ⟨none, rfl⟩
      · exact ⟨some a, Anchor.load_eq_some_iff.mpr ⟨hstored, hfit⟩⟩
    obtain ⟨a, hload⟩ := hload
    unfold checkAnchor
    rw [hload]
    cases a with
    | none =>
        by_cases hz : count = 0 <;> simp [bind, Except.bind, hz]
    | some a =>
        simp only [bind, Except.bind]
        generalize (if count > 0 then some last else none) = tail
        split
        · exact ⟨_, rfl⟩
        split <;> exact ⟨_, rfl⟩

/-- Which contents get a verdict without a sequence number. -/
theorem verify_brokenSeq_none_iff
    {log : AuditLog} :
    (∃ result, verify P log key = .ok result ∧ result.brokenSeq = none) ↔
      ∃ es, IntactRows P key es log.rows ∧ AnchorLoads P key log.anchor := by
  unfold verify verifyReads
  constructor
  · rintro ⟨result, h, hnone⟩
    obtain ⟨outcome, hwalk, h⟩ := bind_eq_ok.mp h
    cases outcome with
    | stopped r =>
        cases h
        exact absurd hnone (walk_stopped_brokenSeq hwalk)
    | completed count last =>
        obtain ⟨es, hrows, hfit, -, -⟩ := walkFromGenesis_eq_completed_iff.mp hwalk
        exact ⟨es, ⟨hrows, hfit⟩, checkAnchor_isOk_iff.mp ⟨result, h⟩⟩
  · rintro ⟨es, ⟨hrows, hfit⟩, hloads⟩
    have hwalk :=
      walkFromGenesis_eq_completed_iff.mpr ⟨es, hrows, hfit, rfl, rfl⟩
    obtain ⟨result, h⟩ := checkAnchor_isOk_iff.mpr hloads
    exact ⟨result, bind_eq_ok.mpr ⟨_, hwalk, h⟩, checkAnchor_brokenSeq h⟩

/-- The command succeeds exactly on a verdict without a sequence number. -/
theorem auditVerifyCommand_status_iff
    {log : AuditLog} {json : Bool} :
    (auditVerifyCommand P log key json).status = .ok () ↔
      ∃ result, verify P log key = .ok result ∧ result.brokenSeq = none := by
  cases h : verify P log key with
  | error e =>
      simp [auditVerifyCommand, auditVerify, h]
  | ok result =>
      cases hseq : result.brokenSeq <;>
        simp [auditVerifyCommand, auditVerify, printAuditVerify, h, hseq]

/-- Only a command that succeeds says that the chain verified. -/
theorem status_of_saysVerified
    {log : AuditLog} {json : Bool}
    (h : (auditVerifyCommand P log key json).SaysVerified) :
    (auditVerifyCommand P log key json).status = .ok () := by
  obtain ⟨entries, h⟩ := h
  unfold auditVerifyCommand at h ⊢
  cases hresp : auditVerify P log key with
  | error e =>
      rw [hresp] at h
      cases h
  | ok resp =>
      rw [hresp] at h
      cases hb : resp.brokenAt <;> cases json <;>
        simp [printAuditVerify, hb] at h ⊢

/--
The command is faithful to `verify` unless the rows are an intact chain whose
anchor is missing or belongs, authentically, to another chain.
-/
theorem auditVerifyCommand_faithful_iff
    (P : Primitives) (log : AuditLog) (key : Key32) (json : Bool) :
    (((auditVerifyCommand P log key json).status = .ok () ↔ log.Verifies P key) ∧
      (¬ log.Verifies P key → ¬ (auditVerifyCommand P log key json).SaysVerified)) ↔
    ∀ es, IntactRows P key es log.rows → AnchorLoads P key log.anchor →
      log.anchor = honestAnchor P key es := by
  rw [auditVerifyCommand_status_iff, verify_brokenSeq_none_iff]
  constructor
  · rintro ⟨hstatus, -⟩ es hes hloads
    obtain ⟨ds, hds⟩ := AuditLog.verifies_iff.mp (hstatus.mp ⟨es, hes, hloads⟩)
    have heq : ds = es := chainRows_inj (hds.rows.symm.trans hes.1)
    rw [← heq]
    exact hds.anchor
  · intro hanchor
    have hstatus :
        (∃ es, IntactRows P key es log.rows ∧ AnchorLoads P key log.anchor) ↔
          log.Verifies P key := by
      rw [AuditLog.verifies_iff]
      constructor
      · rintro ⟨es, hes, hloads⟩
        exact ⟨es, hes.1, hanchor es hes hloads, hes.2⟩
      · rintro ⟨es, hes⟩
        refine ⟨es, hes.intactRows, ?_⟩
        rw [hes.anchor]
        exact honestAnchor_loads hes.fits
    refine ⟨hstatus, ?_⟩
    intro hbroken hsays
    have hok := status_of_saysVerified hsays
    rw [auditVerifyCommand_status_iff, verify_brokenSeq_none_iff] at hok
    exact hbroken (hstatus.mp hok)

/-- A truncated log is reported as verified. -/
theorem truncated_log_reported_verified :
    ¬ ∀ (P : Primitives) (log : AuditLog) (key : Key32) (json : Bool),
        ((auditVerifyCommand P log key json).status = .ok () ↔ log.Verifies P key) ∧
          (¬ log.Verifies P key →
            ¬ (auditVerifyCommand P log key json).SaysVerified) := by
  intro hclaim
  obtain ⟨-, hsays⟩ := hclaim samplePrimitives (cutLog 2) (sampleKey 1) false
  have htruncated :
      verify samplePrimitives (cutLog 2) (sampleKey 1) = .ok (.truncated 2 1) := by
    decide +kernel
  refine hsays ?_ ⟨0, ?_⟩
  · rintro ⟨n, tail, h⟩
    rw [htruncated] at h
    cases h
  · simp [auditVerifyCommand, auditVerify, htruncated, VerificationResult.brokenSeq,
      printAuditVerify]

example : (Printed.verified 0).line = some "Audit chain verified: 0 entries intact." := by
  decide

end Faithful

end Cli
end Secretbae
