import Secretbae.Audit.Chain

/-!
# Appends after tampering, and deletions

Two questions about evidence that `verify` has found or should find.

* Does a broken log stay broken when the daemon goes on appending to it?  An
  append writes a fresh anchor from the row count and the tail without reading
  the old one, so the anchor's evidence is lost at once.  What is left is the
  rows and the counter: `not_verifies_appendAll_iff`.
* Are deleted rows always noticed?  They are, unless every row goes and the
  anchor with them: `not_verifies_deleteRows_iff`.
-/

namespace Secretbae
namespace Audit

open Lib Proto Core

section Launder

variable {P : Primitives} {key : Key32}

/-- An append would make the log verify: the rows are a chain and `AUTOINCREMENT` continues it. -/
def AuditLog.Launderable (P : Primitives) (key : Key32) (log : AuditLog) : Prop :=
  ∃ es, IntactRows P key es log.rows ∧ log.sequence.toInt ≤ es.length

/-- A single append neither repairs nor spoils that condition. -/
theorem append_launderable_iff
    {log log' : AuditLog} {entry : AuditEntry} {record : AuditRecord}
    (h : append P log key entry = .ok (log', record)) :
    log'.Launderable P key ↔ log.Launderable P key := by
  constructor
  · rintro ⟨es, hes, -⟩
    obtain ⟨ds, -, hds, hseq⟩ := chain_of_append h hes
    exact ⟨ds, hds, hseq⟩
  · rintro ⟨es, hes, hseq⟩
    obtain ⟨hrec, hseq'⟩ := append_chain h hes hseq
    exact ⟨es ++ [entry], hrec.intactRows, hseq'.le⟩

theorem append_verifies_iff
    {log log' : AuditLog} {entry : AuditEntry} {record : AuditRecord}
    (h : append P log key entry = .ok (log', record)) :
    log'.Verifies P key ↔ log.Launderable P key := by
  rw [AuditLog.verifies_iff]
  constructor
  · rintro ⟨es, hes⟩
    obtain ⟨ds, -, hds, hseq⟩ := chain_of_append h hes.intactRows
    exact ⟨ds, hds, hseq⟩
  · rintro ⟨es, hes, hseq⟩
    exact ⟨es ++ [entry], (append_chain h hes hseq).1⟩

/-- After any number of appends, the rows and the counter before them decide. -/
theorem appendAll_verifies_iff
    {log log' : AuditLog} {entries : List AuditEntry}
    (hne : entries ≠ [])
    (h : appendAll P key log entries = .ok log') :
    log'.Verifies P key ↔ log.Launderable P key := by
  induction entries generalizing log with
  | nil =>
      exact absurd rfl hne
  | cons entry entries ih =>
      obtain ⟨mid, record, happend, hrest⟩ := appendAll_cons_eq_ok h
      cases entries with
      | nil =>
          cases hrest
          exact append_verifies_iff happend
      | cons next entries =>
          rw [ih (by simp) hrest]
          exact append_launderable_iff happend

/--
A log stays broken under appends exactly when its rows are no intact chain or
the `AUTOINCREMENT` counter has run past them.
-/
theorem not_verifies_appendAll_iff
    {log log' : AuditLog} {entries : List AuditEntry}
    (hne : entries ≠ [])
    (h : appendAll P key log entries = .ok log') :
    ¬ log'.Verifies P key ↔
      ∀ es, IntactRows P key es log.rows →
        (log.rows.length : Int) < log.sequence.toInt := by
  rw [appendAll_verifies_iff hne h]
  unfold AuditLog.Launderable
  push Not
  refine forall_congr' (fun es => ?_)
  constructor
  · intro himp hes
    have hlen : log.rows.length = es.length := by
      rw [hes.1, chainRows_length]
    rw [hlen]
    exact himp hes
  · intro himp hes
    have hlen : log.rows.length = es.length := by
      rw [hes.1, chainRows_length]
    rw [← hlen]
    exact himp hes

/-- Two entries with one cut from the tail; `counter` is left in `sqlite_sequence`. -/
def cutLog (counter : Int64) : AuditLog :=
  { initLog with
    sequence := counter
    anchor :=
      honestAnchor samplePrimitives (sampleKey 1)
        [AuditEntry.new 10 .init .success, AuditEntry.new 20 .unseal .success] }

theorem cutLog_truncated :
    verify samplePrimitives (cutLog 1) (sampleKey 1) = .ok (.truncated 2 1) := by
  decide +kernel

/-- With the counter untouched, the next append leaves a gap that is found. -/
theorem not_verifies_appendAll_cutLog :
    ∃ log',
      appendAll samplePrimitives (sampleKey 1) (cutLog 2)
          [AuditEntry.new 30 .unseal .success] = .ok log' ∧
        ¬ log'.Verifies samplePrimitives (sampleKey 1) := by
  have hok :
      ∃ log', appendAll samplePrimitives (sampleKey 1) (cutLog 2)
        [AuditEntry.new 30 .unseal .success] = .ok log' :=
    exists_of_isOk (by decide +kernel)
  obtain ⟨log', h⟩ := hok
  refine ⟨log', h, (not_verifies_appendAll_iff (by simp) h).mpr ?_⟩
  intro es _
  decide

/-- With the counter set back, the next append makes the shortened log verify. -/
theorem truncation_laundered_by_append :
    ¬ ∀ (P : Primitives) (key : Key32) (log log' : AuditLog)
        (entries : List AuditEntry),
        ¬ log.Verifies P key → entries ≠ [] →
        appendAll P key log entries = .ok log' →
        ¬ log'.Verifies P key := by
  intro hclaim
  have hcut : ¬ (cutLog 1).Verifies samplePrimitives (sampleKey 1) := by
    rintro ⟨n, tail, h⟩
    rw [cutLog_truncated] at h
    cases h
  have hok :
      ∃ log', appendAll samplePrimitives (sampleKey 1) (cutLog 1)
        [AuditEntry.new 30 .unseal .success] = .ok log' :=
    exists_of_isOk (by decide +kernel)
  obtain ⟨log', h⟩ := hok
  refine hclaim _ _ _ _ _ hcut (by simp) h ?_
  refine (appendAll_verifies_iff (by simp) h).mpr ?_
  exact ⟨[AuditEntry.new 10 .init .success], ⟨rfl, by simp⟩, by decide⟩

end Launder

section Deletion

variable {P : Primitives} {key : Key32}

/-- Remove the rows `gone` picks, and the anchor row as well if `anchorToo`. -/
def AuditLog.deleteRows (log : AuditLog) (gone : AuditRow → Bool) (anchorToo : Bool) :
    AuditLog where
  rows := log.rows.filter (fun row => !gone row)
  sorted := log.sorted.filter _
  sequence := log.sequence
  anchor := if anchorToo then none else log.anchor

/-- Deletions from an honest log go unnoticed exactly when nothing at all is left. -/
theorem not_verifies_deleteRows_iff
    {log : AuditLog} {es : List AuditEntry} {gone : AuditRow → Bool}
    (hlog : appendAll P key AuditLog.empty es = .ok log)
    (hgone : ∃ row ∈ log.rows, gone row = true)
    (anchorToo : Bool) :
    ¬ (log.deleteRows gone anchorToo).Verifies P key ↔
      (∃ row ∈ log.rows, gone row = false) ∨ anchorToo = false := by
  have hrec : log.Records P key es := by
    simpa using (appendAll_chain AuditLog.records_empty rfl hlog).1
  have hlt : (log.deleteRows gone anchorToo).rows.length < log.rows.length := by
    obtain ⟨row, hrow, hg⟩ := hgone
    exact List.length_filter_lt_length_iff_exists.mpr ⟨row, hrow, by simp [hg]⟩
  rw [AuditLog.verifies_iff, not_iff_comm]
  push Not
  constructor
  · rintro ⟨hall, hanchor⟩
    refine ⟨[], ⟨?_, ?_, by simp⟩⟩
    · exact List.filter_eq_nil_iff.mpr (by simpa using hall)
    · have : anchorToo = true := by simpa using hanchor
      simp [AuditLog.deleteRows, this, honestAnchor]
  · rintro ⟨ds, hds⟩
    have hshort : ds.length < es.length := by
      rw [hds.rows, hrec.rows] at hlt
      simpa using hlt
    have hanchor : anchorToo = true := by
      by_contra hkeep
      have hkeep : anchorToo = false := by simpa using hkeep
      have heq : honestAnchor P key ds = honestAnchor P key es := by
        rw [← hds.anchor, ← hrec.anchor]
        simp [AuditLog.deleteRows, hkeep]
      have := (honestAnchor_inj hds.fits hrec.fits heq).1
      omega
    have hnil : ds = [] := by
      have hanchorEq := hds.anchor
      simp only [AuditLog.deleteRows, hanchor, if_true, honestAnchor] at hanchorEq
      by_contra hds'
      simp [hds'] at hanchorEq
    refine ⟨?_, by simp [hanchor]⟩
    have hrows := hds.rows
    rw [hnil] at hrows
    simpa [AuditLog.deleteRows, chainRows] using hrows

/-- Deleting the only row but not the anchor is found. -/
theorem not_verifies_deleteRows_initLog :
    ¬ (initLog.deleteRows (fun _ => true) false).Verifies
        samplePrimitives (sampleKey 1) := by
  refine (not_verifies_deleteRows_iff appendAll_initLog ?_ false).mpr (.inr rfl)
  exact ⟨_, List.mem_singleton_self _, rfl⟩

/-- Deleting every row together with the anchor is not. -/
theorem deletion_of_everything_verifies :
    ¬ ∀ (P : Primitives) (key : Key32) (es : List AuditEntry) (log : AuditLog)
        (gone : AuditRow → Bool) (anchorToo : Bool),
        es ≠ [] → appendAll P key AuditLog.empty es = .ok log →
        (∃ row ∈ log.rows, gone row = true) →
        ¬ (log.deleteRows gone anchorToo).Verifies P key := by
  intro hclaim
  refine hclaim _ _ _ _ (fun _ => true) true (by simp) appendAll_initLog ?_ ?_
  · exact ⟨_, List.mem_singleton_self _, rfl⟩
  · refine ⟨0, none, ?_⟩
    decide +kernel

end Deletion

end Audit
end Secretbae
