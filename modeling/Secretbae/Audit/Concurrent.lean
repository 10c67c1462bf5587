import Secretbae.Audit.Chain
import Secretbae.Lib.Runs

/-!
# Appends and re-keying from several connections

`append` is one immediate transaction.  `rekey_chain` is three separate steps:
a read of the rows, a later read of the anchor, and an immediate transaction
that rewrites both.  Other connections may commit between any two of them.

`Conns` is the system of all connections with the key in force; `conns_run`
says what every run of it leaves in the database.  The last part lets the
commits in between be arbitrary edits: `rekeyInterleaved_faithful_iff`.
-/

namespace Secretbae
namespace Audit

open Lib Proto Core

/-- How far a call of `rekey_chain` has come. -/
inductive RekeyPhase where
  | idle
  /-- The rows have been walked under `oldKey`. -/
  | walked (oldKey newKey : Key32) (count : Nat) (lastHash : Digest)
  /-- The anchor has been checked as well. -/
  | verified (newKey : Key32)

/-- All connections, the database they share, and the entries committed so far. -/
structure Conns where
  log : AuditLog
  key : Key32
  phase : Nat → RekeyPhase
  committed : List AuditEntry

/-- One step of some connection. -/
inductive ConnStep where
  | append (entry : AuditEntry)
  | rekeyWalk (conn : Nat) (newKey : Key32)
  | rekeyAnchor (conn : Nat)
  | rekeyCommit (conn : Nat)

def Conns.init (key : Key32) : Conns where
  log := AuditLog.empty
  key := key
  phase := fun _ => .idle
  committed := []

/-- Record how far connection `conn` has come. -/
def Conns.setPhase (s : Conns) (conn : Nat) (phase : RekeyPhase) : Conns :=
  { s with phase := fun c => if c = conn then phase else s.phase c }

/-- One step; a call that fails returns to `idle` and leaves the database alone. -/
def Conns.step (P : Primitives) (s : Conns) : ConnStep → Conns
  | .append entry =>
      match Audit.append P s.log s.key entry with
      | .ok (log, _) => { s with log := log, committed := s.committed ++ [entry] }
      | .error _ => s
  | .rekeyWalk conn newKey =>
      match s.phase conn, walkFromGenesis P s.key s.log.rows with
      | .idle, .ok (.completed count lastHash) =>
          s.setPhase conn (.walked s.key newKey count lastHash)
      | _, _ => s
  | .rekeyAnchor conn =>
      match s.phase conn with
      | .walked oldKey newKey count lastHash =>
          match checkAnchor P oldKey s.log.anchor count lastHash with
          | .ok (.valid _ _) => s.setPhase conn (.verified newKey)
          | _ => s.setPhase conn .idle
      | _ => s
  | .rekeyCommit conn =>
      match s.phase conn with
      | .verified newKey =>
          match rekeyTransaction P s.log newKey with
          | .ok (log, _) => { s.setPhase conn .idle with log := log, key := newKey }
          | .error _ => s.setPhase conn .idle
      | _ => s

section Invariant

variable {P : Primitives}

/-- Chain, anchor and counter are in step with the committed appends. -/
structure Conns.Inv (P : Primitives) (s : Conns) : Prop where
  records : s.log.Records P s.key s.committed
  sequence : s.log.sequence.toInt = s.committed.length

theorem Conns.inv_init
    (key : Key32) :
    (Conns.init key).Inv P :=
  ⟨AuditLog.records_empty, rfl⟩

theorem Conns.inv_setPhase
    {s : Conns}
    (h : s.Inv P) (conn : Nat) (phase : RekeyPhase) :
    (s.setPhase conn phase).Inv P :=
  ⟨h.records, h.sequence⟩

theorem Conns.inv_append
    {s : Conns}
    (h : s.Inv P) (entry : AuditEntry) :
    (s.step P (.append entry)).Inv P := by
  unfold Conns.step
  dsimp only
  split
  · rename_i log record happend
    obtain ⟨hrec, hseq⟩ :=
      append_chain happend h.records.intactRows h.sequence.le
    exact ⟨hrec, hseq⟩
  · exact h

theorem Conns.inv_rekeyCommit
    {s : Conns}
    (h : s.Inv P) (conn : Nat) :
    (s.step P (.rekeyCommit conn)).Inv P := by
  unfold Conns.step
  dsimp only
  split
  · rename_i newKey _
    obtain ⟨log, hok, hrec, hseq⟩ := rekeyTransaction_records h.records newKey
    rw [hok]
    exact ⟨hrec, by rw [hseq]; exact h.sequence⟩
  · exact h

/-- Every step of every connection keeps them in step. -/
theorem Conns.inv_step
    {s : Conns}
    (h : s.Inv P) (a : ConnStep) :
    (s.step P a).Inv P := by
  cases a with
  | append entry =>
      exact Conns.inv_append h entry
  | rekeyWalk conn newKey =>
      unfold Conns.step
      dsimp only
      split
      · exact Conns.inv_setPhase h _ _
      · exact h
  | rekeyAnchor conn =>
      unfold Conns.step
      dsimp only
      split
      · split <;> exact Conns.inv_setPhase h _ _
      · exact h
  | rekeyCommit conn =>
      exact Conns.inv_rekeyCommit h conn

/-- Reading the rows of a chain back gives its entries in order. -/
theorem map_readEntry_chainRows
    {key : Key32} {prev : Digest} {n : Nat} {es : List AuditEntry}
    (hfit : n + es.length ≤ 2 ^ 63) :
    (chainRows P key prev n es).map readEntry = es.map .ok := by
  induction es generalizing prev n with
  | nil =>
      rfl
  | cons e es ih =>
      simp only [List.length_cons] at hfit
      have hseq : 0 ≤ (Int64.ofNat n).toInt := by
        rw [toInt_ofNat (by omega)]
        omega
      simp only [chainRows, List.map_cons, readEntry_encodeRow hseq]
      rw [ih (by omega)]

theorem map_seq_chainRows
    {key : Key32} {prev : Digest} {es : List AuditEntry}
    (hfit : es.length < 2 ^ 63) :
    (chainRows P key prev 1 es).map (fun row => row.seq.toInt) =
      (List.range' 1 es.length).map (fun n : Nat => (n : Int)) := by
  have hseq :
      (chainRows P key prev 1 es).map (·.seq) =
        (List.range' 1 es.length).map Int64.ofNat :=
    chainRows_seq prev 1 es
  replace hseq := congrArg (List.map Int64.toInt) hseq
  rw [List.map_map, List.map_map] at hseq
  refine hseq.trans (List.map_congr_left ?_)
  intro n hn
  obtain ⟨i, hi, rfl⟩ := List.mem_range'.mp hn
  exact toInt_ofNat (by omega)

theorem tailHash_chainRows
    {key : Key32} {es : List AuditEntry} :
    (tailHash P key es).map List.Vector.toList =
      (chainRows P key genesis 1 es).getLast?.map (·.entryHash) := by
  rcases List.eq_nil_or_concat es with rfl | ⟨init, e, rfl⟩
  · rfl
  · rw [List.concat_eq_append, chainRows_getLast?]
    simp [tailHash, encodeRow]

/-- What a verified log shows of the committed entries. -/
theorem Conns.Inv.spec
    {s : Conns}
    (h : s.Inv P) :
    (∃ tail,
        verify P s.log s.key = .ok (.valid s.committed.length tail) ∧
          tail.map List.Vector.toList = s.log.rows.getLast?.map (·.entryHash)) ∧
      s.log.rows.map (fun row => row.seq.toInt) =
        (List.range' 1 s.committed.length).map (fun n : Nat => (n : Int)) ∧
      s.log.rows.map readEntry = s.committed.map .ok := by
  have hfit := h.records.fits
  refine ⟨⟨tailHash P s.key s.committed, ?_, ?_⟩, ?_, ?_⟩
  · exact verify_eq_valid_iff.mpr ⟨s.committed, h.records, rfl, rfl⟩
  · rw [h.records.rows]
    exact tailHash_chainRows
  · rw [h.records.rows]
    exact map_seq_chainRows hfit
  · rw [h.records.rows]
    exact map_readEntry_chainRows (by omega)

/-- Steps of `rekey_chain` leave the committed entries alone. -/
theorem Conns.committed_rekey
    (s : Conns) (a : ConnStep)
    (ha : ∀ entry, a ≠ .append entry) :
    (s.step P a).committed = s.committed := by
  cases a with
  | append entry =>
      exact absurd rfl (ha entry)
  | rekeyWalk conn newKey =>
      unfold Conns.step
      dsimp only
      split <;> rfl
  | rekeyAnchor conn =>
      unfold Conns.step
      dsimp only
      split
      · split <;> rfl
      · rfl
  | rekeyCommit conn =>
      unfold Conns.step
      dsimp only
      split
      · split <;> rfl
      · rfl

/--
However the appends and re-keyings of any number of connections interleave, the
log verifies under the key in force, its rows are numbered from one and decode
to the committed entries in order, and re-keying changes none of them.
-/
theorem conns_run
    (P : Primitives) (key : Key32) (acts : List ConnStep) :
    let s := run (Conns.step P) (Conns.init key) acts
    (∃ tail,
        verify P s.log s.key = .ok (.valid s.committed.length tail) ∧
          tail.map List.Vector.toList = s.log.rows.getLast?.map (·.entryHash)) ∧
      s.log.rows.map (fun row => row.seq.toInt) =
        (List.range' 1 s.committed.length).map (fun n : Nat => (n : Int)) ∧
      s.log.rows.map readEntry = s.committed.map .ok ∧
      ∀ a : ConnStep, (∀ entry, a ≠ .append entry) →
        (s.step P a).log.rows.map readEntry = s.log.rows.map readEntry := by
  intro s
  have hinv : s.Inv P :=
    run_invariant (Conns.Inv P) (fun _ => True)
      (fun _ a _ h => Conns.inv_step h a) (fun _ _ => trivial) (Conns.inv_init key)
  obtain ⟨hverify, hseq, hread⟩ := hinv.spec
  refine ⟨hverify, hseq, hread, ?_⟩
  intro a ha
  obtain ⟨-, -, hread'⟩ := (Conns.inv_step hinv a).spec
  rw [hread', hread, Conns.committed_rekey s a ha]

/-- Uninterrupted, the three steps are `rekey_chain`. -/
theorem Conns.rekey_uninterrupted
    (s : Conns) (conn : Nat) (newKey : Key32)
    (hidle : s.phase conn = .idle) :
    (run (Conns.step P) s
        [.rekeyWalk conn newKey, .rekeyAnchor conn, .rekeyCommit conn]).log =
      match rekeyChain P s.log s.key newKey with
      | .ok (log, _) => log
      | .error _ => s.log := by
  cases hwalk : walkFromGenesis P s.key s.log.rows with
  | error e =>
      simp [Conns.step, hidle, hwalk, rekeyChain, verify, verifyReads, bind, Except.bind]
  | ok outcome =>
      cases outcome with
      | stopped r =>
          have hr := walk_stopped_brokenSeq hwalk
          cases r <;>
            simp_all [Conns.step, rekeyChain, verify, verifyReads, bind, Except.bind,
              VerificationResult.brokenSeq]
      | completed count last =>
          cases hcheck : checkAnchor P s.key s.log.anchor count last with
          | error e =>
              simp [Conns.step, Conns.setPhase, hidle, hwalk, hcheck, rekeyChain,
                verify, verifyReads, bind, Except.bind]
          | ok r =>
              cases r with
              | valid n tail =>
                  cases htx : rekeyTransaction P s.log newKey <;>
                    simp [Conns.step, Conns.setPhase, hidle, hwalk, hcheck, htx,
                      rekeyChain, verify, verifyReads, bind, Except.bind]
              | _ =>
                  simp [Conns.step, Conns.setPhase, hidle, hwalk, hcheck, rekeyChain,
                    verify, verifyReads, bind, Except.bind]

end Invariant

/--
A call of `rekey_chain` with edits committed through other connections: `edit₁`
between the reads of the rows and of the anchor, `edit₂` before the immediate
transaction begins, `edit₃` after it.  A success comes with what the transaction
committed and the number of entries in it.
-/
def rekeyInterleaved (P : Primitives) (oldKey newKey : Key32) (log : AuditLog)
    (edit₁ edit₂ edit₃ : AuditLog → AuditLog) :
    Except AuditError (AuditLog × Nat) × AuditLog :=
  let atAnchor := edit₁ log
  let atBegin := edit₂ atAnchor
  match verifyReads P oldKey log.rows atAnchor.anchor with
  | .error e => (.error e, edit₃ atBegin)
  | .ok (.valid _ _) =>
      match rekeyTransaction P atBegin newKey with
      | .ok (committed, rekeyed) => (.ok (committed, rekeyed), edit₃ committed)
      | .error e => (.error e, edit₃ atBegin)
  | .ok broken =>
      (.error (.refusingToRekeyBrokenChain broken.display), edit₃ atBegin)

/-- The entries that the rows decode to, in order. -/
def decodedEntries (rows : List AuditRow) : List AuditEntry :=
  rows.filterMap (fun row => (readEntry row).toOption)

/-- Everything in a row but its sequence number. -/
def AuditRow.unnumbered (row : AuditRow) : AuditRow :=
  { row with seq := 0 }

/-- Everything in a row but its sequence number and its two hashes. -/
def AuditRow.content (row : AuditRow) : AuditRow :=
  { row with seq := 0, prevHash := genesis.toList, entryHash := genesis.toList }

/-- Every row holds an entry. -/
def Readable (rows : List AuditRow) : Prop :=
  ∀ row ∈ rows, 0 ≤ row.seq.toInt ∧ ∃ prev hash e, row = encodeRow row.seq prev hash e

/--
The rows of `after` hold the entries `es` with hashes under `newKey`, and keep
the numbers that they had in `before`.
-/
structure Rekeyed (P : Primitives) (newKey : Key32) (es : List AuditEntry)
    (before after : AuditLog) : Prop where
  rows : after.rows.map AuditRow.unnumbered =
    (chainRows P newKey genesis 1 es).map AuditRow.unnumbered
  seqs : after.rows.map (·.seq) = before.rows.map (·.seq)
  sequence : after.sequence = before.sequence
  anchor : after.anchor = if es = [] then before.anchor else honestAnchor P newKey es

/-- The reads of the verification show the chain of these entries. -/
structure Accepted (P : Primitives) (oldKey : Key32) (log : AuditLog)
    (edit₁ : AuditLog → AuditLog) (es : List AuditEntry) : Prop where
  rows : IntactRows P oldKey es log.rows
  anchor : (edit₁ log).anchor = honestAnchor P oldKey es

/--
A success commits the entries that the verification read, with hashes under the
new key, and a failure leaves the edits alone.
-/
def RekeyFaithful (P : Primitives) (oldKey newKey : Key32) (log : AuditLog)
    (edit₁ edit₂ edit₃ : AuditLog → AuditLog) : Prop :=
  (∀ committed rekeyed final,
      rekeyInterleaved P oldKey newKey log edit₁ edit₂ edit₃ =
        (.ok (committed, rekeyed), final) →
      final = edit₃ committed ∧
        ∃ es, Accepted P oldKey log edit₁ es ∧ rekeyed = es.length ∧
          Rekeyed P newKey es (edit₂ (edit₁ log)) committed) ∧
  (∀ err final,
      rekeyInterleaved P oldKey newKey log edit₁ edit₂ edit₃ = (.error err, final) →
      final = edit₃ (edit₂ (edit₁ log)))

section Interleaved

variable {P : Primitives}

theorem readEntry_eq_ok_iff
    {row : AuditRow} {e : AuditEntry} :
    readEntry row = .ok e ↔
      0 ≤ row.seq.toInt ∧ ∃ prev hash, row = encodeRow row.seq prev hash e := by
  constructor
  · intro h
    unfold readEntry at h
    split at h
    · cases h
    split at h
    · cases h
    · rename_i seq prev hash entry hparse
      cases h
      obtain ⟨hseq, -, hrow⟩ := parseAndValidateRow_eq_valid_iff.mp hparse
      exact ⟨hseq, prev, hash, hrow⟩
    · cases h
  · rintro ⟨hseq, prev, hash, hrow⟩
    rw [hrow]
    exact readEntry_encodeRow hseq prev hash e

theorem Readable.exists_readEntry
    {rows : List AuditRow} {row : AuditRow}
    (h : Readable rows)
    (hrow : row ∈ rows) :
    ∃ e, readEntry row = .ok e := by
  obtain ⟨hseq, prev, hash, e, heq⟩ := h row hrow
  exact ⟨e, readEntry_eq_ok_iff.mpr ⟨hseq, prev, hash, heq⟩⟩

theorem Readable.of_cons
    {rows : List AuditRow} {row : AuditRow}
    (h : Readable (row :: rows)) :
    Readable rows :=
  fun r hr => h r (List.mem_cons_of_mem row hr)

theorem content_of_readEntry
    {row : AuditRow} {e : AuditEntry}
    (h : readEntry row = .ok e) :
    row.content = encodeRow 0 genesis genesis e := by
  obtain ⟨-, prev, hash, hrow⟩ := readEntry_eq_ok_iff.mp h
  rw [hrow]
  rfl

theorem decodedEntries_cons
    {row : AuditRow} {rows : List AuditRow} {e : AuditEntry}
    (h : readEntry row = .ok e) :
    decodedEntries (row :: rows) = e :: decodedEntries rows := by
  simp [decodedEntries, h, Except.toOption]

/-- The contents of readable rows and their entries determine each other. -/
theorem map_content_of_readable
    {rows : List AuditRow}
    (h : Readable rows) :
    rows.map AuditRow.content =
      (decodedEntries rows).map (encodeRow 0 genesis genesis) := by
  induction rows with
  | nil =>
      rfl
  | cons row rows ih =>
      obtain ⟨e, he⟩ := h.exists_readEntry List.mem_cons_self
      rw [decodedEntries_cons he, List.map_cons, List.map_cons, content_of_readEntry he,
        ih h.of_cons]

theorem map_content_eq_iff
    {rows rows' : List AuditRow}
    (h : Readable rows)
    (h' : Readable rows') :
    rows.map AuditRow.content = rows'.map AuditRow.content ↔
      decodedEntries rows = decodedEntries rows' := by
  rw [map_content_of_readable h, map_content_of_readable h']
  constructor
  · intro heq
    exact List.map_injective_iff.mpr (fun _ _ => encodeRow_inj) heq
  · intro heq
    rw [heq]

theorem readable_chainRows
    {key : Key32} {es : List AuditEntry} {rows : List AuditRow}
    (h : IntactRows P key es rows) :
    Readable rows ∧ decodedEntries rows = es := by
  obtain ⟨rfl, hfit⟩ := h
  have hread : (chainRows P key genesis 1 es).map readEntry = es.map .ok :=
    map_readEntry_chainRows (by omega)
  refine ⟨?_, ?_⟩
  · intro row hrow
    have hmem := List.mem_map_of_mem (f := readEntry) hrow
    rw [hread] at hmem
    obtain ⟨e, -, he⟩ := List.mem_map.mp hmem
    obtain ⟨hseq, prev, hash, heq⟩ := readEntry_eq_ok_iff.mp he.symm
    exact ⟨hseq, prev, hash, e, heq⟩
  · have hfilter : decodedEntries (chainRows P key genesis 1 es) =
        ((chainRows P key genesis 1 es).map readEntry).filterMap Except.toOption := by
      rw [List.filterMap_map]
      rfl
    rw [hfilter, hread, List.filterMap_map]
    exact List.filterMap_some

/-- The entries are what the rows hold, whatever their numbers and the keys. -/
theorem unnumbered_chainRows_inj
    {key key' : Key32} {p q : Digest} {m n : Nat} {ds es : List AuditEntry}
    (h : (chainRows P key p m ds).map AuditRow.unnumbered =
      (chainRows P key' q n es).map AuditRow.unnumbered) :
    ds = es := by
  induction ds generalizing p q m n es with
  | nil =>
      cases es with
      | nil => rfl
      | cons e es => cases h
  | cons d ds ih =>
      cases es with
      | nil => cases h
      | cons e es =>
          obtain ⟨hrow, hrows⟩ := List.cons.inj h
          have hentry : encodeRow 0 p (computeEntryHash P key p d) d =
              encodeRow 0 q (computeEntryHash P key' q e) e := hrow
          rw [encodeRow_inj hentry, ih hrows]

theorem Rekeyed.unique
    {newKey : Key32} {ds es : List AuditEntry} {before after : AuditLog}
    (hds : Rekeyed P newKey ds before after)
    (hes : Rekeyed P newKey es before after) :
    ds = es :=
  unnumbered_chainRows_inj (hds.rows.symm.trans hes.rows)

theorem Accepted.unique
    {oldKey : Key32} {log : AuditLog} {edit₁ : AuditLog → AuditLog} {ds es : List AuditEntry}
    (hds : Accepted P oldKey log edit₁ ds)
    (hes : Accepted P oldKey log edit₁ es) :
    ds = es :=
  chainRows_inj (hds.rows.1.symm.trans hes.rows.1)

/-- The verification succeeds on such reads only. -/
theorem accepted_iff
    {oldKey : Key32} {log : AuditLog} {edit₁ : AuditLog → AuditLog} :
    (∃ n tail, verifyReads P oldKey log.rows (edit₁ log).anchor = .ok (.valid n tail)) ↔
      ∃ es, Accepted P oldKey log edit₁ es := by
  constructor
  · rintro ⟨n, tail, h⟩
    obtain ⟨es, hrows, hfit, hanchor, -, -⟩ := verifyReads_eq_valid_iff.mp h
    exact ⟨es, ⟨hrows, hfit⟩, hanchor⟩
  · rintro ⟨es, ⟨hrows, hfit⟩, hanchor⟩
    exact ⟨_, _, verifyReads_eq_valid_iff.mpr ⟨es, hrows, hfit, hanchor, rfl, rfl⟩⟩

/-- The loop of `rekey_chain` chains the entries it decodes. -/
theorem rekeyRows_readable
    {rows : List AuditRow}
    (h : Readable rows) (newKey : Key32) (previous : Digest) (n : Nat) :
    ∃ rows',
      rekeyRows P newKey previous rows =
          .ok (rows', entryChain P newKey previous (decodedEntries rows)) ∧
        rows'.map AuditRow.unnumbered =
          (chainRows P newKey previous n (decodedEntries rows)).map AuditRow.unnumbered := by
  induction rows generalizing previous n with
  | nil =>
      exact ⟨[], rfl, rfl⟩
  | cons row rows ih =>
      obtain ⟨e, he⟩ := h.exists_readEntry List.mem_cons_self
      obtain ⟨-, p, hash, hrow⟩ := readEntry_eq_ok_iff.mp he
      obtain ⟨rest, hrest, hrows⟩ := ih h.of_cons (computeEntryHash P newKey previous e) (n + 1)
      rw [decodedEntries_cons he]
      refine ⟨_, by simp only [rekeyRows, he, hrest, bind, Except.bind]; rfl, ?_⟩
      rw [List.map_cons, hrows, chainRows, List.map_cons]
      -- the loop writes the two hashes, and the rest of the row is that of its entry
      congr 1
      rw [hrow]
      rfl

theorem readable_of_rekeyRows
    {newKey : Key32} {rows rows' : List AuditRow} {previous last : Digest}
    (h : rekeyRows P newKey previous rows = .ok (rows', last)) :
    Readable rows := by
  induction rows generalizing previous rows' with
  | nil =>
      intro row hrow
      cases hrow
  | cons row rows ih =>
      obtain ⟨entry, hentry, h⟩ := bind_eq_ok.mp h
      obtain ⟨⟨rest, last'⟩, hrest, h⟩ := bind_eq_ok.mp h
      intro r hr
      rcases List.mem_cons.mp hr with rfl | hr
      · obtain ⟨hseq, prev, hash, heq⟩ := readEntry_eq_ok_iff.mp hentry
        exact ⟨hseq, prev, hash, entry, heq⟩
      · cases h
        exact ih hrest r hr

theorem length_decodedEntries
    {rows : List AuditRow}
    (h : Readable rows) :
    (decodedEntries rows).length = rows.length := by
  have hlength := congrArg List.length (map_content_of_readable h)
  rwa [List.length_map, List.length_map, eq_comm] at hlength

/-- What the transaction of `rekey_chain` does to readable rows. -/
theorem rekeyTransaction_readable
    {log : AuditLog}
    (h : Readable log.rows) (newKey : Key32) :
    ∃ committed, rekeyTransaction P log newKey = .ok (committed, log.rows.length) ∧
      Rekeyed P newKey (decodedEntries log.rows) log committed := by
  obtain ⟨rows', hok, hrows⟩ := rekeyRows_readable (P := P) h newKey genesis 1
  unfold rekeyTransaction
  split
  · rename_i e herr
    rw [hok] at herr
    cases herr
  rename_i rows previous hrekeyed
  have hseqs := rekeyRows_seq hrekeyed
  rw [hok] at hrekeyed
  cases hrekeyed
  refine ⟨_, rfl, hrows, hseqs, rfl, ?_⟩
  have hlength := length_decodedEntries h
  dsimp only
  rw [honestAnchor, hlength]
  by_cases hempty : decodedEntries log.rows = []
  · rw [if_pos hempty, if_neg]
    rw [← hlength, hempty]
    exact Nat.lt_irrefl 0
  · rw [if_neg hempty, if_neg hempty, if_pos]
    rw [← hlength]
    exact List.length_pos_iff.mpr hempty

theorem readable_of_rekeyTransaction
    {log : AuditLog} {newKey : Key32} {out : AuditLog × Nat}
    (h : rekeyTransaction P log newKey = .ok out) :
    Readable log.rows := by
  unfold rekeyTransaction at h
  split at h
  · cases h
  · rename_i rows previous hok
    exact readable_of_rekeyRows hok

/-- When the interleaved call succeeds, and with what. -/
theorem rekeyInterleaved_ok_iff
    {oldKey newKey : Key32} {log committed final : AuditLog} {rekeyed : Nat}
    {edit₁ edit₂ edit₃ : AuditLog → AuditLog} :
    rekeyInterleaved P oldKey newKey log edit₁ edit₂ edit₃ =
        (.ok (committed, rekeyed), final) ↔
      (∃ es, Accepted P oldKey log edit₁ es) ∧
        rekeyTransaction P (edit₂ (edit₁ log)) newKey = .ok (committed, rekeyed) ∧
        final = edit₃ committed := by
  rw [← accepted_iff]
  unfold rekeyInterleaved
  dsimp only
  cases hverify : verifyReads P oldKey log.rows (edit₁ log).anchor with
  | error e =>
      simp
  | ok result =>
      cases result with
      | valid n tail =>
          cases htx : rekeyTransaction P (edit₂ (edit₁ log)) newKey with
          | error e => simp
          | ok out =>
              obtain ⟨committed', rekeyed'⟩ := out
              simp only [Prod.mk.injEq, Except.ok.injEq]
              constructor
              · rintro ⟨⟨rfl, rfl⟩, rfl⟩
                exact ⟨⟨n, tail, rfl⟩, ⟨rfl, rfl⟩, rfl⟩
              · rintro ⟨-, ⟨rfl, rfl⟩, rfl⟩
                exact ⟨⟨rfl, rfl⟩, rfl⟩
      | _ =>
          simp

theorem rekeyInterleaved_error
    {oldKey newKey : Key32} {log final : AuditLog}
    {edit₁ edit₂ edit₃ : AuditLog → AuditLog} {err : AuditError}
    (h : rekeyInterleaved P oldKey newKey log edit₁ edit₂ edit₃ = (.error err, final)) :
    final = edit₃ (edit₂ (edit₁ log)) := by
  unfold rekeyInterleaved at h
  dsimp only at h
  split at h
  · cases h
    rfl
  · split at h
    · cases h
    · cases h
      rfl
  · cases h
    rfl

/--
Re-keying launders exactly when the log verifies and the edits between the
verification's read of the rows and the transaction change the contents of the
rows to those of other entries.
-/
theorem rekeyInterleaved_faithful_iff
    (P : Primitives) (oldKey newKey : Key32) (log : AuditLog)
    (edit₁ edit₂ edit₃ : AuditLog → AuditLog) :
    RekeyFaithful P oldKey newKey log edit₁ edit₂ edit₃ ↔
      ∀ es, IntactRows P oldKey es log.rows →
        (edit₁ log).anchor = honestAnchor P oldKey es →
        Readable (edit₂ (edit₁ log)).rows →
        (edit₂ (edit₁ log)).rows.map AuditRow.content =
          log.rows.map AuditRow.content := by
  constructor
  · rintro ⟨hok, -⟩ es hintact hanchor hread
    obtain ⟨committed, htx, hcommitted⟩ := rekeyTransaction_readable (P := P) hread newKey
    obtain ⟨-, es', haccepted, -, hrekeyed⟩ :=
      hok _ _ _ (rekeyInterleaved_ok_iff.mpr ⟨⟨es, hintact, hanchor⟩, htx, rfl⟩)
    obtain ⟨hreadable, hdecoded⟩ := readable_chainRows hintact
    rw [map_content_eq_iff hread hreadable, hdecoded, hcommitted.unique hrekeyed]
    exact haccepted.unique ⟨hintact, hanchor⟩
  · intro hcontent
    refine ⟨?_, fun _ _ => rekeyInterleaved_error⟩
    intro committed rekeyed final hrun
    obtain ⟨⟨es, haccepted⟩, htx, hfinal⟩ := rekeyInterleaved_ok_iff.mp hrun
    have hread := readable_of_rekeyTransaction htx
    obtain ⟨hreadable, hdecoded⟩ := readable_chainRows haccepted.rows
    have hsame := hcontent es haccepted.rows haccepted.anchor hread
    rw [map_content_eq_iff hread hreadable, hdecoded] at hsame
    obtain ⟨committed', htx', hcommitted⟩ := rekeyTransaction_readable (P := P) hread newKey
    cases htx.symm.trans htx'
    refine ⟨hfinal, es, haccepted, ?_, hsame ▸ hcommitted⟩
    rw [← hsame, length_decodedEntries hread]

/-- `UPDATE audit SET action = 'read'`. -/
def rewriteActions (log : AuditLog) : AuditLog where
  rows := log.rows.map (fun row => { row with action := .str Action.read.text })
  sorted := by
    have h := log.sorted
    rw [List.pairwise_map]
    exact h
  sequence := log.sequence
  anchor := log.anchor

/-- An edit after the verification is re-keyed as if it had been verified. -/
theorem edit_laundered_by_rekey :
    ¬ ∀ (P : Primitives) (oldKey newKey : Key32) (log : AuditLog)
        (edit₁ edit₂ edit₃ : AuditLog → AuditLog),
        RekeyFaithful P oldKey newKey log edit₁ edit₂ edit₃ := by
  intro hclaim
  obtain ⟨hok, -⟩ :=
    hclaim samplePrimitives (sampleKey 1) (sampleKey 2) initLog id rewriteActions id
  have hdiffer :
      (rekeyInterleaved samplePrimitives (sampleKey 1) (sampleKey 2) initLog
          id rewriteActions id).1.toOption.map
          (fun out => (out.2, decide (out.1.rows.map AuditRow.unnumbered =
            (chainRows samplePrimitives (sampleKey 2) genesis 1
              [AuditEntry.new 10 .init .success]).map AuditRow.unnumbered))) =
        some (1, false) := by
    decide +kernel
  rcases hrun : rekeyInterleaved samplePrimitives (sampleKey 1) (sampleKey 2) initLog
    id rewriteActions id with ⟨err | ⟨committed, rekeyed⟩, final⟩
  · rw [hrun] at hdiffer
    cases hdiffer
  · obtain ⟨-, es, haccepted, -, hrekeyed⟩ := hok committed rekeyed final hrun
    have hes : es = [AuditEntry.new 10 .init .success] :=
      haccepted.unique ⟨⟨rfl, by decide⟩, rfl⟩
    rw [hrun] at hdiffer
    have hrows := hrekeyed.rows
    rw [hes] at hrows
    simp [Except.toOption, hrows] at hdiffer

end Interleaved

end Audit
end Secretbae
