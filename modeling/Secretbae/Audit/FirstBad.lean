import Secretbae.Audit.Forgery

/-!
# The first bad entry

`verify` walks the rows in order and stops at the first check that fails.  Over
rows the daemon wrote the walk keeps two things in step with the honest chain:
the sequence number it expects and the hash it expects to find as the next
`prev_hash` (`walk_chainRows_append`).  So when a tampered table agrees with
the honest one up to some row and not at it, the walk arrives at that row with
the honest expectations, and `walk_cons_of_valid` says which check turns it away.

What makes the last check fire is unforgeability: a row with the right number,
the right `prev_hash` and a hash that is its own MAC is an honest link, and the
only honest link with that `prev_hash` is the honest row's.
-/

namespace Secretbae
namespace Audit

open Lib Proto Core Daemon

section FirstBad

variable {P : Primitives} {key : Key32} {es : List AuditEntry}

/-- The walk passes over rows of a chain and expects the next one. -/
theorem walk_chainRows_append
    {ds : List AuditEntry} {rows : List AuditRow} {count n : Nat} {prev : Digest}
    (hfit : n + ds.length ≤ 2 ^ 63) :
    walk P key (chainRows P key prev n ds ++ rows) count n prev =
      walk P key rows (count + ds.length) (n + ds.length) (entryChain P key prev ds) := by
  induction ds generalizing count n prev with
  | nil =>
      rfl
  | cons d ds ih =>
      simp only [List.length_cons] at hfit
      have hlt : n < 2 ^ 63 := by omega
      have hseq : 0 ≤ (Int64.ofNat n).toInt := by
        rw [toInt_ofNat hlt]
        omega
      have hnext : seqNext n = n + 1 := by
        unfold seqNext
        omega
      have hstep :
          walk P key (chainRows P key prev n (d :: ds) ++ rows) count n prev =
            walk P key (chainRows P key (computeEntryHash P key prev d) (n + 1) ds ++ rows)
              (count + 1) (n + 1) (computeEntryHash P key prev d) := by
        simp [chainRows, walk, parseAndValidateRow_encodeRow hseq, toInt_ofNat hlt, hnext]
      have hcount : count + 1 + ds.length = count + (ds.length + 1) := by omega
      have hn : n + 1 + ds.length = n + (ds.length + 1) := by omega
      rw [hstep, ih (by omega), hcount, hn]
      rfl

/-- The checks of one iteration, in their order, on a row that decodes. -/
theorem walk_cons_of_valid
    (P : Primitives) (key : Key32) {row : AuditRow} {n seq : Nat}
    {prevHash entryHash : Digest} {entry : AuditEntry}
    (hparse :
      parseAndValidateRow row n = .ok (.valid seq prevHash entryHash entry))
    (rows : List AuditRow) (count : Nat) (prev : Digest) :
    (seq ≠ n →
      walk P key (row :: rows) count n prev = .ok (.stopped (.gap n seq))) ∧
    (seq = n → prevHash ≠ prev →
      walk P key (row :: rows) count n prev =
        .ok (.stopped (.brokenLink n prev prevHash))) ∧
    (seq = n → prevHash = prev → entryHash ≠ computeEntryHash P key prevHash entry →
      walk P key (row :: rows) count n prev =
        .ok (.stopped
          (.modified n entryHash (computeEntryHash P key prevHash entry)))) := by
  refine ⟨?_, ?_, ?_⟩
  · intro hseq
    simp [walk, hparse, hseq]
  · rintro rfl hprev
    simp [walk, hparse, hprev]
  · rintro rfl rfl hhash
    simp [walk, hparse, hhash]

/-- A table that agrees with a chain on its first `j` rows, cut there. -/
theorem rows_split
    {log : AuditLog} {j : Nat} {row : AuditRow}
    (hagree : log.rows.take j = (chainRows P key genesis 1 es).take j)
    (hrow : log.rows[j]? = some row) :
    j ≤ es.length ∧
      log.rows = chainRows P key genesis 1 (es.take j) ++ row :: log.rows.drop (j + 1) := by
  obtain ⟨hlt, hget⟩ := List.getElem?_eq_some_iff.mp hrow
  have hlen := congrArg List.length hagree
  simp only [List.length_take, chainRows_length] at hlen
  have hj : j ≤ es.length := by omega
  have hchain :
      (chainRows P key genesis 1 es).take j = chainRows P key genesis 1 (es.take j) := by
    conv_lhs => rw [← List.take_append_drop j es, chainRows_append]
    exact List.take_left' (by rw [chainRows_length, List.length_take, min_eq_left hj])
  refine ⟨hj, ?_⟩
  rw [← hchain, ← hagree, ← hget, ← List.drop_eq_getElem_cons hlt]
  exact (List.take_append_drop j log.rows).symm

/--
A row with the number, the `prev_hash` and the MAC that the walk expects is the
honest row itself.
-/
theorem eq_honest_row
    {log : AuditLog} {j seq : Nat} {row : AuditRow} {prevHash entryHash : Digest}
    {entry : AuditEntry}
    (hbuilt : ∀ e ∈ es, DaemonBuilt e)
    (hfree :
      MacCollisionFreeOn P key (honestMessages P key es ++ recomputedMessages log))
    (hgenesis : ∀ m ∈ honestMessages P key es, P.keyedHash key m ≠ genesis)
    (hadv : NoForgedMacs P key es log)
    (hj : j ≤ es.length)
    (hrow : row ∈ log.rows)
    (hparse : parseAndValidateRow row 0 = .ok (.valid seq prevHash entryHash entry))
    (hseq : seq = 1 + j)
    (hprev : prevHash = entryChain P key genesis (es.take j))
    (hhash : entryHash = computeEntryHash P key prevHash entry) :
    (chainRows P key genesis 1 es)[j]? = some row := by
  obtain ⟨hpos, hseqRow, hencode⟩ := parseAndValidateRow_eq_valid_iff.mp hparse
  have hmessage : rowMessage row = some (entryMessage prevHash entry) := by
    simp [rowMessage, hparse]
  have hstored : row.entryHash = (computeEntryHash P key prevHash entry).toList := by
    rw [hencode, ← hhash]
    rfl
  have hlink : (prevHash, entry) ∈ links (computeEntryHash P key) genesis es := by
    apply honest_link_of_checked hbuilt hfree hadv
    · exact List.mem_append_left _ (List.mem_filterMap.mpr ⟨row, hrow, hmessage⟩)
    · exact List.mem_append_left _ (List.mem_map.mpr ⟨row, hrow, hstored⟩)
  obtain ⟨i, hi, heq⟩ := (mem_links_iff _ _ _ _).mp hlink
  -- the position of the link in the honest chain is told by its previous hash
  have hpos' : j = i :=
    chainHash_take_inj _ (honest_links_inj hbuilt hfree) (honest_links_ne_genesis hgenesis)
      j i hj hi.le (hprev.symm.trans (congrArg Prod.fst heq))
  subst hpos'
  have hentry : es[j]? = some entry := by
    rw [List.getElem?_eq_getElem hi]
    exact congrArg some (congrArg Prod.snd heq).symm
  have hrowseq : row.seq = Int64.ofNat (1 + j) := by
    have hlt := row.seq.toInt_lt
    apply Int64.toInt_inj.mp
    rw [toInt_ofNat (by omega)]
    omega
  have htake :
      entryChain P key genesis (es.take (j + 1)) =
        computeEntryHash P key prevHash entry := by
    rw [List.take_add_one, hentry, Option.toList_some, entryChain_concat, hprev]
  rw [chainRows_getElem?, hentry, Option.map_some, htake, ← hprev, ← hhash, ← hrowseq,
    ← hencode]

/--
`verify` points at the first bad entry.  The table agrees with the honest one
on its first `j` rows; the row after them decodes and is not the honest one.
-/
theorem verify_first_bad
    {honest log : AuditLog} {j seq : Nat} {row : AuditRow} {prevHash entryHash : Digest}
    {entry : AuditEntry}
    (hbuilt : ∀ e ∈ es, DaemonBuilt e)
    (hhonest : appendAll P key AuditLog.empty es = .ok honest)
    (hfree :
      MacCollisionFreeOn P key (honestMessages P key es ++ recomputedMessages log))
    (hgenesis : ∀ m ∈ honestMessages P key es, P.keyedHash key m ≠ genesis)
    (hadv : NoForgedMacs P key es log)
    (hagree : log.rows.take j = honest.rows.take j)
    (hrow : log.rows[j]? = some row)
    (hdiffer : honest.rows[j]? ≠ some row)
    (hparse : parseAndValidateRow row 0 = .ok (.valid seq prevHash entryHash entry)) :
    ∃ result, verify P log key = .ok result ∧
      result.isValid = false ∧
      result.brokenSeq = some (j + 1) ∧
      (seq ≠ j + 1 → result = .gap (j + 1) seq) ∧
      (seq = j + 1 → prevHash ≠ entryChain P key genesis (es.take j) →
        result = .brokenLink (j + 1) (entryChain P key genesis (es.take j)) prevHash) ∧
      (seq = j + 1 → prevHash = entryChain P key genesis (es.take j) →
        result = .modified (j + 1) entryHash (computeEntryHash P key prevHash entry)) := by
  have hrec : honest.Records P key es := by
    simpa using (appendAll_chain AuditLog.records_empty rfl hhonest).1
  rw [hrec.rows] at hagree hdiffer
  obtain ⟨hj, hsplit⟩ := rows_split hagree hrow
  have hfits := hrec.fits
  have hlen : (es.take j).length = j := by
    rw [List.length_take, min_eq_left hj]
  have hwalk :
      walkFromGenesis P key log.rows =
        walk P key (row :: log.rows.drop (j + 1)) j (j + 1)
          (entryChain P key genesis (es.take j)) := by
    conv_lhs => rw [walkFromGenesis, hsplit, walk_chainRows_append (by rw [hlen]; omega)]
    rw [hlen, Nat.zero_add, Nat.add_comm 1 j]
  have hstop :
      ∀ result, walkFromGenesis P key log.rows = .ok (.stopped result) →
        verify P log key = .ok result := by
    intro result h
    simp [verify, verifyReads, h, bind, Except.bind]
  have hparse' :
      parseAndValidateRow row (j + 1) = .ok (.valid seq prevHash entryHash entry) :=
    parseAndValidateRow_eq_valid_iff.mpr (parseAndValidateRow_eq_valid_iff.mp hparse)
  obtain ⟨hgap, hbroken, hmodified⟩ :=
    walk_cons_of_valid P key hparse' (log.rows.drop (j + 1)) j
      (entryChain P key genesis (es.take j))
  by_cases hseq : seq = j + 1
  · by_cases hprev : prevHash = entryChain P key genesis (es.take j)
    · have hhash : entryHash ≠ computeEntryHash P key prevHash entry := by
        intro hhash
        exact hdiffer (eq_honest_row hbuilt hfree hgenesis hadv hj (List.mem_of_getElem? hrow)
          hparse (by omega) hprev hhash)
      refine ⟨_, hstop _ (hwalk.trans (hmodified hseq hprev hhash)), rfl, rfl, ?_, ?_, ?_⟩
      · exact fun h => absurd hseq h
      · exact fun _ h => absurd hprev h
      · exact fun _ _ => rfl
    · refine ⟨_, hstop _ (hwalk.trans (hbroken hseq hprev)), rfl, rfl, ?_, ?_, ?_⟩
      · exact fun h => absurd hseq h
      · exact fun _ _ => rfl
      · exact fun _ h => absurd h hprev
  · refine ⟨_, hstop _ (hwalk.trans (hgap hseq)), rfl, rfl, ?_, ?_, ?_⟩
    · exact fun _ => rfl
    · exact fun h => absurd h hseq
    · exact fun h => absurd h hseq

/-- The row of an unsealing at time 20, given a later time. -/
def redatedRow : AuditRow :=
  { encodeRow 2 (entryChain samplePrimitives (sampleKey 1) genesis [initEntry 10])
      (entryChain samplePrimitives (sampleKey 1) genesis
        [initEntry 10, unsealEntry 20 0]) (unsealEntry 20 0) with
    ts := 21 }

def redatedLog : AuditLog where
  rows := chainRows samplePrimitives (sampleKey 1) genesis 1 [initEntry 10] ++ [redatedRow]
  sorted := by decide
  sequence := 2
  anchor :=
    honestAnchor samplePrimitives (sampleKey 1) [initEntry 10, unsealEntry 20 0]

/-- The changed time is reported as a modification of the second entry. -/
theorem verify_first_bad_redatedLog :
    ∃ result, verify samplePrimitives redatedLog (sampleKey 1) = .ok result ∧
      result.isValid = false ∧ result.brokenSeq = some 2 := by
  obtain ⟨honest, hhonest⟩ := exists_firstTwo
  have hfree :
      MacCollisionFreeOn samplePrimitives (sampleKey 1)
        (honestMessages samplePrimitives (sampleKey 1)
          [initEntry 10, unsealEntry 20 0] ++ recomputedMessages redatedLog) := by
    unfold MacCollisionFreeOn
    decide +kernel
  have hadv :
      NoForgedMacs samplePrimitives (sampleKey 1)
        [initEntry 10, unsealEntry 20 0] redatedLog := by
    unfold NoForgedMacs
    decide +kernel
  have hrec : honest.Records samplePrimitives (sampleKey 1)
      [initEntry 10, unsealEntry 20 0] := by
    simpa using (appendAll_chain AuditLog.records_empty rfl hhonest).1
  have hagree : redatedLog.rows.take 1 = honest.rows.take 1 := by
    rw [hrec.rows]
    decide +kernel
  have hdiffer : honest.rows[1]? ≠ some redatedRow := by
    rw [hrec.rows]
    decide +kernel
  obtain ⟨result, hverify, hinvalid, hseq, -⟩ :=
    verify_first_bad firstTwo_built hhonest hfree firstTwo_ne_genesis hadv hagree rfl
      hdiffer rfl
  exact ⟨result, hverify, hinvalid, hseq⟩

end FirstBad

end Audit
end Secretbae
