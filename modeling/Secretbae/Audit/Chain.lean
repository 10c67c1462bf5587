import Secretbae.Audit.Log

/-!
# What verification accepts

`chainRows` is the table that honest appends under one key would have left,
and `AuditLog.Records` says of a log that its table and its anchor are exactly
those of a list of entries.  The module proves one specification for each
operation of the log in these terms:

* `verify_eq_valid_iff`: `verify` answers `Valid` exactly on such logs;
* `append_eq_ok_iff`: what a successful append changes;
* `rekeyTransaction_records`: re-keying such a log gives the log of the same
  entries under the new key.

None of them assumes anything of the MAC.
-/

namespace Secretbae
namespace Audit

open Lib Proto Core

section Chain

variable (P : Primitives) (key : Key32)

/-- Hash of the last of the entries `es`, chained from `h`. -/
abbrev entryChain (h : Digest) (es : List AuditEntry) : Digest :=
  chainHash (computeEntryHash P key) h es

/-- The rows of the entries `es`, numbered from `n` and chained from `prev`. -/
def chainRows : Digest → Nat → List AuditEntry → List AuditRow
  | _, _, [] => []
  | prev, n, e :: es =>
      encodeRow (Int64.ofNat n) prev (computeEntryHash P key prev e) e ::
        chainRows (computeEntryHash P key prev e) (n + 1) es

/-- The anchor row after the entries `es`; an empty chain has none. -/
def honestAnchor (es : List AuditEntry) : Option Bytes :=
  if es = [] then none
  else some (Anchor.encode P key ⟨es.length, entryChain P key genesis es⟩)

/-- The `tail_hash` that goes with the entries `es`. -/
def tailHash (es : List AuditEntry) : Option Digest :=
  if es = [] then none else some (entryChain P key genesis es)

/-- The log holds exactly the entries `es` and their anchor. -/
structure AuditLog.Records (es : List AuditEntry) (log : AuditLog) : Prop where
  rows : log.rows = chainRows P key genesis 1 es
  anchor : log.anchor = honestAnchor P key es
  fits : es.length < 2 ^ 63

end Chain

section Rows

variable {P : Primitives} {key : Key32}

theorem entryChain_concat
    (h : Digest) (es : List AuditEntry) (e : AuditEntry) :
    entryChain P key h (es ++ [e]) =
      computeEntryHash P key (entryChain P key h es) e :=
  chainHash_concat _ h es e

@[simp] theorem chainRows_length
    (prev : Digest) (n : Nat) (es : List AuditEntry) :
    (chainRows P key prev n es).length = es.length := by
  induction es generalizing prev n with
  | nil =>
      rfl
  | cons e es ih =>
      simp [chainRows, ih]

theorem chainRows_append
    (prev : Digest) (n : Nat) (es fs : List AuditEntry) :
    chainRows P key prev n (es ++ fs) =
      chainRows P key prev n es ++
        chainRows P key (entryChain P key prev es) (n + es.length) fs := by
  induction es generalizing prev n with
  | nil =>
      simp [chainRows]
  | cons e es ih =>
      simp [chainRows, ih, Nat.add_right_comm, Nat.add_assoc]

theorem chainRows_concat
    (prev : Digest) (n : Nat) (es : List AuditEntry) (e : AuditEntry) :
    chainRows P key prev n (es ++ [e]) =
      chainRows P key prev n es ++
        [encodeRow (Int64.ofNat (n + es.length)) (entryChain P key prev es)
          (entryChain P key prev (es ++ [e])) e] := by
  simp [chainRows_append, chainRows]

theorem chainRows_eq_nil_iff
    {prev : Digest} {n : Nat} {es : List AuditEntry} :
    chainRows P key prev n es = [] ↔ es = [] := by
  rw [← List.length_eq_zero_iff, chainRows_length, List.length_eq_zero_iff]

/-- The sequence numbers of the chain are consecutive. -/
theorem chainRows_seq
    (prev : Digest) (n : Nat) (es : List AuditEntry) :
    (chainRows P key prev n es).map (·.seq) =
      (List.range' n es.length).map Int64.ofNat := by
  induction es generalizing prev n with
  | nil =>
      rfl
  | cons e es ih =>
      simp [chainRows, encodeRow, ih, List.range'_succ]

/-- The row at position `i` of the chain. -/
theorem chainRows_getElem?
    (prev : Digest) (n : Nat) (es : List AuditEntry) (i : Nat) :
    (chainRows P key prev n es)[i]? =
      es[i]?.map (fun e =>
        encodeRow (Int64.ofNat (n + i)) (entryChain P key prev (es.take i))
          (entryChain P key prev (es.take (i + 1))) e) := by
  induction es generalizing prev n i with
  | nil =>
      simp [chainRows]
  | cons e es ih =>
      cases i with
      | zero =>
          simp [chainRows]
      | succ i =>
          have hn : n + 1 + i = n + (i + 1) := by omega
          simp only [chainRows, List.getElem?_cons_succ, List.take_succ_cons,
            chainHash_cons, ih, hn]

theorem toInt_ofNat
    {n : Nat}
    (hn : n < 2 ^ 63) :
    (Int64.ofNat n).toInt = n :=
  Int64.toInt_ofNat_of_lt hn

/-- Rows written for different entries differ. -/
theorem encodeRow_inj
    {m n : Int64} {p q h k : Digest} {d e : AuditEntry}
    (heq : encodeRow m p h d = encodeRow n q k e) :
    d = e := by
  -- renumber both rows to read them back through the parser
  have hzero : encodeRow 0 p h d = encodeRow 0 q k e := by
    simp only [encodeRow, AuditRow.mk.injEq] at heq ⊢
    exact ⟨trivial, heq.2⟩
  have hseq : 0 ≤ (0 : Int64).toInt := by
    decide
  have hd := parseAndValidateRow_encodeRow hseq p h d 0
  have he := parseAndValidateRow_encodeRow hseq q k e 0
  rw [hzero, he] at hd
  cases hd
  rfl

/-- A chain's table determines its entries. -/
theorem chainRows_inj
    {key' : Key32} {p q : Digest} {m n : Nat} {ds es : List AuditEntry}
    (h : chainRows P key p m ds = chainRows P key' q n es) :
    ds = es := by
  induction ds generalizing p q m n es with
  | nil =>
      exact (chainRows_eq_nil_iff.mp h.symm).symm
  | cons d ds ih =>
      cases es with
      | nil =>
          cases h
      | cons e es =>
          simp only [chainRows, List.cons.injEq] at h
          rw [encodeRow_inj h.1, ih h.2]

end Rows

section AnchorSpec

variable {P : Primitives} {key : Key32}

theorem Anchor.encode_length
    (a : Anchor) :
    (a.encode P key).length = 72 := by
  simp [Anchor.encode]

/-- The MAC stands at the end of the encoding. -/
theorem Anchor.drop_encode
    (a : Anchor) :
    (a.encode P key).drop 40 = (a.mac P key).toList := by
  rw [Anchor.encode, ← List.append_assoc]
  exact List.drop_left' (by simp)

/-- Only an anchor's own encoding decodes to it. -/
theorem Anchor.decode_eq_some_iff
    {bs : Bytes} {a : Anchor} :
    Anchor.decode P key bs = some a ↔
      bs = a.encode P key ∧ a.entries < 2 ^ 64 := by
  constructor
  · intro h
    unfold Anchor.decode at h
    split at h
    · cases h
    rename_i hlen
    have hlen : bs.length = 72 := by simpa [anchorEncodedLen] using hlen
    split at h
    · cases h
    rename_i tail htail
    dsimp only at h
    split at h
    · rename_i hmac
      cases h
      have htake : (bs.take 8).length = 8 := by simp [hlen]
      have hle := leBytes_ofLe (bs.take 8)
      have hlt := ofLe_lt (bs.take 8)
      rw [htake] at hle hlt
      refine ⟨?_, hlt⟩
      rw [Anchor.encode, hle, ← fixed?_eq_some_iff.mp htail, hmac]
      have hsplit : bs.drop 40 = (bs.drop 8).drop 32 := by simp
      rw [hsplit, List.take_append_drop, List.take_append_drop]
    · cases h
  · rintro ⟨rfl, hlt⟩
    have hof : ofLe (leBytes 8 a.entries) = a.entries := ofLe_leBytes hlt
    have hdrop : (leBytes 8 a.entries).length = 8 := leBytes_length 8 _
    have htake8 : (a.encode P key).take 8 = leBytes 8 a.entries :=
      List.take_left' hdrop
    have hdrop8 :
        (a.encode P key).drop 8 = a.tailHash.toList ++ (a.mac P key).toList :=
      List.drop_left' hdrop
    have htail : ((a.encode P key).drop 8).take 32 = a.tailHash.toList := by
      rw [hdrop8]
      exact List.take_left' (by simp)
    unfold Anchor.decode
    rw [if_neg (by simp [anchorEncodedLen, Anchor.encode_length])]
    simp [htail, Anchor.drop_encode, htake8, hof]

theorem Anchor.encode_inj
    {a b : Anchor}
    (ha : a.entries < 2 ^ 64)
    (hb : b.entries < 2 ^ 64)
    (h : a.encode P key = b.encode P key) :
    a = b := by
  have hda := Anchor.decode_eq_some_iff.mpr ⟨h, hb⟩
  have hdb : Anchor.decode P key (a.encode P key) = some a :=
    Anchor.decode_eq_some_iff.mpr ⟨rfl, ha⟩
  rw [hda] at hdb
  exact (Option.some.inj hdb).symm

/-- The anchor of a chain tells how many entries it has. -/
theorem honestAnchor_inj
    {ds es : List AuditEntry}
    (hds : ds.length < 2 ^ 63)
    (hes : es.length < 2 ^ 63)
    (h : honestAnchor P key ds = honestAnchor P key es) :
    ds.length = es.length ∧ tailHash P key ds = tailHash P key es := by
  unfold honestAnchor at h
  unfold tailHash
  split at h <;> split at h
  · simp_all
  · cases h
  · cases h
  · have henc := Option.some.inj h
    have heq := Anchor.encode_inj (by simp; omega) (by simp; omega) henc
    simp_all

end AnchorSpec

section Verify

variable {P : Primitives} {key : Key32}

/-- One iteration of the loop of `verify` that goes on. -/
theorem walk_cons_eq_completed_iff
    {row : AuditRow} {rows : List AuditRow} {count n m : Nat}
    {prev last : Digest}
    (hn : n ≤ 2 ^ 63) :
    walk P key (row :: rows) count n prev = .ok (.completed m last) ↔
      ∃ e, n < 2 ^ 63 ∧
        row = encodeRow (Int64.ofNat n) prev (computeEntryHash P key prev e) e ∧
        walk P key rows (count + 1) (n + 1) (computeEntryHash P key prev e) =
          .ok (.completed m last) := by
  constructor
  · intro h
    unfold walk at h
    split at h
    · cases h
    · cases h
    rename_i seq p hash e hparse
    obtain ⟨hseq, hseqn, hrow⟩ := parseAndValidateRow_eq_valid_iff.mp hparse
    split at h
    · cases h
    rename_i hsn
    have hsn : seq = n := not_not.mp hsn
    split at h
    · cases h
    rename_i hp
    have hp : p = prev := not_not.mp hp
    dsimp only at h
    split at h
    · cases h
    rename_i hhash
    have hhash : hash = computeEntryHash P key p e := not_not.mp hhash
    have hlt := row.seq.toInt_lt
    have hn63 : n < 2 ^ 63 := by omega
    have hnext : seqNext seq = n + 1 := by
      unfold seqNext
      omega
    have hrowseq : row.seq = Int64.ofNat n := by
      apply Int64.toInt_inj.mp
      rw [toInt_ofNat hn63]
      omega
    rw [hnext] at h
    rw [hrowseq] at hrow
    subst hp hhash
    exact ⟨e, hn63, hrow, h⟩
  · rintro ⟨e, hlt, rfl, h⟩
    have hseq : (0 : Int) ≤ (Int64.ofNat n).toInt := by
      rw [toInt_ofNat hlt]
      omega
    have hnext : seqNext n = n + 1 := by
      unfold seqNext
      omega
    simp [walk, parseAndValidateRow_encodeRow hseq, toInt_ofNat hlt, hnext, h]

/-- The loop of `verify` runs to the end exactly on the rows of a chain. -/
theorem walk_eq_completed_iff
    {rows : List AuditRow} {count n m : Nat} {prev last : Digest}
    (hn : n ≤ 2 ^ 63) :
    walk P key rows count n prev = .ok (.completed m last) ↔
      ∃ es, rows = chainRows P key prev n es ∧ n + es.length ≤ 2 ^ 63 ∧
        m = count + es.length ∧ last = entryChain P key prev es := by
  induction rows generalizing count n prev with
  | nil =>
      simp only [walk, Except.ok.injEq, WalkOutcome.completed.injEq]
      constructor
      · rintro ⟨rfl, rfl⟩
        exact ⟨[], rfl, by simpa using hn, rfl, rfl⟩
      · rintro ⟨es, hes, -, rfl, rfl⟩
        obtain rfl := chainRows_eq_nil_iff.mp hes.symm
        exact ⟨rfl, rfl⟩
  | cons row rows ih =>
      rw [walk_cons_eq_completed_iff hn]
      constructor
      · rintro ⟨e, hlt, rfl, h⟩
        obtain ⟨es, rfl, hfit, rfl, rfl⟩ := (ih (by omega)).mp h
        exact ⟨e :: es, rfl, by simp; omega, by simp; omega, rfl⟩
      · rintro ⟨es, hes, hfit, rfl, rfl⟩
        cases es with
        | nil =>
            cases hes
        | cons e es =>
            simp only [List.length_cons] at hfit
            simp only [chainRows, List.cons.injEq] at hes
            refine ⟨e, by omega, hes.1, (ih (by omega)).mpr ?_⟩
            exact ⟨es, hes.2, by omega, by simp; omega, rfl⟩

theorem walkFromGenesis_eq_completed_iff
    {rows : List AuditRow} {m : Nat} {last : Digest} :
    walkFromGenesis P key rows = .ok (.completed m last) ↔
      ∃ es, rows = chainRows P key genesis 1 es ∧ es.length < 2 ^ 63 ∧
        m = es.length ∧ last = entryChain P key genesis es := by
  unfold walkFromGenesis
  rw [walk_eq_completed_iff (by norm_num)]
  simp only [Nat.zero_add, Nat.add_comm 1, Nat.succ_le_iff]

/-- When the loop of `verify` stops, it blames a sequence number. -/
theorem walk_stopped_brokenSeq
    {rows : List AuditRow} {count n : Nat} {prev : Digest}
    {result : VerificationResult}
    (h : walk P key rows count n prev = .ok (.stopped result)) :
    result.brokenSeq ≠ none := by
  fun_induction walk P key rows count n prev <;> simp_all
  all_goals
    cases h
    simp [VerificationResult.brokenSeq]

theorem Anchor.load_eq_some_iff
    {stored : Option Bytes} {a : Anchor} :
    Anchor.load P key stored = .ok (some a) ↔
      stored = some (a.encode P key) ∧ a.entries < 2 ^ 64 := by
  cases stored with
  | none =>
      simp [Anchor.load]
  | some bs =>
      rw [Option.some.injEq, ← Anchor.decode_eq_some_iff]
      cases h : Anchor.decode P key bs <;> simp [Anchor.load, h]

theorem Anchor.load_eq_none_iff
    {stored : Option Bytes} :
    Anchor.load P key stored = .ok none ↔ stored = none := by
  cases stored with
  | none =>
      simp [Anchor.load]
  | some bs =>
      cases h : Anchor.decode P key bs <;> simp [Anchor.load, h]

/-- After a completed walk only the honest anchor is accepted. -/
theorem checkAnchor_eq_valid_iff
    {stored : Option Bytes} {es : List AuditEntry} {n : Nat} {tail : Option Digest}
    (hfit : es.length < 2 ^ 63) :
    checkAnchor P key stored es.length (entryChain P key genesis es) =
        .ok (.valid n tail) ↔
      stored = honestAnchor P key es ∧ n = es.length ∧ tail = tailHash P key es := by
  have htail :
      (if es.length > 0 then some (entryChain P key genesis es) else none) =
        tailHash P key es := by
    cases es <;> simp [tailHash]
  unfold checkAnchor
  rw [htail, bind_eq_ok]
  constructor
  · rintro ⟨a, hload, h⟩
    cases a with
    | none =>
        obtain rfl := Anchor.load_eq_none_iff.mp hload
        dsimp only at h
        split at h
        · rename_i hz
          obtain rfl := List.length_eq_zero_iff.mp hz
          cases h
          exact ⟨rfl, rfl, rfl⟩
        · cases h
    | some a =>
        obtain ⟨rfl, -⟩ := Anchor.load_eq_some_iff.mp hload
        dsimp only at h
        split at h
        · cases h
        split at h
        · cases h
        rename_i hne
        push Not at hne
        cases h
        have hes : es ≠ [] := by
          rintro rfl
          simp [tailHash] at hne
        refine ⟨?_, rfl, rfl⟩
        have hlast : a.tailHash = entryChain P key genesis es := by
          simpa [tailHash, hes] using hne.2
        rw [honestAnchor, if_neg hes, ← hlast, ← hne.1]
  · rintro ⟨rfl, rfl, rfl⟩
    by_cases hes : es = []
    · subst hes
      exact ⟨none, rfl, rfl⟩
    · refine ⟨some ⟨es.length, entryChain P key genesis es⟩, ?_, ?_⟩
      · rw [Anchor.load_eq_some_iff, honestAnchor, if_neg hes]
        exact ⟨rfl, by simp; omega⟩
      · simp [tailHash, hes]

/-- Two separate reads verify exactly when both show the log of one chain. -/
theorem verifyReads_eq_valid_iff
    {rows : List AuditRow} {stored : Option Bytes} {n : Nat} {tail : Option Digest} :
    verifyReads P key rows stored = .ok (.valid n tail) ↔
      ∃ es, rows = chainRows P key genesis 1 es ∧ es.length < 2 ^ 63 ∧
        stored = honestAnchor P key es ∧ n = es.length ∧ tail = tailHash P key es := by
  unfold verifyReads
  rw [bind_eq_ok]
  constructor
  · rintro ⟨outcome, hwalk, h⟩
    cases outcome with
    | stopped result =>
        cases h
        exact absurd rfl (walk_stopped_brokenSeq hwalk)
    | completed count last =>
        obtain ⟨es, rfl, hfit, rfl, rfl⟩ := walkFromGenesis_eq_completed_iff.mp hwalk
        exact ⟨es, rfl, hfit, (checkAnchor_eq_valid_iff hfit).mp h⟩
  · rintro ⟨es, hrows, hfit, h⟩
    refine ⟨.completed es.length (entryChain P key genesis es), ?_, ?_⟩
    · exact walkFromGenesis_eq_completed_iff.mpr ⟨es, hrows, hfit, rfl, rfl⟩
    · exact (checkAnchor_eq_valid_iff hfit).mpr h

/-- `verify` accepts exactly the logs that record a list of entries. -/
theorem verify_eq_valid_iff
    {log : AuditLog} {n : Nat} {tail : Option Digest} :
    verify P log key = .ok (.valid n tail) ↔
      ∃ es, log.Records P key es ∧ n = es.length ∧ tail = tailHash P key es := by
  unfold verify
  rw [verifyReads_eq_valid_iff]
  constructor
  · rintro ⟨es, hrows, hfit, hanchor, h⟩
    exact ⟨es, ⟨hrows, hanchor, hfit⟩, h⟩
  · rintro ⟨es, ⟨hrows, hanchor, hfit⟩, h⟩
    exact ⟨es, hrows, hfit, hanchor, h⟩

/-- A log records at most one list of entries. -/
theorem AuditLog.Records.unique
    {log : AuditLog} {es fs : List AuditEntry}
    (hes : log.Records P key es)
    (hfs : log.Records P key fs) :
    es = fs :=
  chainRows_inj (hes.rows.symm.trans hfs.rows)

/-- `verify` answers `Valid`. -/
def AuditLog.Verifies (P : Primitives) (key : Key32) (log : AuditLog) : Prop :=
  ∃ n tail, verify P log key = .ok (.valid n tail)

theorem AuditLog.verifies_iff
    {log : AuditLog} :
    log.Verifies P key ↔ ∃ es, log.Records P key es := by
  unfold AuditLog.Verifies
  constructor
  · rintro ⟨n, tail, h⟩
    obtain ⟨es, hes, -⟩ := verify_eq_valid_iff.mp h
    exact ⟨es, hes⟩
  · rintro ⟨es, hes⟩
    exact ⟨_, _, verify_eq_valid_iff.mpr ⟨es, hes, rfl, rfl⟩⟩

end Verify

section Append

variable {P : Primitives} {key : Key32}

/-- Everything a successful append does. -/
theorem append_eq_ok
    {log log' : AuditLog} {entry : AuditEntry} {record : AuditRecord}
    (h : append P log key entry = .ok (log', record)) :
    ∃ (prev : Digest) (id : Int64),
      log.tail = .ok prev ∧
      id.toInt = max log.largestSeq log.sequence.toInt + 1 ∧
      0 ≤ id.toInt ∧
      log'.rows =
        log.rows ++ [encodeRow id prev (computeEntryHash P key prev entry) entry] ∧
      log'.sequence = id ∧
      log'.anchor =
        some (Anchor.encode P key
          ⟨log.rows.length + 1, computeEntryHash P key prev entry⟩) := by
  obtain ⟨prev, hprev, h⟩ := bind_eq_ok.mp h
  obtain ⟨⟨id, hid⟩, hnext, h⟩ := bind_eq_ok.mp h
  dsimp only at h
  split at h
  · cases h
  rename_i hneg
  cases h
  refine ⟨prev, id, hprev, ?_, not_lt.mp hneg, rfl, rfl, rfl⟩
  unfold AuditLog.nextRowid at hnext
  split at hnext
  · cases hnext
  rename_i hfull
  cases hnext
  have hseq := log.sequence.toInt_lt
  have hseq' := log.sequence.le_toInt
  have hlarge := log.largestSeq_lt
  rw [Int64.toInt_ofInt_of_le (by omega) (by omega)]

/-- An append fails only for a bad tail or an exhausted counter. -/
theorem append_isOk
    {log : AuditLog} {prev : Digest}
    (htail : log.tail = .ok prev)
    (hlarge : log.largestSeq < 2 ^ 63 - 1)
    (hseq : log.sequence.toInt < 2 ^ 63 - 1)
    (hpos : 0 ≤ max log.largestSeq log.sequence.toInt + 1)
    (entry : AuditEntry) :
    ∃ log' record, append P log key entry = .ok (log', record) := by
  have hseq' := log.sequence.le_toInt
  have hid :
      (Int64.ofInt (max log.largestSeq log.sequence.toInt + 1)).toInt =
        max log.largestSeq log.sequence.toInt + 1 :=
    Int64.toInt_ofInt_of_le (by omega) (by omega)
  have hfull :
      ¬ (log.largestSeq = 2 ^ 63 - 1 ∨ log.sequence.toInt = 2 ^ 63 - 1) := by
    omega
  cases h : append P log key entry with
  | ok out =>
      exact ⟨out.1, out.2, rfl⟩
  | error e =>
      simp only [append, htail, AuditLog.nextRowid, dif_neg hfull, bind,
        Except.bind, hid, if_neg (not_lt.mpr hpos)] at h
      cases h

/-- The log can take an entry: its tail is readable and its counter not exhausted. -/
structure AuditLog.Appendable (log : AuditLog) : Prop where
  tail : ∃ prev, log.tail = .ok prev
  largest : log.largestSeq < 2 ^ 63 - 1
  counter : log.sequence.toInt < 2 ^ 63 - 1
  nonneg : 0 ≤ max log.largestSeq log.sequence.toInt + 1

/-- Whether an append succeeds depends on the log alone. -/
theorem append_isOk_iff
    {log : AuditLog} {entry : AuditEntry} :
    (∃ log' record, append P log key entry = .ok (log', record)) ↔ log.Appendable := by
  constructor
  · rintro ⟨log', record, h⟩
    obtain ⟨prev, id, htail, hid, hpos, -⟩ := append_eq_ok h
    have hlt := id.toInt_lt
    exact ⟨⟨prev, htail⟩, by omega, by omega, by omega⟩
  · rintro ⟨⟨prev, htail⟩, hlarge, hseq, hpos⟩
    exact append_isOk htail hlarge hseq hpos entry

/-- The log can take `n` entries one after another. -/
structure AuditLog.Room (log : AuditLog) (n : Nat) : Prop where
  tail : ∃ prev, log.tail = .ok prev
  bound : max log.largestSeq log.sequence.toInt + n < 2 ^ 63
  nonneg : 0 ≤ max log.largestSeq log.sequence.toInt + 1

theorem AuditLog.Room.appendable
    {log : AuditLog} {n : Nat}
    (h : log.Room (n + 1)) :
    log.Appendable := by
  obtain ⟨htail, hbound, hnonneg⟩ := h
  push_cast at hbound
  exact ⟨htail, by omega, by omega, hnonneg⟩

/-- An append takes one place. -/
theorem AuditLog.Room.append
    {log log' : AuditLog} {n : Nat} {entry : AuditEntry} {record : AuditRecord}
    (h : log.Room (n + 1))
    (happend : Audit.append P log key entry = .ok (log', record)) :
    log'.Room n := by
  obtain ⟨prev, id, -, hid, hpos, hrows, hseq, -⟩ := append_eq_ok happend
  have hbound := h.bound
  push_cast at hbound
  have hlast : log'.largestSeq = id.toInt := by
    unfold AuditLog.largestSeq
    rw [hrows, List.getLast?_concat]
    rfl
  refine ⟨⟨computeEntryHash P key prev entry, ?_⟩, ?_, ?_⟩
  · unfold AuditLog.tail
    rw [hrows, List.getLast?_concat]
    simp [encodeRow, entryHashOfSlice]
  · rw [hlast, hseq, max_self]
    omega
  · rw [hlast, hseq, max_self]
    omega

/-- Appends one after another, stopping at the first failure. -/
def appendAll (P : Primitives) (key : Key32) :
    AuditLog → List AuditEntry → Except AuditError AuditLog
  | log, [] => .ok log
  | log, entry :: entries => do
      let (log', _) ← append P log key entry
      appendAll P key log' entries

theorem appendAll_cons_eq_ok
    {log log' : AuditLog} {entry : AuditEntry} {entries : List AuditEntry}
    (h : appendAll P key log (entry :: entries) = .ok log') :
    ∃ mid record, append P log key entry = .ok (mid, record) ∧
      appendAll P key mid entries = .ok log' := by
  obtain ⟨⟨mid, record⟩, happend, h⟩ := bind_eq_ok.mp h
  exact ⟨mid, record, happend, h⟩

/-- The last row of a chain carries its length and its last hash. -/
theorem chainRows_getLast?
    (es : List AuditEntry) (e : AuditEntry) :
    (chainRows P key genesis 1 (es ++ [e])).getLast? =
      some (encodeRow (Int64.ofNat (es.length + 1)) (entryChain P key genesis es)
        (entryChain P key genesis (es ++ [e])) e) := by
  rw [chainRows_concat, List.getLast?_concat, Nat.add_comm 1]

theorem AuditLog.largestSeq_of_chain
    {log : AuditLog} {es : List AuditEntry}
    (hrows : log.rows = chainRows P key genesis 1 es)
    (hfit : es.length < 2 ^ 63) :
    log.largestSeq = es.length := by
  unfold AuditLog.largestSeq
  rw [hrows]
  rcases List.eq_nil_or_concat es with rfl | ⟨init, e, rfl⟩
  · rfl
  · rw [List.concat_eq_append] at hfit ⊢
    rw [chainRows_getLast?]
    simp only [List.length_append, List.length_singleton] at hfit ⊢
    exact toInt_ofNat hfit

theorem AuditLog.tail_of_chain
    {log : AuditLog} {es : List AuditEntry}
    (hrows : log.rows = chainRows P key genesis 1 es) :
    log.tail = .ok (entryChain P key genesis es) := by
  unfold AuditLog.tail
  rw [hrows]
  rcases List.eq_nil_or_concat es with rfl | ⟨init, e, rfl⟩
  · rfl
  · rw [List.concat_eq_append, chainRows_getLast?]
    simp [encodeRow, entryHashOfSlice]

/-- The rows are those of a chain, whatever the anchor and the counter say. -/
def IntactRows (P : Primitives) (key : Key32) (es : List AuditEntry)
    (rows : List AuditRow) : Prop :=
  rows = chainRows P key genesis 1 es ∧ es.length < 2 ^ 63

/-- An append onto a chain the counter has not run past extends the chain. -/
theorem append_chain
    {log log' : AuditLog} {es : List AuditEntry} {entry : AuditEntry}
    {record : AuditRecord}
    (h : append P log key entry = .ok (log', record))
    (hrows : IntactRows P key es log.rows)
    (hseq : log.sequence.toInt ≤ es.length) :
    log'.Records P key (es ++ [entry]) ∧
      log'.sequence.toInt = (es ++ [entry]).length := by
  obtain ⟨hrows, hfit⟩ := hrows
  obtain ⟨prev, id, htail, hid, -, hrows', hseq', hanchor'⟩ := append_eq_ok h
  rw [AuditLog.tail_of_chain hrows] at htail
  cases htail
  rw [AuditLog.largestSeq_of_chain hrows hfit, max_eq_left hseq] at hid
  have hlt := id.toInt_lt
  have hidn : id = Int64.ofNat (1 + es.length) := by
    apply Int64.toInt_inj.mp
    rw [toInt_ofNat (by omega), hid]
    push_cast
    omega
  refine ⟨⟨?_, ?_, ?_⟩, ?_⟩
  · rw [hrows', hrows, chainRows_concat, hidn, entryChain_concat]
  · rw [hanchor', hrows, honestAnchor, if_neg (by simp), entryChain_concat]
    simp
  · simp
    omega
  · rw [hseq', hid]
    simp

/-- Conversely, only such an append leaves a chain behind. -/
theorem chain_of_append
    {log log' : AuditLog} {es : List AuditEntry} {entry : AuditEntry}
    {record : AuditRecord}
    (h : append P log key entry = .ok (log', record))
    (hrows : IntactRows P key es log'.rows) :
    ∃ ds, es = ds ++ [entry] ∧ IntactRows P key ds log.rows ∧
      log.sequence.toInt ≤ ds.length := by
  obtain ⟨hrows, hfit⟩ := hrows
  obtain ⟨prev, id, htail, hid, -, hrows', hseq', hanchor'⟩ := append_eq_ok h
  rcases List.eq_nil_or_concat es with rfl | ⟨ds, d, rfl⟩
  · rw [hrows'] at hrows
    simp [chainRows] at hrows
  · rw [List.concat_eq_append] at hrows hfit ⊢
    rw [hrows', chainRows_concat] at hrows
    obtain ⟨hinit, hlast⟩ := List.append_inj' hrows rfl
    have hrow := List.singleton_inj.mp hlast
    have hd : entry = d := encodeRow_inj hrow
    have hid' : id = Int64.ofNat (1 + ds.length) := congrArg AuditRow.seq hrow
    simp only [List.length_append, List.length_singleton] at hfit
    rw [hid', toInt_ofNat (by omega)] at hid
    refine ⟨ds, by rw [hd], ⟨hinit, by omega⟩, ?_⟩
    have := le_max_right log.largestSeq log.sequence.toInt
    push_cast at hid
    omega

theorem AuditLog.Records.intactRows
    {log : AuditLog} {es : List AuditEntry}
    (h : log.Records P key es) :
    IntactRows P key es log.rows :=
  ⟨h.rows, h.fits⟩

theorem AuditLog.records_empty :
    AuditLog.empty.Records P key [] :=
  ⟨rfl, rfl, by simp⟩

/-- What a run of appends from an empty log leaves. -/
theorem appendAll_chain
    {log log' : AuditLog} {es entries : List AuditEntry}
    (hrec : log.Records P key es)
    (hseq : log.sequence.toInt = es.length)
    (h : appendAll P key log entries = .ok log') :
    log'.Records P key (es ++ entries) ∧
      log'.sequence.toInt = (es ++ entries).length := by
  induction entries generalizing log es with
  | nil =>
      cases h
      simpa using ⟨hrec, hseq⟩
  | cons entry entries ih =>
      obtain ⟨mid, record, happend, hrest⟩ := appendAll_cons_eq_ok h
      obtain ⟨hmid, hmidseq⟩ := append_chain happend hrec.intactRows hseq.le
      simpa using ih hmid hmidseq hrest

/-- The log after the first entry of a new deployment. -/
def initLog : AuditLog where
  rows :=
    chainRows samplePrimitives (sampleKey 1) genesis 1
      [AuditEntry.new 10 .init .success]
  sorted := List.pairwise_singleton _ _
  sequence := 1
  anchor :=
    honestAnchor samplePrimitives (sampleKey 1) [AuditEntry.new 10 .init .success]

theorem appendAll_initLog :
    appendAll samplePrimitives (sampleKey 1) AuditLog.empty
      [AuditEntry.new 10 .init .success] = .ok initLog := by
  rfl

end Append

section Rekey

variable {P : Primitives}

theorem readEntry_encodeRow
    {seq : Int64}
    (hseq : 0 ≤ seq.toInt)
    (prev hash : Digest) (e : AuditEntry) :
    readEntry (encodeRow seq prev hash e) = .ok e := by
  have hneg : ¬ (encodeRow seq prev hash e).seq.toInt < 0 := not_lt.mpr hseq
  simp only [readEntry, if_neg hneg, parseAndValidateRow_encodeRow hseq]

/-- Re-keying the rows of a chain gives the rows of the same entries. -/
theorem rekeyRows_chainRows
    {oldKey newKey : Key32} {p q : Digest} {n : Nat} {es : List AuditEntry}
    (hfit : n + es.length ≤ 2 ^ 63) :
    rekeyRows P newKey q (chainRows P oldKey p n es) =
      .ok (chainRows P newKey q n es, entryChain P newKey q es) := by
  induction es generalizing p q n with
  | nil =>
      rfl
  | cons e es ih =>
      simp only [List.length_cons] at hfit
      have hseq : 0 ≤ (Int64.ofNat n).toInt := by
        rw [toInt_ofNat (by omega)]
        omega
      simp only [chainRows, rekeyRows, readEntry_encodeRow hseq,
        ih (n := n + 1) (by omega), bind, Except.bind]
      rfl

/-- The transaction of `rekey_chain` on a log that verified. -/
theorem rekeyTransaction_records
    {log : AuditLog} {oldKey : Key32} {es : List AuditEntry}
    (h : log.Records P oldKey es) (newKey : Key32) :
    ∃ log', rekeyTransaction P log newKey = .ok (log', es.length) ∧
      log'.Records P newKey es ∧ log'.sequence = log.sequence := by
  have hfit := h.fits
  have hrekey :
      rekeyRows P newKey genesis log.rows =
        .ok (chainRows P newKey genesis 1 es, entryChain P newKey genesis es) := by
    rw [h.rows]
    exact rekeyRows_chainRows (by omega)
  have hlen : log.rows.length = es.length := by
    rw [h.rows, chainRows_length]
  unfold rekeyTransaction
  split
  · rename_i e herr
    rw [hrekey] at herr
    cases herr
  rename_i rows previous hok
  rw [hrekey] at hok
  cases hok
  rw [hlen]
  refine ⟨_, rfl, ⟨rfl, ?_, hfit⟩, rfl⟩
  cases es with
  | nil =>
      simpa [honestAnchor] using h.anchor
  | cons e es =>
      simp [honestAnchor]

end Rekey

end Audit
end Secretbae
