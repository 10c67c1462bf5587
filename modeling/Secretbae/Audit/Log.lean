import Secretbae.Audit.Row
import Secretbae.Lib.HashChain

/-!
# The audit log: append, verify and re-key

The tamper-evident log of `sbae-audit`: a table of rows linked by keyed
hashes, an authenticated anchor that records how long the chain is and where
it ends, and SQLite's counter for `AUTOINCREMENT`.  The three operations are
`append`, `verify` and `rekeyChain`.

A failed operation returns no new log: its transaction is rolled back.
-/

namespace Secretbae
namespace Audit

open Lib Proto Core

/-- Previous-hash value of the very first entry. -/
def genesis : Digest :=
  ⟨List.replicate 32 0, rfl⟩

/-- `EntryHash::try_from`. -/
def entryHashOfSlice (slice : Bytes) : Except AuditError Digest :=
  match fixed? 32 slice with
  | some hash => .ok hash
  | none => .error (.invalidHashLength 32 slice.length)

/-- The message an entry's MAC is computed over. -/
def entryMessage (prevHash : Digest) (entry : AuditEntry) : Bytes :=
  prevHash.toList ++ entry.canonical

/-- `compute_entry_hash`. -/
def computeEntryHash (P : Primitives) (key : Key32) (prevHash : Digest)
    (entry : AuditEntry) : Digest :=
  P.keyedHash key (entryMessage prevHash entry)

def anchorDomain : Bytes := utf8 "secretbae/audit/anchor/v1"

def anchorEncodedLen : Nat := 8 + 32 + 32

/-- How long the chain is and what it ends with. -/
structure Anchor where
  entries : Nat
  tailHash : Digest
deriving DecidableEq

/-- The message an anchor's MAC is computed over. -/
def Anchor.message (a : Anchor) : Bytes :=
  anchorDomain ++ (leBytes 8 a.entries ++ a.tailHash.toList)

def Anchor.mac (P : Primitives) (key : Key32) (a : Anchor) : Digest :=
  P.keyedHash key a.message

def Anchor.encode (P : Primitives) (key : Key32) (a : Anchor) : Bytes :=
  leBytes 8 a.entries ++ (a.tailHash.toList ++ (a.mac P key).toList)

/-- `Anchor::decode`: `none` when the MAC does not verify. -/
def Anchor.decode (P : Primitives) (key : Key32) (encoded : Bytes) : Option Anchor :=
  if encoded.length ≠ anchorEncodedLen then none
  else
    match fixed? 32 ((encoded.drop 8).take 32) with
    | none => none
    | some tailHash =>
        let anchor : Anchor := ⟨ofLe (encoded.take 8), tailHash⟩
        if (anchor.mac P key).toList = encoded.drop 40 then some anchor else none

/-- `anchor::load`: the stored anchor, or `none` if there is no anchor row. -/
def Anchor.load (P : Primitives) (key : Key32) (stored : Option Bytes) :
    Except AuditError (Option Anchor) :=
  match stored with
  | none => .ok none
  | some encoded =>
      match Anchor.decode P key encoded with
      | some anchor => .ok (some anchor)
      | none => .error (.corrupt "audit anchor failed authentication")

/--
The database as the audit crate sees it: the `audit` table in primary-key
order, SQLite's counter for it, and the `audit_anchor` row of `meta`.
-/
structure AuditLog where
  rows : List AuditRow
  sorted : rows.Pairwise (fun a b => a.seq.toInt < b.seq.toInt)
  sequence : Int64
  anchor : Option Bytes

theorem AuditLog.ext
    {l m : AuditLog}
    (hrows : l.rows = m.rows)
    (hseq : l.sequence = m.sequence)
    (hanchor : l.anchor = m.anchor) :
    l = m := by
  cases l
  cases m
  cases hrows
  cases hseq
  cases hanchor
  rfl

/-- A log that has never been written to. -/
def AuditLog.empty : AuditLog where
  rows := []
  sorted := List.Pairwise.nil
  sequence := 0
  anchor := none

/-- Largest row id in use, or zero for an empty table. -/
def AuditLog.largestSeq (log : AuditLog) : Int :=
  (log.rows.getLast?.map (fun row => row.seq.toInt)).getD 0

theorem AuditLog.seq_le_largestSeq
    (log : AuditLog) {row : AuditRow}
    (hrow : row ∈ log.rows) :
    row.seq.toInt ≤ log.largestSeq := by
  unfold AuditLog.largestSeq
  rcases List.eq_nil_or_concat log.rows with hnil | ⟨init, last, hconcat⟩
  · rw [hnil] at hrow
    cases hrow
  · have hsorted := log.sorted
    rw [List.concat_eq_append] at hconcat
    rw [hconcat] at hrow hsorted ⊢
    rw [List.pairwise_append] at hsorted
    rcases List.mem_append.mp hrow with hinit | hlast
    · have := hsorted.2.2 row hinit last (by simp)
      simp
      omega
    · obtain rfl := List.mem_singleton.mp hlast
      simp

theorem AuditLog.largestSeq_lt
    (log : AuditLog) :
    log.largestSeq < 2 ^ 63 := by
  unfold AuditLog.largestSeq
  cases log.rows.getLast? with
  | none =>
      simp
  | some last =>
      simpa using last.seq.toInt_lt

/--
The id `AUTOINCREMENT` gives to the next row: one above both the largest id in
the table and the counter, and an error once either is exhausted.
-/
def AuditLog.nextRowid (log : AuditLog) :
    Except AuditError {id : Int64 // ∀ row ∈ log.rows, row.seq.toInt < id.toInt} :=
  if h : log.largestSeq = 2 ^ 63 - 1 ∨ log.sequence.toInt = 2 ^ 63 - 1 then
    .error (.sqlite .full)
  else
    .ok ⟨Int64.ofInt (max log.largestSeq log.sequence.toInt + 1), by
      intro row hrow
      have hle := log.seq_le_largestSeq hrow
      have hseq := log.sequence.toInt_lt
      have hseq' := log.sequence.le_toInt
      have hrow' := row.seq.le_toInt
      have hlarge := log.largestSeq_lt
      rw [Int64.toInt_ofInt_of_le (by omega) (by omega)]
      omega⟩

/-- A committed audit entry. -/
structure AuditRecord where
  seq : Nat
  entry : AuditEntry
  prevHash : Digest
  entryHash : Digest
deriving DecidableEq

/-- The hash `append` links to: the tail's, or the genesis value. -/
def AuditLog.tail (log : AuditLog) : Except AuditError Digest :=
  match log.rows.getLast? with
  | some row => entryHashOfSlice row.entryHash
  | none => .ok genesis

/-- Insert a row above all others and store the anchor that describes it. -/
def AuditLog.push (log : AuditLog) (row : AuditRow)
    (h : ∀ r ∈ log.rows, r.seq.toInt < row.seq.toInt) (anchor : Bytes) : AuditLog where
  rows := log.rows ++ [row]
  sorted := by
    rw [List.pairwise_append]
    refine ⟨log.sorted, List.pairwise_singleton _ _, ?_⟩
    intro a ha b hb
    obtain rfl := List.mem_singleton.mp hb
    exact h a ha
  sequence := row.seq
  anchor := some anchor

/-- `append`: extend the chain by one entry in an immediate transaction. -/
def append (P : Primitives) (log : AuditLog) (key : Key32) (entry : AuditEntry) :
    Except AuditError (AuditLog × AuditRecord) := do
  let prevHash ← log.tail
  let entries := log.rows.length
  let entryHash := computeEntryHash P key prevHash entry
  let ⟨rowid, hrowid⟩ ← log.nextRowid
  if rowid.toInt < 0 then .error (.corrupt "sqlite rowid was negative")
  else
    let anchor : Anchor := ⟨entries + 1, entryHash⟩
    .ok
      (log.push (encodeRow rowid prevHash entryHash entry) hrowid (anchor.encode P key),
       { seq := rowid.toInt.toNat, entry, prevHash, entryHash })

/-- The outcome of walking the audit log. -/
inductive VerificationResult where
  | valid (entriesVerified : Nat) (tailHash : Option Digest)
  | modified (seq : Nat) (storedHash computedHash : Digest)
  | gap (expected found : Nat)
  | truncated (expectedEntries foundEntries : Nat)
  | anchorInvalid
  | brokenLink (seq : Nat) (expectedPrev foundPrev : Digest)
  | corrupt (seq : Nat) (what : String)
deriving DecidableEq

def VerificationResult.isValid : VerificationResult → Bool
  | .valid _ _ => true
  | _ => false

/-- `VerificationResult::broken_seq`. -/
def VerificationResult.brokenSeq : VerificationResult → Option Nat
  | .modified seq _ _ => some seq
  | .brokenLink seq _ _ => some seq
  | .corrupt seq _ => some seq
  | .gap expected _ => some expected
  | .valid _ _ => none
  | .truncated _ _ => none
  | .anchorInvalid => none

def hexDigit (n : Nat) : Char :=
  if n < 10 then Char.ofNat (48 + n) else Char.ofNat (87 + n)

/-- `Display` of an entry hash. -/
def hashDisplay (h : Digest) : String :=
  String.ofList (h.toList.flatMap
    (fun b => [hexDigit (b.toNat / 16), hexDigit (b.toNat % 16)]))

/-- `Display` of a verification result. -/
def VerificationResult.display : VerificationResult → String
  | .valid n _ => s!"audit chain verified clean ({n} entries)"
  | .modified seq stored computed =>
      s!"entry modified at seq {seq}: stored hash {hashDisplay stored}, computed {hashDisplay computed}"
  | .gap expected found =>
      s!"sequence gap detected: expected seq {expected}, found {found}"
  | .truncated expected found =>
      s!"audit chain truncated: anchor records {expected} entries, found {found}"
  | .anchorInvalid => "audit anchor is missing or was not written by this store"
  | .brokenLink seq expected found =>
      s!"chain link broken at seq {seq}: expected prev_hash {hashDisplay expected}, found {hashDisplay found}"
  | .corrupt seq what => s!"corrupt entry at seq {seq}: {what}"

/-- `Seq::next`. -/
def seqNext (seq : Nat) : Nat :=
  min (seq + 1) (2 ^ 64 - 1)

/-- How the loop of `verify` over the rows ends. -/
inductive WalkOutcome where
  | stopped (result : VerificationResult)
  | completed (count : Nat) (lastHash : Digest)
deriving DecidableEq

/-- The loop of `verify` over the rows in ascending order of `seq`. -/
def walk (P : Primitives) (key : Key32) :
    List AuditRow → Nat → Nat → Digest → Except AuditError WalkOutcome
  | [], count, _, expectedPrev => .ok (.completed count expectedPrev)
  | row :: rows, count, expectedSeq, expectedPrev =>
      match parseAndValidateRow row expectedSeq with
      | .error e => .error (.sqlite e)
      | .ok (.corrupt seq what) => .ok (.stopped (.corrupt seq what))
      | .ok (.valid seq prevHash entryHash entry) =>
          if seq ≠ expectedSeq then .ok (.stopped (.gap expectedSeq seq))
          else if prevHash ≠ expectedPrev then
            .ok (.stopped (.brokenLink seq expectedPrev prevHash))
          else
            let computedHash := computeEntryHash P key prevHash entry
            if entryHash ≠ computedHash then
              .ok (.stopped (.modified seq entryHash computedHash))
            else walk P key rows (count + 1) (seqNext seq) entryHash

/-- The walk of `verify` from its initial state. -/
def walkFromGenesis (P : Primitives) (key : Key32) (rows : List AuditRow) :
    Except AuditError WalkOutcome :=
  walk P key rows 0 1 genesis

/-- The final match of `verify`: the walked chain against the stored anchor. -/
def checkAnchor (P : Primitives) (key : Key32) (stored : Option Bytes)
    (count : Nat) (lastHash : Digest) : Except AuditError VerificationResult := do
  let tailHash := if count > 0 then some lastHash else none
  match ← Anchor.load P key stored with
  | none =>
      if count = 0 then .ok (.valid 0 tailHash) else .ok .anchorInvalid
  | some anchor =>
      if anchor.entries > count then .ok (.truncated anchor.entries count)
      else if anchor.entries ≠ count ∨ some anchor.tailHash ≠ tailHash then
        .ok .anchorInvalid
      else .ok (.valid count tailHash)

/-- `verify` on the rows of one read and the anchor of a later one. -/
def verifyReads (P : Primitives) (key : Key32) (rows : List AuditRow)
    (stored : Option Bytes) : Except AuditError VerificationResult := do
  match ← walkFromGenesis P key rows with
  | .stopped result => .ok result
  | .completed count lastHash => checkAnchor P key stored count lastHash

/-- `verify`: walk the chain from genesis to tail, then check the anchor. -/
def verify (P : Primitives) (log : AuditLog) (key : Key32) :
    Except AuditError VerificationResult :=
  verifyReads P key log.rows log.anchor

/-- `read_entry` of a row of the table. -/
def readEntry (row : AuditRow) : Except AuditError AuditEntry :=
  if row.seq.toInt < 0 then .error (.corrupt "negative audit sequence")
  else
    match parseAndValidateRow row row.seq.toInt.toNat with
    | .error e => .error (.sqlite e)
    | .ok (.valid _ _ _ entry) => .ok entry
    | .ok (.corrupt _ what) => .error (.corrupt what)

/-- The loop of `rekey_chain`: recompute the hashes of the rows in order. -/
def rekeyRows (P : Primitives) (newKey : Key32) :
    Digest → List AuditRow → Except AuditError (List AuditRow × Digest)
  | previous, [] => .ok ([], previous)
  | previous, row :: rows => do
      let entry ← readEntry row
      let entryHash := computeEntryHash P newKey previous entry
      let (rest, last) ← rekeyRows P newKey entryHash rows
      .ok
        ({ row with prevHash := previous.toList, entryHash := entryHash.toList } :: rest,
         last)

/-- Re-keying touches no sequence number. -/
theorem rekeyRows_seq
    {P : Primitives} {newKey : Key32} {previous last : Digest}
    {rows rows' : List AuditRow}
    (h : rekeyRows P newKey previous rows = .ok (rows', last)) :
    rows'.map (·.seq) = rows.map (·.seq) := by
  induction rows generalizing previous rows' with
  | nil =>
      cases h
      rfl
  | cons row rows ih =>
      obtain ⟨entry, _, h⟩ := bind_eq_ok.mp h
      obtain ⟨⟨rest, last'⟩, hrest, h⟩ := bind_eq_ok.mp h
      cases h
      simp [ih hrest]

/-- The transaction of `rekey_chain`, with the number of entries re-keyed. -/
def rekeyTransaction (P : Primitives) (log : AuditLog) (newKey : Key32) :
    Except AuditError (AuditLog × Nat) :=
  match h : rekeyRows P newKey genesis log.rows with
  | .error e => .error e
  | .ok (rows, previous) =>
      let rekeyed := log.rows.length
      -- an empty chain carries no anchor, so none is written for zero entries
      let anchor :=
        if rekeyed > 0 then some (Anchor.encode P newKey ⟨rekeyed, previous⟩)
        else log.anchor
      .ok
        ({ rows := rows
           sorted := by
             have hseq := congrArg (List.map Int64.toInt) (rekeyRows_seq h)
             simp only [List.map_map] at hseq
             have hs := log.sorted
             rw [← List.pairwise_map
               (f := fun r : AuditRow => r.seq.toInt) (R := fun a b => a < b)] at hs ⊢
             exact hseq ▸ hs
           sequence := log.sequence
           anchor := anchor },
         rekeyed)

/-- `rekey_chain`: refuse a chain that does not verify, then re-key it. -/
def rekeyChain (P : Primitives) (log : AuditLog) (oldKey newKey : Key32) :
    Except AuditError (AuditLog × Nat) := do
  match ← verify P log oldKey with
  | .valid _ _ => rekeyTransaction P log newKey
  | broken => .error (.refusingToRekeyBrokenChain broken.display)

end Audit
end Secretbae
