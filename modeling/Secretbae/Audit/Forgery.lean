import Secretbae.Audit.Chain
import Secretbae.Daemon.Entries

/-!
# Unforgeability of the chain

An adversary who cannot compute MACs may rearrange, edit, replay and delete
what the honest appends left, rows and anchor alike.  `unforgeable` says that
the only logs that still verify are earlier states of the honest one.

The argument has three parts.  A row that verifies carries the MAC of a message
the daemon authenticated; such a message is never an anchor's, since anchor
messages are shorter than every entry message; and the encoding of the daemon's
entries is unambiguous, so the row is one of the daemon's links.  The rest is
`prefix_of_links_subset`.
-/

namespace Secretbae
namespace Audit

open Lib Proto Core Daemon

section Messages

variable (P : Primitives) (key : Key32)

/-- The entry messages that honest appends of `es` authenticate. -/
def entryMessages (es : List AuditEntry) : List Bytes :=
  (links (computeEntryHash P key) genesis es).map (fun p => entryMessage p.1 p.2)

/-- The anchor messages that honest appends of `es` authenticate. -/
def anchorMessages (es : List AuditEntry) : List Bytes :=
  (List.range es.length).map (fun i =>
    Anchor.message ⟨i + 1, entryChain P key genesis (es.take (i + 1))⟩)

/-- Everything MAC'd by honest appends of `es` to an empty log. -/
def honestMessages (es : List AuditEntry) : List Bytes :=
  entryMessages P key es ++ anchorMessages P key es

end Messages

/-- The message whose MAC `verify` compares with the `entry_hash` of a row. -/
def rowMessage (row : AuditRow) : Option Bytes :=
  match parseAndValidateRow row 0 with
  | .ok (.valid _ prevHash _ entry) => some (entryMessage prevHash entry)
  | _ => none

/-- The message whose MAC `verify` compares with that of a stored anchor. -/
def storedAnchorMessage (encoded : Bytes) : Bytes :=
  anchorDomain ++ encoded.take 40

/-- The messages that `verify` recomputes MACs of. -/
def recomputedMessages (log : AuditLog) : List Bytes :=
  log.rows.filterMap rowMessage ++ log.anchor.toList.map storedAnchorMessage

/-- The values that `verify` compares with MACs. -/
def storedMacs (log : AuditLog) : List Bytes :=
  log.rows.map (·.entryHash) ++ log.anchor.toList.map (fun encoded => encoded.drop 40)

/--
What an adversary without the key can leave behind: a value that is the MAC of
a message to be checked is one that the honest appends produced.
-/
def NoForgedMacs (P : Primitives) (key : Key32) (es : List AuditEntry)
    (log : AuditLog) : Prop :=
  ∀ m ∈ recomputedMessages log,
    (P.keyedHash key m).toList ∈ storedMacs log →
    ∃ m' ∈ honestMessages P key es, P.keyedHash key m' = P.keyedHash key m

section Separation

theorem entryMessage_length_ge
    (prev : Digest) (e : AuditEntry) :
    66 ≤ (entryMessage prev e).length := by
  have := e.canonical_length_ge
  simp [entryMessage]
  omega

theorem Anchor.message_length
    (a : Anchor) :
    a.message.length = 65 := by
  have hdomain : anchorDomain.length = 25 := by decide
  simp [Anchor.message, hdomain]

theorem entryMessage_ne_message
    (prev : Digest) (e : AuditEntry) (a : Anchor) :
    entryMessage prev e ≠ a.message := by
  intro h
  have hlong := entryMessage_length_ge prev e
  rw [h, a.message_length] at hlong
  omega

/-- A row of a log that verifies carries the MAC of its own message. -/
theorem entryHash_of_verifies
    {P : Primitives} {key : Key32} {log : AuditLog}
    (h : log.Verifies P key)
    {row : AuditRow} {fallbackSeq seq : Nat} {prev hash : Digest} {e : AuditEntry}
    (hrow : row ∈ log.rows)
    (hparse : parseAndValidateRow row fallbackSeq = .ok (.valid seq prev hash e)) :
    hash = computeEntryHash P key prev e := by
  obtain ⟨es, hes⟩ := AuditLog.verifies_iff.mp h
  have hfits := hes.fits
  rw [hes.rows] at hrow
  obtain ⟨i, hi⟩ := List.mem_iff_getElem?.mp hrow
  rw [chainRows_getElem?, Option.map_eq_some_iff] at hi
  obtain ⟨d, hd, rfl⟩ := hi
  have hlt : i < es.length := (List.getElem?_eq_some_iff.mp hd).1
  have hseq : 0 ≤ (Int64.ofNat (1 + i)).toInt := by
    rw [toInt_ofNat (by omega)]
    omega
  rw [parseAndValidateRow_encodeRow hseq] at hparse
  cases hparse
  rw [List.take_add_one, hd, Option.toList_some, entryChain_concat]

/--
Entries and anchors are never authenticated by the same message.  A stored
entry hash is therefore not accepted as the MAC of an anchor, nor the MAC of an
anchor as the hash of a row.
-/
theorem entry_and_anchor_macs_apart
    (prev : Digest) (e : AuditEntry) (a : Anchor) :
    entryMessage prev e ≠ a.message ∧
      ∀ (P : Primitives) (key : Key32),
        MacCollisionFreeOn P key [entryMessage prev e, a.message] →
        computeEntryHash P key prev e ≠ a.mac P key ∧
        (∀ encoded, Anchor.decode P key encoded = some a →
          encoded.drop 40 ≠ (computeEntryHash P key prev e).toList) ∧
        ∀ (log : AuditLog) (row : AuditRow) (fallbackSeq seq : Nat) (hash : Digest),
          log.Verifies P key → row ∈ log.rows →
          parseAndValidateRow row fallbackSeq = .ok (.valid seq prev hash e) →
          hash ≠ a.mac P key := by
  have hne := entryMessage_ne_message prev e a
  refine ⟨hne, ?_⟩
  intro P key hfree
  have hmac : computeEntryHash P key prev e ≠ a.mac P key := by
    intro h
    exact hne (hfree _ (by simp) _ (by simp) h)
  refine ⟨hmac, ?_, ?_⟩
  · intro encoded hdecode hreplay
    obtain ⟨rfl, -⟩ := Anchor.decode_eq_some_iff.mp hdecode
    rw [Anchor.drop_encode] at hreplay
    exact hmac (List.Vector.toList_injective hreplay).symm
  · intro log row fallbackSeq seq hash hverifies hrow hparse
    rw [entryHash_of_verifies hverifies hrow hparse]
    exact hmac

/-- The first entry of a store against the anchor that is written with it. -/
theorem entry_and_anchor_macs_apart_init :
    entryMessage genesis (initEntry 10) ≠ Anchor.message ⟨1, genesis⟩ ∧
      computeEntryHash samplePrimitives (sampleKey 1) genesis (initEntry 10) ≠
        Anchor.mac samplePrimitives (sampleKey 1) ⟨1, genesis⟩ := by
  obtain ⟨hne, hmacs⟩ := entry_and_anchor_macs_apart genesis (initEntry 10) ⟨1, genesis⟩
  refine ⟨hne, (hmacs samplePrimitives (sampleKey 1) ?_).1⟩
  unfold MacCollisionFreeOn
  decide +kernel

/-- A message of a daemon-built entry tells its link. -/
theorem entryMessage_inj
    {p q : Digest} {d e : AuditEntry}
    (he : DaemonBuilt e)
    (h : entryMessage p d = entryMessage q e) :
    p = q ∧ d = e := by
  obtain ⟨hprev, hcanon⟩ := List.append_inj h (by simp)
  exact ⟨List.Vector.toList_injective hprev,
    AuditEntry.canonical_inj_of_short he.canonical_short hcanon⟩

end Separation

section Unforgeable

variable {P : Primitives} {key : Key32} {es ds : List AuditEntry}

theorem rowMessage_encodeRow
    {n : Nat}
    (hn : n < 2 ^ 63)
    (prev hash : Digest) (e : AuditEntry) :
    rowMessage (encodeRow (Int64.ofNat n) prev hash e) = some (entryMessage prev e) := by
  have hseq : 0 ≤ (Int64.ofNat n).toInt := by
    rw [toInt_ofNat hn]
    omega
  simp [rowMessage, parseAndValidateRow_encodeRow hseq]

/-- Each link of a recorded chain is checked by `verify` against its own row. -/
theorem recorded_link
    {log : AuditLog}
    (hrec : log.Records P key ds)
    {p : Digest × AuditEntry}
    (hp : p ∈ links (computeEntryHash P key) genesis ds) :
    entryMessage p.1 p.2 ∈ recomputedMessages log ∧
      (computeEntryHash P key p.1 p.2).toList ∈ storedMacs log := by
  obtain ⟨i, hi, rfl⟩ := (mem_links_iff _ _ _ _).mp hp
  have hfit := hrec.fits
  have hget : ds[i]? = some (ds.get ⟨i, hi⟩) := List.getElem?_eq_getElem hi
  have hhash :
      entryChain P key genesis (ds.take (i + 1)) =
        computeEntryHash P key (entryChain P key genesis (ds.take i)) (ds.get ⟨i, hi⟩) := by
    rw [List.take_add_one, hget, Option.toList_some, entryChain_concat]
  have hrow :
      encodeRow (Int64.ofNat (1 + i)) (entryChain P key genesis (ds.take i))
          (entryChain P key genesis (ds.take (i + 1))) (ds.get ⟨i, hi⟩) ∈ log.rows := by
    rw [hrec.rows]
    apply List.mem_of_getElem?
    rw [chainRows_getElem?, hget]
    rfl
  constructor
  · apply List.mem_append_left
    exact List.mem_filterMap.mpr ⟨_, hrow, rowMessage_encodeRow (by omega) _ _ _⟩
  · apply List.mem_append_left
    refine List.mem_map.mpr ⟨_, hrow, ?_⟩
    rw [hhash]
    rfl

/-- A checked link is one of the daemon's, since only those carry honest MACs. -/
theorem honest_link_of_checked
    {log : AuditLog}
    (hbuilt : ∀ e ∈ es, DaemonBuilt e)
    (hfree :
      MacCollisionFreeOn P key (honestMessages P key es ++ recomputedMessages log))
    (hadv : NoForgedMacs P key es log)
    {p : Digest × AuditEntry}
    (hchecked : entryMessage p.1 p.2 ∈ recomputedMessages log)
    (hstored : (computeEntryHash P key p.1 p.2).toList ∈ storedMacs log) :
    p ∈ links (computeEntryHash P key) genesis es := by
  obtain ⟨m, hm, hmac⟩ := hadv _ hchecked hstored
  have heq : m = entryMessage p.1 p.2 :=
    hfree _ (List.mem_append_left _ hm) _ (List.mem_append_right _ hchecked) hmac
  rcases List.mem_append.mp hm with hentry | hanchor
  · obtain ⟨q, hq, hqm⟩ := List.mem_map.mp hentry
    obtain ⟨i, hi, hqi⟩ := (mem_links_iff _ _ _ _).mp hq
    have hbuiltq : DaemonBuilt q.2 := by
      rw [hqi]
      exact hbuilt _ (List.get_mem _ _)
    obtain ⟨h1, h2⟩ := entryMessage_inj hbuiltq (heq.symm.trans hqm.symm)
    rwa [show p = q from Prod.ext h1 h2]
  · obtain ⟨i, _, hqm⟩ := List.mem_map.mp hanchor
    exact absurd (hqm.trans heq).symm (entryMessage_ne_message _ _ _)

/-- Every link of a recorded chain is one of the daemon's. -/
theorem honest_link
    {log : AuditLog}
    (hbuilt : ∀ e ∈ es, DaemonBuilt e)
    (hfree :
      MacCollisionFreeOn P key (honestMessages P key es ++ recomputedMessages log))
    (hadv : NoForgedMacs P key es log)
    (hrec : log.Records P key ds)
    {p : Digest × AuditEntry}
    (hp : p ∈ links (computeEntryHash P key) genesis ds) :
    p ∈ links (computeEntryHash P key) genesis es := by
  obtain ⟨hchecked, hstored⟩ := recorded_link hrec hp
  exact honest_link_of_checked hbuilt hfree hadv hchecked hstored

/-- No honest link hashes to the value a chain starts from. -/
theorem honest_links_ne_genesis
    (hgenesis : ∀ m ∈ honestMessages P key es, P.keyedHash key m ≠ genesis) :
    ∀ p ∈ links (computeEntryHash P key) genesis es,
      computeEntryHash P key p.1 p.2 ≠ genesis := by
  intro p hp
  exact hgenesis _ (List.mem_append_left _ (List.mem_map.mpr ⟨p, hp, rfl⟩))

/-- The honest links do not collide. -/
theorem honest_links_inj
    {ms : List Bytes}
    (hbuilt : ∀ e ∈ es, DaemonBuilt e)
    (hfree : MacCollisionFreeOn P key (honestMessages P key es ++ ms)) :
    ∀ p ∈ links (computeEntryHash P key) genesis es,
      ∀ q ∈ links (computeEntryHash P key) genesis es,
        computeEntryHash P key p.1 p.2 = computeEntryHash P key q.1 q.2 → p = q := by
  have hmem :
      ∀ p ∈ links (computeEntryHash P key) genesis es,
        entryMessage p.1 p.2 ∈ honestMessages P key es ++ ms := by
    intro p hp
    exact List.mem_append_left _ (List.mem_append_left _ (List.mem_map.mpr ⟨p, hp, rfl⟩))
  intro p hp q hq hhash
  obtain ⟨i, hi, hqi⟩ := (mem_links_iff _ _ _ _).mp hq
  have hbuiltq : DaemonBuilt q.2 := by
    rw [hqi]
    exact hbuilt _ (List.get_mem _ _)
  obtain ⟨h1, h2⟩ := entryMessage_inj hbuiltq (hfree _ (hmem p hp) _ (hmem q hq) hhash)
  exact Prod.ext h1 h2

theorem appendAll_append
    {log log' : AuditLog} {fs : List AuditEntry}
    (h : appendAll P key log (es ++ fs) = .ok log') :
    ∃ mid, appendAll P key log es = .ok mid ∧ appendAll P key mid fs = .ok log' := by
  induction es generalizing log with
  | nil =>
      exact ⟨log, rfl, h⟩
  | cons e es ih =>
      obtain ⟨next, record, happend, hrest⟩ := appendAll_cons_eq_ok h
      obtain ⟨mid, hmid, hfs⟩ := ih hrest
      refine ⟨mid, ?_, hfs⟩
      exact bind_eq_ok.mpr ⟨(next, record), happend, hmid⟩

/--
A log that verifies after an adversary without the key had it is the log the
first `n` honest appends left.
-/
theorem unforgeable
    {honest log : AuditLog} {n : Nat} {tail : Option Digest}
    (hbuilt : ∀ e ∈ es, DaemonBuilt e)
    (hhonest : appendAll P key AuditLog.empty es = .ok honest)
    (hfree :
      MacCollisionFreeOn P key (honestMessages P key es ++ recomputedMessages log))
    (hgenesis : ∀ m ∈ honestMessages P key es, P.keyedHash key m ≠ genesis)
    (hadv : NoForgedMacs P key es log)
    (hvalid : verify P log key = .ok (.valid n tail)) :
    n ≤ es.length ∧
      log.rows = honest.rows.take n ∧
      log.rows = chainRows P key genesis 1 (es.take n) ∧
      ∃ nth, appendAll P key AuditLog.empty (es.take n) = .ok nth ∧
        log.rows = nth.rows ∧ log.anchor = nth.anchor := by
  obtain ⟨ds, hrec, rfl, -⟩ := verify_eq_valid_iff.mp hvalid
  have hpre : ds <+: es :=
    prefix_of_links_subset _ (honest_links_inj hbuilt hfree)
      (honest_links_ne_genesis hgenesis)
      (fun p hp => honest_link hbuilt hfree hadv hrec hp)
  have hds : es.take ds.length = ds := (List.prefix_iff_eq_take.mp hpre).symm
  have hhonestRec : honest.Records P key es := by
    simpa using (appendAll_chain AuditLog.records_empty rfl hhonest).1
  rw [hds]
  refine ⟨hpre.length_le, ?_, hrec.rows, ?_⟩
  · obtain ⟨fs, rfl⟩ := hpre
    rw [hhonestRec.rows, hrec.rows, chainRows_append]
    exact (List.take_left' (chainRows_length _ _ _)).symm
  · obtain ⟨fs, rfl⟩ := hpre
    obtain ⟨nth, hnth, -⟩ := appendAll_append hhonest
    have hnthRec : nth.Records P key ds := by
      simpa using (appendAll_chain AuditLog.records_empty rfl hnth).1
    refine ⟨nth, hnth, ?_, ?_⟩
    · rw [hrec.rows, hnthRec.rows]
    · rw [hrec.anchor, hnthRec.anchor]

/-- A store that was initialised and then unsealed. -/
theorem exists_firstTwo :
    ∃ honest, appendAll samplePrimitives (sampleKey 1) AuditLog.empty
      [initEntry 10, unsealEntry 20 0] = .ok honest :=
  exists_of_isOk (by decide +kernel)

theorem firstTwo_built :
    ∀ e ∈ [initEntry 10, unsealEntry 20 0], DaemonBuilt e := by
  simp only [List.mem_cons, List.not_mem_nil, or_false]
  rintro e (rfl | rfl)
  · exact .initialised 10
  · exact .unsealed 20 0

theorem firstTwo_ne_genesis :
    ∀ m ∈ honestMessages samplePrimitives (sampleKey 1) [initEntry 10, unsealEntry 20 0],
      samplePrimitives.keyedHash (sampleKey 1) m ≠ genesis := by
  decide +kernel

/-- Rolling the database back to its first entry is such an earlier state. -/
theorem unforgeable_initLog :
    1 ≤ 2 ∧
      initLog.rows =
        chainRows samplePrimitives (sampleKey 1) genesis 1 [initEntry 10] := by
  obtain ⟨honest, hhonest⟩ := exists_firstTwo
  have hfree :
      MacCollisionFreeOn samplePrimitives (sampleKey 1)
        (honestMessages samplePrimitives (sampleKey 1)
          [initEntry 10, unsealEntry 20 0] ++ recomputedMessages initLog) := by
    unfold MacCollisionFreeOn
    decide +kernel
  have hadv :
      NoForgedMacs samplePrimitives (sampleKey 1)
        [initEntry 10, unsealEntry 20 0] initLog := by
    unfold NoForgedMacs
    decide +kernel
  have hvalid :
      verify samplePrimitives initLog (sampleKey 1) =
        .ok (.valid 1 (tailHash samplePrimitives (sampleKey 1) [initEntry 10])) := by
    decide +kernel
  obtain ⟨hle, -, hrows, -⟩ :=
    unforgeable firstTwo_built hhonest hfree firstTwo_ne_genesis hadv hvalid
  exact ⟨hle, hrows⟩

end Unforgeable

end Audit
end Secretbae
