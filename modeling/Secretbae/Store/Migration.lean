import Secretbae.Store.Openable
import Secretbae.Store.Relocation
import Secretbae.Store.Tokens

/-!
# Rotation as a transaction

`rekey_with` statement by statement: it reads the rows that are not destroyed,
and for each of them calls the callback and updates the row by its primary key;
the new sealed master key comes last, then the commit.  `rekeyTransaction_eq`
shows that these updates, each of which hits its own row only, amount to the
rewriting of the rows in place that `rekeyWith` is.

`Tables` are all tables of the store, and a transaction that fails is dropped.
-/

namespace Secretbae
namespace Storage

open Lib Proto Core

/-- The columns that `rekey_with` selects. -/
structure RewrapRow where
  secretId : Uuid
  version : Version
  dekNonce : Bytes
  wrappedDek : Bytes
  mkGeneration : UInt32

/-- One row of the query; a column that is `NULL` fails it. -/
def VersionRow.pending (r : VersionRow) : Except StoreError RewrapRow :=
  match r.dekNonce, r.wrappedDek with
  | some dekNonce, some wrappedDek =>
      .ok
        { secretId := r.secretId, version := r.version, dekNonce, wrappedDek
          mkGeneration := r.mkGeneration }
  | _, _ => .error (.sqlite .invalidColumnType)

/-- `SELECT … FROM secret_versions WHERE state <> 'destroyed'`. -/
def pendingRows (rows : List VersionRow) : Except StoreError (List RewrapRow) :=
  (rows.filter fun r => decide (r.state ≠ .destroyed)).mapM VersionRow.pending

def RewrapRow.key (row : RewrapRow) : Except StoreError WrappedKey := do
  let dekNonce ← liftCrypto (Nonce.fromSlice row.dekNonce)
  .ok { wrappedDek := row.wrappedDek, dekNonce, mkGeneration := row.mkGeneration }

/-- `UPDATE secret_versions SET … WHERE secret_id = ? AND version = ?`. -/
def Store.updateKey (st : Store) (slot : Uuid × Version) (key : WrappedKey) : Store :=
  st.updateVersions (fun r => if r.slot = slot then r.withKey key else r)
    (by intro r; split <;> rfl)

/-- The loop of `rekey_with`, after `rewrapped` rows. -/
def rekeyLoop (rewrap : Rewrap) :
    Nat → Store → List RewrapRow → Except StoreError (Store × Nat)
  | rewrapped, tx, [] => .ok (tx, rewrapped)
  | rewrapped, tx, row :: rows => do
      let key ← row.key
      let key ← rewrap rewrapped ⟨row.secretId, row.version.get⟩ key
      rekeyLoop rewrap (rewrapped + 1) (tx.updateKey (row.secretId, row.version) key) rows

/-- `Store::rekey_with` up to the commit. -/
def rekeyTransaction (st : Store) (newSealedMaster : SealedMasterKey) (rewrap : Rewrap) :
    Except StoreError (Store × RekeyReport) := do
  let pending ← pendingRows st.versions.rows
  let (tx, rewrapped) ← rekeyLoop rewrap 0 st pending
  .ok (tx.putSealedMasterKey newSealedMaster.toBytes,
    { versionsRewrapped := rewrapped, newGeneration := newSealedMaster.generation })

/-- All tables of the store. -/
structure Tables where
  store : Store
  access : Access

/-- `Store::rekey_with`: what is in the tables afterwards, and what it returns. -/
def Tables.rekeyWith (tables : Tables) (newSealedMaster : SealedMasterKey) (rewrap : Rewrap) :
    Tables × Except StoreError RekeyReport :=
  match rekeyTransaction tables.store newSealedMaster rewrap with
  | .ok (tx, report) => ({ tables with store := tx }, .ok report)
  | .error e => (tables, .error e)

section Loop

variable {rewrap : Rewrap}

/-- The rest of the database while a rotation runs. -/
structure Store.SameButVersions (st st' : Store) : Prop where
  secrets : st'.secrets = st.secrets
  tags : st'.tags = st.tags
  secretTags : st'.secretTags = st.secretTags
  sealedMasterKey : st'.sealedMasterKey = st.sealedMasterKey

/-- Reading a row's key in two steps or in one. -/
theorem pending_key
    (r : VersionRow) :
    (r.pending >>= RewrapRow.key) = r.wrappedKey := by
  unfold VersionRow.pending VersionRow.wrappedKey
  cases r.dekNonce with
  | none => rfl
  | some nonce =>
      cases r.wrappedDek with
      | none => rfl
      | some dek => rfl

theorem pending_slot
    {r : VersionRow} {row : RewrapRow}
    (h : r.pending = .ok row) :
    (row.secretId, row.version) = r.slot := by
  unfold VersionRow.pending at h
  split at h
  · cases h
    rfl
  · cases h

/-- An update by primary key changes the row in that slot and no other. -/
theorem updateKey_rows
    {tx : Store} {done rest : List VersionRow} {r : VersionRow} (key : WrappedKey)
    (hrows : tx.versions.rows = done ++ r :: rest) :
    (tx.updateKey r.slot key).versions.rows = (done ++ [r.withKey key]) ++ rest := by
  have hunique := tx.versions.unique
  rw [hrows, List.map_append, List.map_cons, List.nodup_middle, List.nodup_cons] at hunique
  have hother : ∀ q ∈ done ++ rest, (if q.slot = r.slot then q.withKey key else q) = q := by
    intro q hq
    refine if_neg fun heq => hunique.1 ?_
    rw [← heq, ← List.map_append]
    exact List.mem_map.mpr ⟨q, hq, rfl⟩
  have hdone : done.map (fun q => if q.slot = r.slot then q.withKey key else q) = done := by
    refine (List.map_congr_left fun q hq => ?_).trans (List.map_id _)
    exact hother q (List.mem_append_left _ hq)
  have hrest : rest.map (fun q => if q.slot = r.slot then q.withKey key else q) = rest := by
    refine (List.map_congr_left fun q hq => ?_).trans (List.map_id _)
    exact hother q (List.mem_append_right _ hq)
  show tx.versions.rows.map (fun q => if q.slot = r.slot then q.withKey key else q) = _
  rw [hrows, List.map_append, List.map_cons, if_pos rfl, hdone, hrest, List.append_assoc]
  rfl

theorem pendingRows_cons_destroyed
    {r : VersionRow} {rows : List VersionRow}
    (hd : r.state = .destroyed) :
    pendingRows (r :: rows) = pendingRows rows := by
  simp [pendingRows, hd]

theorem pendingRows_cons_live
    {r : VersionRow} {rows : List VersionRow} {pending : List RewrapRow}
    (hd : r.state ≠ .destroyed) :
    pendingRows (r :: rows) = .ok pending ↔
      ∃ row rest, r.pending = .ok row ∧ pendingRows rows = .ok rest ∧ row :: rest = pending := by
  unfold pendingRows
  rw [List.filter_cons_of_pos (by simpa using hd), List.mapM_cons, bind_eq_ok]
  simp only [bind_eq_ok]
  constructor
  · rintro ⟨row, hrow, rest, hrest, h⟩
    cases h
    exact ⟨row, rest, hrow, hrest, rfl⟩
  · rintro ⟨row, rest, hrow, hrest, rfl⟩
    exact ⟨row, hrow, rest, hrest, rfl⟩

/-- The loop over the rows read beforehand rewrites them where they stand. -/
theorem rekeyLoop_rows
    {rows done : List VersionRow} {tx tx' : Store} {i n : Nat} {pending : List RewrapRow}
    (hrows : tx.versions.rows = done ++ rows)
    (hpending : pendingRows rows = .ok pending)
    (h : rekeyLoop rewrap i tx pending = .ok (tx', n)) :
    (∃ rows', rewrapRows rewrap i rows = .ok rows' ∧ tx'.versions.rows = done ++ rows') ∧
      tx.SameButVersions tx' ∧ n = i + liveCount rows := by
  induction rows generalizing done tx i pending with
  | nil =>
      cases hpending
      cases h
      exact ⟨⟨[], rfl, hrows⟩, ⟨rfl, rfl, rfl, rfl⟩, by simp⟩
  | cons r rows ih =>
      by_cases hd : r.state = .destroyed
      · rw [pendingRows_cons_destroyed hd] at hpending
        have hrows' : tx.versions.rows = (done ++ [r]) ++ rows := by simpa using hrows
        obtain ⟨⟨rows', hloop, hfinal⟩, hsame, hn⟩ := ih hrows' hpending h
        refine ⟨⟨r :: rows', ?_, by simpa using hfinal⟩, hsame, ?_⟩
        · simp only [rewrapRows, if_pos hd]
          exact bind_eq_ok.mpr ⟨rows', hloop, rfl⟩
        · rw [hn, liveCount_cons_destroyed hd]
      · obtain ⟨row, rest, hrow, hrest, rfl⟩ := (pendingRows_cons_live hd).mp hpending
        obtain ⟨key, hkey, h⟩ := bind_eq_ok.mp h
        obtain ⟨key', hkey', h⟩ := bind_eq_ok.mp h
        have hslot := pending_slot hrow
        have hupdated := updateKey_rows key' hrows
        rw [hslot] at h
        obtain ⟨⟨rows', hloop, hfinal⟩, hsame, hn⟩ := ih hupdated hrest h
        refine ⟨⟨r.withKey key' :: rows', ?_, by simpa using hfinal⟩,
          ⟨hsame.secrets, hsame.tags, hsame.secretTags, hsame.sealedMasterKey⟩, ?_⟩
        · have hread : r.wrappedKey = .ok key := by
            rw [← pending_key]
            exact bind_eq_ok.mpr ⟨row, hrow, hkey⟩
          have hbinding : (⟨row.secretId, row.version.get⟩ : VersionBinding) = r.binding := by
            obtain ⟨hid, hver⟩ := Prod.mk.inj hslot
            rw [hid, hver]
            rfl
          rw [hbinding] at hkey'
          simp only [rewrapRows, if_neg hd]
          refine bind_eq_ok.mpr ⟨r.withKey key', ?_, bind_eq_ok.mpr ⟨rows', hloop, rfl⟩⟩
          exact bind_eq_ok.mpr ⟨key, hread, bind_eq_ok.mpr ⟨key', hkey', rfl⟩⟩
        · rw [hn, liveCount_cons_live hd]
          omega

/-- Where the rewriting in place succeeds, so does the loop. -/
theorem rekeyLoop_isOk
    {rows rows' done : List VersionRow} {tx : Store} {i : Nat}
    (hrows : tx.versions.rows = done ++ rows)
    (h : rewrapRows rewrap i rows = .ok rows') :
    ∃ pending out, pendingRows rows = .ok pending ∧ rekeyLoop rewrap i tx pending = .ok out := by
  induction rows generalizing done tx i rows' with
  | nil =>
      exact ⟨[], (tx, i), rfl, rfl⟩
  | cons r rows ih =>
      by_cases hd : r.state = .destroyed
      · simp only [rewrapRows, if_pos hd] at h
        obtain ⟨rest, hrest, -⟩ := bind_eq_ok.mp h
        have hrows' : tx.versions.rows = (done ++ [r]) ++ rows := by simpa using hrows
        rw [pendingRows_cons_destroyed hd]
        exact ih hrows' hrest
      · simp only [rewrapRows, if_neg hd] at h
        obtain ⟨r', hr', h⟩ := bind_eq_ok.mp h
        obtain ⟨rest, hrest, -⟩ := bind_eq_ok.mp h
        obtain ⟨key, key', hkey, hkey', rfl⟩ := rewrapRow_eq_ok hr'
        rw [← pending_key] at hkey
        obtain ⟨row, hrow, hkey⟩ := bind_eq_ok.mp hkey
        have hslot := pending_slot hrow
        have hbinding : (⟨row.secretId, row.version.get⟩ : VersionBinding) = r.binding := by
          obtain ⟨hid, hver⟩ := Prod.mk.inj hslot
          rw [hid, hver]
          rfl
        obtain ⟨pending, out, hpending, hout⟩ := ih (updateKey_rows key' hrows) hrest
        refine ⟨row :: pending, out,
          (pendingRows_cons_live hd).mpr ⟨row, pending, hrow, hpending, rfl⟩, ?_⟩
        rw [← hbinding] at hkey'
        rw [← hslot] at hout
        exact bind_eq_ok.mpr ⟨key, hkey, bind_eq_ok.mpr ⟨key', hkey', hout⟩⟩

theorem Store.ext_tables
    {st st' : Store}
    (hsecrets : st.secrets = st'.secrets)
    (hversions : st.versions.rows = st'.versions.rows)
    (htags : st.tags = st'.tags)
    (hlinks : st.secretTags = st'.secretTags)
    (hkey : st.sealedMasterKey = st'.sealedMasterKey) :
    st = st' := by
  have hversions := Table.ext_rows hversions
  cases st
  cases st'
  cases hsecrets
  cases hversions
  cases htags
  cases hlinks
  cases hkey
  rfl

/-- What a rotation that goes through does, statement by statement. -/
theorem rekeyTransaction_eq_ok
    {st tx : Store} {sealed : SealedMasterKey} {report : RekeyReport}
    (h : rekeyTransaction st sealed rewrap = .ok (tx, report)) :
    rewrapRows rewrap 0 st.versions.rows = .ok tx.versions.rows ∧
      tx.secrets = st.secrets ∧ tx.tags = st.tags ∧ tx.secretTags = st.secretTags ∧
      tx.sealedMasterKey = some sealed.toBytes ∧
      report = ⟨liveCount st.versions.rows, sealed.generation⟩ := by
  obtain ⟨pending, hpending, h⟩ := bind_eq_ok.mp h
  obtain ⟨⟨mid, n⟩, hloop, h⟩ := bind_eq_ok.mp h
  cases h
  have hstart : st.versions.rows = [] ++ st.versions.rows := rfl
  obtain ⟨⟨rows', hrewrap, hrows⟩, hsame, hn⟩ := rekeyLoop_rows hstart hpending hloop
  have hrows : mid.versions.rows = rows' := hrows
  refine ⟨?_, hsame.secrets, hsame.tags, hsame.secretTags, rfl, ?_⟩
  · rw [hrewrap, ← hrows]
    rfl
  · rw [hn, Nat.zero_add]

/-- The transaction and the rewriting in place come to the same. -/
theorem rekeyTransaction_eq
    {st : Store} {sealed : SealedMasterKey} {out : Store × RekeyReport} :
    rekeyTransaction st sealed rewrap = .ok out ↔ rekeyWith st sealed rewrap = .ok out := by
  have hagree : ∀ {a b : Store × RekeyReport}, rekeyTransaction st sealed rewrap = .ok a →
      rekeyWith st sealed rewrap = .ok b → a = b := by
    rintro ⟨tx, report⟩ ⟨tx', report'⟩ ha hb
    obtain ⟨hrows, hsecrets, htags, hlinks, hkey, rfl⟩ := rekeyTransaction_eq_ok ha
    unfold rekeyWith at hb
    split at hb
    · cases hb
    · rename_i rows hrows'
      cases hb
      rw [hrows] at hrows'
      cases hrows'
      exact Prod.ext (Store.ext_tables hsecrets rfl htags hlinks hkey) rfl
  obtain ⟨after, report⟩ := out
  constructor
  · intro h
    have hok : ∃ b, rekeyWith st sealed rewrap = .ok b := by
      have hrows := (rekeyTransaction_eq_ok h).1
      unfold rekeyWith
      split
      · rename_i e herr
        rw [hrows] at herr
        cases herr
      · exact ⟨_, rfl⟩
    obtain ⟨b, hb⟩ := hok
    rw [hagree h hb]
    exact hb
  · intro h
    have hrows := (rekeyWith_eq_ok h).1
    have hstart : st.versions.rows = [] ++ st.versions.rows := rfl
    obtain ⟨pending, ⟨tx, n⟩, hpending, hloop⟩ := rekeyLoop_isOk hstart hrows
    have hok : rekeyTransaction st sealed rewrap = .ok _ :=
      bind_eq_ok.mpr ⟨pending, hpending, bind_eq_ok.mpr ⟨_, hloop, rfl⟩⟩
    rw [hok, hagree hok h]

end Loop

section Migration

variable (P : Primitives) (draws : Nat → Option Nonce) (old new : MasterKey)
variable (generation : UInt32)

/-- The call of the AEAD that rewraps one row, if its callback gets that far. -/
def rewrapCall (i : Nat) (r : VersionRow) : Option Call :=
  match draws i, r.wrappedKey >>= fun key => liftCrypto (key.openKey P old r.binding) with
  | some n, .ok dek => some ⟨new.raw, n, r.binding.wrapAad generation, dek.raw.toList⟩
  | _, _ => none

/-- The calls of the AEAD that a rotation makes, from the `i`-th call of its callback on. -/
def rewrapCalls : Nat → List VersionRow → List Call
  | _, [] => []
  | i, r :: rows =>
      if r.state = .destroyed then rewrapCalls i rows
      else (rewrapCall P draws old new generation i r).toList ++ rewrapCalls (i + 1) rows

/-- What became of one row: its data key is wrapped anew, unless it was destroyed before. -/
structure Migrated (calls : List Call) (r r' : VersionRow) : Prop where
  destroyed : r.state = .destroyed → r' = r
  rewrapped : r.state ≠ .destroyed → ∃ key, r' = r.withKey key ∧
    ∃ call ∈ calls, call.key = new.raw ∧ key.wrappedDek = call.output P
  opens : r.state ≠ .destroyed → ∀ s, r.Holds s →
    ∃ s', r'.Holds s' ∧ s'.openAt P new r'.binding = s.openAt P old r.binding

variable {P draws old new generation}

theorem rewrapCall_of_ok
    {i : Nat} {r : VersionRow} {key key' : WrappedKey}
    (hkey : r.wrappedKey = .ok key)
    (hkey' : rewrapWith P draws old new generation i r.binding key = .ok key') :
    ∃ call, rewrapCall P draws old new generation i r = some call ∧ call.key = new.raw ∧
      key'.wrappedDek = call.output P := by
  obtain ⟨dek, hdek, hseal⟩ := bind_eq_ok.mp (liftCrypto_eq_ok.mp hkey')
  obtain ⟨sealed, hsealed, heq⟩ := bind_eq_ok.mp hseal
  obtain ⟨n, hn, rfl⟩ := aeadSeal_eq_ok.mp hsealed
  cases heq
  refine ⟨⟨new.raw, n, r.binding.wrapAad generation, dek.raw.toList⟩, ?_, rfl, rfl⟩
  simp [rewrapCall, hn, hkey, hdek, bind, Except.bind, liftCrypto, Except.mapError]

theorem rewrapRows_migrated
    (hP : AeadCorrect P)
    {rows rows' : List VersionRow} {i : Nat} {calls : List Call}
    (hcalls : rewrapCalls P draws old new generation i rows ⊆ calls)
    (h : rewrapRows (rewrapWith P draws old new generation) i rows = .ok rows') :
    List.Forall₂ (Migrated P old new calls) rows rows' := by
  induction rows generalizing i rows' with
  | nil =>
      cases h
      exact .nil
  | cons r rows ih =>
      by_cases hd : r.state = .destroyed
      · simp only [rewrapRows, if_pos hd] at h
        simp only [rewrapCalls, if_pos hd] at hcalls
        obtain ⟨rest, hrest, h⟩ := bind_eq_ok.mp h
        cases h
        refine .cons ⟨fun _ => rfl, ?_, ?_⟩ (ih hcalls hrest)
        · exact fun hlive => absurd hd hlive
        · exact fun hlive => absurd hd hlive
      · simp only [rewrapRows, if_neg hd] at h
        simp only [rewrapCalls, if_neg hd, List.append_subset] at hcalls
        obtain ⟨r', hr', h⟩ := bind_eq_ok.mp h
        obtain ⟨rest, hrest, h⟩ := bind_eq_ok.mp h
        cases h
        obtain ⟨key, key', hkey, hkey', rfl⟩ := rewrapRow_eq_ok hr'
        obtain ⟨call, hcall, hnew, hout⟩ := rewrapCall_of_ok hkey hkey'
        have hmem : call ∈ calls := hcalls.1 (by simp [hcall])
        refine .cons ⟨fun hd' => absurd hd' hd, ?_, ?_⟩ (ih hcalls.2 hrest)
        · exact fun _ => ⟨key', rfl, call, hmem, hnew, hout⟩
        · intro _ s hs
          rw [VersionRow.wrappedKey_of_holds hs] at hkey
          cases hkey
          refine ⟨{ s with key := key' }, hs.withKey key', ?_⟩
          exact SealedVersion.open_rewrap hP (liftCrypto_eq_ok.mp hkey')

/-- What was wrapped under another key does not open under the old one. -/
theorem Migrated.closed
    {calls : List Call} {r r' : VersionRow}
    (h : Migrated P old new calls r r')
    (hcommitting : Committing P [old.raw] calls)
    (hne : new ≠ old)
    (hlive : r.state ≠ .destroyed) {s' : SealedVersion}
    (hs' : r'.Holds s') (binding : VersionBinding) :
    s'.openAt P old binding = .error .decrypt := by
  obtain ⟨key, rfl, call, hcall, hkey, hout⟩ := h.rewrapped hlive
  have hwrapped : s'.key.wrappedDek = call.output P := by
    have hcolumn : some key.wrappedDek = some s'.key.wrappedDek := hs'.2.2.2.1
    rw [← hout]
    exact (Option.some.inj hcolumn).symm
  have hnone : P.decrypt old.raw s'.key.dekNonce (binding.wrapAad s'.key.mkGeneration)
      s'.key.wrappedDek = none := by
    rw [hwrapped]
    cases hdec : P.decrypt old.raw s'.key.dekNonce (binding.wrapAad s'.key.mkGeneration)
        (call.output P) with
    | none => rfl
    | some m =>
        obtain ⟨heq, -⟩ := hcommitting call hcall old.raw (by simp) _ _ m hdec
        rw [hkey] at heq
        cases old
        cases new
        exact absurd (congrArg MasterKey.mk heq.symm) hne
  simp [SealedVersion.openAt, WrappedKey.openKey, aeadOpen, hnone, bind, Except.bind]

/-- A transaction that fails leaves the tables as they were. -/
theorem Tables.rekeyWith_error
    {tables tables' : Tables} {sealed : SealedMasterKey} {callback : Rewrap} {e : StoreError}
    (h : tables.rekeyWith sealed callback = (tables', .error e)) :
    tables' = tables := by
  unfold Tables.rekeyWith at h
  split at h
  · cases h
  · cases h
    rfl

/-- A row that the callback refuses fails the transaction. -/
theorem Tables.rekeyWith_refused
    {tables : Tables} (sealed : SealedMasterKey) {callback : Rewrap} {r : VersionRow}
    (hr : r ∈ tables.store.versions.rows)
    (hlive : r.state ≠ .destroyed)
    (hrefused : ∀ i key, ∃ e, callback i r.binding key = .error e) :
    ∃ e, tables.rekeyWith sealed callback = (tables, .error e) := by
  unfold Tables.rekeyWith
  split
  · rename_i tx report htx
    obtain ⟨hrows, -⟩ := rekeyTransaction_eq_ok htx
    obtain ⟨r', -, hrel⟩ := forall₂_mem_left (rewrapRows_forall₂ hrows) hr
    rcases hrel with ⟨hd, -⟩ | ⟨-, i, hrow⟩
    · exact absurd hd hlive
    · obtain ⟨key, key', -, hkey', -⟩ := rewrapRow_eq_ok hrow
      obtain ⟨e, he⟩ := hrefused i key
      rw [he] at hkey'
      cases hkey'
  · rename_i e htx
    exact ⟨e, rfl⟩

/--
A rotation with `WrappedKey::rewrap` on a store whose versions open under `old`.
If it returns a report, then every version that is not destroyed keeps all its
columns but the wrapped key and opens under `new` to what it opened to before,
and no longer under `old` if the keys differ; destroyed rows, secrets with their
current pointers, tags, tokens and policies are as before; the sealed master key
is the new one; and the report counts the versions that are not destroyed.  With
any callback, a rotation that returns an error leaves all tables as before, and a
callback that refuses a row makes it return one.
-/
theorem rekey_migrates
    (hP : AeadCorrect P)
    {tables : Tables} {sealed : SealedMasterKey}
    (hopen : tables.store.AllOpen P old)
    (hcommitting : Committing P [old.raw]
      (rewrapCalls P draws old new generation 0 tables.store.versions.rows)) :
    (∀ tables' report,
      tables.rekeyWith sealed (rewrapWith P draws old new generation) =
        (tables', .ok report) →
      List.Forall₂ (fun r r' =>
          (r.state = .destroyed → r' = r) ∧
          (r.state ≠ .destroyed →
            (∃ key, r' = r.withKey key) ∧
            (∃ s s' x, r.Holds s ∧ r'.Holds s' ∧ s.openAt P old r.binding = .ok x ∧
              s'.openAt P new r'.binding = .ok x) ∧
            (new ≠ old → ∀ s', r'.Holds s' →
              s'.openAt P old r'.binding = .error .decrypt)))
        tables.store.versions.rows tables'.store.versions.rows ∧
      tables'.store.secrets = tables.store.secrets ∧
      tables'.store.tags = tables.store.tags ∧
      tables'.store.secretTags = tables.store.secretTags ∧
      tables'.access = tables.access ∧
      tables'.store.sealedMasterKey = some sealed.toBytes ∧
      report.versionsRewrapped =
        tables.store.versions.rows.countP (fun r => decide (r.state ≠ .destroyed))) ∧
    (∀ callback tables' e,
      tables.rekeyWith sealed callback = (tables', .error e) → tables' = tables) ∧
    ∀ callback, ∀ r ∈ tables.store.versions.rows, r.state ≠ .destroyed →
      (∀ i key, ∃ e, callback i r.binding key = .error e) →
      ∃ e, tables.rekeyWith sealed callback = (tables, .error e) := by
  refine ⟨?_, fun callback tables' e h => Tables.rekeyWith_error h, ?_⟩
  · intro tables' report h
    unfold Tables.rekeyWith at h
    split at h
    · rename_i tx report htx
      cases h
      obtain ⟨hrows, hsecrets, htags, hlinks, hkey, rfl⟩ := rekeyTransaction_eq_ok htx
      refine ⟨?_, hsecrets, htags, hlinks, rfl, hkey, rfl⟩
      have hmigrated := rewrapRows_migrated hP (List.Subset.refl _) hrows
      refine List.forall₂_iff_zip.mpr ⟨hmigrated.length_eq, ?_⟩
      intro r r' hzip
      have hrow := (List.forall₂_iff_zip.mp hmigrated).2 hzip
      have hr : r ∈ tables.store.versions.rows := (List.of_mem_zip hzip).1
      refine ⟨hrow.destroyed, ?_⟩
      intro hlive
      obtain ⟨key, heq, -⟩ := hrow.rewrapped hlive
      obtain ⟨s, x, hs, hx⟩ := hopen r hr hlive
      obtain ⟨s', hs', hx'⟩ := hrow.opens hlive s hs
      refine ⟨⟨key, heq⟩, ⟨s, s', x, hs, hs', hx, hx'.trans hx⟩, ?_⟩
      intro hne s' hs'
      exact hrow.closed hcommitting hne hlive hs' r'.binding
    · cases h
  · intro callback r hr hlive hrefused
    exact Tables.rekeyWith_refused sealed hr hlive hrefused

/-- A vault with one version in it. -/
def writtenVault : Vault :=
  VaultOp.step openPrimitives sampleVault
    (.write samplePath (sampleUuid 5) (sampleTime 100) sampleDraws [1, 2, 3]
      ⟨none, none⟩ (sampleTime 100))

theorem writtenVault_allOpen :
    writtenVault.store.AllOpen openPrimitives ⟨sampleKey 1⟩ := by
  have hsound : Store.empty.Inv ∧ Store.empty.AllOpen openPrimitives ⟨sampleKey 1⟩ :=
    Store.sound_of_no_secrets rfl
  exact Vault.allOpen_step openPrimitives_correct sampleVault hsound.2 _

def sampleSealedMaster : SealedMasterKey where
  kind := .keyfile
  generation := 2
  nonce := sampleNonce 0
  ciphertext := [1]

/-- The tables of that vault after a rotation to the key number `n`. -/
def rotatedTables (n : Nat) : Tables × Except StoreError RekeyReport :=
  Tables.rekeyWith ⟨writtenVault.store, Access.empty⟩ sampleSealedMaster
    (rewrapWith openPrimitives (fun i => some (sampleNonce (20 + i))) ⟨sampleKey 1⟩
      ⟨sampleKey n⟩ 2)

/-- A rotation to another key. -/
theorem rekey_migrates_sample :
    ∃ tables' report, rotatedTables 2 = (tables', .ok report) ∧
      report.versionsRewrapped = 1 ∧
      ∃ r' ∈ tables'.store.versions.rows, ∃ s' x, r'.Holds s' ∧
        s'.openAt openPrimitives ⟨sampleKey 2⟩ r'.binding = .ok x ∧
        s'.openAt openPrimitives ⟨sampleKey 1⟩ r'.binding = .error .decrypt := by
  have hrun : (rotatedTables 2).2.isOk = true ∧
      writtenVault.store.versions.rows.map VersionRow.state = [.active] := by
    decide +kernel
  obtain ⟨hok, hstates⟩ := hrun
  obtain ⟨tables', result, hrotated⟩ : ∃ t x, rotatedTables 2 = (t, x) :=
    ⟨_, _, Prod.mk.eta.symm⟩
  rw [hrotated] at hok
  obtain ⟨report, rfl⟩ := exists_of_isOk hok
  obtain ⟨hrows, -, -, -, -, -, hcount⟩ :=
    (rekey_migrates openPrimitives_correct writtenVault_allOpen
      (openPrimitives_committing _ _)).1 tables' report hrotated
  refine ⟨tables', report, hrotated, ?_, ?_⟩
  · rw [hcount]
    decide +kernel
  · obtain ⟨r, hr, hactive⟩ := List.mem_map.mp
      (show VersionState.active ∈ writtenVault.store.versions.rows.map VersionRow.state by
        simp [hstates])
    obtain ⟨r', hr', -, hrow⟩ := forall₂_mem_left hrows hr
    obtain ⟨-, ⟨s, s', x, -, hs', -, hx⟩, hclosed⟩ := hrow (by rw [hactive]; decide)
    exact ⟨r', hr', s', x, hs', hx, hclosed (by decide) s' hs'⟩

/-- A rotation to the key in use is carried out, and everything still opens under it. -/
theorem rekey_to_same_key :
    ∃ tables' report, rotatedTables 1 = (tables', .ok report) ∧
      ∃ r' ∈ tables'.store.versions.rows, r'.state ≠ .destroyed ∧
        ∃ s' x, r'.Holds s' ∧ s'.openAt openPrimitives ⟨sampleKey 1⟩ r'.binding = .ok x := by
  have hrun : (rotatedTables 1).2.isOk = true ∧
      (rotatedTables 1).1.store.versions.rows.map VersionRow.state = [.active] := by
    decide +kernel
  obtain ⟨hok, hstates⟩ := hrun
  obtain ⟨tables', result, hrotated⟩ : ∃ t x, rotatedTables 1 = (t, x) :=
    ⟨_, _, Prod.mk.eta.symm⟩
  rw [hrotated] at hok hstates
  obtain ⟨report, rfl⟩ := exists_of_isOk hok
  refine ⟨tables', report, hrotated, ?_⟩
  have hopen : tables'.store.AllOpen openPrimitives ⟨sampleKey 1⟩ := by
    unfold rotatedTables Tables.rekeyWith at hrotated
    split at hrotated
    · rename_i tx report' htx
      cases hrotated
      exact allOpen_rekeyWith openPrimitives_correct writtenVault_allOpen
        (rekeyTransaction_eq.mp htx)
    · cases hrotated
  obtain ⟨r', hr', hactive⟩ := List.mem_map.mp
    (show VersionState.active ∈ tables'.store.versions.rows.map VersionRow.state by
      simp [hstates])
  have hlive : r'.state ≠ .destroyed := by
    rw [hactive]
    decide
  exact ⟨r', hr', hlive, hopen r' hr' hlive⟩

end Migration

end Storage
end Secretbae
