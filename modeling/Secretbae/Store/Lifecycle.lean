import Secretbae.Store.Invariant
import Secretbae.Lib.Runs

/-!
# The life of a version

A `Vault` is a store with the master key its versions are sealed under.  Rows
are never removed and never renamed; `Evolves` is what can happen to one row
between two states of a vault, and `Vault.le` extends it to all rows.  One
lemma for each operation shows that a step moves a vault up in this preorder
(`le_step`), so whole runs do too.

`version_lifecycle` reads off what this means for a version from the moment it
is written.
-/

namespace Secretbae
namespace Storage

open Lib Proto Core

/-- A store and the master key in use. -/
structure Vault where
  store : Store
  master : MasterKey
  generation : UInt32

/-- Position in the lifecycle: active, deleted, destroyed. -/
def VersionState.rank : VersionState → Nat
  | .active => 0
  | .deleted => 1
  | .destroyed => 2

/-- `begin_write`, `seal` under the current master key, `commit`. -/
def Vault.write (P : Primitives) (vault : Vault) (path : SecretPath) (freshId : Uuid)
    (began : UnixTime) (draws : SealDraws) (plaintext : Bytes) (info : WriteMeta)
    (now : UnixTime) : Except StoreError (Vault × Version) := do
  let slot ← beginWrite vault.store path freshId began
  let sealed ←
    liftCrypto
      (SealedVersion.seal P draws vault.master vault.generation slot.binding plaintext)
  let (store, version) ← slot.commit sealed info now
  .ok ({ vault with store := store }, version)

/-- The callback that moves data keys from `old` to `new` with `WrappedKey::rewrap`. -/
def rewrapWith (P : Primitives) (draws : Nat → Option Nonce) (old new : MasterKey)
    (generation : UInt32) : Rewrap :=
  fun i binding key => liftCrypto (key.rewrap P (draws i) old new generation binding)

/-- A rotation to the key sealed in `newSealedMaster`. -/
def Vault.rotate (P : Primitives) (vault : Vault) (successor : MasterKey)
    (newSealedMaster : SealedMasterKey) (draws : Nat → Option Nonce) :
    Except StoreError Vault := do
  let generation := newSealedMaster.generation
  let (store, _) ←
    rekeyWith vault.store newSealedMaster
      (rewrapWith P draws vault.master successor generation)
  .ok { store, master := successor, generation }

/-- Read an exact version and open it under the current master key. -/
def Vault.openExact (P : Primitives) (vault : Vault) (path : SecretPath)
    (version : Version) : Except StoreError Bytes := do
  let stored ← readVersion vault.store path (.exact version)
  liftCrypto (stored.sealed.openAt P vault.master stored.binding)

inductive VaultOp where
  | write (path : SecretPath) (freshId : Uuid) (began : UnixTime) (draws : SealDraws)
      (plaintext : Bytes) (info : WriteMeta) (now : UnixTime)
  | rollback (path : SecretPath) (target : Version) (now : UnixTime)
  | deleteVersion (path : SecretPath) (selector : VersionSelector) (mode : DeleteMode)
      (now : UnixTime)
  | addTags (path : SecretPath) (tags : List Tag) (now : UnixTime)
  | removeTags (path : SecretPath) (selectors : List TagSelector) (now : UnixTime)
  | rotate (successor : MasterKey) (newSealedMaster : SealedMasterKey)
      (draws : Nat → Option Nonce)

/-- The vault after an operation, successful or not. -/
def VaultOp.step (P : Primitives) (vault : Vault) : VaultOp → Vault
  | .write path freshId began draws plaintext info now =>
      match vault.write P path freshId began draws plaintext info now with
      | .ok (vault', _) => vault'
      | .error _ => vault
  | .rollback path target now =>
      match Storage.rollback vault.store path target now with
      | .ok store => { vault with store := store }
      | .error _ => vault
  | .deleteVersion path selector mode now =>
      match Storage.deleteVersion vault.store path selector mode now with
      | .ok (store, _) => { vault with store := store }
      | .error _ => vault
  | .addTags path tags now =>
      match Storage.addTags vault.store path tags now with
      | .ok store => { vault with store := store }
      | .error _ => vault
  | .removeTags path selectors now =>
      match Storage.removeTags vault.store path selectors now with
      | .ok store => { vault with store := store }
      | .error _ => vault
  | .rotate successor newSealedMaster draws =>
      match vault.rotate P successor newSealedMaster draws with
      | .ok vault' => vault'
      | .error _ => vault

/-- The operations of a vault that succeed. -/
inductive Vault.Does (P : Primitives) (vault : Vault) : Vault → Prop
  | write
      {path : SecretPath} {freshId : Uuid} {began now : UnixTime} {draws : SealDraws}
      {plaintext : Bytes} {info : WriteMeta} {vault' : Vault} {v : Version}
      (h : vault.write P path freshId began draws plaintext info now = .ok (vault', v)) :
      Does P vault vault'
  | rollback
      {path : SecretPath} {target : Version} {now : UnixTime} {store : Store}
      (h : Storage.rollback vault.store path target now = .ok store) :
      Does P vault { vault with store := store }
  | deleteVersion
      {path : SecretPath} {selector : VersionSelector} {mode : DeleteMode} {now : UnixTime}
      {store : Store} {v : Version}
      (h : Storage.deleteVersion vault.store path selector mode now = .ok (store, v)) :
      Does P vault { vault with store := store }
  | addTags
      {path : SecretPath} {tags : List Tag} {now : UnixTime} {store : Store}
      (h : Storage.addTags vault.store path tags now = .ok store) :
      Does P vault { vault with store := store }
  | removeTags
      {path : SecretPath} {selectors : List TagSelector} {now : UnixTime} {store : Store}
      (h : Storage.removeTags vault.store path selectors now = .ok store) :
      Does P vault { vault with store := store }
  | rotate
      {successor : MasterKey} {newSealedMaster : SealedMasterKey} {draws : Nat → Option Nonce}
      {vault' : Vault}
      (h : vault.rotate P successor newSealedMaster draws = .ok vault') :
      Does P vault vault'

/-- What holds of a vault, and after every operation that succeeds, holds after every operation. -/
theorem VaultOp.step_of_does
    {P : Primitives} {vault : Vault} {motive : Vault → Prop}
    (hsame : motive vault)
    (hdoes : ∀ vault', vault.Does P vault' → motive vault') (op : VaultOp) :
    motive (op.step P vault) := by
  cases op with
  | write path freshId began draws plaintext info now =>
      simp only [VaultOp.step]
      split
      · rename_i vault' v hwrite
        exact hdoes _ (.write hwrite)
      · exact hsame
  | rollback path target now =>
      simp only [VaultOp.step]
      split
      · rename_i store hroll
        exact hdoes _ (.rollback hroll)
      · exact hsame
  | deleteVersion path selector mode now =>
      simp only [VaultOp.step]
      split
      · rename_i store v hdel
        exact hdoes _ (.deleteVersion hdel)
      · exact hsame
  | addTags path tags now =>
      simp only [VaultOp.step]
      split
      · rename_i store hadd
        exact hdoes _ (.addTags hadd)
      · exact hsame
  | removeTags path selectors now =>
      simp only [VaultOp.step]
      split
      · rename_i store hremove
        exact hdoes _ (.removeTags hremove)
      · exact hsame
  | rotate successor newSealedMaster draws =>
      simp only [VaultOp.step]
      split
      · rename_i vault' hrotate
        exact hdoes _ (.rotate hrotate)
      · exact hsame

/-- What can happen to a row while the master key moves from `m` to `m'`. -/
structure Evolves (P : Primitives) (m m' : MasterKey) (r r' : VersionRow) : Prop where
  slot : r'.slot = r.slot
  createdAt : r'.createdAt = r.createdAt
  createdBy : r'.createdBy = r.createdBy
  comment : r'.comment = r.comment
  forward : VersionState.rank r.state ≤ VersionState.rank r'.state
  opens : r'.state ≠ .destroyed → ∀ s, r.Holds s →
    ∃ s', r'.Holds s' ∧ s'.openAt P m' r.binding = s.openAt P m r.binding

/-- `w` is a later state of `v`. -/
structure Vault.le (P : Primitives) (v w : Vault) : Prop where
  secrets : ∀ path s, v.store.secretByPath path = some s →
    ∃ s', w.store.secretByPath path = some s' ∧ s'.id = s.id
  rows : ∀ r ∈ v.store.versions.rows,
    ∃ r' ∈ w.store.versions.rows, Evolves P v.master w.master r r'

section Preorder

variable {P : Primitives}

theorem rank_lt_destroyed
    {s : VersionState} :
    VersionState.rank s < 2 ↔ s ≠ .destroyed := by
  cases s <;> simp [VersionState.rank]

theorem rank_eq_zero
    {s : VersionState} :
    VersionState.rank s = 0 ↔ s = .active := by
  cases s <;> simp [VersionState.rank]

theorem Evolves.refl
    (m : MasterKey) (r : VersionRow) :
    Evolves P m m r r :=
  ⟨rfl, rfl, rfl, rfl, le_rfl, fun _ s hs => ⟨s, hs, rfl⟩⟩

theorem VersionRow.binding_of_slot
    {r r' : VersionRow}
    (h : r'.slot = r.slot) :
    r'.binding = r.binding := by
  have hid : r'.secretId = r.secretId := congrArg Prod.fst h
  have hver : r'.version = r.version := congrArg Prod.snd h
  simp [VersionRow.binding, hid, hver]

theorem Evolves.trans
    {m m' m'' : MasterKey} {r r' r'' : VersionRow}
    (h : Evolves P m m' r r')
    (h' : Evolves P m' m'' r' r'') :
    Evolves P m m'' r r'' where
  slot := h'.slot.trans h.slot
  createdAt := h'.createdAt.trans h.createdAt
  createdBy := h'.createdBy.trans h.createdBy
  comment := h'.comment.trans h.comment
  forward := h.forward.trans h'.forward
  opens := by
    intro hlive s hs
    have hlive' : r'.state ≠ .destroyed := by
      rw [← rank_lt_destroyed] at hlive ⊢
      exact lt_of_le_of_lt h'.forward hlive
    obtain ⟨s', hs', hopen⟩ := h.opens hlive' s hs
    obtain ⟨s'', hs'', hopen'⟩ := h'.opens hlive s' hs'
    rw [VersionRow.binding_of_slot h.slot] at hopen'
    exact ⟨s'', hs'', hopen'.trans hopen⟩

theorem Vault.le_refl
    (v : Vault) :
    v.le P v :=
  ⟨fun _ s hs => ⟨s, hs, rfl⟩, fun r hr => ⟨r, hr, Evolves.refl _ r⟩⟩

theorem Vault.le_trans
    (u v w : Vault)
    (huv : u.le P v)
    (hvw : v.le P w) :
    u.le P w where
  secrets := by
    intro path s hs
    obtain ⟨s', hs', hid⟩ := huv.secrets path s hs
    obtain ⟨s'', hs'', hid'⟩ := hvw.secrets path s' hs'
    exact ⟨s'', hs'', hid'.trans hid⟩
  rows := by
    intro r hr
    obtain ⟨r', hr', hev⟩ := huv.rows r hr
    obtain ⟨r'', hr'', hev'⟩ := hvw.rows r' hr'
    exact ⟨r'', hr'', hev.trans hev'⟩

theorem evolves_destroy
    (m : MasterKey) (r : VersionRow) :
    Evolves P m m r r.destroy where
  slot := rfl
  createdAt := rfl
  createdBy := rfl
  comment := rfl
  forward := by
    show VersionState.rank r.state ≤ 2
    cases r.state <;> simp [VersionState.rank]
  opens := fun hlive => absurd rfl hlive

theorem VersionRow.softDelete_blobs
    (r : VersionRow) :
    r.softDelete.nonce = r.nonce ∧ r.softDelete.ciphertext = r.ciphertext ∧
      r.softDelete.dekNonce = r.dekNonce ∧ r.softDelete.wrappedDek = r.wrappedDek ∧
      r.softDelete.mkGeneration = r.mkGeneration := by
  unfold VersionRow.softDelete
  split <;> exact ⟨rfl, rfl, rfl, rfl, rfl⟩

theorem evolves_softDelete
    (m : MasterKey) (r : VersionRow) :
    Evolves P m m r r.softDelete where
  slot := r.softDelete_slot
  createdAt := by
    unfold VersionRow.softDelete
    split <;> rfl
  createdBy := by
    unfold VersionRow.softDelete
    split <;> rfl
  comment := by
    unfold VersionRow.softDelete
    split <;> rfl
  forward := by
    unfold VersionRow.softDelete
    split
    · rename_i hactive
      rw [rank_eq_zero.mpr hactive]
      exact Nat.zero_le _
    · exact le_rfl
  opens := by
    intro _ s hs
    obtain ⟨h1, h2, h3, h4, h5⟩ := r.softDelete_blobs
    refine ⟨s, ?_, rfl⟩
    unfold VersionRow.Holds
    rw [h1, h2, h3, h4, h5]
    exact hs

theorem evolves_delete
    (m : MasterKey) (mode : DeleteMode) (r : VersionRow) :
    Evolves P m m r (mode.apply r) := by
  cases mode with
  | soft => exact evolves_softDelete m r
  | destroy => exact evolves_destroy m r

end Preorder

section Steps

variable {P : Primitives}

/-- A statement that maps secrets keeps them findable. -/
theorem secretByPath_map
    {st st' : Store} {f : SecretRow → SecretRow}
    (hf : ∀ s, (f s).id = s.id ∧ (f s).path = s.path)
    (hrows : ∀ s ∈ st.secrets.rows, f s ∈ st'.secrets.rows)
    (path : SecretPath) (s : SecretRow)
    (hs : st.secretByPath path = some s) :
    ∃ s', st'.secretByPath path = some s' ∧ s'.id = s.id := by
  obtain ⟨hmem, hpath⟩ := Store.secretByPath_eq_some_iff.mp hs
  refine ⟨f s, ?_, (hf s).1⟩
  exact Store.secretByPath_eq_some_iff.mpr ⟨hrows s hmem, (hf s).2.trans hpath⟩

theorem secretByPath_pointCurrent
    {st st' : Store} (id : Uuid) (current : Option Version) (at_ : Int64)
    (hsecrets : ∀ s ∈ st.secrets.rows, s ∈ st'.secrets.rows)
    (path : SecretPath) (s : SecretRow)
    (hs : st.secretByPath path = some s) :
    ∃ s', (st'.pointCurrent id current at_).secretByPath path = some s' ∧
      s'.id = s.id := by
  refine secretByPath_map
    (f := fun s =>
      if s.id = id then { s with currentVersion := current, updatedAt := at_ } else s)
    ?_ ?_ path s hs
  · intro s
    split <;> exact ⟨rfl, rfl⟩
  · intro s hs
    exact Store.mem_pointCurrent.mpr ⟨s, hsecrets s hs, rfl⟩

theorem le_touched
    {vault : Vault} {store : Store}
    (h : vault.store.Touched store) :
    vault.le P { vault with store := store } := by
  obtain ⟨f, hf, hsecrets, hversions, -⟩ := h
  refine ⟨?_, ?_⟩
  · refine secretByPath_map (f := f) (fun s => ⟨(hf s).1, (hf s).2.1⟩) ?_
    intro s hs
    rw [hsecrets]
    exact List.mem_map.mpr ⟨s, hs, rfl⟩
  · intro r hr
    exact ⟨r, by rw [hversions]; exact hr, Evolves.refl _ r⟩

theorem le_rollback
    {vault : Vault} {store : Store} {path : SecretPath} {target : Version} {now : UnixTime}
    (h : rollback vault.store path target now = .ok store) :
    vault.le P { vault with store := store } := by
  obtain ⟨s, r, -, -, -, -, rfl⟩ := rollback_eq_ok h
  exact ⟨secretByPath_pointCurrent _ _ _ (fun _ hs => hs), fun r hr => ⟨r, hr, Evolves.refl _ r⟩⟩

theorem le_deleteVersion
    {vault : Vault} {store : Store} {path : SecretPath} {selector : VersionSelector}
    {mode : DeleteMode} {now : UnixTime} {v : Version}
    (h : deleteVersion vault.store path selector mode now = .ok (store, v)) :
    vault.le P { vault with store := store } := by
  obtain ⟨s, -, rfl⟩ := deleteVersion_eq_ok h
  refine ⟨secretByPath_pointCurrent _ _ _ (fun _ hs => hs), ?_⟩
  intro r hr
  refine ⟨_, mem_removeVersion.mpr ⟨r, hr, rfl⟩, ?_⟩
  split
  · exact evolves_delete _ mode r
  · exact Evolves.refl _ r

/-- Everything a successful write of a vault does. -/
theorem Vault.write_eq_ok
    {vault vault' : Vault} {path : SecretPath} {freshId : Uuid} {began now : UnixTime}
    {draws : SealDraws} {plaintext : Bytes} {info : WriteMeta} {v : Version}
    (h : vault.write P path freshId began draws plaintext info now = .ok (vault', v)) :
    ∃ slot sealed,
      beginWrite vault.store path freshId began = .ok slot ∧
      SealedVersion.seal P draws vault.master vault.generation slot.binding plaintext =
        .ok sealed ∧
      slot.commit sealed info now = .ok (vault'.store, v) ∧
      vault'.master = vault.master ∧ vault'.generation = vault.generation := by
  obtain ⟨slot, hslot, h⟩ := bind_eq_ok.mp h
  obtain ⟨sealed, hsealed, h⟩ := bind_eq_ok.mp h
  obtain ⟨⟨store, version⟩, hcommit, h⟩ := bind_eq_ok.mp h
  cases h
  exact ⟨slot, sealed, hslot, liftCrypto_eq_ok.mp hsealed, hcommit, rfl, rfl⟩

/-- A write keeps every older row, possibly destroyed by retention. -/
theorem commit_rows
    {st st' : Store} {path : SecretPath} {freshId : Uuid} {began now : UnixTime}
    {slot : WriteSlot} {sealed : SealedVersion} {info : WriteMeta} {v : Version}
    (hbegin : beginWrite st path freshId began = .ok slot)
    (hcommit : slot.commit sealed info now = .ok (st', v))
    {r : VersionRow}
    (hr : r ∈ st.versions.rows) :
    r ∈ st'.versions.rows ∨ r.destroy ∈ st'.versions.rows := by
  obtain ⟨-, hversions, -⟩ := beginWrite_eq_ok hbegin
  obtain ⟨rfl, mid, hmid, rfl⟩ := WriteSlot.commit_eq_ok hcommit
  obtain ⟨-, hrows, -, -⟩ := Store.insertVersion_eq_ok hmid
  have hmem : r ∈ mid.versions.rows := by
    rw [hrows, hversions]
    exact List.mem_append_left _ hr
  exact mem_prune_or_destroy hmem

theorem commit_secrets
    {st st' : Store} {path : SecretPath} {freshId : Uuid} {began now : UnixTime}
    {slot : WriteSlot} {sealed : SealedVersion} {info : WriteMeta} {v : Version}
    (hbegin : beginWrite st path freshId began = .ok slot)
    (hcommit : slot.commit sealed info now = .ok (st', v))
    (p : SecretPath) (s : SecretRow)
    (hs : st.secretByPath p = some s) :
    ∃ s', st'.secretByPath p = some s' ∧ s'.id = s.id := by
  obtain ⟨-, -, hcase⟩ := beginWrite_eq_ok hbegin
  obtain ⟨rfl, mid, hmid, rfl⟩ := WriteSlot.commit_eq_ok hcommit
  obtain ⟨-, -, hsecrets, -⟩ := Store.insertVersion_eq_ok hmid
  have hold : ∀ s ∈ st.secrets.rows, s ∈ mid.secrets.rows := by
    intro s hs
    rw [hsecrets]
    rcases hcase with ⟨_, -, htx, -⟩ | ⟨-, -, -, hrows⟩
    · rw [htx]
      exact hs
    · rw [hrows]
      exact List.mem_append_left _ hs
  have hfind :=
    secretByPath_pointCurrent slot.secretId (some slot.version) now.seconds hold p s hs
  simpa only [Store.secretByPath, prune_secrets] using hfind

/-- After a write there is a secret at its path. -/
theorem commit_finds
    {st st' : Store} {path : SecretPath} {freshId : Uuid} {began now : UnixTime}
    {slot : WriteSlot} {sealed : SealedVersion} {info : WriteMeta} {v : Version}
    (hbegin : beginWrite st path freshId began = .ok slot)
    (hcommit : slot.commit sealed info now = .ok (st', v)) :
    ∃ s, st'.secretByPath path = some s := by
  obtain ⟨-, -, hcase⟩ := beginWrite_eq_ok hbegin
  have htx : ∃ s, slot.tx.secretByPath path = some s := by
    rcases hcase with ⟨s, hs, htx, -⟩ | ⟨-, -, -, hrows⟩
    · exact ⟨s, by rw [htx, hs]⟩
    · refine ⟨newSecret path freshId began, Store.secretByPath_eq_some_iff.mpr ⟨?_, rfl⟩⟩
      simp [hrows]
  obtain ⟨s, hs⟩ := htx
  obtain ⟨rfl, mid, hmid, rfl⟩ := WriteSlot.commit_eq_ok hcommit
  obtain ⟨-, -, hsecrets, -⟩ := Store.insertVersion_eq_ok hmid
  have hold : ∀ s ∈ slot.tx.secrets.rows, s ∈ mid.secrets.rows := by
    rw [hsecrets]
    exact fun _ hs => hs
  obtain ⟨s', hs', -⟩ :=
    secretByPath_pointCurrent slot.secretId (some slot.version) now.seconds hold path s hs
  exact ⟨s', by simpa only [Store.secretByPath, prune_secrets] using hs'⟩

theorem le_write
    {vault vault' : Vault} {path : SecretPath} {freshId : Uuid} {began now : UnixTime}
    {draws : SealDraws} {plaintext : Bytes} {info : WriteMeta} {v : Version}
    (h : vault.write P path freshId began draws plaintext info now = .ok (vault', v)) :
    vault.le P vault' := by
  obtain ⟨slot, sealed, hbegin, -, hcommit, hmaster, -⟩ := Vault.write_eq_ok h
  refine ⟨commit_secrets hbegin hcommit, ?_⟩
  intro r hr
  rw [hmaster]
  rcases commit_rows hbegin hcommit hr with hr | hr
  · exact ⟨r, hr, Evolves.refl _ r⟩
  · exact ⟨r.destroy, hr, evolves_destroy _ r⟩

theorem VersionRow.wrappedKey_of_holds
    {r : VersionRow} {s : SealedVersion}
    (h : r.Holds s) :
    r.wrappedKey = .ok s.key := by
  obtain ⟨-, -, h3, h4, h5⟩ := h
  simp [VersionRow.wrappedKey, h3, h4, h5, liftCrypto, Except.mapError, bind, Except.bind]

/-- Rewrapping a row with `WrappedKey::rewrap` keeps what it opens to. -/
theorem evolves_rewrapped
    (hP : AeadCorrect P)
    {draws : Nat → Option Nonce} {old new : MasterKey} {generation : UInt32}
    {r r' : VersionRow}
    (h : Rewrapped (rewrapWith P draws old new generation) r r') :
    Evolves P old new r r' := by
  have hstate := h.state
  have hslot := h.slot
  rcases h with ⟨hd, rfl⟩ | ⟨hd, i, h⟩
  · exact ⟨rfl, rfl, rfl, rfl, le_rfl, fun hlive => absurd hd hlive⟩
  · obtain ⟨key, key', hkey, hkey', rfl⟩ := rewrapRow_eq_ok h
    refine ⟨hslot, rfl, rfl, rfl, by rw [hstate], ?_⟩
    intro _ s hs
    rw [VersionRow.wrappedKey_of_holds hs] at hkey
    cases hkey
    refine ⟨{ s with key := key' }, hs.withKey key', ?_⟩
    exact SealedVersion.open_rewrap hP (liftCrypto_eq_ok.mp hkey')

theorem le_rotate
    (hP : AeadCorrect P)
    {vault vault' : Vault} {successor : MasterKey} {newSealedMaster : SealedMasterKey}
    {draws : Nat → Option Nonce}
    (h : vault.rotate P successor newSealedMaster draws = .ok vault') :
    vault.le P vault' := by
  obtain ⟨⟨store, report⟩, hrekey, h⟩ := bind_eq_ok.mp h
  cases h
  obtain ⟨hrows, hsecrets, -⟩ := rekeyWith_eq_ok hrekey
  refine ⟨?_, ?_⟩
  · intro path s hs
    refine ⟨s, ?_, rfl⟩
    simpa only [Store.secretByPath, hsecrets] using hs
  · intro r hr
    obtain ⟨r', hr', hrel⟩ := forall₂_mem_left (rewrapRows_forall₂ hrows) hr
    exact ⟨r', hr', evolves_rewrapped hP hrel⟩

/-- Every operation leads to a later state. -/
theorem le_step
    (hP : AeadCorrect P)
    (vault : Vault) (op : VaultOp) :
    vault.le P (op.step P vault) := by
  refine VaultOp.step_of_does (Vault.le_refl vault) ?_ op
  intro vault' hdoes
  cases hdoes with
  | write h => exact le_write h
  | rollback h => exact le_rollback h
  | deleteVersion h => exact le_deleteVersion h
  | addTags h => exact le_touched (addTags_frame h)
  | removeTags h => exact le_touched (removeTags_frame h)
  | rotate h => exact le_rotate hP h

theorem le_run
    (hP : AeadCorrect P)
    (vault : Vault) (ops : List VaultOp) :
    vault.le P (run (VaultOp.step P) vault ops) :=
  run_rel (fun _ => True) (fun _ => True) Vault.le_refl Vault.le_trans
    (fun _ _ _ _ => trivial) (fun v op _ _ => le_step hP v op) (fun _ _ => trivial) trivial

end Steps

section Lifecycle

variable {P : Primitives}

/-- What reading and opening an exact version gives, from its row. -/
theorem openExact_of_row
    {vault : Vault} {path : SecretPath} {s : SecretRow} {v : Version} {r : VersionRow}
    (hs : vault.store.secretByPath path = some s)
    (hr : r ∈ vault.store.versions.rows)
    (hslot : r.slot = (s.id, v))
    (htime : inTimeRange r.createdAt) :
    (r.state ≠ .active → vault.openExact P path v = .error .notFound) ∧
      ∀ sealed x, r.state = .active → r.Holds sealed →
        sealed.openAt P vault.master r.binding = .ok x →
        vault.openExact P path v = .ok x := by
  have hfind : vault.store.versions.find? (s.id, v) = some r :=
    Table.find?_eq_some_iff.mpr ⟨hr, hslot⟩
  constructor
  · intro hstate
    have hread : r.state.isReadable = false := by
      cases hst : r.state with
      | active => exact absurd hst hstate
      | deleted => rfl
      | destroyed => rfl
    simp [Vault.openExact, readVersion, resolve, VersionSelector.pick, hs, okOr, hfind,
      buildStoredVersion, hread, bind, Except.bind]
  · intro sealed x hactive hholds hopen
    have hbuild := buildStoredVersion_of_holds s.id v hactive hholds htime
    have hbinding : r.binding = ⟨s.id, v.get⟩ := by
      have hid : r.secretId = s.id := congrArg Prod.fst hslot
      have hver : r.version = v := congrArg Prod.snd hslot
      simp [VersionRow.binding, hid, hver]
    rw [hbinding] at hopen
    simp [Vault.openExact, readVersion, resolve, VersionSelector.pick, hs, okOr, hfind,
      hbuild, hopen, liftCrypto, Except.mapError, bind, Except.bind]

/-- The row that a write leaves behind. -/
theorem write_row
    (hP : AeadCorrect P)
    {vault vault' : Vault} {path : SecretPath} {freshId : Uuid} {began now : UnixTime}
    {draws : SealDraws} {plaintext : Bytes} {info : WriteMeta} {v : Version}
    (h : vault.write P path freshId began draws plaintext info now = .ok (vault', v)) :
    ∃ s r sealed,
      vault'.store.secretByPath path = some s ∧ r ∈ vault'.store.versions.rows ∧
      r.slot = (s.id, v) ∧ r.createdAt = now.seconds ∧ r.createdBy = info.createdBy ∧
      r.comment = info.comment ∧ r.Holds sealed ∧
      sealed.openAt P vault'.master r.binding = .ok plaintext := by
  obtain ⟨slot, sealed, hbegin, hseal, hcommit, hmaster, -⟩ := Vault.write_eq_ok h
  obtain ⟨rfl, mid, hmid, hstore⟩ := WriteSlot.commit_eq_ok hcommit
  obtain ⟨-, hrows, hsecrets, -⟩ := Store.insertVersion_eq_ok hmid
  have htx : ∃ s, slot.tx.secretByPath path = some s ∧ s.id = slot.secretId := by
    obtain ⟨-, -, hcase⟩ := beginWrite_eq_ok hbegin
    rcases hcase with ⟨s, hs, htx, hid, -⟩ | ⟨-, hid, -, hnew⟩
    · exact ⟨s, by rw [htx]; exact hs, hid.symm⟩
    · refine ⟨newSecret path freshId began, ?_, hid.symm⟩
      refine Store.secretByPath_eq_some_iff.mpr ⟨?_, rfl⟩
      rw [hnew]
      simp
  obtain ⟨s, hs, hid⟩ := htx
  have hold : ∀ s ∈ slot.tx.secrets.rows, s ∈ mid.secrets.rows := by
    rw [hsecrets]
    exact fun _ hs => hs
  obtain ⟨s', hs', hid'⟩ :=
    secretByPath_pointCurrent slot.secretId (some slot.version) now.seconds hold path s hs
  refine ⟨s', slot.row sealed info now, sealed, ?_, ?_, ?_, rfl, rfl, rfl,
    slot.row_holds sealed info now, ?_⟩
  · rw [hstore]
    simpa only [Store.secretByPath, prune_secrets] using hs'
  · rw [hstore]
    refine mem_prune_keep ?_ rfl
    rw [Store.pointCurrent_versions, hrows]
    simp
  · rw [hid', hid]
    rfl
  · rw [hmaster]
    exact SealedVersion.open_seal hP hseal

/-- A soft delete leaves the blobs of every row as they are. -/
theorem blobs_softDelete
    (vault : Vault) (path : SecretPath) (selector : VersionSelector) (now : UnixTime)
    {r : VersionRow}
    (hr : r ∈ vault.store.versions.rows) :
    ∃ r' ∈ (VaultOp.step P vault
        (.deleteVersion path selector .soft now)).store.versions.rows,
      r'.slot = r.slot ∧ r'.nonce = r.nonce ∧ r'.ciphertext = r.ciphertext ∧
      r'.dekNonce = r.dekNonce ∧ r'.wrappedDek = r.wrappedDek := by
  simp only [VaultOp.step]
  split
  · rename_i store w hdel
    obtain ⟨s, -, rfl⟩ := deleteVersion_eq_ok hdel
    refine ⟨_, mem_removeVersion.mpr ⟨r, hr, rfl⟩, ?_⟩
    split
    · obtain ⟨h1, h2, h3, h4, -⟩ := r.softDelete_blobs
      exact ⟨r.softDelete_slot, h1, h2, h3, h4⟩
    · exact ⟨rfl, rfl, rfl, rfl, rfl⟩
  · exact ⟨r, hr, rfl, rfl, rfl, rfl, rfl⟩

/--
From the moment a version is written it opens to what was written or is not
found, and once not found stays so; its state only moves forward and its
provenance never changes; and a soft delete leaves every blob as it is.
-/
theorem version_lifecycle
    (hP : AeadCorrect P)
    {vault written : Vault} {path : SecretPath} {freshId : Uuid} {began now : UnixTime}
    {draws : SealDraws} {plaintext : Bytes} {info : WriteMeta} {v : Version}
    (hwrite :
      vault.write P path freshId began draws plaintext info now = .ok (written, v))
    (ops ops' : List VaultOp) :
    let mid := run (VaultOp.step P) written ops
    let later := run (VaultOp.step P) mid ops'
    (mid.openExact P path v = .ok plaintext ∨ mid.openExact P path v = .error .notFound) ∧
    (mid.openExact P path v = .error .notFound →
      later.openExact P path v = .error .notFound) ∧
    (∃ id, ∃ r ∈ mid.store.versions.rows, ∃ r' ∈ later.store.versions.rows,
      (∃ s, mid.store.secretByPath path = some s ∧ s.id = id) ∧
      r.slot = (id, v) ∧ r'.slot = (id, v) ∧
      VersionState.rank r.state ≤ VersionState.rank r'.state ∧
      r.createdAt = now.seconds ∧ r.createdBy = info.createdBy ∧
      r.comment = info.comment ∧ r'.createdAt = now.seconds ∧
      r'.createdBy = info.createdBy ∧ r'.comment = info.comment) ∧
    ∀ path' selector now', ∀ r ∈ mid.store.versions.rows,
      ∃ r' ∈ (VaultOp.step P mid (.deleteVersion path' selector .soft now')).store.versions.rows,
        r'.slot = r.slot ∧ r'.nonce = r.nonce ∧ r'.ciphertext = r.ciphertext ∧
        r'.dekNonce = r.dekNonce ∧ r'.wrappedDek = r.wrappedDek := by
  intro mid later
  obtain ⟨s₀, r₀, sealed₀, hs₀, hr₀, hslot₀, hat₀, hby₀, hcomment₀, hholds₀, hopen₀⟩ :=
    write_row hP hwrite
  have hmid : written.le P mid := le_run hP written ops
  have hlater : mid.le P later := le_run hP mid ops'
  obtain ⟨s₁, hs₁, hid₁⟩ := hmid.secrets path s₀ hs₀
  obtain ⟨s₂, hs₂, hid₂⟩ := hlater.secrets path s₁ hs₁
  obtain ⟨r₁, hr₁, hev₁⟩ := hmid.rows r₀ hr₀
  obtain ⟨r₂, hr₂, hev₂⟩ := hlater.rows r₁ hr₁
  have hslot₁ : r₁.slot = (s₁.id, v) := by rw [hev₁.slot, hslot₀, hid₁]
  have hslot₂ : r₂.slot = (s₂.id, v) := by rw [hev₂.slot, hslot₁, hid₂]
  have htime₁ : inTimeRange r₁.createdAt := by
    rw [hev₁.createdAt, hat₀]
    exact now.inRange
  have htime₂ : inTimeRange r₂.createdAt := by
    rw [hev₂.createdAt]
    exact htime₁
  obtain ⟨hgone₁, hlive₁⟩ := openExact_of_row (P := P) hs₁ hr₁ hslot₁ htime₁
  obtain ⟨hgone₂, -⟩ := openExact_of_row (P := P) hs₂ hr₂ hslot₂ htime₂
  have hactive : r₁.state = .active → mid.openExact P path v = .ok plaintext := by
    intro hactive
    obtain ⟨sealed₁, hholds₁, hopen₁⟩ :=
      hev₁.opens (by rw [hactive]; decide) sealed₀ hholds₀
    rw [hopen₀, ← VersionRow.binding_of_slot hev₁.slot] at hopen₁
    exact hlive₁ sealed₁ plaintext hactive hholds₁ hopen₁
  refine ⟨?_, ?_, ?_, ?_⟩
  · by_cases hst : r₁.state = .active
    · exact .inl (hactive hst)
    · exact .inr (hgone₁ hst)
  · intro hnotFound
    apply hgone₂
    intro hst₂
    have hrank := hev₂.forward
    rw [rank_eq_zero.mpr hst₂, Nat.le_zero, rank_eq_zero] at hrank
    rw [hactive hrank] at hnotFound
    cases hnotFound
  · refine ⟨s₁.id, r₁, hr₁, r₂, hr₂, ⟨s₁, hs₁, rfl⟩, hslot₁, by rw [hslot₂, hid₂],
      hev₂.forward, ?_⟩
    rw [hev₂.createdAt, hev₂.createdBy, hev₂.comment, hev₁.createdAt, hev₁.createdBy,
      hev₁.comment]
    exact ⟨hat₀, hby₀, hcomment₀, hat₀, hby₀, hcomment₀⟩
  · intro path' selector now' r hr
    exact blobs_softDelete mid path' selector now' hr

/-- A path for concrete runs. -/
def samplePath : SecretPath :=
  ⟨"prod/db", by decide⟩

def firstVersion : Version :=
  ⟨1, by decide⟩

def secondVersion : Version :=
  ⟨2, by decide⟩

def sampleTime (seconds : UInt16) : UnixTime :=
  ⟨Int64.ofNat seconds.toNat, by
    have hlt := seconds.toNat_lt
    unfold inTimeRange
    rw [Int64.toInt_ofNat_of_lt (by omega)]
    omega⟩

def sampleDraws : SealDraws :=
  ⟨some (sampleKey 7), some (sampleNonce 8), some (sampleNonce 9)⟩

/-- An empty store under a first master key. -/
def sampleVault : Vault :=
  ⟨Store.empty, ⟨sampleKey 1⟩, 1⟩

def rotationTo (n : Nat) (generation : UInt32) : VaultOp :=
  .rotate ⟨sampleKey n⟩ ⟨.keyfile, generation, sampleNonce n, []⟩
    fun i => some (sampleNonce (10 * n + i))

/-- The first write. -/
def sampleWritten : Vault :=
  VaultOp.step samplePrimitives sampleVault
    (.write samplePath (sampleUuid 5) (sampleTime 100) sampleDraws [1, 2, 3] ⟨none, none⟩
      (sampleTime 100))

theorem write_sampleVault :
    sampleVault.write samplePrimitives samplePath (sampleUuid 5) (sampleTime 100) sampleDraws
      [1, 2, 3] ⟨none, none⟩ (sampleTime 100) = .ok (sampleWritten, firstVersion) := by
  have hnumber : (sampleVault.write samplePrimitives samplePath (sampleUuid 5)
      (sampleTime 100) sampleDraws [1, 2, 3] ⟨none, none⟩
      (sampleTime 100)).toOption.map Prod.snd = some firstVersion := by
    decide +kernel
  unfold sampleWritten VaultOp.step
  dsimp only
  cases hwrite : sampleVault.write samplePrimitives samplePath (sampleUuid 5)
      (sampleTime 100) sampleDraws [1, 2, 3] ⟨none, none⟩ (sampleTime 100) with
  | error e =>
      rw [hwrite] at hnumber
      cases hnumber
  | ok out =>
      rw [hwrite] at hnumber
      exact congrArg (fun v => Except.ok (out.1, v)) (Option.some.inj hnumber)

/-- A version is rotated, deleted, destroyed and rotated again. -/
theorem version_lifecycle_sample :
    let rotated := run (VaultOp.step samplePrimitives) sampleWritten [rotationTo 2 2]
    let deleted := run (VaultOp.step samplePrimitives) sampleWritten
      [rotationTo 2 2, .deleteVersion samplePath .current .soft (sampleTime 110)]
    let later := run (VaultOp.step samplePrimitives) deleted
      [.deleteVersion samplePath (.exact firstVersion) .destroy (sampleTime 120),
        rotationTo 3 3]
    rotated.openExact samplePrimitives samplePath firstVersion = .ok [1, 2, 3] ∧
      deleted.openExact samplePrimitives samplePath firstVersion = .error .notFound ∧
      later.openExact samplePrimitives samplePath firstVersion = .error .notFound := by
  intro rotated deleted later
  have hstates :
      rotated.openExact samplePrimitives samplePath firstVersion ≠ .error .notFound ∧
        deleted.openExact samplePrimitives samplePath firstVersion ≠ .ok [1, 2, 3] ∧
        (rotated.store.versions.rows.map VersionRow.state,
          later.store.versions.rows.map VersionRow.state,
          later.generation) = ([.active], [.destroyed], 3) := by
    decide +kernel
  have hrotated := (version_lifecycle samplePrimitives_correct write_sampleVault
    [rotationTo 2 2] []).1
  have hdeleted := version_lifecycle samplePrimitives_correct write_sampleVault
    [rotationTo 2 2, .deleteVersion samplePath .current .soft (sampleTime 110)]
    [.deleteVersion samplePath (.exact firstVersion) .destroy (sampleTime 120),
      rotationTo 3 3]
  have hgone := hdeleted.1.resolve_left hstates.2.1
  exact ⟨hrotated.resolve_right hstates.1, hgone, hdeleted.2.1 hgone⟩

end Lifecycle

end Storage
end Secretbae
