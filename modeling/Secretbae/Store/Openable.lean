import Secretbae.Store.Lifecycle

/-!
# Stores whose versions all open

`Store.AllOpen` says that a master key opens every version that is not
destroyed.  A write under the key and a change of tags keep it.  `rekey_with`
moves it from one key to another, and `rekeyWith_isOk_iff` says exactly when
`rekey_with` succeeds on such a store: when the entropy source answers once for
every version.
-/

namespace Secretbae
namespace Storage

open Lib Proto Core

/-- The master key opens every version that is not destroyed. -/
def Store.AllOpen (P : Primitives) (master : MasterKey) (st : Store) : Prop :=
  ∀ r ∈ st.versions.rows, r.state ≠ .destroyed →
    ∃ s x, r.Holds s ∧ s.openAt P master r.binding = .ok x

/-- The versions that `rekey_with` selects. -/
def liveCount (rows : List VersionRow) : Nat :=
  rows.countP (fun r => decide (r.state ≠ .destroyed))

/-- Rows that only evolve still open, under the key they have evolved to. -/
theorem Store.AllOpen.of_evolves
    {P : Primitives} {m m' : MasterKey} {st st' : Store}
    (hopen : st.AllOpen P m)
    (hrows : ∀ r' ∈ st'.versions.rows, ∃ r ∈ st.versions.rows, Evolves P m m' r r') :
    st'.AllOpen P m' := by
  intro r' hr' hlive
  obtain ⟨r, hr, hev⟩ := hrows r' hr'
  have hbefore : r.state ≠ .destroyed := by
    rw [← rank_lt_destroyed] at hlive ⊢
    exact lt_of_le_of_lt hev.forward hlive
  obtain ⟨s, x, hholds, hx⟩ := hopen r hr hbefore
  obtain ⟨s', hholds', hx'⟩ := hev.opens hlive s hholds
  refine ⟨s', x, hholds', ?_⟩
  rw [VersionRow.binding_of_slot hev.slot, hx', hx]

/-- In such a store every data key can be unwrapped. -/
theorem Store.AllOpen.openKey
    {P : Primitives} {master : MasterKey} {st : Store} {r : VersionRow}
    (hopen : st.AllOpen P master)
    (hr : r ∈ st.versions.rows)
    (hlive : r.state ≠ .destroyed) :
    ∃ dek, (r.wrappedKey >>= fun key => liftCrypto (key.openKey P master r.binding)) =
      .ok dek := by
  obtain ⟨s, x, hholds, hx⟩ := hopen r hr hlive
  obtain ⟨dek, hdek⟩ := SealedVersion.openKey_of_open hx
  exact ⟨dek, bind_eq_ok.mpr
    ⟨s.key, VersionRow.wrappedKey_of_holds hholds, liftCrypto_eq_ok.mpr hdek⟩⟩

section Counting

variable {r : VersionRow} {rows : List VersionRow}

@[simp] theorem liveCount_nil :
    liveCount [] = 0 := by
  rfl

theorem liveCount_cons_destroyed
    (h : r.state = .destroyed) :
    liveCount (r :: rows) = liveCount rows := by
  simp [liveCount, h]

theorem liveCount_cons_live
    (h : r.state ≠ .destroyed) :
    liveCount (r :: rows) = liveCount rows + 1 := by
  simp [liveCount, h]

end Counting

section Rewrap

variable {P : Primitives} {draws : Nat → Option Nonce} {old new : MasterKey}
  {generation : UInt32}

/-- Rewrapping the key of a version that opens needs nothing but entropy. -/
theorem rewrapRow_isOk_iff
    {r : VersionRow} {s : SealedVersion} {x : Bytes} {i : Nat}
    (hholds : r.Holds s)
    (hopen : s.openAt P old r.binding = .ok x) :
    (∃ r', rewrapRow (rewrapWith P draws old new generation i) r = .ok r') ↔
      draws i ≠ none := by
  have hkey := VersionRow.wrappedKey_of_holds hholds
  obtain ⟨dek, hdek⟩ := SealedVersion.openKey_of_open hopen
  constructor
  · rintro ⟨r', h⟩ hnone
    obtain ⟨key, key', hk, hrewrap, -⟩ := rewrapRow_eq_ok h
    obtain ⟨dek', -, hseal⟩ := bind_eq_ok.mp (liftCrypto_eq_ok.mp hrewrap)
    obtain ⟨sealed, hsealed, -⟩ := bind_eq_ok.mp hseal
    obtain ⟨n, hn, -⟩ := aeadSeal_eq_ok.mp hsealed
    rw [hnone] at hn
    cases hn
  · intro hsome
    obtain ⟨n, hn⟩ := Option.ne_none_iff_exists'.mp hsome
    have hrewrap :
        ∃ key', s.key.rewrap P (some n) old new generation r.binding = .ok key' :=
      WrappedKey.rewrap_ok hdek
    obtain ⟨key', hkey'⟩ := hrewrap
    refine ⟨r.withKey key', bind_eq_ok.mpr ⟨s.key, hkey, bind_eq_ok.mpr ⟨key', ?_, rfl⟩⟩⟩
    rw [rewrapWith, hn]
    exact liftCrypto_eq_ok.mpr hkey'

/-- The loop of `rekey_with` runs to its end exactly when every draw succeeds. -/
theorem rewrapRows_isOk_iff
    {rows : List VersionRow} {i : Nat}
    (hopen : ∀ r ∈ rows, r.state ≠ .destroyed →
      ∃ s x, r.Holds s ∧ s.openAt P old r.binding = .ok x) :
    (∃ rows', rewrapRows (rewrapWith P draws old new generation) i rows = .ok rows') ↔
      ∀ n, i ≤ n → n < i + liveCount rows → draws n ≠ none := by
  induction rows generalizing i with
  | nil =>
      refine ⟨?_, fun _ => ⟨[], rfl⟩⟩
      intro _ n hle hlt
      simp at hlt
      omega
  | cons r rows ih =>
      have hrest := fun r' (hr' : r' ∈ rows) => hopen r' (List.mem_cons_of_mem _ hr')
      by_cases hd : r.state = .destroyed
      · rw [liveCount_cons_destroyed hd, ← ih (i := i) hrest]
        simp only [rewrapRows, if_pos hd, bind_eq_ok]
        constructor
        · rintro ⟨_, rest, h, -⟩
          exact ⟨rest, h⟩
        · rintro ⟨rest, h⟩
          exact ⟨r :: rest, rest, h, rfl⟩
      · obtain ⟨s, x, hholds, hx⟩ := hopen r List.mem_cons_self hd
        have hrow :
            (∃ r', rewrapRow (rewrapWith P draws old new generation i) r = .ok r') ↔
              draws i ≠ none :=
          rewrapRow_isOk_iff hholds hx
        rw [liveCount_cons_live hd]
        simp only [rewrapRows, if_neg hd, bind_eq_ok]
        constructor
        · rintro ⟨_, r', hr', rest, hrest', -⟩ n hle hlt
          rcases Nat.eq_or_lt_of_le hle with rfl | hlt'
          · exact hrow.mp ⟨r', hr'⟩
          · exact (ih (i := i + 1) hrest).mp ⟨rest, hrest'⟩ n hlt' (by omega)
        · intro hall
          obtain ⟨r', hr'⟩ := hrow.mpr (hall i le_rfl (by omega))
          obtain ⟨rest, hrest'⟩ :=
            (ih (i := i + 1) hrest).mpr (fun n hle hlt => hall n (by omega) (by omega))
          exact ⟨r' :: rest, r', hr', rest, hrest', rfl⟩

/-- `rekey_with` succeeds exactly when every draw does. -/
theorem rekeyWith_isOk_iff
    {st : Store} {sealed : SealedMasterKey}
    (hopen : st.AllOpen P old) :
    (∃ out, rekeyWith st sealed (rewrapWith P draws old new generation) = .ok out) ↔
      ∀ n < liveCount st.versions.rows, draws n ≠ none := by
  have hloop :
      (∃ rows', rewrapRows (rewrapWith P draws old new generation) 0 st.versions.rows =
        .ok rows') ↔
      ∀ n, 0 ≤ n → n < 0 + liveCount st.versions.rows → draws n ≠ none :=
    rewrapRows_isOk_iff hopen
  simp only [Nat.zero_le, true_imp_iff, Nat.zero_add] at hloop
  rw [← hloop]
  constructor
  · rintro ⟨⟨st', report⟩, h⟩
    exact ⟨_, (rekeyWith_eq_ok h).1⟩
  · rintro ⟨rows, hrows⟩
    unfold rekeyWith
    split
    · rename_i e herr
      rw [hrows] at herr
      cases herr
    · exact ⟨_, rfl⟩

/-- `rekey_with` hands all versions over to the new key. -/
theorem allOpen_rekeyWith
    (hP : AeadCorrect P)
    {st st' : Store} {sealed : SealedMasterKey} {report : RekeyReport}
    (hopen : st.AllOpen P old)
    (h : rekeyWith st sealed (rewrapWith P draws old new generation) = .ok (st', report)) :
    st'.AllOpen P new := by
  refine hopen.of_evolves fun r' hr' => ?_
  obtain ⟨r, hr, hrel⟩ :=
    forall₂_mem_right (rewrapRows_forall₂ (rekeyWith_eq_ok h).1) hr'
  exact ⟨r, hr, evolves_rewrapped hP hrel⟩

end Rewrap

section Steps

variable {P : Primitives}

theorem allOpen_touched
    {st st' : Store} {master : MasterKey}
    (hopen : st.AllOpen P master)
    (h : st.Touched st') :
    st'.AllOpen P master := by
  obtain ⟨f, -, -, hversions, -⟩ := h
  intro r hr
  rw [hversions] at hr
  exact hopen r hr

theorem wellFormed_touched
    {st st' : Store}
    (hrows : st.RowsWellFormed)
    (h : st.Touched st') :
    st'.RowsWellFormed := by
  obtain ⟨f, -, -, hversions, -⟩ := h
  intro r hr
  rw [hversions] at hr
  exact hrows r hr

theorem allOpen_rollback
    {st st' : Store} {master : MasterKey} {path : SecretPath} {target : Version}
    {now : UnixTime}
    (hopen : st.AllOpen P master)
    (h : rollback st path target now = .ok st') :
    st'.AllOpen P master := by
  obtain ⟨s, r, -, -, -, -, rfl⟩ := rollback_eq_ok h
  exact hopen

theorem allOpen_deleteVersion
    {st st' : Store} {master : MasterKey} {path : SecretPath} {selector : VersionSelector}
    {mode : DeleteMode} {now : UnixTime} {v : Version}
    (hopen : st.AllOpen P master)
    (h : deleteVersion st path selector mode now = .ok (st', v)) :
    st'.AllOpen P master := by
  obtain ⟨s, -, rfl⟩ := deleteVersion_eq_ok h
  refine hopen.of_evolves fun r' hr' => ?_
  obtain ⟨r, hr, rfl⟩ := mem_removeVersion.mp hr'
  refine ⟨r, hr, ?_⟩
  split
  · exact evolves_delete _ mode r
  · exact Evolves.refl _ r

/-- A write adds a version that opens, and may destroy others. -/
theorem allOpen_write
    (hP : AeadCorrect P)
    {vault vault' : Vault} {path : SecretPath} {freshId : Uuid} {began now : UnixTime}
    {draws : SealDraws} {plaintext : Bytes} {info : WriteMeta} {v : Version}
    (hopen : vault.store.AllOpen P vault.master)
    (h : vault.write P path freshId began draws plaintext info now = .ok (vault', v)) :
    vault'.store.AllOpen P vault.master := by
  obtain ⟨slot, sealed, hbegin, hseal, hcommit, -, -⟩ := Vault.write_eq_ok h
  obtain ⟨-, hversions, -⟩ := beginWrite_eq_ok hbegin
  obtain ⟨rfl, mid, hmid, hstore⟩ := WriteSlot.commit_eq_ok hcommit
  obtain ⟨-, hrows, -, -⟩ := Store.insertVersion_eq_ok hmid
  have hmidOpen : mid.AllOpen P vault.master := by
    intro r hr hlive
    rw [hrows, hversions, List.mem_append, List.mem_singleton] at hr
    rcases hr with hr | rfl
    · exact hopen r hr hlive
    · exact ⟨sealed, plaintext, slot.row_holds sealed info now,
        SealedVersion.open_seal hP hseal⟩
  rw [hstore]
  refine hmidOpen.of_evolves fun r' hr' => ?_
  obtain ⟨r, hr, rfl⟩ := mem_prune.mp hr'
  refine ⟨r, hr, ?_⟩
  split
  · exact evolves_destroy _ r
  · exact Evolves.refl _ r

/-- A store without secrets has no versions either. -/
theorem Store.sound_of_no_secrets
    {st : Store} {master : MasterKey}
    (h : st.secrets.rows = []) :
    st.Inv ∧ st.AllOpen P master := by
  have hrows : ∀ r, r ∉ st.versions.rows := by
    intro r hr
    obtain ⟨s, hs, -⟩ := st.versionRefs r hr
    rw [h] at hs
    cases hs
  refine ⟨⟨?_, ?_, ?_⟩, ?_⟩
  · intro s hs
    rw [h] at hs
    cases hs
  · intro s hs
    rw [h] at hs
    cases hs
  · intro r hr
    exact absurd hr (hrows r)
  · intro r hr
    exact absurd hr (hrows r)

/-- Every operation of a vault keeps the invariant. -/
theorem Vault.inv_step
    (vault : Vault)
    (hinv : vault.store.Inv) (op : VaultOp) :
    (op.step P vault).store.Inv := by
  refine VaultOp.step_of_does (motive := fun v => v.store.Inv) hinv ?_ op
  intro vault' hdoes
  cases hdoes with
  | write h =>
      obtain ⟨slot, sealed, hbegin, -, hcommit, -, -⟩ := Vault.write_eq_ok h
      exact inv_commit hinv hbegin hcommit
  | rollback h => exact inv_rollback hinv h
  | deleteVersion h => exact inv_deleteVersion hinv h
  | addTags h => exact inv_touched hinv (addTags_frame h)
  | removeTags h => exact inv_touched hinv (removeTags_frame h)
  | rotate h =>
      obtain ⟨⟨store, report⟩, hrekey, h⟩ := bind_eq_ok.mp h
      cases h
      exact inv_rekeyWith hinv hrekey

/-- Every operation keeps the rows well formed, whether the numbers have gaps or not. -/
theorem Vault.wellFormed_step
    (vault : Vault)
    (hrows : vault.store.RowsWellFormed) (op : VaultOp) :
    (op.step P vault).store.RowsWellFormed := by
  refine VaultOp.step_of_does (motive := fun v => v.store.RowsWellFormed) hrows ?_ op
  intro vault' hdoes
  cases hdoes with
  | write h =>
      obtain ⟨slot, sealed, hbegin, -, hcommit, -, -⟩ := Vault.write_eq_ok h
      obtain ⟨-, hversions, -⟩ := beginWrite_eq_ok hbegin
      refine wellFormed_commit ?_ hcommit
      intro r hr
      rw [hversions] at hr
      exact hrows r hr
  | rollback h =>
      obtain ⟨s, r, -, -, -, -, rfl⟩ := rollback_eq_ok h
      exact hrows
  | deleteVersion h =>
      obtain ⟨s, -, rfl⟩ := deleteVersion_eq_ok h
      exact wellFormed_removeVersion hrows _ _
  | addTags h => exact wellFormed_touched hrows (addTags_frame h)
  | removeTags h => exact wellFormed_touched hrows (removeTags_frame h)
  | rotate h =>
      obtain ⟨⟨store, report⟩, hrekey, h⟩ := bind_eq_ok.mp h
      cases h
      exact wellFormed_rekeyWith hrows hrekey

/-- After every operation the versions open under the key that is then held. -/
theorem Vault.allOpen_step
    (hP : AeadCorrect P) (vault : Vault)
    (hopen : vault.store.AllOpen P vault.master) (op : VaultOp) :
    (op.step P vault).store.AllOpen P (op.step P vault).master := by
  refine VaultOp.step_of_does (motive := fun v => v.store.AllOpen P v.master) hopen ?_ op
  intro vault' hdoes
  cases hdoes with
  | write h =>
      obtain ⟨slot, sealed, -, -, -, hmaster, -⟩ := Vault.write_eq_ok h
      rw [hmaster]
      exact allOpen_write hP hopen h
  | rollback h => exact allOpen_rollback hopen h
  | deleteVersion h => exact allOpen_deleteVersion hopen h
  | addTags h => exact allOpen_touched hopen (addTags_frame h)
  | removeTags h => exact allOpen_touched hopen (removeTags_frame h)
  | rotate h =>
      obtain ⟨⟨store, report⟩, hrekey, h⟩ := bind_eq_ok.mp h
      cases h
      exact allOpen_rekeyWith hP hopen hrekey

theorem sealedMasterKey_beginWrite
    {st : Store} {path : SecretPath} {freshId : Uuid} {now : UnixTime} {slot : WriteSlot}
    (h : beginWrite st path freshId now = .ok slot) :
    slot.tx.sealedMasterKey = st.sealedMasterKey := by
  obtain ⟨⟨tx, id, maxVersions⟩, htx, h⟩ := bind_eq_ok.mp h
  obtain ⟨version, -, h⟩ := bind_eq_ok.mp h
  cases h
  unfold findOrCreate at htx
  split at htx
  · cases htx
    rfl
  · obtain ⟨tx', hins, htx⟩ := bind_eq_ok.mp htx
    cases htx
    exact (Store.insertSecret_eq_ok hins).2.2.2.2

theorem sealedMasterKey_prune
    (st : Store) (id : Uuid) (keep : Version) (maxVersions : UInt32) :
    (prune st id keep maxVersions).sealedMasterKey = st.sealedMasterKey := by
  unfold prune
  split <;> rfl

/-- A write leaves the sealed master key alone. -/
theorem sealedMasterKey_write
    {vault vault' : Vault} {path : SecretPath} {freshId : Uuid} {began now : UnixTime}
    {draws : SealDraws} {plaintext : Bytes} {info : WriteMeta} {v : Version}
    (h : vault.write P path freshId began draws plaintext info now = .ok (vault', v)) :
    vault'.store.sealedMasterKey = vault.store.sealedMasterKey := by
  obtain ⟨slot, sealed, hbegin, -, hcommit, -, -⟩ := Vault.write_eq_ok h
  obtain ⟨rfl, mid, hmid, hstore⟩ := WriteSlot.commit_eq_ok hcommit
  calc
    vault'.store.sealedMasterKey = mid.sealedMasterKey := by
      rw [hstore, sealedMasterKey_prune]
      rfl
    _ = slot.tx.sealedMasterKey := (Store.insertVersion_eq_ok hmid).2.2.2
    _ = vault.store.sealedMasterKey := sealedMasterKey_beginWrite hbegin

theorem sealedMasterKey_rollback
    {st st' : Store} {path : SecretPath} {target : Version} {now : UnixTime}
    (h : rollback st path target now = .ok st') :
    st'.sealedMasterKey = st.sealedMasterKey := by
  obtain ⟨s, r, -, -, -, -, rfl⟩ := rollback_eq_ok h
  rfl

theorem sealedMasterKey_deleteVersion
    {st st' : Store} {path : SecretPath} {selector : VersionSelector} {mode : DeleteMode}
    {now : UnixTime} {v : Version}
    (h : deleteVersion st path selector mode now = .ok (st', v)) :
    st'.sealedMasterKey = st.sealedMasterKey := by
  obtain ⟨s, -, rfl⟩ := deleteVersion_eq_ok h
  rfl

end Steps

end Storage
end Secretbae
