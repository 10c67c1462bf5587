import Secretbae.Store.Maintenance

/-!
# The store invariant

`Store.Inv` holds of every state that the operations of the store can reach:
each secret's versions are numbered from one without a gap, `current_version`
names an active version whenever there is one, and a row holds all of its
blobs or, once destroyed, none.

Each operation is treated once: `inv_commit`, `inv_rollback`,
`inv_deleteVersion`, `inv_touched`, `inv_rekeyWith` and `inv_import`.
-/

namespace Secretbae
namespace Storage

open Lib Proto Core

/-- The row holds the sealed version `s`. -/
def VersionRow.Holds (r : VersionRow) (s : SealedVersion) : Prop :=
  r.nonce = some s.nonce.toList ∧ r.ciphertext = some s.ciphertext ∧
    r.dekNonce = some s.key.dekNonce.toList ∧ r.wrappedDek = some s.key.wrappedDek ∧
    r.mkGeneration = s.key.mkGeneration

/-- The row holds none of the blobs. -/
def VersionRow.Cleared (r : VersionRow) : Prop :=
  r.nonce = none ∧ r.ciphertext = none ∧ r.dekNonce = none ∧ r.wrappedDek = none

structure VersionRow.WellFormed (r : VersionRow) : Prop where
  destroyed : r.state = .destroyed → r.Cleared
  retained : r.state ≠ .destroyed → ∃ s, r.Holds s
  time : inTimeRange r.createdAt

/-- Every row holds all of its blobs or, once destroyed, none. -/
def Store.RowsWellFormed (st : Store) : Prop :=
  ∀ r ∈ st.versions.rows, r.WellFormed

/-- `current_version` names an active version, or there is none. -/
def Store.CurrentOk (st : Store) (s : SecretRow) : Prop :=
  match s.currentVersion with
  | some v => ∃ r ∈ st.versions.rows, r.slot = (s.id, v) ∧ r.state = .active
  | none => ∀ r ∈ st.versions.rows, r.secretId = s.id → r.state ≠ .active

/-- What every reachable store satisfies. -/
structure Store.Inv (st : Store) : Prop where
  numbered : ∀ s ∈ st.secrets.rows, ∃ n, 1 ≤ n ∧ st.NumberedTo s.id n
  current : ∀ s ∈ st.secrets.rows, st.CurrentOk s
  rows : ∀ r ∈ st.versions.rows, r.WellFormed

theorem Store.inv_empty :
    Store.empty.Inv where
  numbered := by
    intro s hs
    cases hs
  current := by
    intro s hs
    cases hs
  rows := by
    intro r hr
    cases hr

/-- A row with all of its parts is read back as it is. -/
theorem buildStoredVersion_of_holds
    {r : VersionRow} {s : SealedVersion} (id : Uuid) (version : Version)
    (hactive : r.state = .active)
    (hholds : r.Holds s)
    (htime : inTimeRange r.createdAt) :
    buildStoredVersion id version r =
      .ok
        { binding := ⟨id, version.get⟩
          sealed := s
          info :=
            { version, state := r.state, createdAt := ⟨r.createdAt, htime⟩
              createdBy := r.createdBy, comment := r.comment } } := by
  obtain ⟨h1, h2, h3, h4, h5⟩ := hholds
  simp [buildStoredVersion, hactive, VersionState.isReadable, okOr, h1, h2, h3, h4, h5,
    liftCrypto, Except.mapError, timestamp, htime, bind, Except.bind]

/-- Only a row with all of its parts is read. -/
theorem buildStoredVersion_eq_ok
    {r : VersionRow} {id : Uuid} {version : Version} {stored : StoredVersion}
    (h : buildStoredVersion id version r = .ok stored) :
    r.state = .active ∧ r.Holds stored.sealed ∧ stored.binding = ⟨id, version.get⟩ ∧
      stored.info.version = version ∧ inTimeRange r.createdAt := by
  have hslice : ∀ {o : Option Bytes} {bytes : Bytes} {n : Nonce} {e : StoreError},
      okOr o e = .ok bytes → liftCrypto (Nonce.fromSlice bytes) = .ok n →
        o = some n.toList := by
    intro o bytes n e hbytes hn
    rw [okOr_eq_ok.mp hbytes, Option.some.injEq]
    have hfixed := liftCrypto_eq_ok.mp hn
    unfold Nonce.fromSlice at hfixed
    split at hfixed
    · rename_i heq
      cases hfixed
      exact fixed?_eq_some_iff.mp heq
    · cases hfixed
  unfold buildStoredVersion at h
  split at h
  · rename_i hread
    obtain ⟨nonceBytes, hnonceBytes, h⟩ := bind_eq_ok.mp h
    obtain ⟨nonce, hnonce, h⟩ := bind_eq_ok.mp h
    obtain ⟨ciphertext, hciphertext, h⟩ := bind_eq_ok.mp h
    obtain ⟨dekBytes, hdekBytes, h⟩ := bind_eq_ok.mp h
    obtain ⟨dekNonce, hdekNonce, h⟩ := bind_eq_ok.mp h
    obtain ⟨wrappedDek, hwrapped, h⟩ := bind_eq_ok.mp h
    obtain ⟨createdAt, hcreated, h⟩ := bind_eq_ok.mp h
    cases h
    refine ⟨(VersionState.isReadable_iff _).mp hread,
      ⟨hslice hnonceBytes hnonce, okOr_eq_ok.mp hciphertext, hslice hdekBytes hdekNonce,
        okOr_eq_ok.mp hwrapped, rfl⟩, rfl, rfl, ?_⟩
    unfold timestamp at hcreated
    split at hcreated
    · assumption
    · cases hcreated
  · cases h

section Frames

/-- Numbering depends on the slots only. -/
theorem Store.NumberedTo.of_slots
    {st st' : Store} {id : Uuid} {n : Nat}
    (h : st.NumberedTo id n)
    (hslots : ∀ v, (id, v) ∈ st'.versions.rows.map VersionRow.slot ↔
      (id, v) ∈ st.versions.rows.map VersionRow.slot) :
    st'.NumberedTo id n := by
  have hkey :
      ∀ (st : Store) (m : Nat),
        (∃ r ∈ st.versions.rows, r.secretId = id ∧ r.version.toNat = m) ↔
          ∃ v : Version, (id, v) ∈ st.versions.rows.map VersionRow.slot ∧ v.toNat = m := by
    intro st m
    constructor
    · rintro ⟨r, hr, rfl, hm⟩
      exact ⟨r.version, List.mem_map.mpr ⟨r, hr, rfl⟩, hm⟩
    · rintro ⟨v, hv, hm⟩
      obtain ⟨r, hr, hslot⟩ := List.mem_map.mp hv
      cases hslot
      exact ⟨r, hr, rfl, hm⟩
  intro m
  rw [hkey]
  simp only [hslots]
  rw [← hkey]
  exact h m

/-- Whether `current_version` is right depends on the secret's own rows only. -/
theorem Store.CurrentOk.of_rows
    {st st' : Store} {s s' : SecretRow}
    (h : st.CurrentOk s)
    (hid : s'.id = s.id)
    (hcur : s'.currentVersion = s.currentVersion)
    (hrows : ∀ r, r.secretId = s.id → (r ∈ st'.versions.rows ↔ r ∈ st.versions.rows)) :
    st'.CurrentOk s' := by
  unfold Store.CurrentOk at h ⊢
  rw [hcur, hid]
  cases hc : s.currentVersion with
  | some v =>
      rw [hc] at h
      obtain ⟨r, hr, hslot, hactive⟩ := h
      exact ⟨r, (hrows r (congrArg Prod.fst hslot)).mpr hr, hslot, hactive⟩
  | none =>
      rw [hc] at h
      intro r hr hrid
      exact h r ((hrows r hrid).mp hr) hrid

/-- Moving the pointer of one secret to a version that deserves it. -/
theorem Store.Inv.pointCurrent
    {st : Store} {id : Uuid} {current : Option Version} {at_ : Int64}
    (hnumbered : ∀ s ∈ st.secrets.rows, ∃ n, 1 ≤ n ∧ st.NumberedTo s.id n)
    (hothers : ∀ s ∈ st.secrets.rows, s.id ≠ id → st.CurrentOk s)
    (hrows : ∀ r ∈ st.versions.rows, r.WellFormed)
    (hcurrent : ∀ s : SecretRow, s.id = id → s.currentVersion = current → st.CurrentOk s) :
    (st.pointCurrent id current at_).Inv where
  numbered := by
    intro s hs
    obtain ⟨s₀, hs₀, rfl⟩ := Store.mem_pointCurrent.mp hs
    obtain ⟨n, hn, hnum⟩ := hnumbered s₀ hs₀
    refine ⟨n, hn, ?_⟩
    split <;> exact hnum
  current := by
    intro s hs
    obtain ⟨s₀, hs₀, rfl⟩ := Store.mem_pointCurrent.mp hs
    split
    · rename_i heq
      exact hcurrent _ heq rfl
    · rename_i hne
      exact hothers s₀ hs₀ hne
  rows := hrows

end Frames

section Operations

theorem VersionRow.destroy_wellFormed
    {r : VersionRow}
    (h : r.WellFormed) :
    r.destroy.WellFormed where
  destroyed := fun _ => ⟨rfl, rfl, rfl, rfl⟩
  retained := fun hne => absurd rfl hne
  time := h.time

theorem VersionRow.softDelete_wellFormed
    {r : VersionRow}
    (h : r.WellFormed) :
    r.softDelete.WellFormed := by
  unfold VersionRow.softDelete
  split
  · rename_i hactive
    refine ⟨(by rintro ⟨⟩), fun _ => ?_, h.time⟩
    exact h.retained (by rw [hactive]; decide)
  · exact h

/-- Retention keeps the rows of other secrets and the version just written. -/
theorem mem_prune
    {st : Store} {id : Uuid} {keep : Version} {maxVersions : UInt32} {r : VersionRow} :
    r ∈ (prune st id keep maxVersions).versions.rows ↔
      ∃ r₀ ∈ st.versions.rows,
        (if ¬ keep.get.toNat < maxVersions.toNat ∧
            outOfWindow id keep (keep.get - maxVersions) r₀ then r₀.destroy
          else r₀) = r := by
  unfold prune
  split
  · rename_i hlt
    simp [hlt]
  · rename_i hlt
    simp [Store.updateVersions, hlt]

/-- Retention keeps a row or destroys it. -/
theorem mem_prune_or_destroy
    {st : Store} {id : Uuid} {keep : Version} {maxVersions : UInt32} {r : VersionRow}
    (hr : r ∈ st.versions.rows) :
    r ∈ (prune st id keep maxVersions).versions.rows ∨
      r.destroy ∈ (prune st id keep maxVersions).versions.rows := by
  by_cases hout : ¬ keep.get.toNat < maxVersions.toNat ∧
      outOfWindow id keep (keep.get - maxVersions) r
  · exact .inr (mem_prune.mpr ⟨r, hr, if_pos hout⟩)
  · exact .inl (mem_prune.mpr ⟨r, hr, if_neg hout⟩)

/-- Retention never touches the version just written. -/
theorem mem_prune_keep
    {st : Store} {id : Uuid} {keep : Version} {maxVersions : UInt32} {r : VersionRow}
    (hr : r ∈ st.versions.rows)
    (hkeep : r.version = keep) :
    r ∈ (prune st id keep maxVersions).versions.rows := by
  refine mem_prune.mpr ⟨r, hr, if_neg ?_⟩
  rintro ⟨-, hout⟩
  simp only [outOfWindow, decide_eq_true_eq] at hout
  exact hout.2.2.1 hkeep

theorem prune_secrets
    (st : Store) (id : Uuid) (keep : Version) (maxVersions : UInt32) :
    (prune st id keep maxVersions).secrets = st.secrets := by
  unfold prune
  split <;> rfl

theorem prune_slots
    (st : Store) (id : Uuid) (keep : Version) (maxVersions : UInt32) :
    (prune st id keep maxVersions).versions.rows.map VersionRow.slot =
      st.versions.rows.map VersionRow.slot := by
  unfold prune
  split
  · rfl
  · simp only [Store.updateVersions, Table.update, List.map_map]
    apply List.map_congr_left
    intro r _
    dsimp only [Function.comp_apply]
    split <;> rfl

theorem mem_prune_of_ne
    {st : Store} {id : Uuid} {keep : Version} {maxVersions : UInt32} {r : VersionRow}
    (hne : r.secretId ≠ id) :
    r ∈ (prune st id keep maxVersions).versions.rows ↔ r ∈ st.versions.rows := by
  rw [mem_prune]
  constructor
  · rintro ⟨r₀, hr₀, rfl⟩
    split at hne
    · rename_i hout
      simp only [outOfWindow, decide_eq_true_eq] at hout
      exact absurd hout.2.1 hne
    · rename_i hkeep
      rw [if_neg hkeep]
      exact hr₀
  · intro hr
    refine ⟨r, hr, if_neg ?_⟩
    rintro ⟨-, hout⟩
    simp only [outOfWindow, decide_eq_true_eq] at hout
    exact hne hout.1

theorem wellFormed_prune
    {st : Store}
    (h : st.RowsWellFormed) (id : Uuid) (keep : Version) (maxVersions : UInt32) :
    (prune st id keep maxVersions).RowsWellFormed := by
  intro r hr
  obtain ⟨r₀, hr₀, rfl⟩ := mem_prune.mp hr
  split
  · exact VersionRow.destroy_wellFormed (h r₀ hr₀)
  · exact h r₀ hr₀

/-- Retention preserves the invariant as long as it keeps the current version. -/
theorem inv_prune
    {st : Store} {id : Uuid} {keep : Version} {maxVersions : UInt32}
    (h : st.Inv)
    (hkeep : ∀ s ∈ st.secrets.rows, s.id = id → s.currentVersion = some keep) :
    (prune st id keep maxVersions).Inv where
  numbered := by
    intro s hs
    rw [prune_secrets] at hs
    obtain ⟨n, hn, hnum⟩ := h.numbered s hs
    refine ⟨n, hn, hnum.of_slots ?_⟩
    intro v
    rw [prune_slots]
  current := by
    intro s hs
    rw [prune_secrets] at hs
    by_cases hid : s.id = id
    · have hcur := hkeep s hs hid
      have hok := h.current s hs
      unfold Store.CurrentOk at hok ⊢
      rw [hcur] at hok ⊢
      obtain ⟨r, hr, hslot, hactive⟩ := hok
      exact ⟨r, mem_prune_keep hr (congrArg Prod.snd hslot), hslot, hactive⟩
    · refine (h.current s hs).of_rows rfl rfl ?_
      intro r hr
      exact mem_prune_of_ne (by rw [hr]; exact hid)
  rows := wellFormed_prune h.rows id keep maxVersions

/-- What `begin_write` hands out in a store that satisfies the invariant. -/
theorem beginWrite_slot
    {st : Store} {path : SecretPath} {freshId : Uuid} {now : UnixTime} {slot : WriteSlot}
    (h : st.Inv)
    (hbegin : beginWrite st path freshId now = .ok slot) :
    (∃ n, slot.version.toNat = n + 1 ∧ slot.tx.NumberedTo slot.secretId n) ∧
      slot.tx.versions = st.versions ∧
      (∀ s ∈ slot.tx.secrets.rows, s.id ≠ slot.secretId → s ∈ st.secrets.rows) := by
  obtain ⟨hget, hversions, hcase⟩ := beginWrite_eq_ok hbegin
  have hnum : ∃ n, slot.tx.NumberedTo slot.secretId n := by
    rcases hcase with ⟨s, hs, htx, hid, -⟩ | ⟨-, hid, hfresh, -⟩
    · obtain ⟨hmem, -⟩ := Store.secretByPath_eq_some_iff.mp hs
      obtain ⟨n, -, hnum⟩ := h.numbered s hmem
      rw [htx, hid]
      exact ⟨n, hnum⟩
    · refine ⟨0, ?_⟩
      intro m
      constructor
      · rintro ⟨r, hr, hrid, -⟩
        rw [hversions] at hr
        obtain ⟨s, hs, hsid⟩ := st.versionRefs r hr
        exact absurd (hsid.trans (hrid.trans hid)) (hfresh s hs)
      · intro hm
        omega
  obtain ⟨n, hnum⟩ := hnum
  refine ⟨⟨n, ?_, hnum⟩, hversions, ?_⟩
  · have hlt : n < 2 ^ 32 := by
      rcases Nat.eq_zero_or_pos n with hz | hpos
      · omega
      · obtain ⟨r, -, -, hr⟩ := (hnum n).mpr ⟨hpos, le_rfl⟩
        have := r.version.toNat_lt
        omega
    have hpos := slot.version.toNat_pos
    have hnat : slot.version.toNat = (n + 1) % 2 ^ 32 := by
      unfold Version.toNat
      rw [hget, hnum.highestVersion, UInt32.toNat_add, UInt32.toNat_ofNat']
      simp
    omega
  · rcases hcase with ⟨s, -, htx, -⟩ | ⟨-, hid, -, hrows⟩
    · intro s' hs' _
      rw [htx] at hs'
      exact hs'
    · intro s' hs' hne
      rw [hrows] at hs'
      rcases List.mem_append.mp hs' with hs' | hs'
      · exact hs'
      · obtain rfl := List.mem_singleton.mp hs'
        exact absurd hid.symm hne

/-- Adding the next version of a secret extends its numbering by one. -/
theorem Store.NumberedTo.insert
    {st st' : Store} {id : Uuid} {n : Nat} {row : VersionRow}
    (h : st.NumberedTo id n)
    (hrows : st'.versions.rows = st.versions.rows ++ [row])
    (hid : row.secretId = id)
    (hver : row.version.toNat = n + 1) :
    st'.NumberedTo id (n + 1) := by
  intro m
  rw [hrows]
  constructor
  · rintro ⟨r, hr, hrid, hm⟩
    rcases List.mem_append.mp hr with hr | hr
    · have := (h m).mp ⟨r, hr, hrid, hm⟩
      omega
    · obtain rfl := List.mem_singleton.mp hr
      omega
  · rintro ⟨hm1, hm2⟩
    rcases Nat.lt_or_ge n m with hlt | hle
    · refine ⟨row, by simp, hid, by omega⟩
    · obtain ⟨r, hr, hrid, hm⟩ := (h m).mpr ⟨hm1, hle⟩
      exact ⟨r, List.mem_append_left _ hr, hrid, hm⟩

/-- Adding a row leaves the numbering of other secrets alone. -/
theorem Store.NumberedTo.insert_other
    {st st' : Store} {id : Uuid} {n : Nat} {row : VersionRow}
    (h : st.NumberedTo id n)
    (hrows : st'.versions.rows = st.versions.rows ++ [row])
    (hid : row.secretId ≠ id) :
    st'.NumberedTo id n := by
  refine h.of_slots ?_
  intro v
  rw [hrows, List.map_append, List.map_singleton, List.mem_append, List.mem_singleton]
  constructor
  · rintro (hmem | heq)
    · exact hmem
    · exact absurd (congrArg Prod.fst heq).symm hid
  · exact .inl

theorem WriteSlot.row_holds
    (slot : WriteSlot) (sealed : SealedVersion) (info : WriteMeta) (now : UnixTime) :
    (slot.row sealed info now).Holds sealed :=
  ⟨rfl, rfl, rfl, rfl, rfl⟩

theorem WriteSlot.row_wellFormed
    (slot : WriteSlot) (sealed : SealedVersion) (info : WriteMeta) (now : UnixTime) :
    (slot.row sealed info now).WellFormed where
  destroyed := by rintro ⟨⟩
  retained := fun _ => ⟨sealed, slot.row_holds sealed info now⟩
  time := now.inRange

/-- A version that is inserted is well formed, and the others stay so. -/
theorem WriteSlot.wellFormed_insert
    {slot : WriteSlot} {sealed : SealedVersion} {info : WriteMeta} {now : UnixTime} {mid : Store}
    (h : slot.tx.RowsWellFormed)
    (hmid : slot.tx.insertVersion (slot.row sealed info now) = .ok mid) :
    mid.RowsWellFormed := by
  intro r hr
  rw [(Store.insertVersion_eq_ok hmid).2.1, List.mem_append, List.mem_singleton] at hr
  rcases hr with hr | rfl
  · exact h r hr
  · exact slot.row_wellFormed sealed info now

theorem wellFormed_commit
    {slot : WriteSlot} {sealed : SealedVersion} {info : WriteMeta} {now : UnixTime}
    {st' : Store} {v : Version}
    (h : slot.tx.RowsWellFormed)
    (hcommit : slot.commit sealed info now = .ok (st', v)) :
    st'.RowsWellFormed := by
  obtain ⟨rfl, mid, hmid, rfl⟩ := WriteSlot.commit_eq_ok hcommit
  have hinserted : mid.RowsWellFormed := slot.wellFormed_insert h hmid
  refine wellFormed_prune ?_ slot.secretId slot.version slot.maxVersions
  exact hinserted

/-- A completed write preserves the invariant. -/
theorem inv_commit
    {st st' : Store} {path : SecretPath} {freshId : Uuid} {now now' : UnixTime}
    {slot : WriteSlot} {sealed : SealedVersion} {info : WriteMeta} {v : Version}
    (h : st.Inv)
    (hbegin : beginWrite st path freshId now = .ok slot)
    (hcommit : slot.commit sealed info now' = .ok (st', v)) :
    st'.Inv := by
  obtain ⟨⟨n, hver, hnum⟩, hversions, hothers⟩ := beginWrite_slot h hbegin
  obtain ⟨rfl, mid, hmid, rfl⟩ := WriteSlot.commit_eq_ok hcommit
  obtain ⟨-, hrows, hsecrets, -⟩ := Store.insertVersion_eq_ok hmid
  have hold :
      ∀ s ∈ mid.secrets.rows, s.id ≠ slot.secretId → s ∈ st.secrets.rows := by
    intro s hs hne
    rw [hsecrets] at hs
    exact hothers s hs hne
  refine inv_prune (Store.Inv.pointCurrent ?_ ?_ ?_ ?_) ?_
  · intro s hs
    by_cases hid : s.id = slot.secretId
    · rw [hid]
      exact ⟨n + 1, by omega, hnum.insert hrows rfl hver⟩
    · obtain ⟨k, hk, hknum⟩ := h.numbered s (hold s hs hid)
      rw [hversions] at hrows
      exact ⟨k, hk, hknum.insert_other hrows (Ne.symm hid)⟩
  · intro s hs hid
    refine (h.current s (hold s hs hid)).of_rows rfl rfl ?_
    intro r hr
    rw [hrows, hversions, List.mem_append, List.mem_singleton]
    constructor
    · rintro (hmem | rfl)
      · exact hmem
      · exact absurd hr.symm hid
    · exact .inl
  · refine slot.wellFormed_insert ?_ hmid
    intro r hr
    rw [hversions] at hr
    exact h.rows r hr
  · intro s hid hcur
    unfold Store.CurrentOk
    rw [hcur]
    refine ⟨slot.row sealed info now', ?_, ?_, rfl⟩
    · rw [hrows]
      simp
    · rw [hid]
      rfl
  · intro s hs hid
    obtain ⟨s₀, -, rfl⟩ := Store.mem_pointCurrent.mp hs
    split
    · rfl
    · rename_i hne
      rw [if_neg hne] at hid
      exact absurd hid hne

theorem inv_rollback
    {st st' : Store} {path : SecretPath} {target : Version} {now : UnixTime}
    (h : st.Inv)
    (hroll : rollback st path target now = .ok st') :
    st'.Inv := by
  obtain ⟨s, r, -, hr, hslot, hactive, rfl⟩ := rollback_eq_ok hroll
  refine Store.Inv.pointCurrent h.numbered (fun s' hs' _ => h.current s' hs') h.rows ?_
  intro s' hid hcur
  unfold Store.CurrentOk
  rw [hcur]
  exact ⟨r, hr, by rw [hid]; exact hslot, hactive⟩

theorem DeleteMode.apply_wellFormed
    {mode : DeleteMode} {r : VersionRow}
    (h : r.WellFormed) :
    (mode.apply r).WellFormed := by
  cases mode with
  | soft => exact VersionRow.softDelete_wellFormed h
  | destroy => exact VersionRow.destroy_wellFormed h

theorem mem_removeVersion
    {st : Store} {slot : Uuid × Version} {mode : DeleteMode} {r : VersionRow} :
    r ∈ (removeVersion st slot mode).versions.rows ↔
      ∃ r₀ ∈ st.versions.rows,
        (if mode.selects slot r₀ then mode.apply r₀ else r₀) = r := by
  simp [removeVersion, Store.updateVersions]

theorem removeVersion_slots
    (st : Store) (slot : Uuid × Version) (mode : DeleteMode) :
    (removeVersion st slot mode).versions.rows.map VersionRow.slot =
      st.versions.rows.map VersionRow.slot := by
  simp only [removeVersion, Store.updateVersions, Table.update, List.map_map]
  apply List.map_congr_left
  intro r _
  dsimp only [Function.comp_apply]
  split
  · exact mode.apply_slot r
  · rfl

theorem DeleteMode.slot_of_selects
    {mode : DeleteMode} {slot : Uuid × Version} {r : VersionRow}
    (h : mode.selects slot r = true) :
    r.slot = slot := by
  cases mode <;> simp only [DeleteMode.selects, decide_eq_true_eq] at h <;> exact h.1

/-- A deletion leaves the rows of other secrets alone. -/
theorem mem_removeVersion_of_ne
    {st : Store} {slot : Uuid × Version} {mode : DeleteMode} {r : VersionRow}
    (hne : r.secretId ≠ slot.1) :
    r ∈ (removeVersion st slot mode).versions.rows ↔ r ∈ st.versions.rows := by
  rw [mem_removeVersion]
  constructor
  · rintro ⟨r₀, hr₀, rfl⟩
    split at hne
    · rename_i hsel
      have hslot := (mode.apply_slot r₀).trans (DeleteMode.slot_of_selects hsel)
      exact absurd (congrArg Prod.fst hslot) hne
    · rename_i hkeep
      rw [if_neg hkeep]
      exact hr₀
  · intro hr
    refine ⟨r, hr, if_neg ?_⟩
    intro hsel
    exact hne (congrArg Prod.fst (DeleteMode.slot_of_selects hsel))

theorem numbered_removeVersion
    {st : Store}
    (h : st.Inv) (slot : Uuid × Version) (mode : DeleteMode) :
    ∀ s ∈ st.secrets.rows, ∃ n, 1 ≤ n ∧ (removeVersion st slot mode).NumberedTo s.id n := by
  intro s hs
  obtain ⟨n, hn, hnum⟩ := h.numbered s hs
  refine ⟨n, hn, hnum.of_slots ?_⟩
  intro v
  rw [removeVersion_slots]

theorem wellFormed_removeVersion
    {st : Store}
    (h : st.RowsWellFormed) (slot : Uuid × Version) (mode : DeleteMode) :
    (removeVersion st slot mode).RowsWellFormed := by
  intro r hr
  obtain ⟨r₀, hr₀, rfl⟩ := mem_removeVersion.mp hr
  split
  · exact DeleteMode.apply_wellFormed (h r₀ hr₀)
  · exact h r₀ hr₀

theorem inv_deleteVersion
    {st st' : Store} {path : SecretPath} {selector : VersionSelector} {mode : DeleteMode}
    {now : UnixTime} {v : Version}
    (h : st.Inv)
    (hdel : deleteVersion st path selector mode now = .ok (st', v)) :
    st'.Inv := by
  obtain ⟨s, -, rfl⟩ := deleteVersion_eq_ok hdel
  refine Store.Inv.pointCurrent (numbered_removeVersion h _ _) ?_
    (wellFormed_removeVersion h.rows _ _) ?_
  · intro s' hs' hne
    refine (h.current s' hs').of_rows rfl rfl ?_
    intro r hr
    exact mem_removeVersion_of_ne (by rw [hr]; exact hne)
  · intro s' hid hcur
    unfold Store.CurrentOk
    rw [hcur]
    cases hmax : (removeVersion st (s.id, v) mode).maxActive s.id with
    | some w =>
        obtain ⟨r, hr, hrid, hrver, hactive⟩ := Store.maxActive_eq_some hmax
        refine ⟨r, hr, ?_, hactive⟩
        rw [hid]
        exact Prod.ext hrid hrver
    | none =>
        intro r hr hrid
        exact Store.maxActive_eq_none hmax r hr (hrid.trans hid)

/-- Tag changes preserve the invariant. -/
theorem inv_touched
    {st st' : Store}
    (h : st.Inv)
    (htouch : st.Touched st') :
    st'.Inv := by
  obtain ⟨f, hf, hsecrets, hversions, -⟩ := htouch
  have hback : ∀ s ∈ st'.secrets.rows, ∃ s₀ ∈ st.secrets.rows, f s₀ = s := by
    intro s hs
    rw [hsecrets] at hs
    exact List.mem_map.mp hs
  refine ⟨?_, ?_, ?_⟩
  · intro s hs
    obtain ⟨s₀, hs₀, rfl⟩ := hback s hs
    obtain ⟨n, hn, hnum⟩ := h.numbered s₀ hs₀
    rw [(hf s₀).1]
    refine ⟨n, hn, hnum.of_slots ?_⟩
    intro v
    rw [hversions]
  · intro s hs
    obtain ⟨s₀, hs₀, rfl⟩ := hback s hs
    refine (h.current s₀ hs₀).of_rows (hf s₀).1 (hf s₀).2.2.1 ?_
    intro r _
    rw [hversions]
  · rw [hversions]
    exact h.rows

theorem VersionRow.Holds.withKey
    {r : VersionRow} {s : SealedVersion}
    (h : r.Holds s) (key : WrappedKey) :
    (r.withKey key).Holds { s with key := key } :=
  ⟨h.1, h.2.1, rfl, rfl, rfl⟩

theorem Rewrapped.state
    {rewrap : Rewrap} {r r' : VersionRow}
    (h : Rewrapped rewrap r r') :
    r'.state = r.state := by
  rcases h with ⟨-, rfl⟩ | ⟨-, i, h⟩
  · rfl
  · obtain ⟨key, key', -, -, rfl⟩ := rewrapRow_eq_ok h
    rfl

theorem Rewrapped.wellFormed
    {rewrap : Rewrap} {r r' : VersionRow}
    (h : Rewrapped rewrap r r')
    (hr : r.WellFormed) :
    r'.WellFormed := by
  rcases h with ⟨-, rfl⟩ | ⟨hd, i, h⟩
  · exact hr
  · obtain ⟨key, key', -, -, rfl⟩ := rewrapRow_eq_ok h
    obtain ⟨s, hs⟩ := hr.retained hd
    exact ⟨fun hd' => absurd hd' hd, fun _ => ⟨_, hs.withKey key'⟩, hr.time⟩

theorem wellFormed_rekeyWith
    {st st' : Store} {sealed : SealedMasterKey} {rewrap : Rewrap} {report : RekeyReport}
    (h : st.RowsWellFormed)
    (hrekey : rekeyWith st sealed rewrap = .ok (st', report)) :
    st'.RowsWellFormed := by
  intro r' hr'
  obtain ⟨r, hr, hrel⟩ := forall₂_mem_right (rewrapRows_forall₂ (rekeyWith_eq_ok hrekey).1) hr'
  exact hrel.wellFormed (h r hr)

/-- A rotation preserves the invariant, whatever its callback does. -/
theorem inv_rekeyWith
    {st st' : Store} {sealed : SealedMasterKey} {rewrap : Rewrap} {report : RekeyReport}
    (h : st.Inv)
    (hrekey : rekeyWith st sealed rewrap = .ok (st', report)) :
    st'.Inv := by
  obtain ⟨hrows, hsecrets, -⟩ := rekeyWith_eq_ok hrekey
  have hall := rewrapRows_forall₂ hrows
  refine ⟨?_, ?_, ?_⟩
  · intro s hs
    rw [hsecrets] at hs
    obtain ⟨n, hn, hnum⟩ := h.numbered s hs
    refine ⟨n, hn, hnum.of_slots ?_⟩
    intro v
    rw [rewrapRows_slots hrows]
  · intro s hs
    rw [hsecrets] at hs
    have hcur := h.current s hs
    unfold Store.CurrentOk at hcur ⊢
    cases hc : s.currentVersion with
    | some v =>
        rw [hc] at hcur
        obtain ⟨r, hr, hslot, hactive⟩ := hcur
        obtain ⟨r', hr', hrel⟩ := forall₂_mem_left hall hr
        exact ⟨r', hr', hrel.slot.trans hslot, hrel.state.trans hactive⟩
    | none =>
        rw [hc] at hcur
        intro r' hr' hid
        obtain ⟨r, hr, hrel⟩ := forall₂_mem_right hall hr'
        rw [hrel.state]
        exact hcur r hr ((congrArg Prod.fst hrel.slot).symm.trans hid)
  · exact wellFormed_rekeyWith h.rows hrekey

end Operations

section Import

/-- What the exported secrets of a well-formed store look like. -/
structure ExportedSecret.WellFormed (e : ExportedSecret) : Prop where
  numbered : ∃ n, 1 ≤ n ∧
    ∀ m, (∃ x ∈ e.versions, x.version.toNat = m) ↔ 1 ≤ m ∧ m ≤ n
  active : ∀ v, e.currentVersion = some v →
    ∃ x ∈ e.versions, x.version = v ∧ x.state = .active
  inactive : e.currentVersion = none → ∀ x ∈ e.versions, x.state ≠ .active
  sealed : ∀ x ∈ e.versions, x.sealed = none ↔ x.state = .destroyed

theorem VersionRow.exportSealed_of_holds
    {r : VersionRow} {s : SealedVersion}
    (h : r.Holds s) :
    r.exportSealed = .ok (some s) := by
  obtain ⟨h1, h2, h3, h4, h5⟩ := h
  simp [VersionRow.exportSealed, h1, h2, h3, h4, h5, liftCrypto, Except.mapError, bind,
    Except.bind]

theorem VersionRow.exportSealed_of_cleared
    {r : VersionRow}
    (h : r.Cleared) :
    r.exportSealed = .ok none := by
  simp [VersionRow.exportSealed, h.1]

theorem exportedVersion_eq_ok
    {r : VersionRow} {x : ExportedVersion}
    (hr : r.WellFormed)
    (h : exportedVersion r = .ok x) :
    x.version = r.version ∧ x.state = r.state ∧ (x.sealed = none ↔ r.state = .destroyed) := by
  obtain ⟨sealed, hsealed, h⟩ := bind_eq_ok.mp h
  obtain ⟨t, -, h⟩ := bind_eq_ok.mp h
  cases h
  refine ⟨rfl, rfl, ?_⟩
  by_cases hd : r.state = .destroyed
  · rw [VersionRow.exportSealed_of_cleared (hr.destroyed hd)] at hsealed
    cases hsealed
    simp [hd]
  · obtain ⟨s, hs⟩ := hr.retained hd
    rw [VersionRow.exportSealed_of_holds hs] at hsealed
    cases hsealed
    simp [hd]

/-- Rows of a secret and its exported versions correspond, in either direction. -/
theorem exportedVersions_rows
    {st : Store} {id : Uuid} {versions : List ExportedVersion}
    (h : st.Inv)
    (hversions : exportedVersions st id = .ok versions) :
    (∀ r ∈ st.versions.rows, r.secretId = id →
      ∃ x ∈ versions, x.version = r.version ∧ x.state = r.state) ∧
    ∀ x ∈ versions, ∃ r ∈ st.versions.rows, r.secretId = id ∧
      x.version = r.version ∧ x.state = r.state ∧
      (x.sealed = none ↔ r.state = .destroyed) := by
  have hall := mapM_eq_ok hversions
  constructor
  · intro r hr hid
    obtain ⟨x, hx, hxr⟩ := forall₂_mem_left hall
      (List.mem_mergeSort.mpr (Store.mem_versionsOf.mpr ⟨hr, hid⟩))
    obtain ⟨hver, hstate, -⟩ := exportedVersion_eq_ok (h.rows r hr) hxr
    exact ⟨x, hx, hver, hstate⟩
  · intro x hx
    obtain ⟨r, hr, hxr⟩ := forall₂_mem_right hall hx
    obtain ⟨hr, hid⟩ := Store.mem_versionsOf.mp (List.mem_mergeSort.mp hr)
    exact ⟨r, hr, hid, exportedVersion_eq_ok (h.rows r hr) hxr⟩

/-- Versions that correspond to the rows of a secret make a well-formed secret. -/
theorem ExportedSecret.wellFormed_of_rows
    {st : Store} {s : SecretRow} {e : ExportedSecret}
    (h : st.Inv)
    (hs : s ∈ st.secrets.rows)
    (hcurrent : e.currentVersion = s.currentVersion)
    (hleft : ∀ r ∈ st.versions.rows, r.secretId = s.id →
      ∃ x ∈ e.versions, x.version = r.version ∧ x.state = r.state)
    (hright : ∀ x ∈ e.versions, ∃ r ∈ st.versions.rows, r.secretId = s.id ∧
      x.version = r.version ∧ x.state = r.state ∧
      (x.sealed = none ↔ r.state = .destroyed)) :
    e.WellFormed := by
  have hcur := h.current s hs
  unfold Store.CurrentOk at hcur
  refine ⟨?_, ?_, ?_, ?_⟩
  · obtain ⟨n, hn, hnum⟩ := h.numbered s hs
    refine ⟨n, hn, ?_⟩
    intro m
    rw [← hnum m]
    constructor
    · rintro ⟨x, hx, hm⟩
      obtain ⟨r, hr, hid, hver, -⟩ := hright x hx
      exact ⟨r, hr, hid, by rw [← hver]; exact hm⟩
    · rintro ⟨r, hr, hid, hm⟩
      obtain ⟨x, hx, hver, -⟩ := hleft r hr hid
      exact ⟨x, hx, by rw [hver]; exact hm⟩
  · intro v hv
    rw [← hcurrent, hv] at hcur
    obtain ⟨r, hr, hslot, hactive⟩ := hcur
    obtain ⟨x, hx, hver, hstate⟩ := hleft r hr (congrArg Prod.fst hslot)
    exact ⟨x, hx, hver.trans (congrArg Prod.snd hslot), hstate.trans hactive⟩
  · intro hv x hx
    rw [← hcurrent, hv] at hcur
    obtain ⟨r, hr, hid, -, hstate, -⟩ := hright x hx
    rw [hstate]
    exact hcur r hr hid
  · intro x hx
    obtain ⟨r, hr, hid, -, hstate, hsealed⟩ := hright x hx
    rw [hstate]
    exact hsealed

/-- What the export of a well-formed store contains is well formed. -/
theorem exportSecrets_wellFormed
    {st : Store} {es : List ExportedSecret} {e : ExportedSecret}
    (h : st.Inv)
    (hexport : exportSecrets st = .ok es)
    (he : e ∈ es) :
    e.WellFormed := by
  obtain ⟨s, hs, hes⟩ := forall₂_mem_right (mapM_eq_ok hexport) he
  have hs : s ∈ st.secrets.rows := List.mem_mergeSort.mp hs
  obtain ⟨tagList, -, hes⟩ := bind_eq_ok.mp hes
  obtain ⟨versions, hversions, hes⟩ := bind_eq_ok.mp hes
  cases hes
  obtain ⟨hleft, hright⟩ := exportedVersions_rows h hversions
  exact ExportedSecret.wellFormed_of_rows h hs rfl hleft hright

/-- What the loop of the import inserts. -/
theorem importVersions_eq_ok
    {id : Uuid} {tx tx' : Store} {vs : List ExportedVersion}
    (h : importVersions id tx vs = .ok tx') :
    ∃ rows, List.Forall₂ (fun v r => importedRow id v = .ok r) vs rows ∧
      tx'.versions.rows = tx.versions.rows ++ rows ∧ tx'.secrets = tx.secrets := by
  induction vs generalizing tx with
  | nil =>
      cases h
      exact ⟨[], .nil, by simp, rfl⟩
  | cons v vs ih =>
      obtain ⟨row, hrow, h⟩ := bind_eq_ok.mp h
      obtain ⟨mid, hmid, h⟩ := bind_eq_ok.mp h
      obtain ⟨-, hrows, hsecrets, -⟩ := Store.insertVersion_eq_ok hmid
      obtain ⟨rest, hall, hrest, hsecrets'⟩ := ih h
      refine ⟨row :: rest, .cons hrow hall, ?_, hsecrets'.trans hsecrets⟩
      rw [hrest, hrows]
      simp

theorem importedRow_eq_ok
    {id : Uuid} {v : ExportedVersion} {r : VersionRow}
    (h : importedRow id v = .ok r)
    (hv : v.sealed = none ↔ v.state = .destroyed) :
    r.secretId = id ∧ r.version = v.version ∧ r.state = v.state ∧ r.WellFormed := by
  unfold importedRow at h
  split at h
  · cases h
    refine ⟨rfl, rfl, rfl, ?_, ?_, v.createdAt.inRange⟩
    · intro hd
      simp [VersionRow.Cleared, hv.mpr hd]
    · intro hd
      obtain ⟨s, hs⟩ := Option.ne_none_iff_exists'.mp (fun hn => hd (hv.mp hn))
      exact ⟨s, by simp [VersionRow.Holds, hs]⟩
  · cases h

/-- `st'` is `st` with the secret `e` imported under a fresh id as `rows`. -/
structure Store.Imports (st st' : Store) (id : Uuid) (e : ExportedSecret) (now : UnixTime)
    (rows : List VersionRow) : Prop where
  secrets : st'.secrets.rows = st.secrets.rows ++ [importedSecret id e now]
  versions : st'.versions.rows = st.versions.rows ++ rows
  fresh : ∀ s ∈ st.secrets.rows, s.id ≠ id
  foreign : ∀ r ∈ st.versions.rows, r.secretId ≠ id
  ofExport : ∀ r ∈ rows, ∃ x ∈ e.versions, r.secretId = id ∧ r.version = x.version ∧
    r.state = x.state ∧ r.WellFormed
  covers : ∀ x ∈ e.versions, ∃ r ∈ rows, r.secretId = id ∧ r.version = x.version ∧
    r.state = x.state

/-- The import up to the tags. -/
theorem imports_of_eq_ok
    {st tx tx' : Store} {id : Uuid} {e : ExportedSecret} {now : UnixTime}
    (he : e.WellFormed)
    (hins : st.insertSecret (importedSecret id e now) = .ok tx)
    (hvers : importVersions id tx e.versions = .ok tx') :
    ∃ rows, st.Imports tx' id e now rows := by
  obtain ⟨hfresh, -, hsecrets, hversions, -⟩ := Store.insertSecret_eq_ok hins
  obtain ⟨rows, hall, hrows, hsecrets'⟩ := importVersions_eq_ok hvers
  refine ⟨rows, ?_, ?_, hfresh, ?_, ?_, ?_⟩
  · rw [hsecrets', hsecrets]
  · rw [hrows, hversions]
  · intro r hr hid
    obtain ⟨s, hs, hsid⟩ := st.versionRefs r hr
    exact hfresh s hs (hsid.trans hid)
  · intro r hr
    obtain ⟨x, hx, hxr⟩ := forall₂_mem_right hall hr
    exact ⟨x, hx, importedRow_eq_ok hxr (he.sealed x hx)⟩
  · intro x hx
    obtain ⟨r, hr, hxr⟩ := forall₂_mem_left hall hx
    obtain ⟨h1, h2, h3, -⟩ := importedRow_eq_ok hxr (he.sealed x hx)
    exact ⟨r, hr, h1, h2, h3⟩

section Imports

variable {st st' : Store} {id : Uuid} {e : ExportedSecret} {now : UnixTime}
  {rows : List VersionRow}

/-- An import touches no version of an older secret. -/
theorem Store.Imports.mem_iff
    (himp : st.Imports st' id e now rows)
    {s : SecretRow} {r : VersionRow}
    (hs : s ∈ st.secrets.rows)
    (hrid : r.secretId = s.id) :
    r ∈ st'.versions.rows ↔ r ∈ st.versions.rows := by
  rw [himp.versions, List.mem_append]
  constructor
  · rintro (hmem | hmem)
    · exact hmem
    · obtain ⟨x, -, hid, -⟩ := himp.ofExport r hmem
      exact absurd (hrid.symm.trans hid) (himp.fresh s hs)
  · exact .inl

/-- The versions of the imported secret are those of the export. -/
theorem Store.Imports.numbered_new
    (himp : st.Imports st' id e now rows)
    (he : e.WellFormed) :
    ∃ n, 1 ≤ n ∧ st'.NumberedTo id n := by
  obtain ⟨n, hn, hnum⟩ := he.numbered
  refine ⟨n, hn, ?_⟩
  intro m
  rw [← hnum m, himp.versions]
  constructor
  · rintro ⟨r, hr, hid, hm⟩
    rcases List.mem_append.mp hr with hr | hr
    · exact absurd hid (himp.foreign r hr)
    · obtain ⟨x, hx, -, hver, -⟩ := himp.ofExport r hr
      exact ⟨x, hx, by rw [← hver]; exact hm⟩
  · rintro ⟨x, hx, hm⟩
    obtain ⟨r, hr, hid, hver, -⟩ := himp.covers x hx
    exact ⟨r, List.mem_append_right _ hr, hid, by rw [hver]; exact hm⟩

theorem Store.Imports.current_new
    (himp : st.Imports st' id e now rows)
    (he : e.WellFormed) :
    st'.CurrentOk (importedSecret id e now) := by
  unfold Store.CurrentOk
  cases hc : (importedSecret id e now).currentVersion with
  | some v =>
      obtain ⟨x, hx, hver, hactive⟩ := he.active v hc
      obtain ⟨r, hr, hid, hrver, hstate⟩ := himp.covers x hx
      refine ⟨r, ?_, Prod.ext hid (hrver.trans hver), hstate.trans hactive⟩
      rw [himp.versions]
      exact List.mem_append_right _ hr
  | none =>
      intro r hr hid
      rw [himp.versions] at hr
      rcases List.mem_append.mp hr with hr | hr
      · exact absurd hid (himp.foreign r hr)
      · obtain ⟨x, hx, -, -, hstate, -⟩ := himp.ofExport r hr
        rw [hstate]
        exact he.inactive hc x hx

theorem Store.Imports.inv
    (himp : st.Imports st' id e now rows)
    (h : st.Inv)
    (he : e.WellFormed) :
    st'.Inv := by
  refine ⟨?_, ?_, ?_⟩
  · intro s hs
    rw [himp.secrets, List.mem_append, List.mem_singleton] at hs
    rcases hs with hs | rfl
    · obtain ⟨n, hn, hnum⟩ := h.numbered s hs
      refine ⟨n, hn, fun m => ?_⟩
      rw [← hnum m]
      constructor
      · rintro ⟨r, hr, hid, hm⟩
        exact ⟨r, (himp.mem_iff hs hid).mp hr, hid, hm⟩
      · rintro ⟨r, hr, hid, hm⟩
        exact ⟨r, (himp.mem_iff hs hid).mpr hr, hid, hm⟩
    · exact himp.numbered_new he
  · intro s hs
    rw [himp.secrets, List.mem_append, List.mem_singleton] at hs
    rcases hs with hs | rfl
    · exact (h.current s hs).of_rows rfl rfl (fun r hrid => himp.mem_iff hs hrid)
    · exact himp.current_new he
  · intro r hr
    rw [himp.versions] at hr
    rcases List.mem_append.mp hr with hr | hr
    · exact h.rows r hr
    · obtain ⟨x, -, -, -, -, hwf⟩ := himp.ofExport r hr
      exact hwf

end Imports

theorem inv_import
    {st st' : Store} {id : Uuid} {e : ExportedSecret} {now : UnixTime}
    (h : st.Inv)
    (he : e.WellFormed)
    (himport : importSecretWithId st id e now = .ok st') :
    st'.Inv := by
  unfold importSecretWithId at himport
  split at himport
  · cases himport
  obtain ⟨tx, hins, himport⟩ := bind_eq_ok.mp himport
  obtain ⟨tx', hvers, htags⟩ := bind_eq_ok.mp himport
  obtain ⟨rows, himp⟩ := imports_of_eq_ok he hins hvers
  exact inv_touched (himp.inv h he) (addTags_frame htags)

end Import

end Storage
end Secretbae
