import Secretbae.Store.Import
import Secretbae.Store.Lifecycle
import Secretbae.Store.TokenRuns

/-!
# What operations leave alone

The tags of secrets under operations that are not about tags, and the standing
of a token under operations on other tokens and on policies it does not have.
-/

namespace Secretbae
namespace Storage

open Lib Proto Core Policies
open Daemon (LookupPrefix)

section Tags

variable {st st' : Store}

/-- The two tag tables are the same. -/
def Store.SameTagTables (st st' : Store) : Prop :=
  st'.tags = st.tags ∧ st'.secretTags = st.secretTags

/-- Every secret carries at least the tags it carried. -/
def Store.TagsKept (st st' : Store) : Prop :=
  ∀ q t, st.Carries q t → st'.Carries q t

theorem Store.TagsKept.refl
    (st : Store) :
    st.TagsKept st :=
  fun _ _ h => h

theorem Store.TagsKept.trans
    {st'' : Store}
    (h : st.TagsKept st')
    (h' : st'.TagsKept st'') :
    st.TagsKept st'' :=
  fun q t ht => h' q t (h q t ht)

/-- Secrets that stay at their paths keep their tags. -/
theorem Store.tagsKept_of_secrets
    (hsecrets : ∀ path s, st.secretByPath path = some s →
      ∃ s', st'.secretByPath path = some s' ∧ s'.id = s.id)
    (htables : st.SameTagTables st') :
    st.TagsKept st' := by
  rintro q t ⟨s, hs, ht⟩
  obtain ⟨s', hs', hid⟩ := hsecrets q s hs
  refine ⟨s', hs', ?_⟩
  rw [Store.tagsOf_congr htables.1 htables.2, hid]
  exact ht

theorem beginWrite_tagTables
    {path : SecretPath} {freshId : Uuid} {began : UnixTime} {slot : WriteSlot}
    (h : beginWrite st path freshId began = .ok slot) :
    st.SameTagTables slot.tx := by
  obtain ⟨⟨tx, id, maxVersions⟩, htx, h⟩ := bind_eq_ok.mp h
  obtain ⟨version, -, h⟩ := bind_eq_ok.mp h
  cases h
  unfold findOrCreate at htx
  split at htx
  · cases htx
    exact ⟨rfl, rfl⟩
  · obtain ⟨tx', hins, htx⟩ := bind_eq_ok.mp htx
    cases htx
    exact Store.insertSecret_tagTables hins

theorem prune_tagTables
    (st : Store) (id : Uuid) (keep : Version) (maxVersions : UInt32) :
    st.SameTagTables (prune st id keep maxVersions) := by
  unfold prune
  split
  · exact ⟨rfl, rfl⟩
  · exact ⟨rfl, rfl⟩

theorem commit_tagTables
    {slot : WriteSlot} {sealed : SealedVersion} {info : WriteMeta} {now : UnixTime}
    {v : Version}
    (h : slot.commit sealed info now = .ok (st', v)) :
    slot.tx.SameTagTables st' := by
  obtain ⟨-, mid, hmid, rfl⟩ := WriteSlot.commit_eq_ok h
  obtain ⟨htags, hlinks⟩ := Store.insertVersion_tagTables hmid
  obtain ⟨htags', hlinks'⟩ := prune_tagTables
    (mid.pointCurrent slot.secretId (some slot.version) now.seconds) slot.secretId slot.version
    slot.maxVersions
  exact ⟨htags'.trans htags, hlinks'.trans hlinks⟩

theorem tagsKept_write
    {P : Primitives} {vault vault' : Vault} {path : SecretPath} {freshId : Uuid}
    {began now : UnixTime} {draws : SealDraws} {plaintext : Bytes} {info : WriteMeta}
    {v : Version}
    (h : vault.write P path freshId began draws plaintext info now = .ok (vault', v)) :
    vault.store.TagsKept vault'.store := by
  obtain ⟨slot, sealed, hbegin, -, hcommit, -, -⟩ := Vault.write_eq_ok h
  obtain ⟨htags, hlinks⟩ := beginWrite_tagTables hbegin
  obtain ⟨htags', hlinks'⟩ := commit_tagTables hcommit
  exact Store.tagsKept_of_secrets (le_write h).secrets
    ⟨htags'.trans htags, hlinks'.trans hlinks⟩

theorem tagsKept_rollback
    {path : SecretPath} {target : Version} {now : UnixTime}
    (h : rollback st path target now = .ok st') :
    st.TagsKept st' := by
  obtain ⟨s, r, -, -, -, -, rfl⟩ := rollback_eq_ok h
  exact Store.tagsKept_of_secrets (secretByPath_pointCurrent _ _ _ fun _ hs => hs) ⟨rfl, rfl⟩

theorem tagsKept_deleteVersion
    {path : SecretPath} {selector : VersionSelector} {mode : DeleteMode} {now : UnixTime}
    {v : Version}
    (h : deleteVersion st path selector mode now = .ok (st', v)) :
    st.TagsKept st' := by
  obtain ⟨s, -, rfl⟩ := deleteVersion_eq_ok h
  exact Store.tagsKept_of_secrets (secretByPath_pointCurrent _ _ _ fun _ hs => hs) ⟨rfl, rfl⟩

theorem tagsKept_addTags
    {path : SecretPath} {tags : List Tag} {now : UnixTime}
    (h : addTags st path tags now = .ok st') :
    st.TagsKept st' :=
  fun q t ht => (addTags_carries h q t).mpr (.inl ht)

theorem tagsKept_import
    {id : Uuid} {e : ExportedSecret} {now : UnixTime}
    (h : importSecretWithId st id e now = .ok st') :
    st.TagsKept st' := by
  obtain ⟨-, -, -, -, htags⟩ := importSecretWithId_eq_ok h
  exact fun q t ht => (htags q t).mpr (.inl ht)

theorem rekeyWith_tagTables
    {sealed : SealedMasterKey} {rewrap : Rewrap} {report : RekeyReport}
    (h : rekeyWith st sealed rewrap = .ok (st', report)) :
    st.SameTagTables st' := by
  unfold rekeyWith at h
  split at h
  · cases h
  · cases h
    exact ⟨rfl, rfl⟩

theorem tagsKept_rekeyWith
    {sealed : SealedMasterKey} {rewrap : Rewrap} {report : RekeyReport}
    (h : rekeyWith st sealed rewrap = .ok (st', report)) :
    st.TagsKept st' := by
  refine Store.tagsKept_of_secrets ?_ (rekeyWith_tagTables h)
  intro path s hs
  exact ⟨s, (Store.secretByPath_congr (rekeyWith_eq_ok h).2.1 path).trans hs, rfl⟩

end Tags

section Standing

variable {J : PolicyJson} {acc acc' : Access} {id : Uuid}

/-- A token exists under its public prefix and has not been revoked. -/
def Access.Live (acc : Access) (id : Uuid) (lookup : LookupPrefix) : Prop :=
  ∃ r ∈ acc.tokens.rows, r.id = id ∧ r.lookupPrefix = lookup ∧ r.revokedAt = none

/-- A token that is not revoked stays so, with the policies it has. -/
def Access.StandingKept (acc acc' : Access) (id : Uuid) : Prop :=
  ∀ lookup, acc.Live id lookup →
    acc'.Live id lookup ∧ acc'.attachedRows id = acc.attachedRows id

theorem Access.StandingKept.refl
    (acc : Access) (id : Uuid) :
    acc.StandingKept acc id :=
  fun _ h => ⟨h, rfl⟩

theorem Access.StandingKept.trans
    {acc'' : Access}
    (h : acc.StandingKept acc' id)
    (h' : acc'.StandingKept acc'' id) :
    acc.StandingKept acc'' id := by
  intro lookup hlive
  obtain ⟨hlive', hrows⟩ := h lookup hlive
  obtain ⟨hlive'', hrows'⟩ := h' lookup hlive'
  exact ⟨hlive'', hrows'.trans hrows⟩

/-- A row is linked to a token. -/
def Access.linked (acc : Access) (id : Uuid) (p : PolicyRow) : Bool :=
  acc.tokenPolicies.rows.any fun l => decide (l.tokenId = id ∧ l.policyId = p.id)

theorem Access.linked_iff
    {p : PolicyRow} :
    acc.linked id p = true ↔
      ∃ l ∈ acc.tokenPolicies.rows, l.tokenId = id ∧ l.policyId = p.id := by
  simp [Access.linked]

/-- The attached policies are decided by the linked rows alone. -/
theorem Access.attachedRows_congr
    (h : acc'.policies.rows.filter (acc'.linked id) = acc.policies.rows.filter (acc.linked id)) :
    acc'.attachedRows id = acc.attachedRows id := by
  exact congrArg (fun rows => rows.mergeSort fun a b => nameLe a.name b.name) h

/-- Statements on other tokens do not change the policies of a token. -/
theorem Access.attachedRows_of_links
    (hpolicies : acc'.policies = acc.policies)
    (hlinks : ∀ l : TokenPolicyRow, l.tokenId = id →
      (l ∈ acc'.tokenPolicies.rows ↔ l ∈ acc.tokenPolicies.rows)) :
    acc'.attachedRows id = acc.attachedRows id := by
  refine Access.attachedRows_congr ?_
  rw [hpolicies]
  refine List.filter_congr ?_
  intro p _
  rw [Bool.eq_iff_iff, Access.linked_iff, Access.linked_iff]
  constructor
  · rintro ⟨l, hl, hid, hp⟩
    exact ⟨l, (hlinks l hid).mp hl, hid, hp⟩
  · rintro ⟨l, hl, hid, hp⟩
    exact ⟨l, (hlinks l hid).mpr hl, hid, hp⟩

theorem standingKept_touchToken
    (acc : Access) (used : Uuid) (now : UnixTime) (id : Uuid) :
    acc.StandingKept (touchToken acc used now) id := by
  rintro lookup ⟨r, hr, hid, hlookup, hlive⟩
  refine ⟨⟨TokenRow.touch used now r, List.mem_map_of_mem hr, ?_, ?_, ?_⟩, rfl⟩
  · unfold TokenRow.touch
    split
    · exact hid
    · exact hid
  · unfold TokenRow.touch
    split
    · exact hlookup
    · exact hlookup
  · unfold TokenRow.touch
    split
    · exact hlive
    · exact hlive

theorem standingKept_createToken
    {token : NewToken} {now : UnixTime}
    (h : createToken acc token now = .ok acc') (id : Uuid) :
    acc.StandingKept acc' id := by
  obtain ⟨hfresh, hrows, hpolicies, hlinks⟩ := createToken_eq_ok h
  rintro lookup ⟨r, hr, rfl, hlookup, hlive⟩
  refine ⟨⟨r, ?_, rfl, hlookup, hlive⟩, Access.attachedRows_of_links hpolicies ?_⟩
  · rw [hrows]
    exact List.mem_append_left _ hr
  · intro l hl
    refine hlinks l ?_
    rw [hl]
    exact (hfresh r hr).1

/-- A revocation of another token. -/
theorem standingKept_revokeToken
    {lookup : LookupPrefix} {now : UnixTime}
    (h : revokeToken acc lookup now = .ok acc')
    (hother : ∀ r ∈ acc.tokens.rows, r.id = id → r.lookupPrefix ≠ lookup) :
    acc.StandingKept acc' id := by
  obtain ⟨-, hrows, hpolicies, hlinks⟩ := revokeToken_eq_ok h
  rintro lookup' ⟨r, hr, hid, hlookup, hlive⟩
  refine ⟨⟨r, ?_, hid, hlookup, hlive⟩, ?_⟩
  · rw [hrows]
    refine List.mem_map.mpr ⟨r, hr, ?_⟩
    rw [TokenRow.revoke, if_neg]
    exact fun hboth => hother r hr hid hboth.1
  · refine Access.attachedRows_of_links hpolicies ?_
    intro l _
    rw [hlinks]

/-- A policy that a token does not have may be put, replaced or not. -/
theorem standingKept_putPolicy
    {policy : Policy} {now : UnixTime}
    (h : putPolicy J acc policy now = .ok acc')
    (hother : policy.name ∉ policyNamesForToken acc id) :
    acc.StandingKept acc' id := by
  have hnames : ∀ p ∈ acc.policies.rows, acc.linked id p = true → p.name ≠ policy.name := by
    intro p hp hlinked heq
    refine hother (List.mem_map.mpr ⟨p, ?_, heq⟩)
    exact Access.mem_attachedRows.mpr ⟨hp, Access.linked_iff.mp hlinked⟩
  intro lookup hlive
  unfold putPolicy at h
  split at h
  · cases h
    refine ⟨hlive, Access.attachedRows_congr ?_⟩
    have hlinked : acc.linked id ∘ PolicyRow.redocument policy.name (policy.toJson J) =
        acc.linked id := by
      funext p
      unfold Function.comp PolicyRow.redocument
      split <;> rfl
    change (acc.policies.rows.map _).filter (acc.linked id) = _
    rw [List.filter_map, hlinked]
    refine (List.map_congr_left ?_).trans (List.map_id _)
    intro p hp
    obtain ⟨hmem, hp⟩ := List.mem_filter.mp hp
    exact if_neg (hnames p hmem hp)
  · obtain ⟨htokens, hlinks, hrows⟩ := Access.insertPolicy_eq_ok h
    refine ⟨?_, Access.attachedRows_congr ?_⟩
    · unfold Access.Live
      rw [htokens]
      exact hlive
    · have hlinked : ∀ p, acc'.linked id p = acc.linked id p := by
        intro p
        rw [Access.linked, Access.linked, hlinks]
      rw [List.filter_congr fun p _ => hlinked p, hrows, List.filter_append]
      refine List.append_right_eq_self.mpr (List.filter_eq_nil_iff.mpr ?_)
      -- no link leads to a row id that is not in use
      intro p hp hlinked
      obtain rfl := List.mem_singleton.mp hp
      obtain ⟨l, hl, -, hid⟩ := Access.linked_iff.mp hlinked
      obtain ⟨-, q, hq, hqid⟩ := acc.tokenPolicyRefs l hl
      have hlt := Access.lt_nextPolicyId hq
      simp only at hid
      omega

/-- A policy that a token does not have may be deleted. -/
theorem standingKept_deletePolicy
    {name : String}
    (h : deletePolicy acc name = .ok acc')
    (hother : name ∉ policyNamesForToken acc id) :
    acc.StandingKept acc' id := by
  obtain rfl := deletePolicy_eq_ok h
  intro lookup hlive
  refine ⟨hlive, Access.attachedRows_congr ?_⟩
  change (acc.policies.rows.filter _).filter ((acc.dropPolicy name).linked id) = _
  rw [List.filter_filter]
  refine List.filter_congr ?_
  intro p hp
  rw [Bool.eq_iff_iff, Bool.and_eq_true, Access.linked_iff, Access.linked_iff,
    decide_eq_true_eq]
  constructor
  · rintro ⟨⟨l, hl, hlid, hpid⟩, -⟩
    exact ⟨l, (Table.mem_keep.mp hl).1, hlid, hpid⟩
  · rintro ⟨l, hl, hlid, hpid⟩
    have hname : p.name ≠ name := by
      intro heq
      refine hother (List.mem_map.mpr ⟨p, ?_, heq⟩)
      exact Access.mem_attachedRows.mpr ⟨hp, l, hl, hlid, hpid⟩
    refine ⟨⟨l, Table.mem_keep.mpr ⟨hl, ?_⟩, hlid, hpid⟩, hname⟩
    exact List.any_eq_true.mpr ⟨p, hp, decide_eq_true ⟨hname, hpid.symm⟩⟩

end Standing

end Storage
end Secretbae
