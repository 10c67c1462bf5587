import Secretbae.Lib.Runs
import Mathlib.Tactic

/-!
# The credentials of a process

The ids of a process, each kind in its three copies, its supplementary groups,
and whether it has the capabilities to set them at will.  The kernel is a
parameter; `Kernel.Documented` is what its manual says of the calls that ask for
other credentials, and of what these make of the attribute that lets a process
be dumped.

A process all of whose user ids are one, which is not 0, and that has neither
capability, is `Dropped`.  Nothing it calls from then on changes that
(`Dropped.calls`).  `Kernel.standard` is a kernel that behaves as documented.
-/

namespace Secretbae
namespace Lib

structure Credentials where
  ruid : UInt32
  euid : UInt32
  suid : UInt32
  rgid : UInt32
  egid : UInt32
  sgid : UInt32
  groups : List UInt32
  /-- `CAP_SETUID`, in the effective set. -/
  setsUids : Bool
  /-- `CAP_SETGID`, in the effective set. -/
  setsGids : Bool
deriving DecidableEq

namespace Credentials

def uids (c : Credentials) : List UInt32 :=
  [c.ruid, c.euid, c.suid]

def gids (c : Credentials) : List UInt32 :=
  [c.rgid, c.egid, c.sgid]

end Credentials

/-- A call that asks for other credentials; an id that is `none` is to stay. -/
inductive CredentialCall where
  | setuid (uid : UInt32)
  | setresuid (real effective saved : Option UInt32)
  | setgid (gid : UInt32)
  | setresgid (real effective saved : Option UInt32)
  | setgroups (groups : List UInt32)

/-- Whether a process may be dumped, and the dump read: 0, 1 and 2 of `PR_SET_DUMPABLE`. -/
inductive Dumpable where
  | never
  | always
  | rootOnly
deriving DecidableEq

structure Kernel where
  /-- Whether a call succeeds, and the credentials after it. -/
  call : CredentialCall → Credentials → Bool × Credentials
  /-- `fs.suid_dumpable`. -/
  suidDumpable : Dumpable
  /-- What the attribute is once the first credentials have become the second. -/
  dumpable : Credentials → Credentials → Dumpable → Dumpable

instance : CoeFun Kernel fun _ => CredentialCall → Credentials → Bool × Credentials :=
  ⟨Kernel.call⟩

/-- The effective ids are the same. -/
def Credentials.SameEffective (c c' : Credentials) : Prop :=
  c'.euid = c.euid ∧ c'.egid = c.egid

instance (c c' : Credentials) : Decidable (c.SameEffective c') :=
  inferInstanceAs (Decidable (_ ∧ _))

def CredentialCall.allUids (uid : UInt32) : CredentialCall :=
  .setresuid (some uid) (some uid) (some uid)

def CredentialCall.allGids (gid : UInt32) : CredentialCall :=
  .setresgid (some gid) (some gid) (some gid)

/-- Which ids a call is about. -/
inductive IdKind where
  | user
  | group
  | supplementary
deriving DecidableEq

def CredentialCall.kind : CredentialCall → IdKind
  | .setuid _ | .setresuid .. => .user
  | .setgid _ | .setresgid .. => .group
  | .setgroups _ => .supplementary

/-- What is documented of the calls. -/
structure Kernel.Documented (K : Kernel) : Prop where
  /-- A call changes nothing that it is not about. -/
  users_only :
    ∀ call c, call.kind ≠ .user → (K call c).2.uids = c.uids ∧
      (K call c).2.setsUids = c.setsUids ∧ (K call c).2.setsGids = c.setsGids
  gids_only : ∀ call c, call.kind ≠ .group → (K call c).2.gids = c.gids
  groups_only : ∀ call c, call.kind ≠ .supplementary → (K call c).2.groups = c.groups
  setresuid_ids :
    ∀ c r e s, (K (.setresuid (some r) (some e) (some s)) c).1 = true →
      (K (.setresuid (some r) (some e) (some s)) c).2.uids = [r, e, s]
  setresgid_ids :
    ∀ c r e s, (K (.setresgid (some r) (some e) (some s)) c).1 = true →
      (K (.setresgid (some r) (some e) (some s)) c).2.gids = [r, e, s]
  setgroups_groups :
    ∀ c groups, (K (.setgroups groups) c).1 = true → (K (.setgroups groups) c).2.groups = groups
  setuid_id : ∀ c uid, (K (.setuid uid) c).1 = true → (K (.setuid uid) c).2.euid = uid
  /-- Whoever may take any id, or has this one, is given it. -/
  setuid_permitted :
    ∀ c uid, c.setsUids = true ∨ uid = c.ruid ∨ uid = c.suid → (K (.setuid uid) c).1 = true
  /-- Without its capability a process has only the ids to choose from that it has. -/
  uids_chosen : ∀ call c, c.setsUids = false → ∀ uid ∈ (K call c).2.uids, uid ∈ c.uids
  gids_chosen : ∀ call c, c.setsGids = false → ∀ gid ∈ (K call c).2.gids, gid ∈ c.gids
  groups_chosen : ∀ call c, c.setsGids = false → (K call c).2.groups = c.groups
  /-- Capabilities become effective with an effective id of 0 only. -/
  regained :
    ∀ call c, (K call c).2.euid ≠ 0 → ((K call c).2.setsUids = true → c.setsUids = true) ∧
      ((K call c).2.setsGids = true → c.setsGids = true)
  /-- Who had an id of 0 and has none any more has no capabilities either. -/
  cleared :
    ∀ call c, 0 ∈ c.uids → 0 ∉ (K call c).2.uids →
      (K call c).2.setsUids = false ∧ (K call c).2.setsGids = false
  /-- Other effective ids set the attribute back to what is configured. -/
  dumpable_reset : ∀ c c' d, ¬ c.SameEffective c' → K.dumpable c c' d = K.suidDumpable
  /-- Nothing else about the credentials does. -/
  dumpable_kept : ∀ c c' d, c.SameEffective c' → K.dumpable c c' d = d

section Effective

variable {K : Kernel} {c c₁ c₂ : Credentials}

theorem Kernel.Documented.euid_kept
    (hK : K.Documented)
    (call : CredentialCall) (h : call.kind ≠ .user) (c : Credentials) :
    (K call c).2.euid = c.euid :=
  (List.cons.inj (List.cons.inj (hK.users_only call c h).1).2).1

theorem Kernel.Documented.egid_kept
    (hK : K.Documented)
    (call : CredentialCall) (h : call.kind ≠ .group) (c : Credentials) :
    (K call c).2.egid = c.egid :=
  (List.cons.inj (List.cons.inj (hK.gids_only call c h)).2).1

/-- Two changes are one, unless the second takes back the effective ids that the first left. -/
theorem Kernel.Documented.dumpable_dumpable
    (hK : K.Documented)
    (h : c.SameEffective c₂ → c.SameEffective c₁) (d : Dumpable) :
    K.dumpable c₁ c₂ (K.dumpable c c₁ d) = K.dumpable c c₂ d := by
  by_cases h₁ : c.SameEffective c₁
  · rw [hK.dumpable_kept c c₁ d h₁]
    by_cases h₂ : c.SameEffective c₂
    · rw [hK.dumpable_kept c c₂ d h₂,
        hK.dumpable_kept c₁ c₂ d ⟨h₂.1.trans h₁.1.symm, h₂.2.trans h₁.2.symm⟩]
    · rw [hK.dumpable_reset c c₂ d h₂, hK.dumpable_reset c₁ c₂ d]
      exact fun h₁₂ => h₂ ⟨h₁₂.1.trans h₁.1, h₁₂.2.trans h₁.2⟩
  · rw [hK.dumpable_reset c c₁ d h₁, hK.dumpable_reset c c₂ d (mt h h₁)]
    by_cases h₁₂ : c₁.SameEffective c₂
    · exact hK.dumpable_kept c₁ c₂ _ h₁₂
    · exact hK.dumpable_reset c₁ c₂ _ h₁₂

end Effective

/-- One user id throughout, one group id, no other groups, and no way to others. -/
structure Dropped (uid gid : UInt32) (c : Credentials) : Prop where
  uids : c.uids = [uid, uid, uid]
  gids : c.gids = [gid, gid, gid]
  groups : c.groups = []
  not_root : uid ≠ 0
  setsUids : c.setsUids = false
  setsGids : c.setsGids = false

section Dropped

variable {K : Kernel} {uid gid : UInt32} {c : Credentials}

/-- Three ids of which each is the same. -/
theorem eq_triple
    {α : Type} {x a b d : α}
    (h : ∀ y ∈ [a, b, d], y ∈ [x, x, x]) :
    [a, b, d] = [x, x, x] := by
  simp only [List.mem_cons, List.not_mem_nil, or_false, or_self, forall_eq_or_imp,
    forall_eq] at h
  obtain ⟨rfl, rfl, rfl⟩ := h
  rfl

theorem Dropped.call
    (hK : K.Documented)
    (h : Dropped uid gid c) (call : CredentialCall) :
    Dropped uid gid (K call c).2 := by
  have huids : (K call c).2.uids = [uid, uid, uid] :=
    eq_triple fun y hy => h.uids ▸ hK.uids_chosen call c h.setsUids y hy
  have hgids : (K call c).2.gids = [gid, gid, gid] :=
    eq_triple fun y hy => h.gids ▸ hK.gids_chosen call c h.setsGids y hy
  have heuid : (K call c).2.euid ≠ 0 := by
    have heq : (K call c).2.euid = uid := (List.cons.inj (List.cons.inj huids).2).1
    rw [heq]
    exact h.not_root
  obtain ⟨hsetsUids, hsetsGids⟩ := hK.regained call c heuid
  refine ⟨huids, hgids, (hK.groups_chosen call c h.setsGids).trans h.groups, h.not_root, ?_, ?_⟩
  · exact Bool.eq_false_iff.mpr fun ht => absurd (hsetsUids ht) (by rw [h.setsUids]; decide)
  · exact Bool.eq_false_iff.mpr fun ht => absurd (hsetsGids ht) (by rw [h.setsGids]; decide)

/-- The credentials after one call. -/
def Kernel.after (K : Kernel) (c : Credentials) (call : CredentialCall) : Credentials :=
  (K call c).2

/-- Whatever a process that has dropped its privileges calls, it has dropped them. -/
theorem Dropped.calls
    (hK : K.Documented)
    (h : Dropped uid gid c) (calls : List CredentialCall) :
    Dropped uid gid (run K.after c calls) :=
  run_invariant (Dropped uid gid) (fun _ => True) (fun _ call _ hc => hc.call hK call)
    (fun _ _ => trivial) h

/-- How a process with an id of 0 drops its privileges. -/
theorem Dropped.of_calls
    {c₁ c₂ c₃ : Credentials}
    (hK : K.Documented)
    (hroot : 0 ∈ c.uids) (huid : uid ≠ 0)
    (hgroups : K (.setgroups []) c = (true, c₁))
    (hgids : K (.allGids gid) c₁ = (true, c₂))
    (huids : K (.allUids uid) c₂ = (true, c₃)) :
    Dropped uid gid c₃ := by
  have huidsSet := hK.setresuid_ids c₂ uid uid uid (congrArg Prod.fst huids)
  have hgidsSet := hK.setresgid_ids c₁ gid gid gid (congrArg Prod.fst hgids)
  have hgroupsSet := hK.setgroups_groups c [] (congrArg Prod.fst hgroups)
  have huidsKept := hK.users_only (.allGids gid) c₁ nofun
  have huidsKept' := hK.users_only (.setgroups []) c nofun
  have hgidsKept := hK.gids_only (.allUids uid) c₂ nofun
  have hgroupsKept := hK.groups_only (.allGids gid) c₁ nofun
  have hgroupsKept' := hK.groups_only (.allUids uid) c₂ nofun
  have hcleared := hK.cleared (.allUids uid) c₂
  rw [CredentialCall.allUids] at huids hgidsKept hgroupsKept' hcleared
  rw [CredentialCall.allGids] at hgids huidsKept hgroupsKept
  rw [huids] at huidsSet hgidsKept hgroupsKept' hcleared
  rw [hgids] at hgidsSet huidsKept hgroupsKept
  rw [hgroups] at hgroupsSet huidsKept'
  have hroot₂ : 0 ∈ c₂.uids := by
    rw [huidsKept.1, huidsKept'.1]
    exact hroot
  have hnone : 0 ∉ c₃.uids := by
    rw [huidsSet]
    simpa using huid.symm
  obtain ⟨hsetsUids, hsetsGids⟩ := hcleared hroot₂ hnone
  exact ⟨huidsSet, hgidsKept.trans hgidsSet, hgroupsKept'.trans (hgroupsKept.trans hgroupsSet),
    huid, hsetsUids, hsetsGids⟩

end Dropped

section Standard

/-- The credentials with these user ids, and the capabilities that go with them. -/
def Credentials.withUids (c : Credentials) (r e s : UInt32) : Credentials :=
  let effective (capability : Bool) : Bool :=
    if e = 0 then c.euid ≠ 0 || capability
    else capability && !(0 ∈ c.uids)
  { c with
    ruid := r
    euid := e
    suid := s
    setsUids := effective c.setsUids
    setsGids := effective c.setsGids }

/-- The id that a call asks for is one that the process may take. -/
def mayTake (any : Bool) (ids : List UInt32) (asked : Option UInt32) : Bool :=
  any || asked.all fun id => decide (id ∈ ids)

/-- The calls of a kernel without failures of its own. -/
def Kernel.standardCall : CredentialCall → Credentials → Bool × Credentials
  | .setuid uid, c =>
      if c.setsUids then (true, c.withUids uid uid uid)
      else if uid = c.ruid ∨ uid = c.suid then (true, c.withUids c.ruid uid c.suid)
      else (false, c)
  | .setresuid r e s, c =>
      if [r, e, s].all (mayTake c.setsUids c.uids) then
        (true, c.withUids (r.getD c.ruid) (e.getD c.euid) (s.getD c.suid))
      else (false, c)
  | .setgid gid, c =>
      if c.setsGids then (true, { c with rgid := gid, egid := gid, sgid := gid })
      else if gid = c.rgid ∨ gid = c.sgid then (true, { c with egid := gid })
      else (false, c)
  | .setresgid r e s, c =>
      if [r, e, s].all (mayTake c.setsGids c.gids) then
        (true,
          { c with rgid := r.getD c.rgid, egid := e.getD c.egid, sgid := s.getD c.sgid })
      else (false, c)
  | .setgroups groups, c =>
      if c.setsGids then (true, { c with groups := groups }) else (false, c)

/-- A kernel without failures of its own, as it is configured by default. -/
def Kernel.standard : Kernel where
  call := standardCall
  suidDumpable := .never
  dumpable c c' d := if c.SameEffective c' then d else .never

theorem mayTake_getD
    {ids : List UInt32} {asked : Option UInt32} {id : UInt32}
    (h : mayTake false ids asked = true) (hid : id ∈ ids) :
    asked.getD id ∈ ids := by
  cases asked with
  | none => exact hid
  | some asked => simpa [mayTake] using h

theorem mem_of_mayTake
    {any : Bool} {a b d : UInt32} {r e s : Option UInt32}
    (hasked : [r, e, s].all (mayTake any [a, b, d]) = true) (hany : any = false) :
    ∀ id ∈ [r.getD a, e.getD b, s.getD d], id ∈ [a, b, d] := by
  subst hany
  simp only [List.all_cons, List.all_nil, Bool.and_true, Bool.and_eq_true] at hasked
  obtain ⟨hr, he, hs⟩ := hasked
  simp only [List.forall_mem_cons]
  exact ⟨mayTake_getD hr (by simp), mayTake_getD he (by simp), mayTake_getD hs (by simp), nofun⟩

/-- Everything that the kernel does. -/
theorem Kernel.standard_cases
    (call : CredentialCall) (c : Credentials) :
    Kernel.standard call c = (false, c) ∨
    (∃ r e s, call.kind = .user ∧ Kernel.standard call c = (true, c.withUids r e s) ∧
      (c.setsUids = false → ∀ uid ∈ [r, e, s], uid ∈ c.uids)) ∨
    (∃ r e s, call.kind = .group ∧
      Kernel.standard call c = (true, { c with rgid := r, egid := e, sgid := s }) ∧
      (c.setsGids = false → ∀ gid ∈ [r, e, s], gid ∈ c.gids)) ∨
    ∃ groups, call.kind = .supplementary ∧
      Kernel.standard call c = (true, { c with groups := groups }) ∧ c.setsGids = true := by
  cases call with
  | setuid uid =>
      simp only [standard, standardCall]
      split
      · rename_i hmay
        exact .inr (.inl ⟨_, _, _, rfl, rfl, by simp [hmay]⟩)
      split
      · rename_i hown
        refine .inr (.inl ⟨_, _, _, rfl, rfl, fun _ => ?_⟩)
        rcases hown with rfl | rfl <;> simp [Credentials.uids]
      · exact .inl rfl
  | setresuid r e s =>
      simp only [standard, standardCall]
      split
      · rename_i hmay
        exact .inr (.inl ⟨_, _, _, rfl, rfl, mem_of_mayTake hmay⟩)
      · exact .inl rfl
  | setgid gid =>
      simp only [standard, standardCall]
      split
      · rename_i hmay
        exact .inr (.inr (.inl ⟨_, _, _, rfl, rfl, by simp [hmay]⟩))
      split
      · rename_i hown
        refine .inr (.inr (.inl ⟨c.rgid, gid, c.sgid, rfl, rfl, fun _ => ?_⟩))
        rcases hown with rfl | rfl <;> simp [Credentials.gids]
      · exact .inl rfl
  | setresgid r e s =>
      simp only [standard, standardCall]
      split
      · rename_i hmay
        exact .inr (.inr (.inl ⟨_, _, _, rfl, rfl, mem_of_mayTake hmay⟩))
      · exact .inl rfl
  | setgroups groups =>
      simp only [standard, standardCall]
      split
      · rename_i hmay
        exact .inr (.inr (.inr ⟨groups, rfl, rfl, hmay⟩))
      · exact .inl rfl

theorem Credentials.regained_withUids
    (c : Credentials) {r e s : UInt32}
    (h : e ≠ 0) :
    ((c.withUids r e s).setsUids = true → c.setsUids = true) ∧
      ((c.withUids r e s).setsGids = true → c.setsGids = true) := by
  simp only [withUids, h, if_false, Bool.and_eq_true]
  exact ⟨And.left, And.left⟩

theorem Credentials.cleared_withUids
    (c : Credentials) {r e s : UInt32}
    (hroot : 0 ∈ c.uids) (h : 0 ∉ [r, e, s]) :
    (c.withUids r e s).setsUids = false ∧ (c.withUids r e s).setsGids = false := by
  have he : e ≠ 0 := by
    rintro rfl
    exact h (by simp)
  simp [withUids, he, hroot]

/-- The manual is right about it. -/
theorem Kernel.documented_standard :
    Kernel.standard.Documented where
  users_only call c h := by
    rcases standard_cases call c with heq | ⟨_, _, _, hkind, -⟩ | ⟨_, _, _, -, heq, -⟩ |
      ⟨_, -, heq, -⟩
    · simp [heq]
    · exact absurd hkind h
    · simp [heq, Credentials.uids]
    · simp [heq, Credentials.uids]
  gids_only call c h := by
    rcases standard_cases call c with heq | ⟨_, _, _, -, heq, -⟩ | ⟨_, _, _, hkind, -⟩ |
      ⟨_, -, heq, -⟩
    · simp [heq]
    · simp [heq, Credentials.gids, Credentials.withUids]
    · exact absurd hkind h
    · simp [heq, Credentials.gids]
  groups_only call c h := by
    rcases standard_cases call c with heq | ⟨_, _, _, -, heq, -⟩ | ⟨_, _, _, -, heq, -⟩ |
      ⟨_, hkind, -⟩
    · simp [heq]
    · simp [heq, Credentials.withUids]
    · simp [heq]
    · exact absurd hkind h
  setresuid_ids c r e s h := by
    simp only [standard, standardCall] at h ⊢
    split at h
    · rename_i hall
      rw [if_pos hall]
      rfl
    · cases h
  setresgid_ids c r e s h := by
    simp only [standard, standardCall] at h ⊢
    split at h
    · rename_i hall
      rw [if_pos hall]
      rfl
    · cases h
  setgroups_groups c groups h := by
    simp only [standard, standardCall] at h ⊢
    split at h
    · rename_i hmay
      rw [if_pos hmay]
    · cases h
  setuid_id c uid h := by
    simp only [standard, standardCall] at h ⊢
    split
    · rfl
    split
    · rfl
    · simp_all
  setuid_permitted c uid h := by
    simp only [standard, standardCall]
    split
    · rfl
    · rename_i hno
      rw [if_pos (h.resolve_left hno)]
  uids_chosen call c h := by
    rcases standard_cases call c with heq | ⟨_, _, _, -, heq, hmem⟩ | ⟨_, _, _, -, heq, -⟩ |
      ⟨_, -, heq, -⟩ <;> rw [heq]
    · exact fun _ hid => hid
    · exact hmem h
    · exact fun _ hid => hid
    · exact fun _ hid => hid
  gids_chosen call c h := by
    rcases standard_cases call c with heq | ⟨_, _, _, -, heq, -⟩ | ⟨_, _, _, -, heq, hmem⟩ |
      ⟨_, -, heq, -⟩ <;> rw [heq]
    · exact fun _ hid => hid
    · exact fun _ hid => hid
    · exact hmem h
    · exact fun _ hid => hid
  groups_chosen call c h := by
    rcases standard_cases call c with heq | ⟨_, _, _, -, heq, -⟩ | ⟨_, _, _, -, heq, -⟩ |
      ⟨_, -, heq, hmay⟩ <;> rw [heq]
    · rfl
    · rw [hmay] at h
      cases h
  regained call c h := by
    rcases standard_cases call c with heq | ⟨r, e, s, -, heq, -⟩ | ⟨_, _, _, -, heq, -⟩ |
      ⟨_, -, heq, -⟩ <;> rw [heq] at h ⊢
    · exact ⟨id, id⟩
    · exact c.regained_withUids h
    · exact ⟨id, id⟩
    · exact ⟨id, id⟩
  cleared call c hroot h := by
    rcases standard_cases call c with heq | ⟨r, e, s, -, heq, -⟩ | ⟨_, _, _, -, heq, -⟩ |
      ⟨_, -, heq, -⟩ <;> rw [heq] at h ⊢
    · exact absurd hroot h
    · exact c.cleared_withUids hroot h
    · exact absurd hroot h
    · exact absurd hroot h
  dumpable_reset _ _ _ h := if_neg h
  dumpable_kept _ _ _ h := if_pos h

end Standard

end Lib
end Secretbae
