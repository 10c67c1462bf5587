import Secretbae.Cli.Exec
import Secretbae.Cli.Token
import Secretbae.Lib.Overlay
import Secretbae.Policy.Token
import Secretbae.Service.Decision

/-!
# The environment of the child

`build_child_env` drops the two token variables and every variable whose value
is the token, and puts the resolved secrets over the rest.  The comparison is
of raw values, while the daemon trims what it is presented with:
`childEnv_isClean_iff` says for which parents no usable credential is inherited.
-/

namespace Secretbae
namespace Cli

open Lib Proto Core Policies

/-- The standard token variables. -/
def tokenVariables : List String :=
  ["SECRETBAE_TOKEN", "SECRETBAE_TOKEN_FILE"]

/-- Neither `continue` is taken for the pair. -/
def survives (tokenToStrip : Option String) (pair : String × String) : Bool :=
  decide (pair.1 ∉ tokenVariables) &&
    !tokenToStrip.any fun token => decide (token ≠ "" ∧ pair.2 = token)

/-- `build_child_env`. -/
def buildChildEnv (parentEnv resolvedSecrets : List (String × String))
    (tokenToStrip : Option String) : List (String × String) :=
  let envMap : Std.TreeMap String String := insertAll ∅ (parentEnv.filter (survives tokenToStrip))
  (insertAll envMap resolvedSecrets).toList

example :
    buildChildEnv [("B", "1"), ("SECRETBAE_TOKEN", "t"), ("A", "t"), ("C", "2")] [("B", "3")]
      (some "t") = [("B", "3"), ("C", "2")] := by
  decide +kernel

/-- What the child finds under a name: a resolved secret, or else the last surviving variable. -/
theorem mem_buildChildEnv_iff
    {parentEnv resolvedSecrets : List (String × String)} {tokenToStrip : Option String}
    {name value : String} :
    (name, value) ∈ buildChildEnv parentEnv resolvedSecrets tokenToStrip ↔
      (lastValue resolvedSecrets name).or
        (lastValue (parentEnv.filter (survives tokenToStrip)) name) = some value := by
  unfold buildChildEnv
  rw [Std.TreeMap.mem_toList_iff_getElem?_eq_some, getElem?_insertAll, getElem?_insertAll]
  simp

/-- A variable that the parent passes on as it is: not of the token, and not overridden. -/
structure PassedOn (resolvedSecrets : List (String × String)) (token : String)
    (pair : String × String) : Prop where
  name : pair.1 ∉ tokenVariables
  value : pair.2 ≠ token
  notResolved : pair.1 ∉ resolvedSecrets.map Prod.fst

/-- The daemon takes the value for this token: it parses, and is the token once trimmed. -/
def Presents (sha256 : Bytes → Digest) (value token : String) : Prop :=
  (∃ t, PresentedToken.parse sha256 value = .ok t) ∧ trim value.toList = token.toList

/-- What the environment of a child should be. -/
structure IsClean (sha256 : Bytes → Digest) (parentEnv resolvedSecrets : List (String × String))
    (token : String) (childEnv : List (String × String)) : Prop where
  resolved : ∀ pair ∈ resolvedSecrets, pair ∈ childEnv
  inherited : ∀ pair ∈ parentEnv, PassedOn resolvedSecrets token pair → pair ∈ childEnv
  noCredential : ∀ pair ∈ parentEnv, pair.1 ∉ resolvedSecrets.map Prod.fst → pair ∈ childEnv →
    ¬ Presents sha256 pair.2 token

/-- No name is passed on with two values, and no value differs from the token by white space. -/
structure Unpadded (sha256 : Bytes → Digest) (parentEnv resolvedSecrets : List (String × String))
    (token : String) : Prop where
  oneValue : ∀ pair ∈ parentEnv, ∀ other ∈ parentEnv, PassedOn resolvedSecrets token pair →
    PassedOn resolvedSecrets token other → pair.1 = other.1 → pair.2 = other.2
  raw : (∃ t, PresentedToken.parse sha256 token = .ok t) →
    ∀ pair ∈ parentEnv, pair.1 ∉ tokenVariables → pair.1 ∉ resolvedSecrets.map Prod.fst →
      trim pair.2.toList = token.toList → pair.2 = token

section Clean

variable {sha256 : Bytes → Digest}
variable {parentEnv resolvedSecrets : List (String × String)} {token : String}

/-- Only the trimmed text counts for the daemon. -/
theorem parse_eq_of_trim_eq
    {a b : String}
    (h : trim a.toList = trim b.toList) :
    PresentedToken.parse sha256 a = PresentedToken.parse sha256 b := by
  unfold PresentedToken.parse
  rw [h]

theorem presents_iff
    (htoken : Resolved token)
    {value : String} :
    Presents sha256 value token ↔
      (∃ t, PresentedToken.parse sha256 token = .ok t) ∧ trim value.toList = token.toList := by
  refine and_congr_left fun htrim => ?_
  rw [parse_eq_of_trim_eq (htrim.trans htoken.trimmed.symm)]

theorem survives_iff
    (hne : token ≠ "")
    {pair : String × String} :
    survives (some token) pair = true ↔ pair.1 ∉ tokenVariables ∧ pair.2 ≠ token := by
  simp [survives, hne]

/-- Under a name that is not resolved the child finds what the parent passes on last. -/
theorem mem_buildChildEnv_of_not_resolved
    {pair : String × String}
    (h : pair.1 ∉ resolvedSecrets.map Prod.fst) :
    pair ∈ buildChildEnv parentEnv resolvedSecrets (some token) ↔
      lastValue (parentEnv.filter (survives (some token))) pair.1 = some pair.2 := by
  rw [← Prod.mk.eta (p := pair), mem_buildChildEnv_iff, lastValue_eq_none_iff.mpr h]
  rfl

theorem passedOn_of_mem_buildChildEnv
    (hne : token ≠ "")
    {pair : String × String}
    (hname : pair.1 ∉ resolvedSecrets.map Prod.fst)
    (hmem : pair ∈ buildChildEnv parentEnv resolvedSecrets (some token)) :
    PassedOn resolvedSecrets token pair := by
  have hlast := (mem_buildChildEnv_of_not_resolved hname).mp hmem
  have hsurvives := (List.mem_filter.mp (mem_of_lastValue hlast)).2
  obtain ⟨hvariable, hvalue⟩ := (survives_iff hne).mp hsurvives
  exact ⟨hvariable, hvalue, hname⟩

/-- Passing all of a name's values on and keeping each of them is possible only for one value. -/
theorem inherited_iff_oneValue
    (hne : token ≠ "") (parentEnv resolvedSecrets : List (String × String)) :
    (∀ pair ∈ parentEnv, PassedOn resolvedSecrets token pair →
        pair ∈ buildChildEnv parentEnv resolvedSecrets (some token)) ↔
      ∀ pair ∈ parentEnv, ∀ other ∈ parentEnv, PassedOn resolvedSecrets token pair →
        PassedOn resolvedSecrets token other → pair.1 = other.1 → pair.2 = other.2 := by
  constructor
  · intro hall pair hpair other hother hpassed hpassed' hname
    have hlast := (mem_buildChildEnv_of_not_resolved hpassed.notResolved).mp
      (hall pair hpair hpassed)
    have hlast' := (mem_buildChildEnv_of_not_resolved hpassed'.notResolved).mp
      (hall other hother hpassed')
    rw [hname, hlast'] at hlast
    exact (Option.some.inj hlast).symm
  · intro hone pair hpair hpassed
    refine (mem_buildChildEnv_of_not_resolved hpassed.notResolved).mpr ?_
    refine lastValue_eq_some_of_mem ?_ fun value hvalue => ?_
    · exact List.mem_filter.mpr ⟨hpair, (survives_iff hne).mpr ⟨hpassed.name, hpassed.value⟩⟩
    · obtain ⟨hother, hsurvives⟩ := List.mem_filter.mp hvalue
      obtain ⟨hvariable, hdiffers⟩ := (survives_iff hne).mp hsurvives
      exact hone _ hother pair hpair ⟨hvariable, hdiffers, hpassed.notResolved⟩ hpassed rfl

end Clean

/--
The child gets every resolved secret and every other variable of the parent, and
none that still presents the token, exactly where the parent passes no name on
with two values and no value that is the token only up to white space.
-/
theorem childEnv_isClean_iff
    {sha256 : Bytes → Digest} {parentEnv resolvedSecrets : List (String × String)}
    {token : String}
    (hnames : (resolvedSecrets.map Prod.fst).Nodup)
    (htoken : Resolved token) :
    IsClean sha256 parentEnv resolvedSecrets token
        (buildChildEnv parentEnv resolvedSecrets (some token)) ↔
      Unpadded sha256 parentEnv resolvedSecrets token := by
  have hone := inherited_iff_oneValue htoken.nonempty parentEnv resolvedSecrets
  constructor
  · rintro ⟨-, hinherited, hclean⟩
    refine ⟨hone.mp hinherited, fun hparses pair hpair hvariable hname htrim => ?_⟩
    by_contra hvalue
    have hmem := hinherited pair hpair ⟨hvariable, hvalue, hname⟩
    exact hclean pair hpair hname hmem ((presents_iff htoken).mpr ⟨hparses, htrim⟩)
  · rintro ⟨hvalues, hraw⟩
    refine ⟨?_, hone.mpr hvalues, ?_⟩
    · rintro ⟨name, value⟩ hpair
      rw [mem_buildChildEnv_iff, lastValue_of_nodup hnames hpair]
      rfl
    · intro pair hpair hname hmem hpresents
      obtain ⟨hparses, htrim⟩ := (presents_iff htoken).mp hpresents
      have hpassed := passedOn_of_mem_buildChildEnv htoken.nonempty hname hmem
      exact hpassed.value (hraw hparses pair hpair hpassed.name hname htrim)

section Names

variable {P : Primitives} {F : Service.Foreign}

/-- The values of the variables come under the variables' own names. -/
theorem map_fst_of_injected
    {resolved : SecretPath → Option (Version × String)} {vars : List MappedVar}
    {pairs : List (String × String)}
    (h : vars.mapM (injected F resolved) = .ok pairs) :
    pairs.map Prod.fst = vars.map MappedVar.name := by
  have hall : List.Forall₂ (fun var pair => injected F resolved var = .ok pair) vars pairs :=
    mapM_eq_ok h
  clear h
  induction hall with
  | nil =>
      rfl
  | cons hpair _ ih =>
      obtain ⟨_, _, _, _, _, _, _, hname⟩ := injected_eq_ok_iff.mp hpair
      rw [List.map_cons, List.map_cons, hname, ih]

/-- A profile resolves to pairs with distinct names. -/
theorem resolveProfile_names_nodup
    {conn : Service.Connection} {prof : Profile} {env : ExecEnv} {s t : Service.State P}
    {pairs : List (String × String)}
    (h : (resolveProfile P F conn prof env).alone s = (.ok pairs, t)) :
    (pairs.map Prod.fst).Nodup := by
  obtain ⟨derived, mid, -, h⟩ := Script.alone_bind_eq_ok h
  obtain ⟨_, hcheck, h⟩ := Script.alone_ofExcept_bind_eq_ok h
  have hnodup := checkNoDuplicateEnvNames_eq_ok_iff.mp hcheck
  rw [List.map_map] at hnodup
  unfold fetchVars at h
  split at h
  · cases h
    exact List.nodup_nil
  · obtain ⟨secrets, after, -, h⟩ := Script.alone_bind_eq_ok h
    rw [Script.alone_ofExcept] at h
    rw [map_fst_of_injected (Prod.mk.inj h).1]
    exact hnodup

end Names

section Witnesses

theorem resolved_sampleTokenText : Resolved Service.sampleTokenText :=
  ⟨by decide, by decide +kernel⟩

/-- A parent with the token in its variable, and a secret that replaces a variable. -/
def sampleParent : List (String × String) :=
  [("PATH", "/bin"), ("SECRETBAE_TOKEN", Service.sampleTokenText), ("DB", "old")]

theorem child_of_sample_parent_is_clean :
    IsClean Service.sampleForeign.sha256 sampleParent [("DB", "new")] Service.sampleTokenText
      (buildChildEnv sampleParent [("DB", "new")] (some Service.sampleTokenText)) := by
  have hone : ∀ pair ∈ sampleParent, ∀ other ∈ sampleParent,
      pair.1 = other.1 → pair.2 = other.2 := by
    decide
  have hraw : ∀ pair ∈ sampleParent, trim pair.2.toList = Service.sampleTokenText.toList →
      pair.2 = Service.sampleTokenText := by
    decide +kernel
  refine (childEnv_isClean_iff (by decide) resolved_sampleTokenText).mpr ⟨?_, ?_⟩
  · intro pair hpair other hother _ _ hname
    exact hone pair hpair other hother hname
  · intro _ pair hpair _ _ htrim
    exact hraw pair hpair htrim

/-- A variable that holds the token and a line feed reaches the child. -/
theorem padded_token_reaches_child :
    ("LEGACY", Service.sampleTokenText ++ "\n") ∈
        buildChildEnv [("LEGACY", Service.sampleTokenText ++ "\n")] []
          (some Service.sampleTokenText) ∧
      ¬ IsClean Service.sampleForeign.sha256 [("LEGACY", Service.sampleTokenText ++ "\n")] []
        Service.sampleTokenText
        (buildChildEnv [("LEGACY", Service.sampleTokenText ++ "\n")] []
          (some Service.sampleTokenText)) := by
  have hmem : ("LEGACY", Service.sampleTokenText ++ "\n") ∈
      buildChildEnv [("LEGACY", Service.sampleTokenText ++ "\n")] []
        (some Service.sampleTokenText) := by
    decide +kernel
  have hparse : PresentedToken.parse Service.sampleForeign.sha256
      (Service.sampleTokenText ++ "\n") = .ok Service.samplePresented := by
    decide +kernel
  refine ⟨hmem, fun hclean => ?_⟩
  refine hclean.noCredential _ (List.mem_singleton_self _) (by simp) hmem ⟨⟨_, hparse⟩, ?_⟩
  decide +kernel

end Witnesses

end Cli
end Secretbae
