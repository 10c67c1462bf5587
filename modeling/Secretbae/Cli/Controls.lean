import Secretbae.Cli.App

/-!
# The table and its controls

What the table of the metadata browser is for: the secrets last delivered that
the filter and the tag let through, in the order of the sort column and the
direction, with a selection inside it.  `table_follows_controls` says for every
run of the functions of `App` when each step leaves it so, and when cancelling
restores the filter that was in force when filtering started.
-/

namespace Secretbae
namespace Cli

open Lib Proto Service

section Reflects

variable (lower : Lowercase)

/-- The path contains the filter, whatever the case of either. -/
def App.PathWanted (app : App) (secret : SecretSummaryDto) : Prop :=
  (lower.apply app.pathFilter).toList <:+: (lower.apply secret.path.asStr).toList

instance (app : App) (secret : SecretSummaryDto) : Decidable (app.PathWanted lower secret) :=
  inferInstanceAs (Decidable (_ <:+: _))

/-- And the secret has the tag, if one is selected. -/
def App.Wanted (app : App) (secret : SecretSummaryDto) : Prop :=
  app.PathWanted lower secret ∧ ∀ tag ∈ app.selectedTag, tag ∈ secret.tags

instance (app : App) (secret : SecretSummaryDto) : Decidable (app.Wanted lower secret) :=
  inferInstanceAs (Decidable (_ ∧ _))

/-- The table is what the controls say of the secrets `delivered`. -/
structure App.Reflects (app : App) (delivered : List SecretSummaryDto) : Prop where
  rows : app.filteredSecrets.Perm (delivered.filter fun s => decide (app.Wanted lower s))
  order : app.filteredSecrets.Pairwise app.sortCriteria.Precedes
  empty : app.filteredSecrets = [] → app.selectedIndex = 0
  inside : app.filteredSecrets ≠ [] → app.selectedIndex < app.filteredSecrets.length

variable {lower}

theorem App.keeps_eq
    (app : App) (secret : SecretSummaryDto) :
    app.keeps lower secret = decide (app.Wanted lower secret) := by
  unfold App.keeps App.Wanted App.PathWanted
  have htag : (app.selectedTag.elim true fun tag => decide (tag ∈ secret.tags)) =
      decide (∀ tag ∈ app.selectedTag, tag ∈ secret.tags) := by
    cases app.selectedTag <;> simp
  by_cases hfilter : app.pathFilter = ""
  · simp [htag, hfilter, lower.nil]
  · simp [htag, hfilter]

theorem App.recompute_reflects
    (app : App) :
    (app.recompute lower).Reflects lower app.allSecrets where
  rows := by
    have hwanted : ∀ s ∈ app.allSecrets,
        decide ((app.recompute lower).Wanted lower s) = app.keeps lower s :=
      fun s _ => (app.keeps_eq s).symm
    rw [List.filter_congr hwanted]
    exact sortBy_perm app.sortCriteria.ordering _
  order := pairwise_sortBy_ordering app.sortCriteria _
  empty := fun h => if_pos h
  inside := by
    intro h
    have hpos := List.length_pos_iff.mpr h
    simp only [App.recompute] at h hpos ⊢
    rw [if_neg h]
    split <;> omega

/-- What the table says depends on five fields. -/
theorem App.Reflects.congr
    {app app' : App} {delivered : List SecretSummaryDto}
    (h : app.Reflects lower delivered)
    (htable : app'.filteredSecrets = app.filteredSecrets)
    (hfilter : app'.pathFilter = app.pathFilter)
    (htag : app'.selectedTag = app.selectedTag)
    (hsort : app'.sortCriteria = app.sortCriteria)
    (hempty : app.filteredSecrets = [] → app'.selectedIndex = 0)
    (hinside : app.filteredSecrets ≠ [] → app'.selectedIndex < app.filteredSecrets.length) :
    app'.Reflects lower delivered where
  rows := by
    have hwanted : ∀ s ∈ delivered,
        decide (app'.Wanted lower s) = decide (app.Wanted lower s) := by
      intro s _
      refine decide_eq_decide.mpr ?_
      unfold App.Wanted App.PathWanted
      rw [hfilter, htag]
    rw [htable, List.filter_congr hwanted]
    exact h.rows
  order := by
    rw [htable, hsort]
    exact h.order
  empty := by
    rw [htable]
    exact hempty
  inside := by
    rw [htable]
    exact hinside

end Reflects

section Steps

variable (lower : Lowercase)

/-- A function that changes neither the secrets nor the controls, nor leaves the table. -/
structure App.Browses (app app' : App) : Prop where
  secrets : app'.allSecrets = app.allSecrets
  table : app'.filteredSecrets = app.filteredSecrets
  pathFilter : app'.pathFilter = app.pathFilter
  tag : app'.selectedTag = app.selectedTag
  sort : app'.sortCriteria = app.sortCriteria
  index : app'.selectedIndex ≤ app.selectedIndex ∨
    app'.selectedIndex < max 1 app.filteredSecrets.length

/-- A function that ends by computing the table again. -/
def App.Recomputes (delivered : List SecretSummaryDto) (app' : App) : Prop :=
  ∃ app : App, app' = app.recompute lower ∧ app.allSecrets = delivered

/-- The secrets last delivered. -/
def AppOp.delivered (delivered : List SecretSummaryDto) : AppOp → List SecretSummaryDto
  | .setSecrets secrets => secrets
  | _ => delivered

variable {lower}

/-- The early return of `cycle_tag`. -/
def App.deselect (app : App) : App :=
  { app with selectedTag := none }

theorem max_one_length
    {α : Type} {xs : List α} (h : xs ≠ []) :
    max 1 xs.length = xs.length :=
  max_eq_right (List.length_pos_iff.mpr h)

theorem App.Browses.refl
    (app : App) :
    app.Browses app :=
  ⟨rfl, rfl, rfl, rfl, rfl, .inl le_rfl⟩

/-- Another selection in the table. -/
theorem App.Browses.select
    {app : App} {i : Nat}
    (h : i ≤ app.selectedIndex ∨ i < max 1 app.filteredSecrets.length) :
    app.Browses { app with selectedIndex := i } :=
  ⟨rfl, rfl, rfl, rfl, rfl, h⟩

theorem App.Browses.selectNext
    (app : App) :
    app.Browses app.selectNext := by
  unfold App.selectNext
  split
  · exact .select (.inl (Nat.zero_le _))
  · split
    · rename_i hnext
      exact .select (.inr (lt_max_of_lt_right hnext))
    · exact .refl app

theorem App.Browses.selectPrev
    (app : App) :
    app.Browses app.selectPrev := by
  unfold App.selectPrev
  split
  · exact .select (.inl (Nat.zero_le _))
  · split
    · exact .select (.inl (Nat.sub_le _ _))
    · exact .refl app

theorem App.Browses.selectLast
    (app : App) :
    app.Browses app.selectLast := by
  unfold App.selectLast
  split
  · exact .select (.inl (Nat.zero_le _))
  · exact .select (.inr (by omega))

theorem App.Browses.selectPageDown
    (app : App) (pageSize : Nat) :
    app.Browses (app.selectPageDown pageSize) := by
  unfold App.selectPageDown
  split
  · exact .select (.inl (Nat.zero_le _))
  · exact .select (.inr (by omega))

theorem App.Browses.selectVersionNext
    (app : App) :
    app.Browses app.selectVersionNext := by
  unfold App.selectVersionNext
  split
  · split
    · exact ⟨rfl, rfl, rfl, rfl, rfl, .inl le_rfl⟩
    · exact .refl app
  · exact .refl app

theorem App.Browses.selectVersionPrev
    (app : App) :
    app.Browses app.selectVersionPrev := by
  unfold App.selectVersionPrev
  split
  · exact ⟨rfl, rfl, rfl, rfl, rfl, .inl le_rfl⟩
  · exact .refl app

variable (lower) in
/-- What each function does to the table; `cycle_tag` may leave it as it is. -/
theorem AppOp.apply_table
    (app : App) (op : AppOp) :
    (op ≠ .cycleTag ∧ op.delivered app.allSecrets = app.allSecrets ∧
      app.Browses (op.apply lower app)) ∨
    ((op = .cycleTag → app.distinctTags ≠ []) ∧
      App.Recomputes lower (op.delivered app.allSecrets) (op.apply lower app)) ∨
    (op = .cycleTag ∧ app.distinctTags = [] ∧
      op.apply lower app = app.deselect) := by
  have hplain : ∀ app' : App, app'.allSecrets = app.allSecrets →
      app'.filteredSecrets = app.filteredSecrets → app'.pathFilter = app.pathFilter →
      app'.selectedTag = app.selectedTag → app'.sortCriteria = app.sortCriteria →
      app'.selectedIndex = app.selectedIndex → app.Browses app' :=
    fun app' h₁ h₂ h₃ h₄ h₅ h₆ => ⟨h₁, h₂, h₃, h₄, h₅, .inl h₆.le⟩
  cases op with
  | setSecrets secrets => exact .inr (.inl ⟨nofun, _, rfl, rfl⟩)
  | selectNext => exact .inl ⟨nofun, rfl, .selectNext app⟩
  | selectPrev => exact .inl ⟨nofun, rfl, .selectPrev app⟩
  | selectFirst => exact .inl ⟨nofun, rfl, .select (.inl (Nat.zero_le _))⟩
  | selectLast => exact .inl ⟨nofun, rfl, .selectLast app⟩
  | selectPageDown pageSize => exact .inl ⟨nofun, rfl, .selectPageDown app pageSize⟩
  | selectPageUp pageSize => exact .inl ⟨nofun, rfl, .select (.inl (Nat.sub_le _ _))⟩
  | selectVersionNext => exact .inl ⟨nofun, rfl, .selectVersionNext app⟩
  | selectVersionPrev => exact .inl ⟨nofun, rfl, .selectVersionPrev app⟩
  | inputFilterChar c => exact .inr (.inl ⟨nofun, _, rfl, rfl⟩)
  | inputFilterBackspace => exact .inr (.inl ⟨nofun, _, rfl, rfl⟩)
  | applyFilterInput => exact .inr (.inl ⟨nofun, _, rfl, rfl⟩)
  | cancelFilterInput => exact .inr (.inl ⟨nofun, _, rfl, rfl⟩)
  | applyFilter filter => exact .inr (.inl ⟨nofun, _, rfl, rfl⟩)
  | clearFilter => exact .inr (.inl ⟨nofun, _, rfl, rfl⟩)
  | cycleTag =>
      by_cases hdistinct : app.distinctTags = []
      · exact .inr (.inr ⟨rfl, hdistinct, if_pos hdistinct⟩)
      · exact .inr (.inl ⟨fun _ => hdistinct, _, if_neg hdistinct, rfl⟩)
  | cycleSort => exact .inr (.inl ⟨nofun, _, rfl, rfl⟩)
  | reverseSort => exact .inr (.inl ⟨nofun, _, rfl, rfl⟩)
  | _ => exact .inl ⟨nofun, rfl, hplain _ rfl rfl rfl rfl rfl rfl⟩

end Steps

/-- The filter in force when filtering started, and whether `clear_filter` came after that. -/
structure FilterStart where
  filter : String
  cleared : Bool
deriving DecidableEq

/-- A browser, with the secrets last delivered and how filtering started, until it ends. -/
structure Session where
  app : App
  delivered : List SecretSummaryDto
  started : Option FilterStart

/-- Before any secrets have been delivered. -/
def Session.start (socketPath : String) : Session :=
  ⟨App.new socketPath, [], none⟩

/-- Filtering starts, and ends when its input is applied or cancelled. -/
def AppOp.started (app : App) (started : Option FilterStart) : AppOp → Option FilterStart
  | .startFiltering => some ⟨app.pathFilter, false⟩
  | .applyFilterInput => none
  | .cancelFilterInput => none
  | .clearFilter => started.map fun start => { start with cleared := true }
  | _ => started

section Runs

variable (lower : Lowercase)

def Session.step (t : Session) (op : AppOp) : Session where
  app := op.apply lower t.app
  delivered := op.delivered t.delivered
  started := op.started t.app t.started

/-- What the browser promises of one step. -/
structure Session.Follows (t : Session) (op : AppOp) : Prop where
  table : (t.step lower op).app.Reflects lower (t.step lower op).delivered
  cancelled : op = .cancelFilterInput → ∀ start, t.started = some start →
    (t.step lower op).app.pathFilter = start.filter

/-- What the step may not do. -/
structure Session.Regular (t : Session) (op : AppOp) : Prop where
  /-- Deselect a tag where no secret has one any more and the filter lets a secret through. -/
  tag : op = .cycleTag → t.app.selectedTag ≠ none → (∀ s ∈ t.delivered, s.tags = []) →
    ∀ s ∈ t.delivered, ¬ t.app.PathWanted lower s
  /-- Cancel after `clear_filter`, where filtering started from a filter. -/
  cancel : op = .cancelFilterInput → ∀ start, t.started = some start →
    start.cleared = true → start.filter = ""

/-- What holds between regular steps. -/
structure Session.Inv (t : Session) : Prop where
  table : t.app.Reflects lower t.delivered
  secrets : t.app.allSecrets = t.delivered
  saved : ∀ start, t.started = some start →
    t.app.savedFilter = if start.cleared then "" else start.filter

variable {lower}

theorem Session.inv_start
    (socketPath : String) :
    (Session.start socketPath).Inv lower where
  table := ⟨.refl _, .nil, fun _ => rfl, fun h => absurd rfl h⟩
  secrets := rfl
  saved := by
    intro start h
    cases h

theorem App.distinctTags_eq_nil_iff
    (app : App) :
    app.distinctTags = [] ↔ ∀ s ∈ app.allSecrets, s.tags = [] := by
  unfold App.distinctTags
  rw [← List.length_eq_zero_iff, (sortBy_perm _ _).length_eq, List.length_eq_zero_iff,
    List.dedup_eq_nil, List.flatMap_eq_nil_iff]

/-- The secrets are those last delivered. -/
theorem AppOp.apply_allSecrets
    (app : App) (op : AppOp) :
    (op.apply lower app).allSecrets = op.delivered app.allSecrets := by
  rcases AppOp.apply_table lower app op with ⟨-, hsame, hbrowses⟩ | ⟨-, x, hx, hsecrets⟩ |
    ⟨rfl, -, hcycle⟩
  · rw [hbrowses.secrets, hsame]
  · rw [hx]
    exact hsecrets
  · rw [hcycle]
    rfl

/-- What each function does to the saved filter. -/
theorem AppOp.apply_saved
    {app : App} {started : Option FilterStart} (op : AppOp)
    (h : ∀ start, started = some start →
      app.savedFilter = if start.cleared then "" else start.filter) :
    ∀ start, op.started app started = some start →
      (op.apply lower app).savedFilter = if start.cleared then "" else start.filter := by
  intro start hstart
  cases op with
  | startFiltering =>
      cases hstart
      rfl
  | applyFilterInput => cases hstart
  | cancelFilterInput => cases hstart
  | clearFilter =>
      obtain ⟨before, -, rfl⟩ := Option.map_eq_some_iff.mp hstart
      rfl
  | selectNext =>
      rw [← h start hstart]
      simp only [AppOp.apply, App.selectNext]
      split_ifs <;> rfl
  | selectPrev =>
      rw [← h start hstart]
      simp only [AppOp.apply, App.selectPrev]
      split_ifs <;> rfl
  | selectLast =>
      rw [← h start hstart]
      simp only [AppOp.apply, App.selectLast]
      split_ifs <;> rfl
  | selectPageDown pageSize =>
      rw [← h start hstart]
      simp only [AppOp.apply, App.selectPageDown]
      split_ifs <;> rfl
  | selectVersionNext =>
      rw [← h start hstart]
      simp only [AppOp.apply, App.selectVersionNext]
      split
      · split_ifs <;> rfl
      · rfl
  | selectVersionPrev =>
      rw [← h start hstart]
      simp only [AppOp.apply, App.selectVersionPrev]
      split_ifs <;> rfl
  | cycleTag =>
      rw [← h start hstart]
      simp only [AppOp.apply, App.cycleTag]
      split_ifs <;> rfl
  | _ => exact h start hstart

/-- Browsing stays in the table. -/
theorem App.Reflects.browse
    {app app' : App} {delivered : List SecretSummaryDto}
    (h : app.Reflects lower delivered)
    (hbrowses : app.Browses app') :
    app'.Reflects lower delivered := by
  refine h.congr hbrowses.table hbrowses.pathFilter hbrowses.tag hbrowses.sort ?_ ?_
  · intro hempty
    rcases hbrowses.index with hle | hlt
    · rw [h.empty hempty] at hle
      exact Nat.le_zero.mp hle
    · rw [hempty] at hlt
      exact Nat.lt_one_iff.mp hlt
  · intro hne
    rcases hbrowses.index with hle | hlt
    · exact hle.trans_lt (h.inside hne)
    · rwa [max_one_length hne] at hlt

/-- Deselecting a tag that no secret has shows the table only where it stays empty. -/
theorem App.Reflects.deselect_iff
    {app : App} {delivered : List SecretSummaryDto}
    (h : app.Reflects lower delivered)
    (htag : app.selectedTag ≠ none)
    (hnone : ∀ s ∈ delivered, s.tags = []) :
    app.deselect.Reflects lower delivered ↔
      ∀ s ∈ delivered, ¬ app.PathWanted lower s := by
  obtain ⟨tag, htag⟩ := Option.ne_none_iff_exists'.mp htag
  -- nothing has the tag, so the table is empty as it is
  have hfiltered : app.filteredSecrets = [] := by
    have hrows : (delivered.filter fun s => decide (app.Wanted lower s)) = [] := by
      refine List.filter_eq_nil_iff.mpr ?_
      intro s hs hwanted
      have hmem := (of_decide_eq_true hwanted).2 tag htag
      rw [hnone s hs] at hmem
      cases hmem
    exact List.perm_nil.mp (hrows ▸ h.rows)
  have hwanted : ∀ s, app.deselect.Wanted lower s ↔ app.PathWanted lower s := by
    intro s
    simp [App.Wanted, App.PathWanted, App.deselect]
  constructor
  · intro hafter s hs hpath
    have hmem : s ∈ delivered.filter fun s => decide (app.deselect.Wanted lower s) :=
      List.mem_filter.mpr ⟨hs, decide_eq_true ((hwanted s).mpr hpath)⟩
    have hrow : s ∈ app.filteredSecrets := hafter.rows.mem_iff.mpr hmem
    rw [hfiltered] at hrow
    cases hrow
  · intro hpath
    refine ⟨?_, h.order, h.empty, h.inside⟩
    have hrows : (delivered.filter fun s => decide (app.deselect.Wanted lower s)) = [] := by
      refine List.filter_eq_nil_iff.mpr ?_
      intro s hs hdecide
      exact hpath s hs ((hwanted s).mp (of_decide_eq_true hdecide))
    rw [hrows]
    exact List.perm_nil.mpr hfiltered

/-- The table after a step is what the controls say, unless a tag went in the wrong moment. -/
theorem Session.Inv.table_iff
    {t : Session}
    (h : t.Inv lower) (op : AppOp) :
    (t.step lower op).app.Reflects lower (t.step lower op).delivered ↔
      (op = .cycleTag → t.app.selectedTag ≠ none → (∀ s ∈ t.delivered, s.tags = []) →
        ∀ s ∈ t.delivered, ¬ t.app.PathWanted lower s) := by
  have hdistinct := t.app.distinctTags_eq_nil_iff
  have htable := AppOp.apply_table lower t.app op
  rw [h.secrets] at hdistinct htable
  rcases htable with ⟨hop, hsame, hbrowses⟩ | ⟨hop, x, hx, hsecrets⟩ | ⟨rfl, hnil, hcycle⟩
  · refine iff_of_true ?_ fun hcycle => absurd hcycle hop
    simp only [Session.step, hsame]
    exact h.table.browse hbrowses
  · refine iff_of_true ?_ fun hcycle _ hnone => absurd (hdistinct.mpr hnone) (hop hcycle)
    simp only [Session.step, hx, ← hsecrets]
    exact x.recompute_reflects
  · have hnone := hdistinct.mp hnil
    simp only [Session.step, hcycle, AppOp.delivered, true_implies]
    by_cases htag : t.app.selectedTag = none
    · refine iff_of_true ?_ fun hne => absurd htag hne
      exact h.table.congr rfl rfl htag.symm rfl h.table.empty h.table.inside
    · rw [h.table.deselect_iff htag hnone]
      exact ⟨fun hpath _ _ => hpath, fun hpath => hpath htag hnone⟩

theorem Session.Inv.follows_iff
    {t : Session}
    (h : t.Inv lower) (op : AppOp) :
    t.Follows lower op ↔ t.Regular lower op := by
  have hcancel : op = .cancelFilterInput →
      (t.step lower op).app.pathFilter = t.app.savedFilter := by
    rintro rfl
    rfl
  constructor
  · rintro ⟨htable, hcancelled⟩
    refine ⟨(h.table_iff op).mp htable, ?_⟩
    intro hop start hstart hcleared
    rw [← hcancelled hop start hstart, hcancel hop, h.saved start hstart, if_pos hcleared]
  · rintro ⟨htag, hregular⟩
    refine ⟨(h.table_iff op).mpr htag, ?_⟩
    intro hop start hstart
    rw [hcancel hop, h.saved start hstart]
    split
    · rename_i hcleared
      exact (hregular hop start hstart hcleared).symm
    · rfl

theorem Session.Inv.step
    {t : Session} {op : AppOp}
    (h : t.Inv lower)
    (hfollows : t.Follows lower op) :
    (t.step lower op).Inv lower where
  table := hfollows.table
  secrets := by
    rw [Session.step, AppOp.apply_allSecrets, h.secrets]
  saved := op.apply_saved h.saved

/--
Along every run of the functions of `App`, every step leaves the table, the
selection and the filter as the controls say exactly where every step is
regular: no tag is deselected by a `cycle_tag` that finds no tags while the
filter lets a secret through, and no filter is cancelled that was cleared after
filtering had started from another.
-/
theorem table_follows_controls
    (lower : Lowercase) (socketPath : String) (ops : List AppOp) :
    along (Session.step lower) (Session.Follows lower) (Session.start socketPath) ops ↔
      along (Session.step lower) (Session.Regular lower) (Session.start socketPath) ops :=
  along_iff_along (fun _ op h => h.follows_iff op) (fun _ _ h hfollows => h.step hfollows)
    (Session.inv_start socketPath) ops

end Runs

section Witnesses

/-- The letters of ASCII. -/
def asciiLowercase : Lowercase where
  apply s := String.ofList (s.toList.map Char.toLower)
  nil := rfl

/-- A secret with the tag `env=prod`, and then without it. -/
def envProd : Tag :=
  ⟨"env", "prod", by decide, by decide⟩

def summary (tags : List Tag) : SecretSummaryDto :=
  ⟨Storage.samplePath, none, 0, tags, "2026-01-01T00:00:00Z"⟩

/-- The tag is selected, disappears with a refresh, and is deselected. -/
def tagGone : List AppOp :=
  [.setSecrets [summary [envProd]], .cycleTag, .setSecrets [summary []], .cycleTag]

/-- A filter is cleared while another is typed, and that is cancelled. -/
def filterCleared : List AppOp :=
  [.applyFilter "a", .startFiltering, .clearFilter, .cancelFilterInput]

/-- No tag and no filter are left, and the table is empty beside a secret. -/
theorem tag_gone_leaves_empty_table :
    ¬ along (Session.step asciiLowercase) (Session.Follows asciiLowercase)
        (Session.start "s") tagGone ∧
    (run (Session.step asciiLowercase) (Session.start "s") tagGone).app.filteredSecrets = [] ∧
    (run (Session.step asciiLowercase) (Session.start "s") tagGone).app.selectedTag = none ∧
    (run (Session.step asciiLowercase) (Session.start "s") tagGone).app.pathFilter = "" ∧
    ¬ along (Session.step asciiLowercase) (Session.Follows asciiLowercase)
        (Session.start "s") filterCleared := by
  have hempty : (run (Session.step asciiLowercase) (Session.start "s") tagGone).app.filteredSecrets
      = [] := by
    decide +kernel
  refine ⟨?_, hempty, by decide +kernel, by decide +kernel, ?_⟩
  · rintro ⟨-, -, -, htable, -⟩
    exact absurd htable.table.rows.length_eq (by decide +kernel)
  · rintro ⟨-, -, -, hcancel, -⟩
    have hfilter := hcancel.cancelled rfl ⟨"a", true⟩ (by decide +kernel)
    revert hfilter
    decide +kernel

end Witnesses

end Cli
end Secretbae
